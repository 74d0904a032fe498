import Mathlib.Data.Option.Basic

/-! Labelled machines: partial deterministic steps with outputs. A schedule is a
list of labels, so a statement about all schedules is one about all interleavings. -/
namespace Interaction

structure Machine (σ ℓ ω : Type) where
  step : σ → ℓ → Option (σ × List ω)

namespace Machine
variable {σ ℓ ω : Type} (M : Machine σ ℓ ω)

/-- Run a schedule; `none` when one of its steps is not enabled. -/
def run : σ → List ℓ → Option (σ × List ω)
  | s, [] => some (s, [])
  | s, l :: ls => (M.step s l).bind fun x => (run x.1 ls).map fun y => (y.1, x.2 ++ y.2)

/-- Every step of the schedule meets the condition in the state it is taken from. -/
def Along (C : σ → ℓ → Prop) : σ → List ℓ → Prop
  | _, [] => True
  | s, l :: ls => C s l ∧ ∀ x, M.step s l = some x → Along C x.1 ls

/-- A step that was taken: the state before it, its label and its outputs. -/
structure Taken (σ ℓ ω : Type) where
  state : σ
  label : ℓ
  outputs : List ω

/-- The steps of a schedule, up to the first one that is not enabled. -/
def history : σ → List ℓ → List (Taken σ ℓ ω)
  | _, [] => []
  | s, l :: ls =>
    match M.step s l with
    | none => []
    | some x => ⟨s, l, x.2⟩ :: history x.1 ls

def Reachable (init : σ) (s : σ) : Prop := ∃ ls os, M.run init ls = some (s, os)

variable {M}

@[simp] theorem run_nil (s : σ) : M.run s [] = some (s, []) := rfl

theorem run_cons_eq_some {s s' : σ} {l : ℓ} {ls : List ℓ} {os : List ω} :
    M.run s (l :: ls) = some (s', os) ↔ ∃ t o os', M.step s l = some (t, o) ∧
      M.run t ls = some (s', os') ∧ os = o ++ os' := by
  simp only [run, Option.bind_eq_some_iff, Option.map_eq_some_iff, Prod.exists, Prod.mk.injEq]
  constructor
  · rintro ⟨t, o, ht, u, os', hu, rfl, rfl⟩
    exact ⟨t, o, os', ht, hu, rfl⟩
  · rintro ⟨t, o, os', ht, hu, rfl⟩
    exact ⟨t, o, ht, s', os', hu, rfl, rfl⟩

theorem run_single_eq_some {s s' : σ} {l : ℓ} {os : List ω} :
    M.run s [l] = some (s', os) ↔ M.step s l = some (s', os) := by
  rw [run_cons_eq_some]
  constructor
  · rintro ⟨t, o, os', ht, hu, rfl⟩
    obtain ⟨rfl, rfl⟩ := Prod.mk.inj (Option.some.inj hu)
    rw [ht, List.append_nil]
  · intro h
    exact ⟨s', os, [], h, rfl, (List.append_nil os).symm⟩

theorem run_append_eq_some {s s' : σ} {ls ls' : List ℓ} {os : List ω} :
    M.run s (ls ++ ls') = some (s', os) ↔ ∃ t o o', M.run s ls = some (t, o) ∧
      M.run t ls' = some (s', o') ∧ os = o ++ o' := by
  induction ls generalizing s os with
  | nil =>
    constructor
    · intro h; exact ⟨s, [], os, rfl, h, rfl⟩
    · rintro ⟨t, o, o', ht, h, rfl⟩
      obtain ⟨rfl, rfl⟩ := Prod.mk.inj (Option.some.inj ht)
      exact h
  | cons l ls ih =>
    simp only [List.cons_append, run_cons_eq_some, ih]
    constructor
    · rintro ⟨t, o, _, ht, ⟨u, p, p', hu, hu', rfl⟩, rfl⟩
      exact ⟨u, o ++ p, p', ⟨t, o, p, ht, hu, rfl⟩, hu', by simp⟩
    · rintro ⟨u, _, p', ⟨t, o, p, ht, hu, rfl⟩, hu', rfl⟩
      exact ⟨t, o, p ++ p', ht, ⟨u, p, p', hu, hu', rfl⟩, by simp⟩

/-- A condition along a run: the first step meets it, and the rest of the run does. -/
theorem along_cons_iff {C : σ → ℓ → Prop} {s : σ} {l : ℓ} {ls : List ℓ} {x : σ × List ω}
    (h : M.step s l = some x) : M.Along C s (l :: ls) ↔ C s l ∧ M.Along C x.1 ls := by
  refine and_congr_right (fun _ => ?_)
  constructor
  · intro hrest
    exact hrest x h
  · intro hrest y hy
    rw [← Option.some.inj (h.symm.trans hy)]
    exact hrest

theorem Along.mono {C D : σ → ℓ → Prop} (hCD : ∀ s l, C s l → D s l) {s : σ} {ls : List ℓ}
    (h : M.Along C s ls) : M.Along D s ls := by
  induction ls generalizing s with
  | nil => trivial
  | cons l ls ih => exact ⟨hCD s l h.1, fun x hx => ih (h.2 x hx)⟩

/-- The part of a run behind a state it comes through. -/
theorem Along.behind {C : σ → ℓ → Prop} {s t : σ} {ls ls' : List ℓ} {os : List ω}
    (h : M.Along C s (ls ++ ls')) (hr : M.run s ls = some (t, os)) : M.Along C t ls' := by
  induction ls generalizing s os with
  | nil =>
    obtain ⟨rfl, -⟩ := Prod.mk.inj (Option.some.inj hr)
    exact h
  | cons l ls ih =>
    obtain ⟨u, o, os', hu, hrest, -⟩ := run_cons_eq_some.mp hr
    exact ih (h.2 (u, o) hu) hrest

theorem Along.before {C : σ → ℓ → Prop} {s : σ} {ls ls' : List ℓ}
    (h : M.Along C s (ls ++ ls')) : M.Along C s ls := by
  induction ls generalizing s with
  | nil => trivial
  | cons l ls ih => exact ⟨h.1, fun x hx => ih (h.2 x hx)⟩

instance decidableAlong {C : σ → ℓ → Prop} [∀ s l, Decidable (C s l)] :
    ∀ s ls, Decidable (M.Along C s ls)
  | _, [] => isTrue trivial
  | s, l :: ls =>
    match h : M.step s l with
    | none => decidable_of_iff (C s l)
        ⟨fun hc => ⟨hc, fun _ hx => nomatch h.symm.trans hx⟩, fun hc => hc.1⟩
    | some x =>
      letI : Decidable (M.Along C x.1 ls) := decidableAlong x.1 ls
      decidable_of_iff (C s l ∧ M.Along C x.1 ls) (along_cons_iff h).symm

theorem Reachable.init (s : σ) : M.Reachable s s := ⟨[], [], rfl⟩

theorem Reachable.run {i s s' : σ} {ls : List ℓ} {os : List ω} (h : M.Reachable i s)
    (hr : M.run s ls = some (s', os)) : M.Reachable i s' := by
  obtain ⟨ks, ps, hk⟩ := h
  exact ⟨ks ++ ls, ps ++ os, run_append_eq_some.mpr ⟨s, ps, os, hk, hr, rfl⟩⟩

/-- The induction over a schedule: an invariant of every step that meets the
condition holds after every run whose steps all meet it. -/
theorem run_invariant {I : σ → Prop} {C : σ → ℓ → Prop}
    (hstep : ∀ s l x, I s → C s l → M.step s l = some x → I x.1)
    {s s' : σ} {ls : List ℓ} {os : List ω} (hs : I s) (hC : M.Along C s ls)
    (hr : M.run s ls = some (s', os)) : I s' := by
  induction ls generalizing s os with
  | nil => simp only [run_nil, Option.some.injEq, Prod.mk.injEq] at hr; exact hr.1 ▸ hs
  | cons l ls ih =>
    obtain ⟨t, o, os', ht, hu, -⟩ := run_cons_eq_some.mp hr
    exact ih (hstep s l (t, o) hs hC.1 ht) (hC.2 _ ht) hu

/-- The induction over a schedule, for an invariant of the state and of the steps that
have led to it. -/
theorem history_invariant {I : List (Taken σ ℓ ω) → σ → Prop}
    (hstep : ∀ h s l x, I h s → M.step s l = some x → I (h ++ [⟨s, l, x.2⟩]) x.1)
    {h : List (Taken σ ℓ ω)} {s s' : σ} {ls : List ℓ} {os : List ω} (hs : I h s)
    (hr : M.run s ls = some (s', os)) : I (h ++ M.history s ls) s' := by
  induction ls generalizing h s os with
  | nil =>
    obtain ⟨rfl, -⟩ := Prod.mk.inj (Option.some.inj hr)
    rw [history, List.append_nil]
    exact hs
  | cons l ls ih =>
    obtain ⟨t, o, os', ht, hu, -⟩ := run_cons_eq_some.mp hr
    have hrest := ih (hstep h s l (t, o) hs ht) hu
    rw [List.append_assoc, List.singleton_append] at hrest
    simp only [history, ht]
    exact hrest

/-- Every step of a history is one from a state that the invariant holds of. -/
theorem forall_mem_history {I : σ → Prop} (hstep : ∀ s l x, I s → M.step s l = some x → I x.1)
    {s : σ} (hs : I s) (ls : List ℓ) :
    ∀ x ∈ M.history s ls, I x.state ∧ ∃ s', M.step x.state x.label = some (s', x.outputs) := by
  induction ls generalizing s with
  | nil => exact List.forall_mem_nil _
  | cons l ls ih =>
    cases h : M.step s l with
    | none =>
      simp only [history, h]
      exact List.forall_mem_nil _
    | some x =>
      simp only [history, h]
      exact List.forall_mem_cons.mpr ⟨⟨hs, x.1, h⟩, ih (hstep s l x hs h)⟩

/-- Every element of a list with those before it: there is none in the empty list. -/
theorem forall_split_nil {α : Type} {C : List α → α → Prop} (before : List α) (y : α)
    (after : List α) (h : [] = before ++ y :: after) : C before y :=
  absurd h.symm (List.append_ne_nil_of_right_ne_nil before (List.cons_ne_nil y after))

theorem forall_split_cons {α : Type} {C : List α → α → Prop} {x : α} {l : List α} :
    (∀ before y after, x :: l = before ++ y :: after → C before y) ↔
      C [] x ∧ ∀ before y after, l = before ++ y :: after → C (x :: before) y := by
  constructor
  · intro h
    refine ⟨h [] x l rfl, ?_⟩
    intro before y after heq
    exact h (x :: before) y after (congrArg (List.cons x) heq)
  · intro h before y after heq
    cases before with
    | nil =>
      obtain ⟨rfl, -⟩ := List.cons.inj heq
      exact h.1
    | cons z before =>
      obtain ⟨rfl, heq'⟩ := List.cons.inj heq
      exact h.2 before y after heq'

/-- A condition on the steps of a run and what has led to them gives another, by way of an
invariant that it keeps. -/
theorem forall_history_imp {I : List (Taken σ ℓ ω) → σ → Prop}
    {A B : List (Taken σ ℓ ω) → Taken σ ℓ ω → Prop}
    (himp : ∀ h s l x, I h s → M.step s l = some x → A h ⟨s, l, x.2⟩ → B h ⟨s, l, x.2⟩)
    (hstep : ∀ h s l x, I h s → M.step s l = some x → A h ⟨s, l, x.2⟩ →
      I (h ++ [⟨s, l, x.2⟩]) x.1)
    {h : List (Taken σ ℓ ω)} {s : σ} (hs : I h s) (ls : List ℓ)
    (hA : ∀ before y after, M.history s ls = before ++ y :: after → A (h ++ before) y) :
    ∀ before y after, M.history s ls = before ++ y :: after → B (h ++ before) y := by
  induction ls generalizing h s with
  | nil => exact forall_split_nil
  | cons l ls ih =>
    cases hl : M.step s l with
    | none =>
      simp only [history, hl]
      exact forall_split_nil
    | some x =>
      simp only [history, hl, forall_split_cons, List.append_nil] at hA ⊢
      refine ⟨himp h s l x hs hl hA.1, ?_⟩
      -- the step has become a part of what has led to the rest
      have hrest := ih (hstep h s l x hs hl hA.1)
      simp only [List.append_assoc, List.singleton_append] at hrest
      exact hrest hA.2

/-- Two conditions on the steps of a run and what has led to them, one of which keeps an
invariant that makes them the same. -/
theorem forall_history_iff {I : List (Taken σ ℓ ω) → σ → Prop}
    {A B : List (Taken σ ℓ ω) → Taken σ ℓ ω → Prop}
    (hiff : ∀ h s l x, I h s → M.step s l = some x → (A h ⟨s, l, x.2⟩ ↔ B h ⟨s, l, x.2⟩))
    (hstep : ∀ h s l x, I h s → M.step s l = some x → B h ⟨s, l, x.2⟩ →
      I (h ++ [⟨s, l, x.2⟩]) x.1)
    {h : List (Taken σ ℓ ω)} {s : σ} (hs : I h s) (ls : List ℓ) :
    (∀ before y after, M.history s ls = before ++ y :: after → A (h ++ before) y) ↔
      ∀ before y after, M.history s ls = before ++ y :: after → B (h ++ before) y := by
  constructor
  · apply forall_history_imp (fun h s l x hI hl => (hiff h s l x hI hl).mp) ?_ hs
    intro h s l x hI hl hA
    exact hstep h s l x hI hl ((hiff h s l x hI hl).mp hA)
  · exact forall_history_imp (fun h s l x hI hl => (hiff h s l x hI hl).mpr) hstep hs ls

theorem history_cons {s : σ} {l : ℓ} {x : σ × List ω} (h : M.step s l = some x) (ls : List ℓ) :
    M.history s (l :: ls) = ⟨s, l, x.2⟩ :: M.history x.1 ls := by
  simp only [history, h]

/-- A step of a run cuts its schedule, and from there on it may go on otherwise. -/
theorem history_split {s : σ} {ls : List ℓ} {before after : List (Taken σ ℓ ω)}
    {y : Taken σ ℓ ω} (h : M.history s ls = before ++ y :: after) :
    ∃ s' rest, M.step y.state y.label = some (s', y.outputs) ∧
      ls = before.map Taken.label ++ y.label :: rest ∧
      ∀ rest, M.history s (before.map Taken.label ++ y.label :: rest) =
        before ++ y :: M.history s' rest := by
  induction before generalizing s ls with
  | nil =>
    cases ls with
    | nil => cases h
    | cons l ls =>
      cases hl : M.step s l with
      | none =>
        simp only [history, hl] at h
        cases h
      | some x =>
        rw [history_cons hl] at h
        obtain ⟨rfl, -⟩ := List.cons.inj h
        exact ⟨x.1, ls, hl, rfl, history_cons hl⟩
  | cons z before ih =>
    cases ls with
    | nil => cases h
    | cons l ls =>
      cases hl : M.step s l with
      | none =>
        simp only [history, hl] at h
        cases h
      | some x =>
        rw [history_cons hl] at h
        obtain ⟨rfl, hrest⟩ := List.cons.inj h
        obtain ⟨s', rest, hy, rfl, hother⟩ := ih hrest
        refine ⟨s', rest, hy, rfl, ?_⟩
        intro rest'
        exact (history_cons hl _).trans (congrArg (List.cons _) (hother rest'))

/-- What an invariant says of every step holds along the run. -/
theorem along_of_invariant {I : σ → Prop} {C D : σ → ℓ → Prop}
    (hstep : ∀ s l x, I s → C s l → M.step s l = some x → I x.1)
    (hD : ∀ s l, I s → C s l → D s l) {s : σ} {ls : List ℓ} (hs : I s) (hC : M.Along C s ls) :
    M.Along D s ls := by
  induction ls generalizing s with
  | nil => trivial
  | cons l ls ih =>
    refine ⟨hD s l hs hC.1, ?_⟩
    intro x hx
    exact ih (hstep s l x hs hC.1 hx) (hC.2 x hx)

theorem along_append {C : σ → ℓ → Prop} {s : σ} {ls ls' : List ℓ} (h : M.Along C s ls)
    (h' : ∀ t os, M.run s ls = some (t, os) → M.Along C t ls') : M.Along C s (ls ++ ls') := by
  induction ls generalizing s with
  | nil => exact h' s [] rfl
  | cons l ls ih =>
    refine ⟨h.1, ?_⟩
    intro x hx
    refine ih (h.2 x hx) ?_
    intro t os hrun
    exact h' t (x.2 ++ os) (run_cons_eq_some.mpr ⟨x.1, x.2, os, hx, hrun, rfl⟩)

theorem along_true (s : σ) (ls : List ℓ) : M.Along (fun _ _ => True) s ls := by
  induction ls generalizing s with
  | nil => trivial
  | cons l ls ih => exact ⟨trivial, fun x _ => ih x.1⟩

theorem Reachable.invariant {I : σ → Prop} {i s : σ} (h : M.Reachable i s) (hi : I i)
    (hstep : ∀ s l x, I s → M.step s l = some x → I x.1) : I s := by
  obtain ⟨ls, os, hr⟩ := h
  exact run_invariant (C := fun _ _ => True) (fun s l x hs _ => hstep s l x hs) hi
    (along_true i ls) hr

end Machine
end Interaction
