import Mathlib.Data.List.Forall2
import WsServer.Base.Machine

/-! Parts of a machine: a smaller machine that takes some steps, or none, for each step of
the whole, whatever the other parts do. A run of the whole is then a run of each part. Another
machine can also do in one step what the whole does in one. -/
namespace Interaction
namespace Machine
variable {σ τ ℓ κ ω ν : Type}

/-- A part of a machine, in the states that an invariant holds of: what it sees of the state,
and the steps and outputs of its own that a step of the whole amounts to. -/
structure Part (M : Machine σ ℓ ω) (N : Machine τ κ ν) (I : σ → Prop) where
  state : σ → τ
  labels : Taken σ ℓ ω → List κ
  outputs : Taken σ ℓ ω → List ν
  step : ∀ s l s' os, I s → M.step s l = some (s', os) →
    N.run (state s) (labels ⟨s, l, os⟩) = some (state s', outputs ⟨s, l, os⟩)

variable {M : Machine σ ℓ ω} {N : Machine τ κ ν} {I : σ → Prop}

/-- The steps that a run of the whole takes in a part are a run of the part. -/
theorem Part.run (P : M.Part N I) (hI : ∀ s l x, I s → M.step s l = some x → I x.1) {s s' : σ}
    {ls : List ℓ} {os : List ω} (hs : I s) (h : M.run s ls = some (s', os)) :
    N.run (P.state s) ((M.history s ls).flatMap P.labels) =
      some (P.state s', (M.history s ls).flatMap P.outputs) := by
  induction ls generalizing s os with
  | nil =>
    obtain ⟨rfl, rfl⟩ := Prod.mk.inj (Option.some.inj h)
    rfl
  | cons l ls ih =>
    obtain ⟨t, o, os', hstep, hrest, rfl⟩ := run_cons_eq_some.mp h
    rw [history_cons hstep, List.flatMap_cons, List.flatMap_cons]
    exact run_append_eq_some.mpr ⟨P.state t, _, _, P.step s l t o hs hstep,
      ih (hI s l (t, o) hs hstep) hrest, rfl⟩

theorem history_append {s t : σ} {ls : List ℓ} {os : List ω} (h : M.run s ls = some (t, os))
    (ls' : List ℓ) : M.history s (ls ++ ls') = M.history s ls ++ M.history t ls' := by
  induction ls generalizing s os with
  | nil =>
    obtain ⟨rfl, -⟩ := Prod.mk.inj (Option.some.inj h)
    rfl
  | cons l ls ih =>
    obtain ⟨u, o, os', hstep, hrest, -⟩ := run_cons_eq_some.mp h
    rw [List.cons_append, history_cons hstep, history_cons hstep, ih hrest, List.cons_append]

theorem label_of_mem_history {s : σ} {ls : List ℓ} {x : Taken σ ℓ ω} (hx : x ∈ M.history s ls) :
    x.label ∈ ls := by
  induction ls generalizing s with
  | nil => cases hx
  | cons l ls ih =>
    cases hstep : M.step s l with
    | none =>
      simp only [history, hstep] at hx
      cases hx
    | some y =>
      rw [history_cons hstep] at hx
      rcases List.mem_cons.mp hx with rfl | hx
      · exact List.mem_cons_self
      · exact List.mem_cons_of_mem _ (ih hx)

/-- What a run puts out is what its steps do. -/
theorem outputs_history {s s' : σ} {ls : List ℓ} {os : List ω}
    (h : M.run s ls = some (s', os)) : (M.history s ls).flatMap Taken.outputs = os := by
  induction ls generalizing s os with
  | nil =>
    obtain ⟨-, rfl⟩ := Prod.mk.inj (Option.some.inj h)
    rfl
  | cons l ls ih =>
    obtain ⟨t, o, os', hstep, hrest, rfl⟩ := run_cons_eq_some.mp h
    rw [history_cons hstep, List.flatMap_cons, ih hrest]

/-- The induction over a schedule, for an invariant of the state and of the schedule so far. -/
theorem schedule_invariant {I : List ℓ → σ → Prop}
    (hstep : ∀ ks s l x, I ks s → M.step s l = some x → I (ks ++ [l]) x.1)
    {ks ls : List ℓ} {s s' : σ} {os : List ω} (hs : I ks s) (h : M.run s ls = some (s', os)) :
    I (ks ++ ls) s' := by
  induction ls generalizing ks s os with
  | nil =>
    obtain ⟨rfl, -⟩ := Prod.mk.inj (Option.some.inj h)
    rw [List.append_nil]
    exact hs
  | cons l ls ih =>
    obtain ⟨t, o, os', ht, hrest, -⟩ := run_cons_eq_some.mp h
    have hinv := ih (hstep ks s l (t, o) hs ht) hrest
    rw [List.append_assoc, List.singleton_append] at hinv
    exact hinv

/-- The induction over a schedule, for an invariant of the state and of the outputs so far. -/
theorem outputs_invariant {I : List ω → σ → Prop} {C : ℓ → Prop}
    (hstep : ∀ ps s l x, I ps s → C l → M.step s l = some x → I (ps ++ x.2) x.1)
    {ps os : List ω} {ls : List ℓ} {s s' : σ} (hs : I ps s) (hC : ∀ l ∈ ls, C l)
    (h : M.run s ls = some (s', os)) : I (ps ++ os) s' := by
  induction ls generalizing ps s os with
  | nil =>
    obtain ⟨rfl, rfl⟩ := Prod.mk.inj (Option.some.inj h)
    rw [List.append_nil]
    exact hs
  | cons l ls ih =>
    obtain ⟨t, o, os', ht, hrest, rfl⟩ := run_cons_eq_some.mp h
    obtain ⟨hl, hls⟩ := List.forall_mem_cons.mp hC
    rw [← List.append_assoc]
    exact ih (hstep ps s l (t, o) hs hl ht) hls hrest

/-- The induction over a schedule, for a machine of which each step is one of another machine:
they run in step, if a relation of the two states and of what the other one has put out is kept. -/
theorem exists_run_in_step {R : σ → τ → List ν → Prop} {C : σ → ℓ → Prop}
    {label : Taken σ ℓ ω → κ} {A : Taken σ ℓ ω → Taken τ κ ν → Prop}
    (hstep : ∀ s t ps l s' os, R s t ps → C s l → M.step s l = some (s', os) →
      ∃ t' qs, N.step t (label ⟨s, l, os⟩) = some (t', qs) ∧ R s' t' (ps ++ qs) ∧
        A ⟨s, l, os⟩ ⟨t, label ⟨s, l, os⟩, qs⟩)
    {s s' : σ} {t : τ} {ps : List ν} {ls : List ℓ} {os : List ω} (hR : R s t ps)
    (hC : M.Along C s ls) (h : M.run s ls = some (s', os)) :
    ∃ t' qs, N.run t ((M.history s ls).map label) = some (t', qs) ∧ R s' t' (ps ++ qs) ∧
      List.Forall₂ A (M.history s ls) (N.history t ((M.history s ls).map label)) := by
  induction ls generalizing s t ps os with
  | nil =>
    obtain ⟨rfl, -⟩ := Prod.mk.inj (Option.some.inj h)
    refine ⟨t, [], rfl, ?_, .nil⟩
    rw [List.append_nil]
    exact hR
  | cons l ls ih =>
    obtain ⟨u, o, os', hu, hrest, -⟩ := run_cons_eq_some.mp h
    obtain ⟨t₁, qs₁, hfirst, hR₁, hA⟩ := hstep s t ps l u o hR hC.1 hu
    obtain ⟨t₂, qs₂, hrun, hR₂, hAll⟩ := ih hR₁ (hC.2 _ hu) hrest
    rw [history_cons hu, List.map_cons, history_cons hfirst]
    refine ⟨t₂, qs₁ ++ qs₂, ?_, ?_, .cons hA hAll⟩
    · exact run_cons_eq_some.mpr ⟨t₁, qs₁, qs₂, hfirst, hrun, rfl⟩
    · rw [← List.append_assoc]
      exact hR₂

/-- Two readings of what the parts have put out together that agree on each part by itself,
agree but for the order. -/
theorem perm_of_parts {α β κ' : Type} [DecidableEq κ'] (part : α → κ') {f g : α → Option β}
    {xs : List α} (h : ∀ k, (xs.filter (fun x => part x = k)).filterMap f =
      (xs.filter (fun x => part x = k)).filterMap g) :
    (xs.filterMap f).Perm (xs.filterMap g) := by
  induction hlength : xs.length using Nat.strongRecOn generalizing xs with
  | ind n ih =>
    subst hlength
    cases xs with
    | nil => exact .refl _
    | cons x xs =>
      -- all of the first one's part in front, and the other parts behind it
      let mine := (x :: xs).filter (fun y => part y = part x)
      let others := (x :: xs).filter (fun y => !decide (part y = part x))
      have hsplit : (mine ++ others).Perm (x :: xs) := List.filter_append_perm _ _
      have hshort : others.length < (x :: xs).length := by
        apply List.length_filter_lt_length_iff_exists.mpr
        exact ⟨x, List.mem_cons_self, by simp⟩
      have hothers : (others.filterMap f).Perm (others.filterMap g) := by
        refine ih _ hshort (fun k => ?_) rfl
        by_cases hk : k = part x
        · have hnil : others.filter (fun y => part y = k) = [] := by
            subst hk
            apply List.filter_eq_nil_iff.mpr
            intro y hy
            simpa using (List.mem_filter.mp hy).2
          rw [hnil]
          rfl
        · have hsame : others.filter (fun y => part y = k) =
              (x :: xs).filter (fun y => part y = k) := by
            rw [List.filter_filter]
            apply List.filter_congr
            intro y _
            by_cases hy : part y = k
            · simp [hy, hk]
            · simp [hy]
          rw [hsame]
          exact h k
      refine (hsplit.filterMap f).symm.trans (List.Perm.trans ?_ (hsplit.filterMap g))
      rw [List.filterMap_append, List.filterMap_append, h (part x)]
      exact hothers.append_left _

end Machine
end Interaction
