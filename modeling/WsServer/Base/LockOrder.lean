import Mathlib.Data.Nat.Notation
import WsServer.Base.Sections

/-! Locks that every actor takes in one order: whatever has been taken, somebody can go on. -/
namespace Interaction
namespace Sections
open Program
variable {σ κ ω ι L γ ε : Type}

/-- A lock is taken above all that are held, and only a lock that is held is given back. -/
def lockOrder (X : Sections σ κ ω ι L γ ε) (rank : L → ℕ) : Protocol X.pieces (L → Prop) where
  allowed held a :=
    match a with
    | .acquire m => ∀ n, held n → rank n < rank m
    | .release m => held m
    | _ => True
  after held a _ :=
    match a with
    | .acquire m => some (fun n => n = m ∨ held n)
    | .release m => some (fun n => n ≠ m ∧ held n)
    | _ => some held

/-- These pieces keep the order, and no lock is left at their end. -/
def Ordered (X : Sections σ κ ω ι L γ ε) (rank : L → ℕ) (held : L → Prop)
    (p : Program X.pieces Unit) : Prop :=
  Follows (X.lockOrder rank) held p (fun _ held => ∀ m, ¬ held m)

variable [DecidableEq L] [DecidableEq ι] {X : Sections σ κ ω ι L γ ε} {M : Machine σ κ ω}
  {rank : L → ℕ} {x x' : X.State} {i : ι} {e : ε}

/-- The actors keep the order from where they are. -/
def State.Ordered (rank : L → ℕ) (x : X.State) : Prop :=
  ∀ i, X.Ordered rank (fun m => x.owner m = some i) (x.rest i)

omit [DecidableEq L] [DecidableEq ι] in
theorem ordered_atRest (rank : L → ℕ) (s : σ) : State.Ordered rank (X.atRest s) := by
  intro i m h
  cases h

omit [DecidableEq L] in
/-- Where an actor goes on with its locks, the others are where they were. -/
theorem State.Ordered.move (h : x.Ordered rank) {p : Program X.pieces Unit}
    (hrest : x'.rest = Function.update x.rest i p)
    (howner : ∀ m j, j ≠ i → (x'.owner m = some j ↔ x.owner m = some j))
    (hp : X.Ordered rank (fun m => x'.owner m = some i) p) : x'.Ordered rank := by
  intro j
  by_cases hj : j = i
  · subst hj
    rw [hrest, Function.update_self]
    exact hp
  · have hheld : (fun m => x'.owner m = some j) = (fun m => x.owner m = some j) :=
      funext (fun m => propext (howner m j hj))
    rw [hrest, Function.update_of_ne hj, hheld]
    exact h j

theorem State.Ordered.step
    (hcode : ∀ s c i e, X.control s i = some c → X.Ordered rank (fun _ => False) (X.code c i e))
    (h : x.Ordered rank) {out : List ω} (hstep : X.step M x (i, e) = some (x', out)) :
    x'.Ordered rank := by
  have hi := h i
  unfold Sections.step at hstep
  cases hrest : x.rest i with
  | ret v =>
    simp only [hrest] at hstep hi
    obtain ⟨c, hc, hx⟩ := Option.map_eq_some_iff.mp hstep
    obtain ⟨rfl, -⟩ := Prod.mk.inj hx
    refine h.move rfl (fun _ _ _ => Iff.rfl) ?_
    change X.Ordered rank (fun m => x.owner m = some i) _
    have hnone : (fun m => x.owner m = some i) = fun _ => False :=
      funext (fun m => eq_false (hi m))
    rw [hnone]
    exact hcode x.shared c i e hc
  | act a k =>
    simp only [hrest] at hi
    cases a with
    | acquire m =>
      simp only [hrest] at hstep
      split_ifs at hstep with hfree
      obtain ⟨rfl, -⟩ := Prod.mk.inj (Option.some.inj hstep)
      refine h.move rfl (owner_other (Or.inl hfree) (Or.inr rfl : some i = none ∨ _)) ?_
      have hheld : (fun n => Function.update x.owner m (some i) n = some i) =
          fun n => n = m ∨ x.owner n = some i := funext (owner_acquired (x := x) m)
      change X.Ordered rank (fun n => Function.update x.owner m (some i) n = some i) _
      rw [hheld]
      exact hi.2 () _ rfl
    | release m =>
      simp only [hrest] at hstep
      split_ifs at hstep with howner
      obtain ⟨rfl, -⟩ := Prod.mk.inj (Option.some.inj hstep)
      refine h.move rfl (owner_other (Or.inr howner) (Or.inl rfl : none = none ∨ _)) ?_
      have hheld : (fun n => Function.update x.owner m none n = some i) =
          fun n => n ≠ m ∧ x.owner n = some i := funext (owner_released (x := x) m)
      change X.Ordered rank (fun n => Function.update x.owner m none n = some i) _
      rw [hheld]
      exact hi.2 () _ rfl
    | access m f =>
      simp only [hrest] at hstep
      obtain ⟨rfl, -⟩ := Prod.mk.inj (Option.some.inj hstep)
      exact h.move rfl (fun _ _ _ => Iff.rfl) (hi.2 _ _ rfl)
    | ask a =>
      simp only [hrest] at hstep
      obtain ⟨rfl, -⟩ := Prod.mk.inj (Option.some.inj hstep)
      exact h.move rfl (fun _ _ _ => Iff.rfl) (hi.2 _ _ rfl)
    | whole =>
      simp only [hrest] at hstep
      obtain ⟨c, -, hstep⟩ := Option.bind_eq_some_iff.mp hstep
      obtain ⟨y, -, hx⟩ := Option.map_eq_some_iff.mp hstep
      obtain ⟨rfl, -⟩ := Prod.mk.inj hx
      exact h.move rfl (fun _ _ _ => Iff.rfl) (hi.2 _ _ rfl)
    | commit g last =>
      simp only [hrest] at hstep
      obtain ⟨rfl, -⟩ := Prod.mk.inj (Option.some.inj hstep)
      exact h.move rfl (fun _ _ _ => Iff.rfl) (hi.2 _ _ rfl)

/-- An actor that is not before a lock can go on. -/
theorem goes_on (hX : X.Lawful M) {t : σ} {underway : ι → Prop} {os : ι → List ω}
    (h : X.Ahead M x t underway os) (hordered : x.Ordered rank) {a : X.pieces.Act}
    {k : X.pieces.Answer a → Program X.pieces Unit} (hrest : x.rest i = .act a k)
    (ha : ∀ m, a ≠ .acquire m) : (X.step M x (i, e)).isSome := by
  have hi := hordered i
  rw [hrest] at hi
  unfold Sections.step
  cases a with
  | acquire m => exact absurd rfl (ha m)
  | release m =>
    have howner : x.owner m = some i := hi.1
    simp only [hrest, howner, if_true, Option.isSome_some]
  | access m f => simp only [hrest, Option.isSome_some]
  | ask a => simp only [hrest, Option.isSome_some]
  | commit g last => simp only [hrest, Option.isSome_some]
  | whole =>
    have hunder : underway i := by
      by_contra hunder
      have hunwinds := (h.unwinds i hunder).1
      rw [hrest] at hunwinds
      exact hunwinds
    obtain ⟨c, hc, -⟩ := h.carries i hunder
    rw [← h.control hX] at hc
    simp only [hrest, hc, Option.bind_some, Option.isSome_map]
    exact hX.enabled x.shared c i e hc

/-- The one who waits for the highest lock waits for nobody: where an actor is in the middle of
its step, some such actor can go on. -/
theorem somebody_goes_on (hX : X.Lawful M) {N : ℕ} (hrank : ∀ m, rank m < N) {t : σ}
    {underway : ι → Prop} {os : ι → List ω} (h : X.Ahead M x t underway os)
    (hordered : x.Ordered rank) {a : X.pieces.Act}
    {k : X.pieces.Answer a → Program X.pieces Unit} (hrest : x.rest i = .act a k) :
    ∃ j, (∃ b k', x.rest j = .act b k') ∧ ∀ e, (X.step M x (j, e)).isSome := by
  -- the induction is on how far the awaited lock is from the highest
  have hwait : ∀ n i m (k : Unit → Program X.pieces Unit), x.rest i = .act (.acquire m) k →
      N - rank m ≤ n → ∃ j, (∃ b k', x.rest j = .act b k') ∧ ∀ e, (X.step M x (j, e)).isSome := by
    intro n
    induction n with
    | zero =>
      intro i m k _ hn
      have hm := hrank m
      omega
    | succ n ih =>
      intro i m k hrest hn
      cases howner : x.owner m with
      | none =>
        refine ⟨i, ⟨.acquire m, k, hrest⟩, fun e => ?_⟩
        simp only [Sections.step, hrest, howner, if_true, Option.isSome_some]
      | some j =>
        have hj := hordered j
        cases hrestj : x.rest j with
        | ret v =>
          rw [hrestj] at hj
          exact absurd howner (hj m)
        | act b k' =>
          by_cases hb : ∃ m', b = .acquire m'
          · obtain ⟨m', rfl⟩ := hb
            rw [hrestj] at hj
            have hlt : rank m < rank m' := hj.1 m howner
            apply ih j m' k' hrestj
            omega
          · refine ⟨j, ⟨b, k', hrestj⟩, fun e => ?_⟩
            exact goes_on hX h hordered hrestj (fun m' hm' => hb ⟨m', hm'⟩)
  by_cases ha : ∃ m, a = .acquire m
  · obtain ⟨m, rfl⟩ := ha
    exact hwait _ i m k hrest (Nat.le_refl _)
  · refine ⟨i, ⟨a, k, hrest⟩, fun e => ?_⟩
    exact goes_on hX h hordered hrest (fun m hm => ha ⟨m, hm⟩)

end Sections
end Interaction
