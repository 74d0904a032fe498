import WsServer.Base.Program

/-! Programs that work through a list: each action of a marked kind uses up the next
item. What relates the actions to their items holds in every run of the program,
whatever others do to the shared state between its actions. -/
namespace Interaction
namespace Program
variable {S : Signature} {α β ι σ ε ω : Type}

/-- A run of a program so far, with the state and the input of each action. Before an
action others may have left any state that meets the condition. -/
def Among (handle : σ → ε → (a : S.Act) → σ × S.Answer a × List ω) (C : σ → Prop) :
    Program S α → List (σ × ε × S.Act) → Prop
  | .ret _, tr => tr = []
  | .act a k, tr => tr = [] ∨ ∃ s e rest, tr = (s, e, a) :: rest ∧ C s ∧
      Among handle C (k (handle s e a).2.1) rest

/-- In a run of a program, every step is one that the program may perform. -/
theorem Performs.among {A : S.Act → Prop} {p : Program S α} (h : Performs A p)
    {handle : σ → ε → (a : S.Act) → σ × S.Answer a × List ω} {C : σ → Prop}
    {tr : List (σ × ε × S.Act)} (htr : Among handle C p tr) : ∀ x ∈ tr, C x.1 ∧ A x.2.2 := by
  induction p generalizing tr with
  | ret v =>
    obtain rfl : tr = [] := htr
    exact nofun
  | act a k ih =>
    rcases htr with rfl | ⟨s, e, rest, rfl, hs, hrest⟩
    · exact nofun
    intro x hx
    rcases List.mem_cons.mp hx with rfl | hx
    · exact ⟨hs, h.1⟩
    · exact ih _ (h.2 _) hrest x hx

/-- With every action answered from one state, the program gets to an action of `P`. -/
def Reaches (handle : σ → ε → (a : S.Act) → σ × S.Answer a × List ω) (s : σ) (e : ε)
    (P : S.Act → Prop) : Program S α → Prop
  | .ret _ => False
  | .act a k => P a ∨ Reaches handle s e P (k (handle s e a).2.1)

section Reaches
variable {handle : σ → ε → (a : S.Act) → σ × S.Answer a × List ω} {s : σ} {e : ε}
  {P : S.Act → Prop}

theorem Reaches.bind {p : Program S α} (h : Reaches handle s e P p) (f : α → Program S β) :
    Reaches handle s e P (p >>= f) := by
  induction p with
  | ret v => exact h.elim
  | act a k ih =>
    rcases h with ha | hrest
    · exact Or.inl ha
    · exact Or.inr (ih _ hrest)

/-- There is a run that gets there, if the others may leave the state as it is. -/
theorem Reaches.among {C : σ → Prop} (hC : C s) {p : Program S α} (h : Reaches handle s e P p) :
    ∃ tr, Among handle C p tr ∧ ∃ a, P a ∧ (s, e, a) ∈ tr := by
  induction p with
  | ret v => exact h.elim
  | act a k ih =>
    have hnil : Among handle C (k (handle s e a).2.1) [] := by
      cases k (handle s e a).2.1 with
      | ret v => exact rfl
      | act a' k' => exact Or.inl rfl
    rcases h with ha | hrest
    · exact ⟨[(s, e, a)], Or.inr ⟨s, e, [], rfl, hC, hnil⟩, a, ha, List.mem_cons_self⟩
    · obtain ⟨tr, htr, b, hb, hmem⟩ := ih _ hrest
      exact ⟨(s, e, a) :: tr, Or.inr ⟨s, e, tr, rfl, hC, htr⟩, b, hb,
        List.mem_cons_of_mem _ hmem⟩

end Reaches

section Consuming
variable (marked : S.Act → Prop) [DecidablePred marked] (R : S.Act → ι → Prop)

/-- The items that are left are the ghost state. -/
def consuming : Protocol S (List ι) where
  allowed items a := marked a → ∃ item rest, items = item :: rest ∧ R a item
  after items a _ := some (if marked a then items.tail else items)

/-- The steps of a run that are of the marked kind. -/
def markedSteps (tr : List (σ × ε × S.Act)) : List (σ × ε × S.Act) :=
  tr.filter (fun x => marked x.2.2)

variable {marked R}

theorem markedSteps_cons_pos {s : σ} {e : ε} {a : S.Act} (tr : List (σ × ε × S.Act))
    (h : marked a) : markedSteps marked ((s, e, a) :: tr) = (s, e, a) :: markedSteps marked tr :=
  List.filter_cons_of_pos (decide_eq_true h)

theorem markedSteps_cons_neg {s : σ} {e : ε} {a : S.Act} (tr : List (σ × ε × S.Act))
    (h : ¬ marked a) : markedSteps marked ((s, e, a) :: tr) = markedSteps marked tr :=
  List.filter_cons_of_neg (by rw [decide_eq_true_eq]; exact h)

theorem follows_unmarked {p : Program S α} (h : Performs (fun a => ¬ marked a) p)
    (items : List ι) : Follows (consuming marked R) items p (fun _ g => g = items) := by
  refine h.follows (consuming marked R) items ?_
  intro a ha
  refine ⟨fun hmarked => absurd hmarked ha, ?_⟩
  intro r g hg
  have hg := Option.some.inj hg
  rw [if_neg ha] at hg
  exact hg.symm

/-- The rule for an unmarked action at the head of a program. -/
theorem follows_skip {a : S.Act} {f : S.Answer a → Program S β} {items : List ι}
    {post : β → List ι → Prop} (hmarked : ¬ marked a)
    (hrest : ∀ r, Follows (consuming marked R) items (f r) post) :
    Follows (consuming marked R) items (perform a >>= f) post := by
  refine ⟨fun h => absurd h hmarked, ?_⟩
  intro r g hg
  have hg := Option.some.inj hg
  rw [if_neg hmarked] at hg
  rw [← hg]
  exact hrest r

/-- The rule for a marked action at the head of a program. -/
theorem follows_marked {a : S.Act} {f : S.Answer a → Program S β} {item : ι} {rest : List ι}
    {post : β → List ι → Prop} (hmarked : marked a) (hR : R a item)
    (hrest : ∀ r, Follows (consuming marked R) rest (f r) post) :
    Follows (consuming marked R) (item :: rest) (perform a >>= f) post := by
  refine ⟨fun _ => ⟨item, rest, rfl, hR⟩, ?_⟩
  intro r g hg
  have hg := Option.some.inj hg
  rw [if_pos hmarked] at hg
  rw [← hg]
  exact hrest r

/-- The run of a program that follows the protocol: the marked actions and the items
agree one by one, from the first on. -/
theorem Follows.consumed {items : List ι} {p : Program S α} {post : α → List ι → Prop}
    (h : Follows (consuming marked R) items p post)
    {handle : σ → ε → (a : S.Act) → σ × S.Answer a × List ω} {C : σ → Prop}
    {tr : List (σ × ε × S.Act)} (htr : Among handle C p tr) :
    (markedSteps marked tr).length ≤ items.length ∧
      ∀ x ∈ (markedSteps marked tr).zip items, C x.1.1 ∧ R x.1.2.2 x.2 := by
  induction p generalizing items tr with
  | ret v =>
    obtain rfl : tr = [] := htr
    exact ⟨Nat.zero_le _, fun x hx => nomatch hx⟩
  | act a k ih =>
    rcases htr with rfl | ⟨s, e, rest, rfl, hs, hrest⟩
    · exact ⟨Nat.zero_le _, fun x hx => nomatch hx⟩
    by_cases hmarked : marked a
    · obtain ⟨item, items, rfl, hR⟩ := h.1 hmarked
      have hnext := h.2 (handle s e a).2.1 items (congrArg some (if_pos hmarked))
      obtain ⟨hlength, hzip⟩ := ih _ hnext hrest
      rw [markedSteps_cons_pos rest hmarked]
      refine ⟨Nat.succ_le_succ hlength, ?_⟩
      intro x hx
      rcases List.mem_cons.mp hx with rfl | hx
      · exact ⟨hs, hR⟩
      · exact hzip x hx
    · have hnext := h.2 (handle s e a).2.1 items (congrArg some (if_neg hmarked))
      rw [markedSteps_cons_neg rest hmarked]
      exact ih _ hnext hrest

/-! ### Runs answered from one state -/

/-- The run in which every action is answered from one state. -/
def answered (handle : σ → ε → (a : S.Act) → σ × S.Answer a × List ω) (s : σ) (e : ε) :
    Program S α → List (σ × ε × S.Act)
  | .ret _ => []
  | .act a k => (s, e, a) :: answered handle s e (k (handle s e a).2.1)

/-- In the run answered from one state there are more than `n` marked actions. -/
def Exceeds (marked : S.Act → Prop) [DecidablePred marked]
    (handle : σ → ε → (a : S.Act) → σ × S.Answer a × List ω) (s : σ) (e : ε) (n : Nat)
    (p : Program S α) : Prop := n < (markedSteps marked (answered handle s e p)).length

variable {handle : σ → ε → (a : S.Act) → σ × S.Answer a × List ω} {s : σ} {e : ε} {n : Nat}

theorem among_answered {C : σ → Prop} (hC : C s) (p : Program S α) :
    Among handle C p (answered handle s e p) := by
  induction p with
  | ret v => rfl
  | act a k ih => exact Or.inr ⟨s, e, _, rfl, hC, ih _⟩

theorem state_of_answered {p : Program S α} {x : σ × ε × S.Act}
    (hx : x ∈ answered handle s e p) : x.1 = s ∧ x.2.1 = e := by
  induction p with
  | ret v => cases hx
  | act a k ih =>
    rcases List.mem_cons.mp hx with rfl | hx
    · exact ⟨rfl, rfl⟩
    · exact ih _ hx

theorem exceeds_skip {a : S.Act} {f : S.Answer a → Program S β}
    (h : Exceeds marked handle s e n (f (handle s e a).2.1)) :
    Exceeds marked handle s e n (perform a >>= f) := by
  have hrun : answered handle s e (perform a >>= f) =
      (s, e, a) :: answered handle s e (f (handle s e a).2.1) := rfl
  unfold Exceeds at h ⊢
  rw [hrun]
  by_cases hmarked : marked a
  · rw [markedSteps_cons_pos _ hmarked, List.length_cons]
    omega
  · rw [markedSteps_cons_neg _ hmarked]
    exact h

theorem exceeds_zero {a : S.Act} {f : S.Answer a → Program S β} (hmarked : marked a) :
    Exceeds marked handle s e 0 (perform a >>= f) := by
  have hrun : answered handle s e (perform a >>= f) =
      (s, e, a) :: answered handle s e (f (handle s e a).2.1) := rfl
  rw [Exceeds, hrun, markedSteps_cons_pos _ hmarked]
  exact Nat.succ_pos _

theorem exceeds_succ {a : S.Act} {f : S.Answer a → Program S β} (hmarked : marked a)
    (h : Exceeds marked handle s e n (f (handle s e a).2.1)) :
    Exceeds marked handle s e (n+1) (perform a >>= f) := by
  have hrun : answered handle s e (perform a >>= f) =
      (s, e, a) :: answered handle s e (f (handle s e a).2.1) := rfl
  unfold Exceeds at h ⊢
  rw [hrun, markedSteps_cons_pos _ hmarked, List.length_cons]
  exact Nat.succ_lt_succ h

/-- What follows only adds to the run. -/
theorem answered_bind (p : Program S α) (f : α → Program S β) :
    answered handle s e p <+: answered handle s e (p >>= f) := by
  induction p with
  | ret v => exact List.nil_prefix
  | act a k ih => exact List.cons_prefix_cons.mpr ⟨rfl, ih _⟩

theorem Exceeds.bind {p : Program S α} (h : Exceeds marked handle s e n p)
    (f : α → Program S β) : Exceeds marked handle s e n (p >>= f) :=
  Nat.lt_of_lt_of_le h (((answered_bind p f).filter _).length_le)

end Consuming
end Program
end Interaction
