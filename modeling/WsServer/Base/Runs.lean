import WsServer.Base.Program

/-! Solo runs of a program, in which nobody else touches the shared state: each action is
answered by the handler, with one input of the environment. What holds after every run,
and what holds after some run, is computed along the program. -/
namespace Interaction
namespace Program
variable {S : Signature} {α β σ ε ω : Type}
  (handle : σ → ε → (a : S.Act) → σ × S.Answer a × List ω)

/-- The steps of a run, each with the state before it and its input. -/
abbrev Steps (S : Signature) (σ ε : Type) : Type := List (σ × ε × S.Act)

/-- A whole run from a state: its steps, its value and the state behind it. -/
def Runs : Program S α → σ → Steps S σ ε → α → σ → Prop
  | .ret w, s, tr, v, s' => tr = [] ∧ v = w ∧ s' = s
  | .act a k, s, tr, v, s' => ∃ e rest, tr = (s, e, a) :: rest ∧
      Runs (k (handle s e a).2.1) (handle s e a).1 rest v s'

/-- The steps that a program takes with some inputs, as far as these reach. -/
def trace : Program S α → σ → List ε → Steps S σ ε
  | .act a k, s, e :: es => (s, e, a) :: trace (k (handle s e a).2.1) (handle s e a).1 es
  | _, _, _ => []

/-- What the steps of a run put out. -/
def outputs (tr : Steps S σ ε) : List ω := tr.flatMap (fun x => (handle x.1 x.2.1 x.2.2).2.2)

/-- Every run whose inputs all meet `E` ends as `Q` says. -/
def Always (E : ε → Prop) : Program S α → σ → (Steps S σ ε → α → σ → Prop) → Prop
  | .ret v, s, Q => Q [] v s
  | .act a k, s, Q => ∀ e, E e →
      Always E (k (handle s e a).2.1) (handle s e a).1 (fun tr => Q ((s, e, a) :: tr))

/-- Some run whose inputs all meet `E` ends as `Q` says. -/
def Sometimes (E : ε → Prop) : Program S α → σ → (Steps S σ ε → α → σ → Prop) → Prop
  | .ret v, s, Q => Q [] v s
  | .act a k, s, Q => ∃ e, E e ∧
      Sometimes E (k (handle s e a).2.1) (handle s e a).1 (fun tr => Q ((s, e, a) :: tr))

variable {handle} {E : ε → Prop} {Q Q' : Steps S σ ε → α → σ → Prop}

@[simp] theorem outputs_nil : outputs handle [] = [] := rfl

@[simp] theorem outputs_cons (s : σ) (e : ε) (a : S.Act) (tr : Steps S σ ε) :
    outputs handle ((s, e, a) :: tr) = (handle s e a).2.2 ++ outputs handle tr := by
  rw [outputs, List.flatMap_cons, outputs]

@[simp] theorem outputs_append (tr tr' : Steps S σ ε) :
    outputs handle (tr ++ tr') = outputs handle tr ++ outputs handle tr' := by
  rw [outputs, List.flatMap_append, outputs, outputs]

theorem always_iff {p : Program S α} {s : σ} : Always handle E p s Q ↔
    ∀ tr v s', Runs handle p s tr v s' → (∀ x ∈ tr, E x.2.1) → Q tr v s' := by
  induction p generalizing s Q with
  | ret w =>
    constructor
    · rintro h tr v s' ⟨rfl, rfl, rfl⟩ _
      exact h
    · intro h
      exact h [] w s ⟨rfl, rfl, rfl⟩ nofun
  | act a k ih =>
    constructor
    · rintro h tr v s' ⟨e, rest, rfl, hrest⟩ hE
      obtain ⟨he, hE⟩ := List.forall_mem_cons.mp hE
      exact (ih _).mp (h e he) rest v s' hrest hE
    · intro h e he
      apply (ih _).mpr
      intro rest v s' hrest hE
      exact h _ v s' ⟨e, rest, rfl, hrest⟩ (List.forall_mem_cons.mpr ⟨he, hE⟩)

theorem sometimes_iff {p : Program S α} {s : σ} : Sometimes handle E p s Q ↔
    ∃ tr v s', Runs handle p s tr v s' ∧ (∀ x ∈ tr, E x.2.1) ∧ Q tr v s' := by
  induction p generalizing s Q with
  | ret w =>
    constructor
    · intro h
      exact ⟨[], w, s, ⟨rfl, rfl, rfl⟩, nofun, h⟩
    · rintro ⟨tr, v, s', ⟨rfl, rfl, rfl⟩, -, h⟩
      exact h
  | act a k ih =>
    constructor
    · rintro ⟨e, he, h⟩
      obtain ⟨rest, v, s', hrest, hE, hQ⟩ := (ih _).mp h
      exact ⟨_, v, s', ⟨e, rest, rfl, hrest⟩, List.forall_mem_cons.mpr ⟨he, hE⟩, hQ⟩
    · rintro ⟨tr, v, s', ⟨e, rest, rfl, hrest⟩, hE, hQ⟩
      obtain ⟨he, hE⟩ := List.forall_mem_cons.mp hE
      exact ⟨e, he, (ih _).mpr ⟨rest, v, s', hrest, hE, hQ⟩⟩

theorem Always.mono {p : Program S α} {s : σ} (h : Always handle E p s Q)
    (hQ : ∀ tr v s', Q tr v s' → Q' tr v s') : Always handle E p s Q' :=
  always_iff.mpr (fun tr v s' hrun hE => hQ tr v s' (always_iff.mp h tr v s' hrun hE))

theorem Sometimes.mono {p : Program S α} {s : σ} (h : Sometimes handle E p s Q)
    (hQ : ∀ tr v s', Q tr v s' → Q' tr v s') : Sometimes handle E p s Q' := by
  obtain ⟨tr, v, s', hrun, hE, h⟩ := sometimes_iff.mp h
  exact sometimes_iff.mpr ⟨tr, v, s', hrun, hE, hQ tr v s' h⟩

theorem Always.and {p : Program S α} {s : σ} (h : Always handle E p s Q)
    (h' : Always handle E p s Q') : Always handle E p s (fun tr v s' => Q tr v s' ∧ Q' tr v s') :=
  always_iff.mpr (fun tr v s' hrun hE =>
    ⟨always_iff.mp h tr v s' hrun hE, always_iff.mp h' tr v s' hrun hE⟩)

/-- The rule of composition: the rest runs from where the first part has ended. -/
theorem always_bind {p : Program S α} {f : α → Program S β} {s : σ}
    {R : Steps S σ ε → β → σ → Prop} : Always handle E (p >>= f) s R ↔
      Always handle E p s (fun tr v t => Always handle E (f v) t (fun tr' => R (tr ++ tr'))) := by
  induction p generalizing s R with
  | ret v => exact Iff.rfl
  | act a k ih => exact forall₂_congr (fun e _ => ih _)

theorem sometimes_bind {p : Program S α} {f : α → Program S β} {s : σ}
    {R : Steps S σ ε → β → σ → Prop} : Sometimes handle E (p >>= f) s R ↔
      Sometimes handle E p s
        (fun tr v t => Sometimes handle E (f v) t (fun tr' => R (tr ++ tr'))) := by
  induction p generalizing s R with
  | ret v => exact Iff.rfl
  | act a k ih => exact exists_congr (fun e => and_congr_right (fun _ => ih _))

/-- What holds after every run holds after the run that there is. -/
theorem Sometimes.and_always {p : Program S α} {s : σ} (h : Sometimes handle E p s Q)
    (h' : Always handle E p s Q') :
    Sometimes handle E p s (fun tr v s' => Q tr v s' ∧ Q' tr v s') := by
  obtain ⟨tr, v, s', hrun, hE, h⟩ := sometimes_iff.mp h
  exact sometimes_iff.mpr ⟨tr, v, s', hrun, hE, h, always_iff.mp h' tr v s' hrun hE⟩

theorem Always.sometimes {p : Program S α} {s : σ} (hE : ∃ e, E e) (h : Always handle E p s Q) :
    Sometimes handle E p s Q := by
  induction p generalizing s Q with
  | ret v => exact h
  | act a k ih =>
    obtain ⟨e, he⟩ := hE
    exact ⟨e, he, ih _ (h e he)⟩

/-- An invariant of the actions that a program performs is one of its runs. -/
theorem Performs.always {A : S.Act → Prop} {I : σ → Prop} {p : Program S α} (h : Performs A p)
    (hI : ∀ s e a, A a → I s → I (handle s e a).1) {s : σ} (hs : I s) :
    Always handle E p s (fun tr _ s' => I s' ∧ ∀ x ∈ tr, A x.2.2 ∧ I x.1) := by
  induction p generalizing s with
  | ret v => exact ⟨hs, nofun⟩
  | act a k ih =>
    intro e he
    refine (ih _ (h.2 _) (hI s e a h.1 hs)).mono ?_
    intro tr v s' hrest
    exact ⟨hrest.1, List.forall_mem_cons.mpr ⟨⟨h.1, hs⟩, hrest.2⟩⟩

/-- A solo run is one of the runs. -/
theorem exists_runs_solo (p : Program S α) (s : σ) (e : Nat → ε) :
    ∃ tr, Runs handle p s tr (solo handle p s e).1 (solo handle p s e).2.1 ∧
      outputs handle tr = (solo handle p s e).2.2 := by
  induction p generalizing s e with
  | ret v => exact ⟨[], ⟨rfl, rfl, rfl⟩, rfl⟩
  | act a k ih =>
    obtain ⟨tr, hruns, hout⟩ := ih (handle s (e 0) a).2.1 (handle s (e 0) a).1 (fun n => e (n+1))
    refine ⟨(s, e 0, a) :: tr, ⟨e 0, tr, rfl, hruns⟩, ?_⟩
    rw [outputs_cons, hout]
    rfl

/-- What holds after every run holds after a solo run. -/
theorem Always.solo {p : Program S α} {s : σ} (h : Always handle (fun _ => True) p s Q)
    (e : Nat → ε) : ∃ tr, outputs handle tr = (solo handle p s e).2.2 ∧
      Q tr (Program.solo handle p s e).1 (Program.solo handle p s e).2.1 := by
  obtain ⟨tr, hruns, hout⟩ := exists_runs_solo p s e
  exact ⟨tr, hout, always_iff.mp h tr _ _ hruns (fun _ _ => trivial)⟩

end Program
end Interaction
