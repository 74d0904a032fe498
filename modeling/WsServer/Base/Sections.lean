import Mathlib.Logic.Function.Basic
import Mathlib.Tactic.SplitIfs
import WsServer.Base.Machine
import WsServer.Base.Program

/-! Critical sections. Actors carry out the steps of a machine piece by piece, with locks around
the data that they share. Where each section keeps its locks until its result is there, what
they do in any interleaving of their pieces they could have done in whole steps. -/
namespace Interaction

/-- A piece of a step. -/
inductive Piece (L : Type) (F : L → Signature) (G : Signature) (σ ω : Type) where
  | acquire (m : L)
  | release (m : L)
  -- one access to the data behind a lock
  | access (m : L) (f : (F m).Act)
  -- something that is asked of the environment, or told to it
  | ask (a : G.Act)
  -- all of the step at once
  | whole
  -- the end of a step that came in pieces: what becomes of the actor, and the last outputs
  | commit (g : σ → σ) (os : List ω)

@[reducible] def Piece.Answer {L : Type} {F : L → Signature} {G : Signature} {σ ω : Type} :
    Piece L F G σ ω → Type
  | .access m f => (F m).Answer f
  | .ask a => G.Answer a
  | _ => Unit

/-- How the steps of a machine are carried out piece by piece: what lies behind each lock, what
each actor is to do next, and the pieces in which it does so. -/
structure Sections (σ κ ω ι L γ ε : Type) where
  Data : L → Type
  data : L → Signature
  io : Signature
  get : σ → ∀ m, Data m
  set : σ → (∀ m, Data m) → σ
  access : ∀ m, Data m → (f : (data m).Act) → Data m × (data m).Answer f
  ask : ι → ε → (a : io.Act) → io.Answer a × List ω
  control : σ → ι → Option γ
  label : γ → ι → ε → κ
  code : γ → ι → ε → Program ⟨Piece L data io σ ω, Piece.Answer⟩ Unit
  author : ω → ι

namespace Sections
variable {σ κ ω ι L γ ε : Type}

abbrev pieces (X : Sections σ κ ω ι L γ ε) : Signature := ⟨Piece L X.data X.io σ ω, Piece.Answer⟩

/-- The shared state, the owners of the locks, and what is left of the step that each actor has
begun. -/
structure State (X : Sections σ κ ω ι L γ ε) where
  shared : σ
  owner : L → Option ι
  rest : ι → Program X.pieces Unit

/-- Nobody has begun a step. -/
def atRest (X : Sections σ κ ω ι L γ ε) (s : σ) : X.State :=
  ⟨s, fun _ => none, fun _ => .ret ()⟩

variable [DecidableEq L]

/-- The actor is behind one more piece. -/
def State.goOn [DecidableEq ι] {X : Sections σ κ ω ι L γ ε} (x : X.State) (i : ι) (p : Program X.pieces Unit) :
    X.State :=
  { x with rest := Function.update x.rest i p }

/-- The next piece of actor `i`. -/
def step [DecidableEq ι] (X : Sections σ κ ω ι L γ ε) (M : Machine σ κ ω) (x : X.State) (l : ι × ε) :
    Option (X.State × List ω) :=
  match x.rest l.1 with
  | .ret _ => (X.control x.shared l.1).map fun c => (x.goOn l.1 (X.code c l.1 l.2), [])
  | .act (.acquire m) k =>
    if x.owner m = none then
      some ({ x with owner := Function.update x.owner m (some l.1) }.goOn l.1 (k ()), [])
    else none
  | .act (.release m) k =>
    if x.owner m = some l.1 then
      some ({ x with owner := Function.update x.owner m none }.goOn l.1 (k ()), [])
    else none
  | .act (.access m f) k =>
    let y := X.access m (X.get x.shared m) f
    some ({ x with shared := X.set x.shared (Function.update (X.get x.shared) m y.1) }.goOn l.1
      (k y.2), [])
  | .act (.ask a) k => some (x.goOn l.1 (k (X.ask l.1 l.2 a).1), (X.ask l.1 l.2 a).2)
  | .act .whole k =>
    (X.control x.shared l.1).bind fun c =>
      (M.step x.shared (X.label c l.1 l.2)).map fun y =>
        ({ x with shared := y.1 }.goOn l.1 (k ()), y.2)
  | .act (.commit g os) k => some ({ x with shared := g x.shared }.goOn l.1 (k ()), os)

def machine [DecidableEq ι] (X : Sections σ κ ω ι L γ ε) (M : Machine σ κ ω) : Machine X.State (ι × ε) ω :=
  ⟨X.step M⟩

/-- The outputs of one actor. -/
def outputsOf [DecidableEq ι] (X : Sections σ κ ω ι L γ ε) (i : ι) (os : List ω) : List ω :=
  os.filter (fun o => X.author o = i)

omit [DecidableEq L] in
theorem outputsOf_append [DecidableEq ι] (X : Sections σ κ ω ι L γ ε) (i : ι) (os os' : List ω) :
    X.outputsOf i (os ++ os') = X.outputsOf i os ++ X.outputsOf i os' := List.filter_append _ _

/-! ### Sections that keep their locks -/

/-- Behind its result an actor only gives back locks, or takes some for a while. -/
def Unwinds {X : Sections σ κ ω ι L γ ε} (held : L → Prop) : Program X.pieces Unit → Prop
  | .ret _ => ∀ m, ¬ held m
  | .act (.acquire m) k => Unwinds (fun n => n = m ∨ held n) (k ())
  | .act (.release m) k => held m ∧ Unwinds (fun n => n ≠ m ∧ held n) (k ())
  | .act _ _ => False

/-- The step of an actor leaves alone what lies behind the locks. -/
def Independent (X : Sections σ κ ω ι L γ ε) (M : Machine σ κ ω) (c : γ) (i : ι) : Prop :=
  ∀ s d e, X.control s i = some c →
    M.step (X.set s d) (X.label c i e) =
      (M.step s (X.label c i e)).map fun y => (X.set y.1 d, y.2)

/-- What becomes of an actor at the end of its step is no matter of the locks, nor of the others. -/
def Own (X : Sections σ κ ω ι L γ ε) (g : σ → σ) : Prop := ∀ s d, g (X.set s d) = X.set (g s) d

/-- Whatever it is answered, an actor in these pieces comes to a result that its step could have
had at once: with the data as they are at that moment where they were `old` and are `new`
behind the locks that it holds, and with what it has put out since it began. A lock that it
gives back before has the data that it had. -/
def Carries (X : Sections σ κ ω ι L γ ε) (M : Machine σ κ ω) (c : γ) (i : ι) :
    (L → Prop) → (∀ m, X.Data m) → (∀ m, X.Data m) → List ω → Program X.pieces Unit → Prop
  | _, _, _, _, .ret _ => False
  | held, old, new, os, .act (.acquire m) k => ∀ d, Carries X M c i (fun n => n = m ∨ held n)
      (Function.update old m d) (Function.update new m d) os (k ())
  | held, old, new, os, .act (.release m) k => held m ∧ new m = old m ∧
      Carries X M c i (fun n => n ≠ m ∧ held n) old new os (k ())
  | held, old, new, os, .act (.access m f) k => held m ∧
      Carries X M c i held old (Function.update new m (X.access m (new m) f).1) os
        (k (X.access m (new m) f).2)
  | held, old, new, os, .act (.ask a) k => ∀ e,
      Carries X M c i held old new (os ++ (X.ask i e a).2) (k (X.ask i e a).1)
  | held, old, new, os, .act .whole k => os = [] ∧ (∀ m, held m → new m = old m) ∧
      X.Independent M c i ∧ Unwinds held (k ())
  | held, old, new, os, .act (.commit g last) k => X.Own g ∧ Unwinds held (k ()) ∧
      ∀ s d, X.control s i = some c → (∀ m, held m → X.get s m = old m ∧ d m = new m) →
        (∀ m, ¬ held m → d m = X.get s m) →
        ∃ e, M.step s (X.label c i e) = some (g (X.set s d), os ++ last)

/-- What the pieces rely on: the data are a part of the state, a step of one actor leaves the
others where they are, and all steps are carried out by sections that keep their locks. -/
structure Lawful (X : Sections σ κ ω ι L γ ε) (M : Machine σ κ ω) : Prop where
  get_set : ∀ s d, X.get (X.set s d) = d
  set_get : ∀ s, X.set s (X.get s) = s
  set_set : ∀ s d d', X.set (X.set s d) d' = X.set s d'
  control_set : ∀ s d, X.control (X.set s d) = X.control s
  keeps : ∀ s y c i e, X.control s i = some c → M.step s (X.label c i e) = some y →
    ∀ j, j ≠ i → ∀ c', X.control s j = some c' → X.control y.1 j = some c'
  enabled : ∀ s c i e, X.control s i = some c → (M.step s (X.label c i e)).isSome
  author_step : ∀ s y c i e, X.control s i = some c → M.step s (X.label c i e) = some y →
    ∀ o ∈ y.2, X.author o = i
  author_ask : ∀ i e a, ∀ o ∈ (X.ask i e a).2, X.author o = i
  carries : ∀ s c i e, X.control s i = some c →
    ∀ old new, X.Carries M c i (fun _ => False) old new [] (X.code c i e)

/-- Only the data behind the locks that are held matter. -/
theorem Carries.congr {X : Sections σ κ ω ι L γ ε} {M : Machine σ κ ω} {c : γ} {i : ι}
    {held : L → Prop} {old new old' new' : ∀ m, X.Data m} {os : List ω}
    {p : Program X.pieces Unit} (h : X.Carries M c i held old new os p)
    (hsame : ∀ m, held m → old' m = old m ∧ new' m = new m) :
    X.Carries M c i held old' new' os p := by
  induction p generalizing held old new old' new' os with
  | ret v => exact h
  | act a k ih =>
    cases a with
    | acquire m =>
      intro d
      refine ih () (h d) ?_
      intro n hn
      by_cases hnm : n = m
      · subst hnm
        simp only [Function.update_self, and_self]
      · simp only [Function.update_of_ne hnm]
        exact hsame n (hn.resolve_left hnm)
    | release m =>
      obtain ⟨hheld, hback, hrest⟩ := h
      refine ⟨hheld, ?_, ih () hrest (fun n hn => hsame n hn.2)⟩
      rw [(hsame m hheld).1, (hsame m hheld).2, hback]
    | access m f =>
      obtain ⟨hheld, hrest⟩ := h
      have hnew := (hsame m hheld).2
      refine ⟨hheld, ?_⟩
      rw [hnew]
      refine ih _ hrest ?_
      intro n hn
      refine ⟨(hsame n hn).1, ?_⟩
      by_cases hnm : n = m
      · subst hnm
        simp only [Function.update_self]
      · simp only [Function.update_of_ne hnm]
        exact (hsame n hn).2
    | ask a => exact fun e => ih _ (h e) hsame
    | whole =>
      obtain ⟨hos, hclean, hindependent, hunwinds⟩ := h
      refine ⟨hos, ?_, hindependent, hunwinds⟩
      intro m hm
      rw [(hsame m hm).1, (hsame m hm).2, hclean m hm]
    | commit g last =>
      obtain ⟨hown, hunwinds, hcommit⟩ := h
      refine ⟨hown, hunwinds, ?_⟩
      intro s d hc hheld hfree
      refine hcommit s d hc ?_ hfree
      intro m hm
      obtain ⟨hold, hnew⟩ := hheld m hm
      exact ⟨hold.trans (hsame m hm).1, hnew.trans (hsame m hm).2⟩

/-- A lock that is taken for one question to the environment. -/
theorem Carries.aside {X : Sections σ κ ω ι L γ ε} {M : Machine σ κ ω} {c : γ} {i : ι}
    {held : L → Prop} {old new : ∀ m, X.Data m} {os : List ω} {m : L} {a : X.io.Act}
    {k : X.io.Answer a → Program X.pieces Unit} (hm : ¬ held m)
    (h : ∀ e, X.Carries M c i held old new (os ++ (X.ask i e a).2) (k (X.ask i e a).1)) :
    X.Carries M c i held old new os
      (.act (.acquire m) fun _ => .act (.ask a) fun r => .act (.release m) fun _ => k r) := by
  intro d e
  refine ⟨Or.inl rfl, by rw [Function.update_self, Function.update_self], ?_⟩
  have hheld : (fun n => n ≠ m ∧ (n = m ∨ held n)) = held := by
    funext n
    refine propext ⟨fun hn => hn.2.resolve_left hn.1, fun hn => ⟨?_, Or.inr hn⟩⟩
    rintro rfl
    exact hm hn
  rw [hheld]
  refine (h e).congr (fun n hn => ?_)
  have hnm : n ≠ m := by
    rintro rfl
    exact hm hn
  rw [Function.update_of_ne hnm, Function.update_of_ne hnm]
  exact ⟨rfl, rfl⟩

/-! ### Runs in pieces are runs -/

/-- The shared state in pieces `x` and in whole steps `t`: they differ in what lies behind the
locks of actors that are not yet at their result, and `os` is what these have put out. -/
structure Ahead (X : Sections σ κ ω ι L γ ε) (M : Machine σ κ ω) (x : X.State) (t : σ)
    (underway : ι → Prop) (os : ι → List ω) : Prop where
  shared : x.shared = X.set t (X.get x.shared)
  clean : ∀ m, (∀ i, underway i → x.owner m ≠ some i) → X.get x.shared m = X.get t m
  unwinds : ∀ i, ¬ underway i → Unwinds (fun m => x.owner m = some i) (x.rest i) ∧ os i = []
  carries : ∀ i, underway i → ∃ c, X.control t i = some c ∧
    X.Carries M c i (fun m => x.owner m = some i) (X.get t) (X.get x.shared) (os i) (x.rest i)

variable {X : Sections σ κ ω ι L γ ε} {M : Machine σ κ ω} {x : X.State} {t : σ}
  {underway : ι → Prop} {os : ι → List ω}

theorem Ahead.control (hX : X.Lawful M) (h : X.Ahead M x t underway os) :
    X.control x.shared = X.control t := by
  rw [h.shared, hX.control_set]

/-- With no lock in the hands of an actor that is underway, both are in the same state. -/
theorem Ahead.same (hX : X.Lawful M) (h : X.Ahead M x t underway os)
    (hfree : ∀ m i, underway i → x.owner m ≠ some i) : x.shared = t := by
  have hget : X.get x.shared = X.get t := funext (fun m => h.clean m (hfree m))
  rw [h.shared, hget, hX.set_get]

theorem Ahead.atRest (hX : X.Lawful M) (s : σ) :
    X.Ahead M (X.atRest s) s (fun _ => False) (fun _ => []) where
  shared := (hX.set_get s).symm
  clean _ _ := rfl
  unwinds _ _ := ⟨(fun _ h => by cases h), rfl⟩
  carries _ h := h.elim

section Steps
variable [DecidableEq ι]

/-- After a piece of actor `i` there is only this actor to look at, and what nobody underway
holds. -/
theorem Ahead.move {i : ι} {x' : X.State} {t' : σ} {p : Program X.pieces Unit} {b : Prop}
    {w : List ω} (h : X.Ahead M x t underway os)
    (hrest : x'.rest = Function.update x.rest i p)
    (howner : ∀ m j, j ≠ i → (x'.owner m = some j ↔ x.owner m = some j))
    (hcontrol : ∀ j, j ≠ i → ∀ c, X.control t j = some c → X.control t' j = some c)
    (hdata : ∀ m j, j ≠ i → x.owner m = some j →
      X.get t' m = X.get t m ∧ X.get x'.shared m = X.get x.shared m)
    (hshared : x'.shared = X.set t' (X.get x'.shared))
    (hclean : ∀ m, (b → x'.owner m ≠ some i) →
      (∀ j, j ≠ i → underway j → x.owner m ≠ some j) → X.get x'.shared m = X.get t' m)
    (hunwinds : ¬ b → Unwinds (fun m => x'.owner m = some i) p ∧ w = [])
    (hcarries : b → ∃ c, X.control t' i = some c ∧
      X.Carries M c i (fun m => x'.owner m = some i) (X.get t') (X.get x'.shared) w p) :
    X.Ahead M x' t' (Function.update underway i b) (Function.update os i w) where
  shared := hshared
  clean m hm := by
    apply hclean m
    · intro hb
      exact hm i (by rwa [Function.update_self])
    · intro j hj hunder
      rw [Ne, ← howner m j hj]
      exact hm j (by rwa [Function.update_of_ne hj])
  unwinds j hunder := by
    by_cases hj : j = i
    · subst hj
      rw [Function.update_self] at hunder ⊢
      rw [hrest, Function.update_self]
      exact hunwinds hunder
    · have hheld : (fun m => x'.owner m = some j) = (fun m => x.owner m = some j) :=
        funext (fun m => propext (howner m j hj))
      rw [Function.update_of_ne hj] at hunder ⊢
      rw [hrest, Function.update_of_ne hj, hheld]
      exact h.unwinds j hunder
  carries j hunder := by
    by_cases hj : j = i
    · subst hj
      rw [Function.update_self] at hunder ⊢
      rw [hrest, Function.update_self]
      exact hcarries hunder
    · have hheld : (fun m => x'.owner m = some j) = (fun m => x.owner m = some j) :=
        funext (fun m => propext (howner m j hj))
      rw [Function.update_of_ne hj] at hunder ⊢
      rw [hrest, Function.update_of_ne hj, hheld]
      obtain ⟨c, hc, hj'⟩ := h.carries j hunder
      exact ⟨c, hcontrol j hj c hc, hj'.congr (fun m hm => hdata m j hj hm)⟩

/-- What one piece of an actor amounts to: no step of the machine or one, of which it has put
out the rest. -/
def Tracks (X : Sections σ κ ω ι L γ ε) (M : Machine σ κ ω) (x' : X.State) (t : σ)
    (os : ι → List ω) (out : List ω) : Prop :=
  ∃ ls t' out' underway' os', M.run t ls = some (t', out') ∧ X.Ahead M x' t' underway' os' ∧
    ∀ j, X.outputsOf j out' ++ os' j = os j ++ X.outputsOf j out

/-- A piece that is no step of the machine. -/
theorem Tracks.none {i : ι} {x' : X.State} {b : Prop} {w out : List ω}
    (h : X.Ahead M x' t (Function.update underway i b) (Function.update os i w))
    (hw : w = os i ++ out) (hout : ∀ o ∈ out, X.author o = i) : X.Tracks M x' t os out := by
  refine ⟨[], t, [], _, _, rfl, h, ?_⟩
  intro j
  by_cases hj : j = i
  · subst hj
    have hall : X.outputsOf j out = out :=
      List.filter_eq_self.mpr (fun o ho => decide_eq_true (hout o ho))
    rw [Function.update_self, hw, hall]
    rfl
  · have hnone : X.outputsOf j out = [] := by
      apply List.filter_eq_nil_iff.mpr
      intro o ho
      rw [hout o ho, decide_eq_true_eq]
      exact fun hij => hj hij.symm
    rw [Function.update_of_ne hj, hnone, List.append_nil]
    rfl

/-- A piece with which an actor comes to its result. -/
theorem Tracks.one {i : ι} {x' : X.State} {t' : σ} {b : Prop} {l : κ} {out : List ω}
    (h : X.Ahead M x' t' (Function.update underway i b) (Function.update os i []))
    (hstep : M.step t l = some (t', os i ++ out))
    (hout : ∀ o ∈ os i ++ out, X.author o = i) : X.Tracks M x' t os out := by
  refine ⟨[l], t', os i ++ out, _, _, Machine.run_single_eq_some.mpr hstep, h, ?_⟩
  intro j
  by_cases hj : j = i
  · subst hj
    have hall {os' : List ω} (hos : ∀ o ∈ os', X.author o = j) : X.outputsOf j os' = os' :=
      List.filter_eq_self.mpr (fun o ho => decide_eq_true (hos o ho))
    rw [Function.update_self, hall hout,
      hall (fun o ho => hout o (List.mem_append_right _ ho)), List.append_nil]
  · have hnone {os' : List ω} (hos : ∀ o ∈ os', X.author o = i) : X.outputsOf j os' = [] := by
      apply List.filter_eq_nil_iff.mpr
      intro o ho
      rw [hos o ho, decide_eq_true_eq]
      exact fun hij => hj hij.symm
    rw [Function.update_of_ne hj, hnone hout,
      hnone (fun o ho => hout o (List.mem_append_right _ ho)), List.append_nil]
    rfl

variable {i : ι} {e : ε}

theorem Ahead.begin (hX : X.Lawful M) (h : X.Ahead M x t underway os) {v : Unit}
    (hrest : x.rest i = .ret v) {c : γ} (hc : X.control x.shared i = some c) :
    X.Tracks M (x.goOn i (X.code c i e)) t os [] := by
  have hunder : ¬ underway i := by
    intro hunder
    obtain ⟨_, -, hcarries⟩ := h.carries i hunder
    rw [hrest] at hcarries
    exact hcarries
  obtain ⟨hunwinds, hnil⟩ := h.unwinds i hunder
  rw [hrest] at hunwinds
  have hnone : (fun m => x.owner m = some i) = fun _ => False :=
    funext (fun m => eq_false (hunwinds m))
  have hahead : X.Ahead M (x.goOn i (X.code c i e)) t (Function.update underway i True)
      (Function.update os i []) := by
    refine h.move rfl (fun _ _ _ => Iff.rfl) (fun _ _ _ hc => hc) (fun _ _ _ _ => ⟨rfl, rfl⟩)
      h.shared ?_ (fun hb => absurd trivial hb) ?_
    · intro m _ hm
      apply h.clean m
      intro j hj
      exact hm j (fun hji => hunder (hji ▸ hj)) hj
    · intro _
      refine ⟨c, (congrFun (h.control hX) i).symm.trans hc, ?_⟩
      change X.Carries M c i (fun m => x.owner m = some i) _ _ _ _
      rw [hnone]
      exact hX.carries x.shared c i e hc _ _
  exact Tracks.none hahead (by rw [hnil, List.append_nil]) (fun _ ho => absurd ho List.not_mem_nil)

omit [DecidableEq ι] in
/-- A lock that was free, or was the actor's own, is the actor's own or free: the others hold
what they held. -/
theorem owner_other {m : L} {v : Option ι} (howner : x.owner m = none ∨ x.owner m = some i)
    (hv : v = none ∨ v = some i) (n : L) (j : ι) (hj : j ≠ i) :
    Function.update x.owner m v n = some j ↔ x.owner n = some j := by
  by_cases hn : n = m
  · subst hn
    rw [Function.update_self]
    have hne {w : Option ι} (hw : w = none ∨ w = some i) : w ≠ some j := by
      rcases hw with rfl | rfl
      · exact Option.some_ne_none j |>.symm
      · exact fun hij => hj (Option.some.inj hij).symm
    exact iff_of_false (hne hv) (hne howner)
  · rw [Function.update_of_ne hn]

omit [DecidableEq ι] in
theorem owner_acquired (m n : L) : (Function.update x.owner m (some i) n = some i) =
    (n = m ∨ x.owner n = some i) := by
  by_cases hn : n = m
  · subst hn
    simp only [Function.update_self, true_or]
  · simp only [Function.update_of_ne hn, hn, false_or]

omit [DecidableEq ι] in
theorem owner_released (m n : L) : (Function.update x.owner m none n = some i) =
    (n ≠ m ∧ x.owner n = some i) := by
  by_cases hn : n = m
  · subst hn
    simp only [Function.update_self, ne_eq, not_true_eq_false, false_and, reduceCtorEq]
  · simp only [Function.update_of_ne hn, ne_eq, hn, not_false_eq_true, true_and]

theorem Ahead.acquire (h : X.Ahead M x t underway os) {m : L} {k : Unit → Program X.pieces Unit}
    (hrest : x.rest i = .act (.acquire m) k) (hfree : x.owner m = none) :
    X.Tracks M ({ x with owner := Function.update x.owner m (some i) }.goOn i (k ())) t os [] := by
  have hheld : (fun n => Function.update x.owner m (some i) n = some i) =
      fun n => n = m ∨ x.owner n = some i := funext (owner_acquired m)
  have hother := owner_other (x := x) (i := i) (Or.inl hfree) (Or.inr rfl : some i = none ∨ _)
  -- nobody holds the lock, so its data are the same in both states
  have hsame : X.get x.shared m = X.get t m := by
    apply h.clean m
    intro j _
    rw [hfree]
    exact Option.some_ne_none j |>.symm
  have hahead : X.Ahead M
      ({ x with owner := Function.update x.owner m (some i) }.goOn i (k ())) t
      (Function.update underway i (underway i)) (Function.update os i (os i)) := by
    refine h.move rfl hother (fun _ _ _ hc => hc) (fun _ _ _ _ => ⟨rfl, rfl⟩) h.shared ?_ ?_ ?_
    · intro n hi hn
      apply h.clean n
      intro j hj
      by_cases hji : j = i
      · subst hji
        intro howner
        apply hi hj
        change Function.update x.owner m (some j) n = some j
        by_cases hnm : n = m
        · rw [hnm, Function.update_self]
        · rw [Function.update_of_ne hnm, howner]
      · exact hn j hji hj
    · intro hunder
      obtain ⟨hunwinds, hnil⟩ := h.unwinds i hunder
      rw [hrest] at hunwinds
      refine ⟨?_, hnil⟩
      change Unwinds (fun n => Function.update x.owner m (some i) n = some i) (k ())
      rw [hheld]
      exact hunwinds
    · intro hunder
      obtain ⟨c, hc, hcarries⟩ := h.carries i hunder
      rw [hrest] at hcarries
      refine ⟨c, hc, ?_⟩
      change X.Carries M c i (fun n => Function.update x.owner m (some i) n = some i) _ _ _ _
      have hnow := hcarries (X.get t m)
      rw [Function.update_eq_self, ← hsame, Function.update_eq_self] at hnow
      rw [hheld]
      exact hnow
  exact Tracks.none hahead (List.append_nil _).symm (fun _ ho => absurd ho List.not_mem_nil)

theorem Ahead.release (h : X.Ahead M x t underway os) {m : L} {k : Unit → Program X.pieces Unit}
    (hrest : x.rest i = .act (.release m) k) (howner : x.owner m = some i) :
    X.Tracks M ({ x with owner := Function.update x.owner m none }.goOn i (k ())) t os [] := by
  have hheld : (fun n => Function.update x.owner m none n = some i) =
      fun n => n ≠ m ∧ x.owner n = some i := funext (owner_released m)
  have hother := owner_other (x := x) (i := i) (Or.inr howner) (Or.inl rfl : none = none ∨ _)
  have hahead : X.Ahead M ({ x with owner := Function.update x.owner m none }.goOn i (k ())) t
      (Function.update underway i (underway i)) (Function.update os i (os i)) := by
    refine h.move rfl hother (fun _ _ _ hc => hc) (fun _ _ _ _ => ⟨rfl, rfl⟩) h.shared ?_ ?_ ?_
    · intro n hi hn
      by_cases hback : n = m ∧ underway i
      · -- the lock is given back with the data that it had
        obtain ⟨rfl, hunder⟩ := hback
        obtain ⟨c, -, hcarries⟩ := h.carries i hunder
        rw [hrest] at hcarries
        exact hcarries.2.1
      apply h.clean n
      intro j hj
      by_cases hji : j = i
      · subst hji
        have hnm : n ≠ m := fun hnm => hback ⟨hnm, hj⟩
        have hstill : Function.update x.owner m none n ≠ some j := hi hj
        rwa [Function.update_of_ne hnm] at hstill
      · exact hn j hji hj
    · intro hunder
      obtain ⟨hunwinds, hnil⟩ := h.unwinds i hunder
      rw [hrest] at hunwinds
      refine ⟨?_, hnil⟩
      change Unwinds (fun n => Function.update x.owner m none n = some i) (k ())
      rw [hheld]
      exact hunwinds.2
    · intro hunder
      obtain ⟨c, hc, hcarries⟩ := h.carries i hunder
      rw [hrest] at hcarries
      refine ⟨c, hc, ?_⟩
      change X.Carries M c i (fun n => Function.update x.owner m none n = some i) _ _ _ _
      rw [hheld]
      exact hcarries.2.2
  exact Tracks.none hahead (List.append_nil _).symm (fun _ ho => absurd ho List.not_mem_nil)

theorem Ahead.access (hX : X.Lawful M) (h : X.Ahead M x t underway os) {m : L}
    {f : (X.data m).Act} {k : (X.data m).Answer f → Program X.pieces Unit}
    (hrest : x.rest i = .act (.access m f) k) :
    X.Tracks M ({ x with
        shared := X.set x.shared
          (Function.update (X.get x.shared) m (X.access m (X.get x.shared m) f).1) }.goOn i
        (k (X.access m (X.get x.shared m) f).2)) t os [] := by
  have hunder : underway i := by
    by_contra hunder
    have hunwinds := (h.unwinds i hunder).1
    rw [hrest] at hunwinds
    exact hunwinds
  obtain ⟨c, hc, hcarries⟩ := h.carries i hunder
  rw [hrest] at hcarries
  obtain ⟨howner, hcarries⟩ := hcarries
  let new := Function.update (X.get x.shared) m (X.access m (X.get x.shared m) f).1
  have hget : X.get (X.set x.shared new) = new := hX.get_set _ _
  have hnew (n : L) (hnm : n ≠ m) : new n = X.get x.shared n := Function.update_of_ne hnm _ _
  have hahead : X.Ahead M
      ({ x with shared := X.set x.shared new }.goOn i (k (X.access m (X.get x.shared m) f).2)) t
      (Function.update underway i (underway i)) (Function.update os i (os i)) := by
    refine h.move rfl (fun _ _ _ => Iff.rfl) (fun _ _ _ hc => hc) ?_ ?_ ?_
      (fun hno => absurd hunder hno) (fun _ => ⟨c, hc, ?_⟩)
    · intro n j hj hn
      refine ⟨rfl, ?_⟩
      have hnm : n ≠ m := by
        rintro rfl
        exact hj (Option.some.inj (hn.symm.trans howner))
      change X.get (X.set x.shared new) n = _
      rw [hget, hnew n hnm]
    · change X.set x.shared new = X.set t (X.get (X.set x.shared new))
      rw [hget, h.shared, hX.set_set]
    · intro n hi hn
      have hnm : n ≠ m := by
        rintro rfl
        exact hi hunder howner
      change X.get (X.set x.shared new) n = _
      rw [hget, hnew n hnm]
      apply h.clean n
      intro j hj
      by_cases hji : j = i
      · subst hji
        exact hi hj
      · exact hn j hji hj
    · change X.Carries M c i (fun n => x.owner n = some i) _ (X.get (X.set x.shared new)) _ _
      rw [hget]
      exact hcarries
  exact Tracks.none hahead (List.append_nil _).symm (fun _ ho => absurd ho List.not_mem_nil)

theorem Ahead.ask (hX : X.Lawful M) (h : X.Ahead M x t underway os) {a : X.io.Act}
    {k : X.io.Answer a → Program X.pieces Unit} (hrest : x.rest i = .act (.ask a) k) :
    X.Tracks M (x.goOn i (k (X.ask i e a).1)) t os (X.ask i e a).2 := by
  have hunder : underway i := by
    by_contra hunder
    have hunwinds := (h.unwinds i hunder).1
    rw [hrest] at hunwinds
    exact hunwinds
  obtain ⟨c, hc, hcarries⟩ := h.carries i hunder
  rw [hrest] at hcarries
  have hahead : X.Ahead M (x.goOn i (k (X.ask i e a).1)) t
      (Function.update underway i (underway i))
      (Function.update os i (os i ++ (X.ask i e a).2)) := by
    refine h.move rfl (fun _ _ _ => Iff.rfl) (fun _ _ _ hc => hc) (fun _ _ _ _ => ⟨rfl, rfl⟩)
      h.shared ?_ (fun hno => absurd hunder hno) (fun _ => ⟨c, hc, hcarries e⟩)
    intro n hi hn
    apply h.clean n
    intro j hj
    by_cases hji : j = i
    · subst hji
      exact hi hj
    · exact hn j hji hj
  exact Tracks.none hahead rfl (hX.author_ask i e a)

omit [DecidableEq ι] in
/-- A step that leaves alone what lies behind the locks leaves it as it is. -/
theorem Independent.get_eq (hX : X.Lawful M) {c : γ} (h : X.Independent M c i)
    (hc : X.control t i = some c) {t' : σ} {out : List ω}
    (hstep : M.step t (X.label c i e) = some (t', out)) : X.get t' = X.get t := by
  have hsame := h t (X.get t) e hc
  rw [hX.set_get, hstep] at hsame
  obtain ⟨ht', -⟩ := Prod.mk.inj (Option.some.inj hsame)
  change t' = X.set t' (X.get t) at ht'
  rw [ht', hX.get_set]

theorem Ahead.whole (hX : X.Lawful M) (h : X.Ahead M x t underway os)
    {k : Unit → Program X.pieces Unit} (hrest : x.rest i = .act .whole k) {c : γ}
    (hc : X.control x.shared i = some c) {s' : σ} {out : List ω}
    (hstep : M.step x.shared (X.label c i e) = some (s', out)) :
    X.Tracks M ({ x with shared := s' }.goOn i (k ())) t os out := by
  have hunder : underway i := by
    by_contra hunder
    have hunwinds := (h.unwinds i hunder).1
    rw [hrest] at hunwinds
    exact hunwinds
  obtain ⟨c', hc', hcarries⟩ := h.carries i hunder
  rw [hrest] at hcarries
  obtain ⟨hnil, hclean, hindependent, hunwinds⟩ := hcarries
  obtain rfl : c' = c := by
    rw [h.control hX] at hc
    exact Option.some.inj (hc'.symm.trans hc)
  -- the step from the one state is the step from the other
  rw [h.shared, hindependent t _ e hc'] at hstep
  obtain ⟨⟨t', out'⟩, ht, hx⟩ := Option.map_eq_some_iff.mp hstep
  obtain ⟨rfl, rfl⟩ := Prod.mk.inj hx
  have hget : X.get t' = X.get t := hindependent.get_eq hX hc' ht
  have hahead : X.Ahead M ({ x with shared := X.set t' (X.get x.shared) }.goOn i (k ())) t'
      (Function.update underway i False) (Function.update os i []) := by
    refine h.move rfl (fun _ _ _ => Iff.rfl) ?_ ?_ ?_ ?_ (fun _ => ⟨hunwinds, rfl⟩) False.elim
    · intro j hj cj hcj
      exact hX.keeps t (t', out') c' i e hc' ht j hj cj hcj
    · intro n j _ _
      rw [hget]
      refine ⟨rfl, ?_⟩
      change X.get (X.set t' (X.get x.shared)) n = _
      rw [hX.get_set]
    · change X.set t' (X.get x.shared) = X.set t' (X.get (X.set t' (X.get x.shared)))
      rw [hX.get_set]
    · intro n _ hn
      change X.get (X.set t' (X.get x.shared)) n = _
      rw [hX.get_set, hget]
      by_cases howner : x.owner n = some i
      · exact hclean n howner
      · apply h.clean n
        intro j hj
        by_cases hji : j = i
        · rw [hji]
          exact howner
        · exact hn j hji hj
  refine Tracks.one (l := X.label c' i e) hahead ?_ ?_
  · rw [hnil]
    exact ht
  · rw [hnil]
    exact hX.author_step t (t', out') c' i e hc' ht

theorem Ahead.commit (hX : X.Lawful M) (h : X.Ahead M x t underway os) {g : σ → σ}
    {last : List ω} {k : Unit → Program X.pieces Unit}
    (hrest : x.rest i = .act (.commit g last) k) :
    X.Tracks M ({ x with shared := g x.shared }.goOn i (k ())) t os last := by
  have hunder : underway i := by
    by_contra hunder
    have hunwinds := (h.unwinds i hunder).1
    rw [hrest] at hunwinds
    exact hunwinds
  obtain ⟨c, hc, hcarries⟩ := h.carries i hunder
  rw [hrest] at hcarries
  obtain ⟨hown, hunwinds, hcommit⟩ := hcarries
  -- the data of the actor are now those of the state, and the others keep theirs
  let d : ∀ m, X.Data m := fun m => if x.owner m = some i then X.get x.shared m else X.get t m
  have hmine (m : L) (hm : x.owner m = some i) : d m = X.get x.shared m := if_pos hm
  have hfree (m : L) (hm : x.owner m ≠ some i) : d m = X.get t m := if_neg hm
  obtain ⟨e, ht⟩ := hcommit t d hc (fun m hm => ⟨rfl, hmine m hm⟩) hfree
  have hget : X.get (g (X.set t d)) = d := by rw [hown, hX.get_set]
  have hshared : g x.shared = X.set (g (X.set t d)) (X.get x.shared) := by
    rw [hown, hX.set_set, ← hown, ← h.shared]
  have hgetx : X.get (g x.shared) = X.get x.shared := by rw [hshared, hX.get_set]
  have hahead : X.Ahead M ({ x with shared := g x.shared }.goOn i (k ())) (g (X.set t d))
      (Function.update underway i False) (Function.update os i []) := by
    refine h.move rfl (fun _ _ _ => Iff.rfl) ?_ ?_ ?_ ?_ (fun _ => ⟨hunwinds, rfl⟩) False.elim
    · intro j hj cj hcj
      exact hX.keeps t _ c i e hc ht j hj cj hcj
    · intro n j hj hn
      have hni : x.owner n ≠ some i := by
        rw [hn]
        exact fun hji => hj (Option.some.inj hji)
      refine ⟨?_, congrFun hgetx n⟩
      rw [hget, hfree n hni]
    · change g x.shared = X.set (g (X.set t d)) (X.get (g x.shared))
      rw [hgetx, ← hshared]
    · intro n _ hn
      change X.get (g x.shared) n = _
      rw [hgetx, hget]
      by_cases howner : x.owner n = some i
      · rw [hmine n howner]
      · rw [hfree n howner]
        apply h.clean n
        intro j hj
        by_cases hji : j = i
        · rw [hji]
          exact howner
        · exact hn j hji hj
  exact Tracks.one hahead ht (hX.author_step t _ c i e hc ht)

/-- Every piece is a step of the machine that is behind it, or none. -/
theorem Ahead.step (hX : X.Lawful M) (h : X.Ahead M x t underway os) {x' : X.State}
    {out : List ω} (hstep : X.step M x (i, e) = some (x', out)) : X.Tracks M x' t os out := by
  unfold Sections.step at hstep
  cases hrest : x.rest i with
  | ret v =>
    simp only [hrest] at hstep
    obtain ⟨c, hc, hx⟩ := Option.map_eq_some_iff.mp hstep
    obtain ⟨rfl, rfl⟩ := Prod.mk.inj hx
    exact h.begin hX hrest hc
  | act a k =>
    cases a with
    | acquire m =>
      simp only [hrest] at hstep
      split_ifs at hstep with hfree
      obtain ⟨rfl, rfl⟩ := Prod.mk.inj (Option.some.inj hstep)
      exact h.acquire hrest hfree
    | release m =>
      simp only [hrest] at hstep
      split_ifs at hstep with howner
      obtain ⟨rfl, rfl⟩ := Prod.mk.inj (Option.some.inj hstep)
      exact h.release hrest howner
    | access m f =>
      simp only [hrest] at hstep
      obtain ⟨rfl, rfl⟩ := Prod.mk.inj (Option.some.inj hstep)
      exact h.access hX hrest
    | ask a =>
      simp only [hrest] at hstep
      obtain ⟨rfl, rfl⟩ := Prod.mk.inj (Option.some.inj hstep)
      exact h.ask hX hrest
    | whole =>
      simp only [hrest] at hstep
      obtain ⟨c, hc, hstep⟩ := Option.bind_eq_some_iff.mp hstep
      obtain ⟨⟨s', out'⟩, hM, hx⟩ := Option.map_eq_some_iff.mp hstep
      obtain ⟨rfl, rfl⟩ := Prod.mk.inj hx
      exact h.whole hX hrest hc hM
    | commit g last =>
      simp only [hrest] at hstep
      obtain ⟨rfl, rfl⟩ := Prod.mk.inj (Option.some.inj hstep)
      exact h.commit hX hrest

/-- A run in pieces is a run in whole steps, with the same outputs of each actor but for what
those underway have put out. -/
theorem Ahead.run (hX : X.Lawful M) (h : X.Ahead M x t underway os) {ls : List (ι × ε)}
    {x' : X.State} {out : List ω} (hrun : (X.machine M).run x ls = some (x', out)) :
    X.Tracks M x' t os out := by
  induction ls generalizing x t underway os out with
  | nil =>
    obtain ⟨rfl, rfl⟩ := Prod.mk.inj (Option.some.inj hrun)
    exact ⟨[], t, [], underway, os, rfl, h, fun j => (List.append_nil (os j)).symm⟩
  | cons l ls ih =>
    obtain ⟨y, o, out', hstep, hrest, rfl⟩ := Machine.run_cons_eq_some.mp hrun
    obtain ⟨ks, u, p, under₁, os₁, hks, hy, hp⟩ := h.step hX hstep
    obtain ⟨ks', u', p', under₂, os₂, hks', hx', hp'⟩ := ih hy hrest
    refine ⟨ks ++ ks', u', p ++ p', under₂, os₂, Machine.run_append_eq_some.mpr
      ⟨u, p, p', hks, hks', rfl⟩, hx', ?_⟩
    intro j
    calc
      X.outputsOf j (p ++ p') ++ os₂ j = X.outputsOf j p ++ (X.outputsOf j p' ++ os₂ j) := by
        rw [X.outputsOf_append, List.append_assoc]
      _ = (X.outputsOf j p ++ os₁ j) ++ X.outputsOf j out' := by rw [hp' j, List.append_assoc]
      _ = os j ++ (X.outputsOf j o ++ X.outputsOf j out') := by rw [hp j, List.append_assoc]
      _ = os j ++ X.outputsOf j (o ++ out') := by rw [X.outputsOf_append]

end Steps
end Sections
end Interaction
