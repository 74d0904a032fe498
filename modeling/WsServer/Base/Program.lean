import Mathlib.Logic.Basic

/-! Sequential programs as trees over a signature of atomic actions. A program is
run against a shared state one action at a time, so the same tree serves a solo
run and every interleaving; a protocol is what a program follows in all of them. -/
namespace Interaction

/-- The atomic actions of a shared state, each with the type of its answer. -/
structure Signature where
  Act : Type
  Answer : Act → Type

inductive Program (S : Signature) (α : Type) where
  | ret (value : α)
  | act (action : S.Act) (next : S.Answer action → Program S α)

/-- What a program may do, tracked by a ghost state: which actions it may perform,
and how an answer moves the ghost state. No next ghost state means that the answer
cannot occur. -/
structure Protocol (S : Signature) (γ : Type) where
  allowed : γ → S.Act → Prop
  after : γ → (a : S.Act) → S.Answer a → Option γ

namespace Program
variable {S : Signature} {α β γ : Type}

protected def bind : Program S α → (α → Program S β) → Program S β
  | .ret v, f => f v
  | .act a k, f => .act a (fun r => (k r).bind f)

instance : Monad (Program S) where
  pure := .ret
  bind := Program.bind

def perform (a : S.Act) : Program S (S.Answer a) := .act a .ret

@[simp] theorem pure_eq (v : α) : (pure v : Program S α) = .ret v := rfl

@[simp] theorem ret_bind (v : α) (f : α → Program S β) : (ret v >>= f) = f v := rfl

@[simp] theorem act_bind (a : S.Act) (k : S.Answer a → Program S α) (f : α → Program S β) :
    (act a k >>= f) = act a (fun r => k r >>= f) := rfl

theorem bind_assoc (p : Program S α) (f : α → Program S β) (g : β → Program S γ) :
    (p >>= f) >>= g = p >>= fun v => f v >>= g := by
  induction p with
  | ret v => rfl
  | act a k ih => exact congrArg (act a) (funext ih)

/-- Whatever the answers, the program performs only allowed actions, and its value
and last ghost state meet the postcondition. -/
def Follows (M : Protocol S γ) : γ → Program S α → (α → γ → Prop) → Prop
  | g, .ret v, post => post v g
  | g, .act a k, post => M.allowed g a ∧
      ∀ r g', M.after g a r = some g' → Follows M g' (k r) post

theorem Follows.mono {M : Protocol S γ} {g : γ} {p : Program S α} {post post' : α → γ → Prop}
    (h : Follows M g p post) (hpost : ∀ v g, post v g → post' v g) : Follows M g p post' := by
  induction p generalizing g with
  | ret v => exact hpost v g h
  | act a k ih => exact ⟨h.1, fun r g' hg => ih r (h.2 r g' hg)⟩

/-- The rule of composition: what the first part ends in is where the rest starts. -/
theorem Follows.bind {M : Protocol S γ} {g : γ} {p : Program S α} {f : α → Program S β}
    {mid : α → γ → Prop} {post : β → γ → Prop} (h : Follows M g p mid)
    (hf : ∀ v g', mid v g' → Follows M g' (f v) post) : Follows M g (p >>= f) post := by
  induction p generalizing g with
  | ret v => exact hf v g h
  | act a k ih => exact ⟨h.1, fun r g' hg => ih r (h.2 r g' hg)⟩

/-- Whatever the answers, every action that the program performs is one of `A`. -/
def Performs (A : S.Act → Prop) : Program S α → Prop
  | .ret _ => True
  | .act a k => A a ∧ ∀ r, Performs A (k r)

theorem Performs.mono {A B : S.Act → Prop} {p : Program S α} (h : Performs A p)
    (hAB : ∀ a, A a → B a) : Performs B p := by
  induction p with
  | ret v => trivial
  | act a k ih => exact ⟨hAB a h.1, fun r => ih r (h.2 r)⟩

theorem Performs.and {A B : S.Act → Prop} {p : Program S α} (h : Performs A p)
    (h' : Performs B p) : Performs (fun a => A a ∧ B a) p := by
  induction p with
  | ret v => trivial
  | act a k ih => exact ⟨⟨h.1, h'.1⟩, fun r => ih r (h.2 r) (h'.2 r)⟩

theorem Performs.bind {A : S.Act → Prop} {p : Program S α} {f : α → Program S β}
    (h : Performs A p) (hf : ∀ v, Performs A (f v)) : Performs A (p >>= f) := by
  induction p with
  | ret v => exact hf v
  | act a k ih => exact ⟨h.1, fun r => ih r (h.2 r)⟩

/-- A program follows a protocol from any ghost state that its actions may be
performed in and do not move. -/
theorem Performs.follows {A : S.Act → Prop} {p : Program S α} (h : Performs A p)
    (M : Protocol S γ) (g : γ)
    (hA : ∀ a, A a → M.allowed g a ∧ ∀ r g', M.after g a r = some g' → g' = g) :
    Follows M g p (fun _ g' => g' = g) := by
  induction p with
  | ret v => exact rfl
  | act a k ih =>
    obtain ⟨hallowed, hafter⟩ := hA a h.1
    refine ⟨hallowed, ?_⟩
    intro r g' hg
    rw [hafter r g' hg]
    exact ih r (h.2 r)

/-- A program follows a protocol that allows its actions in every ghost state. -/
theorem Performs.follows_any {A : S.Act → Prop} {p : Program S α} (h : Performs A p)
    (M : Protocol S γ) (hA : ∀ a g, A a → M.allowed g a) (g : γ) :
    Follows M g p (fun _ _ => True) := by
  induction p generalizing g with
  | ret v => trivial
  | act a k ih =>
    refine ⟨hA a g h.1, ?_⟩
    intro r g' _
    exact ih r (h.2 r) g'

/-- A solo run: every action is answered by the handler, with one environment
input each, and nobody else touches the state in between. -/
def solo {σ ε ω : Type} (handle : σ → ε → (a : S.Act) → σ × S.Answer a × List ω) :
    Program S α → σ → (Nat → ε) → α × σ × List ω
  | .ret v, s, _ => (v, s, [])
  | .act a k, s, e =>
    let x := handle s (e 0) a
    let y := solo handle (k x.2.1) x.1 (fun n => e (n+1))
    (y.1, y.2.1, x.2.2 ++ y.2.2)

/-- In a constant environment solo runs compose. -/
theorem solo_bind {σ ε ω : Type} (handle : σ → ε → (a : S.Act) → σ × S.Answer a × List ω)
    (p : Program S α) (f : α → Program S β) (s : σ) (e : ε) :
    solo handle (p >>= f) s (fun _ => e) =
      let x := solo handle p s (fun _ => e)
      let y := solo handle (f x.1) x.2.1 (fun _ => e)
      (y.1, y.2.1, x.2.2 ++ y.2.2) := by
  induction p generalizing s with
  | ret v => rfl
  | act a k ih => simp only [act_bind, solo, ih, List.append_assoc]

end Program
end Interaction
