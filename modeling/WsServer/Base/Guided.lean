import Mathlib.Tactic.SplitIfs
import WsServer.Base.Consuming

/-! What a program performs when something is known of the answers that it gets, as when the
shared state that answers keeps an invariant. -/
namespace Interaction
namespace Program
variable {S : Signature} {α β ι : Type}

/-- While the answers are ones of `G`, every action that the program performs is one of `A`. -/
def Guided (G : ∀ a : S.Act, S.Answer a → Prop) (A : S.Act → Prop) : Program S α → Prop
  | .ret _ => True
  | .act a k => A a ∧ ∀ r, G a r → Guided G A (k r)

variable {G H : ∀ a : S.Act, S.Answer a → Prop} {A B : S.Act → Prop}

theorem Performs.guided {p : Program S α} (h : Performs A p) : Guided G A p := by
  induction p with
  | ret v => trivial
  | act a k ih => exact ⟨h.1, fun r _ => ih r (h.2 r)⟩

theorem Guided.performs {p : Program S α} (h : Guided (fun _ _ => True) A p) : Performs A p := by
  induction p with
  | ret v => trivial
  | act a k ih => exact ⟨h.1, fun r => ih r (h.2 r trivial)⟩

theorem Guided.mono {p : Program S α} (h : Guided G A p) (hHG : ∀ a r, H a r → G a r)
    (hAB : ∀ a, A a → B a) : Guided H B p := by
  induction p with
  | ret v => trivial
  | act a k ih => exact ⟨hAB a h.1, fun r hr => ih r (h.2 r (hHG a r hr))⟩

theorem Guided.and {p : Program S α} (h : Guided G A p) (h' : Guided G B p) :
    Guided G (fun a => A a ∧ B a) p := by
  induction p with
  | ret v => trivial
  | act a k ih => exact ⟨⟨h.1, h'.1⟩, fun r hr => ih r (h.2 r hr) (h'.2 r hr)⟩

theorem Guided.bind {p : Program S α} {f : α → Program S β} (h : Guided G A p)
    (hf : ∀ v, Guided G A (f v)) : Guided G A (p >>= f) := by
  induction p with
  | ret v => exact hf v
  | act a k ih => exact ⟨h.1, fun r hr => ih r (h.2 r hr)⟩

theorem guided_pure (v : α) : Guided G A (pure v : Program S α) := trivial

theorem guided_single {a : S.Act} (ha : A a) : Guided G A (perform a) := ⟨ha, fun _ _ => trivial⟩

theorem guided_then {a : S.Act} {f : S.Answer a → Program S β} (ha : A a)
    (hf : ∀ r, G a r → Guided G A (f r)) : Guided G A (perform a >>= f) := ⟨ha, hf⟩

/-- A program that works through a list performs no marked action without an item for it. -/
theorem Follows.performs_consuming {marked : S.Act → Prop} [DecidablePred marked]
    {R : S.Act → ι → Prop} {items : List ι} {p : Program S α} {post : α → List ι → Prop}
    (h : Follows (consuming marked R) items p post) :
    Performs (fun a => marked a → ∃ item ∈ items, R a item) p := by
  induction p generalizing items with
  | ret v => trivial
  | act a k ih =>
    constructor
    · intro hmarked
      obtain ⟨item, rest, rfl, hR⟩ := h.1 hmarked
      exact ⟨item, List.mem_cons_self, hR⟩
    · intro r
      refine (ih r (h.2 r _ rfl)).mono ?_
      intro b hb hmarked
      obtain ⟨item, hmem, hR⟩ := hb hmarked
      refine ⟨item, ?_, hR⟩
      -- the items that are left are some of those that there were
      split_ifs at hmem
      · exact List.mem_of_mem_tail hmem
      · exact hmem

end Program
end Interaction
