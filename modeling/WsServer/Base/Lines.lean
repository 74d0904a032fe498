import Mathlib.Data.List.Basic
import Mathlib.Tactic.Common

/-! Lines and fields of a text: lines that end in a newline each, and a field up to its
separator. -/
namespace Lines
variable {α : Type} [DecidableEq α]

/-- The lines of a text, without what stands behind the last newline. -/
def lines (newline : α) (text : List α) : List (List α) := (text.splitOn newline).dropLast

def unlines (newline : α) (ls : List (List α)) : List α := ls.flatMap (· ++ [newline])

/-- What stands in front of the first separator, and what stands behind it. -/
def field (separator : α) : List α → Option (List α × List α)
  | [] => none
  | c :: cs =>
    if c = separator then some ([], cs)
    else (field separator cs).map fun x => (c :: x.1, x.2)

variable {newline separator : α} {ls : List (List α)}

theorem field_append {a : List α} (h : separator ∉ a) (b : List α) :
    field separator (a ++ separator :: b) = some (a, b) := by
  induction a with
  | nil => exact if_pos rfl
  | cons c a ih =>
    obtain ⟨hc, ha⟩ := not_or.mp (mt List.mem_cons.mpr h)
    rw [List.cons_append, field, if_neg (Ne.symm hc), ih ha]
    rfl

omit [DecidableEq α] in
theorem unlines_cons (line : List α) (ls : List (List α)) :
    unlines newline (line :: ls) = line ++ newline :: unlines newline ls := by
  rw [unlines, List.flatMap_cons, List.append_assoc]
  rfl

theorem lines_append_cons {line : List α} (h : newline ∉ line) (text : List α) :
    lines newline (line ++ newline :: text) = line :: lines newline text := by
  rw [lines, List.splitOn_append_cons_self_of_not_mem h,
    List.dropLast_cons_of_ne_nil (List.splitOn_ne_nil newline text), lines]

/-- Lines without a newline are read back. -/
theorem lines_unlines (h : ∀ line ∈ ls, newline ∉ line) :
    lines newline (unlines newline ls) = ls := by
  induction ls with
  | nil => rfl
  | cons line ls ih =>
    obtain ⟨hline, hls⟩ := List.forall_mem_cons.mp h
    rw [unlines_cons, lines_append_cons hline, ih hls]

theorem length_lines (text : List α) : (lines newline text).length = text.count newline := by
  have hlength : (text.splitOn newline).length = text.count newline+1 := by
    induction text with
    | nil => rfl
    | cons c text ih =>
      rw [List.splitOn_cons_eq_if_modifyHead, List.count_cons]
      split_ifs with hc
      · rw [List.length_cons, ih]
      · rw [List.length_modifyHead, ih]
  rw [lines, List.length_dropLast, hlength, Nat.add_sub_cancel]

/-- There are as many lines as before exactly where none of them holds a newline. -/
theorem length_lines_unlines :
    (lines newline (unlines newline ls)).length = ls.length ↔ ∀ line ∈ ls, newline ∉ line := by
  rw [length_lines]
  have hcount : ls.length ≤ (unlines newline ls).count newline ∧
      ((unlines newline ls).count newline = ls.length → ∀ line ∈ ls, newline ∉ line) := by
    induction ls with
    | nil => exact ⟨Nat.le_refl _, fun _ => List.forall_mem_nil _⟩
    | cons line ls ih =>
      obtain ⟨hle, hnone⟩ := ih
      rw [unlines_cons, List.count_append, List.count_cons_self, List.length_cons]
      refine ⟨by omega, ?_⟩
      intro h
      have hline : line.count newline = 0 := by omega
      exact List.forall_mem_cons.mpr ⟨List.count_eq_zero.mp hline, hnone (by omega)⟩
  constructor
  · exact hcount.2
  · intro h
    rw [← length_lines, lines_unlines h]

omit [DecidableEq α] in
/-- The last newline of a text cuts it in one way only. -/
theorem append_cons_inj_last {a b c d : List α} (h : a ++ newline :: b = c ++ newline :: d)
    (hb : newline ∉ b) (hd : newline ∉ d) : a = c ∧ b = d := by
  rcases List.append_eq_append_iff.mp h with ⟨e, rfl, he⟩ | ⟨e, rfl, he⟩
  · cases e with
    | nil => exact ⟨(List.append_nil a).symm, (List.cons.inj he).2⟩
    | cons x e =>
      have hmem : newline ∈ b := by
        rw [(List.cons.inj he).2]
        exact List.mem_append_right e List.mem_cons_self
      exact absurd hmem hb
  · cases e with
    | nil => exact ⟨List.append_nil c, (List.cons.inj he).2.symm⟩
    | cons x e =>
      have hmem : newline ∈ d := by
        rw [(List.cons.inj he).2]
        exact List.mem_append_right e List.mem_cons_self
      exact absurd hmem hd

theorem notMem_of_mem_splitOn {line text : List α} (h : line ∈ text.splitOn newline) :
    newline ∉ line := by
  induction hlength : text.length using Nat.strongRecOn generalizing text with
  | _ k ih =>
    by_cases hmem : newline ∈ text
    · obtain ⟨first, rest, htext, hfirst⟩ := List.eq_append_cons_of_mem hmem
      rw [htext, List.splitOn_append_cons_self_of_not_mem hfirst] at h
      rcases List.mem_cons.mp h with rfl | hrest
      · exact hfirst
      · have hless : rest.length < k := by
          rw [← hlength, htext, List.length_append, List.length_cons]
          omega
        exact ih _ hless hrest rfl
    · rw [List.splitOn_eq_singleton hmem] at h
      rw [List.mem_singleton.mp h]
      exact hmem

/-! ### Lines put together, with a newline between them -/

omit [DecidableEq α] in
theorem forall_mem_intercalate {P : α → Prop} (hnewline : P newline)
    (h : ∀ line ∈ ls, ∀ c ∈ line, P c) : ∀ c ∈ [newline].intercalate ls, P c := by
  induction ls with
  | nil => exact List.forall_mem_nil _
  | cons line ls ih =>
    obtain ⟨hline, hls⟩ := List.forall_mem_cons.mp h
    cases ls with
    | nil =>
      rw [List.intercalate_singleton]
      exact hline
    | cons next ls =>
      rw [List.intercalate_cons_cons]
      refine List.forall_mem_append.mpr ⟨List.forall_mem_append.mpr ⟨hline, ?_⟩, ih hls⟩
      exact List.forall_mem_singleton.mpr hnewline

omit [DecidableEq α] in
/-- A line among others stands behind a newline and in front of one, but at the ends. -/
theorem intercalate_split (newline : α) (ls₁ : List (List α)) (line : List α) (ls₂ : List (List α)) :
    ∃ a b, (a = [] ∨ ∃ a', a = a' ++ [newline]) ∧ (b = [] ∨ ∃ rest, b = newline :: rest) ∧
      [newline].intercalate (ls₁ ++ line :: ls₂) = a ++ line ++ b := by
  induction ls₁ with
  | nil =>
    cases ls₂ with
    | nil =>
      refine ⟨[], [], Or.inl rfl, Or.inl rfl, ?_⟩
      rw [List.nil_append, List.intercalate_singleton, List.append_nil, List.nil_append]
    | cons next ls₂ =>
      refine ⟨[], newline :: [newline].intercalate (next :: ls₂), Or.inl rfl,
        Or.inr ⟨_, rfl⟩, ?_⟩
      rw [List.nil_append, List.intercalate_cons_cons, List.append_assoc]
      rfl
  | cons first ls₁ ih =>
    obtain ⟨a, b, ha, hb, hab⟩ := ih
    have hne : ls₁ ++ line :: ls₂ ≠ [] := List.append_ne_nil_of_right_ne_nil _ (List.cons_ne_nil _ _)
    refine ⟨first ++ newline :: a, b, Or.inr ?_, hb, ?_⟩
    · rcases ha with rfl | ⟨a', rfl⟩
      · exact ⟨first, rfl⟩
      · exact ⟨first ++ newline :: a', by rw [List.append_assoc, List.cons_append]⟩
    · rw [List.cons_append, List.intercalate_cons_of_ne_nil hne, hab]
      simp only [List.append_assoc, List.cons_append, List.nil_append]

end Lines
