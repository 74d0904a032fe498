import Mathlib.Data.List.DropRight
import Mathlib.Data.List.TakeWhile
import WsServer.Base.Lines

/-! A text without the blanks around it. -/
namespace Trim
variable {α : Type} {blank : α → Bool} {a b s : List α}

def trim (blank : α → Bool) (s : List α) : List α := (s.dropWhile blank).rdropWhile blank

theorem rdropWhile_append_blank (hb : ∀ c ∈ b, blank c = true) (s : List α) :
    (s ++ b).rdropWhile blank = s.rdropWhile blank := by
  have hreverse : ∀ c ∈ b.reverse, blank c = true := fun c hc => hb c (List.mem_reverse.mp hc)
  unfold List.rdropWhile
  rw [List.reverse_append, List.dropWhile_append_of_pos hreverse]

/-- Blanks in front make no difference. -/
theorem trim_blank_append (ha : ∀ c ∈ a, blank c = true) (s : List α) :
    trim blank (a ++ s) = trim blank s := by
  unfold trim
  rw [List.dropWhile_append_of_pos ha]

/-- Blanks behind make no difference. -/
theorem trim_append_blank (hb : ∀ c ∈ b, blank c = true) (s : List α) :
    trim blank (s ++ b) = trim blank s := by
  unfold trim
  rw [List.dropWhile_append]
  split_ifs with hnil
  · rw [List.isEmpty_iff.mp hnil, List.dropWhile_eq_nil_iff.mpr hb]
  · exact rdropWhile_append_blank hb _

/-- What is trimmed off is blank. -/
theorem exists_blanks (blank : α → Bool) (s : List α) :
    ∃ a b, (∀ c ∈ a, blank c = true) ∧ (∀ c ∈ b, blank c = true) ∧ s = a ++ trim blank s ++ b := by
  refine ⟨s.takeWhile blank, (s.dropWhile blank).rtakeWhile blank, ?_, ?_, ?_⟩
  · intro c hc
    exact List.mem_takeWhile_imp hc
  · intro c hc
    exact List.mem_rtakeWhile_imp hc
  · unfold trim
    rw [List.append_assoc, List.rdropWhile_append_rtakeWhile, List.takeWhile_append_dropWhile]

theorem find?_of_blank (ha : ∀ c ∈ a, blank c = true) : a.find? (fun c => !blank c) = none := by
  apply List.find?_eq_none.mpr
  intro c hc
  rw [ha c hc]
  decide

/-- The first character of a trimmed text is the first one that is not blank. -/
theorem head?_trim (blank : α → Bool) (s : List α) :
    (trim blank s).head? = s.find? (fun c => !blank c) := by
  obtain ⟨a, b, ha, hb, hs⟩ := exists_blanks blank s
  have hfind : s.find? (fun c => !blank c) = (trim blank s).find? (fun c => !blank c) := by
    conv_lhs => rw [hs]
    rw [List.find?_append, List.find?_append, find?_of_blank ha, find?_of_blank hb,
      Option.none_or, Option.or_none]
  rw [hfind]
  cases htrim : trim blank s with
  | nil => rfl
  | cons c cs =>
    -- the head of what is left of `dropWhile` is not blank, and `rdropWhile` keeps it in front
    have hprefix : trim blank s <+: s.dropWhile blank := List.rdropWhile_prefix blank _
    obtain ⟨t, ht⟩ := hprefix
    rw [htrim] at ht
    have hhead := List.head?_dropWhile_not blank s
    rw [← ht] at hhead
    have hc : blank c = false := hhead
    rw [List.head?_cons, List.find?_cons_of_pos]
    rw [hc]
    rfl

theorem trim_eq_nil_iff (blank : α → Bool) (s : List α) :
    trim blank s = [] ↔ s.find? (fun c => !blank c) = none := by
  rw [← head?_trim, List.head?_eq_none_iff]

/-! ### Fields of a trimmed text -/

variable [DecidableEq α] {separator : α}

theorem field_eq_none_iff : Lines.field separator s = none ↔ separator ∉ s := by
  induction s with
  | nil => simp [Lines.field]
  | cons c s ih =>
    unfold Lines.field
    split_ifs with hc
    · simp [hc]
    · simp [ih, Ne.symm hc]

/-- The two fields of a text, trimmed, are those of the text when it is trimmed itself. -/
theorem field_trim (blank : α → Bool) (hseparator : blank separator = false) (s : List α) :
    (Lines.field separator (trim blank s)).map (fun x => (trim blank x.1, trim blank x.2)) =
      (Lines.field separator s).map (fun x => (trim blank x.1, trim blank x.2)) := by
  obtain ⟨a, b, ha, hb, hs⟩ := exists_blanks blank s
  have hmem {t : List α} (ht : ∀ c ∈ t, blank c = true) : separator ∉ t := by
    intro hin
    rw [ht separator hin] at hseparator
    cases hseparator
  by_cases hfield : separator ∈ trim blank s
  · obtain ⟨key, value, hsplit, hkey⟩ := List.eq_append_cons_of_mem hfield
    have hwhole : s = (a ++ key) ++ separator :: (value ++ b) := by
      conv_lhs => rw [hs, hsplit]
      simp only [List.append_assoc, List.cons_append]
    have hkey' : separator ∉ a ++ key := by
      rw [List.mem_append]
      exact not_or.mpr ⟨hmem ha, hkey⟩
    rw [hsplit, Lines.field_append hkey]
    conv_rhs => rw [hwhole, Lines.field_append hkey']
    simp only [Option.map_some, trim_blank_append ha, trim_append_blank hb]
  · have hnone : separator ∉ s := by
      rw [hs, List.mem_append, List.mem_append]
      exact not_or.mpr ⟨not_or.mpr ⟨hmem ha, hfield⟩, hmem hb⟩
    rw [field_eq_none_iff.mpr hfield, field_eq_none_iff.mpr hnone]

end Trim
