import Mathlib.Data.List.TakeWhile
import Mathlib.Tactic.Common
import WsServer.Base.Printf

/-! A character buffer that is written piece by piece with `snprintf`, and the C string
that it holds in the end. -/
namespace Printf

def nul : Char := Char.ofNat 0

/-- `snprintf(buffer + offset, size, ...)` of a text: as much of the text as fits, and a
terminator behind it. -/
def snprintfAt (memory : ℕ → Char) (offset size : ℕ) (s : List Char) : ℕ → Char :=
  if size = 0 then memory
  else fun i =>
    if i < offset then memory i
    else if i < offset + min s.length (size-1) then s.getD (i-offset) nul
    else if i = offset + min s.length (size-1) then nul
    else memory i

/-- Nothing is written at or behind the end that the size gives. -/
theorem snprintfAt_outside {offset size i : ℕ} (memory : ℕ → Char) (s : List Char)
    (h : offset + size ≤ i) : snprintfAt memory offset size s i = memory i := by
  unfold snprintfAt
  by_cases hsize : size = 0
  · rw [if_pos hsize]
  · rw [if_neg hsize]
    rw [if_neg (by omega), if_neg (by omega), if_neg (by omega)]

/-- The string in a buffer of the given capacity, up to its terminator. -/
def cString (capacity : ℕ) (memory : ℕ → Char) : List Char :=
  ((List.range capacity).map memory).takeWhile (· != nul)

/-- The buffer begins with the text. -/
def Holds (memory : ℕ → Char) (s : List Char) : Prop := ∀ i (h : i < s.length), memory i = s[i]

theorem holds_nil (memory : ℕ → Char) : Holds memory [] := fun i h => absurd h (Nat.not_lt_zero i)

theorem Holds.before {memory : ℕ → Char} {s t : List Char} (h : Holds memory (s ++ t)) :
    Holds memory s := by
  intro i hi
  have hlt : i < (s ++ t).length := by rw [List.length_append]; omega
  rw [h i hlt, List.getElem_append_left hi]

/-- A write behind a text leaves it alone. -/
theorem Holds.snprintfAt_behind {memory : ℕ → Char} {s : List Char} (h : Holds memory s)
    {offset : ℕ} (hoffset : s.length ≤ offset) (size : ℕ) (t : List Char) :
    Holds (snprintfAt memory offset size t) s := by
  intro i hi
  unfold snprintfAt
  split_ifs
  · exact h i hi
  · simp only [show i < offset by omega, if_true, h i hi]

/-- A write that fits is appended to the text before it. -/
theorem Holds.snprintfAt_append {memory : ℕ → Char} {s : List Char} (h : Holds memory s)
    {size : ℕ} (t : List Char) (hsize : t.length < size) :
    Holds (snprintfAt memory s.length size t) (s ++ t) := by
  intro i hi
  rw [List.length_append] at hi
  have hmin : min t.length (size-1) = t.length := by omega
  simp only [snprintfAt, show size ≠ 0 by omega, if_false, hmin]
  by_cases hs : i < s.length
  · rw [if_pos hs, h i hs, List.getElem_append_left hs]
  · have ht : i - s.length < t.length := by omega
    rw [if_neg hs, if_pos (by omega), List.getElem_append_right (by omega),
      List.getD_eq_getElem?_getD, List.getElem?_eq_getElem ht, Option.getD_some]

theorem Holds.congr {memory memory' : ℕ → Char} {s : List Char} (h : Holds memory s)
    (hsame : ∀ i < s.length, memory' i = memory i) : Holds memory' s := by
  intro i hi
  rw [hsame i hi, h i hi]

theorem cString_eq {memory : ℕ → Char} {s : List Char} {capacity : ℕ} (h : Holds memory s)
    (hs : nul ∉ s) (hend : memory s.length = nul) (hcapacity : s.length < capacity) :
    cString capacity memory = s := by
  have hrange : List.range capacity =
      List.range s.length ++ (s.length :: (List.range (capacity-s.length-1)).map
        (fun i => s.length+1+i)) := by
    rw [show capacity = s.length + ((capacity-s.length-1)+1) from by omega, List.range_add,
      List.range_succ_eq_map]
    simp only [List.map_cons, Nat.add_zero, List.map_map]
    congr 2
    have hrest : s.length + (capacity-s.length-1+1) - s.length - 1 = capacity-s.length-1 := by omega
    rw [hrest]
    refine List.map_congr_left ?_
    intro i _
    simp only [Function.comp_apply, Nat.succ_eq_add_one]
    omega
  have hfront : (List.range s.length).map memory = s := by
    apply List.ext_getElem
    · simp
    · intro i hi hi'
      simp [h i hi']
  have hchars : ∀ c ∈ s, (c != nul) = true := by
    intro c hc
    exact bne_iff_ne.mpr (fun heq => hs (heq ▸ hc))
  rw [cString, hrange, List.map_append, hfront, List.map_cons, hend,
    List.takeWhile_append_of_pos hchars]
  simp

/-! ### Texts longer than the buffer -/

/-- The buffer holds what fits of the text, and a terminator behind it. -/
structure Accumulates (capacity : ℕ) (memory : ℕ → Char) (s : List Char) : Prop where
  text : Holds memory (s.take (capacity-1))
  terminated : memory (s.take (capacity-1)).length = nul

/-- A write behind a text, with all the room that is left: as much of it as fits. -/
theorem Holds.accumulate {memory : ℕ → Char} {s : List Char} (h : Holds memory s)
    {capacity : ℕ} (hroom : s.length < capacity) (t : List Char) :
    Accumulates capacity (snprintfAt memory s.length (capacity-s.length) t) (s ++ t) := by
  have hsize : capacity - s.length ≠ 0 := by omega
  have htake : (s ++ t).take (capacity-1) = s ++ t.take (capacity-s.length-1) := by
    rw [List.take_append, List.take_of_length_le (by omega), Nat.sub_right_comm]
  have hmin : min t.length (capacity-s.length-1) = (t.take (capacity-s.length-1)).length := by
    rw [List.length_take, min_comm]
  constructor
  · rw [htake]
    intro i hi
    rw [List.length_append] at hi
    simp only [snprintfAt, if_neg hsize, hmin]
    by_cases hs : i < s.length
    · rw [if_pos hs, h i hs, List.getElem_append_left hs]
    · -- the part of the second text that the size lets through
      have ht : i - s.length < t.length := by rw [List.length_take] at hi; omega
      rw [if_neg hs, if_pos hi, List.getElem_append_right (by omega), List.getElem_take,
        List.getD_eq_getElem?_getD, List.getElem?_eq_getElem ht, Option.getD_some]
  · rw [htake, List.length_append]
    simp only [snprintfAt, if_neg hsize, hmin]
    rw [if_neg (by omega), if_neg (by omega), if_pos trivial]

theorem Accumulates.append {capacity : ℕ} {memory : ℕ → Char} {s : List Char}
    (h : Accumulates capacity memory s) (hroom : s.length < capacity) (t : List Char) :
    Accumulates capacity (snprintfAt memory s.length (capacity-s.length) t) (s ++ t) := by
  apply Holds.accumulate _ hroom
  have htext := h.text
  rw [List.take_of_length_le (by omega)] at htext
  exact htext

/-- What comes behind a text that has filled the buffer is cut off in any case. -/
theorem Accumulates.full {capacity : ℕ} {memory : ℕ → Char} {s : List Char}
    (h : Accumulates capacity memory s) (hfull : capacity ≤ s.length) (t : List Char) :
    Accumulates capacity memory (s ++ t) := by
  have htake : (s ++ t).take (capacity-1) = s.take (capacity-1) :=
    List.take_append_of_le_length (by omega)
  constructor
  · rw [htake]
    exact h.text
  · rw [htake]
    exact h.terminated

theorem Accumulates.cString {capacity : ℕ} {memory : ℕ → Char} {s : List Char}
    (h : Accumulates capacity memory s) (hcapacity : 0 < capacity) (hs : nul ∉ s) :
    cString capacity memory = s.take (capacity-1) := by
  apply cString_eq h.text
  · intro hmem
    exact hs (List.mem_of_mem_take hmem)
  · exact h.terminated
  · rw [List.length_take]
    omega

end Printf
