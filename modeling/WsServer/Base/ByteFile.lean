import Mathlib.Data.List.Basic
import Mathlib.Tactic.Common

/-! A file as its contents, and writes into it at a position: over what is there, and behind
the end, where a gap is filled up. -/
namespace ByteFile
variable {α : Type}

/-- Write at a position; the gap behind the end of the file reads as `zero`. -/
def write (zero : α) (file : List α) (offset : ℕ) (data : List α) : List α :=
  if data = [] then file
  else
    let padded := file ++ List.replicate (offset-file.length) zero
    padded.take offset ++ data ++ padded.drop (offset+data.length)

variable {zero : α} {file data : List α} {offset : ℕ}

@[simp] theorem write_nil (zero : α) (file : List α) (offset : ℕ) :
    write zero file offset [] = file := if_pos rfl

/-- A write that begins inside the file or at its end. -/
theorem write_inside (zero : α) (h : offset ≤ file.length) (data : List α) :
    write zero file offset data = file.take offset ++ data ++ file.drop (offset+data.length) := by
  unfold write
  by_cases hdata : data = []
  · rw [if_pos hdata, hdata, List.append_nil, List.length_nil, Nat.add_zero,
      List.take_append_drop]
  · rw [if_neg hdata, Nat.sub_eq_zero_of_le h, List.replicate_zero]
    simp only [List.append_nil]

/-- A write at the end of the file. -/
theorem write_end (zero : α) (file data : List α) :
    write zero file file.length data = file ++ data := by
  rw [write_inside zero (Nat.le_refl _), List.take_length,
    List.drop_eq_nil_of_le (Nat.le_add_right _ _), List.append_nil]

theorem length_write (zero : α) (h : offset ≤ file.length) (data : List α) :
    (write zero file offset data).length = max file.length (offset+data.length) := by
  rw [write_inside zero h, List.length_append, List.length_append, List.length_take,
    List.length_drop]
  omega

/-- What the file holds up to the end of the write. -/
theorem take_write (zero : α) (h : offset ≤ file.length) (data : List α) :
    (write zero file offset data).take (offset+data.length) = file.take offset ++ data := by
  have hlength : (file.take offset ++ data).length = offset+data.length := by
    rw [List.length_append, List.length_take, Nat.min_eq_left h]
  rw [write_inside zero h, ← hlength, List.take_left]

/-- What is written stands in the file. -/
theorem infix_write (zero : α) (h : offset ≤ file.length) (data : List α) :
    data <:+: write zero file offset data := by
  rw [write_inside zero h]
  exact ⟨file.take offset, file.drop (offset+data.length), rfl⟩

/-- Two writes one behind the other are one write. -/
theorem write_write (zero : α) (h : offset ≤ file.length) (data data' : List α) :
    write zero (write zero file offset data) (offset+data.length) data' =
      write zero file offset (data ++ data') := by
  have hlength : (file.take offset ++ data).length = offset+data.length := by
    rw [List.length_append, List.length_take, Nat.min_eq_left h]
  have hinside : offset+data.length ≤ (write zero file offset data).length := by
    rw [length_write zero h]
    exact Nat.le_max_right _ _
  rw [write_inside zero hinside, take_write zero h, write_inside zero h, write_inside zero h,
    ← List.drop_drop, ← hlength, List.drop_left, List.drop_drop, hlength, List.length_append,
    List.append_assoc (file.take offset), Nat.add_assoc]

end ByteFile
