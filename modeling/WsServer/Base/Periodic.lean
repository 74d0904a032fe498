import Mathlib.Data.Nat.Basic
import Mathlib.Order.MinMax

/-! A periodic schedule on a fixed grid: window `k` of a start time goes from
`start + period * k` to the next point of the grid. -/
namespace Periodic
variable {start period : ℕ}

/-- The point of the grid where window `k` begins. -/
def due (start period k : ℕ) : ℕ := start + period * k

/-- The window that a time falls in; a time before the start counts for window 0. -/
def window (start period t : ℕ) : ℕ := (t - start) / period

/-- The last window that one of the times falls in. -/
def lastWindow (start period : ℕ) : List ℕ → ℕ
  | [] => 0
  | t :: times => max (window start period t) (lastWindow start period times)

theorem due_succ (k : ℕ) : due start period (k+1) = due start period k + period := by
  unfold due
  rw [Nat.mul_succ, Nat.add_assoc]

theorem due_mono {j k : ℕ} (h : j ≤ k) : due start period j ≤ due start period k :=
  Nat.add_le_add_left (Nat.mul_le_mul_left period h) start

/-- A later window than the first has begun when the time is in it or behind it. -/
theorem due_le_iff (hp : 0 < period) {k t : ℕ} (hk : 0 < k) :
    due start period k ≤ t ↔ k ≤ window start period t := by
  unfold due window
  rw [Nat.le_div_iff_mul_le hp, Nat.mul_comm period k]
  have hpos : 0 < k * period := Nat.mul_pos hk hp
  omega

/-- A time that is not before the start is in one window, by the grid. -/
theorem window_eq_iff (hp : 0 < period) {k t : ℕ} (hk : 0 < k) :
    window start period t = k ↔ due start period k ≤ t ∧ t < due start period (k+1) := by
  rw [due_le_iff hp hk, ← Nat.not_le, due_le_iff hp (Nat.succ_pos k)]
  omega

theorem lastWindow_lt_iff {k : ℕ} (hk : 0 < k) (times : List ℕ) :
    lastWindow start period times < k ↔ ∀ t ∈ times, window start period t < k := by
  induction times with
  | nil => simp only [lastWindow, List.not_mem_nil, false_imp_iff, implies_true, hk]
  | cons t times ih => rw [lastWindow, max_lt_iff, ih, List.forall_mem_cons]

theorem lastWindow_concat (times : List ℕ) (t : ℕ) :
    lastWindow start period (times ++ [t]) =
      max (lastWindow start period times) (window start period t) := by
  induction times with
  | nil => exact max_comm _ _
  | cons u times ih => rw [List.cons_append, lastWindow, ih, lastWindow, max_assoc]

end Periodic
