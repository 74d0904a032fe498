import WsServer.Base.Printf
import WsServer.Base.ScanfMatch

/-! Hexadecimal and decimal fields as `snprintf` prints them and as `sscanf` reads them
back. -/
namespace Printf
open Scanf

theorem digitValue_digitChar {d : ℕ} (h : d < 16) : digitValue (Nat.digitChar d) = d := by
  have hall : ∀ d : Fin 16, digitValue (Nat.digitChar d) = d := by decide
  exact hall ⟨d, h⟩

theorem digitsValue_append_digit (base : ℕ) (ds : List Char) (c : Char) :
    digitsValue base (ds ++ [c]) = digitsValue base ds * base + digitValue c := by
  simp only [digitsValue, List.foldl_append, List.foldl_cons, List.foldl_nil]

/-- The digits of a number are digits, and have its value. -/
theorem toDigits_base {base : ℕ} (hone : 1 < base) (hbase : base ≤ 16) (n : ℕ) :
    (∀ c ∈ Nat.toDigits base n, isDigit base c = true) ∧
      digitsValue base (Nat.toDigits base n) = n := by
  have hdigit {d : ℕ} (hd : d < base) :
      isDigit base (Nat.digitChar d) = true ∧ digitValue (Nat.digitChar d) = d := by
    have hvalue := digitValue_digitChar (lt_of_lt_of_le hd hbase)
    refine ⟨?_, hvalue⟩
    rw [isDigit, hvalue]
    exact decide_eq_true hd
  induction n using Nat.strong_induction_on with
  | _ n ih =>
    by_cases hn : n < base
    · rw [Nat.toDigits_of_lt_base hn]
      refine ⟨?_, ?_⟩
      · intro c hc
        rw [List.mem_singleton.mp hc]
        exact (hdigit hn).1
      · have hlast := digitsValue_append_digit base [] (Nat.digitChar n)
        rw [List.nil_append, (hdigit hn).2] at hlast
        rw [hlast, digitsValue, List.foldl_nil]
        omega
    · have hdiv : n/base < n := Nat.div_lt_self (by omega) hone
      have hmod : n%base < base := Nat.mod_lt n (by omega)
      obtain ⟨hdigits, hvalue⟩ := ih (n/base) hdiv
      rw [Nat.toDigits_of_base_le hone (not_lt.mp hn)]
      refine ⟨?_, ?_⟩
      · intro c hc
        rcases List.mem_append.mp hc with hc | hc
        · exact hdigits c hc
        · rw [List.mem_singleton.mp hc]
          exact (hdigit hmod).1
      · rw [digitsValue_append_digit, hvalue, (hdigit hmod).2, Nat.mul_comm]
        exact Nat.div_add_mod n base

theorem toDigits_spec (n : ℕ) :
    (∀ c ∈ Nat.toDigits 16 n, isDigit 16 c = true) ∧ digitsValue 16 (Nat.toDigits 16 n) = n :=
  toDigits_base (by decide) (by decide) n

/-- Zeros in front do not change a value. -/
theorem digitsValue_zeros (k : ℕ) (ds : List Char) :
    digitsValue 16 (List.replicate k '0' ++ ds) = digitsValue 16 ds := by
  induction k with
  | zero => rfl
  | succ k ih =>
    rw [List.replicate_succ, List.cons_append, ← ih]
    rfl

theorem toList_hexPadded (width n : ℕ) : (hexPadded width n).toList =
    List.replicate (width-(Nat.toDigits 16 n).length) '0' ++ Nat.toDigits 16 n := by
  rw [hexPadded, String.toList_ofList]

theorem isDigit_of_mem_hexPadded {width n : ℕ} {c : Char} (h : c ∈ (hexPadded width n).toList) :
    isDigit 16 c = true := by
  rw [toList_hexPadded] at h
  rcases List.mem_append.mp h with h | h
  · rw [List.eq_of_mem_replicate h]
    rfl
  · exact (toDigits_spec n).1 c h

/-- Digits alone are a numeral. -/
theorem isNumeral_digits {base : ℕ} {ds : List Char} (hne : ds ≠ [])
    (hdigits : ∀ c ∈ ds, isDigit base c = true) : IsNumeral base ds (digitsValue base ds) := by
  have hparts : ds = [] ++ ([] ++ ([] ++ ds)) := by simp only [List.nil_append]
  have hvalue : (digitsValue base ds : ℤ) =
      if ([] : List Char) = ['-'] then -(digitsValue base ds : ℤ) else digitsValue base ds := by
    rw [if_neg (List.cons_ne_nil _ _).symm]
  exact ⟨[], [], [], ds, hparts, List.forall_mem_nil _, Or.inl rfl, Or.inl rfl, hne, hdigits,
    hvalue⟩

/-- What `%0Nx` prints, `%x` reads. -/
theorem isNumeral_hexPadded (width n : ℕ) : IsNumeral 16 (hexPadded width n).toList n := by
  have hne : (hexPadded width n).toList ≠ [] := by
    rw [toList_hexPadded]
    exact List.append_ne_nil_of_right_ne_nil _
      (List.ne_nil_of_length_pos Nat.length_toDigits_pos)
  have hvalue : digitsValue 16 (hexPadded width n).toList = n := by
    rw [toList_hexPadded, digitsValue_zeros, (toDigits_spec n).2]
  have h := isNumeral_digits hne (fun c hc => isDigit_of_mem_hexPadded hc)
  rw [hvalue] at h
  exact h

/-- What `%u` prints, `%u` reads. -/
theorem isNumeral_decimal (n : ℕ) : IsNumeral 10 (toString n).toList n := by
  obtain ⟨hdigits, hvalue⟩ := toDigits_base (by decide : 1 < 10) (by decide) n
  have hne : Nat.toDigits 10 n ≠ [] := List.ne_nil_of_length_pos Nat.length_toDigits_pos
  have h := isNumeral_digits hne hdigits
  rw [hvalue] at h
  rw [Nat.toString_eq_repr, Nat.toList_repr]
  exact h

/-- A number with few enough digits fills its width. -/
theorem length_hexPadded_le {width n k : ℕ} (hwidth : width ≤ k) (hk : 0 < k) (hn : n < 16^k) :
    (hexPadded width n).toList.length ≤ k := by
  have hdigits := (Nat.length_toDigits_le_iff (by decide) hk).mpr hn
  rw [toList_hexPadded, List.length_append, List.length_replicate]
  omega

theorem length_hexPadded {width n : ℕ} (hwidth : 0 < width) (hn : n < 16^width) :
    (hexPadded width n).toList.length = width := by
  have hdigits := (Nat.length_toDigits_le_iff (by decide) hwidth).mpr hn
  rw [toList_hexPadded, List.length_append, List.length_replicate]
  omega

end Printf
