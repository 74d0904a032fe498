import Mathlib.Data.Nat.Notation

/-! The conversions of C's `snprintf` that zero-padded hexadecimal and plain decimal
fields need, and its truncation. -/
namespace Printf

/-- `%0Nx` -/
def hexPadded (width : ℕ) (n : ℕ) : String :=
  let ds := Nat.toDigits 16 n
  String.ofList (List.replicate (width-ds.length) '0' ++ ds)

/-- What fits in a buffer of the given size, the terminator included. -/
def truncated (size : ℕ) (s : String) : String := String.ofList (s.toList.take (size-1))

end Printf
