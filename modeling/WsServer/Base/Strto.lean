import WsServer.Base.Scanf

/-! C's `strtoul`, `strtol` and `atoi` with base 10 on a text, for a `long` of 64 bits. -/
namespace Strto

/-- The value of a `long` that saturates. -/
def clamped (written : Int) : Int := max (-2^63) (min (2^63-1) written)

/-- `strtol` on a numeral of the given value: 64 bits, saturating. -/
def clampLong (written : Int) : Int64 := Int64.ofInt (clamped written)

/-- The value, and what stands at the end pointer; without a numeral that is the whole text. -/
def strtoul (s : List Char) : UInt64 × List Char :=
  match Scanf.scanNumeral 10 s with
  | none => (0, s)
  | some (v, rest) => (Scanf.strtoul v, rest)

def strtol (s : List Char) : Int64 × List Char :=
  match Scanf.scanNumeral 10 s with
  | none => (0, s)
  | some (v, rest) => (clampLong v, rest)

def atoi (s : List Char) : Int32 := (strtol s).1.toInt32

/-- The value of an `unsigned long`, of which a minus sign takes the complement. -/
def unsignedLong (written : Int) : Int :=
  if written.natAbs < 2^64 then written % 2^64 else 2^64-1

theorem clamped_eq {v : Int} (hlow : -2^63 ≤ v) (hhigh : v < 2^63) : clamped v = v := by
  unfold clamped
  omega

theorem unsignedLong_eq {v : Int} (hlow : 0 ≤ v) (hhigh : v < 2^64) : unsignedLong v = v := by
  unfold unsignedLong
  rw [if_pos (by omega)]
  omega

theorem strtoul_toNat (v : Int) : ((Scanf.strtoul v).toNat : Int) = unsignedLong v := by
  unfold Scanf.strtoul unsignedLong
  split_ifs with hv
  · rw [UInt64.ofInt]
    simp only [UInt64.toNat_ofNat']
    omega
  · rfl

theorem clampLong_toInt (v : Int) : (clampLong v).toInt = clamped v := by
  unfold clampLong
  apply Int64.toInt_ofInt_of_le
  · unfold clamped
    omega
  · unfold clamped
    omega

theorem clampLong_toInt32 (v : Int) : (clampLong v).toInt32.toInt = (clamped v).bmod (2^32) := by
  rw [Int64.toInt_toInt32, clampLong_toInt]

theorem bmod_emod_self (x : Int) : x.bmod (2^32) % 2^32 = x % 2^32 :=
  Int.bmod_emod (x := x) (m := 2^32)

theorem clampLong_toUInt16 (v : Int) :
    ((clampLong v).toInt32.toUInt32.toUInt16.toNat : Int) = clamped v % 2^16 := by
  have hbits : ((clampLong v).toInt32.toUInt32.toNat : Int) = clamped v % 2^32 := by
    have hlt := (clampLong v).toInt32.toUInt32.toNat_lt
    rw [← bmod_emod_self, ← clampLong_toInt32, Int32.toInt, BitVec.toInt_eq_toNat_bmod,
      Int32.toNat_toBitVec, bmod_emod_self]
    omega
  rw [UInt32.toNat_toUInt16]
  omega

example : (strtoul " +80x".toList = (80, ['x'])) ∧ atoi "65616 ".toList = 65616 ∧
    atoi "4294967297".toList = 1 ∧ (strtoul "-5".toList).1.toUInt32 = 4294967291 := by
  decide +kernel

end Strto
