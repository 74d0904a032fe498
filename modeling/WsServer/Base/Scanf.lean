import Mathlib.Data.Int.Basic
import Mathlib.Tactic.Ring

/-! The part of C's `sscanf` that the numeric formats `%x %hx %u %hu`, literals,
`%c` and `%N[^c]` need. A conversion first reads an item of the text, with the value
the numeral has as written, and then stores it in an object of its size. -/
namespace Scanf

/-- The sizes of unsigned objects: `%hx` and `%hu` store a short, `%x` and `%u` an int. -/
inductive Size where
  | short
  | int
  deriving DecidableEq, Repr

def Size.bits : Size → Nat
  | .short => 16
  | .int => 32

inductive Directive where
  | num (base : Nat) (size : Size)
  | lit (c : Char)
  | char
  | notIn (max : Nat) (stop : Char)
  deriving DecidableEq, Repr

/-- What a conversion reads: for a numeral, its value as written. -/
inductive Item where
  | num (size : Size) (written : Int)
  | char (c : Char)
  | text (s : List Char)
  deriving DecidableEq, Repr

inductive Object where
  | short (v : UInt16)
  | int (v : UInt32)
  | char (c : Char)
  | text (s : List Char)
  deriving DecidableEq, Repr

/-- `isspace` of the C locale. -/
def isSpace (c : Char) : Bool :=
  c == ' ' || (9 ≤ c.toNat && c.toNat ≤ 13)

def digitValue (c : Char) : Nat :=
  if '0' ≤ c ∧ c ≤ '9' then c.toNat - '0'.toNat
  else if 'a' ≤ c ∧ c ≤ 'f' then c.toNat - 'a'.toNat + 10
  else if 'A' ≤ c ∧ c ≤ 'F' then c.toNat - 'A'.toNat + 10
  else 16

def isDigit (base : Nat) (c : Char) : Bool := digitValue c < base

def digitsValue (base : Nat) (ds : List Char) : Nat :=
  ds.foldl (fun v c => v*base+digitValue c) 0

def dropSign : List Char → Bool × List Char
  | '-' :: cs => (true, cs)
  | '+' :: cs => (false, cs)
  | cs => (false, cs)

def dropHexPrefix : List Char → List Char
  | '0' :: 'x' :: cs => cs
  | '0' :: 'X' :: cs => cs
  | cs => cs

/-- The longest numeral after white space, with its value and the text behind it. A
prefix `0x` without a digit behind it is no numeral. -/
def scanNumeral (base : Nat) (s : List Char) : Option (Int × List Char) :=
  let (negative, body) := dropSign (s.dropWhile isSpace)
  let body := if base = 16 then dropHexPrefix body else body
  match body.takeWhile (isDigit base) with
  | [] => none
  | d :: ds =>
    let v : Int := digitsValue base (d :: ds)
    some (if negative then -v else v, body.dropWhile (isDigit base))

/-- The items read until the first directive that does not match; `sscanf` returns
how many there are (or `EOF` where this is empty at the end of the text). -/
def scanItems : List Directive → List Char → List Item
  | [], _ => []
  | .num base size :: fs, s =>
    match scanNumeral base s with
    | none => []
    | some (v, rest) => .num size v :: scanItems fs rest
  | .lit c :: fs, s =>
    match s with
    | [] => []
    | x :: rest => if x = c then scanItems fs rest else []
  | .char :: fs, s =>
    match s with
    | [] => []
    | x :: rest => .char x :: scanItems fs rest
  | .notIn max stop :: fs, s =>
    match (s.take max).takeWhile (· != stop) with
    | [] => []
    | c :: cs => .text (c :: cs) :: scanItems fs (s.drop (cs.length+1))

/-- `strtoul` on a numeral of the given value: 64 bits, saturating, and negated
modulo `2^64` behind a minus sign. -/
def strtoul (written : Int) : UInt64 :=
  if written.natAbs < 2^64 then UInt64.ofInt written else 0xFFFFFFFFFFFFFFFF

def Item.store : Item → Object
  | .num .short v => .short (strtoul v).toUInt16
  | .num .int v => .int (strtoul v).toUInt32
  | .char c => .char c
  | .text s => .text s

/-- The objects that `sscanf` assigns, in order. -/
def sscanf (fs : List Directive) (s : List Char) : List Object :=
  (scanItems fs s).map Item.store

theorem store_eq_int {i : Item} {n : UInt32} :
    i.store = .int n ↔ ∃ v, i = .num .int v ∧ (strtoul v).toUInt32 = n := by
  cases i with
  | num size v => cases size <;> simp [Item.store]
  | char c => simp [Item.store]
  | text s => simp [Item.store]

theorem store_eq_short {i : Item} {n : UInt16} :
    i.store = .short n ↔ ∃ v, i = .num .short v ∧ (strtoul v).toUInt16 = n := by
  cases i with
  | num size v => cases size <;> simp [Item.store]
  | char c => simp [Item.store]
  | text s => simp [Item.store]

theorem store_eq_text {i : Item} {s : List Char} : i.store = .text s ↔ i = .text s := by
  cases i with
  | num size v => cases size <;> simp [Item.store]
  | char c => simp [Item.store]
  | text s => simp [Item.store]

/-- A numeral fits its object when it is neither negative nor too large for it. -/
def Fits (size : Size) (written : Int) : Prop := 0 ≤ written ∧ written < 2^size.bits

instance (size : Size) (written : Int) : Decidable (Fits size written) :=
  inferInstanceAs (Decidable (_ ∧ _))

theorem strtoul_toNat (v : Int) (h : Fits .int v) : ((strtoul v).toNat : Int) = v := by
  obtain ⟨h0, h1⟩ := h
  simp only [Size.bits] at h1
  have hn : v.natAbs < 2^64 := by omega
  rw [strtoul, if_pos hn, UInt64.ofInt]
  simp only [UInt64.toNat_ofNat']
  omega

/-- A stored short has the value written exactly when the numeral fits. -/
theorem store_short_eq_iff (v : Int) :
    (((strtoul v).toUInt16).toNat : Int) = v ↔ Fits .short v := by
  constructor
  · intro h
    have hlt := (strtoul v).toUInt16.toNat_lt
    simp only [Fits, Size.bits]
    omega
  · intro h
    have hi : Fits .int v := by simp only [Fits, Size.bits] at h ⊢; omega
    have hv := strtoul_toNat v hi
    simp only [Fits, Size.bits] at h
    rw [UInt64.toNat_toUInt16]
    omega

theorem store_int_eq_iff (v : Int) :
    (((strtoul v).toUInt32).toNat : Int) = v ↔ Fits .int v := by
  constructor
  · intro h
    have hlt := (strtoul v).toUInt32.toNat_lt
    simp only [Fits, Size.bits]
    omega
  · intro h
    have hv := strtoul_toNat v h
    simp only [Fits, Size.bits] at h
    rw [UInt64.toNat_toUInt32]
    omega

example : sscanf [.num 16 .int, .lit '#', .num 16 .short, .lit '#', .num 10 .short]
    " 0x1F#-1#70000x".toList = [.int 0x1F, .short 0xFFFF, .short 4464] := by decide

end Scanf
