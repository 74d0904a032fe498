import Mathlib.Data.List.TakeWhile
import WsServer.Base.Scanf

/-! Formats that match a text to its last character: the numerals as a grammar, a match
of all directives with the text behind it, and what the count of items that `sscanf`
returns says of such a match. -/
namespace Scanf

/-! ### Numerals -/

def IsSign (sign : List Char) : Prop := sign = [] ∨ sign = ['+'] ∨ sign = ['-']

def IsHexPrefix (base : Nat) (hex : List Char) : Prop :=
  hex = [] ∨ base = 16 ∧ (hex = ['0', 'x'] ∨ hex = ['0', 'X'])

/-- The grammar of a numeral: white space, a sign, a prefix for base 16, digits. -/
def IsNumeral (base : Nat) (s : List Char) (v : Int) : Prop :=
  ∃ space sign hex digits, s = space ++ (sign ++ (hex ++ digits)) ∧
    (∀ c ∈ space, isSpace c = true) ∧ IsSign sign ∧ IsHexPrefix base hex ∧
    digits ≠ [] ∧ (∀ c ∈ digits, isDigit base c = true) ∧
    v = if sign = ['-'] then -(digitsValue base digits : Int) else digitsValue base digits

/-- The text does not go on with what could belong to a numeral before it. -/
def EndsNumeral (base : Nat) (rest : List Char) : Prop :=
  ∀ c ∈ rest.head?, isDigit base c = false ∧ c ≠ 'x' ∧ c ≠ 'X'

theorem endsNumeral_nil (base : Nat) : EndsNumeral base [] := nofun

theorem dropSign_append {sign body : List Char} (hsign : IsSign sign)
    (hbody : ∀ c ∈ body.head?, c ≠ '-' ∧ c ≠ '+') :
    dropSign (sign ++ body) = (decide (sign = ['-']), body) := by
  rcases hsign with rfl | rfl | rfl
  · rw [List.nil_append]
    unfold dropSign
    split
    · exact absurd rfl (hbody '-' rfl).1
    · exact absurd rfl (hbody '+' rfl).2
    · rfl
  · rfl
  · rfl

theorem dropSign_spec (s : List Char) :
    ∃ sign, s = sign ++ (dropSign s).2 ∧ IsSign sign ∧
      (dropSign s).1 = decide (sign = ['-']) := by
  unfold dropSign
  split
  · exact ⟨['-'], rfl, Or.inr (Or.inr rfl), rfl⟩
  · exact ⟨['+'], rfl, Or.inr (Or.inl rfl), rfl⟩
  · exact ⟨[], rfl, Or.inl rfl, rfl⟩

theorem dropHexPrefix_spec (s : List Char) :
    ∃ hex, s = hex ++ dropHexPrefix s ∧ IsHexPrefix 16 hex := by
  unfold dropHexPrefix
  split
  · exact ⟨['0', 'x'], rfl, Or.inr ⟨rfl, Or.inl rfl⟩⟩
  · exact ⟨['0', 'X'], rfl, Or.inr ⟨rfl, Or.inr rfl⟩⟩
  · exact ⟨[], rfl, Or.inl rfl⟩

/-- Digits are no prefix, unless a letter of one follows a zero. -/
theorem dropHexPrefix_digits {digits rest : List Char}
    (hdigits : ∀ c ∈ digits, isDigit 16 c = true) (hne : digits ≠ [])
    (hrest : EndsNumeral 16 rest) : dropHexPrefix (digits ++ rest) = digits ++ rest := by
  have hx : ∀ c ∈ (digits ++ rest)[1]?, c ≠ 'x' ∧ c ≠ 'X' := by
    intro c hc
    match digits, hne with
    | [d], _ =>
      have hc : c ∈ rest.head? := by
        rw [List.head?_eq_getElem?]
        exact hc
      exact (hrest c hc).2
    | d :: d' :: ds, _ =>
      have hd : d' = c := Option.some.inj hc
      have hdigit := hdigits d' (by simp)
      rw [hd] at hdigit
      constructor
      · rintro rfl
        exact absurd hdigit (by decide)
      · rintro rfl
        exact absurd hdigit (by decide)
  unfold dropHexPrefix
  split
  · rename_i heq
    rw [heq] at hx
    exact absurd rfl (hx 'x' rfl).1
  · rename_i heq
    rw [heq] at hx
    exact absurd rfl (hx 'X' rfl).2
  · rfl

theorem dropHexPrefix_append {hex digits rest : List Char} (hhex : IsHexPrefix 16 hex)
    (hdigits : ∀ c ∈ digits, isDigit 16 c = true) (hne : digits ≠ [])
    (hrest : EndsNumeral 16 rest) :
    dropHexPrefix (hex ++ (digits ++ rest)) = digits ++ rest := by
  rcases hhex with hhex | ⟨-, hhex | hhex⟩
  · rw [hhex, List.nil_append]
    exact dropHexPrefix_digits hdigits hne hrest
  · rw [hhex]
    rfl
  · rw [hhex]
    rfl

theorem takeWhile_append_ends {base : Nat} {digits rest : List Char}
    (hdigits : ∀ c ∈ digits, isDigit base c = true) (hrest : EndsNumeral base rest) :
    (digits ++ rest).takeWhile (isDigit base) = digits ∧
      (digits ++ rest).dropWhile (isDigit base) = rest := by
  have hstop : rest.takeWhile (isDigit base) = [] ∧ rest.dropWhile (isDigit base) = rest := by
    cases rest with
    | nil => exact ⟨rfl, rfl⟩
    | cons c cs =>
      have hc := (hrest c rfl).1
      simp [hc]
  rw [List.takeWhile_append_of_pos hdigits, List.dropWhile_append_of_pos hdigits, hstop.1, hstop.2,
    List.append_nil]
  exact ⟨rfl, rfl⟩

/-- What a digit is not. -/
theorem isDigit_other {base : Nat} {c : Char} (hbase : base ≤ 16) (h : isDigit base c = true) :
    isSpace c = false ∧ c ≠ '-' ∧ c ≠ '+' := by
  have hvalue : digitValue c < 16 := lt_of_lt_of_le (of_decide_eq_true h) hbase
  have hrange : 48 ≤ c.toNat := by
    unfold digitValue at hvalue
    split_ifs at hvalue with h0 ha hA
    · exact h0.1
    · exact le_trans (by decide) (show 'a'.toNat ≤ c.toNat from ha.1)
    · exact le_trans (by decide) (show 'A'.toNat ≤ c.toNat from hA.1)
    · exact absurd hvalue (lt_irrefl _)
  refine ⟨?_, ?_, ?_⟩
  · have hspace : c ≠ ' ' := by
      rintro rfl
      exact absurd hrange (by decide)
    simp only [isSpace, beq_eq_false_iff_ne.mpr hspace, Bool.false_or, Bool.and_eq_false_iff,
      decide_eq_false_iff_not]
    omega
  · rintro rfl
    exact absurd hrange (by decide)
  · rintro rfl
    exact absurd hrange (by decide)

theorem dropWhile_space {space body : List Char} (hspace : ∀ c ∈ space, isSpace c = true)
    (hbody : ∀ c ∈ body.head?, isSpace c = false) :
    (space ++ body).dropWhile isSpace = body := by
  rw [List.dropWhile_append_of_pos hspace]
  cases body with
  | nil => rfl
  | cons c cs => simp [hbody c rfl]

/-- Where a numeral can begin, behind the white space and behind the sign. -/
theorem head_hex_digits {base : Nat} (hbase : base ≤ 16) {hex digits rest : List Char}
    (hhex : IsHexPrefix base hex) (hdigits : ∀ c ∈ digits, isDigit base c = true)
    (hne : digits ≠ []) :
    ∀ c ∈ (hex ++ (digits ++ rest)).head?, isSpace c = false ∧ c ≠ '-' ∧ c ≠ '+' := by
  intro c hc
  rcases hhex with rfl | ⟨-, rfl | rfl⟩
  · cases digits with
    | nil => exact absurd rfl hne
    | cons d ds =>
      obtain rfl : d = c := Option.some.inj hc
      exact isDigit_other hbase (hdigits d (by simp))
  · obtain rfl : '0' = c := Option.some.inj hc
    decide
  · obtain rfl : '0' = c := Option.some.inj hc
    decide

theorem scanNumeral_complete {base : Nat} (hbase : base ≤ 16) {s rest : List Char} {v : Int}
    (h : IsNumeral base s v) (hrest : EndsNumeral base rest) :
    scanNumeral base (s ++ rest) = some (v, rest) := by
  obtain ⟨space, sign, hex, digits, rfl, hspace, hsign, hhex, hne, hdigits, rfl⟩ := h
  have hhead : ∀ c ∈ (hex ++ (digits ++ rest)).head?, isSpace c = false ∧ c ≠ '-' ∧ c ≠ '+' :=
    head_hex_digits hbase hhex hdigits hne
  have hbody : ∀ c ∈ (sign ++ (hex ++ (digits ++ rest))).head?, isSpace c = false := by
    intro c hc
    rcases hsign with rfl | rfl | rfl
    · exact (hhead c hc).1
    · obtain rfl : '+' = c := Option.some.inj hc
      decide
    · obtain rfl : '-' = c := Option.some.inj hc
      decide
  have hdrop : (if base = 16 then dropHexPrefix (hex ++ (digits ++ rest))
      else hex ++ (digits ++ rest)) = digits ++ rest := by
    split_ifs with h16
    · subst h16
      exact dropHexPrefix_append hhex hdigits hne hrest
    · rw [hhex.resolve_right (fun h => h16 h.1), List.nil_append]
  obtain ⟨htake, hrest'⟩ := takeWhile_append_ends hdigits hrest
  have hassoc : space ++ (sign ++ (hex ++ digits)) ++ rest =
      space ++ (sign ++ (hex ++ (digits ++ rest))) := by
    simp only [List.append_assoc]
  rw [hassoc, scanNumeral, dropWhile_space hspace hbody,
    dropSign_append hsign (fun c hc => (hhead c hc).2)]
  simp only [hdrop, htake, hrest']
  cases digits with
  | nil => exact absurd rfl hne
  | cons d ds => simp only [decide_eq_true_eq]

theorem scanNumeral_sound {base : Nat} {s rest : List Char} {v : Int}
    (h : scanNumeral base s = some (v, rest)) :
    ∃ lead, s = lead ++ rest ∧ IsNumeral base lead v := by
  obtain ⟨sign, hsplit, hsign, hnegative⟩ := dropSign_spec (s.dropWhile isSpace)
  have hhex : ∃ hex, (dropSign (s.dropWhile isSpace)).2 =
      hex ++ (if base = 16 then dropHexPrefix (dropSign (s.dropWhile isSpace)).2
        else (dropSign (s.dropWhile isSpace)).2) ∧ IsHexPrefix base hex := by
    split_ifs with h16
    · subst h16
      exact dropHexPrefix_spec _
    · exact ⟨[], rfl, Or.inl rfl⟩
  obtain ⟨hex, hbody, hhex⟩ := hhex
  unfold scanNumeral at h
  dsimp only at h
  generalize hdigits : (if base = 16 then dropHexPrefix (dropSign (s.dropWhile isSpace)).2
    else (dropSign (s.dropWhile isSpace)).2) = body at h hbody
  split at h
  · cases h
  · rename_i d ds htake
    obtain ⟨rfl, rfl⟩ := Prod.mk.inj (Option.some.inj h)
    refine ⟨s.takeWhile isSpace ++ (sign ++ (hex ++ (d :: ds))), ?_, ?_⟩
    · calc s = s.takeWhile isSpace ++ s.dropWhile isSpace :=
            (List.takeWhile_append_dropWhile).symm
        _ = s.takeWhile isSpace ++ (sign ++ (hex ++ body)) := by rw [hsplit, hbody]
        _ = s.takeWhile isSpace ++ (sign ++ (hex ++ (d :: ds))) ++
            body.dropWhile (isDigit base) := by
          rw [← htake]
          simp only [List.append_assoc, List.takeWhile_append_dropWhile]
    · refine ⟨s.takeWhile isSpace, sign, hex, d :: ds, rfl,
        fun c hc => List.mem_takeWhile_imp hc, hsign, hhex, List.cons_ne_nil _ _, ?_, ?_⟩
      · intro c hc
        exact List.mem_takeWhile_imp (htake ▸ hc)
      · simp only [hnegative, decide_eq_true_eq]

/-! ### Matches of all directives -/

/-- The items of a match of all directives, and the text behind it. -/
def scanAll : List Directive → List Char → Option (List Item × List Char)
  | [], s => some ([], s)
  | .num base size :: fs, s =>
    match scanNumeral base s with
    | none => none
    | some (v, rest) => (scanAll fs rest).map (fun x => (.num size v :: x.1, x.2))
  | .lit c :: fs, s =>
    match s with
    | [] => none
    | x :: rest => if x = c then scanAll fs rest else none
  | .char :: fs, s =>
    match s with
    | [] => none
    | x :: rest => (scanAll fs rest).map (fun y => (.char x :: y.1, y.2))
  | .notIn max stop :: fs, s =>
    match (s.take max).takeWhile (· != stop) with
    | [] => none
    | c :: cs => (scanAll fs (s.drop (cs.length+1))).map (fun x => (.text (c :: cs) :: x.1, x.2))

/-- The directives that read an item. -/
def conversions : List Directive → Nat
  | [] => 0
  | .lit _ :: fs => conversions fs
  | _ :: fs => conversions fs + 1

/-- The next directives start where a match of all directives before them ends. -/
theorem scanItems_append {fs : List Directive} {s rest : List Char} {items : List Item}
    (h : scanAll fs s = some (items, rest)) (gs : List Directive) :
    items.length = conversions fs ∧ scanItems (fs ++ gs) s = items ++ scanItems gs rest := by
  induction fs generalizing s items with
  | nil =>
    obtain ⟨rfl, rfl⟩ := Prod.mk.inj (Option.some.inj h)
    exact ⟨rfl, rfl⟩
  | cons f fs ih =>
    cases f with
    | num base size =>
      simp only [scanAll] at h
      split at h
      · cases h
      · rename_i v tail hscan
        obtain ⟨⟨items', rest'⟩, hall, hitems⟩ := Option.map_eq_some_iff.mp h
        obtain ⟨rfl, rfl⟩ := Prod.mk.inj hitems
        obtain ⟨hlength, hrest⟩ := ih hall
        refine ⟨congrArg Nat.succ hlength, ?_⟩
        simp only [List.cons_append, scanItems, hscan, hrest]
    | lit c =>
      simp only [scanAll] at h
      split at h
      · cases h
      · rename_i x tail
        split_ifs at h with hx
        obtain ⟨hlength, hrest⟩ := ih h
        refine ⟨hlength, ?_⟩
        simp only [List.cons_append, scanItems, hx, if_true, hrest]
    | char =>
      simp only [scanAll] at h
      split at h
      · cases h
      · rename_i x tail
        obtain ⟨⟨items', rest'⟩, hall, hitems⟩ := Option.map_eq_some_iff.mp h
        obtain ⟨rfl, rfl⟩ := Prod.mk.inj hitems
        obtain ⟨hlength, hrest⟩ := ih hall
        refine ⟨congrArg Nat.succ hlength, ?_⟩
        simp only [List.cons_append, scanItems, hrest]
    | notIn max stop =>
      simp only [scanAll] at h
      split at h
      · cases h
      · rename_i c cs htake
        obtain ⟨⟨items', rest'⟩, hall, hitems⟩ := Option.map_eq_some_iff.mp h
        obtain ⟨rfl, rfl⟩ := Prod.mk.inj hitems
        obtain ⟨hlength, hrest⟩ := ih hall
        refine ⟨congrArg Nat.succ hlength, ?_⟩
        simp only [List.cons_append, scanItems, htake, hrest]

theorem scanItems_of_scanAll {fs : List Directive} {s rest : List Char} {items : List Item}
    (h : scanAll fs s = some (items, rest)) : scanItems fs s = items := by
  have happend := (scanItems_append h []).2
  rw [List.append_nil] at happend
  exact happend.trans (List.append_nil items)

/-- Without a match of all directives the ones behind them read nothing. -/
theorem scanItems_append_none {fs : List Directive} {s : List Char} (h : scanAll fs s = none)
    (gs : List Directive) : scanItems (fs ++ gs) s = scanItems fs s := by
  induction fs generalizing s with
  | nil => cases h
  | cons f fs ih =>
    cases f with
    | num base size =>
      simp only [scanAll] at h
      simp only [List.cons_append, scanItems]
      split at h
      · rename_i hscan
        simp only [hscan]
      · rename_i v tail hscan
        simp only [hscan, ih (Option.map_eq_none_iff.mp h)]
    | lit c =>
      simp only [scanAll] at h
      simp only [List.cons_append, scanItems]
      split at h
      · rfl
      · split_ifs at h with hx
        · simp only [hx, if_true, ih h]
        · simp only [hx, if_false]
    | char =>
      simp only [scanAll] at h
      simp only [List.cons_append, scanItems]
      split at h
      · rfl
      · simp only [ih (Option.map_eq_none_iff.mp h)]
    | notIn max stop =>
      simp only [scanAll] at h
      simp only [List.cons_append, scanItems]
      split at h
      · rename_i htake
        simp only [htake]
      · rename_i c cs htake
        simp only [htake, ih (Option.map_eq_none_iff.mp h)]

/-- A format that ends in a numeral reads all its items only in a match of all of it. -/
theorem length_scanItems_of_none {fs : List Directive} {base : Nat} {size : Size}
    {s : List Char} (h : scanAll (fs ++ [.num base size]) s = none) :
    (scanItems (fs ++ [.num base size]) s).length ≤ conversions fs := by
  induction fs generalizing s with
  | nil =>
    simp only [List.nil_append, scanAll] at h
    simp only [List.nil_append, scanItems]
    split at h
    · rename_i hscan
      simp only [hscan, List.length_nil, Nat.zero_le]
    · cases h
  | cons f fs ih =>
    cases f with
    | num base' size' =>
      simp only [List.cons_append, scanAll] at h
      simp only [List.cons_append, scanItems]
      split at h
      · rename_i hscan
        simp only [hscan, List.length_nil, Nat.zero_le]
      · rename_i v tail hscan
        simp only [hscan, List.length_cons]
        exact Nat.succ_le_succ (ih (Option.map_eq_none_iff.mp h))
    | lit c =>
      simp only [List.cons_append, scanAll] at h
      simp only [List.cons_append, scanItems]
      split at h
      · exact Nat.zero_le _
      · split_ifs at h with hx
        · simp only [hx, if_true]
          exact ih h
        · simp only [hx, if_false, List.length_nil, Nat.zero_le]
    | char =>
      simp only [List.cons_append, scanAll] at h
      simp only [List.cons_append, scanItems]
      split at h
      · exact Nat.zero_le _
      · exact Nat.succ_le_succ (ih (Option.map_eq_none_iff.mp h))
    | notIn max stop =>
      simp only [List.cons_append, scanAll] at h
      simp only [List.cons_append, scanItems]
      split at h
      · rename_i htake
        simp only [htake, List.length_nil, Nat.zero_le]
      · rename_i c cs htake
        simp only [htake, List.length_cons]
        exact Nat.succ_le_succ (ih (Option.map_eq_none_iff.mp h))

theorem conversions_append (fs gs : List Directive) :
    conversions (fs ++ gs) = conversions fs + conversions gs := by
  induction fs with
  | nil => exact (Nat.zero_add _).symm
  | cons f fs ih =>
    cases f <;> simp only [List.cons_append, conversions, ih] <;> omega

/-- The `%c` behind the last numeral: it is left unread exactly when the format before it
has matched the text to its last character. -/
theorem scanItems_char_iff {fs : List Directive} {base : Nat} {size : Size} {s : List Char}
    {items : List Item} (hlength : items.length = conversions fs + 1) :
    scanItems (fs ++ [.num base size] ++ [.char]) s = items ↔
      scanAll (fs ++ [.num base size]) s = some (items, []) := by
  constructor
  · intro h
    cases hall : scanAll (fs ++ [.num base size]) s with
    | none =>
      have hshort := length_scanItems_of_none hall
      rw [← scanItems_append_none hall [.char], h, hlength] at hshort
      omega
    | some x =>
      obtain ⟨items', rest⟩ := x
      obtain ⟨hlength', happend⟩ := scanItems_append hall [.char]
      rw [h] at happend
      have hcount : conversions [Directive.num base size] = 1 := rfl
      rw [conversions_append, hcount] at hlength'
      cases rest with
      | nil =>
        rw [happend]
        simp only [scanItems, List.append_nil]
      | cons c cs =>
        -- a character is left: one item too many
        have hmore := congrArg List.length happend
        simp only [scanItems, List.length_append, List.length_singleton] at hmore
        omega
  · intro h
    obtain ⟨-, happend⟩ := scanItems_append h [.char]
    rw [happend]
    exact List.append_nil items

/-! ### Fields with a separator -/

/-- A separator ends every numeral. -/
def IsSeparator (c : Char) : Prop := digitValue c = 16 ∧ c ≠ 'x' ∧ c ≠ 'X'

instance (c : Char) : Decidable (IsSeparator c) := inferInstanceAs (Decidable (_ ∧ _))

theorem IsSeparator.ends {c : Char} (h : IsSeparator c) {base : Nat} (hbase : base ≤ 16)
    (rest : List Char) : EndsNumeral base (c :: rest) := by
  intro c' hc'
  obtain rfl : c = c' := Option.some.inj hc'
  refine ⟨?_, h.2⟩
  rw [isDigit, h.1, decide_eq_false_iff_not]
  omega

/-- The last field takes all of the text. -/
theorem scanAll_last_iff {base : Nat} (hbase : base ≤ 16) {size : Size} {s : List Char}
    {items : List Item} :
    scanAll [.num base size] s = some (items, []) ↔
      ∃ v, IsNumeral base s v ∧ items = [.num size v] := by
  constructor
  · intro h
    simp only [scanAll] at h
    split at h
    · cases h
    · rename_i v rest hscan
      obtain ⟨rfl, rfl⟩ := Prod.mk.inj (Option.some.inj h)
      obtain ⟨lead, hs, hnumeral⟩ := scanNumeral_sound hscan
      rw [List.append_nil] at hs
      subst hs
      exact ⟨v, hnumeral, rfl⟩
  · rintro ⟨v, hnumeral, rfl⟩
    have hscan := scanNumeral_complete hbase hnumeral (endsNumeral_nil base)
    rw [List.append_nil] at hscan
    simp only [scanAll, hscan, Option.map_some]

/-- A field goes up to its separator. -/
theorem scanAll_field_iff {base : Nat} (hbase : base ≤ 16) {size : Size} {c : Char}
    (hc : IsSeparator c) {fs : List Directive} {s rest : List Char} {items : List Item} :
    scanAll (.num base size :: .lit c :: fs) s = some (items, rest) ↔
      ∃ lead tail v items', s = lead ++ c :: tail ∧ IsNumeral base lead v ∧
        scanAll fs tail = some (items', rest) ∧ items = .num size v :: items' := by
  constructor
  · intro h
    simp only [scanAll] at h
    split at h
    · cases h
    · rename_i v behind hscan
      obtain ⟨⟨items', rest'⟩, hall, hitems⟩ := Option.map_eq_some_iff.mp h
      obtain ⟨rfl, rfl⟩ := Prod.mk.inj hitems
      obtain ⟨lead, hs, hnumeral⟩ := scanNumeral_sound hscan
      split at hall
      · cases hall
      · rename_i x tail
        split_ifs at hall with hx
        subst hx
        exact ⟨lead, tail, v, items', hs, hnumeral, hall, rfl⟩
  · rintro ⟨lead, tail, v, items', rfl, hnumeral, hall, rfl⟩
    have hscan := scanNumeral_complete hbase hnumeral (hc.ends hbase tail)
    simp only [scanAll, hscan, if_true, hall, Option.map_some]

end Scanf
