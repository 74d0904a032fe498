import WsServer.ConfigFile

/-! The numbers of the configuration, given in the file and given on the command line. -/
namespace WsServer
open Strto

inductive NumericSetting where
  | port
  | maxClients
  | tickMs
  | canBitrate
  deriving DecidableEq, Repr

def NumericSetting.key : NumericSetting → ConfigKey
  | .port => .wsPort
  | .maxClients => .maxClients
  | .tickMs => .tickIntervalMs
  | .canBitrate => .canBitrate

def NumericSetting.option : NumericSetting → CliOption
  | .port => .port
  | .maxClients => .maxClients
  | .tickMs => .tickMs
  | .canBitrate => .canBitrate

/-- The value of a setting. -/
def NumericSetting.read (cfg : AppConfigT) : NumericSetting → Int
  | .port => cfg.wsPort.toNat
  | .maxClients => cfg.maxClients.toInt
  | .tickMs => cfg.tickIntervalMs.toInt
  | .canBitrate => cfg.canBitrate.toNat

/-- The largest value of a setting. -/
def NumericSetting.max : NumericSetting → Int
  | .port => 65535
  | .maxClients => 2^31-1
  | .tickMs => 2^31-1
  | .canBitrate => 2^32-1

/-- A configuration behind the last check of `app_config_parse`. -/
def AppConfigT.accepted (cfg : AppConfigT) : Option AppConfigT :=
  if cfg.Invalid then none else some cfg

/-- What becomes of a configuration when the file gives it a setting more, and there are no
options. -/
def fromFile (key s : CText) (cfg : AppConfigT) : Option AppConfigT :=
  (applyConfigKv cfg key s [] 0).toOption.bind AppConfigT.accepted

/-- What becomes of it when the command line gives the setting. -/
def fromCommandLine (word s : CText) (cfg : AppConfigT) : Option AppConfigT :=
  (applyOptions [word, s] cfg).bind AppConfigT.accepted

/-- A text is refused in both places, or it is a numeral in the range of the setting, and both
give the setting its value. -/
def NumericSetting.Agrees (setting : NumericSetting) (s : CText) : Prop :=
  ∀ (cfg : AppConfigT) (key word : CText), ¬ cfg.Invalid →
    ConfigKey.ofText key = some setting.key → CliOption.ofWord word = some setting.option →
      (fromFile key s cfg = none ∧ fromCommandLine word s cfg = none) ∨
        ∃ v result, Scanf.scanNumeral 10 s = some (v, []) ∧ 1 ≤ v ∧ v ≤ setting.max ∧
          fromFile key s cfg = some result ∧ fromCommandLine word s cfg = some result ∧
          setting.read result = v

/-! ### The numbers behind the conversions -/

def positive (x : Int) : Option Int := if x ≤ 0 then none else some x

/-- What the file makes of a numeral of this value, where all of it is accepted. -/
def NumericSetting.fileNumber (v : Int) : NumericSetting → Option Int
  | .port => if unsignedLong v > 65535 then none else positive (unsignedLong v)
  | .maxClients => if clamped v ≤ 0 then none else positive ((clamped v).bmod (2^32))
  | .tickMs => if clamped v ≤ 0 then none else positive ((clamped v).bmod (2^32))
  | .canBitrate => positive (unsignedLong v % 2^32)

/-- What the command line makes of it. -/
def NumericSetting.cliNumber (v : Int) : NumericSetting → Option Int
  | .port => positive (clamped v % 2^16)
  | .maxClients => positive ((clamped v).bmod (2^32))
  | .tickMs => positive ((clamped v).bmod (2^32))
  | .canBitrate => positive (unsignedLong v % 2^32)

def NumericSetting.write (cfg : AppConfigT) (x : Int) : NumericSetting → AppConfigT
  | .port => { cfg with wsPort := UInt16.ofInt x }
  | .maxClients => { cfg with maxClients := Int32.ofInt x }
  | .tickMs => { cfg with tickIntervalMs := Int32.ofInt x }
  | .canBitrate => { cfg with canBitrate := UInt32.ofInt x }

/-- The value of a text that is a numeral and nothing else. -/
def wholeNumeral (s : CText) : Option Int :=
  match Scanf.scanNumeral 10 s with
  | some (v, []) => some v
  | _ => none

variable {cfg : AppConfigT} {s key word : CText} {setting : NumericSetting} {v : Int}

theorem positive_eq_none_iff {x : Int} : positive x = none ↔ x ≤ 0 := by
  unfold positive
  split_ifs with hx
  · exact ⟨fun _ => hx, fun _ => rfl⟩
  · constructor
    · intro h
      cases h
    · intro h
      exact absurd h hx

/-! ### The last check, where only one setting is changed -/

theorem accepted_eq {cfg' : AppConfigT} {x : Int} (hinvalid : cfg'.Invalid ↔ x ≤ 0)
    (hwrite : cfg' = setting.write cfg x) :
    cfg'.accepted = (positive x).map (setting.write cfg ·) := by
  unfold AppConfigT.accepted positive
  split_ifs with hbad hx hx
  · rfl
  · exact absurd (hinvalid.mp hbad) hx
  · exact absurd (hinvalid.mpr hx) hbad
  · rw [Option.map_some, hwrite]

theorem accepted_port (h : ¬ cfg.Invalid) (p : UInt16) :
    ({ cfg with wsPort := p } : AppConfigT).accepted =
      (positive p.toNat).map (NumericSetting.port.write cfg ·) := by
  obtain ⟨-, hrest⟩ := not_or.mp h
  have hzero : p = 0 ↔ (p.toNat : Int) ≤ 0 := by
    rw [← UInt16.toNat_inj, show (0 : UInt16).toNat = 0 from rfl]
    omega
  apply accepted_eq
  · unfold AppConfigT.Invalid
    rw [or_iff_left hrest]
    exact hzero
  · have hback : UInt16.ofInt p.toNat = p := by
      rw [UInt16.ofInt, ← UInt16.toNat_inj, UInt16.toNat_ofNat']
      have hlt := p.toNat_lt
      omega
    rw [NumericSetting.write, hback]

theorem accepted_maxClients (h : ¬ cfg.Invalid) (n : Int32) :
    ({ cfg with maxClients := n } : AppConfigT).accepted =
      (positive n.toInt).map (NumericSetting.maxClients.write cfg ·) := by
  obtain ⟨hport, hrest⟩ := not_or.mp h
  obtain ⟨-, hrest⟩ := not_or.mp hrest
  apply accepted_eq
  · unfold AppConfigT.Invalid
    rw [or_iff_right hport, or_iff_left hrest]
    exact Int32.le_iff_toInt_le
  · rw [NumericSetting.write, Int32.ofInt_toInt]

theorem accepted_tickMs (h : ¬ cfg.Invalid) (n : Int32) :
    ({ cfg with tickIntervalMs := n } : AppConfigT).accepted =
      (positive n.toInt).map (NumericSetting.tickMs.write cfg ·) := by
  obtain ⟨hport, hrest⟩ := not_or.mp h
  obtain ⟨hmax, hrest⟩ := not_or.mp hrest
  obtain ⟨-, hbitrate⟩ := not_or.mp hrest
  apply accepted_eq
  · unfold AppConfigT.Invalid
    rw [or_iff_right hport, or_iff_right hmax, or_iff_left hbitrate]
    exact Int32.le_iff_toInt_le
  · rw [NumericSetting.write, Int32.ofInt_toInt]

theorem accepted_canBitrate (h : ¬ cfg.Invalid) (n : UInt32) :
    ({ cfg with canBitrate := n } : AppConfigT).accepted =
      (positive n.toNat).map (NumericSetting.canBitrate.write cfg ·) := by
  obtain ⟨hport, hrest⟩ := not_or.mp h
  obtain ⟨hmax, hrest⟩ := not_or.mp hrest
  obtain ⟨htick, -⟩ := not_or.mp hrest
  have hzero : n = 0 ↔ (n.toNat : Int) ≤ 0 := by
    rw [← UInt32.toNat_inj, show (0 : UInt32).toNat = 0 from rfl]
    omega
  apply accepted_eq
  · unfold AppConfigT.Invalid
    rw [or_iff_right hport, or_iff_right hmax, or_iff_right htick]
    exact hzero
  · have hback : UInt32.ofInt n.toNat = n := by
      rw [UInt32.ofInt, ← UInt32.toNat_inj, UInt32.toNat_ofNat']
      have hlt := n.toNat_lt
      omega
    rw [NumericSetting.write, hback]

/-! ### The two ways in -/

/-- A number that is made of what `atoi` returns; a text without a numeral gives it 0. -/
theorem atoi_positive {α : Type} (f : Int32 → Int) (hzero : f 0 ≤ 0) (g : Int → α) (s : CText) :
    (positive (f (atoi s))).map g =
      (Scanf.scanNumeral 10 s).bind fun x =>
        (positive (f (clampLong x.1).toInt32)).map g := by
  unfold atoi strtol
  cases Scanf.scanNumeral 10 s with
  | none =>
    have hnone : positive (f 0) = none := if_pos hzero
    exact congrArg (Option.map g) hnone
  | some x => rfl

/-- The command line takes the numeral at the beginning, whatever stands behind it. -/
theorem fromCommandLine_eq (h : ¬ cfg.Invalid) (hword : CliOption.ofWord word = some setting.option)
    (s : CText) :
    fromCommandLine word s cfg =
      (Scanf.scanNumeral 10 s).bind fun x =>
        (setting.cliNumber x.1).map (setting.write cfg ·) := by
  have happly : applyOptions [word, s] cfg = some (setting.option.apply cfg s) := by
    unfold applyOptions
    rw [hword]
    cases setting <;> rfl
  rw [fromCommandLine, happly, Option.bind_some]
  cases setting with
  | port =>
    rw [NumericSetting.option, CliOption.apply, accepted_port h,
      atoi_positive (fun n => n.toUInt32.toUInt16.toNat) (le_of_eq rfl)]
    simp only [clampLong_toUInt16, NumericSetting.cliNumber]
  | maxClients =>
    rw [NumericSetting.option, CliOption.apply, accepted_maxClients h,
      atoi_positive Int32.toInt (le_of_eq rfl)]
    simp only [clampLong_toInt32, NumericSetting.cliNumber]
  | tickMs =>
    rw [NumericSetting.option, CliOption.apply, accepted_tickMs h,
      atoi_positive Int32.toInt (le_of_eq rfl)]
    simp only [clampLong_toInt32, NumericSetting.cliNumber]
  | canBitrate =>
    -- read by `strtoul`, and no text without a numeral is a positive number
    rw [NumericSetting.option, CliOption.apply, accepted_canBitrate h, Strto.strtoul]
    cases hscan : Scanf.scanNumeral 10 s with
    | none => rfl
    | some x =>
      have hvalue : ((Scanf.strtoul x.1).toUInt32.toNat : Int) = unsignedLong x.1 % 2^32 := by
        rw [UInt64.toNat_toUInt32, ← strtoul_toNat]
        omega
      simp only
      rw [hvalue]
      rfl

/-- What a conversion reads is taken where nothing is left of the text behind it. -/
theorem whole_value {α : Type} (read : CText → α × CText) {f : Int → α}
    (hnone : Scanf.scanNumeral 10 s = none → (read s).2 = s)
    (hsome : ∀ v rest, Scanf.scanNumeral 10 s = some (v, rest) → read s = (f v, rest))
    (bad : α → Prop) [DecidablePred bad] :
    (if s = [] ∨ (read s).2 ≠ [] ∨ bad (read s).1 then none else some (read s).1) =
      (wholeNumeral s).bind fun v => if bad (f v) then none else some (f v) := by
  unfold wholeNumeral
  rcases hscan : Scanf.scanNumeral 10 s with _ | ⟨v, _ | ⟨c, rest⟩⟩
  · simp only [Option.bind_none]
    apply if_pos
    rw [hnone hscan]
    by_cases hs : s = []
    · exact Or.inl hs
    · exact Or.inr (Or.inl hs)
  · -- an empty text is no numeral, so the first two tests fail
    have hs : s ≠ [] := by
      rintro rfl
      cases hscan
    rw [hsome v [] hscan]
    simp only [hs, ne_eq, not_true_eq_false, false_or, Option.bind_some]
  · apply if_pos
    rw [hsome v (c :: rest) hscan]
    exact Or.inr (Or.inl (List.cons_ne_nil c rest))

theorem positiveULong_eq (max : UInt64) (s : CText) :
    positiveULong max s = (wholeNumeral s).bind fun v =>
      if Scanf.strtoul v = 0 ∨ Scanf.strtoul v > max then none else some (Scanf.strtoul v) := by
  refine whole_value Strto.strtoul ?_ ?_ (fun x => x = 0 ∨ x > max)
  · intro hscan
    rw [Strto.strtoul, hscan]
  · intro v rest hscan
    rw [Strto.strtoul, hscan]

theorem positiveLong_eq (s : CText) :
    positiveLong s = (wholeNumeral s).bind fun v =>
      if clampLong v ≤ 0 then none else some (clampLong v) := by
  refine whole_value Strto.strtol ?_ ?_ (fun x => x ≤ 0)
  · intro hscan
    rw [Strto.strtol, hscan]
  · intro v rest hscan
    rw [Strto.strtol, hscan]

theorem fromFile_port (h : ¬ cfg.Invalid) (s : CText) :
    (ConfigKey.wsPort.apply cfg s).bind AppConfigT.accepted =
      (wholeNumeral s).bind fun v =>
        (NumericSetting.port.fileNumber v).map (NumericSetting.port.write cfg ·) := by
  rw [ConfigKey.apply, positiveULong_eq]
  cases wholeNumeral s with
  | none => rfl
  | some v =>
    have hvalue := strtoul_toNat v
    have hzero : Scanf.strtoul v = 0 ↔ unsignedLong v = 0 := by
      rw [← UInt64.toNat_inj, ← hvalue, show (0 : UInt64).toNat = 0 from rfl]
      omega
    have hmax : Scanf.strtoul v > 65535 ↔ unsignedLong v > 65535 := by
      rw [gt_iff_lt, UInt64.lt_iff_toNat_lt, ← hvalue, show (65535 : UInt64).toNat = 65535 from rfl]
      omega
    simp only [Option.bind_some, hzero, hmax, NumericSetting.fileNumber]
    by_cases hlarge : unsignedLong v > 65535
    · rw [if_pos (Or.inr hlarge), if_pos hlarge]
      rfl
    · rw [if_neg hlarge]
      by_cases hnone : unsignedLong v = 0
      · rw [if_pos (Or.inl hnone), hnone]
        rfl
      · -- the value fits the field, so the cast keeps it
        have hshort : ((Scanf.strtoul v).toUInt16.toNat : Int) = unsignedLong v := by
          rw [UInt64.toNat_toUInt16, ← hvalue]
          omega
        rw [if_neg (not_or.mpr ⟨hnone, hlarge⟩), Option.map_some, Option.bind_some,
          accepted_port h, hshort]

theorem fromFile_canBitrate (h : ¬ cfg.Invalid) (s : CText) :
    (ConfigKey.canBitrate.apply cfg s).bind AppConfigT.accepted =
      (wholeNumeral s).bind fun v =>
        (NumericSetting.canBitrate.fileNumber v).map (NumericSetting.canBitrate.write cfg ·) := by
  rw [ConfigKey.apply, positiveULong_eq]
  cases wholeNumeral s with
  | none => rfl
  | some v =>
    have hvalue := strtoul_toNat v
    have hlow : ((Scanf.strtoul v).toUInt32.toNat : Int) = unsignedLong v % 2^32 := by
      rw [UInt64.toNat_toUInt32, ← hvalue]
      omega
    have hmax : ¬ Scanf.strtoul v > 0xFFFFFFFFFFFFFFFF := by
      have hlt := (Scanf.strtoul v).toNat_lt
      rw [gt_iff_lt, UInt64.lt_iff_toNat_lt,
        show (0xFFFFFFFFFFFFFFFF : UInt64).toNat = 2^64-1 from rfl]
      omega
    simp only [Option.bind_some, hmax, or_false, NumericSetting.fileNumber]
    split_ifs with hzero
    · have hunsigned : unsignedLong v = 0 := by
        rw [← hvalue, hzero]
        rfl
      rw [hunsigned]
      rfl
    · rw [Option.map_some, Option.bind_some, accepted_canBitrate h, hlow]

/-- Both fields of type `int` are read by `strtol`, and tested before the cast. -/
theorem positiveLong_accepted (f : Int64 → AppConfigT) (s : CText) :
    ((positiveLong s).map f).bind AppConfigT.accepted =
      (wholeNumeral s).bind fun v =>
        if clamped v ≤ 0 then none else (f (clampLong v)).accepted := by
  have hclamp (v : Int) : clampLong v ≤ 0 ↔ clamped v ≤ 0 := by
    rw [← clampLong_toInt]
    exact Int64.le_iff_toInt_le
  rw [positiveLong_eq]
  cases wholeNumeral s with
  | none => rfl
  | some v =>
    simp only [Option.bind_some, hclamp]
    split_ifs
    · rfl
    · rw [Option.map_some, Option.bind_some]

/-- The file takes a text that is a numeral as a whole. -/
theorem fromFile_eq (h : ¬ cfg.Invalid) (hkey : ConfigKey.ofText key = some setting.key)
    (s : CText) :
    fromFile key s cfg =
      (wholeNumeral s).bind fun v => (setting.fileNumber v).map (setting.write cfg ·) := by
  rw [fromFile, applyConfigKv_toOption, hkey, Option.bind_some]
  cases setting with
  | port => exact fromFile_port h s
  | maxClients =>
    rw [NumericSetting.key, ConfigKey.apply, positiveLong_accepted]
    simp only [accepted_maxClients h, clampLong_toInt32, NumericSetting.fileNumber, apply_ite,
      Option.map_none]
  | tickMs =>
    rw [NumericSetting.key, ConfigKey.apply, positiveLong_accepted]
    simp only [accepted_tickMs h, clampLong_toInt32, NumericSetting.fileNumber, apply_ite,
      Option.map_none]
  | canBitrate => exact fromFile_canBitrate h s

/-! ### When the two agree -/

/-- What the option's type keeps of a value is no positive number. -/
def NumericSetting.Vanishes (v : Int) : NumericSetting → Prop
  | .port => v < -2^63 ∨ (v < 2^63 ∧ v % 2^16 = 0)
  | .maxClients => v < -2^63 ∨ 2^63 ≤ v ∨ v % 2^32 = 0 ∨ 2^31 ≤ v % 2^32
  | .tickMs => v < -2^63 ∨ 2^63 ≤ v ∨ v % 2^32 = 0 ∨ 2^31 ≤ v % 2^32
  | .canBitrate => -2^64 < v ∧ v < 2^64 ∧ v % 2^32 = 0

/-- A negative value that `strtoul` takes for a port. -/
def NumericSetting.WrapsToPort (v : Int) (setting : NumericSetting) : Prop :=
  setting = .port ∧ -2^64 < v ∧ v ≤ -2^64+65535

theorem cliNumber_eq_none_iff (setting : NumericSetting) (v : Int) :
    setting.cliNumber v = none ↔ setting.Vanishes v := by
  have hint : positive ((clamped v).bmod (2^32)) = none ↔
      v < -2^63 ∨ 2^63 ≤ v ∨ v % 2^32 = 0 ∨ 2^31 ≤ v % 2^32 := by
    rw [positive_eq_none_iff, Int.bmod_def]
    unfold clamped
    push_cast
    omega
  cases setting with
  | port =>
    unfold NumericSetting.cliNumber NumericSetting.Vanishes clamped
    rw [positive_eq_none_iff]
    omega
  | maxClients => exact hint
  | tickMs => exact hint
  | canBitrate =>
    unfold NumericSetting.cliNumber NumericSetting.Vanishes unsignedLong
    rw [positive_eq_none_iff]
    split_ifs <;> omega

theorem inRange_numbers (hlow : 1 ≤ v) (hhigh : v ≤ setting.max) :
    setting.cliNumber v = some v ∧ setting.fileNumber v = some v := by
  have hpositive : positive v = some v := if_neg (by omega)
  have hint (h : v ≤ 2^31-1) : v.bmod (2^32) = v :=
    Int.bmod_eq_of_le (by push_cast; omega) (by push_cast; omega)
  have hclamp (h : v < 2^63) : clamped v = v := clamped_eq (by omega) h
  have hunsigned (h : v < 2^64) : unsignedLong v = v := unsignedLong_eq (by omega) h
  cases setting with
  | port =>
    simp only [NumericSetting.max] at hhigh
    simp only [NumericSetting.cliNumber, NumericSetting.fileNumber]
    rw [hclamp (by omega), hunsigned (by omega), Int.emod_eq_of_lt (by omega) (by omega),
      if_neg (by omega)]
    exact ⟨hpositive, hpositive⟩
  | maxClients =>
    simp only [NumericSetting.max] at hhigh
    simp only [NumericSetting.cliNumber, NumericSetting.fileNumber]
    rw [hclamp (by omega), hint hhigh, if_neg (by omega)]
    exact ⟨hpositive, hpositive⟩
  | tickMs =>
    simp only [NumericSetting.max] at hhigh
    simp only [NumericSetting.cliNumber, NumericSetting.fileNumber]
    rw [hclamp (by omega), hint hhigh, if_neg (by omega)]
    exact ⟨hpositive, hpositive⟩
  | canBitrate =>
    simp only [NumericSetting.max] at hhigh
    simp only [NumericSetting.cliNumber, NumericSetting.fileNumber]
    rw [hunsigned (by omega), Int.emod_eq_of_lt (by omega) (by omega)]
    exact ⟨hpositive, hpositive⟩

/-- What the file accepts where the command line does not. -/
theorem fileNumber_of_vanishes (h : setting.Vanishes v) :
    setting.fileNumber v = none ↔ ¬ setting.WrapsToPort v := by
  unfold NumericSetting.WrapsToPort
  cases setting with
  | port =>
    simp only [NumericSetting.Vanishes] at h
    simp only [NumericSetting.fileNumber, unsignedLong]
    split_ifs with habs hlarge hlarge
    · simp only [true_and, true_iff]
      omega
    · rw [positive_eq_none_iff]
      simp only [true_and]
      omega
    · simp only [true_and, true_iff]
      omega
    · omega
  | maxClients =>
    have hnone := (cliNumber_eq_none_iff .maxClients v).mpr h
    unfold NumericSetting.cliNumber at hnone
    simp only [NumericSetting.fileNumber, hnone, ite_self, reduceCtorEq, false_and, not_false_iff]
  | tickMs =>
    have hnone := (cliNumber_eq_none_iff .tickMs v).mpr h
    unfold NumericSetting.cliNumber at hnone
    simp only [NumericSetting.fileNumber, hnone, ite_self, reduceCtorEq, false_and, not_false_iff]
  | canBitrate =>
    have hnone := (cliNumber_eq_none_iff .canBitrate v).mpr h
    unfold NumericSetting.cliNumber at hnone
    simp only [NumericSetting.fileNumber, hnone, reduceCtorEq, false_and, not_false_iff]

theorem read_write (cfg : AppConfigT) {x : Int} (hlow : 1 ≤ x) (hhigh : x ≤ setting.max) :
    setting.read (setting.write cfg x) = x := by
  cases setting with
  | port =>
    simp only [NumericSetting.max] at hhigh
    simp only [NumericSetting.read, NumericSetting.write, UInt16.ofInt, UInt16.toNat_ofNat']
    omega
  | maxClients =>
    simp only [NumericSetting.max] at hhigh
    exact Int32.toInt_ofInt_of_le (by omega) (by omega)
  | tickMs =>
    simp only [NumericSetting.max] at hhigh
    exact Int32.toInt_ofInt_of_le (by omega) (by omega)
  | canBitrate =>
    simp only [NumericSetting.max] at hhigh
    simp only [NumericSetting.read, NumericSetting.write, UInt32.ofInt, UInt32.toNat_ofNat']
    omega

/-- The text has no numeral at its beginning; or it is a numeral in the range of the setting; or
nothing positive is left of the numeral in the option's type, and the file does not take it for
a port. -/
def NumericSetting.Plain (setting : NumericSetting) (s : CText) : Prop :=
  ∀ v rest, Scanf.scanNumeral 10 s = some (v, rest) →
    (rest = [] ∧ 1 ≤ v ∧ v ≤ setting.max) ∨
      (setting.Vanishes v ∧ ¬ (rest = [] ∧ setting.WrapsToPort v))

theorem exists_names (setting : NumericSetting) :
    ∃ key word, ConfigKey.ofText key = some setting.key ∧
      CliOption.ofWord word = some setting.option := by
  cases setting with
  | port => exact ⟨"port".toList, "--port".toList, by decide, by decide⟩
  | maxClients => exact ⟨"max_clients".toList, "--max-clients".toList, by decide, by decide⟩
  | tickMs => exact ⟨"tick_ms".toList, "--tick-ms".toList, by decide, by decide⟩
  | canBitrate => exact ⟨"can_bitrate".toList, "--can-bitrate".toList, by decide, by decide⟩

/-- The file and the command line agree on a text exactly where it is plain. -/
theorem agrees_iff (setting : NumericSetting) (s : CText) :
    setting.Agrees s ↔ setting.Plain s := by
  constructor
  · intro h v rest hscan
    obtain ⟨key, word, hkey, hword⟩ := exists_names setting
    have hvalid : ¬ appConfigInitDefaults.Invalid := by decide
    rcases h appConfigInitDefaults key word hvalid hkey hword with
      ⟨hfile, hcli⟩ | ⟨v', result, hscan', hlow, hhigh, -⟩
    · right
      rw [fromCommandLine_eq hvalid hword, hscan, Option.bind_some, Option.map_eq_none_iff] at hcli
      have hvanishes := (cliNumber_eq_none_iff setting v).mp hcli
      refine ⟨hvanishes, ?_⟩
      rintro ⟨rfl, hwraps⟩
      have hwhole : wholeNumeral s = some v := by rw [wholeNumeral, hscan]
      rw [fromFile_eq hvalid hkey, hwhole, Option.bind_some, Option.map_eq_none_iff] at hfile
      exact (fileNumber_of_vanishes hvanishes).mp hfile hwraps
    · left
      obtain ⟨rfl, rfl⟩ := Prod.mk.inj (Option.some.inj (hscan.symm.trans hscan'))
      exact ⟨rfl, hlow, hhigh⟩
  · intro h cfg key word hvalid hkey hword
    rw [fromCommandLine_eq hvalid hword, fromFile_eq hvalid hkey]
    cases hscan : Scanf.scanNumeral 10 s with
    | none =>
      left
      rw [wholeNumeral, hscan]
      exact ⟨rfl, rfl⟩
    | some x =>
      obtain ⟨v, rest⟩ := x
      rcases h v rest hscan with ⟨rfl, hlow, hhigh⟩ | ⟨hvanishes, hwraps⟩
      · -- both have the value as it is written
        right
        have hwhole : wholeNumeral s = some v := by rw [wholeNumeral, hscan]
        obtain ⟨hcli, hfile⟩ := inRange_numbers hlow hhigh
        refine ⟨v, setting.write cfg v, rfl, hlow, hhigh, ?_, ?_, read_write cfg hlow hhigh⟩
        · rw [hwhole, Option.bind_some, hfile, Option.map_some]
        · rw [Option.bind_some, hcli, Option.map_some]
      · left
        constructor
        · cases rest with
          | nil =>
            have hwhole : wholeNumeral s = some v := by rw [wholeNumeral, hscan]
            have hnot : ¬ setting.WrapsToPort v := fun hport => hwraps ⟨rfl, hport⟩
            rw [hwhole, Option.bind_some, (fileNumber_of_vanishes hvanishes).mpr hnot]
            rfl
          | cons c rest =>
            rw [wholeNumeral, hscan]
            rfl
        · rw [Option.bind_some, (cliNumber_eq_none_iff setting v).mpr hvanishes]
          rfl

/-- 65616 is port 80 on the command line, and no port in the file. -/
theorem port_65616_disagrees : ¬ NumericSetting.port.Agrees "65616".toList := by
  intro h
  have hfile : fromFile "port".toList "65616".toList appConfigInitDefaults = none := by
    decide +kernel
  have hcli : fromCommandLine "--port".toList "65616".toList appConfigInitDefaults =
      some { appConfigInitDefaults with wsPort := 80 } := by
    decide +kernel
  rcases h appConfigInitDefaults "port".toList "--port".toList (by decide) (by decide)
    (by decide) with ⟨-, hnone⟩ | ⟨v, result, -, -, -, hsome, -⟩
  · rw [hcli] at hnone
    cases hnone
  · rw [hfile] at hsome
    cases hsome

/-! ### The two ways in are runs of `app_config_parse` -/

theorem parse_config {fopen : FileSystem} {cfg₀ : AppConfigT} {argv : List CText}
    (hpath : scanConfigPath argv.tail none = some none)
    (hload : appConfigLoadFile fopen cfg₀ appDefaultConfigPath = (cfg, none)) :
    (appConfigParse fopen cfg₀ argv).config =
      (applyOptions argv.tail cfg).bind AppConfigT.accepted := by
  unfold appConfigParse
  simp only [hpath, Option.getD_none, hload, Option.filter_none]
  cases applyOptions argv.tail cfg with
  | none => rfl
  | some cfg' =>
    rw [Option.bind_some, AppConfigT.accepted]
    simp only
    split_ifs <;> rfl

/-- A file that is there and does not load makes the start fail. -/
theorem parse_load_failed {fopen : FileSystem} {cfg₀ : AppConfigT} {argv0 content : CText}
    {readError : Bool} (hopen : fopen appDefaultConfigPath = .file content readError)
    (hload : (appConfigLoadFile fopen cfg₀ appDefaultConfigPath).2.isNone = false) :
    (appConfigParse fopen cfg₀ [argv0]).config = none := by
  have herrno : ∀ error, (appConfigLoadFile fopen cfg₀ appDefaultConfigPath).2 = some error →
      error.errno ≠ .enoent := by
    intro error herror
    unfold appConfigLoadFile at herror
    rw [hopen] at herror
    simp only at herror
    split at herror
    · rw [← Option.some.inj herror]
      intro h
      cases h
    · split_ifs at herror
      rw [← Option.some.inj herror]
      intro h
      cases h
  cases hresult : appConfigLoadFile fopen cfg₀ appDefaultConfigPath with
  | mk cfg' error =>
    cases error with
    | none =>
      rw [hresult] at hload
      cases hload
    | some error =>
      have hnot := herrno error (by rw [hresult])
      have hfilter : (some error).filter
          (fun error => (none : Option CText).isSome || error.errno ≠ .enoent) = some error := by
        simp [hnot]
      unfold appConfigParse
      simp only [List.tail_cons, scanConfigPath, Option.getD_none, hresult, hfilter]
      rfl

/-- A setting on the command line, behind a default file that is valid. -/
theorem parse_commandLine {fopen : FileSystem} {cfg₀ : AppConfigT} (argv0 : CText)
    (hload : appConfigLoadFile fopen cfg₀ appDefaultConfigPath = (cfg, none))
    (h : ¬ cfg.Invalid) (hword : CliOption.ofWord word = some setting.option) (s : CText) :
    (appConfigParse fopen cfg₀ [argv0, word, s]).config = fromCommandLine word s cfg := by
  have hconfig : word ≠ "--config".toList := by
    rintro rfl
    rw [show CliOption.ofWord "--config".toList = some .config by decide] at hword
    cases setting <;> cases hword
  by_cases hs : s = "--config".toList
  · -- this text has no numeral, and here it makes the first scan exit
    have hscan : Scanf.scanNumeral 10 s = none := by
      rw [hs]
      decide
    have hexit : scanConfigPath [word, s] none = none := by
      simp only [scanConfigPath, hs, if_neg hconfig, if_true]
    rw [fromCommandLine_eq h hword, hscan]
    unfold appConfigParse
    simp only [List.tail_cons, hexit]
    rfl
  · have hpath : scanConfigPath [word, s] none = some none := by
      simp only [scanConfigPath, if_neg hconfig, if_neg hs]
    exact parse_config hpath hload

def configKeyNames : List CText :=
  ["ws_port", "port", "max_clients", "read_only", "testing_mode", "testing", "logging_enabled",
    "logging", "auto_config_can", "tick_interval_ms", "tick_ms", "can_bitrate", "can_ifname",
    "can_if", "log_dir", "log_path"].map String.toList

theorem mem_configKeyNames {k : ConfigKey} (h : ConfigKey.ofText key = some k) :
    key ∈ configKeyNames := by
  by_contra hnot
  simp only [configKeyNames, List.map_cons, List.map_nil, List.mem_cons, List.not_mem_nil, or_false,
    not_or] at hnot
  simp only [ConfigKey.ofText, hnot, or_false, if_false, reduceCtorEq] at h

/-- The names of the settings are read as they are. -/
theorem key_plain {k : ConfigKey} (h : ConfigKey.ofText key = some k) :
    trimWhitespace key = key ∧ '=' ∉ key ∧ '\n' ∉ key ∧ ¬ SaysNothing key := by
  have hall : ∀ name ∈ configKeyNames, trimWhitespace name = name ∧ '=' ∉ name ∧ '\n' ∉ name ∧
      ¬ SaysNothing name := by
    decide +kernel
  exact hall key (mem_configKeyNames h)

def quotedLine (key s : CText) : CText := key ++ '=' :: '"' :: (s ++ ['"'])

/-- Between quotes every text is given as it is. -/
theorem keyValue_quotedLine {k : ConfigKey} (h : ConfigKey.ofText key = some k) (s : CText) :
    keyValue (quotedLine key s) = some (key, s) := by
  obtain ⟨htrim, hfield, -, -⟩ := key_plain h
  have hquotes : trimWhitespace ('"' :: (s ++ ['"'])) = '"' :: (s ++ ['"']) := by
    have hquote : ¬ Scanf.isSpace '"' = true := by decide
    unfold trimWhitespace Trim.trim
    rw [List.dropWhile_cons_of_neg hquote, ← List.cons_append,
      List.rdropWhile_concat_neg Scanf.isSpace _ _ hquote]
  have hunquoted : unquoted ('"' :: (s ++ ['"'])) = s := by
    have hlast : ('"' :: (s ++ ['"'])).getLast? = some '"' := by
      rw [← List.cons_append]
      exact List.getLast?_concat
    unfold unquoted
    rw [if_pos ⟨rfl, by simp, hlast⟩, List.tail_cons, List.dropLast_concat]
  unfold keyValue quotedLine
  rw [Lines.field_append hfield, Option.map_some, htrim, hquotes, hunquoted]

/-- A setting as the last line of the file, if the line is short enough for the buffer. -/
theorem parse_file {fopen fopen' : FileSystem} {cfg₀ : AppConfigT} {before : CText} {k : ConfigKey}
    (argv0 : CText) (hopen : fopen appDefaultConfigPath = .file (before ++ ['\n']) false)
    (hload : appConfigLoadFile fopen cfg₀ appDefaultConfigPath = (cfg, none))
    (hkey : ConfigKey.ofText key = some k) (hs : '\n' ∉ s)
    (hlength : (quotedLine key s).length ≤ configLineSize-1)
    (hopen' : fopen' appDefaultConfigPath =
      .file (before ++ '\n' :: quotedLine key s) false) :
    (appConfigParse fopen' cfg₀ [argv0]).config = fromFile key s cfg := by
  obtain ⟨-, -, hnewline, hheard⟩ := key_plain hkey
  have hheard' : ¬ SaysNothing (quotedLine key s) := by
    unfold SaysNothing at hheard ⊢
    cases hfind : key.find? (fun c => !Scanf.isSpace c) with
    | none =>
      rw [hfind] at hheard
      exact absurd (Or.inl rfl) hheard
    | some c =>
      rw [quotedLine, List.find?_append, hfind, Option.some_or]
      rw [hfind] at hheard
      exact hheard
  have hnewline' : '\n' ∉ quotedLine key s := by
    unfold quotedLine
    simp [hnewline, hs]
  have hne : quotedLine key s ≠ [] := List.append_ne_nil_of_right_ne_nil _ (List.cons_ne_nil _ _)
  -- the line is the last chunk that is read
  have hchunks : Fgets.chunks '\n' (configLineSize-1) (before ++ '\n' :: quotedLine key s) =
      Fgets.chunks '\n' (configLineSize-1) (before ++ ['\n']) ++ [quotedLine key s] := by
    rw [Fgets.chunks_behind_newline (by decide), Fgets.chunks_last hnewline' hne hlength]
  have hbefore := loadFile_eq hopen cfg₀
  rw [hload, Bool.not_false, Bool.and_true] at hbefore
  have hfold : (Fgets.chunks '\n' (configLineSize-1) (before ++ ['\n'])).foldl lineAct
      (cfg₀, true) = (cfg, true) := hbefore.symm
  have hloaded := loadFile_eq hopen' cfg₀
  rw [hchunks, List.foldl_append, hfold, Bool.not_false, Bool.and_true, List.foldl_cons,
    List.foldl_nil, lineAct, if_pos rfl, applyConfigLine_setting hheard',
    keyValue_quotedLine hkey, Option.bind_some] at hloaded
  unfold fromFile
  cases hkv : (applyConfigKv cfg key s [] 0).toOption with
  | none =>
    rw [hkv] at hloaded
    exact parse_load_failed hopen' (Prod.mk.inj hloaded).2
  | some cfg' =>
    rw [hkv] at hloaded
    obtain ⟨hcfg, hnone⟩ := Prod.mk.inj hloaded
    have hload' : appConfigLoadFile fopen' cfg₀ appDefaultConfigPath = (cfg', none) :=
      Prod.ext hcfg (Option.isNone_iff_eq_none.mp hnone)
    rw [parse_config rfl hload']
    rfl

end WsServer
