import WsServer.Base.Consuming
import WsServer.BlockParse
import WsServer.HandlerActions

/-! The numerals of a command: which ones a handler works through, with their values as
written, and the numbers it makes of them. -/
namespace WsServer
open Interaction Program Scanf

/-! ### What is written -/

/-- A numeral of a command: its value as written, the size of the object it is stored
in, and the largest value of its field. -/
structure Numeral where
  written : Int
  size : Size
  bound : ℕ
  deriving DecidableEq, Repr

def Numeral.stored (n : Numeral) : ℕ :=
  match n.size with
  | .short => (strtoul n.written).toUInt16.toNat
  | .int => (strtoul n.written).toUInt32.toNat

def Numeral.Fits (n : Numeral) : Prop := Scanf.Fits n.size n.written

instance (n : Numeral) : Decidable n.Fits := inferInstanceAs (Decidable (Scanf.Fits _ _))

theorem Numeral.stored_eq_iff (n : Numeral) : (n.stored : Int) = n.written ↔ n.Fits := by
  obtain ⟨written, size, bound⟩ := n
  cases size with
  | short => exact store_short_eq_iff written
  | int => exact store_int_eq_iff written

def idNumeral (v : Int) : Numeral := ⟨v, .int, 0x7FF⟩
def shortNumeral (v : Int) : Numeral := ⟨v, .short, 0xFFFF⟩
def intNumeral (v : Int) : Numeral := ⟨v, .int, 0xFFFFFFFF⟩

/-- The numerals of a raw command; a duration that is left out counts as 0. -/
def rawNumerals (text : CText) : List Numeral :=
  match scanItems [.num 16 .int, .lit '#', .num 16 .short, .lit '#', .num 10 .short] text with
  | [.num .int id, .num .short value, .num .short durationMs] =>
    [idNumeral id, shortNumeral value, shortNumeral durationMs]
  | _ =>
    match scanItems [.num 16 .int, .lit '#', .num 16 .short] text with
    | [.num .int id, .num .short value] => [idNumeral id, shortNumeral value, shortNumeral 0]
    | _ => []

def valveBound (name : CText) : ℕ :=
  if name = "LOX_MAIN".toList ∨ name = "LOX_VENT".toList then 0x7FF else 0xB4

def setValveNumerals (text : CText) : List Numeral :=
  match scanItems [.lit '#', .notIn 31 '#', .lit '#', .num 16 .int] (text.drop 9) with
  | [.text name, .num .int value] => [⟨value, .int, valveBound name⟩]
  | _ => []

def wiggleStopNumerals (token : CText) : List Numeral :=
  match scanItems [.num 16 .int] token with
  | [.num .int id] => [idNumeral id]
  | _ => []

/-- The numerals of a `WIGGLE` entry; a total that is left out counts as 0. -/
def wiggleNumerals (token : CText) : List Numeral :=
  match scanItems [.num 16 .int, .lit '#', .num 16 .short, .lit '#', .num 16 .short, .lit '#',
      .num 16 .short, .lit '#', .num 10 .int, .lit '#', .num 10 .int] token with
  | [.num .int id, .num .short s, .num .short e, .num .short x, .num .int periodMs] =>
    [idNumeral id, shortNumeral s, shortNumeral e, shortNumeral x, intNumeral periodMs,
      intNumeral 0]
  | [.num .int id, .num .short s, .num .short e, .num .short x, .num .int periodMs,
      .num .int totalMs] =>
    [idNumeral id, shortNumeral s, shortNumeral e, shortNumeral x, intNumeral periodMs,
      intNumeral totalMs]
  | _ => []

/-- The numerals of a firing block; a wait that is left out counts as 0. -/
def blockNumerals (token : CText) : List Numeral :=
  match scanItems [.num 16 .int, .lit '#', .num 16 .short, .lit '#', .num 10 .short,
      .lit '#', .num 10 .short, .char] token with
  | [.num .int id, .num .short value, .num .short durationMs, .num .short waitMs] =>
    [idNumeral id, shortNumeral value, shortNumeral durationMs, shortNumeral waitMs]
  | _ =>
    match scanItems [.num 16 .int, .lit '#', .num 16 .short, .lit '#', .num 10 .short, .char]
        token with
    | [.num .int id, .num .short value, .num .short durationMs] =>
      [idNumeral id, shortNumeral value, shortNumeral durationMs, shortNumeral 0]
    | _ => []

/-- The numerals of the blocks that the table has room for. -/
def fireNumerals (text : CText) : List Numeral :=
  ((blockTokens text).take appMaxFiringBlocks).flatMap blockNumerals

/-- The items that a command is worked through by, each with its numerals. -/
def writtenItems (text : CText) : List (List Numeral) :=
  if hasPrefix "SET_VALVE" text then [setValveNumerals text]
  else if hasPrefix "WIGGLE_STOP" text then
    (Strtok.tokens '|' text).tail.map wiggleStopNumerals
  else if hasPrefix "WIGGLE" text then (Strtok.tokens '|' text).tail.map wiggleNumerals
  else if hasPrefix "FIRE#8765" text then [fireNumerals text]
  else [rawNumerals text]

/-! ### What is made of it -/

def FiringBlock.fields (b : FiringBlock) : List ℕ :=
  [b.id.toNat, b.value.toNat, b.durationMs.toNat, b.waitMs.toNat]

/-- The blocks of a configuration, field by field. -/
def FiringSequenceConfig.fields (config : FiringSequenceConfig) : List ℕ :=
  (List.range config.numBlocks).flatMap (fun i => (config.block i).fields)

def ValveProfile.read (p : ValveProfile) : ValveField → ℕ
  | .loxMain => p.loxMainValveId.toNat
  | .loxVent => p.loxVentValveId.toNat
  | .loxMainAngleOpen => p.loxMainAngleOpen.toNat
  | .loxVentAngleClose => p.loxVentAngleClose.toNat

/-- The actions that take numbers from a command. The configuration of the drowning
sequence comes from the valve profile. -/
def Act.Numeric : Act → Prop
  | .canSend _ | .wiggleStart _ | .wiggleStop _ | .setValve _ _ => True
  | .createWorker args => args.config.drownInjector = false
  | _ => False

instance : DecidablePred Act.Numeric
  | .canSend _ | .wiggleStart _ | .wiggleStop _ | .setValve _ _ => isTrue trivial
  | .createWorker args => inferInstanceAs (Decidable (args.config.drownInjector = false))
  | .registerClient _ | .unregisterClient _ | .clientContext _ | .setWriteOnly _ _ | .getState
  | .storeState _ | .wiggleStopAll _ | .wiggleProcess | .readProfile | .allocate
  | .claimSequence | .callocArgs | .finishSequence | .requestAbort | .log _ _
  | .sendText _ _ | .broadcast _ => isFalse id

/-- The numbers that an action puts on the bus, in the table, in the profile or in the
configuration of a worker, or the id it takes out of the table. -/
def Act.fields : Act → List ℕ
  | .canSend c => [c.id.toNat, c.value.toNat, c.durationMs.toNat]
  | .wiggleStart r => [r.id.toNat, r.startValue.toNat, r.endValue.toNat, r.exitValue.toNat,
      r.periodMs.toNat, r.totalDurationMs.toNat]
  | .wiggleStop id => [id.toNat]
  | .setValve field value => [(ValveProfile.set ⟨0, 0, 0, 0⟩ field value).read field]
  | .createWorker args => args.config.fields
  | _ => []

/-- The id is one that the action itself does not look at. -/
def Act.IdInRange : Act → Prop
  | .canSend c => c.id ≤ 0x7FF
  | .wiggleStop id => id ≤ 0x7FF
  | _ => True

/-- The action has the numbers that the conversions made of the numerals, in range if
its id is. -/
structure Reads (a : Act) (item : List Numeral) : Prop where
  fields : a.fields = item.map Numeral.stored
  inRange : a.IdInRange → ∀ n ∈ item, n.stored ≤ n.bound

theorem shortNumeral_inRange (v : Int) :
    (shortNumeral v).stored ≤ (shortNumeral v).bound := by
  have hlt := (strtoul v).toUInt16.toNat_lt
  simp only [shortNumeral, Numeral.stored]
  omega

theorem intNumeral_inRange (v : Int) : (intNumeral v).stored ≤ (intNumeral v).bound := by
  have hlt := (strtoul v).toUInt32.toNat_lt
  simp only [intNumeral, Numeral.stored]
  omega

theorem idNumeral_inRange {v : Int} (h : (strtoul v).toUInt32 ≤ 0x7FF) :
    (idNumeral v).stored ≤ (idNumeral v).bound :=
  UInt32.le_iff_toNat_le.mp h

/-! ### The conversions -/

theorem scanWiggleStop_reads {token : CText} {id : UInt32}
    (h : scanWiggleStop token = some id) : Reads (.wiggleStop id) (wiggleStopNumerals token) := by
  unfold scanWiggleStop sscanf at h
  split at h
  · rename_i id' hitems
    obtain rfl := Option.some.inj h
    simp only [List.map_eq_cons_iff, List.map_eq_nil_iff, store_eq_int] at hitems
    obtain ⟨_, _, hitems, ⟨v, rfl, rfl⟩, rfl⟩ := hitems
    have hnumerals : wiggleStopNumerals token = [idNumeral v] := by
      simp only [wiggleStopNumerals, hitems]
    rw [hnumerals]
    refine ⟨rfl, ?_⟩
    intro hid n hn
    rw [List.mem_singleton.mp hn]
    exact idNumeral_inRange hid
  · cases h

theorem scanWiggle_reads {token : CText} {r : WiggleRequest} (h : scanWiggle token = some r)
    (hid : r.id ≤ 0x7FF) : Reads (.wiggleStart r) (wiggleNumerals token) := by
  -- both formats end in six numerals, the last of them 0 in the short one
  have hread : ∀ id s e x period total : Int,
      wiggleNumerals token = [idNumeral id, shortNumeral s, shortNumeral e, shortNumeral x,
        intNumeral period, intNumeral total] →
      r = ⟨(strtoul id).toUInt32, (strtoul s).toUInt16, (strtoul e).toUInt16,
        (strtoul x).toUInt16, (strtoul period).toUInt32, (strtoul total).toUInt32⟩ →
      Reads (.wiggleStart r) (wiggleNumerals token) := by
    intro id s e x period total hnumerals hr
    rw [hnumerals]
    subst hr
    refine ⟨rfl, ?_⟩
    intro _ n hn
    simp only [List.mem_cons, List.not_mem_nil, or_false] at hn
    rcases hn with rfl | rfl | rfl | rfl | rfl | rfl
    · exact idNumeral_inRange hid
    · exact shortNumeral_inRange s
    · exact shortNumeral_inRange e
    · exact shortNumeral_inRange x
    · exact intNumeral_inRange period
    · exact intNumeral_inRange total
  unfold scanWiggle sscanf at h
  split at h
  · rename_i hitems
    obtain rfl := Option.some.inj h
    simp only [List.map_eq_cons_iff, List.map_eq_nil_iff, store_eq_int, store_eq_short] at hitems
    obtain ⟨_, _, hitems, ⟨id, rfl, rfl⟩, _, _, rfl, ⟨s, rfl, rfl⟩, _, _, rfl, ⟨e, rfl, rfl⟩,
      _, _, rfl, ⟨x, rfl, rfl⟩, _, _, rfl, ⟨period, rfl, rfl⟩, rfl⟩ := hitems
    exact hread id s e x period 0 (by simp only [wiggleNumerals, hitems]) rfl
  · rename_i hitems
    obtain rfl := Option.some.inj h
    simp only [List.map_eq_cons_iff, List.map_eq_nil_iff, store_eq_int, store_eq_short] at hitems
    obtain ⟨_, _, hitems, ⟨id, rfl, rfl⟩, _, _, rfl, ⟨s, rfl, rfl⟩, _, _, rfl, ⟨e, rfl, rfl⟩,
      _, _, rfl, ⟨x, rfl, rfl⟩, _, _, rfl, ⟨period, rfl, rfl⟩, _, _, rfl, ⟨total, rfl, rfl⟩,
      rfl⟩ := hitems
    exact hread id s e x period total (by simp only [wiggleNumerals, hitems]) rfl
  · cases h

/-- A name that the chain of comparisons takes, and the field's largest value. -/
theorem valveFieldOf_bound {name : CText} {field : ValveField} {bound value : UInt32}
    (h : valveFieldOf name = some (field, bound)) (hvalue : value ≤ bound) :
    value.toNat ≤ valveBound name ∧
      (ValveProfile.set ⟨0, 0, 0, 0⟩ field value).read field = value.toNat := by
  have hangle : value ≤ 0xB4 → value.toUInt16.toNat = value.toNat := by
    intro hle
    have hle := UInt32.le_iff_toNat_le.mp hle
    rw [UInt32.toNat_toUInt16]
    exact Nat.mod_eq_of_lt (lt_of_le_of_lt hle (by decide))
  unfold valveFieldOf at h
  unfold valveBound
  split_ifs at h with hmain hvent hopen hclose
  · obtain ⟨rfl, rfl⟩ := Prod.mk.inj (Option.some.inj h)
    rw [if_pos (Or.inl hmain)]
    exact ⟨UInt32.le_iff_toNat_le.mp hvalue, rfl⟩
  · obtain ⟨rfl, rfl⟩ := Prod.mk.inj (Option.some.inj h)
    rw [if_pos (Or.inr hvent)]
    exact ⟨UInt32.le_iff_toNat_le.mp hvalue, rfl⟩
  · obtain ⟨rfl, rfl⟩ := Prod.mk.inj (Option.some.inj h)
    rw [if_neg (not_or.mpr ⟨hmain, hvent⟩)]
    exact ⟨UInt32.le_iff_toNat_le.mp hvalue, hangle hvalue⟩
  · obtain ⟨rfl, rfl⟩ := Prod.mk.inj (Option.some.inj h)
    rw [if_neg (not_or.mpr ⟨hmain, hvent⟩)]
    exact ⟨UInt32.le_iff_toNat_le.mp hvalue, hangle hvalue⟩

theorem scanSetValve_reads {text name : CText} {value bound : UInt32} {field : ValveField}
    (h : scanSetValve text = some (name, value)) (hname : valveFieldOf name = some (field, bound))
    (hvalue : value ≤ bound) : Reads (.setValve field value) (setValveNumerals text) := by
  obtain ⟨hbound, hread⟩ := valveFieldOf_bound hname hvalue
  unfold scanSetValve sscanf at h
  split at h
  · rename_i scanned _ hitems
    obtain ⟨rfl, rfl⟩ := Prod.mk.inj (Option.some.inj h)
    simp only [List.map_eq_cons_iff, List.map_eq_nil_iff, store_eq_int, store_eq_text] at hitems
    obtain ⟨_, _, hitems, rfl, _, _, rfl, ⟨v, rfl, rfl⟩, rfl⟩ := hitems
    have hnumerals : setValveNumerals text = [⟨v, .int, valveBound scanned⟩] := by
      simp only [setValveNumerals, hitems]
    rw [hnumerals]
    refine ⟨congrArg (fun n => [n]) hread, ?_⟩
    intro _ n hn
    rw [List.mem_singleton.mp hn]
    exact hbound
  · cases h

theorem parseRawCanFields_reads {text : CText} {f : RawCanFields}
    (h : parseRawCanFields text = some f) :
    Reads (.canSend ⟨f.id, f.value, f.durationMs⟩) (rawNumerals text) := by
  have hread : ∀ id value durationMs : Int, ∀ hasDuration,
      rawNumerals text = [idNumeral id, shortNumeral value, shortNumeral durationMs] →
      f = ⟨(strtoul id).toUInt32, (strtoul value).toUInt16, (strtoul durationMs).toUInt16,
        hasDuration⟩ →
      Reads (.canSend ⟨f.id, f.value, f.durationMs⟩) (rawNumerals text) := by
    intro id value durationMs hasDuration hnumerals hf
    rw [hnumerals]
    subst hf
    refine ⟨rfl, ?_⟩
    intro hid n hn
    simp only [List.mem_cons, List.not_mem_nil, or_false] at hn
    rcases hn with rfl | rfl | rfl
    · exact idNumeral_inRange hid
    · exact shortNumeral_inRange value
    · exact shortNumeral_inRange durationMs
  unfold parseRawCanFields sscanf at h
  split at h
  · rename_i hitems
    obtain rfl := Option.some.inj h
    simp only [List.map_eq_cons_iff, List.map_eq_nil_iff, store_eq_int, store_eq_short] at hitems
    obtain ⟨_, _, hitems, ⟨id, rfl, rfl⟩, _, _, rfl, ⟨value, rfl, rfl⟩, _, _, rfl,
      ⟨durationMs, rfl, rfl⟩, rfl⟩ := hitems
    exact hread id value durationMs true (by simp only [rawNumerals, hitems]) rfl
  · rename_i hfirst
    split at h
    · rename_i hitems
      obtain rfl := Option.some.inj h
      simp only [List.map_eq_cons_iff, List.map_eq_nil_iff, store_eq_int, store_eq_short]
        at hitems
      obtain ⟨_, _, hitems, ⟨id, rfl, rfl⟩, _, _, rfl, ⟨value, rfl, rfl⟩, rfl⟩ := hitems
      have hnumerals : rawNumerals text = [idNumeral id, shortNumeral value, shortNumeral 0] := by
        unfold rawNumerals
        split
        · rename_i hthree
          rw [hthree] at hfirst
          exact absurd rfl (hfirst _ _ _)
        · simp only [hitems]
      exact hread id value 0 false hnumerals rfl
    · cases h

theorem scanBlock_reads {token : CText} {b : FiringBlock} (h : scanBlock token = some b) :
    b.fields = (blockNumerals token).map Numeral.stored ∧
      (b.id ≤ 0x7FF → ∀ n ∈ blockNumerals token, n.stored ≤ n.bound) := by
  -- both formats end in a block of four numerals, the last of them 0 in the short one
  have hread : ∀ id value durationMs waitMs : Int,
      blockNumerals token = [idNumeral id, shortNumeral value, shortNumeral durationMs,
        shortNumeral waitMs] →
      b = ⟨(strtoul id).toUInt32, (strtoul value).toUInt16, (strtoul durationMs).toUInt16,
        (strtoul waitMs).toUInt16⟩ →
      b.fields = (blockNumerals token).map Numeral.stored ∧
        (b.id ≤ 0x7FF → ∀ n ∈ blockNumerals token, n.stored ≤ n.bound) := by
    intro id value durationMs waitMs hnumerals hb
    rw [hnumerals]
    subst hb
    refine ⟨rfl, ?_⟩
    intro hid n hn
    simp only [List.mem_cons, List.not_mem_nil, or_false] at hn
    rcases hn with rfl | rfl | rfl | rfl
    · exact idNumeral_inRange hid
    · exact shortNumeral_inRange value
    · exact shortNumeral_inRange durationMs
    · exact shortNumeral_inRange waitMs
  unfold scanBlock sscanf at h
  split at h
  · rename_i hitems
    obtain rfl := Option.some.inj h
    simp only [List.map_eq_cons_iff, List.map_eq_nil_iff, store_eq_int, store_eq_short] at hitems
    obtain ⟨_, _, hitems, ⟨id, rfl, rfl⟩, _, _, rfl, ⟨value, rfl, rfl⟩, _, _, rfl,
      ⟨durationMs, rfl, rfl⟩, _, _, rfl, ⟨waitMs, rfl, rfl⟩, rfl⟩ := hitems
    exact hread id value durationMs waitMs (by simp only [blockNumerals, hitems]) rfl
  · rename_i hfirst
    split at h
    · rename_i hitems
      obtain rfl := Option.some.inj h
      simp only [List.map_eq_cons_iff, List.map_eq_nil_iff, store_eq_int, store_eq_short]
        at hitems
      obtain ⟨_, _, hitems, ⟨id, rfl, rfl⟩, _, _, rfl, ⟨value, rfl, rfl⟩, _, _, rfl,
        ⟨durationMs, rfl, rfl⟩, rfl⟩ := hitems
      -- the numerals are read by the short format too, since the long one has failed
      have hnumerals : blockNumerals token =
          [idNumeral id, shortNumeral value, shortNumeral durationMs, shortNumeral 0] := by
        unfold blockNumerals
        split
        · rename_i hfour
          rw [hfour] at hfirst
          exact absurd rfl (hfirst _ _ _ _)
        · simp only [hitems]
      exact hread id value durationMs 0 hnumerals rfl
    · cases h

/-! ### The block list -/

theorem decodeBlock_reads {token : CText} {b : FiringBlock} (h : decodeBlock token = some b) :
    b.fields = (blockNumerals token).map Numeral.stored ∧
      ∀ n ∈ blockNumerals token, n.stored ≤ n.bound := by
  unfold decodeBlock at h
  cases hscan : scanBlock token with
  | none =>
    rw [hscan] at h
    cases h
  | some b' =>
    rw [hscan] at h
    dsimp only at h
    split_ifs at h with hbad
    obtain rfl := Option.some.inj h
    obtain ⟨hfields, hrange⟩ := scanBlock_reads hscan
    exact ⟨hfields, hrange (UInt32.not_lt.mp (not_or.mp hbad).2)⟩

theorem decoded_reads {tokens : List CText} {bs : List FiringBlock}
    (h : tokens.map decodeBlock = bs.map some) :
    bs.flatMap FiringBlock.fields = (tokens.flatMap blockNumerals).map Numeral.stored ∧
      ∀ n ∈ tokens.flatMap blockNumerals, n.stored ≤ n.bound := by
  induction tokens generalizing bs with
  | nil =>
    obtain rfl := List.map_eq_nil_iff.mp h.symm
    exact ⟨rfl, fun n hn => nomatch hn⟩
  | cons token tokens ih =>
    cases bs with
    | nil => cases h
    | cons b bs =>
      obtain ⟨hb, hrest⟩ := List.cons.inj h
      obtain ⟨hfields, hrange⟩ := decodeBlock_reads hb
      obtain ⟨hfields', hrange'⟩ := ih hrest
      refine ⟨?_, ?_⟩
      · rw [List.flatMap_cons, List.flatMap_cons, List.map_append, hfields, hfields']
      · intro n hn
        rcases List.mem_append.mp (List.flatMap_cons ▸ hn) with hn | hn
        · exact hrange n hn
        · exact hrange' n hn

/-- The configuration that the parser fills, field by field. -/
theorem firingSequenceParse_reads {strdupOk : Bool} {text : CText} {config : FiringSequenceConfig}
    (h : firingSequenceParse strdupOk text = some config) :
    config.drownInjector = false ∧
    config.fields = (fireNumerals text).map Numeral.stored ∧
    ∀ n ∈ fireNumerals text, n.stored ≤ n.bound := by
  have hok : strdupOk = true := by
    cases strdupOk with
    | true => rfl
    | false => cases (firingSequenceParse_false text).symm.trans h
  subst hok
  have hne : blockTokens text ≠ [] := by
    intro hnil
    cases (firingSequenceParse_no_tokens true text hnil).symm.trans h
  rcases decoded_or_malformed ((blockTokens text).take appMaxFiringBlocks) with
    ⟨bs, hbs⟩ | ⟨t, ht, hbad⟩
  · have hparse := firingSequenceParse_eq text bs hne hbs
    obtain rfl := Option.some.inj (hparse.symm.trans h)
    obtain ⟨hfields, hrange⟩ := decoded_reads hbs
    have hlength : bs.length ≤ appMaxFiringBlocks := by
      have hlen := congrArg List.length hbs
      rw [List.length_map, List.length_map] at hlen
      rw [← hlen]
      exact List.length_take_le _ _
    refine ⟨drownInjector_foldl_pushBlock bs .zero, Eq.trans ?_ hfields, hrange⟩
    have hnum : (bs.foldl FiringSequenceConfig.pushBlock .zero).numBlocks = bs.length :=
      (numBlocks_foldl_pushBlock bs .zero).trans (Nat.zero_add _)
    -- the table holds the decoded blocks in their places
    have hblocks : (List.range bs.length).map
        (bs.foldl FiringSequenceConfig.pushBlock .zero).block = bs := by
      refine List.ext_getElem (by rw [List.length_map, List.length_range]) ?_
      intro k hk hk'
      have hblock := block_foldl_pushBlock bs .zero ((Nat.zero_add _).trans_le hlength) k hk'
      rw [List.getElem_map, List.getElem_range]
      exact (congrArg _ (Nat.zero_add k).symm).trans hblock
    rw [FiringSequenceConfig.fields, hnum, ← List.flatMap_map, hblocks]
  · cases (firingSequenceParse_malformed true text t ht hbad).symm.trans h

end WsServer
