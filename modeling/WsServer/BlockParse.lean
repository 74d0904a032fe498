import Mathlib.Data.List.Basic
import Mathlib.Tactic.Common
import WsServer.FiringSequence

/-! The block list of a firing command: what the token loop stores, and what becomes
of the tokens that do not fit in the table. -/
namespace WsServer

/-- The non-empty pieces between bars behind the first bar of a command. -/
def blockTokens (command : CText) : List CText :=
  match payloadOf command with
  | none => []
  | some payload => (payload.splitOn '|').filter (· ≠ [])

/-- What a token stands for, or `none` where it is malformed. -/
def decodeBlock (token : CText) : Option FiringBlock :=
  match scanBlock token with
  | none => none
  | some b => if b.id = 0 ∨ b.id > 0x7FF then none else some b

def FiringSequenceConfig.block (config : FiringSequenceConfig) (k : ℕ) : FiringBlock where
  id := readAt 0 config.ids k
  value := (readAt (0, 0) config.values k).1
  durationMs := (readAt (0, 0) config.values k).2
  waitMs := readAt 0 config.waitTimesMs k

def FiringSequenceConfig.pushBlock (config : FiringSequenceConfig) (b : FiringBlock) :
    FiringSequenceConfig :=
  { config.storeBlock b with numBlocks := config.numBlocks+1 }

@[simp] theorem pushBlock_numBlocks (config : FiringSequenceConfig) (b : FiringBlock) :
    (config.pushBlock b).numBlocks = config.numBlocks+1 := rfl

theorem block_pushBlock_last (config : FiringSequenceConfig) (b : FiringBlock)
    (h : config.numBlocks < appMaxFiringBlocks) :
    (config.pushBlock b).block config.numBlocks = b := by
  simp [FiringSequenceConfig.block, FiringSequenceConfig.pushBlock,
    FiringSequenceConfig.storeBlock, h]

theorem block_pushBlock_other (config : FiringSequenceConfig) (b : FiringBlock) (k : ℕ)
    (hk : k ≠ config.numBlocks) : (config.pushBlock b).block k = config.block k := by
  simp only [FiringSequenceConfig.block, FiringSequenceConfig.pushBlock,
    FiringSequenceConfig.storeBlock, readAt_writeAt_ne _ _ _ _ _ hk]

/-- One turn of the token loop. -/
theorem parseBlocks_cons (token : CText) (rest : List CText) (config : FiringSequenceConfig)
    (h : config.numBlocks < appMaxFiringBlocks) :
    parseBlocks (token :: rest) config = match decodeBlock token with
      | none => none
      | some b => parseBlocks rest (config.pushBlock b) := by
  rw [parseBlocks, if_pos h, decodeBlock]
  cases scanBlock token with
  | none => rfl
  | some b =>
    have hid : readAt 0 (config.storeBlock b).ids config.numBlocks = b.id := by
      simp [FiringSequenceConfig.storeBlock, h]
    simp only [hid]
    by_cases hb : b.id = 0 ∨ b.id > 0x7FF
    · simp only [if_pos hb]
    · simp only [if_neg hb]
      rfl

theorem parseBlocks_full (tokens : List CText) (config : FiringSequenceConfig)
    (h : ¬ config.numBlocks < appMaxFiringBlocks) : parseBlocks tokens config = some config := by
  cases tokens with
  | nil => rfl
  | cons token rest => rw [parseBlocks, if_neg h]

/-- The loop fills the table with the decoded tokens, as far as there is room. -/
theorem parseBlocks_of_decoded (tokens : List CText) (config : FiringSequenceConfig)
    (bs : List FiringBlock)
    (h : (tokens.take (appMaxFiringBlocks-config.numBlocks)).map decodeBlock = bs.map some) :
    parseBlocks tokens config = some (bs.foldl FiringSequenceConfig.pushBlock config) := by
  induction tokens generalizing config bs with
  | nil =>
    obtain rfl : bs = [] := by simpa using h
    rfl
  | cons token rest ih =>
    by_cases hn : config.numBlocks < appMaxFiringBlocks
    · have hroom : appMaxFiringBlocks-config.numBlocks =
          (appMaxFiringBlocks-(config.numBlocks+1))+1 := by omega
      rw [hroom, List.take_succ_cons, List.map_cons] at h
      cases bs with
      | nil => simp at h
      | cons b bs =>
        obtain ⟨hb, hrest⟩ := List.cons.inj h
        rw [parseBlocks_cons token rest config hn, hb]
        exact ih (config.pushBlock b) bs hrest
    · have hz : appMaxFiringBlocks-config.numBlocks = 0 := by omega
      obtain rfl : bs = [] := by simpa [hz] using h
      exact parseBlocks_full _ config hn

theorem parseBlocks_of_malformed (tokens : List CText) (config : FiringSequenceConfig)
    (t : CText) (ht : t ∈ tokens.take (appMaxFiringBlocks-config.numBlocks))
    (hd : decodeBlock t = none) : parseBlocks tokens config = none := by
  induction tokens generalizing config with
  | nil => simp at ht
  | cons token rest ih =>
    have hn : config.numBlocks < appMaxFiringBlocks := by
      by_contra hc
      rw [show appMaxFiringBlocks-config.numBlocks = 0 from by omega] at ht
      simp at ht
    rw [parseBlocks_cons token rest config hn]
    rw [show appMaxFiringBlocks-config.numBlocks =
      (appMaxFiringBlocks-(config.numBlocks+1))+1 from by omega, List.take_succ_cons] at ht
    cases hb : decodeBlock token with
    | none => rfl
    | some b =>
      rcases List.mem_cons.mp ht with rfl | hr
      · rw [hd] at hb; cases hb
      · exact ih (config.pushBlock b) hr

theorem firingSequenceParse_false (command : CText) : firingSequenceParse false command = none := by
  unfold firingSequenceParse
  cases payloadOf command with
  | none => rfl
  | some payload => exact if_neg Bool.false_ne_true

/-- The copy that could not be allocated is parsed as nothing. -/
theorem firingSequenceParse_true {strdupOk : Bool} {text : CText} {config : FiringSequenceConfig}
    (h : firingSequenceParse strdupOk text = some config) :
    firingSequenceParse true text = some config := by
  cases strdupOk with
  | true => exact h
  | false => cases (firingSequenceParse_false text).symm.trans h

theorem numBlocks_of_parse {strdupOk : Bool} {text : CText} {config : FiringSequenceConfig}
    (h : firingSequenceParse strdupOk text = some config) : config.numBlocks ≠ 0 := by
  unfold firingSequenceParse at h
  split at h
  · cases h
  split_ifs at h
  split at h
  · cases h
  split_ifs at h with hpos
  rw [← Option.some.inj h]
  exact hpos.ne'

theorem drownInjector_foldl_pushBlock (bs : List FiringBlock) (config : FiringSequenceConfig) :
    (bs.foldl FiringSequenceConfig.pushBlock config).drownInjector = config.drownInjector := by
  induction bs generalizing config with
  | nil => rfl
  | cons b bs ih => exact ih (config.pushBlock b)

theorem numBlocks_foldl_pushBlock (bs : List FiringBlock) (config : FiringSequenceConfig) :
    (bs.foldl FiringSequenceConfig.pushBlock config).numBlocks = config.numBlocks+bs.length := by
  induction bs generalizing config with
  | nil => rfl
  | cons b bs ih =>
    rw [List.foldl_cons, ih, pushBlock_numBlocks, List.length_cons]
    omega

/-- Later blocks leave the ones before them alone. -/
theorem block_foldl_pushBlock_before (bs : List FiringBlock) (config : FiringSequenceConfig) (k : ℕ)
    (hk : k < config.numBlocks) :
    (bs.foldl FiringSequenceConfig.pushBlock config).block k = config.block k := by
  induction bs generalizing config with
  | nil => rfl
  | cons b bs ih =>
    rw [List.foldl_cons, ih _ (by rw [pushBlock_numBlocks]; omega),
      block_pushBlock_other config b k (by omega)]

theorem block_foldl_pushBlock (bs : List FiringBlock) (config : FiringSequenceConfig)
    (hroom : config.numBlocks+bs.length ≤ appMaxFiringBlocks) (k : ℕ) (hk : k < bs.length) :
    (bs.foldl FiringSequenceConfig.pushBlock config).block (config.numBlocks+k) = bs[k] := by
  induction bs generalizing config k with
  | nil => simp at hk
  | cons b bs ih =>
    rw [List.length_cons] at hroom hk
    rw [List.foldl_cons]
    cases k with
    | zero =>
      rw [Nat.add_zero, block_foldl_pushBlock_before _ _ _ (by rw [pushBlock_numBlocks]; omega)]
      exact block_pushBlock_last config b (by omega)
    | succ k =>
      have hs := ih (config.pushBlock b) (by rw [pushBlock_numBlocks]; omega) k (by omega)
      rw [pushBlock_numBlocks] at hs
      rw [show config.numBlocks+(k+1) = config.numBlocks+1+k from by omega, hs]
      rfl

theorem decoded_or_malformed (tokens : List CText) :
    (∃ bs : List FiringBlock, tokens.map decodeBlock = bs.map some) ∨
      ∃ t ∈ tokens, decodeBlock t = none := by
  induction tokens with
  | nil => exact Or.inl ⟨[], rfl⟩
  | cons token rest ih =>
    cases hb : decodeBlock token with
    | none => exact Or.inr ⟨token, by simp, hb⟩
    | some b =>
      rcases ih with ⟨bs, h⟩ | ⟨t, ht, hd⟩
      · exact Or.inl ⟨b :: bs, by simp [hb, h]⟩
      · exact Or.inr ⟨t, by simp [ht], hd⟩

/-- The parser on the tokens of the command: it looks at no more of them than the
table holds. -/
theorem firingSequenceParse_eq (command : CText) (bs : List FiringBlock)
    (hne : blockTokens command ≠ [])
    (h : ((blockTokens command).take appMaxFiringBlocks).map decodeBlock = bs.map some) :
    firingSequenceParse true command =
      some (bs.foldl FiringSequenceConfig.pushBlock .zero) := by
  cases hp : payloadOf command with
  | none => simp [blockTokens, hp] at hne
  | some payload =>
    have ht : blockTokens command = Strtok.tokens '|' payload := by
      rw [Strtok.tokens_eq_splitOn, blockTokens, hp]
    have hb := parseBlocks_of_decoded (Strtok.tokens '|' payload) .zero bs (ht ▸ h)
    have hlen := congrArg List.length h
    have hpos : 0 < (blockTokens command).length := List.length_pos_of_ne_nil hne
    simp only [List.length_map, List.length_take, appMaxFiringBlocks] at hlen
    have hn := numBlocks_foldl_pushBlock bs .zero
    rw [show FiringSequenceConfig.zero.numBlocks = 0 from rfl] at hn
    simp only [firingSequenceParse, hp, hb, ↓reduceIte]
    rw [if_pos (by omega)]

theorem firingSequenceParse_malformed (strdupOk : Bool) (command : CText) (t : CText)
    (ht : t ∈ (blockTokens command).take appMaxFiringBlocks) (hd : decodeBlock t = none) :
    firingSequenceParse strdupOk command = none := by
  cases hp : payloadOf command with
  | none => simp [firingSequenceParse, hp]
  | some payload =>
    have he : blockTokens command = Strtok.tokens '|' payload := by
      rw [Strtok.tokens_eq_splitOn, blockTokens, hp]
    have hb := parseBlocks_of_malformed (Strtok.tokens '|' payload) .zero t (he ▸ ht) hd
    cases strdupOk <;> simp [firingSequenceParse, hp, hb]

theorem firingSequenceParse_no_tokens (strdupOk : Bool) (command : CText)
    (h : blockTokens command = []) : firingSequenceParse strdupOk command = none := by
  cases hp : payloadOf command with
  | none => simp [firingSequenceParse, hp]
  | some payload =>
    have he : Strtok.tokens '|' payload = [] := by
      rw [Strtok.tokens_eq_splitOn]
      simpa only [blockTokens, hp] using h
    cases strdupOk <;> simp [firingSequenceParse, hp, he, parseBlocks, FiringSequenceConfig.zero]

/-- No block is dropped: what the parser accepts is the whole list of tokens, each
decoded into its place, and it refuses a list that is too long or has a malformed
token anywhere. -/
def NoBlockDropped (strdupOk : Bool) (command : CText) : Prop :=
  (∀ config, firingSequenceParse strdupOk command = some config →
    config.numBlocks = (blockTokens command).length ∧
    ∀ k (hk : k < (blockTokens command).length),
      decodeBlock (blockTokens command)[k] = some (config.block k)) ∧
  (appMaxFiringBlocks < (blockTokens command).length ∨
    (∃ t ∈ blockTokens command, decodeBlock t = none) →
      firingSequenceParse strdupOk command = none)

theorem noBlockDropped_of_refused (strdupOk : Bool) (command : CText)
    (h : firingSequenceParse strdupOk command = none) : NoBlockDropped strdupOk command := by
  refine ⟨?_, fun _ => h⟩
  intro config hc
  rw [h] at hc
  cases hc

/-- Nothing is dropped of a text whose blocks are well formed and fit the table. -/
theorem noBlockDropped_of_decoded {command : CText} {bs : List FiringBlock}
    (hshort : (blockTokens command).length ≤ appMaxFiringBlocks)
    (hne : blockTokens command ≠ [])
    (hbs : (blockTokens command).map decodeBlock = bs.map some) : NoBlockDropped true command := by
  have htake : (blockTokens command).take appMaxFiringBlocks = blockTokens command :=
    List.take_of_length_le hshort
  have hlen : (blockTokens command).length = bs.length := by
    simpa only [List.length_map] using congrArg List.length hbs
  have hp := firingSequenceParse_eq command bs hne (by rw [htake, hbs])
  constructor
  · intro config hc
    obtain rfl := Option.some.inj (hp.symm.trans hc)
    constructor
    · rw [numBlocks_foldl_pushBlock, hlen]
      exact Nat.zero_add _
    · intro k hk
      have hblock := block_foldl_pushBlock bs .zero
        (by rw [← hlen]; exact (Nat.zero_add _).trans_le hshort) k (hlen ▸ hk)
      rw [show FiringSequenceConfig.zero.numBlocks + k = k from Nat.zero_add k] at hblock
      rw [hblock]
      have hget := congrArg (fun l => l[k]?) hbs
      simpa [List.getElem?_eq_getElem hk,
        List.getElem?_eq_getElem (show k < bs.length from hlen ▸ hk)] using hget
  · intro hbad
    rcases hbad with hlong | ⟨t, ht, hd⟩
    · omega
    · rw [← htake] at ht
      exact firingSequenceParse_malformed true command t ht hd

/-- The parser drops a block exactly where the first tokens fill the table, all well
formed, and more tokens follow. -/
theorem noBlockDropped_iff (strdupOk : Bool) (command : CText) :
    NoBlockDropped strdupOk command ↔
      strdupOk = false ∨ (blockTokens command).length ≤ appMaxFiringBlocks ∨
        ∃ t ∈ (blockTokens command).take appMaxFiringBlocks, decodeBlock t = none := by
  constructor
  · rintro ⟨-, hrefuse⟩
    cases strdupOk with
    | false => exact Or.inl rfl
    | true =>
      refine Or.inr ?_
      by_contra hc
      obtain ⟨hlong, hgood⟩ := not_or.mp hc
      rcases decoded_or_malformed ((blockTokens command).take appMaxFiringBlocks) with
        ⟨bs, hbs⟩ | hbad
      · have hne : blockTokens command ≠ [] := by
          intro h
          rw [h] at hlong
          exact hlong (Nat.zero_le _)
        have hnone := hrefuse (Or.inl (by omega))
        rw [firingSequenceParse_eq command bs hne hbs] at hnone
        cases hnone
      · exact hgood hbad
  · intro h
    cases strdupOk with
    | false =>
      apply noBlockDropped_of_refused
      cases hp : payloadOf command <;> simp [firingSequenceParse, hp]
    | true =>
      rcases h with h | hshort | ⟨t, ht, hd⟩
      · cases h
      · have htake : (blockTokens command).take appMaxFiringBlocks = blockTokens command :=
          List.take_of_length_le hshort
        rcases decoded_or_malformed (blockTokens command) with ⟨bs, hbs⟩ | ⟨t, ht, hd⟩
        · by_cases hne : blockTokens command = []
          · exact noBlockDropped_of_refused true command
              (firingSequenceParse_no_tokens true command hne)
          · exact noBlockDropped_of_decoded hshort hne hbs
        · exact noBlockDropped_of_refused true command
            (firingSequenceParse_malformed true command t (htake.symm ▸ ht) hd)
      · exact noBlockDropped_of_refused true command
          (firingSequenceParse_malformed true command t ht hd)

/-- Twenty-five blocks: one more than the table holds. -/
def longFireCommand : CText :=
  "FIRE#8765".toList ++ (List.replicate 25 "|101#0032#100".toList).flatten

theorem long_fire_command_drops_block : ¬ NoBlockDropped true longFireCommand := by
  intro h
  have hnone := h.2 (Or.inl (by decide))
  have hsome : (firingSequenceParse true longFireCommand).isSome = true := by decide +kernel
  rw [hnone] at hsome
  cases hsome

/-! ### What the parser returns -/

/-- The blocks stored so far fit in the table, and each has an id that may be sent. -/
structure FiringSequenceConfig.Filled (config : FiringSequenceConfig) : Prop where
  room : config.numBlocks ≤ appMaxFiringBlocks
  ids : ∀ k, k < config.numBlocks →
    1 ≤ readAt 0 config.ids k ∧ readAt 0 config.ids k ≤ 0x7FF

/-- A configuration that the worker can run on. -/
structure FiringSequenceConfig.WellFormed (config : FiringSequenceConfig) : Prop
    extends config.Filled where
  nonempty : 1 ≤ config.numBlocks

theorem filled_zero : FiringSequenceConfig.zero.Filled :=
  ⟨Nat.zero_le _, fun k hk => absurd hk (Nat.not_lt_zero k)⟩

theorem one_le_of_ne_zero {id : UInt32} (h : id ≠ 0) : 1 ≤ id := by
  rw [UInt32.le_iff_toNat_le]
  apply Nat.one_le_iff_ne_zero.mpr
  intro hzero
  exact h (UInt32.toNat_inj.mp hzero)

theorem decodeBlock_id {token : CText} {b : FiringBlock} (h : decodeBlock token = some b) :
    1 ≤ b.id ∧ b.id ≤ 0x7FF := by
  unfold decodeBlock at h
  split at h
  · cases h
  · split_ifs at h with hid
    rw [← Option.some.inj h]
    push Not at hid
    exact ⟨one_le_of_ne_zero hid.1, UInt32.not_lt.mp hid.2⟩

theorem FiringSequenceConfig.Filled.pushBlock {config : FiringSequenceConfig}
    (h : config.Filled) (hroom : config.numBlocks < appMaxFiringBlocks) {b : FiringBlock}
    (hb : 1 ≤ b.id ∧ b.id ≤ 0x7FF) : (config.pushBlock b).Filled := by
  constructor
  · exact hroom
  · intro k hk
    rw [pushBlock_numBlocks] at hk
    by_cases hlast : k = config.numBlocks
    · have hid := congrArg FiringBlock.id (block_pushBlock_last config b hroom)
      rw [← hlast] at hid
      change 1 ≤ ((config.pushBlock b).block k).id ∧ ((config.pushBlock b).block k).id ≤ 0x7FF
      rw [hid]
      exact hb
    · have hid := congrArg FiringBlock.id (block_pushBlock_other config b k hlast)
      change 1 ≤ ((config.pushBlock b).block k).id ∧ ((config.pushBlock b).block k).id ≤ 0x7FF
      rw [hid]
      exact h.ids k (by omega)

theorem parseBlocks_filled {tokens : List CText} {config config' : FiringSequenceConfig}
    (hc : config.Filled) (h : parseBlocks tokens config = some config') : config'.Filled := by
  induction tokens generalizing config with
  | nil => exact Option.some.inj h ▸ hc
  | cons token rest ih =>
    by_cases hroom : config.numBlocks < appMaxFiringBlocks
    · rw [parseBlocks_cons token rest config hroom] at h
      cases hb : decodeBlock token with
      | none =>
        rw [hb] at h
        cases h
      | some b =>
        rw [hb] at h
        exact ih (hc.pushBlock hroom (decodeBlock_id hb)) h
    · rw [parseBlocks_full _ config hroom] at h
      exact Option.some.inj h ▸ hc

theorem wellFormed_of_parse {strdupOk : Bool} {text : CText} {config : FiringSequenceConfig}
    (h : firingSequenceParse strdupOk text = some config) : config.WellFormed := by
  have hpositive := numBlocks_of_parse h
  unfold firingSequenceParse at h
  split at h
  · cases h
  · split_ifs at h
    split at h
    · cases h
    · rename_i hparse
      split_ifs at h
      obtain rfl := Option.some.inj h
      exact ⟨parseBlocks_filled filled_zero hparse, Nat.one_le_iff_ne_zero.mpr hpositive⟩

end WsServer
