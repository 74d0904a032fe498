import WsServer.Base.ScanfMatch
import WsServer.BlockParse

/-! The grammar of the block list, and that the two `sscanf` attempts of
`firing_sequence_parse` read exactly its tokens. -/
namespace WsServer
open Scanf

/-- What the numerals of a token are converted to. -/
def FiringBlock.ofNumerals (id value durationMs waitMs : Int) : FiringBlock where
  id := (strtoul id).toUInt32
  value := (strtoul value).toUInt16
  durationMs := (strtoul durationMs).toUInt16
  waitMs := (strtoul waitMs).toUInt16

/-- The tokens `id#value#duration` and `id#value#duration#wait`, and the blocks that they
stand for. -/
inductive BlockText : CText → FiringBlock → Prop where
  | bare {i v d : CText} {id value durationMs : Int} (hi : IsNumeral 16 i id)
      (hv : IsNumeral 16 v value) (hd : IsNumeral 10 d durationMs) :
      BlockText (i ++ '#' :: (v ++ '#' :: d)) (.ofNumerals id value durationMs 0)
  | waiting {i v d w : CText} {id value durationMs waitMs : Int} (hi : IsNumeral 16 i id)
      (hv : IsNumeral 16 v value) (hd : IsNumeral 10 d durationMs) (hw : IsNumeral 10 w waitMs) :
      BlockText (i ++ '#' :: (v ++ '#' :: (d ++ '#' :: w)))
        (.ofNumerals id value durationMs waitMs)

def bareFormat : List Directive :=
  [.num 16 .int, .lit '#', .num 16 .short, .lit '#'] ++ [.num 10 .short]

def waitingFormat : List Directive :=
  [.num 16 .int, .lit '#', .num 16 .short, .lit '#', .num 10 .short, .lit '#'] ++ [.num 10 .short]

/-! ### The formats and the grammar -/

theorem scanAll_bare_iff {token : CText} {items : List Item} :
    scanAll bareFormat token = some (items, []) ↔
      ∃ i v d id value durationMs, token = i ++ '#' :: (v ++ '#' :: d) ∧
        IsNumeral 16 i id ∧ IsNumeral 16 v value ∧ IsNumeral 10 d durationMs ∧
        items = [.num .int id, .num .short value, .num .short durationMs] := by
  have hsep : IsSeparator '#' := by decide
  simp only [bareFormat, List.cons_append, List.nil_append,
    scanAll_field_iff (le_refl 16) hsep, scanAll_last_iff (show 10 ≤ 16 by decide)]
  constructor
  · rintro ⟨i, _, id, _, rfl, hi, ⟨v, d, value, _, rfl, hv, ⟨durationMs, hd, rfl⟩, rfl⟩, rfl⟩
    exact ⟨i, v, d, id, value, durationMs, rfl, hi, hv, hd, rfl⟩
  · rintro ⟨i, v, d, id, value, durationMs, rfl, hi, hv, hd, rfl⟩
    exact ⟨i, _, id, _, rfl, hi, ⟨v, d, value, _, rfl, hv, ⟨durationMs, hd, rfl⟩, rfl⟩, rfl⟩

theorem scanAll_waiting_iff {token : CText} {items : List Item} :
    scanAll waitingFormat token = some (items, []) ↔
      ∃ i v d w id value durationMs waitMs,
        token = i ++ '#' :: (v ++ '#' :: (d ++ '#' :: w)) ∧
        IsNumeral 16 i id ∧ IsNumeral 16 v value ∧ IsNumeral 10 d durationMs ∧
        IsNumeral 10 w waitMs ∧
        items = [.num .int id, .num .short value, .num .short durationMs, .num .short waitMs] := by
  have hsep : IsSeparator '#' := by decide
  simp only [waitingFormat, List.cons_append, List.nil_append,
    scanAll_field_iff (le_refl 16) hsep, scanAll_field_iff (show 10 ≤ 16 by decide) hsep,
    scanAll_last_iff (show 10 ≤ 16 by decide)]
  constructor
  · rintro ⟨i, _, id, _, rfl, hi, ⟨v, _, value, _, rfl, hv, ⟨d, w, durationMs, _, rfl, hd,
      ⟨waitMs, hw, rfl⟩, rfl⟩, rfl⟩, rfl⟩
    exact ⟨i, v, d, w, id, value, durationMs, waitMs, rfl, hi, hv, hd, hw, rfl⟩
  · rintro ⟨i, v, d, w, id, value, durationMs, waitMs, rfl, hi, hv, hd, hw, rfl⟩
    exact ⟨i, _, id, _, rfl, hi, ⟨v, _, value, _, rfl, hv, ⟨d, w, durationMs, _, rfl, hd,
      ⟨waitMs, hw, rfl⟩, rfl⟩, rfl⟩, rfl⟩

/-! ### The two attempts -/

/-- The attempt with a wait field takes a token that has one. -/
theorem scanBlock_waiting {token : CText} {id value durationMs waitMs : Int}
    (h : scanAll waitingFormat token =
      some ([.num .int id, .num .short value, .num .short durationMs, .num .short waitMs], [])) :
    scanBlock token = some (.ofNumerals id value durationMs waitMs) := by
  have hitems := (scanItems_char_iff rfl).mpr h
  change scanItems [.num 16 .int, .lit '#', .num 16 .short, .lit '#', .num 10 .short,
    .lit '#', .num 10 .short, .char] token = _ at hitems
  simp only [scanBlock, sscanf, hitems, List.map_cons, List.map_nil, Item.store]
  rfl

/-- On a token without a wait field the first attempt stops behind the duration. -/
theorem scanBlock_bare {token : CText} {id value durationMs : Int}
    (h : scanAll bareFormat token =
      some ([.num .int id, .num .short value, .num .short durationMs], [])) :
    scanBlock token = some (.ofNumerals id value durationMs 0) := by
  have hfirst := (scanItems_append h [.lit '#', .num 10 .short, .char]).2
  have hitems := (scanItems_char_iff rfl).mpr h
  change scanItems [.num 16 .int, .lit '#', .num 16 .short, .lit '#', .num 10 .short,
    .lit '#', .num 10 .short, .char] token = _ at hfirst
  change scanItems [.num 16 .int, .lit '#', .num 16 .short, .lit '#', .num 10 .short,
    .char] token = _ at hitems
  simp only [scanBlock, sscanf, hfirst, hitems, List.map_cons, List.map_nil, Item.store]
  rfl

/-- Whatever an attempt takes has no text left behind it. -/
theorem scanBlock_sound {token : CText} {b : FiringBlock} (h : scanBlock token = some b) :
    BlockText token b := by
  unfold scanBlock sscanf at h
  split at h
  · rename_i hitems
    obtain rfl := Option.some.inj h
    simp only [List.map_eq_cons_iff, List.map_eq_nil_iff, store_eq_int, store_eq_short] at hitems
    obtain ⟨_, _, hitems, ⟨id, rfl, rfl⟩, _, _, rfl, ⟨value, rfl, rfl⟩, _, _, rfl,
      ⟨durationMs, rfl, rfl⟩, _, _, rfl, ⟨waitMs, rfl, rfl⟩, rfl⟩ := hitems
    have hall := (@scanItems_char_iff [.num 16 .int, .lit '#', .num 16 .short, .lit '#',
      .num 10 .short, .lit '#'] 10 .short _ _ rfl).mp hitems
    obtain ⟨i, v, d, w, _, _, _, _, rfl, hi, hv, hd, hw, hsame⟩ := scanAll_waiting_iff.mp hall
    simp only [List.cons.injEq, Item.num.injEq, true_and, and_true] at hsame
    obtain ⟨rfl, rfl, rfl, rfl⟩ := hsame
    exact .waiting hi hv hd hw
  · split at h
    · rename_i hitems
      obtain rfl := Option.some.inj h
      simp only [List.map_eq_cons_iff, List.map_eq_nil_iff, store_eq_int, store_eq_short]
        at hitems
      obtain ⟨_, _, hitems, ⟨id, rfl, rfl⟩, _, _, rfl, ⟨value, rfl, rfl⟩, _, _, rfl,
        ⟨durationMs, rfl, rfl⟩, rfl⟩ := hitems
      have hall := (@scanItems_char_iff [.num 16 .int, .lit '#', .num 16 .short, .lit '#']
        10 .short _ _ rfl).mp hitems
      obtain ⟨i, v, d, _, _, _, rfl, hi, hv, hd, hsame⟩ := scanAll_bare_iff.mp hall
      simp only [List.cons.injEq, Item.num.injEq, true_and, and_true] at hsame
      obtain ⟨rfl, rfl, rfl⟩ := hsame
      exact .bare hi hv hd
    · cases h

theorem scanBlock_iff {token : CText} {b : FiringBlock} :
    scanBlock token = some b ↔ BlockText token b := by
  constructor
  · exact scanBlock_sound
  · intro h
    cases h with
    | bare hi hv hd =>
      exact scanBlock_bare (scanAll_bare_iff.mpr ⟨_, _, _, _, _, _, rfl, hi, hv, hd, rfl⟩)
    | waiting hi hv hd hw =>
      exact scanBlock_waiting
        (scanAll_waiting_iff.mpr ⟨_, _, _, _, _, _, _, _, rfl, hi, hv, hd, hw, rfl⟩)

theorem decodeBlock_eq_some {token : CText} {b : FiringBlock} :
    decodeBlock token = some b ↔ BlockText token b ∧ 1 ≤ b.id ∧ b.id ≤ 0x7FF := by
  have hid : ∀ id : UInt32, ¬ (id = 0 ∨ id > 0x7FF) ↔ 1 ≤ id ∧ id ≤ 0x7FF := by
    intro id
    rw [not_or, ← UInt32.not_lt, UInt32.lt_iff_toNat_lt, ← UInt32.toNat_inj,
      UInt32.not_lt]
    exact and_congr_left' (by
      change ¬ id.toNat = 0 ↔ ¬ id.toNat < 1
      omega)
  unfold decodeBlock
  cases hscan : scanBlock token with
  | none =>
    refine iff_of_false nofun ?_
    rintro ⟨hb, -⟩
    cases hscan.symm.trans (scanBlock_iff.mpr hb)
  | some b' =>
    dsimp only
    split_ifs with hbad
    · refine iff_of_false nofun ?_
      rintro ⟨hb, hrange⟩
      obtain rfl := Option.some.inj (hscan.symm.trans (scanBlock_iff.mpr hb))
      exact (hid _).mpr hrange hbad
    · constructor
      · intro h
        obtain rfl := Option.some.inj h
        exact ⟨scanBlock_iff.mp hscan, (hid _).mp hbad⟩
      · rintro ⟨hb, -⟩
        exact hscan.symm.trans (scanBlock_iff.mpr hb)

/-! ### The parser -/

/-- Blocks leave the entries behind them alone. -/
theorem block_foldl_pushBlock_behind (bs : List FiringBlock) (config : FiringSequenceConfig)
    (k : ℕ) (hk : config.numBlocks+bs.length ≤ k) :
    (bs.foldl FiringSequenceConfig.pushBlock config).block k = config.block k := by
  induction bs generalizing config with
  | nil => rfl
  | cons b bs ih =>
    rw [List.length_cons] at hk
    rw [List.foldl_cons, ih _ (by rw [pushBlock_numBlocks]; omega),
      block_pushBlock_other config b k (by omega)]

theorem bar_mem_of_blockTokens {command : CText} (h : blockTokens command ≠ []) :
    '|' ∈ command := by
  by_contra hbar
  have hdrop : command.dropWhile (· != '|') = [] := by
    rw [List.dropWhile_eq_nil_iff]
    intro c hc
    exact bne_iff_ne.mpr (fun h => hbar (h ▸ hc))
  exact h (by simp only [blockTokens, payloadOf, hdrop])

/-- The grammar of a command with blocks: a bar, and behind it at least one token, each a
block with an id in range. -/
def InBlockGrammar (command : CText) : Prop :=
  '|' ∈ command ∧ blockTokens command ≠ [] ∧
    ∀ token ∈ blockTokens command, ∃ b, BlockText token b ∧ 1 ≤ b.id ∧ b.id ≤ 0x7FF

/-- What the configuration holds: the blocks of the tokens in order, and nothing else. -/
structure HoldsBlocks (config : FiringSequenceConfig) (tokens : List CText) : Prop where
  numBlocks : config.numBlocks = tokens.length
  block : ∀ k (hk : k < tokens.length), BlockText tokens[k] (config.block k)
  unused : ∀ k, tokens.length ≤ k → config.block k = ⟨0, 0, 0, 0⟩
  drownInjector : config.drownInjector = false

theorem holdsBlocks_of_decoded {tokens : List CText} {bs : List FiringBlock}
    (h : tokens.map decodeBlock = bs.map some) (hroom : tokens.length ≤ appMaxFiringBlocks) :
    HoldsBlocks (bs.foldl FiringSequenceConfig.pushBlock .zero) tokens := by
  have hlength : tokens.length = bs.length := by
    simpa only [List.length_map] using congrArg List.length h
  have hzero : FiringSequenceConfig.zero.numBlocks = 0 := rfl
  refine ⟨?_, ?_, ?_, drownInjector_foldl_pushBlock bs .zero⟩
  · rw [numBlocks_foldl_pushBlock, hzero, Nat.zero_add, hlength]
  · intro k hk
    have hblock := block_foldl_pushBlock bs .zero
      (by rw [hzero, Nat.zero_add, ← hlength]; exact hroom) k (hlength ▸ hk)
    rw [hzero, Nat.zero_add] at hblock
    have hget := congrArg (fun l => l[k]?) h
    have hdecode : decodeBlock tokens[k] = some bs[k] := by
      simpa [List.getElem?_eq_getElem hk,
        List.getElem?_eq_getElem (show k < bs.length from hlength ▸ hk)] using hget
    rw [hblock]
    exact (decodeBlock_eq_some.mp hdecode).1
  · intro k hk
    rw [block_foldl_pushBlock_behind bs .zero k (by rw [hzero, Nat.zero_add, ← hlength]; exact hk)]
    simp [FiringSequenceConfig.block, FiringSequenceConfig.zero, readAt]

/-- On a text with no more tokens than the table holds, the parser accepts exactly the
block grammar, given memory for its copy, and stores what the tokens stand for. -/
theorem firing_sequence_parse_grammar (strdupOk : Bool) (command : CText)
    (hlength : (blockTokens command).length ≤ appMaxFiringBlocks) :
    ((firingSequenceParse strdupOk command).isSome ↔ strdupOk = true ∧ InBlockGrammar command) ∧
    ∀ config, firingSequenceParse strdupOk command = some config →
      HoldsBlocks config (blockTokens command) := by
  have htake : (blockTokens command).take appMaxFiringBlocks = blockTokens command :=
    List.take_of_length_le hlength
  -- nothing is claimed of the blocks where the text is refused
  have hrefused (h : firingSequenceParse strdupOk command = none)
      (hbad : ¬ (strdupOk = true ∧ InBlockGrammar command)) :
      ((firingSequenceParse strdupOk command).isSome ↔
        strdupOk = true ∧ InBlockGrammar command) ∧
      ∀ config, firingSequenceParse strdupOk command = some config →
        HoldsBlocks config (blockTokens command) := by
    rw [h]
    exact ⟨iff_of_false Bool.false_ne_true hbad, nofun⟩
  cases strdupOk with
  | false =>
    exact hrefused (firingSequenceParse_false command) (fun h => Bool.false_ne_true h.1)
  | true =>
    by_cases hne : blockTokens command = []
    · exact hrefused (firingSequenceParse_no_tokens true command hne) (fun h => h.2.2.1 hne)
    · rcases decoded_or_malformed (blockTokens command) with ⟨bs, hbs⟩ | ⟨t, ht, hd⟩
      · have hparse := firingSequenceParse_eq command bs hne (by rw [htake, hbs])
        have hgood : ∀ token ∈ blockTokens command,
            ∃ b, BlockText token b ∧ 1 ≤ b.id ∧ b.id ≤ 0x7FF := by
          intro token htoken
          have hmem : decodeBlock token ∈ bs.map some :=
            hbs ▸ List.mem_map_of_mem htoken
          obtain ⟨b, -, hb⟩ := List.mem_map.mp hmem
          exact ⟨b, decodeBlock_eq_some.mp hb.symm⟩
        rw [hparse]
        refine ⟨iff_of_true rfl ⟨rfl, bar_mem_of_blockTokens hne, hne, hgood⟩, ?_⟩
        intro config hconfig
        obtain rfl := Option.some.inj hconfig
        exact holdsBlocks_of_decoded hbs hlength
      · refine hrefused (firingSequenceParse_malformed true command t (htake.symm ▸ ht) hd) ?_
        rintro ⟨-, -, -, hgood⟩
        obtain ⟨b, hb⟩ := hgood t ht
        cases hd.symm.trans (decodeBlock_eq_some.mpr hb)

/-- Two blocks, one with a wait. -/
theorem firing_sequence_parse_grammar_two :
    (firingSequenceParse true "FIRE#8765|101#0032#100#50|102#20#80".toList).isSome ∧
      ∀ config, firingSequenceParse true "FIRE#8765|101#0032#100#50|102#20#80".toList =
        some config → HoldsBlocks config ["101#0032#100#50".toList, "102#20#80".toList] := by
  have htokens : blockTokens "FIRE#8765|101#0032#100#50|102#20#80".toList =
      ["101#0032#100#50".toList, "102#20#80".toList] := by decide
  have hgrammar := firing_sequence_parse_grammar true
    "FIRE#8765|101#0032#100#50|102#20#80".toList (by rw [htokens]; decide)
  refine ⟨by decide, ?_⟩
  rw [← htokens]
  exact hgrammar.2

end WsServer
