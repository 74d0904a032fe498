import WsServer.BlockParse
import WsServer.CanUpdates
import WsServer.Command

/-! The messages that list the blocks of a sequence, built in a local buffer by one
`snprintf` after the other: each call stays in the buffer, and the text is cut off where
the buffer ends and nowhere else. -/
namespace WsServer
open Printf

/-- A call of `snprintf` on a local buffer: where it writes, the size that it is given,
and what the format comes to. -/
structure SnprintfCall where
  offset : Int32
  size : UInt64
  text : CText
  deriving DecidableEq, Repr

/-- A local buffer, the `len` beside it, and the calls that have been made on it. -/
structure MessageBuffer where
  memory : ℕ → Char
  len : Int32
  calls : List SnprintfCall

/-- `len = snprintf(buffer + offset, size, ...)` on top of the offset: the call returns
the length of the whole text, whatever fits of it. -/
def MessageBuffer.write (b : MessageBuffer) (offset : Int32) (size : UInt64) (text : CText) :
    MessageBuffer where
  memory := snprintfAt b.memory offset.toInt.toNat size.toNat text
  len := offset + Int32.ofNat text.length
  calls := b.calls ++ [⟨offset, size, text⟩]

/-- `(size_t)len` -/
def MessageBuffer.sizeLen (b : MessageBuffer) : UInt64 := UInt64.ofInt b.len.toInt

/-- The guard of the loops. -/
def MessageBuffer.HasRoom (size : UInt64) (b : MessageBuffer) : Prop :=
  b.len > 0 ∧ b.sizeLen < size

instance (size : UInt64) (b : MessageBuffer) : Decidable (b.HasRoom size) := by
  unfold MessageBuffer.HasRoom
  infer_instance

/-- `len += snprintf(buffer + len, sizeof(buffer) - (size_t)len, ...)` -/
def MessageBuffer.append (size : UInt64) (b : MessageBuffer) (text : CText) : MessageBuffer :=
  b.write b.len (size - b.sizeLen) text

def blockEntry (opening : String) (config : FiringSequenceConfig) (i : ℕ) : CText :=
  ((if i = 0 then opening else ", ") ++ formatCanCommand (config.command i)).toList

/-- The loop over the blocks. -/
def appendEntries (size : UInt64) (opening : String) (config : FiringSequenceConfig) :
    List ℕ → MessageBuffer → MessageBuffer
  | [], b => b
  | i :: is, b =>
    if b.HasRoom size then
      appendEntries size opening config is (b.append size (blockEntry opening config i))
    else b

def startedHead (config : FiringSequenceConfig) : CText :=
  ("Firing sequence started with " ++ toString config.numBlocks ++ " blocks").toList

/-- `started` in `handle_fire`; the buffer holds anything before. -/
def startedBuffer (memory : ℕ → Char) (config : FiringSequenceConfig) : MessageBuffer :=
  let b : MessageBuffer := ⟨memory, 0, []⟩
  appendEntries 256 ": " config (List.range config.numBlocks)
    (b.write 0 256 (startedHead config))

def testingHead (config : FiringSequenceConfig) : CText :=
  ("TESTING parsed FIRE: " ++ toString config.numBlocks ++ " block(s)").toList

/-- `msg` in `handle_testing_fire` -/
def testingFireBuffer (memory : ℕ → Char) (config : FiringSequenceConfig) : MessageBuffer :=
  let b : MessageBuffer := ⟨memory, 0, []⟩
  let b := appendEntries 512 " (" config (List.range config.numBlocks)
    (b.write 0 512 (testingHead config))
  if b.HasRoom 512 then b.append 512 ")".toList else b

/-! ### What the messages are meant to say -/

/-- All blocks in order, with commas between them. -/
def blockList (config : FiringSequenceConfig) : CText :=
  List.intercalate ", ".toList
    ((List.range config.numBlocks).map (fun i => (formatCanCommand (config.command i)).toList))

def completeStarted (config : FiringSequenceConfig) : CText :=
  startedHead config ++ (": ".toList ++ blockList config)

def completeTesting (config : FiringSequenceConfig) : CText :=
  testingHead config ++ (" (".toList ++ blockList config) ++ ")".toList

/-- The call writes at a place in the buffer, with a size that is what is left from there
to its end. -/
structure SnprintfCall.InBounds (size : ℕ) (call : SnprintfCall) : Prop where
  start : 0 ≤ call.offset.toInt
  inside : call.offset.toInt < size
  left : (call.size.toNat : Int) = size - call.offset.toInt
  positive : 0 < call.size

/-! ### One call -/

/-- The buffer stands for the text `s`, which may be longer than what fits. -/
structure MessageBuffer.Builds (size : UInt64) (b : MessageBuffer) (s : CText) : Prop where
  len : b.len.toInt = s.length
  nonempty : 0 < s.length
  text : Accumulates size.toNat b.memory s
  calls : ∀ call ∈ b.calls, call.InBounds size.toNat

theorem toInt_add_ofNat {len : Int32} {n m : ℕ} (hlen : len.toInt = n) (hsum : n + m < 2^31) :
    (len + Int32.ofNat m).toInt = n + m := by
  have hm : (Int32.ofNat m).toInt = m := Int32.toInt_ofNat_of_lt (by omega)
  rw [Int32.toInt_add, hlen, hm]
  apply Int.bmod_eq_of_le <;> omega

theorem toNat_sizeLen {b : MessageBuffer} {n : ℕ} (hlen : b.len.toInt = n) (hn : n < 2^31) :
    b.sizeLen.toNat = n := by
  unfold MessageBuffer.sizeLen UInt64.ofInt
  rw [hlen, UInt64.toNat_ofNat']
  omega

section
variable {size : UInt64} {b : MessageBuffer} {s : CText}

theorem inBounds_call {offset : Int32} {n : ℕ} (hoffset : offset.toInt = n) {left : UInt64}
    (hleft : left.toNat = size.toNat - n) (hroom : n < size.toNat) (text : CText) :
    SnprintfCall.InBounds size.toNat ⟨offset, left, text⟩ := by
  constructor
  · rw [hoffset]
    omega
  · rw [hoffset]
    omega
  · rw [hoffset, hleft]
    omega
  · rw [UInt64.lt_iff_toNat_lt, hleft, UInt64.toNat_zero]
    omega

/-- The guard asks whether the text is still shorter than the buffer. -/
theorem hasRoom_iff (hb : b.Builds size s) (hs : s.length < 2^31) :
    b.HasRoom size ↔ s.length < size.toNat := by
  unfold MessageBuffer.HasRoom
  rw [gt_iff_lt, Int32.lt_iff_toInt_lt, hb.len, UInt64.lt_iff_toNat_lt, toNat_sizeLen hb.len hs]
  have hpos := hb.nonempty
  have hzero : (0 : Int32).toInt = 0 := rfl
  omega

/-- The first call, at the beginning of the buffer. -/
theorem builds_first (memory : ℕ → Char) {text : CText} (hsize : 0 < size.toNat)
    (hpos : 0 < text.length) (htext : text.length < 2^31) :
    ((⟨memory, 0, []⟩ : MessageBuffer).write 0 size text).Builds size text := by
  have hzero : (0 : Int32).toInt = 0 := rfl
  constructor
  · have hlen : ((0 : Int32) + Int32.ofNat text.length).toInt = (0 : ℕ) + text.length :=
      toInt_add_ofNat hzero (by omega)
    rw [MessageBuffer.write, hlen]
    omega
  · exact hpos
  · exact (holds_nil memory).accumulate (s := []) hsize text
  · intro call hcall
    obtain rfl := List.mem_singleton.mp hcall
    exact inBounds_call hzero (Nat.sub_zero _).symm hsize text

theorem MessageBuffer.Builds.append (hb : b.Builds size s) (hroom : s.length < size.toNat)
    (text : CText) (hshort : size.toNat + text.length < 2^31) :
    (b.append size text).Builds size (s ++ text) := by
  have hsizeLen := toNat_sizeLen hb.len (by omega)
  have hleft : (size - b.sizeLen).toNat = size.toNat - s.length := by
    rw [UInt64.toNat_sub_of_le, hsizeLen]
    rw [UInt64.le_iff_toNat_le, hsizeLen]
    omega
  constructor
  · rw [MessageBuffer.append, MessageBuffer.write, toInt_add_ofNat hb.len (by omega),
      List.length_append]
    omega
  · rw [List.length_append]
    have hpos := hb.nonempty
    omega
  · rw [MessageBuffer.append, MessageBuffer.write, hb.len, hleft, Int.toNat_natCast]
    exact hb.text.append hroom text
  · rw [MessageBuffer.append, MessageBuffer.write, List.forall_mem_append]
    refine ⟨hb.calls, ?_⟩
    intro call hcall
    obtain rfl := List.mem_singleton.mp hcall
    exact inBounds_call hb.len hleft hroom text

end

/-! ### The texts -/

theorem toList_formatCanCommand (c : CanCommand) : (formatCanCommand c).toList =
    (formatIdValue c.id c.value).toList ++ '#' :: (toString c.durationMs.toNat).toList := by
  rw [formatCanCommand, String.toList_append, String.toList_append, List.append_assoc]
  rfl

theorem length_formatCanCommand (c : CanCommand) : (formatCanCommand c).toList.length ≤ 19 := by
  have hid : (hexPadded 3 c.id.toNat).toList.length ≤ 8 :=
    length_hexPadded_le (by decide) (by decide) c.id.toNat_lt
  have hvalue : (hexPadded 4 c.value.toNat).toList.length ≤ 4 :=
    length_hexPadded_le (by decide) (by decide) c.value.toNat_lt
  have hduration : (toString c.durationMs.toNat).toList.length ≤ 5 := by
    rw [Nat.toString_eq_repr, Nat.toList_repr]
    apply (Nat.length_toDigits_le_iff (by decide) (by decide)).mpr
    exact lt_of_lt_of_le c.durationMs.toNat_lt (by decide)
  rw [toList_formatCanCommand, toList_formatIdValue]
  simp only [List.length_append, List.length_cons]
  omega

theorem length_blockEntry {opening : String} (hopening : opening.toList.length ≤ 2)
    (config : FiringSequenceConfig) (i : ℕ) : (blockEntry opening config i).length ≤ 21 := by
  have hcommand := length_formatCanCommand (config.command i)
  have hcomma : ", ".toList.length = 2 := rfl
  rw [blockEntry, String.toList_append, List.length_append]
  split_ifs <;> omega

theorem nul_notMem_decimal (n : ℕ) : nul ∉ (toString n).toList := by
  intro h
  rw [Nat.toString_eq_repr, Nat.toList_repr] at h
  have hdigit := Nat.isDigit_of_mem_toDigits (by decide) (by decide) h
  cases hdigit

theorem nul_notMem_formatCanCommand (c : CanCommand) : nul ∉ (formatCanCommand c).toList := by
  rw [toList_formatCanCommand, List.mem_append, List.mem_cons, not_or, not_or]
  refine ⟨not_mem_formatIdValue (by decide) (by decide), by decide, nul_notMem_decimal _⟩

theorem nul_notMem_blockEntry {opening : String} (hopening : nul ∉ opening.toList)
    (config : FiringSequenceConfig) (i : ℕ) : nul ∉ blockEntry opening config i := by
  rw [blockEntry, String.toList_append, List.mem_append, not_or]
  refine ⟨?_, nul_notMem_formatCanCommand _⟩
  split_ifs
  · exact hopening
  · decide

/-- A text joined from pieces: each piece but the first has the separator before it. -/
theorem intercalate_cons_eq_flatMap (sep piece : CText) (pieces : List CText) :
    List.intercalate sep (piece :: pieces) = piece ++ pieces.flatMap (fun p => sep ++ p) := by
  induction pieces generalizing piece with
  | nil => rw [List.intercalate_singleton, List.flatMap_nil, List.append_nil]
  | cons next pieces ih =>
    rw [List.intercalate_cons_cons, ih next, List.flatMap_cons]
    simp only [List.append_assoc]

/-- The entries of the loop, one behind the other, are the list of the blocks. -/
theorem flatMap_blockEntry (opening : String) {config : FiringSequenceConfig}
    (hpositive : 1 ≤ config.numBlocks) :
    (List.range config.numBlocks).flatMap (blockEntry opening config) =
      opening.toList ++ blockList config := by
  obtain ⟨n, hn⟩ := Nat.exists_eq_add_of_le' hpositive
  have hfirst : blockEntry opening config 0 =
      opening.toList ++ (formatCanCommand (config.command 0)).toList := by
    rw [blockEntry, if_pos rfl, String.toList_append]
  have hlater : ∀ i, blockEntry opening config (i+1) =
      ", ".toList ++ (formatCanCommand (config.command (i+1))).toList := by
    intro i
    rw [blockEntry, if_neg (Nat.succ_ne_zero i), String.toList_append]
  rw [blockList, hn, List.range_succ_eq_map, List.flatMap_cons, List.map_cons, hfirst,
    intercalate_cons_eq_flatMap, List.append_assoc]
  simp only [List.flatMap_map, hlater, List.map_map]
  rfl

/-! ### The loop -/

/-- One turn of the loop, on the texts that stand for its buffer. -/
theorem truncated_append (capacity : ℕ) (s : CText) (piece : String) :
    String.ofList (s.take (capacity-1)) ++ truncated (capacity-s.length) piece =
      String.ofList ((s ++ piece.toList).take (capacity-1)) := by
  rw [truncated, ← String.ofList_append, List.take_append, Nat.sub_right_comm]

/-- The loop has built a text that goes on to the whole one, unless it is longer than the
buffer; the texts of the handlers are what fits of it. -/
theorem appendEntries_builds {size : UInt64} (hsize : size.toNat ≤ 512) {opening : String}
    (hopening : opening.toList.length ≤ 2) (config : FiringSequenceConfig) (is : List ℕ)
    {b : MessageBuffer} {s : CText} (hb : b.Builds size s) (hs : s.length ≤ 1024) :
    ∃ built rest, s ++ is.flatMap (blockEntry opening config) = built ++ rest ∧
      (rest = [] ∨ size.toNat ≤ built.length) ∧ built.length ≤ 1024 ∧
      (appendEntries size opening config is b).Builds size built ∧
      appendBlocks size.toNat opening config is
          (String.ofList (s.take (size.toNat-1)), s.length) =
        (String.ofList (built.take (size.toNat-1)), built.length) := by
  induction is generalizing b s with
  | nil =>
    refine ⟨s, [], rfl, Or.inl rfl, hs, hb, rfl⟩
  | cons i is ih =>
    have hguard := hasRoom_iff hb (by omega)
    have hentry := length_blockEntry hopening config i
    have hpos := hb.nonempty
    by_cases hroom : s.length < size.toNat
    · have happend := hb.append hroom (blockEntry opening config i) (by omega)
      obtain ⟨built, rest, htext, hend, hbound, hbuilds, hblocks⟩ :=
        ih happend (by rw [List.length_append]; omega)
      refine ⟨built, rest, ?_, hend, hbound, ?_, ?_⟩
      · rw [List.flatMap_cons, ← List.append_assoc]
        exact htext
      · rw [appendEntries, if_pos (hguard.mpr hroom)]
        exact hbuilds
      · rw [appendBlocks, if_pos ⟨hpos, hroom⟩]
        dsimp only
        rw [truncated_append, ← String.length_toList, ← List.length_append]
        exact hblocks
    · refine ⟨s, (i :: is).flatMap (blockEntry opening config), rfl, Or.inr (by omega), hs, ?_, ?_⟩
      · rw [appendEntries, if_neg (fun h => hroom (hguard.mp h))]
        exact hb
      · rw [appendBlocks, if_neg (fun h => hroom h.2)]

/-! ### The two messages -/

/-- What the handlers have in the buffer is the text that stands for it, cut off. -/
theorem builds_cString {size : UInt64} {b : MessageBuffer} {built rest : CText}
    (hb : b.Builds size built) (hsize : 0 < size.toNat)
    (hend : rest = [] ∨ size.toNat ≤ built.length) (hnul : nul ∉ built ++ rest) :
    cString size.toNat b.memory = (built ++ rest).take (size.toNat-1) := by
  have htext : Accumulates size.toNat b.memory (built ++ rest) := by
    rcases hend with hnil | hfull
    · rw [hnil, List.append_nil]
      exact hb.text
    · exact hb.text.full hfull rest
  exact htext.cString hsize hnul

theorem take_of_end {capacity : ℕ} {built rest : CText}
    (hend : rest = [] ∨ capacity ≤ built.length) :
    built.take (capacity-1) = (built ++ rest).take (capacity-1) := by
  rcases hend with hnil | hfull
  · rw [hnil, List.append_nil]
  · exact (List.take_append_of_le_length (by omega)).symm

theorem length_decimal_numBlocks {config : FiringSequenceConfig}
    (h : config.numBlocks ≤ appMaxFiringBlocks) : (toString config.numBlocks).toList.length ≤ 2 := by
  rw [Nat.toString_eq_repr, Nat.toList_repr]
  apply (Nat.length_toDigits_le_iff (by decide) (by decide)).mpr
  exact lt_of_le_of_lt h (by decide)

theorem nul_notMem_head (before after : String) (hbefore : nul ∉ before.toList)
    (hafter : nul ∉ after.toList) (n : ℕ) : nul ∉ (before ++ toString n ++ after).toList := by
  rw [String.toList_append, String.toList_append, List.mem_append, List.mem_append, not_or, not_or]
  exact ⟨⟨hbefore, nul_notMem_decimal n⟩, hafter⟩

section
variable {config : FiringSequenceConfig} (h : config.WellFormed) (memory : ℕ → Char)
include h

theorem head_length (before after : String) (hbefore : 0 < before.toList.length)
    (hwords : before.toList.length + after.toList.length ≤ 62) :
    0 < (before ++ toString config.numBlocks ++ after).toList.length ∧
      (before ++ toString config.numBlocks ++ after).toList.length ≤ 64 := by
  have hdecimal := length_decimal_numBlocks h.room
  rw [String.toList_append, String.toList_append, List.length_append, List.length_append]
  omega

theorem nul_notMem_listed {opening : String} (hopening : nul ∉ opening.toList) :
    nul ∉ opening.toList ++ blockList config := by
  rw [← flatMap_blockEntry opening h.nonempty, List.mem_flatMap]
  rintro ⟨i, -, hi⟩
  exact nul_notMem_blockEntry hopening config i hi

/-- A message up to the last block, from its head on. -/
theorem appendEntries_head (size : UInt64) (hsize : 0 < size.toNat ∧ size.toNat ≤ 512)
    (opening : String) (hopening : opening.toList.length ≤ 2) {head : String}
    (hhead : 0 < head.toList.length ∧ head.toList.length ≤ 64) :
    ∃ built rest, head.toList ++ (opening.toList ++ blockList config) = built ++ rest ∧
      (rest = [] ∨ size.toNat ≤ built.length) ∧ built.length ≤ 1024 ∧
      (appendEntries size opening config (List.range config.numBlocks)
        ((⟨memory, 0, []⟩ : MessageBuffer).write 0 size head.toList)).Builds size built ∧
      appendBlocks size.toNat opening config (List.range config.numBlocks)
          (truncated size.toNat head, head.length) =
        (String.ofList (built.take (size.toNat-1)), built.length) := by
  have hfirst := builds_first memory hsize.1 hhead.1 (by omega)
  have hloop := appendEntries_builds hsize.2 hopening config (List.range config.numBlocks)
    hfirst (by omega)
  rw [flatMap_blockEntry opening h.nonempty, String.length_toList] at hloop
  exact hloop

/-- The message of `handle_fire`: its buffer, and the text that the handler hands on. -/
theorem startedBuffer_spec :
    (∀ call ∈ (startedBuffer memory config).calls, call.InBounds 256) ∧
      cString 256 (startedBuffer memory config).memory = (completeStarted config).take 255 ∧
      fireStartedMessage config = String.ofList ((completeStarted config).take 255) := by
  obtain ⟨built, rest, htext, hend, -, hbuilds, hblocks⟩ :=
    appendEntries_head h memory 256 (by decide) ": " (by decide)
      (head_length h "Firing sequence started with " " blocks" (by decide) (by decide))
  have hnul : nul ∉ built ++ rest := by
    rw [← htext, List.mem_append, not_or]
    exact ⟨nul_notMem_head "Firing sequence started with " " blocks" (by decide) (by decide) _,
      nul_notMem_listed h (by decide)⟩
  have hcut : built.take 255 = (built ++ rest).take 255 := take_of_end hend
  rw [completeStarted, startedHead, htext]
  refine ⟨hbuilds.calls, builds_cString hbuilds (by decide) hend hnul, ?_⟩
  rw [← hcut]
  exact congrArg Prod.fst hblocks

/-- The message of `handle_testing_fire`, with the bracket that closes it. -/
theorem testingFireBuffer_spec :
    (∀ call ∈ (testingFireBuffer memory config).calls, call.InBounds 512) ∧
      cString 512 (testingFireBuffer memory config).memory = (completeTesting config).take 511 ∧
      testingFireMessage config = String.ofList ((completeTesting config).take 511) := by
  obtain ⟨built, rest, htext, hend, hbound, hbuilds, hblocks⟩ :=
    appendEntries_head h memory 512 (by decide) " (" (by decide)
      (head_length h "TESTING parsed FIRE: " " block(s)" (by decide) (by decide))
  have hnul : nul ∉ built ++ (rest ++ ")".toList) := by
    rw [← List.append_assoc, ← htext, List.mem_append, List.mem_append, not_or, not_or]
    exact ⟨⟨nul_notMem_head "TESTING parsed FIRE: " " block(s)" (by decide) (by decide) _,
      nul_notMem_listed h (by decide)⟩, by decide⟩
  have hguard := hasRoom_iff hbuilds (by omega)
  have hpos := hbuilds.nonempty
  have hblocks' : testingFireMessage config =
      if built.length > 0 ∧ built.length < 512 then
        String.ofList (built.take 511) ++ truncated (512-built.length) ")"
      else String.ofList (built.take 511) := by
    unfold testingFireMessage
    dsimp only
    erw [hblocks]
    rfl
  rw [completeTesting, testingHead, htext, List.append_assoc, hblocks']
  unfold testingFireBuffer testingHead
  by_cases hroom : built.length < 512
  · -- all blocks are in, and the bracket is written behind them
    have hrest : rest = [] := by
      rcases hend with hnil | hfull
      · exact hnil
      · exact absurd hroom (Nat.not_lt.mpr hfull)
    have hbracket := hbuilds.append hroom ")".toList (by decide)
    rw [hrest, List.nil_append] at hnul ⊢
    have hend' : ([] : CText) = [] ∨ 512 ≤ (built ++ ")".toList).length := Or.inl rfl
    have hbuffer := builds_cString hbracket (by decide) hend'
      (by rw [List.append_nil]; exact hnul)
    rw [List.append_nil] at hbuffer
    dsimp only
    rw [if_pos (hguard.mpr hroom), if_pos ⟨hpos, hroom⟩]
    exact ⟨hbracket.calls, hbuffer, truncated_append 512 built ")"⟩
  · have hfull : 512 ≤ built.length := Nat.not_lt.mp hroom
    have hcut : built.take 511 = (built ++ (rest ++ ")".toList)).take 511 :=
      take_of_end (Or.inr hfull)
    dsimp only
    rw [if_neg (fun hlonger => hroom (hguard.mp hlonger)), if_neg (fun hlonger => hroom hlonger.2)]
    have hbuffer := builds_cString hbuilds (by decide) (Or.inr hfull) hnul
    exact ⟨hbuilds.calls, hbuffer, congrArg String.ofList hcut⟩

end

/-- Both messages, on whatever the parser returns: no call of `snprintf` leaves its
buffer or is given a size that has wrapped, and the text is the complete message, cut off
one character before the end of the buffer. -/
theorem message_builders_in_bounds (memory : ℕ → Char) {strdupOk : Bool} {text : CText}
    {config : FiringSequenceConfig} (h : firingSequenceParse strdupOk text = some config) :
    ((∀ call ∈ (startedBuffer memory config).calls, call.InBounds 256) ∧
      cString 256 (startedBuffer memory config).memory = (completeStarted config).take 255) ∧
    (∀ call ∈ (testingFireBuffer memory config).calls, call.InBounds 512) ∧
      cString 512 (testingFireBuffer memory config).memory =
        (completeTesting config).take 511 := by
  have hconfig := wellFormed_of_parse h
  obtain ⟨hcalls, htext, -⟩ := startedBuffer_spec hconfig memory
  obtain ⟨hcalls', htext', -⟩ := testingFireBuffer_spec hconfig memory
  exact ⟨⟨hcalls, htext⟩, hcalls', htext'⟩

/-- A command of 24 blocks: their list is longer than the buffer of `handle_fire`. -/
def fullFireCommand : CText :=
  "FIRE#8765".toList ++ (List.replicate 24 "|101#0032#100".toList).flatten

theorem message_builders_in_bounds_full :
    (firingSequenceParse true fullFireCommand).isSome = true ∧
    ∀ config, firingSequenceParse true fullFireCommand = some config →
      ((∀ call ∈ (startedBuffer (fun _ => 'x') config).calls, call.InBounds 256) ∧
        cString 256 (startedBuffer (fun _ => 'x') config).memory =
          (completeStarted config).take 255) ∧
      (∀ call ∈ (testingFireBuffer (fun _ => 'x') config).calls, call.InBounds 512) ∧
        cString 512 (testingFireBuffer (fun _ => 'x') config).memory =
          (completeTesting config).take 511 := by
  refine ⟨by decide +kernel, ?_⟩
  intro config h
  exact message_builders_in_bounds (fun _ => 'x') h

end WsServer
