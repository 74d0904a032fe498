import Mathlib.Data.List.Induction
import Mathlib.Data.List.Nodup
import Mathlib.Order.Fin.Basic
import WsServer.CanBus
import WsServer.Base.CBuffer
import WsServer.Base.HexText
import WsServer.Base.Machine
import WsServer.Base.Strtok

/-! The table of received CAN values: `can_bus_store_rx` fills it and
`can_bus_format_dirty` hands what has changed to the clients. No update is lost or
corrupted on this way. -/
namespace WsServer
open Interaction Printf

def appCanIdCount : ℕ := 0x800

/-- `can_values` and `can_dirty`, both under `can_lock`. -/
structure CanTable where
  canValues : Fin appCanIdCount → Int
  canDirty : Fin appCanIdCount → Bool

/-- As `app_context_init` leaves it. -/
def CanTable.init : CanTable := ⟨fun _ => -1, fun _ => false⟩

/-! ### The two calls -/

/-- `frame->can_id & (CAN_ERR_FLAG | CAN_RTR_FLAG | CAN_EFF_FLAG)` -/
def CanFrame.flagged (frame : CanFrame) : Bool :=
  frame.canId &&& (0x20000000 ||| 0x40000000 ||| 0x80000000) != 0

def CanFrame.rxId (frame : CanFrame) : UInt32 := frame.canId &&& 0x7FF

/-- The first two data bytes, little endian. -/
def CanFrame.rxValue (frame : CanFrame) : UInt16 :=
  if 2 ≤ frame.canDlc then
    (frame.data.getD 0 0).toUInt16 ||| ((frame.data.getD 1 0).toUInt16 <<< 8)
  else 0

def canBusStoreRx (t : CanTable) (frame : CanFrame) : CanTable × List Event :=
  if frame.flagged then (t, [])
  else
    ({ canValues := writeAt t.canValues frame.rxId.toNat frame.rxValue.toNat
       canDirty := writeAt t.canDirty frame.rxId.toNat true },
     [.log "CAN_RX" (formatIdValue frame.rxId frame.rxValue)])

/-- `"%03x#%04x"` of an id and `(uint16_t)` of its value. -/
def canEntry (canValues : Fin appCanIdCount → Int) (id : Fin appCanIdCount) : CText :=
  (formatIdValue (UInt32.ofNat id) (UInt16.ofNat (canValues id).toNat)).toList

/-- What the loop of `can_bus_format_dirty` changes. -/
structure FormatState where
  buffer : ℕ → Char
  length : ℕ
  canDirty : Fin appCanIdCount → Bool

/-- The loop of `can_bus_format_dirty`, from the first of the given ids on. -/
def formatDirtyLoop (canValues : Fin appCanIdCount → Int) (capacity : ℕ) :
    List (Fin appCanIdCount) → FormatState → FormatState
  | [], s => s
  | id :: ids, s =>
    if s.canDirty id = false ∨ canValues id < 0 then formatDirtyLoop canValues capacity ids s
    else
      let entry := canEntry canValues id ++ ['|']
      let buffer := snprintfAt s.buffer s.length (capacity-s.length) entry
      -- the entry was cut off: its bit stays set
      if capacity-s.length ≤ entry.length then { s with buffer := buffer }
      else formatDirtyLoop canValues capacity ids
        { buffer := buffer
          length := s.length + entry.length
          canDirty := writeAt s.canDirty id false }

/-- `can_bus_format_dirty`: the table, the buffer and the length that it leaves. -/
def canBusFormatDirty (t : CanTable) (buffer : ℕ → Char) (capacity : ℕ) :
    CanTable × (ℕ → Char) × ℕ :=
  if capacity = 0 then (t, buffer, 0)
  else
    let s := formatDirtyLoop t.canValues capacity (List.finRange appCanIdCount)
      { buffer := fun i => if i = 0 then nul else buffer i
        length := 0
        canDirty := t.canDirty }
    if 0 < s.length then
      ({ t with canDirty := s.canDirty },
        (fun i => if i = s.length-1 then nul else s.buffer i), s.length-1)
    else ({ t with canDirty := s.canDirty }, s.buffer, s.length)

/-- The two calls; the buffer of the caller holds anything. -/
inductive CanCall where
  | storeRx (frame : CanFrame)
  | formatDirty (buffer : ℕ → Char) (capacity : ℕ)

/-- The text in the caller's buffer and the returned length. -/
structure CanUpdate where
  text : CText
  length : ℕ
  deriving DecidableEq, Repr

/-- Each call holds `can_lock` for all of its work on the table. -/
def canCalls : Machine CanTable CanCall CanUpdate where
  step t
    | .storeRx frame => some ((canBusStoreRx t frame).1, [])
    | .formatDirty buffer capacity =>
      let r := canBusFormatDirty t buffer capacity
      some (r.1, [⟨cString capacity r.2.1, r.2.2⟩])

/-! ### What a client sees -/

/-- A piece `id#value` of an update, read to its last character. -/
def readEntry (s : CText) : Option (ℕ × ℕ) :=
  match Scanf.scanAll [.num 16 .int, .lit '#', .num 16 .short] s with
  | some ([.num _ id, .num _ value], []) => some (id.toNat, value.toNat)
  | _ => none

def readUpdate (s : CText) : List (ℕ × ℕ) := (Strtok.tokens '|' s).filterMap readEntry

/-- The last value that the list has for each id. -/
def latest (entries : List (ℕ × ℕ)) (id : ℕ) : Option ℕ :=
  ((entries.filter (fun e => e.1 = id)).getLast?).map Prod.snd

/-- The map that a client holds who applies all entries of all updates in order. -/
def canView (us : List CanUpdate) : ℕ → Option ℕ := latest (us.flatMap (fun u => readUpdate u.text))

/-- The updates that arrive on the bus. -/
def CanCall.accepted : CanCall → Option (ℕ × ℕ)
  | .storeRx frame => if frame.flagged then none else some (frame.rxId.toNat, frame.rxValue.toNat)
  | .formatDirty _ _ => none

def lastAccepted (calls : List CanCall) : ℕ → Option ℕ := latest (calls.filterMap CanCall.accepted)

/-- The value of an id; `-1` is that there is none. -/
def CanTable.cell (t : CanTable) (id : Fin appCanIdCount) : Option ℕ :=
  if t.canValues id < 0 then none else some (t.canValues id).toNat

/-- The ids whose bit a call has cleared, in increasing order. -/
def clearedIds (t t' : CanTable) : List (Fin appCanIdCount) :=
  (List.finRange appCanIdCount).filter (fun id => t.canDirty id && !t'.canDirty id)

/-! ### Entries -/

theorem CanFrame.rxId_lt (frame : CanFrame) : frame.rxId.toNat < appCanIdCount := by
  have hmask : frame.rxId.toNat = frame.canId.toNat &&& 0x7FF := UInt32.toNat_and _ _
  rw [hmask]
  exact Nat.and_lt_two_pow _ (by decide : 0x7FF < 2^11)

theorem toList_formatIdValue (id : UInt32) (value : UInt16) : (formatIdValue id value).toList =
    (hexPadded 3 id.toNat).toList ++ '#' :: (hexPadded 4 value.toNat).toList := by
  rw [formatIdValue, String.toList_append, String.toList_append, List.append_assoc]
  rfl

theorem isDigit_of_mem_formatIdValue {id : UInt32} {value : UInt16} {c : Char}
    (h : c ∈ (formatIdValue id value).toList) : c = '#' ∨ Scanf.isDigit 16 c = true := by
  rw [toList_formatIdValue] at h
  rcases List.mem_append.mp h with h | h
  · exact Or.inr (isDigit_of_mem_hexPadded h)
  · rcases List.mem_cons.mp h with h | h
    · exact Or.inl h
    · exact Or.inr (isDigit_of_mem_hexPadded h)

/-- An entry holds neither the separator nor the terminator. -/
theorem not_mem_formatIdValue {id : UInt32} {value : UInt16} {c : Char} (hc : c ≠ '#')
    (hdigit : Scanf.isDigit 16 c = false) : c ∉ (formatIdValue id value).toList := by
  intro h
  rcases isDigit_of_mem_formatIdValue h with h | h
  · exact hc h
  · rw [hdigit] at h
    cases h

theorem toNat_canId (id : Fin appCanIdCount) : (UInt32.ofNat id).toNat = id.val := by
  have hlt : id.val < 0x800 := id.isLt
  rw [UInt32.toNat_ofNat']
  omega

theorem length_canEntry (canValues : Fin appCanIdCount → Int) (id : Fin appCanIdCount) :
    (canEntry canValues id).length = 8 := by
  have hid : (UInt32.ofNat id).toNat < 16^3 := by
    rw [toNat_canId]
    exact lt_trans id.isLt (by decide)
  have hvalue : (UInt16.ofNat (canValues id).toNat).toNat < 16^4 := UInt16.toNat_lt _
  rw [canEntry, toList_formatIdValue, List.length_append, List.length_cons,
    length_hexPadded (by decide) hid, length_hexPadded (by decide) hvalue]

theorem scanAll_formatIdValue (id : UInt32) (value : UInt16) :
    Scanf.scanAll [.num 16 .int, .lit '#', .num 16 .short] (formatIdValue id value).toList =
      some ([.num .int id.toNat, .num .short value.toNat], []) := by
  have hlast : Scanf.scanAll [.num 16 .short] (hexPadded 4 value.toNat).toList =
      some ([.num .short value.toNat], []) := by
    apply (Scanf.scanAll_last_iff (by decide)).mpr
    exact ⟨_, isNumeral_hexPadded 4 value.toNat, rfl⟩
  apply (Scanf.scanAll_field_iff (by decide) (by decide)).mpr
  exact ⟨_, _, _, _, toList_formatIdValue id value, isNumeral_hexPadded 3 id.toNat, hlast, rfl⟩

/-- What is printed is read back. -/
theorem readEntry_formatIdValue (id : UInt32) (value : UInt16) :
    readEntry (formatIdValue id value).toList = some (id.toNat, value.toNat) := by
  rw [readEntry, scanAll_formatIdValue]
  rfl

/-- The entries joined with separators: what the buffer holds in the end. -/
def joinedEntries (canValues : Fin appCanIdCount → Int) (ids : List (Fin appCanIdCount)) : CText :=
  List.intercalate ['|'] (ids.map (canEntry canValues))

/-- The entries of a `'|'`-joined list are the pieces between the separators. -/
theorem tokens_joinedEntries (canValues : Fin appCanIdCount → Int)
    (ids : List (Fin appCanIdCount)) :
    Strtok.tokens '|' (joinedEntries canValues ids) = ids.map (canEntry canValues) := by
  by_cases hids : ids = []
  · rw [hids]
    rfl
  · have hfree : ∀ s ∈ ids.map (canEntry canValues), '|' ∉ s := by
      intro s hs
      obtain ⟨id, -, hs⟩ := List.mem_map.mp hs
      rw [← hs]
      exact not_mem_formatIdValue (by decide) (by decide)
    have hnonempty : ∀ s ∈ ids.map (canEntry canValues), decide (s ≠ []) = true := by
      intro s hs
      obtain ⟨id, -, hs⟩ := List.mem_map.mp hs
      apply decide_eq_true
      apply List.ne_nil_of_length_pos
      rw [← hs, length_canEntry]
      omega
    rw [joinedEntries, Strtok.tokens_eq_splitOn,
      List.splitOn_intercalate '|' hfree (fun h => hids (List.map_eq_nil_iff.mp h)),
      List.filter_eq_self.mpr hnonempty]

theorem readUpdate_joinedEntries (canValues : Fin appCanIdCount → Int)
    (ids : List (Fin appCanIdCount)) : readUpdate (joinedEntries canValues ids) =
      ids.map (fun id => (id.val, (UInt16.ofNat (canValues id).toNat).toNat)) := by
  have hread : ∀ id : Fin appCanIdCount, readEntry (canEntry canValues id) =
      some (id.val, (UInt16.ofNat (canValues id).toNat).toNat) := by
    intro id
    rw [canEntry, readEntry_formatIdValue, toNat_canId]
  rw [readUpdate, tokens_joinedEntries, List.filterMap_map]
  simp only [Function.comp_def, hread, List.filterMap_eq_map']

/-! ### One call of the formatter -/

/-- The loop has written the entries of these ids behind the text before them, and has
cleared their bits and no others. -/
structure FormatState.Emits (canValues : Fin appCanIdCount → Int) (s : FormatState) (before : CText)
    (ids : List (Fin appCanIdCount)) (s' : FormatState) : Prop where
  holds : Holds s'.buffer (before ++ ids.flatMap (fun id => canEntry canValues id ++ ['|']))
  length : s'.length = before.length + 9*ids.length
  dirty : ∀ id ∈ ids, s.canDirty id = true
  cleared : ∀ id, s'.canDirty id = (s.canDirty id && decide (id ∉ ids))

theorem FormatState.emits_nil {canValues : Fin appCanIdCount → Int} {s s' : FormatState}
    {before : CText} (hholds : Holds s'.buffer before) (hlength : s'.length = before.length)
    (hdirty : s'.canDirty = s.canDirty) : s.Emits canValues before [] s' where
  holds := by rwa [List.flatMap_nil, List.append_nil]
  length := hlength
  dirty := nofun
  cleared := by simp [hdirty]

/-- The bit of an id whose entry was written is cleared, and stays so. -/
theorem FormatState.Emits.cons {canValues : Fin appCanIdCount → Int} {s s' : FormatState}
    {before : CText} {id : Fin appCanIdCount} {ids : List (Fin appCanIdCount)} {buffer : ℕ → Char}
    {length : ℕ} (hid : s.canDirty id = true)
    (h : FormatState.Emits canValues ⟨buffer, length, writeAt s.canDirty id.val false⟩
      (before ++ (canEntry canValues id ++ ['|'])) ids s') :
    s.Emits canValues before (id :: ids) s' where
  holds := by
    rw [List.flatMap_cons, ← List.append_assoc]
    exact h.holds
  length := by
    have hlength := h.length
    simp only [List.length_append, length_canEntry, List.length_cons, List.length_nil] at hlength ⊢
    omega
  dirty := by
    intro id' hid'
    rcases List.mem_cons.mp hid' with rfl | hid'
    · exact hid
    · have hdirty := h.dirty id' hid'
      simp only [writeAt] at hdirty
      split_ifs at hdirty
      exact hdirty
  cleared := by
    intro id'
    have hcleared := h.cleared id'
    rw [hcleared]
    by_cases hsame : id' = id
    · simp [writeAt, hsame]
    · have hval : id'.val ≠ id.val := fun h => hsame (Fin.ext h)
      simp [writeAt, hsame, hval]

/-- The ids that the loop does not skip. -/
def pendingIds (canValues : Fin appCanIdCount → Int) (canDirty : Fin appCanIdCount → Bool)
    (ids : List (Fin appCanIdCount)) : List (Fin appCanIdCount) :=
  ids.filter (fun id => canDirty id && !decide (canValues id < 0))

theorem pendingIds_skipped {canValues : Fin appCanIdCount → Int}
    {canDirty : Fin appCanIdCount → Bool} {id : Fin appCanIdCount}
    (h : canDirty id = false ∨ canValues id < 0) (ids : List (Fin appCanIdCount)) :
    pendingIds canValues canDirty (id :: ids) = pendingIds canValues canDirty ids := by
  apply List.filter_cons_of_neg
  rcases h with hclean | hneg
  · simp [hclean]
  · simp [hneg]

theorem pendingIds_cons {canValues : Fin appCanIdCount → Int}
    {canDirty : Fin appCanIdCount → Bool} {id : Fin appCanIdCount}
    (hdirty : canDirty id = true) (hvalue : ¬ canValues id < 0) (ids : List (Fin appCanIdCount)) :
    pendingIds canValues canDirty (id :: ids) = id :: pendingIds canValues canDirty ids := by
  apply List.filter_cons_of_pos
  rw [hdirty, decide_eq_false hvalue]
  rfl

theorem pendingIds_writeAt {canValues : Fin appCanIdCount → Int}
    {canDirty : Fin appCanIdCount → Bool} {id : Fin appCanIdCount}
    {ids : List (Fin appCanIdCount)} (h : id ∉ ids) (b : Bool) :
    pendingIds canValues (writeAt canDirty id.val b) ids = pendingIds canValues canDirty ids := by
  apply List.filter_congr
  intro id' hid'
  have hval : id'.val ≠ id.val := fun heq => h (Fin.ext heq ▸ hid')
  simp only [writeAt, hval, if_false]

/-- The loop writes the entries of the pending ids, in their order and as many as there is
room for; a buffer without a pending id is left alone, and so is all memory behind it. -/
theorem formatDirtyLoop_emits (canValues : Fin appCanIdCount → Int) (capacity : ℕ)
    {ids : List (Fin appCanIdCount)} (hids : ids.Nodup) (s : FormatState) (before : CText)
    (hholds : Holds s.buffer before) (hlength : s.length = before.length)
    (hfits : s.length < capacity) :
    s.Emits canValues before
      ((pendingIds canValues s.canDirty ids).take ((capacity-1-s.length)/9))
      (formatDirtyLoop canValues capacity ids s) ∧
    (formatDirtyLoop canValues capacity ids s).length < capacity ∧
    (∀ i, capacity ≤ i → (formatDirtyLoop canValues capacity ids s).buffer i = s.buffer i) ∧
    (pendingIds canValues s.canDirty ids = [] → formatDirtyLoop canValues capacity ids s = s) := by
  induction ids generalizing s before with
  | nil =>
    have hnone : (pendingIds canValues s.canDirty []).take ((capacity-1-s.length)/9) = [] :=
      List.take_nil
    rw [hnone]
    exact ⟨FormatState.emits_nil hholds hlength rfl, hfits, fun _ _ => rfl, fun _ => rfl⟩
  | cons id ids ih =>
    obtain ⟨hid, hids⟩ := List.nodup_cons.mp hids
    simp only [formatDirtyLoop]
    have hentry : (canEntry canValues id ++ ['|']).length = 9 := by
      rw [List.length_append, length_canEntry, List.length_singleton]
    split_ifs with hskip hcut
    · rw [pendingIds_skipped hskip]
      exact ih hids s before hholds hlength hfits
    all_goals
      obtain ⟨hdirty, hvalue⟩ := not_or.mp hskip
      rw [Bool.not_eq_false] at hdirty
      rw [pendingIds_cons hdirty hvalue]
    · -- the cut entry lies behind the text that counts, and no second one fits
      have hbehind := hholds.snprintfAt_behind (le_of_eq hlength.symm) (capacity-s.length)
        (canEntry canValues id ++ ['|'])
      have hroom : (capacity-1-s.length)/9 = 0 := by
        rw [hentry] at hcut
        omega
      rw [hroom]
      refine ⟨FormatState.emits_nil hbehind hlength rfl, hfits, ?_,
        fun hnil => absurd hnil (List.cons_ne_nil _ _)⟩
      intro i hi
      exact snprintfAt_outside _ _ (by omega)
    · -- the entry is a part of the text from which the loop goes on
      have happend := hholds.snprintfAt_append (canEntry canValues id ++ ['|']) (not_le.mp hcut)
      rw [← hlength] at happend
      have hnext : s.length + (canEntry canValues id ++ ['|']).length =
          (before ++ (canEntry canValues id ++ ['|'])).length := by
        rw [hlength]
        exact List.length_append.symm
      obtain ⟨hemits, hlt, hbehind, -⟩ := ih hids
        ⟨snprintfAt s.buffer s.length (capacity-s.length) (canEntry canValues id ++ ['|']),
          s.length + (canEntry canValues id ++ ['|']).length, writeAt s.canDirty id.val false⟩
        (before ++ (canEntry canValues id ++ ['|'])) happend
        hnext (by dsimp only; omega)
      have hroom : (capacity-1-s.length)/9 =
          (capacity-1-(s.length + (canEntry canValues id ++ ['|']).length))/9 + 1 := by
        rw [hentry] at hcut ⊢
        omega
      dsimp only at hemits hbehind
      rw [pendingIds_writeAt hid] at hemits
      rw [hroom, List.take_succ_cons]
      refine ⟨hemits.cons hdirty, hlt, ?_, fun hnil => absurd hnil (List.cons_ne_nil _ _)⟩
      intro i hi
      rw [hbehind i hi]
      exact snprintfAt_outside _ _ (by omega)

theorem filter_mem_of_sublist {α : Type} [DecidableEq α] {l' l : List α} (h : l'.Sublist l)
    (hl : l.Nodup) : l.filter (fun a => decide (a ∈ l')) = l' := by
  induction h with
  | slnil => rfl
  | @cons l' l a h ih =>
    obtain ⟨ha, hl⟩ := List.nodup_cons.mp hl
    rw [List.filter_cons_of_neg (by simpa using fun hmem => ha (h.subset hmem)), ih hl]
  | @cons_cons l' l a h ih =>
    obtain ⟨ha, hl⟩ := List.nodup_cons.mp hl
    rw [List.filter_cons_of_pos (by simp)]
    congr 1
    refine Eq.trans (List.filter_congr ?_) (ih hl)
    intro x hx
    have hne : x ≠ a := fun heq => ha (heq ▸ hx)
    simp [hne]

theorem length_separated (canValues : Fin appCanIdCount → Int)
    (ids : List (Fin appCanIdCount)) :
    (ids.flatMap (fun id => canEntry canValues id ++ ['|'])).length = 9*ids.length := by
  induction ids with
  | nil => rfl
  | cons id ids ih =>
    rw [List.flatMap_cons, List.length_append, List.length_append, ih, length_canEntry,
      List.length_singleton, List.length_cons]
    omega

/-- The entries with a separator behind each of them. -/
theorem flatMap_separated (f : Fin appCanIdCount → CText) (id : Fin appCanIdCount)
    (ids : List (Fin appCanIdCount)) : (id :: ids).flatMap (fun id => f id ++ ['|']) =
      List.intercalate ['|'] ((id :: ids).map f) ++ ['|'] := by
  induction ids generalizing id with
  | nil => simp
  | cons id' ids ih =>
    rw [List.flatMap_cons, ih id']
    simp only [List.map_cons, List.intercalate_cons_cons, List.append_assoc]

/-- The ids whose bits have been cleared are those that were written. -/
theorem clearedIds_eq {t t' : CanTable} {ids : List (Fin appCanIdCount)}
    (hsub : ids.Sublist (List.finRange appCanIdCount)) (hdirty : ∀ id ∈ ids, t.canDirty id = true)
    (hcleared : ∀ id, t'.canDirty id = (t.canDirty id && decide (id ∉ ids))) :
    clearedIds t t' = ids := by
  refine Eq.trans (List.filter_congr ?_) (filter_mem_of_sublist hsub (List.nodup_finRange _))
  intro id _
  rw [hcleared id]
  by_cases hid : id ∈ ids
  · simp [hid, hdirty id hid]
  · cases hbit : t.canDirty id <;> simp [hid]

theorem nul_not_mem_joinedEntries (canValues : Fin appCanIdCount → Int)
    (ids : List (Fin appCanIdCount)) : nul ∉ joinedEntries canValues ids := by
  cases ids with
  | nil => exact List.not_mem_nil
  | cons id ids =>
    have hflat := flatMap_separated (canEntry canValues) id ids
    intro h
    have hmem : nul ∈ (id :: ids).flatMap (fun id => canEntry canValues id ++ ['|']) := by
      rw [hflat]
      exact List.mem_append_left _ h
    obtain ⟨id', -, hmem⟩ := List.mem_flatMap.mp hmem
    rcases List.mem_append.mp hmem with hmem | hmem
    · exact not_mem_formatIdValue (by decide) (by decide) hmem
    · exact absurd (List.mem_singleton.mp hmem) (by decide)

/-- The terminator overwrites the last separator, with whatever was cut off behind it. -/
theorem FormatState.Emits.terminated {canValues : Fin appCanIdCount → Int} {s s' : FormatState}
    {id : Fin appCanIdCount} {ids : List (Fin appCanIdCount)} {capacity : ℕ}
    (h : s.Emits canValues [] (id :: ids) s') (hlt : s'.length < capacity) :
    cString capacity (fun i => if i = s'.length-1 then nul else s'.buffer i) =
      joinedEntries canValues (id :: ids) ∧
    s'.length-1 = (joinedEntries canValues (id :: ids)).length := by
  have hflat := flatMap_separated (canEntry canValues) id ids
  have hsize : 9*(id :: ids).length = (joinedEntries canValues (id :: ids)).length + 1 := by
    rw [← length_separated canValues, hflat, List.length_append, List.length_singleton,
      joinedEntries]
  have hlength : s'.length = 9*(id :: ids).length := by
    rw [h.length, List.length_nil, Nat.zero_add]
  have hend : s'.length-1 = (joinedEntries canValues (id :: ids)).length := by omega
  have hholds := h.holds
  rw [List.nil_append, hflat] at hholds
  have htext : Holds (fun i => if i = s'.length-1 then nul else s'.buffer i)
      (joinedEntries canValues (id :: ids)) := by
    apply hholds.before.congr
    intro i hi
    rw [if_neg]
    rw [hend, joinedEntries]
    omega
  refine ⟨cString_eq htext (nul_not_mem_joinedEntries canValues _) ?_ ?_, hend⟩
  · rw [← hend, if_pos rfl]
  · omega

/-- The dirty ids with a stored value, in increasing order. -/
def CanTable.pending (t : CanTable) : List (Fin appCanIdCount) :=
  pendingIds t.canValues t.canDirty (List.finRange appCanIdCount)

/-- What one call returns and clears: the first pending ids, as many as there is room for. -/
structure CanTable.Formats (t : CanTable) (buffer : ℕ → Char) (capacity : ℕ)
    (x : CanTable × (ℕ → Char) × ℕ) : Prop where
  values : x.1.canValues = t.canValues
  dirty : ∀ id, x.1.canDirty id =
    (t.canDirty id && decide (id ∉ t.pending.take ((capacity-1)/9)))
  text : cString capacity x.2.1 = joinedEntries t.canValues (t.pending.take ((capacity-1)/9))
  length : x.2.2 = (cString capacity x.2.1).length
  inside : ∀ i, capacity ≤ i → x.2.1 i = buffer i

theorem canBusFormatDirty_formats (t : CanTable) (buffer : ℕ → Char) {capacity : ℕ}
    (hcapacity : 10 ≤ capacity) :
    t.Formats buffer capacity (canBusFormatDirty t buffer capacity) := by
  obtain ⟨hemits, hlt, hinside, hnone⟩ := formatDirtyLoop_emits t.canValues capacity
    (List.nodup_finRange appCanIdCount) ⟨fun i => if i = 0 then nul else buffer i, 0, t.canDirty⟩
    [] (holds_nil _) rfl (by dsimp only; omega)
  dsimp only at hemits hinside hnone
  rw [Nat.sub_zero, ← CanTable.pending] at hemits
  rw [← CanTable.pending] at hnone
  simp only [canBusFormatDirty, show capacity ≠ 0 by omega, if_false]
  generalize formatDirtyLoop t.canValues capacity (List.finRange appCanIdCount) _ = s'
    at hemits hlt hinside hnone ⊢
  have hlength : s'.length = 9*(t.pending.take ((capacity-1)/9)).length := by
    rw [hemits.length, List.length_nil, Nat.zero_add]
  have hfirst : ∀ i, capacity ≤ i → s'.buffer i = buffer i := by
    intro i hi
    rw [hinside i hi, if_neg (by omega)]
  cases hemitted : t.pending.take ((capacity-1)/9) with
  | nil =>
    -- there is room for an entry, so that none was pending and the buffer is as it was set up
    have hpending : t.pending = [] := by
      rcases List.take_eq_nil_iff.mp hemitted with hroom | hnil
      · omega
      · exact hnil
    have hsame := hnone hpending
    have htext : cString capacity (fun i => if i = 0 then nul else buffer i) = [] :=
      cString_eq (holds_nil _) List.not_mem_nil (if_pos rfl) (by rw [List.length_nil]; omega)
    rw [hsame] at hfirst ⊢
    rw [if_neg (lt_irrefl 0)]
    refine ⟨rfl, ?_, ?_, ?_, hfirst⟩
    · simp [hemitted]
    · rw [hemitted]
      exact htext
    · dsimp only
      rw [htext]
      rfl
  | cons id ids =>
    have hpos : 0 < s'.length := by
      rw [hlength, hemitted, List.length_cons]
      omega
    rw [hemitted] at hemits
    obtain ⟨htext, hend⟩ := hemits.terminated hlt
    rw [if_pos hpos]
    refine ⟨rfl, ?_, ?_, ?_, ?_⟩
    · rw [hemitted]
      exact hemits.cleared
    · rw [hemitted]
      exact htext
    · dsimp only
      rw [htext]
      exact hend
    · intro i hi
      dsimp only
      rw [if_neg (by omega)]
      exact hfirst i hi

/-- Without room for one entry the returned length is 0. -/
theorem canBusFormatDirty_small (t : CanTable) (buffer : ℕ → Char) {capacity : ℕ}
    (hcapacity : capacity < 10) : (canBusFormatDirty t buffer capacity).2.2 = 0 := by
  unfold canBusFormatDirty
  split_ifs with hzero
  · rfl
  obtain ⟨hemits, -⟩ := formatDirtyLoop_emits t.canValues capacity
    (List.nodup_finRange appCanIdCount) ⟨fun i => if i = 0 then nul else buffer i, 0, t.canDirty⟩
    [] (holds_nil _) rfl (by dsimp only; omega)
  have hroom : (capacity-1-0)/9 = 0 := by omega
  have hlength := hemits.length
  simp only [hroom, List.take_zero, List.length_nil, Nat.mul_zero, Nat.add_zero] at hlength
  dsimp only
  rw [hlength, if_neg (lt_irrefl 0)]

/-- The ids whose bits a call has cleared. -/
theorem CanTable.Formats.cleared {t : CanTable} {buffer : ℕ → Char} {capacity : ℕ}
    {x : CanTable × (ℕ → Char) × ℕ} (h : t.Formats buffer capacity x) :
    clearedIds t x.1 = t.pending.take ((capacity-1)/9) := by
  refine clearedIds_eq ((List.take_sublist _ _).trans List.filter_sublist) ?_ h.dirty
  intro id hid
  have hpending := (List.mem_filter.mp (List.mem_of_mem_take hid)).2
  exact (Bool.and_eq_true_iff.mp hpending).1

/-- What one call returns: exactly the entries whose bits it has cleared. -/
theorem canBusFormatDirty_returns (t : CanTable) (buffer : ℕ → Char) {capacity : ℕ}
    (hcapacity : 10 ≤ capacity) :
    (canBusFormatDirty t buffer capacity).1.canValues = t.canValues ∧
    (∀ id, (canBusFormatDirty t buffer capacity).1.canDirty id =
      (t.canDirty id &&
        decide (id ∉ clearedIds t (canBusFormatDirty t buffer capacity).1))) ∧
    cString capacity (canBusFormatDirty t buffer capacity).2.1 =
      joinedEntries t.canValues (clearedIds t (canBusFormatDirty t buffer capacity).1) ∧
    (canBusFormatDirty t buffer capacity).2.2 =
      (cString capacity (canBusFormatDirty t buffer capacity).2.1).length := by
  have hformats := canBusFormatDirty_formats t buffer hcapacity
  rw [hformats.cleared]
  exact ⟨hformats.values, hformats.dirty, hformats.text, hformats.length⟩

/-! ### Runs of calls -/

theorem latest_append (es es' : List (ℕ × ℕ)) (id : ℕ) :
    latest (es ++ es') id = (latest es' id).or (latest es id) := by
  rw [latest, latest, latest, List.filter_append, List.getLast?_append]
  cases (es'.filter (fun e => e.1 = id)).getLast? <;> rfl

theorem latest_append_one (es : List (ℕ × ℕ)) (e : ℕ × ℕ) (id : ℕ) :
    latest (es ++ [e]) id = if id = e.1 then some e.2 else latest es id := by
  rw [latest_append]
  by_cases h : id = e.1
  · have hone : [e].filter (fun e => e.1 = id) = [e] := by simp [h]
    rw [if_pos h, latest, hone]
    rfl
  · have hnone : [e].filter (fun e => e.1 = id) = [] := by simp [Ne.symm h]
    rw [if_neg h, latest, hnone]
    rfl

/-- A list with one entry for each of its ids. -/
theorem latest_map (value : Fin appCanIdCount → ℕ) (ids : List (Fin appCanIdCount))
    (id : Fin appCanIdCount) : latest (ids.map (fun id => (id.val, value id))) id.val =
      if id ∈ ids then some (value id) else none := by
  have hmem : ∀ e ∈ (ids.map (fun id => (id.val, value id))).filter (fun e => e.1 = id.val),
      id ∈ ids ∧ e = (id.val, value id) := by
    intro e he
    obtain ⟨he, hid⟩ := List.mem_filter.mp he
    obtain ⟨id', hid', rfl⟩ := List.mem_map.mp he
    obtain rfl : id' = id := Fin.ext (of_decide_eq_true hid)
    exact ⟨hid', rfl⟩
  rw [latest]
  cases hlast : ((ids.map (fun id => (id.val, value id))).filter
      (fun e => e.1 = id.val)).getLast? with
  | none =>
    have hempty := List.getLast?_eq_none_iff.mp hlast
    have hnot : id ∉ ids := by
      intro hid
      have hin : (id.val, value id) ∈ (ids.map (fun id => (id.val, value id))).filter
          (fun e => e.1 = id.val) :=
        List.mem_filter.mpr ⟨List.mem_map_of_mem hid, decide_eq_true rfl⟩
      rw [hempty] at hin
      cases hin
    rw [if_neg hnot]
    rfl
  | some e =>
    obtain ⟨hid, he⟩ := hmem e (List.mem_of_getLast? hlast)
    rw [if_pos hid, he]
    rfl

/-- Room for one entry. -/
def CanCall.HasRoom : CanCall → Prop
  | .storeRx _ => True
  | .formatDirty _ capacity => 10 ≤ capacity

/-- What the table, the bits and the history of the calls and of the updates have to do
with each other. -/
structure CanInvariant (t : CanTable) (calls : List CanCall) (us : List CanUpdate) : Prop where
  values : ∀ id, t.cell id = lastAccepted calls id.val
  short : ∀ id, t.canValues id < 2^16
  dirty : ∀ id, t.canDirty id = true → t.cell id ≠ none
  clean : ∀ id, t.canDirty id = false → canView us id.val = t.cell id

theorem CanInvariant.init : CanInvariant .init [] [] where
  values _ := rfl
  short _ := by
    change (-1 : Int) < 2^16
    decide
  dirty _ := nofun
  clean _ _ := rfl

/-- A frame with one of the flags changes nothing. -/
theorem canBusStoreRx_flagged {t : CanTable} {frame : CanFrame} (h : frame.flagged = true) :
    canBusStoreRx t frame = (t, []) := if_pos h

theorem CanInvariant.storeRx {t : CanTable} {calls : List CanCall} {us : List CanUpdate}
    (h : CanInvariant t calls us) (frame : CanFrame) :
    CanInvariant (canBusStoreRx t frame).1 (calls ++ [.storeRx frame]) us := by
  cases hflag : frame.flagged with
  | true =>
    have hcalls : lastAccepted (calls ++ [.storeRx frame]) = lastAccepted calls := by
      simp only [lastAccepted, List.filterMap_append, List.filterMap_cons, List.filterMap_nil,
        CanCall.accepted, hflag, if_true, List.append_nil]
    rw [canBusStoreRx_flagged hflag]
    exact ⟨by rw [hcalls]; exact h.values, h.short, h.dirty, h.clean⟩
  | false =>
    have hstore : (canBusStoreRx t frame).1 =
        ⟨writeAt t.canValues frame.rxId.toNat frame.rxValue.toNat,
          writeAt t.canDirty frame.rxId.toNat true⟩ := by
      rw [canBusStoreRx, hflag, if_neg Bool.false_ne_true]
    have hcell : ∀ id : Fin appCanIdCount, (canBusStoreRx t frame).1.cell id =
        if id.val = frame.rxId.toNat then some frame.rxValue.toNat else t.cell id := by
      intro id
      rw [hstore]
      by_cases hid : id.val = frame.rxId.toNat
      · have hpos : ¬ (frame.rxValue.toNat : Int) < 0 := by omega
        simp only [CanTable.cell, writeAt, hid, if_true, hpos, if_false, Int.toNat_natCast]
      · simp only [CanTable.cell, writeAt, hid, if_false]
    have hcalls : ∀ id, lastAccepted (calls ++ [.storeRx frame]) id =
        if id = frame.rxId.toNat then some frame.rxValue.toNat else lastAccepted calls id := by
      intro id
      have hsplit : (calls ++ [CanCall.storeRx frame]).filterMap CanCall.accepted =
          calls.filterMap CanCall.accepted ++ [(frame.rxId.toNat, frame.rxValue.toNat)] := by
        simp [CanCall.accepted, hflag]
      rw [lastAccepted, hsplit, latest_append_one, lastAccepted]
    refine ⟨?_, ?_, ?_, ?_⟩
    · intro id
      rw [hcell, hcalls, h.values]
    · intro id
      rw [hstore]
      have hshort : frame.rxValue.toNat < 2^16 := frame.rxValue.toNat_lt
      simp only [writeAt]
      split_ifs
      · omega
      · exact h.short id
    · intro id hdirty
      rw [hcell]
      split_ifs with hid
      · exact Option.some_ne_none _
      · rw [hstore] at hdirty
        simp only [writeAt, hid, if_false] at hdirty
        exact h.dirty id hdirty
    · intro id hclean
      -- the bit of the id that came in is set
      rw [hstore] at hclean
      simp only [writeAt] at hclean
      split_ifs at hclean with hid
      rw [hcell, if_neg hid]
      exact h.clean id hclean

/-- A call sends on what it clears, as it is in the table. -/
theorem CanInvariant.formatDirty {t : CanTable} {calls : List CanCall} {us : List CanUpdate}
    (h : CanInvariant t calls us) (buffer : ℕ → Char) {capacity : ℕ} (hcapacity : 10 ≤ capacity) :
    CanInvariant (canBusFormatDirty t buffer capacity).1 (calls ++ [.formatDirty buffer capacity])
      (us ++ [⟨cString capacity (canBusFormatDirty t buffer capacity).2.1,
        (canBusFormatDirty t buffer capacity).2.2⟩]) := by
  obtain ⟨hvalues, hdirty, htext, -⟩ := canBusFormatDirty_returns t buffer hcapacity
  generalize (canBusFormatDirty t buffer capacity).1 = t' at hvalues hdirty htext ⊢
  have hcell : ∀ id, t'.cell id = t.cell id := by
    intro id
    rw [CanTable.cell, CanTable.cell, hvalues]
  have hcalls : lastAccepted (calls ++ [.formatDirty buffer capacity]) = lastAccepted calls := by
    rw [lastAccepted, lastAccepted, List.filterMap_append]
    exact congrArg latest (List.append_nil _)
  -- the clients see the value of each id that the call has cleared, and of the others what they
  -- saw before
  have hview : ∀ id : Fin appCanIdCount, canView (us ++
      [⟨cString capacity (canBusFormatDirty t buffer capacity).2.1,
        (canBusFormatDirty t buffer capacity).2.2⟩]) id.val =
      if id ∈ clearedIds t t' then some (UInt16.ofNat (t.canValues id).toNat).toNat
      else canView us id.val := by
    intro id
    rw [canView, List.flatMap_append, latest_append, List.flatMap_singleton, htext,
      readUpdate_joinedEntries,
      latest_map (fun id => (UInt16.ofNat (t.canValues id).toNat).toNat), canView]
    split_ifs <;> rfl
  refine ⟨?_, ?_, ?_, ?_⟩
  · intro id
    rw [hcell, hcalls, h.values]
  · intro id
    rw [hvalues]
    exact h.short id
  · intro id hbit
    rw [hdirty, Bool.and_eq_true] at hbit
    rw [hcell]
    exact h.dirty id hbit.1
  · intro id hbit
    rw [hview, hcell]
    -- a bit is clear where this call has cleared it, or where it was clear before
    by_cases hid : id ∈ clearedIds t t'
    · have hset : t.canDirty id = true :=
        (Bool.and_eq_true_iff.mp (List.mem_filter.mp hid).2).1
      have hsome := h.dirty id hset
      have hshort := h.short id
      rw [if_pos hid]
      unfold CanTable.cell at hsome ⊢
      split_ifs with hneg
      · exact absurd (if_pos hneg) hsome
      · rw [UInt16.toNat_ofNat']
        congr 1
        omega
    · rw [if_neg hid]
      apply h.clean
      rw [hdirty, decide_eq_true hid, Bool.and_true] at hbit
      exact hbit

theorem canInvariant_run {t : CanTable} {calls : List CanCall} {us : List CanUpdate}
    (hroom : ∀ c ∈ calls, c.HasRoom) (hrun : canCalls.run .init calls = some (t, us)) :
    CanInvariant t calls us := by
  induction calls using List.reverseRecOn generalizing t us with
  | nil =>
    obtain ⟨rfl, rfl⟩ := Prod.mk.inj (Option.some.inj hrun)
    exact CanInvariant.init
  | append_singleton calls call ih =>
    obtain ⟨u, us', o, hfirst, hlast, rfl⟩ := Machine.run_append_eq_some.mp hrun
    have hinv := ih (fun c hc => hroom c (List.mem_append_left _ hc)) hfirst
    have hcall := hroom call (List.mem_append_right _ (List.mem_singleton_self call))
    have hstep := Machine.run_single_eq_some.mp hlast
    cases call with
    | storeRx frame =>
      obtain ⟨rfl, rfl⟩ := Prod.mk.inj (Option.some.inj hstep)
      rw [List.append_nil]
      exact hinv.storeRx frame
    | formatDirty buffer capacity =>
      obtain ⟨rfl, rfl⟩ := Prod.mk.inj (Option.some.inj hstep)
      exact hinv.formatDirty buffer hcall

/-- One frame with id 0x101 and value 0x2a. -/
def oneFrame : CanFrame := ⟨0x101, 8, [0x2a, 0, 0, 0, 0, 0, 0, 0]⟩

end WsServer
