import WsServer.CanDrain
import WsServer.CommandOutcome

/-! The text codec and the frame codec of the bus undo each other: what the formatter hands
to the clients can be sent back piece by piece, and puts the same values on the bus. -/
namespace WsServer
open Interaction Printf Program

/-- The string that a call returns: as much of the buffer as the length says. -/
def CanTable.returned (t : CanTable) (buffer : ℕ → Char) (capacity : ℕ) : CText :=
  (List.range (canBusFormatDirty t buffer capacity).2.2).map
    (canBusFormatDirty t buffer capacity).2.1

/-- Texts that clients send one after the other. -/
def handleTexts : List (Client × CText) → Server Unit
  | [] => pure ()
  | (client, text) :: calls => do
    commandHandleText realMode client text
    handleTexts calls

/-- Memory and the bus are there. -/
def Supplied (env : Env) : Prop := env.alloc = true ∧ env.write 0 = none

/-- All that is written to the bus: from where, which frame, and whether it got there. -/
def busWrites (es : List Event) : List (CanSite × CanFrame × SendResult) :=
  es.filterMap fun
    | .canTx site c result => some (site, c.frame, result)
    | _ => none

/-- The command for an id and a value. -/
def entryCommand (e : ℕ × ℕ) : CanCommand := ⟨UInt32.ofNat e.1, UInt16.ofNat e.2, 0⟩

/-! ### Frames -/

theorem rxId_of_le {id : UInt32} (h : ¬ id > 0x7FF) : id &&& 0x7FF = id := by
  have hle : id.toNat ≤ 0x7FF := UInt32.not_lt.mp h
  apply UInt32.toNat_inj.mp
  rw [UInt32.toNat_and]
  change id.toNat &&& (2^11-1) = id.toNat
  rw [Nat.and_two_pow_sub_one_eq_mod]
  exact Nat.mod_eq_of_lt (by omega)

/-- A frame that the server has sent has none of the flags. -/
theorem flagged_frame {c : CanCommand} (h : ¬ c.id > 0x7FF) : c.frame.flagged = false := by
  have hmask : c.id &&& (0x20000000 ||| 0x40000000 ||| 0x80000000) = 0 := by
    rw [← rxId_of_le h, UInt32.and_assoc]
    exact UInt32.and_zero
  rw [CanFrame.flagged, CanCommand.frame, hmask]
  rfl

theorem rxId_frame {c : CanCommand} (h : ¬ c.id > 0x7FF) : c.frame.rxId = c.id := rxId_of_le h

/-- The two bytes of the value are put together again. -/
theorem rxValue_frame (c : CanCommand) : c.frame.rxValue = c.value := by
  have hlow : (c.value &&& 0xFF).toUInt8.toNat = c.value.toNat % 2^8 := by
    rw [UInt16.toNat_toUInt8, UInt16.toNat_and]
    change (c.value.toNat &&& (2^8-1)) % 2^8 = _
    rw [Nat.and_two_pow_sub_one_eq_mod, Nat.mod_mod]
  have hhigh : ((c.value >>> 8) &&& 0xFF).toUInt8.toNat = c.value.toNat / 2^8 := by
    have hlt := c.value.toNat_lt
    rw [UInt16.toNat_toUInt8, UInt16.toNat_and, UInt16.toNat_shiftRight]
    change ((c.value.toNat >>> 8) &&& (2^8-1)) % 2^8 = _
    rw [Nat.and_two_pow_sub_one_eq_mod, Nat.mod_mod, Nat.shiftRight_eq_div_pow]
    exact Nat.mod_eq_of_lt (by omega)
  have hjoin : c.frame.rxValue = (c.value &&& 0xFF).toUInt8.toUInt16 |||
      (((c.value >>> 8) &&& 0xFF).toUInt8.toUInt16 <<< 8) := rfl
  apply UInt16.toNat_inj.mp
  rw [hjoin, UInt16.toNat_or, UInt16.toNat_shiftLeft, UInt8.toNat_toUInt16,
    UInt8.toNat_toUInt16, hlow, hhigh]
  have hlt := c.value.toNat_lt
  have hshift : (c.value.toNat / 2^8) <<< 8 < 2^16 := by
    rw [Nat.shiftLeft_eq]
    omega
  calc c.value.toNat % 2^8 ||| (c.value.toNat / 2^8) <<< (8 % 16) % 2^16
      = (c.value.toNat / 2^8) <<< 8 ||| c.value.toNat % 2^8 := by
        rw [Nat.or_comm, Nat.mod_eq_of_lt hshift]
    _ = (c.value.toNat / 2^8) <<< 8 + c.value.toNat % 2^8 :=
        (Nat.shiftLeft_add_eq_or_of_lt (Nat.mod_lt _ (by decide)) _).symm
    _ = c.value.toNat := by
        rw [Nat.shiftLeft_eq, Nat.mul_comm]
        exact Nat.div_add_mod _ _

/-! ### One piece -/

theorem readsAs_formatIdValue (id : UInt32) (value : UInt16) :
    parseRawCanFields (formatIdValue id value).toList = some ⟨id, value, 0, false⟩ := by
  have hall := scanAll_formatIdValue id value
  have hshort : Scanf.scanItems [.num 16 .int, .lit '#', .num 16 .short]
      (formatIdValue id value).toList = [.num .int id.toNat, .num .short value.toNat] :=
    Scanf.scanItems_of_scanAll hall
  have hlong : Scanf.scanItems [.num 16 .int, .lit '#', .num 16 .short, .lit '#', .num 10 .short]
      (formatIdValue id value).toList = [.num .int id.toNat, .num .short value.toNat] :=
    (Scanf.scanItems_append hall [.lit '#', .num 10 .short]).2
  have hid : (Scanf.strtoul id.toNat).toUInt32 = id := by
    have hlt := id.toNat_lt
    have hfits := (Scanf.store_int_eq_iff id.toNat).mpr ⟨by omega, by simp only [Scanf.Size.bits]; omega⟩
    apply UInt32.toNat_inj.mp
    omega
  have hvalue : (Scanf.strtoul value.toNat).toUInt16 = value := by
    have hlt := value.toNat_lt
    have hfits := (Scanf.store_short_eq_iff value.toNat).mpr
      ⟨by omega, by simp only [Scanf.Size.bits]; omega⟩
    apply UInt16.toNat_inj.mp
    omega
  simp only [parseRawCanFields, Scanf.sscanf, hshort, hlong, List.map_cons, List.map_nil,
    Scanf.Item.store, hid, hvalue]

/-- A word with a letter that is no hexadecimal digit is not the beginning of a piece. -/
theorem hasPrefix_formatIdValue {word : String} (id : UInt32) (value : UInt16) {c : Char}
    (hword : c ∈ word.toList) (hc : c ≠ '#') (hdigit : Scanf.isDigit 16 c = false) :
    hasPrefix word (formatIdValue id value).toList = false := by
  rw [← Bool.not_eq_true, hasPrefix_iff]
  intro hbegins
  exact not_mem_formatIdValue hc hdigit (hbegins.subset hword)

theorem ne_formatIdValue {word : CText} (id : UInt32) (value : UInt16) {c : Char}
    (hword : c ∈ word) (hc : c ≠ '#') (hdigit : Scanf.isDigit 16 c = false) :
    (formatIdValue id value).toList ≠ word := by
  rintro rfl
  exact not_mem_formatIdValue hc hdigit hword

/-- What a call does with one piece: a frame, a line of the log and an answer. -/
def pieceEvents (client : Client) (id : UInt32) (value : UInt16) : List Event :=
  [.canTx .rawCommand ⟨id, value, 0⟩ .sent, .log "CAN_TX" (formatIdValue id value),
    .sendText client "Message sent"]

/-- A piece gets to the handlers of hotfire mode. -/
theorem commandHandleText_piece (client : Client) (id : UInt32) (value : UInt16) :
    commandHandleText realMode client (formatIdValue id value).toList =
      act (.clientContext client) >>= fun _ => act .allocate >>= fun copied =>
        if !copied then sendReply client "Server error: out of memory"
        else hotfireHandlers client (formatIdValue id value).toList := by
  have htoggle : ¬ IsReadToggle (formatIdValue id value).toList := by
    rintro (h | h)
    · exact ne_formatIdValue id value (c := 'R') (by decide) (by decide) (by decide) h
    · exact ne_formatIdValue id value (c := 'R') (by decide) (by decide) (by decide) h
  have hcan : hasPrefix "CAN1|" (formatIdValue id value).toList = false :=
    hasPrefix_formatIdValue id value (c := 'N') (by decide) (by decide) (by decide)
  have hdispatch : dispatch realMode client (formatIdValue id value).toList =
      copyHandlers client (formatIdValue id value).toList :=
    dispatch_copyHandlers client
      (ne_formatIdValue id value (c := 'O') (by decide) (by decide) (by decide))
      (hasPrefix_formatIdValue id value (c := 'S') (by decide) (by decide) (by decide))
      (hasPrefix_formatIdValue id value (c := 'S') (by decide) (by decide) (by decide))
  have hwiggle : hasPrefix "WIGGLE" (formatIdValue id value).toList = false :=
    hasPrefix_formatIdValue id value (c := 'W') (by decide) (by decide) (by decide)
  rw [commandHandleText_other realMode client htoggle, stripCanPrefix_bare hcan, hdispatch,
    copyHandlers_hotfire client hwiggle]

/-- There nothing before the last handler takes it. -/
theorem handlers_piece (client : Client) (id : UInt32) (value : UInt16) :
    (handleDrown client (formatIdValue id value).toList >>= fun drown =>
      if drown then pure () else handleFire client (formatIdValue id value).toList >>= fun fire =>
        if fire then pure () else handleRawCan client (formatIdValue id value).toList >>= fun raw =>
          if raw then pure () else sendReply client "Invalid command") =
      handleRawCan client (formatIdValue id value).toList >>= fun raw =>
        if raw then pure () else sendReply client "Invalid command" := by
  have hdrown : (formatIdValue id value).toList ≠ "DROWN#8765".toList :=
    ne_formatIdValue id value (c := 'W') (by decide) (by decide) (by decide)
  have hfire : hasPrefix "FIRE#8765" (formatIdValue id value).toList = false :=
    hasPrefix_formatIdValue id value (c := 'I') (by decide) (by decide) (by decide)
  rw [handleDrown_other client hdrown, Program.pure_eq, Program.ret_bind,
    if_neg Bool.false_ne_true, handleFire_other client hfire, Program.pure_eq,
    Program.ret_bind, if_neg Bool.false_ne_true]

theorem always_piece (client : Client) {p : Process} (hstate : p.app.state = .hotfire)
    (hsocket : 0 ≤ p.app.canFd) {id : UInt32} (hid : ¬ id > 0x7FF) (value : UInt16) :
    Always (S := serverSig) perform Supplied
      (commandHandleText realMode client (formatIdValue id value).toList) p
      (fun tr _ p' => p' = p ∧
        outputs (S := serverSig) perform tr = pieceEvents client id value) := by
  have hmode : ¬ p.app.state = .prechilling := by
    rw [hstate]
    decide
  rw [commandHandleText_piece]
  intro env _ env₁ hsupplied
  change Always (S := serverSig) perform Supplied (if !env₁.alloc then _ else _) p _
  rw [hsupplied.1, Bool.not_true, if_neg Bool.false_ne_true]
  -- the mode is read, and then the piece itself
  intro env₂ _
  change Always (S := serverSig) perform Supplied (if p.app.state = .prechilling then _ else _) p _
  rw [if_neg hmode, handlers_piece, handleRawCan, readsAs_formatIdValue]
  intro env₃ hwrite
  have hsent : canBusSendCommand p.app.canFd ⟨id, value, 0⟩ (env₃.write 0) = .sent := by
    rw [hwrite.2]
    exact canBusSendCommand_lucky hsocket hid
  have hperform : perform p env₃ (.canSend ⟨id, value, 0⟩) =
      (p, .sent, [.canTx .rawCommand ⟨id, value, 0⟩ .sent]) := by
    simp only [perform, hsent]
  rw [hperform]
  intro env₄ _ env₅ _
  refine ⟨rfl, ?_⟩
  change (perform p env₃ (.canSend ⟨id, value, 0⟩)).2.2 ++
    [.log "CAN_TX" (formatIdValue id value), .sendText client "Message sent"] = _
  rw [hperform]
  rfl

/-! ### All pieces -/

theorem busWrites_append (es fs : List Event) :
    busWrites (es ++ fs) = busWrites es ++ busWrites fs := List.filterMap_append

theorem canId_in_range (id : Fin appCanIdCount) : ¬ UInt32.ofNat id.val > 0x7FF := by
  intro hgt
  have hgt : 0x7FF < (UInt32.ofNat id.val).toNat := hgt
  have hlt : id.val < 0x800 := id.isLt
  rw [toNat_canId] at hgt
  omega

/-- The calls of a list of texts, of which each does its own part. -/
theorem always_pieces (calls : List (Client × CText)) (ids : List (Fin appCanIdCount))
    (canValues : Fin appCanIdCount → Int) {p : Process} (hstate : p.app.state = .hotfire)
    (hsocket : 0 ≤ p.app.canFd) (h : calls.map Prod.snd = ids.map (canEntry canValues)) :
    Always (S := serverSig) perform Supplied (handleTexts calls) p (fun tr _ _ =>
      busWrites (outputs (S := serverSig) perform tr) = ids.map (fun id =>
        (.rawCommand, (entryCommand (id.val, (canValues id).toNat)).frame, .sent))) := by
  induction calls generalizing ids with
  | nil =>
    rw [List.map_nil] at h
    rw [List.map_eq_nil_iff.mp h.symm]
    rfl
  | cons call calls ih =>
    obtain ⟨client, text⟩ := call
    cases ids with
    | nil => cases h
    | cons id ids =>
      rw [List.map_cons, List.map_cons, List.cons.injEq] at h
      obtain ⟨htext, hrest⟩ := h
      dsimp only at htext
      rw [handleTexts, htext]
      refine always_bind.mpr
        ((always_piece client hstate hsocket (canId_in_range id) _).mono ?_)
      rintro tr v p' ⟨rfl, houtputs⟩
      refine (ih ids hrest).mono ?_
      intro tr' v' q hwrites
      rw [outputs_append, houtputs, busWrites_append, hwrites]
      rfl

/-! ### The frames on a fresh table -/

theorem canBusStoreRx_entry (t : CanTable) (id : Fin appCanIdCount) (n : ℕ) :
    canBusStoreRx t (entryCommand (id.val, n)).frame =
      (⟨writeAt t.canValues id.val (UInt16.ofNat n).toNat, writeAt t.canDirty id.val true⟩,
        [.log "CAN_RX" (formatIdValue (UInt32.ofNat id) (UInt16.ofNat n))]) := by
  have hrange : ¬ (entryCommand (id.val, n)).id > 0x7FF := canId_in_range id
  rw [canBusStoreRx, flagged_frame hrange, if_neg Bool.false_ne_true, rxId_frame hrange,
    rxValue_frame]
  simp only [entryCommand, toNat_canId]

/-- A table that has received each of the ids, with its value. -/
structure CanTable.Received (t t' : CanTable) (value : Fin appCanIdCount → ℕ)
    (ids : List (Fin appCanIdCount)) : Prop where
  values : ∀ id, t'.canValues id =
    if id ∈ ids then ((UInt16.ofNat (value id)).toNat : Int) else t.canValues id
  dirty : ∀ id, t'.canDirty id = (decide (id ∈ ids) || t.canDirty id)

theorem receives (value : Fin appCanIdCount → ℕ) (ids : List (Fin appCanIdCount)) (t : CanTable) :
    ∃ t', canCalls.run t
        (ids.map (fun id => .storeRx (entryCommand (id.val, value id)).frame)) = some (t', []) ∧
      t.Received t' value ids := by
  induction ids generalizing t with
  | nil => exact ⟨t, rfl, fun _ => rfl, fun _ => rfl⟩
  | cons id ids ih =>
    let u : CanTable := ⟨writeAt t.canValues id.val (UInt16.ofNat (value id)).toNat,
      writeAt t.canDirty id.val true⟩
    obtain ⟨t', hrun, hreceived⟩ := ih u
    have hstep : canCalls.step t (.storeRx (entryCommand (id.val, value id)).frame) =
        some (u, []) := by
      simp only [canCalls, canBusStoreRx_entry, u]
    refine ⟨t', Machine.run_cons_eq_some.mpr ⟨u, [], [], hstep, hrun, rfl⟩, ?_, ?_⟩
    · intro other
      rw [hreceived.values other]
      by_cases hother : other = id
      · simp [u, writeAt, hother]
      · have hval : other.val ≠ id.val := fun h => hother (Fin.ext h)
        simp [u, writeAt, hother, hval]
    · intro other
      rw [hreceived.dirty other]
      by_cases hother : other = id
      · simp [u, writeAt, hother]
      · have hval : other.val ≠ id.val := fun h => hother (Fin.ext h)
        simp [u, writeAt, hother, hval]

/-- What a fresh table has pending are the ids that it has received. -/
theorem CanTable.Received.pending {t' : CanTable} {value : Fin appCanIdCount → ℕ}
    {ids : List (Fin appCanIdCount)} (h : CanTable.init.Received t' value ids)
    (hsub : ids.Sublist (List.finRange appCanIdCount)) : t'.pending = ids := by
  rw [CanTable.pending, pendingIds]
  refine Eq.trans (List.filter_congr ?_) (filter_mem_of_sublist hsub (List.nodup_finRange _))
  intro id _
  rw [h.dirty id, h.values id]
  by_cases hid : id ∈ ids
  · have hpos : ¬ ((UInt16.ofNat (value id)).toNat : Int) < 0 := by omega
    rw [if_pos hid, decide_eq_true hid, decide_eq_false hpos]
    rfl
  · simp [hid, CanTable.init]

theorem CanTable.Received.cell {t' : CanTable} {value : Fin appCanIdCount → ℕ}
    {ids : List (Fin appCanIdCount)} (h : CanTable.init.Received t' value ids)
    (id : Fin appCanIdCount) :
    t'.cell id = if id ∈ ids then some (UInt16.ofNat (value id)).toNat else none := by
  rw [CanTable.cell, h.values id]
  by_cases hid : id ∈ ids
  · have hpos : ¬ ((UInt16.ofNat (value id)).toNat : Int) < 0 := by omega
    rw [if_pos hid, if_pos hid, if_neg hpos, Int.toNat_natCast]
  · rw [if_neg hid, if_neg hid]
    rfl

/-- A cell is dirty where it holds a value. -/
theorem CanTable.Received.dirty_eq {t' : CanTable} {value : Fin appCanIdCount → ℕ}
    {ids : List (Fin appCanIdCount)} (h : CanTable.init.Received t' value ids)
    (id : Fin appCanIdCount) : t'.canDirty id = (t'.cell id).isSome := by
  rw [h.cell id, h.dirty id]
  by_cases hid : id ∈ ids
  · rw [if_pos hid, decide_eq_true hid]
    rfl
  · rw [if_neg hid, decide_eq_false hid]
    rfl

/-- The cells are the entries that were received. -/
theorem CanTable.Received.cell_eq_some_iff {t' : CanTable} {value : Fin appCanIdCount → ℕ}
    {ids : List (Fin appCanIdCount)} (h : CanTable.init.Received t' value ids)
    (id : Fin appCanIdCount) (v : ℕ) :
    t'.cell id = some v ↔
      (id.val, v) ∈ ids.map (fun id => (id.val, (UInt16.ofNat (value id)).toNat)) := by
  rw [h.cell id, List.mem_map]
  constructor
  · intro hsome
    split_ifs at hsome with hid
    exact ⟨id, hid, Prod.ext rfl (Option.some.inj hsome)⟩
  · intro hmem
    obtain ⟨other, hother, heq⟩ := hmem
    obtain ⟨hid, hvalue⟩ := Prod.mk.inj heq
    rw [Fin.ext hid] at hother hvalue
    rw [if_pos hother, hvalue]

/-! ### What a call returns -/

/-- The first characters of a buffer are those of its string. -/
theorem map_range_of_cString {memory : ℕ → Char} {capacity : ℕ} {s : CText}
    (h : cString capacity memory = s) : (List.range s.length).map memory = s := by
  have hbegins : s <+: (List.range capacity).map memory := h ▸ List.takeWhile_prefix _
  have hlength : s.length ≤ capacity := by
    have hle := hbegins.length_le
    rw [List.length_map, List.length_range] at hle
    exact hle
  have htake := List.prefix_iff_eq_take.mp hbegins
  rw [← List.map_take, List.take_range, min_eq_left hlength] at htake
  exact htake.symm

theorem returned_eq (t : CanTable) (buffer : ℕ → Char) (capacity : ℕ) :
    t.returned buffer capacity =
      joinedEntries t.canValues (t.pending.take (entryRoom capacity)) := by
  rw [CanTable.returned]
  by_cases hcapacity : 10 ≤ capacity
  · have h := canBusFormatDirty_formats t buffer hcapacity
    have htext := map_range_of_cString h.text
    rw [h.length, h.text, htext, entryRoom]
  · have hroom : entryRoom capacity = 0 := by
      rw [entryRoom]
      omega
    rw [canBusFormatDirty_small t buffer (by omega), hroom]
    rfl

/-- A fresh table with the values of some entries prints the same entries. -/
theorem CanTable.Received.joinedEntries {t t' : CanTable} {ids : List (Fin appCanIdCount)}
    (h : CanTable.init.Received t' (fun id => (t.canValues id).toNat) ids) :
    joinedEntries t'.canValues ids = joinedEntries t.canValues ids := by
  have hsame : ∀ id ∈ ids, canEntry t'.canValues id = canEntry t.canValues id := by
    intro id hid
    rw [canEntry, canEntry, h.values id, if_pos hid, Int.toNat_natCast, UInt16.ofNat_toNat]
  rw [WsServer.joinedEntries, WsServer.joinedEntries, List.map_congr_left hsame]

/-! ### The round trip -/

/-- The pieces of every string that the formatter returns reach the raw handler, one frame
each; these frames put the ids and values of the pieces into a fresh table, and formatting
it returns the string again. -/
theorem can_codecs_agree (t : CanTable) (buffer : ℕ → Char) (capacity : ℕ)
    {calls : List (Client × CText)}
    (hcalls : calls.map Prod.snd = Strtok.tokens '|' (t.returned buffer capacity)) {p : Process}
    (hstate : p.app.state = .hotfire) (hsocket : 0 ≤ p.app.canFd) :
    ∃ frames : List CanFrame,
      frames = (readUpdate (t.returned buffer capacity)).map (fun e => (entryCommand e).frame) ∧
      frames.length = calls.length ∧
      Always (S := serverSig) perform Supplied (handleTexts calls) p (fun tr _ _ =>
        busWrites (outputs (S := serverSig) perform tr) =
          frames.map (fun frame => (.rawCommand, frame, .sent))) ∧
      ∃ t', canCalls.run .init (frames.map .storeRx) = some (t', []) ∧
        (∀ id, t'.canDirty id = (t'.cell id).isSome) ∧
        (∀ id value, t'.cell id = some value ↔
          (id.val, value) ∈ readUpdate (t.returned buffer capacity)) ∧
        ∀ buffer', t'.returned buffer' capacity = t.returned buffer capacity := by
  -- the ids whose entries the string holds, in its order
  let ids := t.pending.take (entryRoom capacity)
  have hsub : ids.Sublist (List.finRange appCanIdCount) :=
    (List.take_sublist _ _).trans List.filter_sublist
  have hroom : ids.length ≤ entryRoom capacity := List.length_take_le _ _
  have hread : readUpdate (t.returned buffer capacity) =
      ids.map (fun id => (id.val, (UInt16.ofNat (t.canValues id).toNat).toNat)) := by
    rw [returned_eq, readUpdate_joinedEntries]
  rw [returned_eq, tokens_joinedEntries] at hcalls
  -- four digits hold every value of a frame
  have hcommand : ∀ id : Fin appCanIdCount,
      entryCommand (id.val, (UInt16.ofNat (t.canValues id).toNat).toNat) =
        entryCommand (id.val, (t.canValues id).toNat) := by
    intro id
    rw [entryCommand, entryCommand, UInt16.ofNat_toNat]
  have hframes : (readUpdate (t.returned buffer capacity)).map (fun e => (entryCommand e).frame) =
      ids.map (fun id => (entryCommand (id.val, (t.canValues id).toNat)).frame) := by
    rw [hread, List.map_map]
    exact List.map_congr_left (fun id _ => congrArg CanCommand.frame (hcommand id))
  -- the frames come back into a table that was empty before
  obtain ⟨t', hrun, hreceived⟩ := receives (fun id => (t.canValues id).toNat) ids .init
  refine ⟨_, rfl, ?_, ?_, t', ?_, ?_, ?_, ?_⟩
  · rw [hframes, List.length_map, ← List.length_map (f := Prod.snd), hcalls, List.length_map]
  · rw [hframes, List.map_map]
    exact always_pieces calls ids t.canValues hstate hsocket hcalls
  · rw [hframes, List.map_map]
    exact hrun
  · exact hreceived.dirty_eq
  · intro id value
    rw [hread]
    exact hreceived.cell_eq_some_iff id value
  · intro buffer'
    rw [returned_eq, returned_eq, hreceived.pending hsub, List.take_of_length_le hroom,
      hreceived.joinedEntries]

/-- One received frame, formatted, sent back and received again. -/
theorem can_codecs_agree_one_frame :
    let t := (canBusStoreRx .init oneFrame).1
    let buffer : ℕ → Char := fun _ => nul
    ∃ frames : List CanFrame,
      frames = (readUpdate (t.returned buffer 10)).map (fun e => (entryCommand e).frame) ∧
      frames.length = 1 ∧
      Always (S := serverSig) perform Supplied (handleTexts [(7, "101#002a".toList)])
        (idleProcess .hotfire) (fun tr _ _ =>
          busWrites (outputs (S := serverSig) perform tr) =
            frames.map (fun frame => (.rawCommand, frame, .sent))) ∧
      ∃ t', canCalls.run .init (frames.map .storeRx) = some (t', []) ∧
        (∀ id, t'.canDirty id = (t'.cell id).isSome) ∧
        (∀ id value, t'.cell id = some value ↔
          (id.val, value) ∈ readUpdate (t.returned buffer 10)) ∧
        ∀ buffer', t'.returned buffer' 10 = t.returned buffer 10 := by
  intro t buffer
  have hpending : t.pending = [⟨0x101, by decide⟩] := by decide +kernel
  have hcalls : [((7 : Client), "101#002a".toList)].map Prod.snd =
      Strtok.tokens '|' (t.returned buffer 10) := by
    rw [returned_eq, tokens_joinedEntries, hpending]
    decide
  exact can_codecs_agree t buffer 10 hcalls rfl (by decide)

end WsServer
