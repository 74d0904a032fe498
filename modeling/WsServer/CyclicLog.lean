import WsServer.LogCalls

/-! The ring of the cyclic log. Its capacity is always the size of the file, but for a small
file, so that maintenance computes it anew without a change; and what stands below the offset
is what has been written since the offset was last set back. -/
namespace WsServer
open Interaction

inductive RingCall where
  | write (piece : CText)
  | maintain (env : MaintenanceEnv)

/-- The cyclic log with its directory: writes that succeed, and maintenance runs that leave it
in cyclic mode. -/
def ringLog : Machine (Logger × Directory) RingCall LogEvent where
  step s
    | .write piece =>
      let x := writeCyclicBytesLocked .good piece s.1
      some ((x.1, s.2), x.2.2)
    | .maintain env => (maybeRunMaintenanceLocked env s.1 s.2).bind fun x =>
      if x.1.cyclicMode then some ((x.1, x.2.1), x.2.2) else none

/-- What is written after an event, of what was before. -/
def LogEvent.since (written : CText) : LogEvent → CText
  | .reset => []
  | .wrote _ data => written ++ data
  | _ => written

/-- The pieces written since the offset was last reset to 0, in their order. -/
def sinceReset (es : List LogEvent) : CText := es.foldl LogEvent.since []

def LogEvent.pieceLength : LogEvent → ℕ
  | .wrote _ data => data.length
  | _ => 0

/-- The length of the longest piece written. -/
def longestPiece (es : List LogEvent) : ℕ := (es.map LogEvent.pieceLength).foldr max 0

/-- The law of the ring, after the events since cyclic mode was entered with a file of this
size. -/
structure RingLaw (size : ℕ) (es : List LogEvent) (l : Logger) : Prop where
  offset : 0 ≤ l.cyclicWriteOffset ∧ l.cyclicWriteOffset < l.cyclicCapacityBytes
  inside : ∀ o data, LogEvent.wrote o data ∈ es → 0 ≤ o ∧ o+data.length ≤ l.cyclicCapacityBytes
  contents : ∃ file, l.fp = some file ∧ file.length ≤ max (max size 4096) (longestPiece es) ∧
    l.cyclicWriteOffset ≤ file.length ∧ file.take l.cyclicWriteOffset.toNat = sinceReset es
  prepared : ∀ io, (prepareCyclicModeLocked io l).1.cyclicWriteOffset = l.cyclicWriteOffset

/-! ### The ring as numbers -/

/-- The capacity for a piece, of the size of the file. -/
def ringCapacity (size len : ℕ) : ℕ := max (max 4096 size) len

/-- Where a piece is written. -/
def ringStart (size offset len : ℕ) : ℕ :=
  if ringCapacity size len < offset+len then 0 else offset

/-- The offset behind a piece. -/
def ringEnd (size offset len : ℕ) : ℕ :=
  if ringCapacity size len ≤ ringStart size offset len+len then 0
  else ringStart size offset len+len

/-- The resets at a piece: in front of it, where it does not fit, and behind it, where it
fills the ring. -/
def ringEvents (size offset : ℕ) (data : CText) : List LogEvent :=
  (if ringCapacity size data.length < offset+data.length then [.reset] else []) ++
    .wrote (ringStart size offset data.length) data ::
      (if ringCapacity size data.length ≤ ringStart size offset data.length+data.length then
        [.reset] else [])

variable {l : Logger} {file data : CText} {offset size len : ℕ}

theorem ringStart_le (h : offset ≤ size) : ringStart size offset len ≤ size := by
  unfold ringStart
  split_ifs
  · exact Nat.zero_le size
  · exact h

/-- A piece is written inside the ring. -/
theorem ringStart_add_le : ringStart size offset len+len ≤ ringCapacity size len := by
  unfold ringStart
  split_ifs with hwraps
  · rw [Nat.zero_add]
    exact Nat.le_max_right _ _
  · exact Nat.not_lt.mp hwraps

theorem ringEnd_lt : ringEnd size offset len < ringCapacity size len := by
  unfold ringEnd
  split_ifs with hends
  · exact lt_of_lt_of_le (by decide : 0 < 4096)
      (le_trans (Nat.le_max_left 4096 size) (Nat.le_max_left _ len))
  · exact Nat.not_le.mp hends

theorem ringEnd_le :
    ringEnd size offset len ≤ max size (ringStart size offset len+len) := by
  unfold ringEnd
  split_ifs
  · exact Nat.zero_le _
  · exact Nat.le_max_right _ _

/-- The capacity is the one of the new size: a piece that raises it fills the file up to it. -/
theorem ringCapacity_after :
    max 4096 (max size (ringStart size offset len+len)) = ringCapacity size len := by
  have hle : ringStart size offset len+len ≤ ringCapacity size len := ringStart_add_le
  have hlen : len ≤ ringStart size offset len+len := Nat.le_add_left _ _
  unfold ringCapacity at *
  omega

/-! ### The ring in the logger -/

/-- The logger is a ring with this file and this offset. -/
structure Logger.Ring (l : Logger) (file : CText) (offset : ℕ) : Prop where
  fp : l.fp = some file
  capacity : l.cyclicCapacityBytes = ((max 4096 file.length : ℕ) : Int)
  writeOffset : l.cyclicWriteOffset = (offset : Int)
  inside : offset ≤ file.length
  below : offset < max 4096 file.length

/-- The capacity that `prepare_cyclic_mode_locked` computes. -/
theorem prepared_capacity (size : ℕ) :
    (if (size : Int) < loggerMinCyclicCapacityBytes then loggerMinCyclicCapacityBytes
      else (size : Int)) = ((max 4096 size : ℕ) : Int) := by
  rw [loggerMinCyclicCapacityBytes]
  split_ifs <;> omega

/-- Maintenance computes the capacity that there is. -/
theorem Logger.Ring.prepare (h : l.Ring file offset) (io : PrepareIO) :
    (prepareCyclicModeLocked io l).1 = l ∧ (prepareCyclicModeLocked io l).2.2 = [] := by
  obtain ⟨enabled, fp, logDir, currentPath, next, mode, writeOffset, capacity⟩ := l
  obtain ⟨fflush, fstat⟩ := io
  obtain rfl : fp = some file := h.fp
  obtain rfl : capacity = ((max 4096 file.length : ℕ) : Int) := h.capacity
  obtain rfl : writeOffset = (offset : Int) := h.writeOffset
  have hbelow : ¬ ((offset : Int) < 0 ∨
      (offset : Int) ≥ ((max 4096 file.length : ℕ) : Int)) := by
    have hlt := h.below
    omega
  cases fflush with
  | false => exact ⟨rfl, rfl⟩
  | true =>
    cases fstat with
    | false => exact ⟨rfl, rfl⟩
    | true =>
      simp only [prepareCyclicModeLocked, Bool.not_true, Bool.false_eq_true, if_false,
        prepared_capacity, if_neg hbelow]
      exact ⟨trivial, trivial⟩

/-- Entered from normal mode the ring begins at 0. -/
theorem prepare_entered (hfp : l.fp = some file) (hoffset : l.cyclicWriteOffset = 0) :
    (prepareCyclicModeLocked ⟨true, true⟩ l).1.Ring file 0 := by
  obtain ⟨enabled, fp, logDir, currentPath, next, mode, writeOffset, capacity⟩ := l
  obtain rfl : fp = some file := hfp
  obtain rfl : writeOffset = 0 := hoffset
  have hbelow : ¬ ((0 : Int) < 0 ∨ (0 : Int) ≥ ((max 4096 file.length : ℕ) : Int)) := by omega
  simp only [prepareCyclicModeLocked, Bool.not_true, Bool.false_eq_true, if_false,
    prepared_capacity, if_neg hbelow]
  exact ⟨rfl, rfl, rfl, Nat.zero_le _, by omega⟩

/-- What a write makes of the logger. -/
def Logger.afterPiece (l : Logger) (file : CText) (offset : ℕ) (data : CText) : Logger :=
  { l with
    fp := some (ByteFile.write (Char.ofNat 0) file (ringStart file.length offset data.length) data)
    cyclicCapacityBytes := (ringCapacity file.length data.length : ℕ)
    cyclicWriteOffset := (ringEnd file.length offset data.length : ℕ) }

/-- The write of a piece is the one of the ring. -/
theorem writeCyclic_eq (h : l.Ring file offset) (hdata : data ≠ []) :
    writeCyclicBytesLocked .good data l =
      (l.afterPiece file offset data, 0, ringEvents file.length offset data) := by
  obtain ⟨enabled, fp, logDir, currentPath, next, mode, writeOffset, capacity⟩ := l
  obtain rfl : fp = some file := h.fp
  obtain rfl : capacity = ((max 4096 file.length : ℕ) : Int) := h.capacity
  obtain rfl : writeOffset = (offset : Int) := h.writeOffset
  have hpositive : ¬ ((max 4096 file.length : ℕ) : Int) ≤ 0 := by omega
  -- the numbers of the source are those of the ring
  have hcap : (if (data.length : Int) > ((max 4096 file.length : ℕ) : Int) then
      (data.length : Int) else ((max 4096 file.length : ℕ) : Int)) =
        ((ringCapacity file.length data.length : ℕ) : Int) := by
    rw [ringCapacity]
    split_ifs <;> omega
  have hwraps : (offset : Int)+(data.length : Int) >
      ((ringCapacity file.length data.length : ℕ) : Int) ↔
        ringCapacity file.length data.length < offset+data.length := by
    omega
  have hstart : (if ringCapacity file.length data.length < offset+data.length then (0 : Int)
      else (offset : Int)) = ((ringStart file.length offset data.length : ℕ) : Int) := by
    rw [ringStart]
    split_ifs <;> rfl
  have hends : ((ringStart file.length offset data.length : ℕ) : Int)+(data.length : Int) ≥
      ((ringCapacity file.length data.length : ℕ) : Int) ↔
        ringCapacity file.length data.length ≤
          ringStart file.length offset data.length+data.length := by
    omega
  have hnegative : ¬ ((ringStart file.length offset data.length : ℕ) : Int) < 0 := by omega
  simp only [writeCyclicBytesLocked, if_neg hdata, if_neg hpositive, ne_eq, not_true, if_false,
    List.nil_append, writePiece, hcap, hwraps, hstart, hends, WriteIO.good, Bool.not_true,
    Bool.false_or, decide_eq_true_eq, if_neg hnegative, Option.getD_none, List.take_length,
    if_true, Int.toNat_natCast]
  unfold Logger.afterPiece ringEvents ringEnd
  split_ifs
  all_goals rfl

theorem writeCyclic_nil (h : l.Ring file offset) :
    writeCyclicBytesLocked .good [] l = (l, 0, []) := by
  simp only [writeCyclicBytesLocked, h.fp, if_true]

/-- The file behind a write, and what it holds up to there. -/
theorem length_ringWrite (h : offset ≤ file.length) (data : CText) :
    (ByteFile.write (Char.ofNat 0) file (ringStart file.length offset data.length) data).length =
      max file.length (ringStart file.length offset data.length+data.length) :=
  ByteFile.length_write _ (ringStart_le h) data

theorem Logger.Ring.afterPiece (h : l.Ring file offset) (data : CText) :
    (l.afterPiece file offset data).Ring
      (ByteFile.write (Char.ofNat 0) file (ringStart file.length offset data.length) data)
      (ringEnd file.length offset data.length) := by
  have hlength := length_ringWrite h.inside data
  have hcapacity : max 4096 (ByteFile.write (Char.ofNat 0) file
      (ringStart file.length offset data.length) data).length =
        ringCapacity file.length data.length := by
    rw [hlength]
    exact ringCapacity_after
  refine ⟨rfl, ?_, rfl, ?_, ?_⟩
  · rw [hcapacity]
    rfl
  · rw [hlength]
    exact ringEnd_le
  · rw [hcapacity]
    exact ringEnd_lt

/-! ### The pieces -/

theorem sinceReset_append (es fs : List LogEvent) :
    sinceReset (es ++ fs) = fs.foldl LogEvent.since (sinceReset es) := by
  rw [sinceReset, List.foldl_append, sinceReset]

theorem longestPiece_append (es fs : List LogEvent) :
    longestPiece (es ++ fs) = max (longestPiece es) (longestPiece fs) := by
  induction es with
  | nil =>
    change longestPiece fs = max 0 (longestPiece fs)
    rw [Nat.zero_max]
  | cons e es ih =>
    change max e.pieceLength (longestPiece (es ++ fs)) =
      max (max e.pieceLength (longestPiece es)) (longestPiece fs)
    rw [ih, Nat.max_assoc]

theorem longestPiece_ringEvents (size offset : ℕ) (data : CText) :
    longestPiece (ringEvents size offset data) = data.length := by
  unfold ringEvents
  split_ifs <;> simp [longestPiece, LogEvent.pieceLength]

theorem sinceReset_ringEvents (es : List LogEvent) (size offset : ℕ) (data : CText) :
    sinceReset (es ++ ringEvents size offset data) =
      if ringCapacity size data.length ≤ ringStart size offset data.length+data.length then []
      else (if ringCapacity size data.length < offset+data.length then [] else sinceReset es) ++
        data := by
  rw [sinceReset_append]
  unfold ringEvents
  split_ifs <;> rfl

theorem mem_ringEvents {size offset : ℕ} {data data' : CText} {o : Int}
    (h : LogEvent.wrote o data' ∈ ringEvents size offset data) :
    o = ringStart size offset data.length ∧ data' = data := by
  unfold ringEvents at h
  split_ifs at h <;>
    simp only [List.mem_append, List.mem_cons, List.not_mem_nil, or_false, false_or,
      reduceCtorEq, LogEvent.wrote.injEq] at h <;> exact h

/-- The invariant of the ring: its logger, the events and the size at the beginning. -/
structure RingState (size : ℕ) (es : List LogEvent) (l : Logger) (file : CText) (offset : ℕ) :
    Prop where
  ring : l.Ring file offset
  bound : max 4096 file.length ≤ max (max size 4096) (longestPiece es)
  written : file.take offset = sinceReset es
  inside : ∀ o data, LogEvent.wrote o data ∈ es → 0 ≤ o ∧ o+data.length ≤ l.cyclicCapacityBytes

theorem RingState.law {es : List LogEvent} (h : RingState size es l file offset) :
    RingLaw size es l where
  offset := by
    have hbelow := h.ring.below
    rw [h.ring.writeOffset, h.ring.capacity]
    omega
  inside := h.inside
  contents := by
    refine ⟨file, h.ring.fp, le_trans (Nat.le_max_right _ _) h.bound, ?_, ?_⟩
    · rw [h.ring.writeOffset]
      exact Int.ofNat_le.mpr h.ring.inside
    · rw [h.ring.writeOffset, Int.toNat_natCast]
      exact h.written
  prepared io := by rw [(h.ring.prepare io).1]

/-- What is written stands behind what was kept of the bytes below the offset. -/
theorem take_ringWrite (h : offset ≤ file.length) (data : CText) :
    (ByteFile.write (Char.ofNat 0) file (ringStart file.length offset data.length) data).take
      (ringStart file.length offset data.length+data.length) =
        (if ringCapacity file.length data.length < offset+data.length then []
          else file.take offset) ++ data := by
  rw [ByteFile.take_write _ (ringStart_le h)]
  congr 1
  unfold ringStart
  split_ifs <;> rfl

/-- The step lemma for a piece. -/
theorem RingState.write {es : List LogEvent} (h : RingState size es l file offset)
    (data : CText) :
    ∃ file' offset', RingState size (es ++ (writeCyclicBytesLocked .good data l).2.2)
      (writeCyclicBytesLocked .good data l).1 file' offset' := by
  by_cases hdata : data = []
  · rw [hdata, writeCyclic_nil h.ring, List.append_nil]
    exact ⟨file, offset, h⟩
  rw [writeCyclic_eq h.ring hdata]
  refine ⟨_, _, h.ring.afterPiece data, ?_, ?_, ?_⟩
  · -- only a piece longer than the capacity makes the file longer than it was to be
    have hbound := h.bound
    rw [length_ringWrite h.ring.inside, ringCapacity_after, longestPiece_append,
      longestPiece_ringEvents, ringCapacity]
    omega
  · rw [sinceReset_ringEvents]
    by_cases hends : ringCapacity file.length data.length ≤
        ringStart file.length offset data.length+data.length
    · -- the piece has filled the ring up
      rw [if_pos hends, ringEnd, if_pos hends, List.take_zero]
    · rw [if_neg hends, ringEnd, if_neg hends, take_ringWrite h.ring.inside, h.written]
  · intro o data' hmem
    have hcapacity : l.cyclicCapacityBytes ≤ (ringCapacity file.length data.length : ℕ) := by
      rw [h.ring.capacity, ringCapacity]
      omega
    rcases List.mem_append.mp hmem with hold | hnew
    · obtain ⟨hfirst, hlast⟩ := h.inside o data' hold
      exact ⟨hfirst, hlast.trans hcapacity⟩
    · obtain ⟨rfl, rfl⟩ := mem_ringEvents hnew
      have hle : ringStart file.length offset data'.length+data'.length ≤
          ringCapacity file.length data'.length := ringStart_add_le
      exact ⟨Int.natCast_nonneg _, Int.ofNat_le.mpr hle⟩

/-! ### Maintenance -/

theorem since_quiet {e : LogEvent} (h : e.Quiet) (written : CText) :
    LogEvent.since written e = written := by
  cases e with
  | freePercent percent => rfl
  | unlink path done => rfl
  | reset => cases h
  | wrote o data => cases h

theorem sinceReset_quiet (es : List LogEvent) {fs : List LogEvent} (h : QuietEvents fs) :
    sinceReset (es ++ fs) = sinceReset es := by
  rw [sinceReset_append]
  generalize sinceReset es = written
  induction fs with
  | nil => rfl
  | cons e fs ih =>
    rw [List.foldl_cons, since_quiet (h e List.mem_cons_self)]
    exact ih (fun e' he' => h e' (List.mem_cons_of_mem e he'))

/-- Maintenance that stays in cyclic mode leaves the ring as it is. -/
theorem Logger.Ring.maintain {env : MaintenanceEnv} {dir dir' : Directory} {l' : Logger}
    {fs : List LogEvent} (h : l.Ring file offset)
    (hmaintenance : maybeRunMaintenanceLocked env l dir = some (l', dir', fs))
    (hmode : l'.cyclicMode = true) : l'.Ring file offset ∧ QuietEvents fs := by
  obtain ⟨next, hm⟩ := maintenance_maintained hmaintenance
  cases hm with
  | kept hfs => exact ⟨⟨h.fp, h.capacity, h.writeOffset, h.inside, h.below⟩, hfs⟩
  | left hfs => cases hmode
  | prepared hfs =>
    -- the capacity that is computed anew is the one there is
    have hring : Logger.Ring { l with nextMaintenanceMs := next, cyclicMode := true } file
        offset := ⟨h.fp, h.capacity, h.writeOffset, h.inside, h.below⟩
    rw [(hring.prepare env.prepare).1, (hring.prepare env.prepare).2, List.append_nil]
    exact ⟨hring, hfs⟩

theorem RingState.maintain {es fs : List LogEvent} {env : MaintenanceEnv}
    {dir dir' : Directory} {l' : Logger} (h : RingState size es l file offset)
    (hmaintenance : maybeRunMaintenanceLocked env l dir = some (l', dir', fs))
    (hmode : l'.cyclicMode = true) : RingState size (es ++ fs) l' file offset := by
  obtain ⟨hring, hquiet⟩ := h.ring.maintain hmaintenance hmode
  refine ⟨hring, ?_, (h.written.trans (sinceReset_quiet es hquiet).symm), ?_⟩
  · have hbound := h.bound
    rw [longestPiece_append]
    omega
  · intro o data hmem
    rcases List.mem_append.mp hmem with hold | hnew
    · rw [hring.capacity, ← h.ring.capacity]
      exact h.inside o data hold
    · cases hquiet _ hnew

/-- Cyclic mode is entered at the beginning of the file. -/
theorem Logger.Normal.enter {env : MaintenanceEnv} {dir dir' : Directory} {l' : Logger}
    {fs : List LogEvent} (h : l.Normal file) (hio : env.prepare = ⟨true, true⟩)
    (hmaintenance : maybeRunMaintenanceLocked env l dir = some (l', dir', fs))
    (hmode : l'.cyclicMode = true) : RingState file.length [] l' file 0 := by
  obtain ⟨next, hm⟩ := maintenance_maintained hmaintenance
  cases hm with
  | kept _ =>
    have hnormal : l.cyclicMode = true := hmode
    rw [h.mode] at hnormal
    cases hnormal
  | left _ => cases hmode
  | prepared _ =>
    rw [hio]
    refine ⟨prepare_entered h.fp h.offset, ?_, rfl, fun o data hmem => by cases hmem⟩
    rw [Nat.max_comm]
    exact Nat.le_max_left _ _

/-- The step lemma: every call keeps the ring. -/
theorem RingState.step {es : List LogEvent} {s : Logger × Directory} (call : RingCall)
    {x : (Logger × Directory) × List LogEvent}
    (h : ∃ file offset, RingState size es s.1 file offset)
    (hstep : ringLog.step s call = some x) :
    ∃ file offset, RingState size (es ++ x.2) x.1.1 file offset := by
  obtain ⟨file, offset, h⟩ := h
  cases call with
  | write piece =>
    rw [← Option.some.inj hstep]
    exact h.write piece
  | maintain env =>
    obtain ⟨⟨l₁, dir₁, fs⟩, hmaintenance, hstays⟩ := Option.bind_eq_some_iff.mp hstep
    split_ifs at hstays with hmode
    obtain rfl := Option.some.inj hstays
    exact ⟨file, offset, h.maintain hmaintenance hmode⟩

/-- The run lemma. -/
theorem RingState.run {ls : List RingCall} {es os : List LogEvent} {s s' : Logger × Directory}
    (h : ∃ file offset, RingState size es s.1 file offset)
    (hrun : ringLog.run s ls = some (s', os)) :
    ∃ file offset, RingState size (es ++ os) s'.1 file offset := by
  induction ls generalizing es os s with
  | nil =>
    obtain ⟨rfl, rfl⟩ := Prod.mk.inj (Option.some.inj hrun)
    rw [List.append_nil]
    exact h
  | cons call ls ih =>
    obtain ⟨t, o, os', hstep, hrest, rfl⟩ := Machine.run_cons_eq_some.mp hrun
    have hafter := ih (RingState.step call h hstep) hrest
    rw [List.append_assoc] at hafter
    exact hafter

/-- A log that was opened on a disk that is full but for a tenth. -/
def freshRing (next : UInt64) (file : CText) (offset : Int) : Logger :=
  { openedLogger "logs".toList "logs/simple_ws_1.csv".toList with
    fp := some file
    nextMaintenanceMs := next
    cyclicMode := true
    cyclicWriteOffset := offset
    cyclicCapacityBytes := 4096 }

end WsServer
