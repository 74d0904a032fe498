import Mathlib.Order.Interval.Finset.Fin
import WsServer.CanCodec
import WsServer.LoopDelivery

/-! How long a value waits in the table: a flush hands on the smallest ids that are pending,
so a value is overtaken by smaller ids only, and by `entryRoom` of them in each flush. -/
namespace WsServer
open Interaction Printf

/-- The pending ids that are handed on before an id. -/
def CanTable.ahead (t : CanTable) (id : Fin appCanIdCount) : Finset (Fin appCanIdCount) :=
  Finset.univ.filter (fun other => t.canDirty other = true ∧ other < id)

/-- The frames that have come in for smaller ids. -/
def overtaking (id : Fin appCanIdCount) (received : List (ℕ × ℕ)) : ℕ :=
  received.countP (fun e => e.1 < id.val)

/-- How often the table is handed on. -/
def CanCall.IsFormat : CanCall → Bool
  | .storeRx _ => false
  | .formatDirty _ _ => true

/-- The buffer of the caller always has the same size. -/
def CanCall.Through (capacity : ℕ) : CanCall → Prop
  | .storeRx _ => True
  | .formatDirty _ c => c = capacity

variable {t : CanTable} {id : Fin appCanIdCount} {capacity fuel : ℕ}

/-! ### The queue -/

theorem card_ahead_le (t : CanTable) (id : Fin appCanIdCount) : (t.ahead id).card ≤ id.val := by
  have hsub : t.ahead id ⊆ Finset.Iio id := by
    intro other hother
    exact Finset.mem_Iio.mpr (Finset.mem_filter.mp hother).2.2
  calc (t.ahead id).card ≤ (Finset.Iio id).card := Finset.card_le_card hsub
    _ = id.val := Fin.card_Iio id

/-- In the order of the ids, what is ahead of a pending id stands in front of it. -/
theorem ahead_of_split {before behind : List (Fin appCanIdCount)}
    (h : t.dirtyIds = before ++ id :: behind) :
    (t.ahead id).card = before.length ∧ id ∉ behind := by
  have hsorted := dirtyIds_pairwise t
  rw [h, List.pairwise_append, List.pairwise_cons] at hsorted
  obtain ⟨hbefore, ⟨hbehind, -⟩, hcross⟩ := hsorted
  have hset : t.ahead id = before.toFinset := by
    ext other
    rw [List.mem_toFinset, CanTable.ahead, Finset.mem_filter, ← mem_dirtyIds, h]
    constructor
    · rintro ⟨-, hmem, hlt⟩
      rcases List.mem_append.mp hmem with hmem | hmem
      · exact hmem
      rcases List.mem_cons.mp hmem with rfl | hmem
      · exact absurd hlt (lt_irrefl _)
      · exact absurd hlt (lt_asymm (hbehind other hmem))
    · intro hother
      exact ⟨Finset.mem_univ _, List.mem_append_left _ hother,
        hcross other hother id List.mem_cons_self⟩
  refine ⟨?_, fun hmem => absurd (hbehind id hmem) (lt_irrefl _)⟩
  rw [hset, List.toFinset_card_of_nodup hbefore.nodup]

/-- A call of the formatter hands on an id exactly if there is room for all that is ahead of
it and for one more; otherwise the id comes nearer by what there is room for. -/
theorem formatDirty_queue (hstored : t.Stored) (buffer : ℕ → Char) (hcapacity : 10 ≤ capacity)
    (hdirty : t.canDirty id = true) :
    ((canBusFormatDirty t buffer capacity).1.canDirty id = true ↔
      entryRoom capacity ≤ (t.ahead id).card) ∧
    (entryRoom capacity ≤ (t.ahead id).card →
      ((canBusFormatDirty t buffer capacity).1.ahead id).card + entryRoom capacity =
        (t.ahead id).card) := by
  have hrest := (canBusFormatDirty_handsOn hstored buffer hcapacity).rest
  generalize (canBusFormatDirty t buffer capacity).1 = t' at hrest ⊢
  obtain ⟨before, behind, hsplit⟩ := List.append_of_mem (mem_dirtyIds.mpr hdirty)
  obtain ⟨hcard, hnot⟩ := ahead_of_split hsplit
  rw [hsplit, List.drop_append] at hrest
  rw [hcard, ← mem_dirtyIds]
  by_cases hroom : entryRoom capacity ≤ before.length
  · -- the id and what is behind it are left
    rw [Nat.sub_eq_zero_of_le hroom, List.drop_zero] at hrest
    have hcard' := (ahead_of_split hrest).1
    rw [List.length_drop] at hcard'
    refine ⟨iff_of_true ?_ hroom, fun _ => by omega⟩
    rw [hrest]
    exact List.mem_append_right _ List.mem_cons_self
  · -- all that is left was behind the id
    refine ⟨iff_of_false ?_ hroom, fun h => absurd h hroom⟩
    obtain ⟨k, hk⟩ := Nat.exists_eq_add_of_lt (not_le.mp hroom)
    have hone : entryRoom capacity - before.length = k+1 := by omega
    rw [hrest, List.drop_eq_nil_of_le (not_le.mp hroom).le, hone, List.drop_succ_cons,
      List.nil_append]
    exact fun hmem => hnot (List.mem_of_mem_drop hmem)

/-- A frame puts at most its own id ahead of another. -/
theorem storeRx_queue (t : CanTable) (id : Fin appCanIdCount) (frame : CanFrame) :
    ((canBusStoreRx t frame).1.ahead id).card ≤
      (t.ahead id).card + overtaking id (CanCall.storeRx frame).accepted.toList := by
  cases hflag : frame.flagged with
  | true =>
    rw [canBusStoreRx_flagged hflag]
    exact Nat.le_add_right _ _
  | false =>
    have hstore : (canBusStoreRx t frame).1.canDirty =
        writeAt t.canDirty frame.rxId.toNat true := by
      rw [canBusStoreRx, hflag, if_neg Bool.false_ne_true]
    have haccepted : (CanCall.storeRx frame).accepted.toList =
        [(frame.rxId.toNat, frame.rxValue.toNat)] := by
      simp only [CanCall.accepted, hflag, Bool.false_eq_true, if_false, Option.toList_some]
    let new : Fin appCanIdCount := ⟨frame.rxId.toNat, frame.rxId_lt⟩
    rw [haccepted, overtaking, List.countP_singleton]
    by_cases hlt : frame.rxId.toNat < id.val
    · have hsub : (canBusStoreRx t frame).1.ahead id ⊆ insert new (t.ahead id) := by
        intro other hother
        obtain ⟨-, hdirty, hbelow⟩ := Finset.mem_filter.mp hother
        rw [hstore] at hdirty
        simp only [writeAt] at hdirty
        split_ifs at hdirty with hnew
        · exact Finset.mem_insert.mpr (Or.inl (Fin.ext hnew))
        · exact Finset.mem_insert_of_mem
            (Finset.mem_filter.mpr ⟨Finset.mem_univ _, hdirty, hbelow⟩)
      rw [if_pos (decide_eq_true hlt)]
      exact (Finset.card_le_card hsub).trans (Finset.card_insert_le _ _)
    · have hsub : (canBusStoreRx t frame).1.ahead id ⊆ t.ahead id := by
        intro other hother
        obtain ⟨-, hdirty, hbelow⟩ := Finset.mem_filter.mp hother
        rw [hstore] at hdirty
        simp only [writeAt] at hdirty
        split_ifs at hdirty with hnew
        · have hval : other.val < id.val := hbelow
          omega
        · exact Finset.mem_filter.mpr ⟨Finset.mem_univ _, hdirty, hbelow⟩
      exact (Finset.card_le_card hsub).trans (Nat.le_add_right _ _)

/-! ### Runs of calls -/

theorem storeRx_pending (hstored : t.Stored) (frame : CanFrame) :
    (canBusStoreRx t frame).1.Stored ∧
      ∀ id, t.canDirty id = true → (canBusStoreRx t frame).1.canDirty id = true := by
  cases hflag : frame.flagged with
  | true =>
    rw [canBusStoreRx_flagged hflag]
    exact ⟨hstored, fun _ h => h⟩
  | false =>
    have hstore : (canBusStoreRx t frame).1 =
        ⟨writeAt t.canValues frame.rxId.toNat frame.rxValue.toNat,
          writeAt t.canDirty frame.rxId.toNat true⟩ := by
      rw [canBusStoreRx, hflag, if_neg Bool.false_ne_true]
    rw [hstore]
    constructor
    · intro id hid
      simp only [writeAt] at hid ⊢
      split_ifs at hid ⊢
      · exact Int.natCast_nonneg _
      · exact hstored id hid
    · intro id hid
      simp only [writeAt, hid, ite_self]

/-- What was not sent is still to be sent. -/
theorem still_pending (buffer : ℕ → Char) (hcapacity : 10 ≤ capacity)
    (hdirty : t.canDirty id = true)
    (hwaits : entriesFor id (readUpdate (cString capacity
      (canBusFormatDirty t buffer capacity).2.1)) = []) :
    (canBusFormatDirty t buffer capacity).1.canDirty id = true := by
  have hunsent := unsent_formatDirty t buffer hcapacity id
  rw [hwaits, List.nil_append, CanTable.unsent, CanTable.unsent, if_pos hdirty] at hunsent
  by_contra hsent
  rw [if_neg hsent] at hunsent
  cases hunsent

/-- While a value waits, each call of the formatter brings it nearer by what there is room
for, and each frame for a smaller id puts it back by one at most. -/
theorem waits_run {t' : CanTable} {calls : List CanCall} {us : List CanUpdate}
    (hcapacity : 10 ≤ capacity) (hthrough : ∀ c ∈ calls, c.Through capacity)
    (hstored : t.Stored) (hdirty : t.canDirty id = true)
    (hrun : canCalls.run t calls = some (t', us))
    (hwaits : entriesFor id (us.flatMap (fun u => readUpdate u.text)) = []) :
    t'.canDirty id = true ∧
      (t'.ahead id).card + entryRoom capacity*calls.countP CanCall.IsFormat ≤
        (t.ahead id).card + overtaking id (calls.filterMap CanCall.accepted) := by
  induction calls generalizing t us with
  | nil =>
    obtain ⟨rfl, rfl⟩ := Prod.mk.inj (Option.some.inj hrun)
    exact ⟨hdirty, le_rfl⟩
  | cons call calls ih =>
    obtain ⟨u, o, us', hstep, hrest, rfl⟩ := Machine.run_cons_eq_some.mp hrun
    have hthrough' := fun c hc => hthrough c (List.mem_cons_of_mem call hc)
    have hcall := hthrough call List.mem_cons_self
    rw [List.flatMap_append, entriesFor_append, List.append_eq_nil_iff] at hwaits
    cases call with
    | storeRx frame =>
      obtain ⟨rfl, rfl⟩ := Prod.mk.inj (Option.some.inj hstep)
      obtain ⟨hstored', hpending⟩ := storeRx_pending hstored frame
      obtain ⟨hlast, hbound⟩ := ih hthrough' hstored' (hpending id hdirty) hrest hwaits.2
      have hnearer := storeRx_queue t id frame
      have hsplit : overtaking id ((CanCall.storeRx frame :: calls).filterMap CanCall.accepted) =
          overtaking id (CanCall.storeRx frame).accepted.toList +
            overtaking id (calls.filterMap CanCall.accepted) := by
        rw [overtaking, overtaking, overtaking, ← List.countP_append]
        cases haccepted : (CanCall.storeRx frame).accepted <;> simp [haccepted]
      rw [List.countP_cons_of_neg Bool.false_ne_true, hsplit]
      exact ⟨hlast, by omega⟩
    | formatDirty buffer c =>
      obtain rfl : c = capacity := hcall
      obtain ⟨rfl, rfl⟩ := Prod.mk.inj (Option.some.inj hstep)
      rw [List.flatMap_singleton] at hwaits
      have hstill := still_pending buffer hcapacity hdirty hwaits.1
      obtain ⟨hiff, hnearer⟩ := formatDirty_queue hstored buffer hcapacity hdirty
      have hstored' := (canBusFormatDirty_handsOn hstored buffer hcapacity).stored hstored
      obtain ⟨hlast, hbound⟩ := ih hthrough' hstored' hstill hrest hwaits.2
      have hcloser := hnearer (hiff.mp hstill)
      have hsame : (CanCall.formatDirty buffer c :: calls).filterMap CanCall.accepted =
          calls.filterMap CanCall.accepted := rfl
      rw [List.countP_cons_of_pos rfl, hsame, Nat.mul_add_one]
      exact ⟨hlast, by omega⟩

/-- A value that waits through a call of the formatter has as many smaller ids as there is room
for. -/
theorem waits_room {t' : CanTable} {calls : List CanCall} {us : List CanUpdate}
    (hcapacity : 10 ≤ capacity) (hthrough : ∀ c ∈ calls, c.Through capacity)
    (hstored : t.Stored) (hdirty : t.canDirty id = true)
    (hrun : canCalls.run t calls = some (t', us))
    (hwaits : entriesFor id (us.flatMap (fun u => readUpdate u.text)) = [])
    (hformats : 0 < calls.countP CanCall.IsFormat) : entryRoom capacity ≤ id.val := by
  induction calls generalizing t us with
  | nil => cases hformats
  | cons call calls ih =>
    obtain ⟨u, o, us', hstep, hrest, rfl⟩ := Machine.run_cons_eq_some.mp hrun
    have hcall := hthrough call List.mem_cons_self
    rw [List.flatMap_append, entriesFor_append, List.append_eq_nil_iff] at hwaits
    cases call with
    | storeRx frame =>
      obtain ⟨rfl, rfl⟩ := Prod.mk.inj (Option.some.inj hstep)
      obtain ⟨hstored', hpending⟩ := storeRx_pending hstored frame
      rw [List.countP_cons_of_neg Bool.false_ne_true] at hformats
      exact ih (fun c hc => hthrough c (List.mem_cons_of_mem _ hc)) hstored'
        (hpending id hdirty) hrest hwaits.2 hformats
    | formatDirty buffer c =>
      obtain rfl : c = capacity := hcall
      obtain ⟨rfl, rfl⟩ := Prod.mk.inj (Option.some.inj hstep)
      rw [List.flatMap_singleton] at hwaits
      have hstill := still_pending buffer hcapacity hdirty hwaits.1
      calc entryRoom c ≤ (t.ahead id).card :=
            (formatDirty_queue hstored buffer hcapacity hdirty).1.mp hstill
        _ ≤ id.val := card_ahead_le t id

/-! ### The loop -/

/-- The buffer of `flush_can_updates` has room for 910 entries. -/
theorem entryRoom_flush : entryRoom flushCapacity = 910 := by decide

theorem through_of_mem_canCallsOf {x : LoopTaken} {c : CanCall} (h : c ∈ canCallsOf x) :
    c.Through flushCapacity := by
  unfold canCallsOf at h
  split at h
  · split at h
    · rw [List.mem_singleton.mp h]
      trivial
    · cases h
  · rw [List.mem_singleton.mp h]
    exact rfl
  · cases h

/-- The flushes are the calls of the formatter. -/
theorem countP_canCallsOf (x : LoopTaken) :
    (canCallsOf x).countP CanCall.IsFormat = (flushesOf x).length := by
  obtain ⟨s, l, os⟩ := x
  cases l with
  | other l => rfl
  | main input =>
    cases hpc : s.pc with
    | flush rest =>
      simp only [canCallsOf, flushesOf, hpc]
      rfl
    | heartbeat rest => simp [canCallsOf, flushesOf, hpc]
    | left => simp [canCallsOf, flushesOf, hpc]
    | events events =>
      rcases events with _ | ⟨_ | _, rest⟩
      · simp [canCallsOf, flushesOf, hpc]
      · simp only [canCallsOf, flushesOf, hpc]
        split <;> rfl
      · simp [canCallsOf, flushesOf, hpc]

theorem countP_history (s : MainLoop) (ls : List LoopLabel) :
    (((mainLoop fuel).history s ls).flatMap canCallsOf).countP CanCall.IsFormat =
      (((mainLoop fuel).history s ls).flatMap flushesOf).length := by
  rw [List.countP_flatMap, List.length_flatMap]
  simp only [Function.comp_def, countP_canCallsOf]

theorem through_history (s : MainLoop) (ls : List LoopLabel) :
    ∀ c ∈ ((mainLoop fuel).history s ls).flatMap canCallsOf, c.Through flushCapacity := by
  intro c hc
  obtain ⟨x, -, hx⟩ := List.mem_flatMap.mp hc
  exact through_of_mem_canCallsOf hx

/-- Behind any run each pending id has a value. -/
theorem stored_run {config : AppConfig} {canFd : Int} {start : UInt64} {ls : List LoopLabel}
    {s : MainLoop} {os : List LoopOutput}
    (hrun : (mainLoop fuel).run (.initial config canFd start) ls = some (s, os)) :
    Announcing canFd s ∧ s.table.Stored := by
  have hinitial := announcing_initial config canFd start
  obtain ⟨us, hpart, -⟩ := canPart_run hinitial hrun
  have hinv := canInvariant_run hasRoom_history hpart
  refine ⟨(announcing_run hinitial hrun).1, ?_⟩
  intro id hid
  by_contra hneg
  exact hinv.dirty id hid (if_pos (not_le.mp hneg))

/-- In any part of any run in which no client is told of the value of a pending id, the id is
still pending behind it, and there were no more flushes than the smaller ids allow: 910 go out
with each of them, of those that were ahead and of the frames that came in for smaller ids. -/
theorem pending_value_overtaken {config : AppConfig} {canFd : Int} {start : UInt64}
    {before ls : List LoopLabel} {s s' : MainLoop} {os os' : List LoopOutput}
    (hbefore : (mainLoop fuel).run (.initial config canFd start) before = some (s, os))
    (hdirty : s.table.canDirty id = true)
    (hrun : (mainLoop fuel).run s ls = some (s', os'))
    (hwaits : entriesFor id (broadcastEntries os') = []) :
    s'.table.canDirty id = true ∧
      (s'.table.ahead id).card + 910*(((mainLoop fuel).history s ls).flatMap flushesOf).length ≤
        (s.table.ahead id).card + overtaking id (busValues ((mainLoop fuel).history s ls)) := by
  obtain ⟨hannouncing, hstored⟩ := stored_run hbefore
  obtain ⟨us, hpart, htold⟩ := canPart_run hannouncing hrun
  rw [htold] at hwaits
  obtain ⟨hlast, hbound⟩ :=
    waits_run (by decide) (through_history s ls) hstored hdirty hpart hwaits
  rw [entryRoom_flush, countP_history] at hbound
  exact ⟨hlast, hbound⟩

/-- The loop behind the first frame, and one frame for a smaller id. -/
def oneFrameLoop : MainLoop :=
  { MainLoop.initial ⟨false, false⟩ 3 0 with
    table := (canBusStoreRx .init oneFrame).1
    pc := .events [.canSocket, .timer] }

def lowerFrame : CanFrame := { oneFrame with canId := 0x100 }

theorem pending_value_overtaken_once :
    let s : MainLoop :=
      { oneFrameLoop with table := (canBusStoreRx oneFrameLoop.table lowerFrame).1 }
    s.table.canDirty ⟨0x101, by decide⟩ = true ∧
      (s.table.ahead ⟨0x101, by decide⟩).card ≤
        (oneFrameLoop.table.ahead ⟨0x101, by decide⟩).card + 1 := by
  intro s
  have hbefore : (mainLoop 1).run (.initial ⟨false, false⟩ 3 0) (oneFrameLabels.take 2) =
      some (oneFrameLoop, (canBusStoreRx .init oneFrame).2.map .event) := rfl
  have hrun : (mainLoop 1).run oneFrameLoop
      [.main (quietInput (.ready []) (.whole lowerFrame))] =
        some (s, (canBusStoreRx oneFrameLoop.table lowerFrame).2.map .event) := rfl
  have hdirty : oneFrameLoop.table.canDirty ⟨0x101, by decide⟩ = true := by decide
  have hwaits : entriesFor ⟨0x101, by decide⟩ (broadcastEntries
      ((canBusStoreRx oneFrameLoop.table lowerFrame).2.map .event)) = [] := by decide
  obtain ⟨hlast, hbound⟩ := pending_value_overtaken hbefore hdirty hrun hwaits
  have hone : overtaking ⟨0x101, by decide⟩ (busValues ((mainLoop 1).history oneFrameLoop
      [.main (quietInput (.ready []) (.whole lowerFrame))])) = 1 := by decide
  rw [hone] at hbound
  exact ⟨hlast, le_trans (Nat.le_add_right _ _) hbound⟩

/-! ### Starvation -/

/-- The loop can go on from one state to another with some flushes, none of which tells of the
id. -/
def Passes (fuel : ℕ) (id : Fin appCanIdCount) (s : MainLoop) (flushes : ℕ) (s' : MainLoop) :
    Prop :=
  ∃ ls os, (mainLoop fuel).run s ls = some (s', os) ∧
    (((mainLoop fuel).history s ls).flatMap flushesOf).length = flushes ∧
    entriesFor id (broadcastEntries os) = []

theorem Passes.trans {s t u : MainLoop} {m n : ℕ} (h : Passes fuel id s m t)
    (h' : Passes fuel id t n u) : Passes fuel id s (m+n) u := by
  obtain ⟨ls, os, hrun, hm, hos⟩ := h
  obtain ⟨ls', os', hrun', hn, hos'⟩ := h'
  refine ⟨ls ++ ls', os ++ os', Machine.run_append_eq_some.mpr ⟨t, os, os', hrun, hrun', rfl⟩,
    ?_, ?_⟩
  · rw [Machine.history_append hrun, List.flatMap_append, List.length_append, hm, hn]
  · rw [broadcastEntries_append, entriesFor_append, hos, hos', List.append_nil]

/-- A step tells of the id only where it flushes. -/
theorem passes_step {fd : Int} {s s' : MainLoop} {l : LoopLabel} {os : List LoopOutput}
    (hs : Announcing fd s) (h : (mainLoop fuel).step s l = some (s', os))
    (htold : entriesFor id ((flushesOf ⟨s, l, os⟩).flatMap (fun x => readUpdate x.2.text)) = []) :
    Passes fuel id s (flushesOf ⟨s, l, os⟩).length s' := by
  refine ⟨[l], os, Machine.run_single_eq_some.mpr h, ?_, ?_⟩
  · rw [Machine.history_cons h, Machine.history, List.flatMap_singleton]
  · rw [(announcing_step hs h).2, htold]

theorem passes_quiet {fd : Int} {s s' : MainLoop} {l : LoopLabel} {os : List LoopOutput}
    (hs : Announcing fd s) (h : (mainLoop fuel).step s l = some (s', os))
    (hquiet : flushesOf ⟨s, l, os⟩ = []) : Passes fuel id s 0 s' := by
  have hpasses : Passes fuel id s _ s' := passes_step hs h (by rw [hquiet]; rfl)
  rwa [hquiet] at hpasses

/-- The loop at its head with a value to hand on, in a server that runs on. -/
structure Waiting (fd : Int) (id : Fin appCanIdCount) (s : MainLoop) : Prop where
  pc : s.pc = .events []
  main : ∃ v, s.system.threads .main = .ret v
  stop : s.app.stop = false
  mode : s.app.config.testingMode = false
  announcing : Announcing fd s
  stored : s.table.Stored
  dirty : s.table.canDirty id = true

theorem passes_wait {fd : Int} {s : MainLoop} (hs : Announcing fd s) (hpc : s.pc = .events [])
    (hstop : s.app.stop = false) (hmode : s.app.config.testingMode = false)
    {events : List LoopEvent} (hlength : events.length ≤ maxEvents) :
    Passes fuel id s 0 { s with pc := .events events } := by
  let l : LoopLabel := .main (quietInput (.ready events) (.failed wouldBlock))
  have hwait : (mainLoop fuel).step s l = some ({ s with pc := .events events }, []) := by
    simp only [mainLoop, MainLoop.step, MainLoop.mainStep, hpc, hstop, hmode, quietInput, l, hlength,
      Bool.false_eq_true, if_false, if_true]
  exact passes_quiet hs hwait (by simp only [flushesOf, hpc, l])

/-- The frames that are read one behind the other. -/
theorem passes_frames {fd : Int} (hfd : 0 ≤ fd) {rest : List LoopEvent} (frames : List CanFrame)
    {s : MainLoop} (hs : Announcing fd s) (hpc : s.pc = .events (.canSocket :: rest))
    {t' : CanTable} {us : List CanUpdate}
    (h : canCalls.run s.table (frames.map .storeRx) = some (t', us)) :
    Passes fuel id s 0 { s with table := t' } := by
  induction frames generalizing s us with
  | nil =>
    obtain ⟨rfl, -⟩ := Prod.mk.inj (Option.some.inj h)
    exact ⟨[], [], rfl, rfl, rfl⟩
  | cons frame frames ih =>
    obtain ⟨u, o, us', hstep, hrest, -⟩ := Machine.run_cons_eq_some.mp h
    obtain ⟨rfl, -⟩ := Prod.mk.inj (Option.some.inj hstep)
    let input := quietInput (.ready []) (.whole frame)
    have hread : canBusReadFrame s.app.canFd input.read = .ok (some frame) := by
      simp only [canBusReadFrame, hs.canFd, not_lt.mpr hfd, if_false, input, quietInput]
    have hmain : (mainLoop fuel).step s (.main input) =
        some ({ s with table := (canBusStoreRx s.table frame).1 },
          (canBusStoreRx s.table frame).2.map .event) := by
      simp only [mainLoop, MainLoop.step, MainLoop.mainStep, hpc, hread]
    have hfirst : Passes fuel id s 0 _ := passes_quiet hs hmain (by simp only [flushesOf, hpc])
    have hnext := ih (s := { s with table := (canBusStoreRx s.table frame).1 })
      (announcing_step hs hmain).1 hpc hrest
    exact hfirst.trans hnext

theorem passes_drained {fd : Int} (hfd : 0 ≤ fd) {rest : List LoopEvent} {s : MainLoop}
    (hs : Announcing fd s) (hpc : s.pc = .events (.canSocket :: rest)) :
    Passes fuel id s 0 { s with pc := .events rest } := by
  let l : LoopLabel := .main (quietInput (.ready []) (.failed wouldBlock))
  have hread : canBusReadFrame s.app.canFd (.failed wouldBlock) = .ok none := by
    simp only [canBusReadFrame, hs.canFd, not_lt.mpr hfd, if_false, if_true]
  have hdrained : (mainLoop fuel).step s l = some ({ s with pc := .events rest }, []) := by
    simp only [mainLoop, MainLoop.step, MainLoop.mainStep, hpc, quietInput, l, hread]
  exact passes_quiet hs hdrained (by simp only [flushesOf, hpc, l])

theorem tick_runs {s : System} {v : Int} (hmain : s.threads .main = .ret v) (env : Env) :
    ∃ s' os, server.run s (tickLabels env) = some (s', os) ∧
      (∃ v, s'.threads .main = .ret v) ∧ s'.app.stop = s.app.stop ∧
      s'.app.config = s.app.config := by
  let mid : System :=
    { s with threads := Function.update s.threads .main (Call.tick.program s.app.config) }
  have hcall : server.step s ⟨.call .main .tick, env⟩ = some (mid, []) := by
    simp only [server, System.step, hmain, mid]
  have hown : mid.threads .main = Program.act (S := serverSig) .wiggleProcess (fun _ => .ret 0) := by
    simp only [mid, Function.update_self]
    rfl
  have hact : server.step mid ⟨.thread .main, env⟩ =
      some (mid.afterAct .main env .wiggleProcess (fun _ => .ret 0),
        (perform mid.process env .wiggleProcess).2.2.map (.event .main)) := by
    simp only [server, System.step, hown, System.afterAct]
  have hsame := perform_sameSequence mid.process env .wiggleProcess id
  refine ⟨_, _, Machine.run_cons_eq_some.mpr
    ⟨mid, [], _, hcall, Machine.run_single_eq_some.mpr hact, rfl⟩, ⟨0, ?_⟩, hsame.stop,
    hsame.config⟩
  simp only [System.afterAct, Function.update_self]

/-- A clock that is at 0 calls for no more than one round. -/
theorem heartbeatTick_calm (hfuel : 0 < fuel) (fd : Int) (next : UInt64) (epoll : EpollResult)
    (read : CanRead) : ∃ x, heartbeatTick fuel fd next (quietInput epoll read).timer = some x := by
  have hnow : (quietInput epoll read).timer.nowMs = 0 := rfl
  rw [heartbeatTick, hnow]
  split_ifs with hdue
  · obtain ⟨k, rfl⟩ := Nat.exists_eq_succ_of_ne_zero hfuel.ne'
    have hzero : next = 0 := by
      apply UInt64.toNat.inj
      have hle := UInt64.le_iff_toNat_le.mp hdue
      simpa using hle
    have hround : catchUp 0 (k+1) 0 = some 1000 := by
      rw [catchUp]
      rfl
    rw [hzero, hround]
    exact ⟨_, rfl⟩
  · exact ⟨_, rfl⟩

/-- A value that has too many ahead of it stays, and nothing is told of it. -/
theorem formatDirty_starves (hstored : t.Stored) (buffer : ℕ → Char) (hcapacity : 10 ≤ capacity)
    (hdirty : t.canDirty id = true) (hahead : entryRoom capacity ≤ (t.ahead id).card) :
    (canBusFormatDirty t buffer capacity).1.Stored ∧
      (canBusFormatDirty t buffer capacity).1.canDirty id = true ∧
      entriesFor id (readUpdate (cString capacity (canBusFormatDirty t buffer capacity).2.1)) =
        [] := by
  have hstill := (formatDirty_queue hstored buffer hcapacity hdirty).1.mpr hahead
  refine ⟨(canBusFormatDirty_handsOn hstored buffer hcapacity).stored hstored, hstill, ?_⟩
  have hunsent := unsent_formatDirty t buffer hcapacity id
  rw [CanTable.unsent, CanTable.unsent, if_pos hstill, if_pos hdirty] at hunsent
  -- what is still to be sent is all that was to be sent
  exact List.length_eq_zero_iff.mp (by simpa using congrArg List.length hunsent)

theorem passes_flush {fd : Int} {rest : List LoopEvent} {s : MainLoop} (hs : Announcing fd s)
    (hpc : s.pc = .flush rest) (hstored : s.table.Stored) (hdirty : s.table.canDirty id = true)
    (hahead : 910 ≤ (s.table.ahead id).card) :
    ∃ t', Passes fuel id s 1 { s with table := t', pc := .events rest } ∧
      Announcing fd { s with table := t', pc := .events rest } ∧ t'.Stored ∧
      t'.canDirty id = true := by
  let input := quietInput (.ready []) (.failed wouldBlock)
  rw [← entryRoom_flush] at hahead
  obtain ⟨hstored', hdirty', htold⟩ := formatDirty_starves hstored input.buffer
    (by decide : 10 ≤ flushCapacity) hdirty hahead
  have hflush : ∃ os, (mainLoop fuel).step s (.main input) = some ({ s with
        table := (canBusFormatDirty s.table input.buffer flushCapacity).1
        pc := .events rest }, os) := by
    simp only [mainLoop, MainLoop.step, MainLoop.mainStep, hpc]
    exact ⟨_, rfl⟩
  obtain ⟨os, hflush⟩ := hflush
  have hflushes : flushesOf ⟨s, .main input, os⟩ =
      [(input, flushedUpdate s.table input.buffer)] := by
    simp only [flushesOf, hpc]
  have htold' : entriesFor id (readUpdate (flushedUpdate s.table input.buffer).text) = [] := by
    simp only [flushedUpdate]
    exact htold
  have hpasses : Passes fuel id s _ _ := passes_step hs hflush (by
    rw [hflushes, List.flatMap_singleton]
    exact htold')
  rw [hflushes] at hpasses
  exact ⟨_, hpasses, (announcing_step hs hflush).1, hstored', hdirty'⟩

/-- The tick of the timer in a loop where 910 ids are ahead. -/
theorem passes_tick {fd : Int} (hfuel : 0 < fuel) {s : MainLoop} (hs : Announcing fd s)
    (hpc : s.pc = .events [.timer]) (hmain : ∃ v, s.system.threads .main = .ret v)
    (hstored : s.table.Stored) (hdirty : s.table.canDirty id = true)
    (hahead : 910 ≤ (s.table.ahead id).card) :
    ∃ s', Passes fuel id s 1 s' ∧ s'.pc = .events [] ∧
      (∃ v, s'.system.threads .main = .ret v) ∧ s'.app.stop = s.app.stop ∧
      s'.app.config = s.app.config ∧ Announcing fd s' ∧ s'.table.Stored ∧
      s'.table.canDirty id = true := by
  let input := quietInput (.ready []) (.failed wouldBlock)
  obtain ⟨v, hv⟩ := hmain
  obtain ⟨system, os, hrun, hidle, hstop, hconfig⟩ := tick_runs hv input.env
  let a : MainLoop := { s with system := system, pc := .heartbeat [] }
  have hwiggles : (mainLoop fuel).step s (.main input) = some (a, os.map .server) := by
    simp only [mainLoop, MainLoop.step, MainLoop.mainStep, hpc, hrun, Option.map_some, a]
  obtain ⟨ha, -⟩ := announcing_step hs hwiggles
  obtain ⟨⟨next, es⟩, htick⟩ := heartbeatTick_calm hfuel a.app.canFd a.nextHeartbeatMs
    (.ready []) (.failed wouldBlock)
  let b : MainLoop := { a with nextHeartbeatMs := next, pc := .flush [] }
  have hheartbeat : (mainLoop fuel).step a (.main input) = some (b, es.map .heartbeat) := by
    simp only [mainLoop, MainLoop.step, MainLoop.mainStep, a, input]
    rw [htick]
    rfl
  obtain ⟨hb, -⟩ := announcing_step ha hheartbeat
  have hfirst : Passes fuel id s 0 a := passes_quiet hs hwiggles (by simp only [flushesOf, hpc])
  have hsecond : Passes fuel id a 0 b := passes_quiet ha hheartbeat rfl
  obtain ⟨t', hthird, hc, hstored', hdirty'⟩ := passes_flush hb rfl hstored hdirty hahead
  exact ⟨_, (hfirst.trans hsecond).trans hthird, rfl, hidle, hstop, hconfig, hc, hstored', hdirty'⟩

/-- The ids that a buffer is full of. -/
def lowIds : List (Fin appCanIdCount) :=
  (List.finRange 910).map (Fin.castLE (by decide : 910 ≤ appCanIdCount))

/-- A table that has received them has them ahead of any other id. -/
theorem received_lowIds {t' : CanTable} (hstored : t.Stored) (hdirty : t.canDirty id = true)
    (hid : 910 ≤ id.val) (h : t.Received t' (fun _ => 0) lowIds) :
    t'.Stored ∧ t'.canDirty id = true ∧ 910 ≤ (t'.ahead id).card := by
  refine ⟨?_, by rw [h.dirty id, hdirty, Bool.or_true], ?_⟩
  · intro other hother
    rw [h.values other]
    split_ifs with hmem
    · exact Int.natCast_nonneg _
    · rw [h.dirty other, decide_eq_false hmem, Bool.false_or] at hother
      exact hstored other hother
  · let low : Finset (Fin appCanIdCount) :=
      Finset.univ.map (Fin.castLEEmb (by decide : 910 ≤ appCanIdCount))
    have hsub : low ⊆ t'.ahead id := by
      intro other hother
      obtain ⟨k, -, rfl⟩ := Finset.mem_map.mp hother
      have hmem : Fin.castLE (by decide : 910 ≤ appCanIdCount) k ∈ lowIds :=
        List.mem_map_of_mem (List.mem_finRange k)
      refine Finset.mem_filter.mpr ⟨Finset.mem_univ _, ?_, ?_⟩
      · exact (h.dirty _).trans ((Bool.or_eq_true _ _).mpr (Or.inl (decide_eq_true hmem)))
      · exact Fin.lt_def.mpr (lt_of_lt_of_le k.isLt hid)
    calc 910 = low.card := by rw [Finset.card_map, Finset.card_univ, Fintype.card_fin]
      _ ≤ (t'.ahead id).card := Finset.card_le_card hsub

/-- The smaller ids come in again before each tick. -/
theorem passes_cycle {fd : Int} (hfuel : 0 < fuel) (hfd : 0 ≤ fd) (hid : 910 ≤ id.val)
    {s : MainLoop} (hs : Waiting fd id s) : ∃ s', Passes fuel id s 1 s' ∧ Waiting fd id s' := by
  let a : MainLoop := { s with pc := .events [.canSocket, .timer] }
  have ha : Announcing fd a := ⟨hs.announcing.canFd, hs.announcing.threads⟩
  have hwait : Passes fuel id s 0 a :=
    passes_wait hs.announcing hs.pc hs.stop hs.mode (by decide : 2 ≤ 8)
  -- the frames for the smaller ids
  obtain ⟨t', hrun, hreceived⟩ := receives (fun _ => 0) lowIds a.table
  obtain ⟨hstored, hdirty, hahead⟩ := received_lowIds hs.stored hs.dirty hid hreceived
  have hframes : lowIds.map (fun id => CanCall.storeRx (entryCommand (id.val, 0)).frame) =
      (lowIds.map (fun id => (entryCommand (id.val, 0)).frame)).map .storeRx := by
    rw [List.map_map]
    rfl
  rw [hframes] at hrun
  let b : MainLoop := { a with table := t' }
  have hb : Announcing fd b := ⟨ha.canFd, ha.threads⟩
  have hread : Passes fuel id a 0 b := passes_frames hfd _ ha rfl hrun
  let c : MainLoop := { b with pc := .events [.timer] }
  have hc : Announcing fd c := ⟨hb.canFd, hb.threads⟩
  have hdrained : Passes fuel id b 0 c := passes_drained hfd hb rfl
  obtain ⟨s', htick, hpc, hmain, hstop, hmode, hs', hstored', hdirty'⟩ :=
    passes_tick hfuel hc rfl hs.main hstored hdirty hahead
  exact ⟨s', ((hwait.trans hread).trans hdrained).trans htick,
    hpc, hmain, hstop.trans hs.stop, (congrArg _ hmode).trans hs.mode, hs', hstored', hdirty'⟩

theorem passes_cycles {fd : Int} (hfuel : 0 < fuel) (hfd : 0 ≤ fd) (hid : 910 ≤ id.val)
    {s : MainLoop} (hs : Waiting fd id s) (flushes : ℕ) :
    ∃ s', Passes fuel id s flushes s' ∧ Waiting fd id s' := by
  induction flushes with
  | zero => exact ⟨s, ⟨[], [], rfl, rfl, rfl⟩, hs⟩
  | succ flushes ih =>
    obtain ⟨t, ht, hwaiting⟩ := ih
    obtain ⟨s', hs', hlast⟩ := passes_cycle hfuel hfd hid hwaiting
    exact ⟨s', ht.trans hs', hlast⟩

/-- A first frame for the id. -/
theorem passes_first {config : AppConfig} {canFd : Int} (start : UInt64)
    (hmode : config.testingMode = false) (hfd : 0 ≤ canFd) (id : Fin appCanIdCount) :
    ∃ s, Passes fuel id (.initial config canFd start) 0 s ∧ Waiting canFd id s := by
  have hinitial := announcing_initial config canFd start
  let a : MainLoop := { MainLoop.initial config canFd start with pc := .events [.canSocket] }
  have ha : Announcing canFd a := ⟨hinitial.canFd, hinitial.threads⟩
  have hwait : Passes fuel id (.initial config canFd start) 0 a :=
    passes_wait hinitial rfl rfl hmode (by decide : 1 ≤ 8)
  obtain ⟨t', hrun, hreceived⟩ := receives (fun _ => 0) [id] a.table
  let b : MainLoop := { a with table := t' }
  have hb : Announcing canFd b := ⟨ha.canFd, ha.threads⟩
  have hread : Passes fuel id a 0 b :=
    passes_frames hfd [(entryCommand (id.val, 0)).frame] ha rfl hrun
  let c : MainLoop := { b with pc := .events [] }
  have hdrained : Passes fuel id b 0 c := passes_drained hfd hb rfl
  refine ⟨c, (hwait.trans hread).trans hdrained, rfl, ⟨0, rfl⟩, rfl, hmode,
    ⟨hb.canFd, hb.threads⟩, ?_, ?_⟩
  · intro other hother
    have hmem : other ∈ [id] := by
      have hdirty := (hreceived.dirty other).symm.trans hother
      simpa [a, MainLoop.initial, CanTable.init] using hdirty
    rw [hreceived.values other, if_pos hmem]
    exact Int.natCast_nonneg _
  · exact (hreceived.dirty id).trans (by simp)

/-- The value of an id can wait through any number of flushes exactly if there are 910 smaller
ids. -/
theorem high_ids_starve {config : AppConfig} {canFd : Int} {start : UInt64} (hfuel : 0 < fuel)
    (hmode : config.testingMode = false) (hfd : 0 ≤ canFd) (id : Fin appCanIdCount) :
    (∃ ls s os, (mainLoop fuel).run (.initial config canFd start) ls = some (s, os) ∧
      s.table.canDirty id = true ∧ ∀ flushes, ∃ s', Passes fuel id s flushes s') ↔
      910 ≤ id.val := by
  constructor
  · rintro ⟨ls, s, os, hrun, hdirty, hwaits⟩
    obtain ⟨s', ls', os', hrun', hflushes, htold⟩ := hwaits 1
    obtain ⟨hannouncing, hstored⟩ := stored_run hrun
    obtain ⟨us, hpart, hsame⟩ := canPart_run hannouncing hrun'
    rw [hsame] at htold
    rw [← countP_history] at hflushes
    have hroom := waits_room (by decide) (through_history s ls') hstored hdirty hpart htold
      (by omega)
    rwa [entryRoom_flush] at hroom
  · intro hid
    obtain ⟨s, ⟨ls, os, hrun, -, -⟩, hwaiting⟩ := passes_first start hmode hfd id
    refine ⟨ls, s, os, hrun, hwaiting.dirty, fun flushes => ?_⟩
    obtain ⟨s', hs', -⟩ := passes_cycles hfuel hfd hid hwaiting flushes
    exact ⟨s', hs'⟩

/-- The largest id can starve. -/
theorem high_ids_starve_last : ∃ ls s os,
    (mainLoop 1).run (.initial ⟨false, false⟩ 3 0) ls = some (s, os) ∧
      s.table.canDirty ⟨0x7FF, by decide⟩ = true ∧
      ∀ flushes, ∃ s', Passes 1 ⟨0x7FF, by decide⟩ s flushes s' :=
  (high_ids_starve (by decide) rfl (by decide) ⟨0x7FF, by decide⟩).mpr (by decide)

end WsServer
