import WsServer.Base.SlotTable
import WsServer.Control
import WsServer.WiggleSlots

/-! The purpose of the slot table: a finite map from CAN ids to wiggles. The functions
of `wiggle.c` are compared with operations on that map, whatever slot each id is in. -/
namespace WsServer
open Interaction SlotTable

/-! ### The map and its operations -/

/-- A running wiggle, but for its id. -/
structure WiggleParams where
  startValue : UInt16
  endValue : UInt16
  currentValue : UInt16
  exitValue : UInt16
  periodMs : UInt32
  totalDurationMs : UInt32
  nextToggleMs : UInt64
  stopTimeMs : UInt64
  deriving DecidableEq, Repr

/-- What a request starts at a time. -/
def WiggleRequest.params (r : WiggleRequest) (now : UInt64) : WiggleParams where
  startValue := r.startValue
  endValue := r.endValue
  currentValue := r.startValue
  exitValue := r.exitValue
  periodMs := r.periodMs
  totalDurationMs := r.totalDurationMs
  nextToggleMs := now+r.periodMs.toUInt64
  stopTimeMs := if r.totalDurationMs ≠ 0 then now+r.totalDurationMs.toUInt64 else 0

abbrev WiggleMap := Finmap fun _ : UInt32 => WiggleParams

/-- The calls on the table, and `app_state_set` with the state that `wiggle_process` reads. -/
inductive TableCall where
  | start (r : WiggleRequest)
  | stop (id : UInt32)
  | stopAll (sendExitValue : Bool)
  | process
  | setState (state : AppState)

/-- The map, the state, and what a call answers and sends. -/
structure Wiggling where
  map : WiggleMap
  state : AppState

structure CallResult where
  answer : Int
  sent : Multiset CanCommand

/-- A tick on one wiggle: what becomes of it, and the value it sends. -/
def WiggleParams.tick (now : UInt64) (p : WiggleParams) : Option WiggleParams × Option UInt16 :=
  if p.totalDurationMs > 0 ∧ p.stopTimeMs > 0 ∧ now ≥ p.stopTimeMs then (none, some p.exitValue)
  else if now < p.nextToggleMs then (some p, none)
  else
    let next := if p.currentValue = p.startValue then p.endValue else p.startValue
    (some { p with
      currentValue := next
      nextToggleMs := now+p.periodMs.toUInt64 }, some next)

def tickSent (now : UInt64) (id : UInt32) (p : WiggleParams) : List CanCommand :=
  ((p.tick now).2.map (fun v => ⟨id, v, 0⟩)).toList

def exitSent (sendExitValue : Bool) (id : UInt32) (p : WiggleParams) : List CanCommand :=
  if sendExitValue then [⟨id, p.exitValue, 0⟩] else []

/-- What the wiggles send when all of them are stopped. -/
def WiggleMap.exits (m : WiggleMap) (sendExitValue : Bool) : Multiset CanCommand :=
  m.entries.bind (fun e => exitSent sendExitValue e.1 e.2)

/-- The operations of the map. -/
def Wiggling.call (w : Wiggling) (now : UInt64) : TableCall → Wiggling × CallResult
  | .start r =>
    if r.periodMs = 0 ∨ r.id > 0x7FF ∨ (r.id ∉ w.map ∧ w.map.keys.card = appMaxWiggles) then
      (w, ⟨-1, 0⟩)
    else ({ w with map := w.map.insert r.id (r.params now) }, ⟨0, {⟨r.id, r.startValue, 0⟩}⟩)
  | .stop id =>
    match w.map.lookup id with
    | none => (w, ⟨0, 0⟩)
    | some p => ({ w with map := w.map.erase id }, ⟨1, {⟨id, p.exitValue, 0⟩}⟩)
  | .stopAll sendExitValue =>
    ({ w with map := ∅ }, ⟨0, w.map.exits sendExitValue⟩)
  | .process =>
    if w.state ≠ .prechilling then (w, ⟨0, 0⟩)
    else ({ w with map := mapFilter (fun _ p => (p.tick now).1) w.map },
      ⟨0, w.map.entries.bind (fun e => tickSent now e.1 e.2)⟩)
  | .setState state =>
    let changed : Int := if w.state ≠ state then 1 else 0
    match state with
    | .prechilling => (⟨w.map, .prechilling⟩, ⟨changed, 0⟩)
    | .hotfire => (⟨∅, .hotfire⟩, ⟨changed, w.map.exits true⟩)

/-! ### The calls of the code -/

def TableCall.program : TableCall → Server Int
  | .start r => wiggleStart r
  | .stop id => do
    let stopped ← wiggleStop id
    pure (if stopped then 1 else 0)
  | .stopAll sendExitValue => do wiggleStopAll sendExitValue; pure 0
  | .process => do act .wiggleProcess; pure 0
  | .setState state => do
    let changed ← appStateSet state
    pure (if changed then 1 else 0)

/-- A call run on its own: the answer, the context behind it and its events. -/
def TableCall.run (c : TableCall) (app : App) (env : Env) : Int × App × List Event :=
  let x := Program.solo (S := serverSig) perform c.program ⟨app, []⟩ (fun _ => env)
  (x.1, x.2.1.app, x.2.2)

/-! ### The slots hold the map -/

def WiggleCommand.params (slot : WiggleCommand) : WiggleParams where
  startValue := slot.startValue
  endValue := slot.endValue
  currentValue := slot.currentValue
  exitValue := slot.exitValue
  periodMs := slot.periodMs
  totalDurationMs := slot.totalDurationMs
  nextToggleMs := slot.nextToggleMs
  stopTimeMs := slot.stopTimeMs

def WiggleCommand.entry (slot : WiggleCommand) : Option (UInt32 × WiggleParams) :=
  if slot.active then some (slot.id, slot.params) else none

def slotsOf (t : WiggleTable) : Slots UInt32 WiggleParams appMaxWiggles := fun i => (t i).entry

theorem entry_active {slot : WiggleCommand} (h : slot.active = true) :
    slot.entry = some (slot.id, slot.params) := if_pos h

theorem entry_inactive {slot : WiggleCommand} (h : slot.active = false) : slot.entry = none :=
  if_neg (by rw [h]; exact Bool.false_ne_true)

theorem entry_eq_some {slot : WiggleCommand} {id : UInt32} {p : WiggleParams} :
    slot.entry = some (id, p) ↔ slot.active = true ∧ slot.id = id ∧ slot.params = p := by
  unfold WiggleCommand.entry
  split_ifs with h
  · simp only [h, Option.some.injEq, Prod.mk.injEq, true_and]
  · simp only [h, Bool.false_eq_true, false_and]

def Wiggling.initial : Wiggling := ⟨∅, .prechilling⟩

/-- Slots and map agree, and every wiggle is one that `wiggle_start` lets in. -/
structure Refines (app : App) (w : Wiggling) : Prop where
  table : Represents (slotsOf app.wiggles) w.map
  state : app.state = w.state
  valid : ∀ id p, w.map.lookup id = some p → id ≤ 0x7FF ∧ 0 < p.periodMs

theorem refines_initial (config : AppConfig) (canFd : Int) :
    Refines (appContextInit config canFd) .initial where
  table := represents_empty (fun _ => rfl)
  state := rfl
  valid id p h := by
    cases (Finmap.lookup_empty id).symm.trans h

/-! ### Finding slots -/

theorem findSlot_some {t : WiggleTable} {id : UInt32} {i : Fin appMaxWiggles}
    (h : findSlot t id = some i) : slotsOf t i = some (id, (t i).params) := by
  have hi := List.find?_some h
  rw [Bool.and_eq_true, beq_iff_eq] at hi
  exact entry_eq_some.mpr ⟨hi.1, hi.2, rfl⟩

theorem findSlot_none {t : WiggleTable} {id : UInt32} {m : WiggleMap}
    (hm : Represents (slotsOf t) m) (h : findSlot t id = none) : id ∉ m := by
  rw [hm.mem_iff]
  rintro ⟨i, p, hi⟩
  obtain ⟨hactive, hid, -⟩ := entry_eq_some.mp hi
  have hno := List.find?_eq_none.mp h i (List.mem_finRange i)
  rw [hactive, Bool.true_and, beq_iff_eq] at hno
  exact hno hid

theorem allocSlot_some {t : WiggleTable} {i : Fin appMaxWiggles} (h : allocSlot t = some i) :
    slotsOf t i = none := by
  have hi := List.find?_some h
  rw [Bool.not_eq_true'] at hi
  exact entry_inactive hi

theorem allocSlot_none {t : WiggleTable} (h : allocSlot t = none) :
    ∀ i, (slotsOf t i).isSome := by
  intro i
  have hi := List.find?_eq_none.mp h i (List.mem_finRange i)
  rw [Bool.not_eq_true', Bool.not_eq_false] at hi
  rw [slotsOf, entry_active hi]
  rfl

theorem slotsOf_update (t : WiggleTable) (i : Fin appMaxWiggles) (slot : WiggleCommand) :
    slotsOf (Function.update t i slot) = Function.update (slotsOf t) i slot.entry := by
  funext j
  by_cases hj : j = i
  · subst hj
    simp only [slotsOf, Function.update_self]
  · simp only [slotsOf, Function.update_of_ne hj]

/-! ### Each call refines its operation -/

/-- What a call does: the answer, the map and the commands of the operation. -/
structure CallRefines (w : Wiggling) (now : UInt64) (c : TableCall)
    (r : Int × App × List Event) : Prop where
  answer : r.1 = (w.call now c).2.answer
  refines : Refines r.2.1 (w.call now c).1
  sent : (attempted r.2.2 : Multiset CanCommand) = (w.call now c).2.sent

/-- The slot that `wiggle_start` takes: that of the id, or a free one if there is none. -/
theorem chosenSlot {t : WiggleTable} {m : WiggleMap} (hm : Represents (slotsOf t) m)
    (id : UInt32) :
    match (findSlot t id).or (allocSlot t) with
    | none => id ∉ m ∧ m.keys.card = appMaxWiggles
    | some i => (∃ p, slotsOf t i = some (id, p)) ∨ (slotsOf t i = none ∧ id ∉ m) := by
  cases hfind : findSlot t id with
  | some i =>
    rw [Option.some_or]
    exact Or.inl ⟨_, findSlot_some hfind⟩
  | none =>
    have hnew := findSlot_none hm hfind
    rw [Option.none_or]
    cases halloc : allocSlot t with
    | none => exact ⟨hnew, hm.full_iff.mp (allocSlot_none halloc)⟩
    | some i => exact Or.inr ⟨allocSlot_some halloc, hnew⟩

/-- Behind its checks `wiggle_start` is its critical section. -/
theorem run_start (app : App) (env : Env) {r : WiggleRequest}
    (h : ¬ (r.periodMs = 0 ∨ r.id > 0x7FF)) : (TableCall.start r).run app env =
      ((wiggleStartLocked app env r).2.1, (wiggleStartLocked app env r).1,
        (wiggleStartLocked app env r).2.2) := by
  have hrun : (TableCall.start r).run app env =
      ((wiggleStartLocked app env r).2.1, (wiggleStartLocked app env r).1,
        (wiggleStartLocked app env r).2.2 ++ []) := by
    simp only [TableCall.run, TableCall.program, wiggleStart, if_neg h]
    rfl
  rw [hrun, List.append_nil]

theorem run_stop (app : App) (env : Env) (id : UInt32) : (TableCall.stop id).run app env =
    (if (wiggleStopLocked app env id).2.1 then 1 else 0, (wiggleStopLocked app env id).1,
      (wiggleStopLocked app env id).2.2) := by
  have hrun : (TableCall.stop id).run app env =
      (if (wiggleStopLocked app env id).2.1 then 1 else 0, (wiggleStopLocked app env id).1,
        (wiggleStopLocked app env id).2.2 ++ []) := rfl
  rw [hrun, List.append_nil]

theorem run_process (app : App) (env : Env) : TableCall.process.run app env =
    (0, (wiggleProcess app env).1, (wiggleProcess app env).2) := by
  have hrun : TableCall.process.run app env =
      (0, (wiggleProcess app env).1, (wiggleProcess app env).2 ++ []) := rfl
  rw [hrun, List.append_nil]

theorem callRefines_start {app : App} {w : Wiggling} (hs : Refines app w) (env : Env)
    (r : WiggleRequest) : CallRefines w env.now (.start r) ((TableCall.start r).run app env) := by
  by_cases hbad : r.periodMs = 0 ∨ r.id > 0x7FF
  · have hrun : (TableCall.start r).run app env = (-1, app, []) := by
      simp only [TableCall.run, TableCall.program, wiggleStart, if_pos hbad]
      rfl
    have hcall : w.call env.now (.start r) = (w, ⟨-1, 0⟩) :=
      if_pos (hbad.imp_right Or.inl)
    rw [hrun]
    exact ⟨by rw [hcall], by rw [hcall]; exact hs, by rw [hcall]; rfl⟩
  · have hrun := run_start app env hbad
    obtain ⟨hperiod, hid⟩ := not_or.mp hbad
    have hchosen := chosenSlot hs.table r.id
    rw [hrun]
    unfold wiggleStartLocked
    split
    · -- neither the id nor a free slot was found
      rename_i hnone
      rw [hnone] at hchosen
      have hcall : w.call env.now (.start r) = (w, ⟨-1, 0⟩) :=
        if_pos (Or.inr (Or.inr hchosen))
      exact ⟨by rw [hcall], by rw [hcall]; exact hs, by rw [hcall]; rfl⟩
    · rename_i i hsome
      rw [hsome] at hchosen
      have hroom : ¬ (r.periodMs = 0 ∨ r.id > 0x7FF ∨
          (r.id ∉ w.map ∧ w.map.keys.card = appMaxWiggles)) := by
        rintro (h | h | ⟨hnew, hfull⟩)
        · exact hperiod h
        · exact hid h
        · rcases hchosen with ⟨p, hp⟩ | ⟨hfree, -⟩
          · exact hnew (hs.table.mem_iff.mpr ⟨i, p, hp⟩)
          · have hoccupied := hs.table.full_iff.mpr hfull i
            rw [hfree] at hoccupied
            cases hoccupied
      have hcall : w.call env.now (.start r) =
          ({ w with map := w.map.insert r.id (r.params env.now) },
            ⟨0, {⟨r.id, r.startValue, 0⟩}⟩) := if_neg hroom
      refine ⟨by rw [hcall], ?_, ?_⟩
      · rw [hcall]
        refine ⟨?_, hs.state, ?_⟩
        · dsimp only
          rw [slotsOf_update]
          exact hs.table.put i r.id (r.params env.now) hchosen
        · intro id p hp
          by_cases heq : id = r.id
          · subst heq
            rw [Finmap.lookup_insert] at hp
            obtain rfl := Option.some.inj hp
            exact ⟨UInt32.not_lt.mp hid, UInt32.pos_iff_ne_zero.mpr hperiod⟩
          · rw [Finmap.lookup_insert_of_ne _ heq] at hp
            exact hs.valid id p hp
      · rw [hcall]
        dsimp only
        rw [attempted_sendValue]
        rfl

theorem callRefines_stop {app : App} {w : Wiggling} (hs : Refines app w) (env : Env)
    (id : UInt32) : CallRefines w env.now (.stop id) ((TableCall.stop id).run app env) := by
  rw [run_stop]
  unfold wiggleStopLocked
  cases hfind : findSlot app.wiggles id with
  | none =>
    have hlookup : w.map.lookup id = none :=
      Finmap.lookup_eq_none.mpr (findSlot_none hs.table hfind)
    have hcall : w.call env.now (.stop id) = (w, ⟨0, 0⟩) := by
      simp only [Wiggling.call, hlookup]
    exact ⟨by rw [hcall]; rfl, by rw [hcall]; exact hs, by rw [hcall]; rfl⟩
  | some i =>
    have hi := findSlot_some hfind
    have hlookup := hs.table.lookup_eq hi
    have hcall : w.call env.now (.stop id) =
        ({ w with map := w.map.erase id }, ⟨1, {⟨id, (app.wiggles i).exitValue, 0⟩}⟩) := by
      simp only [Wiggling.call, hlookup]
      rfl
    obtain ⟨hactive, hid, -⟩ := entry_eq_some.mp hi
    obtain ⟨hzero, hsent⟩ :=
      deactivateSlot_active app.canFd (app.wiggles i) true (env.write 0) hactive
    refine ⟨by rw [hcall]; rfl, ?_, ?_⟩
    · rw [hcall]
      refine ⟨?_, hs.state, ?_⟩
      · dsimp only
        rw [slotsOf_update, hzero]
        exact hs.table.clear i id _ hi
      · intro id' p hp
        by_cases heq : id' = id
        · subst heq
          rw [Finmap.lookup_erase] at hp
          cases hp
        · rw [Finmap.lookup_erase_ne heq] at hp
          exact hs.valid id' p hp
    · rw [hcall]
      dsimp only
      rw [hsent, if_pos rfl, WiggleCommand.tx, hid]
      rfl

/-- The value that a due slot sends next. -/
def WiggleCommand.toggled (slot : WiggleCommand) : UInt16 :=
  if slot.currentValue = slot.startValue then slot.endValue else slot.startValue

/-- The loop body of `wiggle_process` is a tick on the slot's wiggle. -/
theorem processSlot_tick (fd : Int) (now : UInt64) (slot : WiggleCommand) (write : Option String) :
    (processSlot fd now slot write).1.entry =
      slot.entry.bind (fun e => ((e.2.tick now).1).map (fun v => (e.1, v))) ∧
    attempted (processSlot fd now slot write).2 =
      slot.entry.elim [] (fun e => tickSent now e.1 e.2) := by
  cases hactive : slot.active with
  | false =>
    rw [processSlot_inactive fd now slot write hactive, entry_inactive hactive]
    exact ⟨rfl, rfl⟩
  | true =>
    have hguard : (!slot.active) = false := by rw [hactive]; rfl
    rw [entry_active hactive, Option.bind_some]
    dsimp only
    -- the branches of the loop body in their order: the end, too early, a toggle
    by_cases hstop : slot.totalDurationMs > 0 ∧ slot.stopTimeMs > 0 ∧ now ≥ slot.stopTimeMs
    · have htick : slot.params.tick now = (none, some slot.exitValue) := if_pos hstop
      have hslot : processSlot fd now slot write = deactivateSlot fd slot true write := by
        simp only [processSlot, hguard, Bool.false_eq_true, if_false, if_pos hstop]
      obtain ⟨hzero, hsent⟩ := deactivateSlot_active fd slot true write hactive
      dsimp only [Option.elim, tickSent]
      rw [hslot, hzero, hsent, htick]
      exact ⟨rfl, rfl⟩
    · by_cases hearly : now < slot.nextToggleMs
      · have htick : slot.params.tick now = (some slot.params, none) :=
          (if_neg hstop).trans (if_pos hearly)
        have hslot : processSlot fd now slot write = (slot, []) := by
          simp only [processSlot, hguard, Bool.false_eq_true, if_false,
            if_neg hstop, if_pos hearly]
        dsimp only [Option.elim, tickSent]
        rw [hslot, htick, entry_active hactive]
        exact ⟨rfl, rfl⟩
      · have htick : slot.params.tick now =
            (some { slot.params with
              currentValue := slot.toggled
              nextToggleMs := now+slot.periodMs.toUInt64 }, some slot.toggled) :=
          (if_neg hstop).trans (if_neg hearly)
        have hslot : processSlot fd now slot write =
            ({ slot with
              currentValue := slot.toggled
              nextToggleMs := now+slot.periodMs.toUInt64 },
              (sendValue fd slot slot.toggled write).2) := by
          simp only [processSlot, hguard, Bool.false_eq_true, if_false,
            if_neg hstop, if_neg hearly]
          rfl
        dsimp only [Option.elim, tickSent]
        rw [hslot, htick, attempted_sendValue]
        exact ⟨entry_active hactive, rfl⟩

theorem tick_periodMs {now : UInt64} {p p' : WiggleParams} (h : (p.tick now).1 = some p') :
    p'.periodMs = p.periodMs := by
  unfold WiggleParams.tick at h
  split_ifs at h <;> cases h <;> rfl

theorem callRefines_process {app : App} {w : Wiggling} (hs : Refines app w) (env : Env) :
    CallRefines w env.now .process (TableCall.process.run app env) := by
  rw [run_process]
  unfold wiggleProcess
  by_cases hstate : app.state ≠ .prechilling
  · have hcall : w.call env.now .process = (w, ⟨0, 0⟩) := if_pos (hs.state ▸ hstate)
    rw [if_pos hstate]
    exact ⟨by rw [hcall], by rw [hcall]; exact hs, by rw [hcall]; rfl⟩
  · have hcall : w.call env.now .process =
        ({ w with map := mapFilter (fun _ p => (p.tick env.now).1) w.map },
          ⟨0, w.map.entries.bind (fun e => tickSent env.now e.1 e.2)⟩) :=
      if_neg (hs.state ▸ hstate)
    rw [if_neg hstate]
    refine ⟨by rw [hcall], ?_, ?_⟩
    · rw [hcall]
      refine ⟨?_, hs.state, ?_⟩
      · exact hs.table.mapFilter _ (fun i => (processSlot_tick _ _ _ _).1)
      · intro id p' hp'
        rw [lookup_mapFilter] at hp'
        obtain ⟨p, hp, htick⟩ := Option.bind_eq_some_iff.mp hp'
        rw [tick_periodMs htick]
        exact hs.valid id p hp
    · rw [hcall, attempted_overSlots]
      exact hs.table.output_eq _ (tickSent env.now) (fun i => (processSlot_tick _ _ _ _).2)

theorem deactivateSlot_exit (fd : Int) (slot : WiggleCommand) (sendExitValue : Bool)
    (write : Option String) :
    attempted (deactivateSlot fd slot sendExitValue write).2 =
      slot.entry.elim [] (fun e => exitSent sendExitValue e.1 e.2) := by
  cases hactive : slot.active with
  | false =>
    rw [deactivateSlot_inactive fd slot sendExitValue write hactive, entry_inactive hactive]
    rfl
  | true =>
    rw [(deactivateSlot_active fd slot sendExitValue write hactive).2, entry_active hactive]
    rfl

/-- Behind its critical section `wiggle_stop_all` sends only a text. -/
theorem solo_wiggleStopAll (app : App) (env : Env) (sendExitValue : Bool) :
    ∃ es, Program.solo perform (wiggleStopAll sendExitValue) ⟨app, []⟩ (fun _ => env) =
      ((), ⟨(wiggleStopAllLocked app env sendExitValue).1, []⟩,
        (wiggleStopAllLocked app env sendExitValue).2.2 ++ es) ∧ attempted es = [] := by
  let x := wiggleStopAllLocked app env sendExitValue
  let text : String := "Stopped " ++ toString x.2.1 ++ " active wiggle(s)"
  let rest : Server Unit := if x.2.1 > 0 then act (.broadcast text) else pure ()
  let y := Program.solo perform rest ⟨x.1, []⟩ (fun _ => env)
  have hsolo : Program.solo perform (wiggleStopAll sendExitValue) ⟨app, []⟩ (fun _ => env) =
      (y.1, y.2.1, x.2.2 ++ y.2.2) := rfl
  by_cases hstopped : x.2.1 > 0
  · have hrest : rest = act (.broadcast text) := if_pos hstopped
    have hy : y = ((), ⟨x.1, []⟩, [.broadcast text]) := by
      simp only [y, hrest]
      rfl
    exact ⟨[.broadcast text], by rw [hsolo, hy], rfl⟩
  · have hrest : rest = pure () := if_neg hstopped
    have hy : y = ((), ⟨x.1, []⟩, []) := by
      simp only [y, hrest]
      rfl
    exact ⟨[], by rw [hsolo, hy], rfl⟩

/-- What the critical section of `wiggle_stop_all` leaves and sends. -/
theorem stopAllLocked_refines {app : App} {w : Wiggling} (hs : Refines app w) (env : Env)
    (sendExitValue : Bool) :
    Refines (wiggleStopAllLocked app env sendExitValue).1 { w with map := ∅ } ∧
      (attempted (wiggleStopAllLocked app env sendExitValue).2.2 : Multiset CanCommand) =
        w.map.exits sendExitValue := by
  refine ⟨⟨?_, hs.state, ?_⟩, ?_⟩
  · exact represents_empty (fun i => entry_inactive (deactivateSlot_active_false _ _ _ _))
  · intro id p hp
    cases (Finmap.lookup_empty id).symm.trans hp
  · refine Eq.trans ?_ (hs.table.output_eq
      (fun i => attempted (deactivateSlot app.canFd (app.wiggles i) sendExitValue (env.write i)).2)
      (exitSent sendExitValue) (fun i => deactivateSlot_exit _ _ _ _))
    exact congrArg _ (attempted_overSlots app _)

theorem run_stopAll (app : App) (env : Env) (sendExitValue : Bool) :
    ((TableCall.stopAll sendExitValue).run app env).1 = 0 ∧
    ((TableCall.stopAll sendExitValue).run app env).2.1 =
      (wiggleStopAllLocked app env sendExitValue).1 ∧
    attempted ((TableCall.stopAll sendExitValue).run app env).2.2 =
      attempted (wiggleStopAllLocked app env sendExitValue).2.2 := by
  obtain ⟨es, hsolo, hes⟩ := solo_wiggleStopAll app env sendExitValue
  simp only [TableCall.run, TableCall.program, Program.solo_bind, hsolo]
  refine ⟨rfl, rfl, ?_⟩
  rw [attempted_append, attempted_append, hes]
  simp only [Program.pure_eq, Program.solo, attempted_nil, List.append_nil]

theorem callRefines_stopAll {app : App} {w : Wiggling} (hs : Refines app w) (env : Env)
    (sendExitValue : Bool) : CallRefines w env.now (.stopAll sendExitValue)
      ((TableCall.stopAll sendExitValue).run app env) := by
  obtain ⟨hanswer, happ, hattempted⟩ := run_stopAll app env sendExitValue
  obtain ⟨hleft, hsent⟩ := stopAllLocked_refines hs env sendExitValue
  refine ⟨hanswer, ?_, ?_⟩
  · rw [happ]
    exact hleft
  · rw [hattempted]
    exact hsent

theorem callRefines_setState {app : App} {w : Wiggling} (hs : Refines app w) (env : Env)
    (state : AppState) : CallRefines w env.now (.setState state)
      ((TableCall.setState state).run app env) := by
  have hanswer : (if app.state != state then (1 : Int) else 0) =
      if w.state ≠ state then 1 else 0 := by
    simp only [hs.state, bne_iff_ne]
  have hstored : Refines { app with state := state } { w with state := state } :=
    ⟨hs.table, rfl, hs.valid⟩
  cases state with
  | prechilling => exact ⟨hanswer, hstored, rfl⟩
  | hotfire =>
    obtain ⟨es, hsolo, hes⟩ := solo_wiggleStopAll { app with state := .hotfire } env true
    obtain ⟨hleft, hsent⟩ := stopAllLocked_refines hstored env true
    let changed : Bool := app.state != .hotfire
    let behind (p : Process) : List Event :=
      [.broadcast ("State has been set to " ++ appStateLabel p.app.state)]
    have hrun : (TableCall.setState .hotfire).run app env =
        let y := Program.solo perform (wiggleStopAll true) ⟨{ app with state := .hotfire }, []⟩
          (fun _ => env)
        (if changed then 1 else 0, y.2.1.app, y.2.2 ++ behind y.2.1) := by
      let rest : Server Bool := wiggleStopAll true >>= fun _ => appStateBroadcast >>= fun _ =>
        pure changed
      have hprogram : (TableCall.setState .hotfire).run app env =
          let z := Program.solo perform (rest >>= fun b => pure (if b then (1 : Int) else 0))
            ⟨{ app with state := .hotfire }, []⟩ (fun _ => env)
          (z.1, z.2.1.app, z.2.2) := rfl
      simp only [hprogram, rest, Program.solo_bind, List.append_assoc]
      rfl
    rw [hrun, hsolo]
    refine ⟨hanswer, hleft, ?_⟩
    rw [attempted_append, attempted_append, hes, List.append_nil]
    exact (congrArg _ (List.append_nil _)).trans hsent

/-- The simulation, for one call. -/
theorem callRefines {app : App} {w : Wiggling} (hs : Refines app w) (env : Env) (c : TableCall) :
    CallRefines w env.now c (c.run app env) := by
  cases c with
  | start r => exact callRefines_start hs env r
  | stop id => exact callRefines_stop hs env id
  | stopAll sendExitValue => exact callRefines_stopAll hs env sendExitValue
  | process => exact callRefines_process hs env
  | setState state => exact callRefines_setState hs env state

/-! ### Sequences of calls -/

/-- The context behind some calls, each with what it sees of its environment. -/
def App.afterCalls (app : App) : List (TableCall × Env) → App
  | [] => app
  | (c, env) :: calls => (c.run app env).2.1.afterCalls calls

def Wiggling.afterCalls (w : Wiggling) : List (TableCall × Env) → Wiggling
  | [] => w
  | (c, env) :: calls => (w.call env.now c).1.afterCalls calls

/-- The simulation, for any sequence of calls: one call at a time. -/
theorem refines_afterCalls {app : App} {w : Wiggling} (hs : Refines app w)
    (calls : List (TableCall × Env)) : Refines (app.afterCalls calls) (w.afterCalls calls) := by
  induction calls generalizing app w with
  | nil => exact hs
  | cons x calls ih => exact ih (callRefines hs x.2 x.1).refines

/-- No two active slots share an id, and each holds an id and a period that
`wiggle_start` lets in. -/
structure WiggleTable.WellFormed (t : WiggleTable) : Prop where
  unique : ∀ i j, (t i).active → (t j).active → (t i).id = (t j).id → i = j
  valid : ∀ i, (t i).active → (t i).id ≤ 0x7FF ∧ 0 < (t i).periodMs

theorem Refines.wellFormed {app : App} {w : Wiggling} (hs : Refines app w) :
    app.wiggles.WellFormed := by
  have hslot : ∀ i, (app.wiggles i).active →
      slotsOf app.wiggles i = some ((app.wiggles i).id, (app.wiggles i).params) :=
    fun i hi => entry_active hi
  constructor
  · intro i j hi hj hid
    have hj' := hslot j hj
    rw [← hid] at hj'
    exact hs.table.unique i j _ _ _ (hslot i hi) hj'
  · intro i hi
    exact hs.valid _ _ (hs.table.lookup_eq (hslot i hi))

/-- A start fails on an argument that it does not take, or when the id is new and the
map is full. -/
theorem call_start_answer (w : Wiggling) (now : UInt64) (r : WiggleRequest) :
    (w.call now (.start r)).2.answer = -1 ↔
      r.periodMs = 0 ∨ r.id > 0x7FF ∨ (r.id ∉ w.map ∧ w.map.keys.card = appMaxWiggles) := by
  let bad := r.periodMs = 0 ∨ r.id > 0x7FF ∨ (r.id ∉ w.map ∧ w.map.keys.card = appMaxWiggles)
  by_cases h : bad
  · have hcall : w.call now (.start r) = (w, ⟨-1, 0⟩) := if_pos h
    exact iff_of_true (by rw [hcall]) h
  · have hcall : (w.call now (.start r)).2 = ⟨0, {⟨r.id, r.startValue, 0⟩}⟩ :=
      congrArg Prod.snd (if_neg h)
    refine iff_of_false ?_ h
    rw [hcall]
    exact (by decide : ¬ (0 : Int) = -1)

theorem call_stop_answer (w : Wiggling) (now : UInt64) (id : UInt32) :
    (w.call now (.stop id)).2.answer = 1 ↔ id ∈ w.map := by
  rw [Finmap.mem_iff]
  simp only [Wiggling.call]
  cases h : w.map.lookup id with
  | none => exact ⟨fun hanswer => absurd hanswer (show ¬ (0 : Int) = 1 by decide), nofun⟩
  | some p => exact ⟨fun _ => ⟨p, rfl⟩, fun _ => rfl⟩

/-- A start that fails leaves the context alone and sends nothing. -/
theorem run_start_fails {app : App} {env : Env} {r : WiggleRequest}
    (h : ((TableCall.start r).run app env).1 = -1) :
    ((TableCall.start r).run app env).2 = (app, []) := by
  by_cases hbad : r.periodMs = 0 ∨ r.id > 0x7FF
  · simp only [TableCall.run, TableCall.program, wiggleStart, if_pos hbad]
    rfl
  · rw [run_start app env hbad] at h ⊢
    unfold wiggleStartLocked at h ⊢
    split at h
    · rfl
    · exact absurd h (by dsimp only; decide)

/-- The slot table is a map from CAN ids to wiggles with at most 16 keys: after any
calls from the initial context, whatever slots the keys came to be in, the next call
answers, sends and leaves what the operation of the map does. -/
theorem wiggle_table_refines_map (config : AppConfig) (canFd : Int)
    (calls : List (TableCall × Env)) :
    let app := (appContextInit config canFd).afterCalls calls
    let w := Wiggling.initial.afterCalls calls
    Refines app w ∧ app.wiggles.WellFormed ∧ w.map.keys.card ≤ appMaxWiggles ∧
    (∀ c env, CallRefines w env.now c (c.run app env)) ∧
    (∀ r env, ((TableCall.start r).run app env).1 = -1 ↔
      r.periodMs = 0 ∨ r.id > 0x7FF ∨ (r.id ∉ w.map ∧ w.map.keys.card = appMaxWiggles)) ∧
    (∀ r env, ((TableCall.start r).run app env).1 = -1 →
      ((TableCall.start r).run app env).2 = (app, [])) ∧
    (∀ id env, ((TableCall.stop id).run app env).1 = 1 ↔ id ∈ w.map) := by
  intro app w
  have hs : Refines app w := refines_afterCalls (refines_initial config canFd) calls
  refine ⟨hs, hs.wellFormed, hs.table.card_le, fun c env => callRefines hs env c, ?_, ?_, ?_⟩
  · intro r env
    rw [(callRefines hs env (.start r)).answer]
    exact call_start_answer w env.now r
  · intro r env h
    exact run_start_fails h
  · intro id env
    rw [(callRefines hs env (.stop id)).answer]
    exact call_stop_answer w env.now id

end WsServer
