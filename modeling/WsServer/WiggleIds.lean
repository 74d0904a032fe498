import WsServer.SystemStep
import WsServer.WiggleSlots

/-! The ids in the slot table: `wiggle_start` refuses an id that is too large, so no
active slot of a reachable server holds one. -/
namespace WsServer
open Interaction Program

def WiggleCommand.ValidId (slot : WiggleCommand) : Prop := slot.active = true → slot.id ≤ 0x7FF

def WiggleTable.ValidIds (t : WiggleTable) : Prop := ∀ i, (t i).ValidId

/-- A wiggle is started with a valid id, if the action starts one. -/
def Act.ValidStart : Act → Prop
  | .wiggleStart r => r.id ≤ 0x7FF
  | _ => True

/-! ### The actions -/

theorem validId_zero : WiggleCommand.zero.ValidId := nofun

theorem validId_deactivateSlot {slot : WiggleCommand} (h : slot.ValidId) (fd : Int)
    (sendExitValue : Bool) (write : Option String) :
    (deactivateSlot fd slot sendExitValue write).1.ValidId := by
  cases hactive : slot.active with
  | false =>
    rw [deactivateSlot_inactive fd slot sendExitValue write hactive]
    exact h
  | true =>
    rw [(deactivateSlot_active fd slot sendExitValue write hactive).1]
    exact validId_zero

theorem validId_processSlot {slot : WiggleCommand} (h : slot.ValidId) (fd : Int) (now : UInt64)
    (write : Option String) : (processSlot fd now slot write).1.ValidId := by
  unfold processSlot
  split_ifs
  · exact h
  · exact validId_deactivateSlot h fd true write
  · exact h
  · exact h
  · exact h

theorem validIds_update {t : WiggleTable} (h : t.ValidIds) (i : Fin appMaxWiggles)
    {slot : WiggleCommand} (hslot : slot.ValidId) :
    WiggleTable.ValidIds (Function.update t i slot) := by
  intro j
  by_cases hj : j = i
  · rw [hj, Function.update_self]
    exact hslot
  · rw [Function.update_of_ne hj]
    exact h j

/-- Every action keeps the ids of the table valid, but for a start with another id. -/
theorem perform_validIds {p : Process} (h : p.app.wiggles.ValidIds) (env : Env) (a : Act)
    (ha : a.ValidStart) : (perform p env a).1.app.wiggles.ValidIds := by
  cases a with
  | wiggleStart r =>
    simp only [perform, wiggleStartLocked]
    split
    · exact h
    · exact validIds_update h _ (fun _ => ha)
  | wiggleStop id =>
    simp only [perform, wiggleStopLocked]
    split
    · exact h
    · exact validIds_update h _ (validId_deactivateSlot (h _) _ _ _)
  | wiggleStopAll sendExitValue => exact fun i => validId_deactivateSlot (h i) _ _ _
  | wiggleProcess =>
    simp only [perform, wiggleProcess]
    split_ifs
    · exact h
    · exact fun i => validId_processSlot (h i) _ _ _
  | claimSequence =>
    simp only [perform, App.claimSequence]
    split_ifs <;> exact h
  | createWorker args =>
    simp only [perform]
    split_ifs <;> exact h
  | _ => exact h

/-! ### The handlers -/

/-- What the handlers may do to the table: start a wiggle with arguments that `wiggle_start`
lets in, stop one, or stop all of them with their exit values. -/
def Act.Served : Act → Prop
  | .wiggleStart r => r.periodMs ≠ 0 ∧ r.id ≤ 0x7FF
  | .wiggleStopAll sendExitValue => sendExitValue = true
  | .wiggleProcess => False
  | _ => True

theorem validStart_of_served {a : Act} (h : a.Served) : a.ValidStart := by
  cases a with
  | wiggleStart r => exact h.2
  | _ => trivial

theorem served_of_kind {a : Act} (h : a.kind ∉ [ActKind.start, .drop, .tick]) : a.Served := by
  revert h
  fun_cases Act.kind a <;>
    first | exact fun _ => trivial | exact fun _ => rfl | exact fun h => absurd (by decide) h

/-- None of the kinds starts a wiggle, drops one or is the tick. -/
theorem Kinds.served {ks : List ActKind} {β : Type} {p : Server β} (h : Kinds ks p)
    (hks : ∀ k ∈ ks, k ∉ [ActKind.start, .drop, .tick]) : Performs Act.Served p :=
  Performs.mono h (fun a ha => served_of_kind (hks a.kind ha))

theorem served_sendReply (client : Client) (msg : String) :
    Performs Act.Served (sendReply client msg) := performs_single trivial

theorem served_wiggleStart (r : WiggleRequest) : Performs Act.Served (wiggleStart r) := by
  unfold wiggleStart
  split_ifs with hbad
  · trivial
  · obtain ⟨hperiod, hid⟩ := not_or.mp hbad
    exact performs_single ⟨hperiod, UInt32.not_lt.mp hid⟩

theorem served_startEntries (tokens : List CText) (started : ℕ) :
    Performs Act.Served (startEntries tokens started) := by
  induction tokens generalizing started with
  | nil => trivial
  | cons token rest ih =>
    unfold startEntries
    cases scanWiggle token with
    | none => trivial
    | some r =>
      refine (served_wiggleStart r).bind (fun rc => ?_)
      split_ifs
      · trivial
      · exact ih _

theorem served_handleWiggle (client : Client) (command : CText) :
    Performs Act.Served (handleWiggle client command) := by
  have hreply (msg : String) :
      Performs Act.Served (do sendReply client msg; pure true : Server Bool) :=
    (served_sendReply client msg).bind (fun _ => performs_pure true)
  unfold handleWiggle
  split_ifs
  · trivial
  refine performs_then trivial (fun state => ?_)
  split_ifs
  · exact hreply _
  refine (served_startEntries _ 0).bind ?_
  rintro ⟨started, parseError⟩
  dsimp only
  split_ifs <;> exact hreply _

theorem served_hotfireHandlers (client : Client) (normalized : CText) :
    Performs Act.Served (hotfireHandlers client normalized) := by
  refine performs_then trivial (fun state => ?_)
  split_ifs
  · exact served_sendReply client _
  refine ((kinds_handleDrown client normalized).served (by decide)).bind (fun drown => ?_)
  split_ifs
  · trivial
  refine ((kinds_handleFire client normalized).served (by decide)).bind (fun fire => ?_)
  split_ifs
  · trivial
  refine ((kinds_handleRawCan client normalized).served (by decide)).bind (fun raw => ?_)
  split_ifs
  · trivial
  · exact served_sendReply client _

theorem served_commandHandleText (config : AppConfig) (client : Client) (text : CText) :
    Performs Act.Served (commandHandleText config client text) := by
  refine ((kinds_handleReadToggle client text).served (by decide)).bind (fun toggled => ?_)
  dsimp only
  split_ifs
  · trivial
  · exact (kinds_handleTestingCommand client _).served (by decide)
  · exact served_sendReply client _
  refine ((kinds_handleAbort client _).served (by decide)).bind (fun abort => ?_)
  split_ifs
  · trivial
  refine ((kinds_handleStateCommand client _).served (by decide)).bind (fun state => ?_)
  split_ifs
  · trivial
  refine ((kinds_handleSetValve client _).served (by decide)).bind (fun setValve => ?_)
  split_ifs
  · trivial
  refine performs_then trivial (fun copied => ?_)
  split_ifs
  · exact served_sendReply client _
  refine ((kinds_handleWiggleStop client _).served (by decide)).bind (fun stopped => ?_)
  split_ifs
  · trivial
  refine (served_handleWiggle client _).bind (fun wiggle => ?_)
  split_ifs
  · trivial
  · exact served_hotfireHandlers client _

theorem served_call (config : AppConfig) (c : Call) (hc : c ≠ .tick) :
    Performs Act.Served (c.program config) := by
  have hzero {p : Server Unit} (h : Performs Act.Served p) :
      Performs Act.Served (do p; pure 0 : Server Int) :=
    h.bind (fun _ => performs_pure 0)
  cases c with
  | connect client => exact hzero ((kinds_onConnect client).served (by decide))
  | disconnect client => exact hzero (performs_single trivial)
  | message client payload =>
    refine hzero (performs_then trivial (fun copied => ?_))
    split_ifs
    · exact performs_single trivial
    · exact performs_then trivial (fun _ => served_commandHandleText config client _)
  | startSequence client blocks started completed failed =>
    exact (kinds_firingSequenceStart client blocks started completed failed).served (by decide)
  | startDrown client => exact (kinds_firingSequenceStartDrown client).served (by decide)
  | requestAbort => exact hzero (performs_single trivial)
  | tick => exact absurd rfl hc

theorem validStart_call (config : AppConfig) (c : Call) :
    Performs Act.ValidStart (c.program config) := by
  by_cases hc : c = .tick
  · rw [hc]
    exact performs_then trivial (fun _ => performs_pure 0)
  · exact (served_call config c hc).mono (fun _ => validStart_of_served)

/-! ### The server -/

/-- The ids in the table are valid, and no thread is about to start another one. -/
structure System.ValidIds (s : System) : Prop where
  table : s.app.wiggles.ValidIds
  threads : ∀ t, Performs Act.ValidStart (s.threads t)

theorem validIds_initial (config : AppConfig) (canFd : Int) :
    (System.initial config canFd).ValidIds where
  table _ := validId_zero
  threads _ := trivial

theorem validIds_afterWorker (app : App) (e : WorkerEvent) (h : app.wiggles.ValidIds) :
    (app.afterWorker e).wiggles.ValidIds := by
  cases e <;> exact h

theorem validIds_step {s s' : System} {l : Label} {os : List Output} (hs : s.ValidIds)
    (h : server.step s l = some (s', os)) : s'.ValidIds := by
  have hmove := system_move h
  have hthreads := hmove.threads hs.threads (fun _ c _ => validStart_call _ c)
    (fun _ _ _ hp => hp.2 _)
  obtain ⟨actor, env⟩ := l
  refine ⟨?_, hthreads⟩
  cases hmove with
  | call t c v _ => exact hs.table
  | thread t a k hk =>
    have ha := hs.threads t
    rw [hk] at ha
    exact perform_validIds hs.table env a ha.1
  | worker k args pc mid e _ _ => exact validIds_afterWorker s.app e hs.table
  | signal => exact hs.table

/-- No active slot of a reachable server has an id above `0x7FF`. -/
theorem validIds_reachable {config : AppConfig} {canFd : Int} {s : System}
    (h : server.Reachable (System.initial config canFd) s) : s.app.wiggles.ValidIds :=
  (h.invariant (validIds_initial config canFd) (fun _ _ _ hs hstep => validIds_step hs hstep)).table

end WsServer
