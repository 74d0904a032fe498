import WsServer.Base.LockOrder
import WsServer.Startup
import WsServer.SystemStep

/-! The server lock by lock: its critical sections are carried out one access to the shared
data, one write to the CAN bus and one line of the log at a time, and the threads run into
each other's locks. -/
namespace WsServer
open Interaction

/-- What `state_lock` guards. -/
structure ModeTable where
  mode : AppState
  wiggles : WiggleTable

/-- What `sequence_lock` guards. -/
structure SequenceFlags where
  active : Bool
  abort : Bool

/-- The other locks guard a list of clients that `perform` handles in one action, and what is no
part of the context of the server. -/
@[reducible] def GuardedData : Mutex → Type
  | .state => ModeTable
  | .sequence => SequenceFlags
  | _ => Unit

inductive StateAccess where
  | readMode
  | writeMode (mode : AppState)
  | readSlot (i : Fin appMaxWiggles)
  -- one assignment to a field of a slot, or `memset`
  | assign (i : Fin appMaxWiggles) (change : WiggleCommand → WiggleCommand)

@[reducible] def StateAccess.Answer : StateAccess → Type
  | .readMode => AppState
  | .readSlot _ => WiggleCommand
  | _ => Unit

inductive FlagAccess where
  | readActive
  | readAbort
  | writeActive (value : Bool)
  | writeAbort (value : Bool)

@[reducible] def FlagAccess.Answer : FlagAccess → Type
  | .readActive | .readAbort => Bool
  | _ => Unit

@[reducible] def guardedSig : Mutex → Signature
  | .state => ⟨StateAccess, StateAccess.Answer⟩
  | .sequence => ⟨FlagAccess, FlagAccess.Answer⟩
  | _ => ⟨Empty, fun _ => Unit⟩

def ModeTable.access (d : ModeTable) : (f : StateAccess) → ModeTable × f.Answer
  | .readMode => (d, d.mode)
  | .writeMode mode => ({ d with mode := mode }, ())
  | .readSlot i => (d, d.wiggles i)
  | .assign i change =>
    ({ d with wiggles := Function.update d.wiggles i (change (d.wiggles i)) }, ())

def SequenceFlags.access (d : SequenceFlags) : (f : FlagAccess) → SequenceFlags × f.Answer
  | .readActive => (d, d.active)
  | .readAbort => (d, d.abort)
  | .writeActive value => ({ d with active := value }, ())
  | .writeAbort value => ({ d with abort := value }, ())

def guardedAccess : (m : Mutex) → GuardedData m → (f : (guardedSig m).Act) →
    GuardedData m × (guardedSig m).Answer f
  | .state, d, f => ModeTable.access d f
  | .sequence, d, f => SequenceFlags.access d f
  | .clients, d, _ => (d, ())
  | .can, d, _ => (d, ())
  | .logger, d, _ => (d, ())

/-- What a section does outside the context. -/
inductive SectionIo where
  | monotonicMs
  | canSend (fd : Int) (command : CanCommand)
  | log (kind text : String)

@[reducible] def SectionIo.Answer : SectionIo → Type
  | .monotonicMs => UInt64
  | .canSend _ _ => SendResult
  | .log _ _ => Unit

@[reducible] def sectionIo : Signature := ⟨SectionIo, SectionIo.Answer⟩

/-- Pieces of the functions that take locks. -/
abbrev Pieces := Program ⟨Piece Mutex guardedSig sectionIo System Output, Piece.Answer⟩

namespace Locked

def acquire (m : Mutex) : Pieces Unit := .act (.acquire m) .ret
def release (m : Mutex) : Pieces Unit := .act (.release m) .ret
def whole : Pieces Unit := .act .whole .ret
def commit (g : System → System) (os : List Output) : Pieces Unit := .act (.commit g os) .ret

def stateAccess (f : StateAccess) : Pieces f.Answer :=
  .act (.access .state f) fun r => .ret r

def flagAccess (f : FlagAccess) : Pieces f.Answer :=
  .act (.access .sequence f) fun r => .ret r

def io (a : SectionIo) : Pieces a.Answer := .act (.ask a) fun r => .ret r

/-! ### logger.c -/

/-- `logger_printf`, which returns at once where nothing is logged. -/
def loggerPrintf (enabled : Bool) (kind text : String) : Pieces Unit :=
  if enabled then do
    acquire .logger
    io (.log kind text)
    release .logger
  else io (.log kind text)

/-! ### wiggle.c -/

def findSlot (id : UInt32) : List (Fin appMaxWiggles) → Pieces (Option (Fin appMaxWiggles))
  | [] => pure none
  | i :: rest => do
    let slot ← stateAccess (.readSlot i)
    if slot.active && slot.id == id then pure (some i) else findSlot id rest

def allocSlot : List (Fin appMaxWiggles) → Pieces (Option (Fin appMaxWiggles))
  | [] => pure none
  | i :: rest => do
    let slot ← stateAccess (.readSlot i)
    if !slot.active then pure (some i) else allocSlot rest

def sendValue (logging : Bool) (fd : Int) (i : Fin appMaxWiggles) (value : UInt16) :
    Pieces Unit := do
  stateAccess (.assign i fun slot => { slot with currentValue := value })
  let slot ← stateAccess (.readSlot i)
  let result ← io (.canSend fd ⟨slot.id, value, 0⟩)
  if result = .sent then loggerPrintf logging "CAN_TX" (formatIdValue slot.id value) else pure ()

def deactivateSlot (logging : Bool) (fd : Int) (i : Fin appMaxWiggles) (sendExitValue : Bool) :
    Pieces Unit := do
  let slot ← stateAccess (.readSlot i)
  if !slot.active then pure ()
  else do
    (if sendExitValue then sendValue logging fd i slot.exitValue else pure () : Pieces Unit)
    stateAccess (.assign i fun _ => .zero)

/-- The assignments with which `wiggle_start` fills a slot. -/
def fillSlot (i : Fin appMaxWiggles) (now : UInt64) (r : WiggleRequest) : Pieces Unit := do
  stateAccess (.assign i fun slot => { slot with id := r.id })
  stateAccess (.assign i fun slot => { slot with startValue := r.startValue })
  stateAccess (.assign i fun slot => { slot with endValue := r.endValue })
  stateAccess (.assign i fun slot => { slot with exitValue := r.exitValue })
  stateAccess (.assign i fun slot => { slot with periodMs := r.periodMs })
  stateAccess (.assign i fun slot => { slot with totalDurationMs := r.totalDurationMs })
  stateAccess (.assign i fun slot => { slot with active := true })
  stateAccess (.assign i fun slot => { slot with
    stopTimeMs := if r.totalDurationMs ≠ 0 then now + r.totalDurationMs.toUInt64 else 0 })

def wiggleStart (logging : Bool) (fd : Int) (r : WiggleRequest) : Pieces Int := do
  let found ← findSlot r.id (List.finRange appMaxWiggles)
  let slot ← (if found.isSome then pure found else allocSlot (List.finRange appMaxWiggles) :
    Pieces (Option (Fin appMaxWiggles)))
  match slot with
  | none => pure (-1)
  | some i => do
    let now ← io .monotonicMs
    fillSlot i now r
    sendValue logging fd i r.startValue
    stateAccess (.assign i fun slot => { slot with nextToggleMs := now + r.periodMs.toUInt64 })
    pure 0

def wiggleStop (logging : Bool) (fd : Int) (id : UInt32) : Pieces Bool := do
  let found ← findSlot id (List.finRange appMaxWiggles)
  match found with
  | none => pure false
  | some i => do
    deactivateSlot logging fd i true
    pure true

/-- The loop of `wiggle_stop_all`, with the number of slots that it has stopped. -/
def stopSlots (logging : Bool) (fd : Int) (sendExitValue : Bool) :
    List (Fin appMaxWiggles) → ℕ → Pieces ℕ
  | [], stopped => pure stopped
  | i :: rest, stopped => do
    let slot ← stateAccess (.readSlot i)
    if slot.active then do
      deactivateSlot logging fd i sendExitValue
      stopSlots logging fd sendExitValue rest (stopped+1)
    else stopSlots logging fd sendExitValue rest stopped

/-- The body of the loop of `wiggle_process`. -/
def processSlot (logging : Bool) (fd : Int) (now : UInt64) (i : Fin appMaxWiggles) :
    Pieces Unit := do
  let slot ← stateAccess (.readSlot i)
  if !slot.active then pure ()
  else if slot.totalDurationMs > 0 ∧ slot.stopTimeMs > 0 ∧ now ≥ slot.stopTimeMs then
    deactivateSlot logging fd i true
  else if now < slot.nextToggleMs then pure ()
  else do
    sendValue logging fd i
      (if slot.currentValue = slot.startValue then slot.endValue else slot.startValue)
    stateAccess (.assign i fun s => { s with nextToggleMs := now + s.periodMs.toUInt64 })

def wiggleProcess (logging : Bool) (fd : Int) : Pieces Unit := do
  let mode ← stateAccess .readMode
  if mode ≠ .prechilling then pure ()
  else do
    let now ← io .monotonicMs
    (List.finRange appMaxWiggles).forM (processSlot logging fd now)

/-! ### state.c and firing_sequence.c -/

/-- The section of `app_state_set`. -/
def storeState (state : AppState) : Pieces Bool := do
  let old ← stateAccess .readMode
  stateAccess (.writeMode state)
  pure (old != state)

/-- The section of `firing_sequence_start`. -/
def claimSequence : Pieces Bool := do
  let active ← flagAccess .readActive
  if active then pure false
  else do
    flagAccess (.writeActive true)
    flagAccess (.writeAbort false)
    pure true

def finishSequence : Pieces Unit := do
  flagAccess (.writeActive false)
  flagAccess (.writeAbort false)

/-! ### The steps of the server -/

/-- Thread `t` goes on with the rest of its program. -/
def answer (t : Thread) (p : Server Int) (s : System) : System :=
  { s with threads := Function.update s.threads t p }

/-- An action of thread `t` that is the section of a lock. -/
def under {α : Type} (m : Mutex) (t : Thread) (body : Pieces α) (k : α → Server Int) :
    Pieces Unit := do
  acquire m
  let r ← body
  commit (answer t (k r)) []
  release m

/-- An action in one piece, with a lock around it. -/
def around (m : Mutex) : Pieces Unit := do
  acquire m
  whole
  release m

/-- The calls of the logger. -/
def logged (enabled : Bool) : Pieces Unit := if enabled then around .logger else whole

/-- The line that `ws_bridge_broadcast_text` logs before it takes its own lock. -/
def beforeBroadcast (enabled : Bool) : Pieces Unit :=
  if enabled then do
    acquire .logger
    release .logger
  else pure ()

def actCode (logging : Bool) (fd : Int) (t : Thread) :
    (a : Act) → (a.Answer → Server Int) → Pieces Unit
  | .getState, k => under .state t (stateAccess .readMode) k
  | .storeState state, k => under .state t (storeState state) k
  | .wiggleStart r, k => under .state t (wiggleStart logging fd r) k
  | .wiggleStop id, k => under .state t (wiggleStop logging fd id) k
  | .wiggleStopAll sendExitValue, k =>
    under .state t (stopSlots logging fd sendExitValue (List.finRange appMaxWiggles) 0) k
  | .wiggleProcess, k => under .state t (wiggleProcess logging fd) k
  | .claimSequence, k => under .sequence t claimSequence k
  | .finishSequence, k => under .sequence t finishSequence k
  | .requestAbort, k => under .sequence t (flagAccess (.writeAbort true)) k
  | .registerClient _, _ => around .clients
  | .unregisterClient _, _ => around .clients
  | .log _ _, _ => logged logging
  | .broadcast _, _ => do
    beforeBroadcast logging
    around .clients
  | _, _ => whole

/-- Worker `k` is at its next step. -/
def workerAt (k : ℕ) (args : SequenceWorkerArgs) (pc : WorkerPc) (s : System) : System :=
  { s with process := ⟨s.app, s.process.workers.set k ⟨args, pc⟩⟩ }

def workerCode (logging : Bool) (k : ℕ) (args : SequenceWorkerArgs) : WorkerPc → Pieces Unit
  | .checkAbort i deadline => do
    acquire .sequence
    let requested ← flagAccess .readAbort
    commit (workerAt k args (if requested then .sendAborted else .checkStop i deadline))
      [.worker k (.abortRequested requested)]
    release .sequence
  | .finish => do
    acquire .sequence
    finishSequence
    commit (workerAt k args .done) [.worker k .finishSequence]
    release .sequence
  | .logBlock _ => logged logging
  | _ => whole

end Locked

/-- The threads, the workers and the one who sends the signal. -/
inductive Party where
  | thread (t : Thread)
  | worker (k : ℕ)
  | signal
  deriving DecidableEq

/-- What a party is to do next. -/
inductive Control where
  | idle (t : Thread)
  | acting (t : Thread) (a : Act) (k : a.Answer → Server Int) (canFd : Int)
  | worker (k : ℕ) (args : SequenceWorkerArgs) (pc : WorkerPc)
  | signal

/-- What comes to a party from outside: the call that a thread makes next, and what the system
answers. -/
structure PartyInput where
  call : Call
  env : Env

def System.control (s : System) : Party → Option Control
  | .thread t =>
    match s.threads t with
    | .ret _ => some (.idle t)
    | .act a k => some (.acting t a k s.app.canFd)
  | .worker k =>
    match s.process.workers[k]? with
    | none => none
    | some w => if w.pc = .done then none else some (.worker k w.args w.pc)
  | .signal => some .signal

def Control.label (e : PartyInput) : Control → Label
  | .idle t => ⟨.call t e.call, e.env⟩
  | .acting t _ _ _ => ⟨.thread t, e.env⟩
  | .worker k _ _ => ⟨.worker k, e.env⟩
  | .signal => ⟨.signal, e.env⟩

def Control.code (logging : Bool) : Control → Pieces Unit
  | .acting t a k canFd => Locked.actCode logging canFd t a k
  | .worker k args pc => Locked.workerCode logging k args pc
  | _ => Locked.whole

def System.guarded (s : System) : ∀ m, GuardedData m
  | .state => (⟨s.app.state, s.app.wiggles⟩ : ModeTable)
  | .sequence => (⟨s.app.sequenceActive, s.app.sequenceAbort⟩ : SequenceFlags)
  | .clients => ()
  | .can => ()
  | .logger => ()

def App.setGuarded (app : App) (table : ModeTable) (flags : SequenceFlags) : App :=
  { app with
    state := table.mode
    wiggles := table.wiggles
    sequenceActive := flags.active
    sequenceAbort := flags.abort }

def System.setGuarded (s : System) (d : ∀ m, GuardedData m) : System :=
  { s with process := s.process.setApp (s.app.setGuarded (d .state) (d .sequence)) }

def Output.author : Output → Party
  | .event t _ => .thread t
  | .worker k _ => .worker k

/-- What a party puts out in a section. -/
def Party.puts : Party → Event → List Output
  | .thread t, e => [.event t e]
  | _, _ => []

def Party.ask (i : Party) (e : PartyInput) : (a : SectionIo) → a.Answer × List Output
  | .monotonicMs => (e.env.now, [])
  | .canSend fd command =>
    let result := canBusSendCommand fd command (e.env.write 0)
    (result, i.puts (.canTx .wiggle command result))
  | .log kind text => ((), i.puts (.log kind text))

/-- The server in pieces. -/
@[reducible] def lockedSections (logging : Bool) :
    Sections System Label Output Party Mutex Control PartyInput where
  Data := GuardedData
  data := guardedSig
  io := sectionIo
  get := System.guarded
  set := System.setGuarded
  access := guardedAccess
  ask := Party.ask
  control := System.control
  label c _ e := c.label e
  code c _ _ := c.code logging
  author := Output.author

end WsServer
