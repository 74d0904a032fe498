import WsServer.Base.Program
import WsServer.FiringSequence
import WsServer.Wiggle

/-! The atomic actions from which the handlers are built: the critical sections on
the shared context, single sends, and the calls that can fail. -/
namespace WsServer
open Interaction

/-- The fields that `SET_VALVE` names. -/
inductive ValveField where
  | loxMain
  | loxVent
  | loxMainAngleOpen
  | loxVentAngleClose
  deriving DecidableEq, Repr

def ValveProfile.set (p : ValveProfile) : ValveField → UInt32 → ValveProfile
  | .loxMain, v => { p with loxMainValveId := v }
  | .loxVent, v => { p with loxVentValveId := v }
  | .loxMainAngleOpen, v => { p with loxMainAngleOpen := v.toUInt16 }
  | .loxVentAngleClose, v => { p with loxVentAngleClose := v.toUInt16 }

inductive Act where
  | registerClient (client : Client)
  | unregisterClient (client : Client)
  | clientContext (client : Client)
  | setWriteOnly (client : Client) (writeOnly : Bool)
  | getState
  | storeState (state : AppState)
  | wiggleStart (r : WiggleRequest)
  | wiggleStop (id : UInt32)
  | wiggleStopAll (sendExitValue : Bool)
  | wiggleProcess
  | setValve (field : ValveField) (value : UInt32)
  | readProfile
  | allocate
  | claimSequence
  | callocArgs
  | createWorker (args : SequenceWorkerArgs)
  | finishSequence
  | requestAbort
  | canSend (command : CanCommand)
  | log (kind text : String)
  | sendText (client : Client) (text : String)
  | broadcast (text : String)

/-- What an action answers: whether the client has a context, the state read,
whether the state changed, the result of `wiggle_start`, whether or how many slots
were stopped, whether memory, the sequence flag or a thread was obtained. -/
@[reducible] def Act.Answer : Act → Type
  | .clientContext _ => Bool
  | .getState => AppState
  | .storeState _ => Bool
  | .wiggleStart _ => Int
  | .wiggleStop _ => Bool
  | .wiggleStopAll _ => ℕ
  | .readProfile => ValveProfile
  | .allocate => Bool
  | .claimSequence => Bool
  | .callocArgs => Bool
  | .createWorker _ => Bool
  | .canSend _ => SendResult
  | _ => Unit

abbrev serverSig : Signature := ⟨Act, Act.Answer⟩

abbrev Server := Program serverSig

def act (a : Act) : Server a.Answer := Program.perform (S := serverSig) a

structure Worker where
  args : SequenceWorkerArgs
  pc : WorkerPc

/-- The context and the firing workers created so far, in order of creation. -/
structure Process where
  app : App
  workers : List Worker

def Process.setApp (p : Process) (app : App) : Process := { p with app := app }

/-- The critical section of `finish_sequence`. -/
def App.finishSequence (app : App) : App :=
  { app with sequenceActive := false, sequenceAbort := false }

/-- The test-and-set of `firing_sequence_start`. -/
def App.claimSequence (app : App) : App × Bool :=
  if app.sequenceActive then (app, false)
  else ({ app with sequenceActive := true, sequenceAbort := false }, true)

def App.storeState (app : App) (state : AppState) : App × Bool :=
  ({ app with state := state }, app.state != state)

def App.setWriteOnly (app : App) (client : Client) (writeOnly : Bool) : App :=
  { app with
    clients := app.clients.modify (app.clients.findIdx (fun c => c.client == client))
      (fun c => { c with writeOnly := writeOnly }) }

/-- One atomic action on the process. -/
def perform (p : Process) (env : Env) : (a : Act) → Process × a.Answer × List Event
  | .registerClient client =>
    (p.setApp { p.app with clients := ⟨client, false⟩ :: p.app.clients }, (), [])
  | .unregisterClient client =>
    (p.setApp { p.app with clients := p.app.clients.eraseP (fun c => c.client == client) }, (), [])
  | .clientContext client => (p, p.app.clients.any (fun c => c.client == client), [])
  | .setWriteOnly client writeOnly => (p.setApp (p.app.setWriteOnly client writeOnly), (), [])
  | .getState => (p, p.app.state, [])
  | .storeState state =>
    let x := p.app.storeState state
    (p.setApp x.1, x.2, [])
  | .wiggleStart r =>
    let x := wiggleStartLocked p.app env r
    (p.setApp x.1, x.2.1, x.2.2)
  | .wiggleStop id =>
    let x := wiggleStopLocked p.app env id
    (p.setApp x.1, x.2.1, x.2.2)
  | .wiggleStopAll sendExitValue =>
    let x := wiggleStopAllLocked p.app env sendExitValue
    (p.setApp x.1, x.2.1, x.2.2)
  | .wiggleProcess =>
    let x := wiggleProcess p.app env
    (p.setApp x.1, (), x.2)
  | .setValve field value =>
    (p.setApp { p.app with valveProfile := p.app.valveProfile.set field value }, (), [])
  | .readProfile => (p, p.app.valveProfile, [])
  | .allocate => (p, env.alloc, [])
  | .claimSequence =>
    let x := p.app.claimSequence
    (p.setApp x.1, x.2, [])
  | .callocArgs => (p, env.alloc, [])
  | .createWorker args =>
    if env.thread then ({ p with workers := p.workers ++ [⟨args, .sendStarted⟩] }, true, [])
    else (p, false, [])
  | .finishSequence => (p.setApp p.app.finishSequence, (), [])
  | .requestAbort => (p.setApp { p.app with sequenceAbort := true }, (), [])
  | .canSend command =>
    let result := canBusSendCommand p.app.canFd command (env.write 0)
    (p, result, [.canTx .rawCommand command result])
  | .log kind text => (p, (), [.log kind text])
  | .sendText client text => (p, (), [.sendText client text])
  | .broadcast text => (p, (), [.broadcast text])

/-- An action that only asks leaves a solo run where it is, with the answer. -/
theorem solo_ask {α : Type} {a : Act} {f : a.Answer → Server α} {p : Process} {e : ℕ → Env}
    {r : a.Answer} (h : perform p (e 0) a = (p, r, [])) :
    Program.solo (S := serverSig) perform (act a >>= f) p e =
      Program.solo (S := serverSig) perform (f r) p (fun n => e (n+1)) := by
  change (let x := perform p (e 0) a
    let y := Program.solo (S := serverSig) perform (f x.2.1) x.1 (fun n => e (n+1))
    (y.1, y.2.1, x.2.2 ++ y.2.2)) = _
  rw [h]
  rfl

end WsServer
