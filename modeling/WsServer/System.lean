import WsServer.Base.Machine
import WsServer.WsBridge

/-! The whole server as a labelled machine: threads that run calls one atomic action
at a time, the firing workers, and the stop signal, in any interleaving. -/
namespace WsServer
open Interaction

inductive Thread where
  | main
  | handler (n : ℕ)
  deriving DecidableEq, Repr

/-- The calls that threads make into the code of the server. -/
inductive Call where
  | connect (client : Client)
  | disconnect (client : Client)
  | message (client : Client) (payload : CText)
  | startSequence (client : Client) (config : FiringSequenceConfig)
      (startedMessage completedMessage failedMessage : Option String)
  | startDrown (client : Client)
  | requestAbort
  | tick

def Call.program (config : AppConfig) : Call → Server Int
  | .connect client => do onConnect client; pure 0
  | .disconnect client => do onDisconnect client; pure 0
  | .message client payload => do onMessage config client payload; pure 0
  | .startSequence client blocks started completed failed =>
    firingSequenceStart client blocks started completed failed
  | .startDrown client => firingSequenceStartDrown client
  | .requestAbort => do firingSequenceRequestAbort; pure 0
  | .tick => do act .wiggleProcess; pure 0

/-- The process and what each thread has still to do; a thread that has returned is
idle, and its last result is kept. -/
structure System where
  process : Process
  threads : Thread → Server Int

def System.app (s : System) : App := s.process.app

inductive Actor where
  | call (t : Thread) (c : Call)
  | thread (t : Thread)
  | worker (k : ℕ)
  | signal

structure Label where
  actor : Actor
  env : Env

inductive Output where
  | event (t : Thread) (e : Event)
  | worker (k : ℕ) (e : WorkerEvent)
  deriving DecidableEq

def workerInput (app : App) (env : Env) : WorkerInput where
  now := env.now
  write := env.write 0
  sequenceAbort := app.sequenceAbort
  stop := app.stop
  canFd := app.canFd

/-- The effect of a worker step on the context: only `finish_sequence` has one. -/
def App.afterWorker (app : App) : WorkerEvent → App
  | .finishSequence => app.finishSequence
  | _ => app

def System.step (s : System) (l : Label) : Option (System × List Output) :=
  match l.actor with
  | .call t c =>
    match s.threads t with
    | .ret _ =>
      some ({ s with threads := Function.update s.threads t (c.program s.app.config) }, [])
    | .act _ _ => none
  | .thread t =>
    match s.threads t with
    | .ret _ => none
    | .act a k =>
      let x := perform s.process l.env a
      some (⟨x.1, Function.update s.threads t (k x.2.1)⟩, x.2.2.map (.event t))
  | .worker k =>
    match s.process.workers[k]? with
    | none => none
    | some w =>
      match workerStep w.args w.pc (workerInput s.app l.env) with
      | none => none
      | some (pc, e) =>
        some ({ s with
          process := ⟨s.app.afterWorker e, s.process.workers.set k ⟨w.args, pc⟩⟩ }, [.worker k e])
  | .signal =>
    some ({ s with process := s.process.setApp { s.app with stop := true } }, [])

def server : Machine System Label Output := ⟨System.step⟩

/-- The server after `app_context_init` and the opening of the CAN socket: no worker,
every thread idle. -/
def System.initial (config : AppConfig) (canFd : Int) : System where
  process := ⟨appContextInit config canFd, []⟩
  threads := fun _ => .ret 0

end WsServer
