import WsServer.CanDrain
import WsServer.ClientRegistry
import WsServer.Heartbeat
import WsServer.ModeRace
import WsServer.Base.Part

/-! The event loop of `main`: a readable CAN socket is drained into the table, and a tick of
the timer runs the wiggles, the heartbeat and the broadcast of what has changed. Threads of
clients and firing workers go on in between, and each part runs as it does alone. -/
namespace WsServer
open Interaction Printf

/-- What a `read` of the CAN socket gives: a whole frame, a part of one with whatever `errno`
was before, or an error. -/
inductive CanRead where
  | whole (frame : CanFrame)
  | short (errno : String)
  | failed (errno : String)
  deriving DecidableEq

/-- `EAGAIN`, which is `EWOULDBLOCK` -/
def wouldBlock : String := "Resource temporarily unavailable"

/-- `EINTR` -/
def interrupted : String := "Interrupted system call"

/-- `can_bus_read_frame`: a frame, no frame, or an error with its `errno`. -/
def canBusReadFrame (fd : Int) (read : CanRead) : Except String (Option CanFrame) :=
  if fd < 0 then .error "Invalid argument"
  else match read with
    | .whole frame => .ok (some frame)
    | .short errno => .error errno
    | .failed errno => if errno = wouldBlock then .ok none else .error errno

/-- The two descriptors that `init_runtime` registers. -/
inductive LoopEvent where
  | canSocket
  | timer
  deriving DecidableEq

inductive EpollResult where
  | ready (events : List LoopEvent)
  | failed (errno : String)
  deriving DecidableEq

/-- The length of the array that `epoll_wait` fills. -/
def maxEvents : ℕ := 8

/-- The size of the buffer of `flush_can_updates`. -/
def flushCapacity : ℕ := 8192

/-- Where the main thread is, with the events that it has still to handle: before the next
one or in the branch of the timer behind `wiggle_process` or behind the heartbeat. With none
left to handle it is at the head of its loop. -/
inductive LoopPc where
  | events (rest : List LoopEvent)
  | heartbeat (rest : List LoopEvent)
  | flush (rest : List LoopEvent)
  | left
  deriving DecidableEq

/-- What a step of the main thread may ask the system for, and the old content of the stack
buffer of `flush_can_updates`. -/
structure LoopInput where
  env : Env
  epoll : EpollResult
  read : CanRead
  timer : TimerTick
  buffer : ℕ → Char
  realtimeNs : UInt64
  malloc : Bool

inductive LoopOutput where
  | server (o : Output)
  | event (e : Event)
  | heartbeat (e : HeartbeatEvent)
  | perror (text : String)
  deriving DecidableEq

structure MainLoop where
  system : System
  table : CanTable
  nextHeartbeatMs : UInt64
  pc : LoopPc

def MainLoop.app (s : MainLoop) : App := s.system.app

/-- The text and the length that `can_bus_format_dirty` leaves to `flush_can_updates`. -/
def flushedUpdate (t : CanTable) (buffer : ℕ → Char) : CanUpdate :=
  let x := canBusFormatDirty t buffer flushCapacity
  ⟨cString flushCapacity x.2.1, x.2.2⟩

/-- What `flush_can_updates` broadcasts, with the time before it. -/
def flushPayload (input : LoopInput) (u : CanUpdate) : Option String :=
  if 0 < u.length then
    some (broadcastPayload true input.realtimeNs input.malloc (String.ofList u.text))
  else none

/-- The call of `wiggle_process` on the main thread. -/
def tickLabels (env : Env) : List Label := [⟨.call .main .tick, env⟩, ⟨.thread .main, env⟩]

/-- The next step of the main thread in its loop. -/
def MainLoop.mainStep (fuel : ℕ) (s : MainLoop) (input : LoopInput) :
    Option (MainLoop × List LoopOutput) :=
  match s.pc with
  | .left => none
  | .events [] =>
    if s.app.stop then some ({ s with pc := .left }, [])
    -- testing mode only sleeps
    else if s.app.config.testingMode then some (s, [])
    else match input.epoll with
      | .ready events =>
        if events.length ≤ maxEvents then some ({ s with pc := .events events }, []) else none
      | .failed errno =>
        if errno = interrupted then some (s, [])
        else some ({ s with pc := .left }, [.perror ("epoll_wait: " ++ errno)])
  | .events (.canSocket :: rest) =>
    match canBusReadFrame s.app.canFd input.read with
    | .ok (some frame) =>
      let x := canBusStoreRx s.table frame
      some ({ s with table := x.1 }, x.2.map .event)
    | .ok none => some ({ s with pc := .events rest }, [])
    | .error errno =>
      some ({ s with pc := .events rest },
        if errno = wouldBlock then [] else [.perror ("can read: " ++ errno)])
  | .events (.timer :: rest) =>
    (server.run s.system (tickLabels input.env)).map fun x =>
      ({ s with system := x.1, pc := .heartbeat rest }, x.2.map .server)
  | .heartbeat rest =>
    (heartbeatTick fuel s.app.canFd s.nextHeartbeatMs input.timer).map fun x =>
      ({ s with nextHeartbeatMs := x.1, pc := .flush rest }, x.2.map .heartbeat)
  | .flush rest =>
    some ({ s with
        table := (canBusFormatDirty s.table input.buffer flushCapacity).1
        pc := .events rest },
      (flushPayload input (flushedUpdate s.table input.buffer)).toList.flatMap fun payload =>
        [.event (.log "WS_TX" payload), .event (.broadcast payload)])

/-- A step of the main thread in its loop, or one of another thread, a worker or the signal. -/
inductive LoopLabel where
  | main (input : LoopInput)
  | other (l : Label)

def MainLoop.step (fuel : ℕ) (s : MainLoop) : LoopLabel → Option (MainLoop × List LoopOutput)
  | .main input => s.mainStep fuel input
  | .other l =>
    if l.actor.mover = some .main then none
    else (server.step s.system l).map fun x => ({ s with system := x.1 }, x.2.map .server)

def mainLoop (fuel : ℕ) : Machine MainLoop LoopLabel LoopOutput := ⟨MainLoop.step fuel⟩

/-- The loop where `main` enters it, at time `start`. -/
def MainLoop.initial (config : AppConfig) (canFd : Int) (start : UInt64) : MainLoop where
  system := .initial config canFd
  table := .init
  nextHeartbeatMs := start + heartbeatPeriodMs
  pc := .events []

/-! ### One step -/

/-- Everything a step can be. -/
inductive LoopMove (fuel : ℕ) (s : MainLoop) : LoopLabel → MainLoop → List LoopOutput → Prop where
  | other (l : Label) (s' : System) (os : List Output) (hmover : l.actor.mover ≠ some .main)
      (h : server.step s.system l = some (s', os)) :
      LoopMove fuel s (.other l) { s with system := s' } (os.map .server)
  | leave (input : LoopInput) (hpc : s.pc = .events []) (hstop : s.app.stop = true) :
      LoopMove fuel s (.main input) { s with pc := .left } []
  | wait (input : LoopInput) (pc : LoopPc) (errors : List String) (hpc : s.pc = .events [])
      (hstop : s.app.stop = false)
      (hnext : pc = .left ∨ ∃ events, pc = .events events ∧ events.length ≤ maxEvents) :
      LoopMove fuel s (.main input) { s with pc := pc } (errors.map .perror)
  | frame (input : LoopInput) (rest : List LoopEvent) (frame : CanFrame)
      (hpc : s.pc = .events (.canSocket :: rest))
      (hread : canBusReadFrame s.app.canFd input.read = .ok (some frame)) :
      LoopMove fuel s (.main input) { s with table := (canBusStoreRx s.table frame).1 }
        ((canBusStoreRx s.table frame).2.map .event)
  | noFrame (input : LoopInput) (rest : List LoopEvent) (errors : List String)
      (hpc : s.pc = .events (.canSocket :: rest))
      (hread : ∀ frame, canBusReadFrame s.app.canFd input.read ≠ .ok (some frame)) :
      LoopMove fuel s (.main input) { s with pc := .events rest } (errors.map .perror)
  | wiggles (input : LoopInput) (rest : List LoopEvent) (s' : System) (os : List Output)
      (hpc : s.pc = .events (.timer :: rest))
      (h : server.run s.system (tickLabels input.env) = some (s', os)) :
      LoopMove fuel s (.main input) { s with system := s', pc := .heartbeat rest }
        (os.map .server)
  | heartbeat (input : LoopInput) (rest : List LoopEvent) (next : UInt64)
      (es : List HeartbeatEvent) (hpc : s.pc = .heartbeat rest)
      (h : heartbeatTick fuel s.app.canFd s.nextHeartbeatMs input.timer = some (next, es)) :
      LoopMove fuel s (.main input) { s with nextHeartbeatMs := next, pc := .flush rest }
        (es.map .heartbeat)
  | flush (input : LoopInput) (rest : List LoopEvent) (hpc : s.pc = .flush rest) :
      LoopMove fuel s (.main input)
        { s with
          table := (canBusFormatDirty s.table input.buffer flushCapacity).1
          pc := .events rest }
        ((flushPayload input (flushedUpdate s.table input.buffer)).toList.flatMap fun payload =>
          [.event (.log "WS_TX" payload), .event (.broadcast payload)])

theorem loop_move {fuel : ℕ} {s s' : MainLoop} {l : LoopLabel} {os : List LoopOutput}
    (h : (mainLoop fuel).step s l = some (s', os)) : LoopMove fuel s l s' os := by
  cases l with
  | other l =>
    simp only [mainLoop, MainLoop.step] at h
    split_ifs at h with hmover
    obtain ⟨⟨t, os'⟩, hstep, hx⟩ := Option.map_eq_some_iff.mp h
    obtain ⟨rfl, rfl⟩ := Prod.mk.inj hx
    exact .other l t os' hmover hstep
  | main input =>
    have hmain : s.mainStep fuel input = some (s', os) := h
    cases hpc : s.pc with
    | left => simp only [MainLoop.mainStep, hpc, reduceCtorEq] at hmain
    | heartbeat rest =>
      simp only [MainLoop.mainStep, hpc] at hmain
      obtain ⟨⟨next, es⟩, htick, hx⟩ := Option.map_eq_some_iff.mp hmain
      obtain ⟨rfl, rfl⟩ := Prod.mk.inj hx
      exact .heartbeat input rest next es hpc htick
    | flush rest =>
      simp only [MainLoop.mainStep, hpc, Option.some.injEq, Prod.mk.injEq] at hmain
      obtain ⟨rfl, rfl⟩ := hmain
      exact .flush input rest hpc
    | events events =>
      cases events with
      | nil =>
        -- asleep in testing mode, or after an interrupted wait
        have hstay (hgo : s.app.stop = false) : LoopMove fuel s (.main input) s [] := by
          have hmove : LoopMove fuel s (.main input) { s with pc := .events [] } [] :=
            .wait input (.events []) [] hpc hgo (Or.inr ⟨[], rfl, Nat.zero_le _⟩)
          rw [← hpc] at hmove
          exact hmove
        simp only [MainLoop.mainStep, hpc] at hmain
        split_ifs at hmain with hstop htesting
        · obtain ⟨rfl, rfl⟩ := Prod.mk.inj (Option.some.inj hmain)
          exact .leave input hpc hstop
        · obtain ⟨rfl, rfl⟩ := Prod.mk.inj (Option.some.inj hmain)
          exact hstay ((Bool.not_eq_true _).mp hstop)
        · have hgo := (Bool.not_eq_true _).mp hstop
          cases hepoll : input.epoll with
          | ready events =>
            simp only [hepoll] at hmain
            split_ifs at hmain with hlength
            obtain ⟨rfl, rfl⟩ := Prod.mk.inj (Option.some.inj hmain)
            exact .wait input (.events events) [] hpc hgo (Or.inr ⟨events, rfl, hlength⟩)
          | failed errno =>
            simp only [hepoll] at hmain
            split_ifs at hmain with herrno
            · obtain ⟨rfl, rfl⟩ := Prod.mk.inj (Option.some.inj hmain)
              exact hstay hgo
            · obtain ⟨rfl, rfl⟩ := Prod.mk.inj (Option.some.inj hmain)
              exact .wait input .left ["epoll_wait: " ++ errno] hpc hgo (Or.inl rfl)
      | cons event rest =>
        cases event with
        | timer =>
          simp only [MainLoop.mainStep, hpc] at hmain
          obtain ⟨⟨t, os'⟩, hrun, hx⟩ := Option.map_eq_some_iff.mp hmain
          obtain ⟨rfl, rfl⟩ := Prod.mk.inj hx
          exact .wiggles input rest t os' hpc hrun
        | canSocket =>
          simp only [MainLoop.mainStep, hpc] at hmain
          cases hread : canBusReadFrame s.app.canFd input.read with
          | error errno =>
            simp only [hread, Option.some.injEq, Prod.mk.injEq] at hmain
            obtain ⟨rfl, rfl⟩ := hmain
            have hnone : ∀ frame, canBusReadFrame s.app.canFd input.read ≠ .ok (some frame) := by
              rw [hread]
              intro frame hok
              cases hok
            have hmove : LoopMove fuel s _ _ _ := .noFrame input rest
              (if errno = wouldBlock then [] else ["can read: " ++ errno]) hpc hnone
            rw [apply_ite (List.map LoopOutput.perror)] at hmove
            exact hmove
          | ok found =>
            cases found with
            | none =>
              simp only [hread, Option.some.injEq, Prod.mk.injEq] at hmain
              obtain ⟨rfl, rfl⟩ := hmain
              refine .noFrame input rest [] hpc ?_
              rw [hread]
              intro frame hok
              cases hok
            | some frame =>
              simp only [hread, Option.some.injEq, Prod.mk.injEq] at hmain
              obtain ⟨rfl, rfl⟩ := hmain
              have hmove : LoopMove fuel s _ _ _ := .frame input rest frame hpc hread
              rw [hpc] at hmove
              exact hmove

/-! ### The parts of the loop -/

abbrev LoopTaken := Machine.Taken MainLoop LoopLabel LoopOutput

/-- The steps of the server in a step of the loop. -/
def serverLabels (x : LoopTaken) : List Label :=
  match x.label, x.state.pc with
  | .other l, _ => [l]
  | .main input, .events (.timer :: _) => tickLabels input.env
  | _, _ => []

/-- The calls on the table of CAN values. -/
def canCallsOf (x : LoopTaken) : List CanCall :=
  match x.label, x.state.pc with
  | .main input, .events (.canSocket :: _) =>
    match canBusReadFrame x.state.app.canFd input.read with
    | .ok (some frame) => [.storeRx frame]
    | _ => []
  | .main input, .flush _ => [.formatDirty input.buffer flushCapacity]
  | _, _ => []

/-- What `flush_can_updates` gets of the table, each time with its inputs. -/
def flushesOf (x : LoopTaken) : List (LoopInput × CanUpdate) :=
  match x.label, x.state.pc with
  | .main input, .flush _ => [(input, flushedUpdate x.state.table input.buffer)]
  | _, _ => []

/-- The readings of the clock for the heartbeat. -/
def timerTicks (x : LoopTaken) : List TimerTick :=
  match x.label, x.state.pc with
  | .main input, .heartbeat _ => [input.timer]
  | _, _ => []

def LoopOutput.serverOutput : LoopOutput → Option Output
  | .server o => some o
  | _ => none

def LoopOutput.heartbeatEvent : LoopOutput → Option HeartbeatEvent
  | .heartbeat e => some e
  | _ => none

/-! ### The parts run as they do alone -/

theorem server_canFd {s s' : System} {l : Label} {os : List Output}
    (h : server.step s l = some (s', os)) : s'.app.canFd = s.app.canFd := by
  have hmove := system_move h
  obtain ⟨actor, env⟩ := l
  cases hmove with
  | call t c v hidle => rfl
  | thread t a k hk => exact (perform_setup s.process env a).2
  | worker k args pc mid e hw hm =>
    change (s.app.afterWorker e).canFd = s.app.canFd
    cases e <;> rfl
  | signal => rfl

theorem server_run_canFd {s s' : System} {ls : List Label} {os : List Output} {fd : Int}
    (hs : s.app.canFd = fd) (h : server.run s ls = some (s', os)) : s'.app.canFd = fd :=
  Machine.run_invariant (I := fun s => s.app.canFd = fd) (C := fun _ _ => True)
    (fun _ _ _ hs _ hstep => (server_canFd hstep).trans hs) hs (Machine.along_true s ls) h

/-- The loop keeps its CAN socket. -/
theorem loop_canFd {fuel : ℕ} {fd : Int} (s : MainLoop) (l : LoopLabel)
    (x : MainLoop × List LoopOutput) (hs : s.app.canFd = fd)
    (h : (mainLoop fuel).step s l = some x) : x.1.app.canFd = fd := by
  obtain ⟨s', os⟩ := x
  cases loop_move h with
  | other l t os' hmover hstep => exact (server_canFd hstep).trans hs
  | wiggles input rest t os' hpc hrun => exact server_run_canFd hs hrun
  | _ =>
    simp only [MainLoop.app] at hs ⊢
    exact hs

/-- The server in the loop: its threads, its workers and the tick of the wiggles. -/
def serverPart (fuel : ℕ) (fd : Int) :
    (mainLoop fuel).Part server (fun s => s.app.canFd = fd) where
  state := MainLoop.system
  labels := serverLabels
  outputs x := x.outputs.filterMap LoopOutput.serverOutput
  step s l s' os _ h := by
    cases loop_move h with
    | other l t os' hmover hstep =>
      simpa [serverLabels, Function.comp_def, LoopOutput.serverOutput] using
        Machine.run_single_eq_some.mpr hstep
    | wiggles input rest t os' hpc hrun =>
      simpa [serverLabels, hpc, Function.comp_def, LoopOutput.serverOutput] using hrun
    | flush input rest hpc =>
      cases flushPayload input (flushedUpdate s.table input.buffer) <;>
        simp [serverLabels, hpc, LoopOutput.serverOutput]
    | _ => simp [serverLabels, *, Function.comp_def, LoopOutput.serverOutput]

/-- The table of CAN values in the loop. -/
def canPart (fuel : ℕ) (fd : Int) :
    (mainLoop fuel).Part canCalls (fun s => s.app.canFd = fd) where
  state := MainLoop.table
  labels := canCallsOf
  outputs x := (flushesOf x).map Prod.snd
  step s l s' os _ h := by
    cases loop_move h with
    | frame input rest frame hpc hread =>
      simp only [canCallsOf, flushesOf, hpc, hread]
      rfl
    | noFrame input rest errors hpc hread =>
      have hcalls : canCallsOf ⟨s, .main input, errors.map .perror⟩ = [] := by
        simp only [canCallsOf, hpc]
      rw [hcalls]
      simp [flushesOf, hpc]
    | flush input rest hpc =>
      simp only [canCallsOf, flushesOf, hpc]
      exact Machine.run_single_eq_some.mpr rfl
    | _ => simp [canCallsOf, flushesOf, *]

/-- The heartbeat in the loop. -/
def heartbeatPart (fuel : ℕ) (fd : Int) :
    (mainLoop fuel).Part (heartbeatTimer fuel fd) (fun s => s.app.canFd = fd) where
  state := MainLoop.nextHeartbeatMs
  labels := timerTicks
  outputs x := x.outputs.filterMap LoopOutput.heartbeatEvent
  step s l s' os hfd h := by
    cases loop_move h with
    | heartbeat input rest next es hpc htick =>
      rw [hfd] at htick
      simpa [timerTicks, hpc, Function.comp_def, LoopOutput.heartbeatEvent] using
        Machine.run_single_eq_some.mpr htick
    | flush input rest hpc =>
      cases flushPayload input (flushedUpdate s.table input.buffer) <;>
        simp [timerTicks, hpc, LoopOutput.heartbeatEvent]
    | _ => simp [timerTicks, *, Function.comp_def, LoopOutput.heartbeatEvent]

end WsServer
