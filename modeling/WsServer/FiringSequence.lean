import WsServer.CanBus
import WsServer.Base.Scanf
import WsServer.Base.Strtok

/-! `firing_sequence.c`: the parser of the block list and the detached worker. The
worker is a step machine: one step for every call that can be interleaved with the
rest of the server, and one event for every step. -/
namespace WsServer
open Scanf

def firingSequenceTminusMs : UInt64 := 10000
def canSendAttempts : ℕ := 3

structure FiringBlock where
  id : UInt32
  value : UInt16
  durationMs : UInt16
  waitMs : UInt16
  deriving DecidableEq, Repr

/-- The two `sscanf` attempts on one token, the one with a wait field first; `%c`
is there to refuse text behind the last field. -/
def scanBlock (token : CText) : Option FiringBlock :=
  match sscanf [.num 16 .int, .lit '#', .num 16 .short, .lit '#', .num 10 .short,
      .lit '#', .num 10 .short, .char] token with
  | [.int id, .short value, .short durationMs, .short waitMs] =>
    some ⟨id, value, durationMs, waitMs⟩
  | _ =>
    match sscanf [.num 16 .int, .lit '#', .num 16 .short, .lit '#', .num 10 .short, .char]
        token with
    | [.int id, .short value, .short durationMs] => some ⟨id, value, durationMs, 0⟩
    | _ => none

def FiringSequenceConfig.storeBlock (config : FiringSequenceConfig) (b : FiringBlock) :
    FiringSequenceConfig :=
  { config with
    ids := writeAt config.ids config.numBlocks b.id
    values := writeAt config.values config.numBlocks (b.value, b.durationMs)
    waitTimesMs := writeAt config.waitTimesMs config.numBlocks b.waitMs }

/-- The token loop of `firing_sequence_parse`, over the tokens that `strtok_r` has
still to return. -/
def parseBlocks : List CText → FiringSequenceConfig → Option FiringSequenceConfig
  | [], config => some config
  | token :: rest, config =>
    -- the second half of the loop condition: a full table ends the loop, not the parse
    if config.numBlocks < appMaxFiringBlocks then
      match scanBlock token with
      | none => none
      | some b =>
        let stored := config.storeBlock b
        if readAt 0 stored.ids config.numBlocks = 0 ∨
            readAt 0 stored.ids config.numBlocks > 0x7FF then none
        else parseBlocks rest { stored with numBlocks := config.numBlocks+1 }
    else some config

/-- The text behind the first `'|'`, where `strchr` finds one. -/
def payloadOf (command : CText) : Option CText :=
  match command.dropWhile (· != '|') with
  | [] => none
  | _ :: payload => some payload

/-- `firing_sequence_parse`, with `none` for its result -1; `strdupOk` tells whether
the copy of the payload could be allocated. -/
def firingSequenceParse (strdupOk : Bool) (command : CText) : Option FiringSequenceConfig :=
  match payloadOf command with
  | none => none
  | some payload =>
    if strdupOk then
      match parseBlocks (Strtok.tokens '|' payload) .zero with
      | none => none
      | some config => if config.numBlocks > 0 then some config else none
    else none

/-! ### The worker -/

structure SequenceWorkerArgs where
  client : Client
  config : FiringSequenceConfig
  startedMessage : String
  completedMessage : String
  failedMessage : String

/-- The messages that the worker sends to its client. -/
inductive SequenceMessage where
  | started
  | completed
  | failed
  | aborted
  deriving DecidableEq, Repr

def SequenceWorkerArgs.text (args : SequenceWorkerArgs) : SequenceMessage → String
  | .started => args.startedMessage
  | .completed => args.completedMessage
  | .failed => args.failedMessage
  | .aborted => "Firing sequence aborted by command or shutdown"

/-- The command for block `i` of a configuration. -/
def FiringSequenceConfig.command (config : FiringSequenceConfig) (i : ℕ) : CanCommand where
  id := readAt 0 config.ids i
  value := (readAt (0, 0) config.values i).1
  durationMs := (readAt (0, 0) config.values i).2

/-- The wait before block `i`: the one stored with the block before it, or the
countdown before block 0. -/
def FiringSequenceConfig.delayMs (config : FiringSequenceConfig) : ℕ → UInt64
  | 0 => if config.drownInjector then 0 else firingSequenceTminusMs
  | i+1 => (readAt 0 config.waitTimesMs i).toUInt64

/-- Where the worker is. A deadline is that of the wait it is in, and the number at
`sendBlock` counts the attempts already made. -/
inductive WorkerPc where
  | sendStarted
  | enterWait (i : ℕ)
  | testDeadline (i : ℕ) (deadline : UInt64)
  | checkAbort (i : ℕ) (deadline : UInt64)
  | checkStop (i : ℕ) (deadline : UInt64)
  | sleep (i : ℕ) (deadline : UInt64)
  | sendBlock (i : ℕ) (attempt : ℕ)
  | logBlock (i : ℕ)
  | sendAborted
  | sendFailed
  | sendCompleted
  | finish
  | done
  deriving DecidableEq, Repr

/-- What a worker step sees of the rest of the server. -/
structure WorkerInput where
  now : UInt64
  write : Option String
  sequenceAbort : Bool
  stop : Bool
  canFd : Int

inductive WorkerEvent where
  | send (message : SequenceMessage)
  | beginWait (i : ℕ)
  | readClock
  | abortRequested (answer : Bool)
  | readStop (answer : Bool)
  | nanosleep
  | attempt (i : ℕ) (command : CanCommand) (result : SendResult)
  | log (kind text : String)
  | finishSequence
  deriving DecidableEq, Repr

/-- The head of the loop over the blocks. -/
def SequenceWorkerArgs.nextBlock (args : SequenceWorkerArgs) (i : ℕ) : WorkerPc :=
  if i < args.config.numBlocks then .enterWait i else .sendCompleted

/-- One step of `sequence_worker`, with the steps of `wait_with_abort` and of
`send_block` in it. -/
def workerStep (args : SequenceWorkerArgs) :
    WorkerPc → WorkerInput → Option (WorkerPc × WorkerEvent)
  | .sendStarted, _ => some (args.nextBlock 0, .send .started)
  | .enterWait i, x => some (.testDeadline i (x.now+args.config.delayMs i), .beginWait i)
  | .testDeadline i deadline, x =>
    some (if x.now < deadline then .checkAbort i deadline else .sendBlock i 0, .readClock)
  | .checkAbort i deadline, x =>
    some (if x.sequenceAbort then .sendAborted else .checkStop i deadline,
      .abortRequested x.sequenceAbort)
  | .checkStop i deadline, x =>
    some (if x.stop then .sendAborted else .sleep i deadline, .readStop x.stop)
  | .sleep i deadline, _ => some (.testDeadline i deadline, .nanosleep)
  | .sendBlock i attempt, x =>
    let result := canBusSendCommand x.canFd (args.config.command i) x.write
    some (match result with
      | .sent => .logBlock i
      | .refused _ => if attempt+1 < canSendAttempts then .sendBlock i (attempt+1) else .sendFailed,
      .attempt i (args.config.command i) result)
  | .logBlock i, _ =>
    some (args.nextBlock (i+1), .log "CAN_TX" (formatCanCommand (args.config.command i)))
  | .sendAborted, _ => some (.finish, .send .aborted)
  | .sendFailed, _ => some (.finish, .send .failed)
  | .sendCompleted, _ => some (.finish, .send .completed)
  | .finish, _ => some (.done, .finishSequence)
  | .done, _ => none

end WsServer
