import WsServer.Control

/-! `command.c`: the handlers of real mode and of testing mode, and the dispatcher.
A handler answers whether it took the text. The testing handlers do nothing but
reply, so each is the reply itself, or `none` where it does not take the text. -/
namespace WsServer
open Scanf

def hasPrefix (word : String) (text : CText) : Bool := word.toList.isPrefixOf text

def sendReply (client : Client) (msg : String) : Server Unit := act (.sendText client msg)

def stripCanPrefix (text : CText) : CText :=
  if hasPrefix "CAN1|" text then text.drop 5 else text

def handleReadToggle (client : Client) (text : CText) : Server Bool := do
  let ctx ← act (.clientContext client)
  if !ctx then pure false
  else if text = "READ-DISABLE".toList then do
    act (.setWriteOnly client true)
    sendReply client "Write-only mode enabled"
    pure true
  else if text = "READ-ENABLE".toList then do
    act (.setWriteOnly client false)
    sendReply client "Write-only mode disabled"
    pure true
  else pure false

structure RawCanFields where
  id : UInt32
  value : UInt16
  durationMs : UInt16
  hasDuration : Bool
  deriving DecidableEq, Repr

def parseRawCanFields (text : CText) : Option RawCanFields :=
  match sscanf [.num 16 .int, .lit '#', .num 16 .short, .lit '#', .num 10 .short] text with
  | [.int id, .short value, .short durationMs] => some ⟨id, value, durationMs, true⟩
  | _ =>
    match sscanf [.num 16 .int, .lit '#', .num 16 .short] text with
    | [.int id, .short value] => some ⟨id, value, 0, false⟩
    | _ => none

def handleStateCommand (client : Client) (text : CText) : Server Bool :=
  if !hasPrefix "STATE#" text then pure false
  else if text.drop 6 = "PRECHILLING".toList then do
    let changed ← appStateSet .prechilling
    sendReply client
      (if changed then "State set to PRECHILLING" else "State set to PRECHILLING (unchanged)")
    pure true
  else if text.drop 6 = "HOTFIRE".toList then do
    let changed ← appStateSet .hotfire
    sendReply client
      (if changed then "State set to HOTFIRE" else "State set to HOTFIRE (unchanged)")
    pure true
  else do
    sendReply client "Unknown state requested"
    pure true

/-- The `sscanf` of a `SET_VALVE` text behind its first word. -/
def scanSetValve (text : CText) : Option (CText × UInt32) :=
  match sscanf [.lit '#', .notIn 31 '#', .lit '#', .num 16 .int] (text.drop 9) with
  | [.text name, .int value] => some (name, value)
  | _ => none

/-- The chain of name comparisons, with the largest value each field takes. -/
def valveFieldOf (name : CText) : Option (ValveField × UInt32) :=
  if name = "LOX_MAIN".toList then some (.loxMain, 0x7FF)
  else if name = "LOX_VENT".toList then some (.loxVent, 0x7FF)
  else if name = "LOX_MAIN_ANGLE_OPEN".toList then some (.loxMainAngleOpen, 0x0B4)
  else if name = "LOX_VENT_ANGLE_CLOSE".toList then some (.loxVentAngleClose, 0x0B4)
  else none

def handleSetValve (client : Client) (text : CText) : Server Bool :=
  if !hasPrefix "SET_VALVE" text then pure false
  else match scanSetValve text with
    | none => do
      sendReply client "Error setting valve id"
      pure true
    | some (name, value) =>
      match valveFieldOf name with
      | none => do
        sendReply client "Invalid valve id or value"
        pure true
      | some (field, bound) =>
        if value > bound then do
          sendReply client "Invalid valve id or value"
          pure true
        else do
          act (.setValve field value)
          sendReply client "Valve set successfully"
          pure true

def handleDrown (client : Client) (text : CText) : Server Bool :=
  if text ≠ "DROWN#8765".toList then pure false
  else do
    let rc ← firingSequenceStartDrown client
    if rc ≠ 0 then sendReply client "Error drowning injector" else pure ()
    pure true

def handleAbort (client : Client) (text : CText) : Server Bool :=
  if text ≠ "ABORT#8765".toList then pure false
  else do
    firingSequenceRequestAbort
    wiggleStopAll true
    sendReply client "Abort requested"
    pure true

/-- The loop that lists the blocks of a configuration in a buffer: the text written
so far, and the length it would have without truncation. -/
def appendBlocks (size : ℕ) (opening : String) (config : FiringSequenceConfig) :
    List ℕ → String × ℕ → String × ℕ
  | [], x => x
  | i :: is, (buffer, len) =>
    if len > 0 ∧ len < size then
      let piece := (if i = 0 then opening else ", ") ++ formatCanCommand (config.command i)
      appendBlocks size opening config is
        (buffer ++ Printf.truncated (size-len) piece, len+piece.length)
    else (buffer, len)

def fireStartedMessage (config : FiringSequenceConfig) : String :=
  let head := "Firing sequence started with " ++ toString config.numBlocks ++ " blocks"
  (appendBlocks 256 ": " config (List.range config.numBlocks)
    (Printf.truncated 256 head, head.length)).1

def handleFire (client : Client) (text : CText) : Server Bool :=
  if !hasPrefix "FIRE#8765" text then pure false
  else do
    -- asked for also where the parser returns before it copies the payload
    let strdupOk ← act .allocate
    match firingSequenceParse strdupOk text with
    | none => do
      sendReply client "Error parsing command"
      pure true
    | some config => do
      let rc ← firingSequenceStart client config (some (fireStartedMessage config))
        (some "Firing sequence completed") (some "Firing sequence failed to start")
      if rc ≠ 0 then sendReply client "A firing sequence is already running" else pure ()
      pure true

/-- `sscanf(token, "%x", &id)` of a `WIGGLE_STOP` entry. -/
def scanWiggleStop (token : CText) : Option UInt32 :=
  match sscanf [.num 16 .int] token with
  | [.int id] => some id
  | _ => none

/-- The entry loop of `handle_wiggle_stop`: how many wiggles it stopped, and whether
it met an entry it could not read. -/
def stopEntries : List CText → ℕ → Server (ℕ × Bool)
  | [], stopped => pure (stopped, false)
  | token :: rest, stopped =>
    match scanWiggleStop token with
    | none => pure (stopped, true)
    | some id => do
      let found ← wiggleStop id
      stopEntries rest (if found then stopped+1 else stopped)

def handleWiggleStop (client : Client) (command : CText) : Server Bool :=
  if !hasPrefix "WIGGLE_STOP" command then pure false
  else do
    let (stopped, parseError) ← stopEntries (Strtok.tokens '|' command).tail 0
    if parseError then sendReply client "WIGGLE_STOP failed: invalid format"
    else if stopped = 0 then
      sendReply client "WIGGLE_STOP: no active wiggles for requested IDs"
    else
      sendReply client
        (Printf.truncated 96 ("Stopped wiggle for " ++ toString stopped ++ " sensor(s)"))
    pure true

/-- The `sscanf` of a `WIGGLE` entry: without a sixth field the total is 0. -/
def scanWiggle (token : CText) : Option WiggleRequest :=
  match sscanf [.num 16 .int, .lit '#', .num 16 .short, .lit '#', .num 16 .short, .lit '#',
      .num 16 .short, .lit '#', .num 10 .int, .lit '#', .num 10 .int] token with
  | [.int id, .short s, .short e, .short x, .int periodMs] => some ⟨id, s, e, x, periodMs, 0⟩
  | [.int id, .short s, .short e, .short x, .int periodMs, .int totalMs] =>
    some ⟨id, s, e, x, periodMs, totalMs⟩
  | _ => none

/-- The entry loop of `handle_wiggle`. -/
def startEntries : List CText → ℕ → Server (ℕ × Bool)
  | [], started => pure (started, false)
  | token :: rest, started =>
    match scanWiggle token with
    | none => pure (started, true)
    | some r => do
      let rc ← wiggleStart r
      if rc ≠ 0 then pure (started, true) else startEntries rest (started+1)

def handleWiggle (client : Client) (command : CText) : Server Bool :=
  if !hasPrefix "WIGGLE" command || hasPrefix "WIGGLE_STOP" command then pure false
  else do
    let state ← appStateGet
    if state ≠ .prechilling then do
      sendReply client "WIGGLE rejected: system not in PRECHILLING"
      pure true
    else do
      let (started, parseError) ← startEntries (Strtok.tokens '|' command).tail 0
      if parseError || started = 0 then
        sendReply client "WIGGLE failed: invalid format or no available slots"
      else
        sendReply client
          (Printf.truncated 96 ("WIGGLE started for " ++ toString started ++ " sensor(s)"))
      pure true

def handleRawCan (client : Client) (text : CText) : Server Bool :=
  match parseRawCanFields text with
  | none => pure false
  | some f => do
    let result ← act (.canSend ⟨f.id, f.value, f.durationMs⟩)
    match result with
    | .sent => do
      act (.log "CAN_TX" (if f.hasDuration then formatCanCommand ⟨f.id, f.value, f.durationMs⟩
        else formatIdValue f.id f.value))
      sendReply client "Message sent"
    | .refused error =>
      sendReply client (Printf.truncated 128 ("Error sending message: " ++ error))
    pure true

/-! ### Testing mode -/

def handleTestingState (text : CText) : Option String :=
  if !hasPrefix "STATE#" text then none
  else if text.drop 6 = "PRECHILLING".toList then
    some "TESTING parsed STATE command: PRECHILLING"
  else if text.drop 6 = "HOTFIRE".toList then some "TESTING parsed STATE command: HOTFIRE"
  else some "TESTING parse error: unknown STATE value"

def handleTestingSetValve (text : CText) : Option String :=
  if !hasPrefix "SET_VALVE" text then none
  else match scanSetValve text with
    | none => some "TESTING parse error: SET_VALVE format"
    | some (name, value) =>
      let parsed := Printf.truncated 512 ("TESTING parsed SET_VALVE: " ++ String.ofList name ++
        "=0x" ++ Printf.hexPadded 3 value.toNat)
      if name = "LOX_MAIN".toList ∨ name = "LOX_VENT".toList then
        if value > 0x7FF then some "TESTING parse error: valve CAN id out of range"
        else some parsed
      else if name = "LOX_MAIN_ANGLE_OPEN".toList ∨ name = "LOX_VENT_ANGLE_CLOSE".toList then
        if value > 0x0B4 then some "TESTING parse error: valve angle out of range"
        else some parsed
      else some "TESTING parse error: unknown SET_VALVE field"

/-- The entry loop of `handle_testing_wiggle_stop`; `none` is its parse error. -/
def testingStopEntries : List CText → ℕ → Option ℕ
  | [], ids => some ids
  | token :: rest, ids =>
    match scanWiggleStop token with
    | none => none
    | some _ => testingStopEntries rest (ids+1)

def handleTestingWiggleStop (command : CText) : Option String :=
  if !hasPrefix "WIGGLE_STOP" command then none
  else match testingStopEntries (Strtok.tokens '|' command).tail 0 with
    | none => some "TESTING parse error: WIGGLE_STOP format"
    | some ids =>
      if ids = 0 then some "TESTING parse error: WIGGLE_STOP format"
      else some (Printf.truncated 512 ("TESTING parsed WIGGLE_STOP: " ++ toString ids ++ " id(s)"))

/-- The entry loop of `handle_testing_wiggle`; `none` is its parse error. -/
def testingWiggleEntries : List CText → ℕ → Option ℕ
  | [], blocks => some blocks
  | token :: rest, blocks =>
    match scanWiggle token with
    | none => none
    | some r =>
      if r.id > 0x7FF ∨ r.periodMs = 0 then none else testingWiggleEntries rest (blocks+1)

def handleTestingWiggle (command : CText) : Option String :=
  if !hasPrefix "WIGGLE" command || hasPrefix "WIGGLE_STOP" command then none
  else match testingWiggleEntries (Strtok.tokens '|' command).tail 0 with
    | none => some "TESTING parse error: WIGGLE format"
    | some blocks =>
      if blocks = 0 then some "TESTING parse error: WIGGLE format"
      else some (Printf.truncated 512 ("TESTING parsed WIGGLE: " ++ toString blocks ++ " block(s)"))

def testingFireMessage (config : FiringSequenceConfig) : String :=
  let head := "TESTING parsed FIRE: " ++ toString config.numBlocks ++ " block(s)"
  let (buffer, len) := appendBlocks 512 " (" config (List.range config.numBlocks)
    (Printf.truncated 512 head, head.length)
  if len > 0 ∧ len < 512 then buffer ++ Printf.truncated (512-len) ")" else buffer

def handleTestingFire (strdupOk : Bool) (text : CText) : Option String :=
  if !hasPrefix "FIRE#8765" text then none
  else match firingSequenceParse strdupOk text with
    | none => some "TESTING parse error: FIRE format"
    | some config => some (testingFireMessage config)

def handleTestingDrown (text : CText) : Option String :=
  if text ≠ "DROWN#8765".toList then none else some "TESTING parsed DROWN command"

def handleTestingAbort (text : CText) : Option String :=
  if text ≠ "ABORT#8765".toList then none else some "TESTING parsed ABORT command"

def handleTestingRawCan (text : CText) : Option String :=
  match parseRawCanFields text with
  | none => none
  | some f =>
    let parsed := "TESTING parsed RAW CAN: id=0x" ++ Printf.hexPadded 3 f.id.toNat ++
      " value=0x" ++ Printf.hexPadded 4 f.value.toNat
    if f.id > 0x7FF then some "TESTING parse error: CAN id out of range"
    else if f.hasDuration then
      some (Printf.truncated 512 (parsed ++ " duration=" ++ toString f.durationMs.toNat))
    else some (Printf.truncated 512 parsed)

def handleTestingCommand (client : Client) (normalized : CText) : Server Unit :=
  match ((handleTestingAbort normalized).or (handleTestingState normalized)).or
      (handleTestingSetValve normalized) with
  | some reply => sendReply client reply
  | none => do
    let copied ← act .allocate
    if !copied then sendReply client "Server error: out of memory"
    else match (handleTestingWiggleStop normalized).or (handleTestingWiggle normalized) with
      | some reply => sendReply client reply
      | none =>
        match handleTestingDrown normalized with
        | some reply => sendReply client reply
        | none => do
          let strdupOk ← act .allocate
          sendReply client (((handleTestingFire strdupOk normalized).or
            (handleTestingRawCan normalized)).getD "TESTING invalid command")

/-! ### The dispatcher -/

/-- The handlers of `command_handle_text` behind the `PRECHILLING` gate. -/
def hotfireHandlers (client : Client) (normalized : CText) : Server Unit := do
  let state ← appStateGet
  if state = .prechilling then
    sendReply client "System is in PRE-HOTFIRE state; command ignored."
  else do
    let drown ← handleDrown client normalized
    if drown then pure ()
    else do
      let fire ← handleFire client normalized
      if fire then pure ()
      else do
        let raw ← handleRawCan client normalized
        if raw then pure () else sendReply client "Invalid command"

/-- The handlers that work on a copy of the text, and the ones behind the gate. -/
def copyHandlers (client : Client) (normalized : CText) : Server Unit := do
  let copied ← act .allocate
  if !copied then sendReply client "Server error: out of memory"
  else do
    let wiggleStop ← handleWiggleStop client normalized
    if wiggleStop then pure ()
    else do
      let wiggle ← handleWiggle client normalized
      if wiggle then pure () else hotfireHandlers client normalized

def commandHandleText (config : AppConfig) (client : Client) (text : CText) : Server Unit := do
  let toggled ← handleReadToggle client text
  if toggled then pure ()
  else
    let normalized := stripCanPrefix text
    if config.testingMode then handleTestingCommand client normalized
    else if config.readOnly then
      sendReply client "The client is not allowed to execute commands"
    else do
      let abort ← handleAbort client normalized
      if abort then pure ()
      else do
        let stateCommand ← handleStateCommand client normalized
        if stateCommand then pure ()
        else do
          let setValve ← handleSetValve client normalized
          if setValve then pure () else copyHandlers client normalized

end WsServer
