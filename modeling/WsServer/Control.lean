import WsServer.Process

/-! The functions of `state.c`, `wiggle.c` and `firing_sequence.c` that other files
call, as programs over the atomic actions. -/
namespace WsServer

/-! ### wiggle.c -/

def wiggleStart (r : WiggleRequest) : Server Int :=
  if r.periodMs = 0 ∨ r.id > 0x7FF then pure (-1)
  else act (.wiggleStart r)

def wiggleStop (id : UInt32) : Server Bool := act (.wiggleStop id)

def wiggleStopAll (sendExitValue : Bool) : Server Unit := do
  let stopped ← act (.wiggleStopAll sendExitValue)
  if stopped > 0 then
    act (.broadcast ("Stopped " ++ toString stopped ++ " active wiggle(s)"))
  else pure ()

/-! ### state.c -/

def appStateLabel : AppState → String
  | .prechilling => "PRECHILLING"
  | .hotfire => "HOTFIRE"

def appStateGet : Server AppState := act .getState

def appStateBroadcast : Server Unit := do
  let state ← appStateGet
  act (.broadcast ("State has been set to " ++ appStateLabel state))

def appStateSet (state : AppState) : Server Bool := do
  let changed ← act (.storeState state)
  if state = .hotfire then wiggleStopAll true else pure ()
  appStateBroadcast
  pure changed

/-! ### firing_sequence.c -/

def firingSequenceStart (client : Client) (config : FiringSequenceConfig)
    (startedMessage completedMessage failedMessage : Option String) : Server Int :=
  if config.numBlocks = 0 then pure (-1)
  else do
    let claimed ← act .claimSequence
    if !claimed then pure (-1)
    else do
      let allocated ← act .callocArgs
      if !allocated then do
        act .finishSequence
        pure (-1)
      else do
        let created ← act (.createWorker
          { client := client
            config := config
            startedMessage :=
              Printf.truncated 160 (startedMessage.getD "Firing sequence started")
            completedMessage :=
              Printf.truncated 128 (completedMessage.getD "Firing sequence completed")
            failedMessage :=
              Printf.truncated 128 (failedMessage.getD "Firing sequence failed to start") })
        if !created then do
          act .finishSequence
          pure (-1)
        else pure 0

/-- The configuration that `firing_sequence_start_drown` fills from the valve profile. -/
def drownConfig (p : ValveProfile) : FiringSequenceConfig where
  numBlocks := 2
  ids := writeAt (writeAt (fun _ => 0) 0 p.loxMainValveId) 1 p.loxVentValveId
  values := writeAt (writeAt (fun _ => (0, 0)) 0 (p.loxMainAngleOpen, 0)) 1
    (p.loxVentAngleClose, 1000)
  waitTimesMs := writeAt (writeAt (fun _ => 0) 0 100) 1 0
  drownInjector := true

def drownStartedMessage (p : ValveProfile) : String :=
  "Starting drowning sequence: open 0x" ++ Printf.hexPadded 3 p.loxMainValveId.toNat ++
    " to 0x" ++ Printf.hexPadded 4 p.loxMainAngleOpen.toNat ++
    ", then close 0x" ++ Printf.hexPadded 3 p.loxVentValveId.toNat ++
    " to 0x" ++ Printf.hexPadded 4 p.loxVentAngleClose.toNat

def firingSequenceStartDrown (client : Client) : Server Int := do
  let checked ← act .readProfile
  if checked.loxMainValveId = 0 ∨ checked.loxVentValveId = 0 then pure (-1)
  else do
    let profile ← act .readProfile
    firingSequenceStart client (drownConfig profile)
      (some (Printf.truncated 160 (drownStartedMessage profile)))
      (some "Injector drowned successfully") (some "Error drowning injector")

def firingSequenceRequestAbort : Server Unit := act .requestAbort

end WsServer
