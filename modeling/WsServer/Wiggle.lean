import WsServer.CanBus

/-! The slot table of `wiggle.c`: what its functions do while they hold the state
lock. Every function here is one atomic step on the shared context. -/
namespace WsServer

structure WiggleRequest where
  id : UInt32
  startValue : UInt16
  endValue : UInt16
  exitValue : UInt16
  periodMs : UInt32
  totalDurationMs : UInt32
  deriving DecidableEq, Repr

def findSlot (t : WiggleTable) (id : UInt32) : Option (Fin appMaxWiggles) :=
  (List.finRange appMaxWiggles).find? (fun i => (t i).active && (t i).id == id)

def allocSlot (t : WiggleTable) : Option (Fin appMaxWiggles) :=
  (List.finRange appMaxWiggles).find? (fun i => !(t i).active)

def sendValue (fd : Int) (slot : WiggleCommand) (value : UInt16) (write : Option String) :
    WiggleCommand × List Event :=
  let c : CanCommand := ⟨slot.id, value, 0⟩
  let result := canBusSendCommand fd c write
  ({ slot with currentValue := value },
    .canTx .wiggle c result ::
      match result with
      | .sent => [.log "CAN_TX" (formatIdValue slot.id value)]
      | .refused _ => [])

def deactivateSlot (fd : Int) (slot : WiggleCommand) (sendExitValue : Bool)
    (write : Option String) : WiggleCommand × List Event :=
  if !slot.active then (slot, [])
  else (.zero, if sendExitValue then (sendValue fd slot slot.exitValue write).2 else [])

/-- `wiggle_start` behind its argument checks. -/
def wiggleStartLocked (app : App) (env : Env) (r : WiggleRequest) : App × Int × List Event :=
  match (findSlot app.wiggles r.id).or (allocSlot app.wiggles) with
  | none => (app, -1, [])
  | some i =>
    let filled : WiggleCommand :=
      { id := r.id
        startValue := r.startValue
        endValue := r.endValue
        currentValue := (app.wiggles i).currentValue
        exitValue := r.exitValue
        periodMs := r.periodMs
        totalDurationMs := r.totalDurationMs
        nextToggleMs := (app.wiggles i).nextToggleMs
        stopTimeMs := if r.totalDurationMs ≠ 0 then env.now + r.totalDurationMs.toUInt64 else 0
        active := true }
    let (sent, events) := sendValue app.canFd filled r.startValue (env.write 0)
    let slot := { sent with nextToggleMs := env.now + r.periodMs.toUInt64 }
    ({ app with wiggles := Function.update app.wiggles i slot }, 0, events)

def wiggleStopLocked (app : App) (env : Env) (id : UInt32) : App × Bool × List Event :=
  match findSlot app.wiggles id with
  | none => (app, false, [])
  | some i =>
    let (slot, events) := deactivateSlot app.canFd (app.wiggles i) true (env.write 0)
    ({ app with wiggles := Function.update app.wiggles i slot }, true, events)

/-- A loop over the slots that handles each one by itself; the write made for a slot
is the one with the slot's index. -/
def overSlots (app : App) (body : Fin appMaxWiggles → WiggleCommand × List Event) :
    App × List Event :=
  ({ app with wiggles := fun i => (body i).1 },
    (List.finRange appMaxWiggles).flatMap (fun i => (body i).2))

/-- The critical section of `wiggle_stop_all`, with the number of slots it stopped. -/
def wiggleStopAllLocked (app : App) (env : Env) (sendExitValue : Bool) : App × ℕ × List Event :=
  let (app', events) := overSlots app
    (fun i => deactivateSlot app.canFd (app.wiggles i) sendExitValue (env.write i))
  (app', (List.finRange appMaxWiggles).countP (fun i => (app.wiggles i).active), events)

/-- The body of the loop of `wiggle_process` for one slot. -/
def processSlot (fd : Int) (now : UInt64) (slot : WiggleCommand) (write : Option String) :
    WiggleCommand × List Event :=
  if !slot.active then (slot, [])
  else if slot.totalDurationMs > 0 ∧ slot.stopTimeMs > 0 ∧ now ≥ slot.stopTimeMs then
    deactivateSlot fd slot true write
  else if now < slot.nextToggleMs then (slot, [])
  else
    let nextValue := if slot.currentValue = slot.startValue then slot.endValue else slot.startValue
    let (sent, events) := sendValue fd slot nextValue write
    ({ sent with nextToggleMs := now + slot.periodMs.toUInt64 }, events)

def wiggleProcess (app : App) (env : Env) : App × List Event :=
  if app.state ≠ .prechilling then (app, [])
  else overSlots app (fun i => processSlot app.canFd env.now (app.wiggles i) (env.write i))

end WsServer
