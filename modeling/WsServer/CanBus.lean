import WsServer.Context
import WsServer.Base.Printf

/-! Sending on the CAN bus, and what one atomic step sees of its environment. -/
namespace WsServer

/-- What the environment supplies to one atomic step: the reading of the monotonic
clock in milliseconds, the outcome of each `write` on the CAN socket (an error text
or success), and whether memory and a thread can be had. -/
structure Env where
  now : UInt64
  write : ℕ → Option String
  alloc : Bool
  thread : Bool

inductive SendResult where
  | sent
  | refused (error : String)
  deriving DecidableEq, Repr

/-- The arguments of `can_bus_send_command` behind the socket. -/
structure CanCommand where
  id : UInt32
  value : UInt16
  durationMs : UInt16
  deriving DecidableEq, Repr

structure CanFrame where
  canId : UInt32
  canDlc : UInt8
  data : List UInt8
  deriving DecidableEq, Repr

/-- The frame that `can_bus_send_command` writes: value and duration little endian. -/
def CanCommand.frame (c : CanCommand) : CanFrame where
  canId := c.id
  canDlc := 8
  data := [(c.value &&& 0xFF).toUInt8, ((c.value >>> 8) &&& 0xFF).toUInt8,
    (c.durationMs &&& 0xFF).toUInt8, ((c.durationMs >>> 8) &&& 0xFF).toUInt8, 0, 0, 0, 0]

/-- `can_bus_send_command`; `write` is the outcome of the `write` call it makes. -/
def canBusSendCommand (fd : Int) (c : CanCommand) (write : Option String) : SendResult :=
  if fd < 0 ∨ c.id > 0x7FF then .refused "Invalid argument"
  else match write with
    | none => .sent
    | some error => .refused error

/-- The places in the source that send on CAN. -/
inductive CanSite where
  | wiggle
  | rawCommand
  deriving DecidableEq, Repr

/-- What a step does that can be seen from outside the shared context. -/
inductive Event where
  | canTx (site : CanSite) (command : CanCommand) (result : SendResult)
  | log (kind text : String)
  | sendText (client : Client) (text : String)
  | broadcast (text : String)
  deriving DecidableEq, Repr

/-- The CAN commands that the wiggle code attempts, in order. -/
def Event.wiggleTx : Event → Option CanCommand
  | .canTx .wiggle c _ => some c
  | _ => none

/-- `"%03x#%04x"` -/
def formatIdValue (id : UInt32) (value : UInt16) : String :=
  Printf.hexPadded 3 id.toNat ++ "#" ++ Printf.hexPadded 4 value.toNat

/-- `"%03x#%04x#%u"` -/
def formatCanCommand (c : CanCommand) : String :=
  formatIdValue c.id c.value ++ "#" ++ toString c.durationMs.toNat

end WsServer
