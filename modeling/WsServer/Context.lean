import Mathlib.Data.Fin.Basic
import Mathlib.Data.Nat.Notation

/-! The shared context of the server: the part of `app_context_t` that the command
handlers, the firing worker and the wiggle tick read and write. -/
namespace WsServer

/-- A client handle of the WebSocket library. -/
abbrev Client := ℕ

/-- The bytes of a C string, without its terminator. -/
abbrev CText := List Char

inductive AppState where
  | prechilling
  | hotfire
  deriving DecidableEq, Repr

structure AppClientCtx where
  client : Client
  writeOnly : Bool
  deriving DecidableEq, Repr

structure WiggleCommand where
  id : UInt32
  startValue : UInt16
  endValue : UInt16
  currentValue : UInt16
  exitValue : UInt16
  periodMs : UInt32
  totalDurationMs : UInt32
  nextToggleMs : UInt64
  stopTimeMs : UInt64
  active : Bool
  deriving DecidableEq, Repr

/-- A slot after `memset` to zero. -/
def WiggleCommand.zero : WiggleCommand := ⟨0, 0, 0, 0, 0, 0, 0, 0, 0, false⟩

def appMaxWiggles : ℕ := 16
def appMaxFiringBlocks : ℕ := 24

abbrev WiggleTable := Fin appMaxWiggles → WiggleCommand

/-- Read a C array; the guard is never the one that fails in the source. -/
def readAt {α : Type} {n : ℕ} (zero : α) (a : Fin n → α) (i : ℕ) : α :=
  if h : i < n then a ⟨i, h⟩ else zero

def writeAt {α : Type} {n : ℕ} (a : Fin n → α) (i : ℕ) (v : α) : Fin n → α :=
  fun j => if j.val = i then v else a j

@[simp] theorem readAt_writeAt_same {α : Type} {n : ℕ} (zero : α) (a : Fin n → α) (i : ℕ) (v : α)
    (h : i < n) : readAt zero (writeAt a i v) i = v := by
  simp [readAt, writeAt, h]

theorem readAt_writeAt_ne {α : Type} {n : ℕ} (zero : α) (a : Fin n → α) (i j : ℕ) (v : α)
    (h : j ≠ i) : readAt zero (writeAt a i v) j = readAt zero a j := by
  simp [readAt, writeAt, h]

structure FiringSequenceConfig where
  numBlocks : ℕ
  ids : Fin appMaxFiringBlocks → UInt32
  values : Fin appMaxFiringBlocks → UInt16 × UInt16
  waitTimesMs : Fin appMaxFiringBlocks → UInt16
  drownInjector : Bool

/-- A configuration after `memset` to zero. -/
def FiringSequenceConfig.zero : FiringSequenceConfig :=
  ⟨0, fun _ => 0, fun _ => (0, 0), fun _ => 0, false⟩

structure ValveProfile where
  loxMainValveId : UInt32
  loxMainAngleOpen : UInt16
  loxVentValveId : UInt32
  loxVentAngleClose : UInt16
  deriving DecidableEq, Repr

/-- The options that the command handlers read. -/
structure AppConfig where
  readOnly : Bool
  testingMode : Bool
  deriving DecidableEq, Repr

structure App where
  config : AppConfig
  stop : Bool
  canFd : Int
  clients : List AppClientCtx
  state : AppState
  wiggles : WiggleTable
  sequenceActive : Bool
  sequenceAbort : Bool
  valveProfile : ValveProfile

/-- `app_context_init`, with the CAN socket that `init_runtime` opens after it. -/
def appContextInit (config : AppConfig) (canFd : Int) : App where
  config := config
  stop := false
  canFd := canFd
  clients := []
  state := .prechilling
  wiggles := fun _ => .zero
  sequenceActive := false
  sequenceAbort := false
  valveProfile :=
    { loxMainValveId := 0x709
      loxMainAngleOpen := 0x0099
      loxVentValveId := 0x702
      loxVentAngleClose := 0x0074 }

end WsServer
