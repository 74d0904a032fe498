import WsServer.Config
import WsServer.Heartbeat
import WsServer.Lifetime

/-! `main` from its first line to its last, with all that it asks the system for: the locks,
the descriptors, the log file and the WebSocket server that it opens and closes, on every path
on which one of these calls fails. -/
namespace WsServer
open Interaction Program

inductive Mutex where
  | clients
  | state
  | can
  | sequence
  | logger
  deriving DecidableEq

/-- How a child process ends. -/
inductive ExitStatus where
  | exited (code : UInt8)
  | signaled
  deriving DecidableEq

inductive OsCall where
  | mutexInit (m : Mutex)
  | mutexDestroy (m : Mutex)
  | mutexLock (m : Mutex)
  | mutexUnlock (m : Mutex)
  -- the child calls `execvp`, and `_exit` should that return
  | fork (argv : List CText)
  -- `waitpid`, again after each `EINTR`
  | waitChild (pid : Int)
  | socketCan
  | ifIndex (fd : Int) (ifrName : CText)
  | recvOwnMsgs (fd : Int) (enabled : Bool)
  | bindCan (fd ifindex : Int)
  | epollCreate
  | epollAdd (epollFd fd : Int)
  | timerfdCreate
  | timerfdSettime (fd sec nsec : Int)
  | close (fd : Int)
  | mkdir (path : CText)
  | time
  -- the time as `"%Y%m%d_%H%M%S"` prints it
  | localtime (now : Int64)
  | fopen (path : CText)
  | maintain (file : ℕ)
  | fclose (file : ℕ)
  | serverCreate (port : UInt16) (maxClients : Int32)
  -- the handlers, the backlog and the size of the buffers
  | serverSetUp (server : ℕ) (backlog : Int32) (bufferSize : ℕ)
  | serverStart (server : ℕ)
  | serverStop (server : ℕ)
  | serverJoin (server : ℕ)
  | serverDestroy (server : ℕ)
  | freeClients
  -- code that takes the locks of the context by itself
  | context (p : Server Unit)
  | onSignal
  | printf (s : CText)
  | fprintf (s : CText)
  | perror (s : CText)
  | clock
  | serve (canFd epollFd timerFd : Int) (nextHeartbeatMs : UInt64)
  | sleepUntilStop

/-- What the system answers: a descriptor or a process, negative for none, and otherwise
nothing, what was asked for or the lack of it. -/
@[reducible] def OsCall.Answer : OsCall → Type
  | .fork _ => Int
  | .waitChild _ => Option ExitStatus
  | .socketCan | .epollCreate | .timerfdCreate => Int
  | .ifIndex _ _ => Option Int
  | .bindCan _ _ | .epollAdd _ _ | .timerfdSettime _ _ _ => Bool
  | .mkdir _ => Option String
  | .time => Option Int64
  | .localtime _ => Option CText
  | .fopen _ | .serverCreate _ _ => Option ℕ
  | .serverStart _ => Int
  | .clock => Option Timespec
  | _ => Unit

abbrev osSig : Signature := ⟨OsCall, OsCall.Answer⟩

abbrev OsProgram := Program osSig

def os (c : OsCall) : OsProgram c.Answer := Program.perform (S := osSig) c

/-- The handles in `app_context_t`. -/
structure Runtime where
  canFd : Int
  epollFd : Int
  timerFd : Int
  ws : Option ℕ
  logFile : Option ℕ

namespace Startup

/-! ### The CAN interface -/

def runCommand (argv : List CText) : OsProgram Int := do
  let pid ← os (.fork argv)
  if pid < 0 then pure (-1)
  else
    let status ← os (.waitChild pid)
    if status = some (.exited 0) then pure 0 else pure (-1)

def downCommand (ifname : CText) : List CText :=
  ["ip".toList, "link".toList, "set".toList, "dev".toList, ifname, "down".toList]

def typeCommand (ifname : CText) (bitrate : UInt32) : List CText :=
  ["ip".toList, "link".toList, "set".toList, "dev".toList, ifname, "type".toList, "can".toList,
    "bitrate".toList, (toString bitrate.toNat).toList, "restart-ms".toList, "100".toList]

def upCommand (ifname : CText) : List CText :=
  ["ip".toList, "link".toList, "set".toList, "dev".toList, ifname, "up".toList]

def gpioCommand : List CText :=
  ["sudo".toList, "gpioset".toList, "gpiochip0".toList, "37=0".toList]

def canBusConfigureInterface (ifname : CText) (bitrate : UInt32) : OsProgram Int := do
  if ifname = [] ∨ bitrate = 0 then pure (-1)
  else
    let down ← runCommand (downCommand ifname)
    if down ≠ 0 then pure (-1)
    else
      let type ← runCommand (typeCommand ifname bitrate)
      if type ≠ 0 then pure (-1)
      else
        let up ← runCommand (upCommand ifname)
        if up ≠ 0 then pure (-1)
        else
          os (.printf "Configuring GPIO line 37 to enable CAN transceiver\n".toList)
          let gpio ← runCommand gpioCommand
          if gpio ≠ 0 then pure (-1) else pure 0

def canBusOpen (ifname : CText) : OsProgram Int := do
  if ifname = [] then pure (-1)
  else
    let fd ← os .socketCan
    if fd < 0 then pure (-1)
    else
      let ifindex ← os (.ifIndex fd (stringCopy ifNameSize ifname))
      match ifindex with
      | none => do
        os (.close fd)
        pure (-1)
      | some ifindex => do
        os (.recvOwnMsgs fd false)
        let bound ← os (.bindCan fd ifindex)
        if bound then pure fd
        else
          os (.close fd)
          pure (-1)

/-- The field is -1 behind it. -/
def canBusClose (fd : Int) : OsProgram Unit :=
  if fd < 0 then pure () else os (.close fd)

/-! ### The log -/

/-- `mkdir`, where a directory that is there already is no failure. -/
def mkdirUnlessThere (path : CText) : OsProgram Bool := do
  let error ← os (.mkdir path)
  pure (decide (error = none ∨ error = some "File exists"))

/-- The loop of `ensure_directory_exists` and the `mkdir` behind it, with the part of the path
before the pointer. -/
def makeDirectories (before : CText) : CText → OsProgram Int
  | [] => do
    let made ← mkdirUnlessThere before
    if made then pure 0 else pure (-1)
  | c :: rest => do
    if c ≠ '/' then makeDirectories (before ++ [c]) rest
    else
      let made ← mkdirUnlessThere before
      if made then makeDirectories (before ++ ['/']) rest else pure (-1)

def pathMax : ℕ := 4096

def ensureDirectoryExists : CText → OsProgram Int
  | [] => pure (-1)
  | c :: rest => if pathMax ≤ rest.length + 1 then pure (-1) else makeDirectories [c] rest

/-- `strftime` in a buffer of 64 bytes. -/
def logFileName (time : CText) : Option CText :=
  let name := "simple_ws_".toList ++ time ++ ".csv".toList
  if name.length < 64 then some name else none

def logPath (logDir filename : CText) : CText :=
  logDir ++ (if logDir.getLast? = some '/' then [] else ['/']) ++ filename

/-- The steps of `logger_open` behind `pthread_mutex_init` that can fail: the opened file. -/
def openLogFile (logDir : CText) : OsProgram (Option ℕ) := do
  if logDir = [] then pure none
  else
    let made ← ensureDirectoryExists logDir
    if made ≠ 0 then pure none
    else
      let now ← os .time
      match now with
      | none => pure none
      | some now => do
        let time ← os (.localtime now)
        match time.bind logFileName with
        | none => pure none
        | some filename =>
          let path := logPath logDir filename
          if pathMax ≤ path.length then pure none else os (.fopen path)

/-- `logger_open`: whether it succeeds, and the file of the log. -/
def loggerOpen (enabled : Bool) (logDir : CText) : OsProgram (Int × Option ℕ) := do
  os (.mutexInit .logger)
  if enabled = false then pure (0, none)
  else
    let file ← openLogFile logDir
    match file with
    | none => do
      os (.mutexDestroy .logger)
      pure (-1, none)
    | some file => do
      os (.mutexLock .logger)
      os (.maintain file)
      os (.mutexUnlock .logger)
      pure (0, some file)

def loggerClose (logFile : Option ℕ) : OsProgram Unit := do
  os (.mutexLock .logger)
  match logFile with
  | none => pure ()
  | some file => os (.fclose file)
  os (.mutexUnlock .logger)
  os (.mutexDestroy .logger)

/-! ### The context and the WebSocket server -/

/-- The locks of `app_context_t`. -/
def contextLocks : List Mutex := [.clients, .state, .can, .sequence]

def appContextInit : OsProgram Unit := contextLocks.forM (fun m => os (.mutexInit m))

def appContextCleanup : OsProgram Unit := contextLocks.forM (fun m => os (.mutexDestroy m))

/-- `ws_bridge_start`: whether it succeeds, and the server. -/
def wsBridgeStart (cfg : AppConfigT) : OsProgram (Int × Option ℕ) := do
  let ws ← os (.serverCreate cfg.wsPort cfg.maxClients)
  match ws with
  | none => pure (-1, none)
  | some ws => do
    os (.serverSetUp ws cfg.maxClients 4096)
    let rc ← os (.serverStart ws)
    pure (rc, some ws)

def wsBridgeStop (ws : Option ℕ) : OsProgram Unit := do
  match ws with
  | none => pure ()
  | some ws => do
    os (.serverStop ws)
    os (.serverJoin ws)
    os (.serverDestroy ws)
    os (.mutexLock .clients)
    os .freeClients
    os (.mutexUnlock .clients)

/-! ### `main` -/

/-- A step of `init_runtime` that has failed. -/
def failed (text : CText) (app : Runtime) : OsProgram (Int × Runtime) := do
  os (.perror text)
  pure (-1, app)

/-- `init_runtime` from `timerfd_create` on. -/
def initTimer (cfg : AppConfigT) (app : Runtime) : OsProgram (Int × Runtime) := do
  let timerFd ← os .timerfdCreate
  let app := { app with timerFd := timerFd }
  if timerFd < 0 then failed "timerfd_create".toList app
  else
    let set ← os (.timerfdSettime timerFd (cfg.tickIntervalMs.toInt.tdiv 1000)
      (cfg.tickIntervalMs.toInt.tmod 1000 * 1000000))
    if set = false then failed "timerfd_settime".toList app
    else
      let added ← os (.epollAdd app.epollFd timerFd)
      if added = false then failed "epoll_ctl timer_fd".toList app else pure (0, app)

/-- `init_runtime` from `epoll_create1` on. -/
def initEpoll (cfg : AppConfigT) (app : Runtime) : OsProgram (Int × Runtime) := do
  let epollFd ← os .epollCreate
  let app := { app with epollFd := epollFd }
  if epollFd < 0 then failed "epoll_create1".toList app
  else
    let added ← os (.epollAdd epollFd app.canFd)
    if added = false then failed "epoll_ctl can_fd".toList app else initTimer cfg app

def autoConfigure (cfg : AppConfigT) : OsProgram Int :=
  if cfg.autoConfigCan then canBusConfigureInterface cfg.canIfname cfg.canBitrate else pure 0

def initRuntime (cfg : AppConfigT) (app : Runtime) : OsProgram (Int × Runtime) := do
  if cfg.testingMode then pure (0, app)
  else
    let configured ← autoConfigure cfg
    if configured ≠ 0 then failed "can_bus_configure_interface".toList app
    else
      let canFd ← canBusOpen cfg.canIfname
      let app := { app with canFd := canFd }
      if canFd < 0 then failed "can_bus_open".toList app else initEpoll cfg app

def closeUnlessNone (fd : Int) : OsProgram Unit := if 0 ≤ fd then os (.close fd) else pure ()

def shutdownRuntime (app : Runtime) : OsProgram Unit := do
  os (.context WsServer.shutdownRuntime)
  wsBridgeStop app.ws
  closeUnlessNone app.timerFd
  closeUnlessNone app.epollFd
  canBusClose app.canFd
  loggerClose app.logFile

def yesNo (b : Bool) : CText := if b then "yes".toList else "no".toList

/-- What `app_config_print` prints. -/
def appConfigPrint (cfg : AppConfigT) : CText :=
  "WebSocket port: ".toList ++ (toString cfg.wsPort.toNat).toList ++
    "\nMax clients: ".toList ++ (toString cfg.maxClients.toInt).toList ++
    "\nRead only: ".toList ++ yesNo cfg.readOnly ++
    "\nTesting mode: ".toList ++ yesNo cfg.testingMode ++
    "\nLogging: ".toList ++ yesNo cfg.loggingEnabled ++
    "\nCAN interface: ".toList ++ cfg.canIfname ++
    "\nCAN bitrate: ".toList ++ (toString cfg.canBitrate.toNat).toList ++
    "\nCAN auto-config: ".toList ++ yesNo cfg.autoConfigCan ++
    "\nTick interval: ".toList ++ (toString cfg.tickIntervalMs.toInt).toList ++ " ms\n".toList ++
    (if cfg.loggingEnabled then "Log dir: ".toList ++ cfg.logDir ++ "\n".toList else [])

def listeningMessage (cfg : AppConfigT) : CText :=
  "Listening on ws://0.0.0.0:".toList ++ (toString cfg.wsPort.toNat).toList ++
    " using CAN interface ".toList ++ cfg.canIfname ++ "\n".toList

def testingMessage : CText :=
  "Testing mode enabled: CAN, heartbeat, and wiggle runtime are disabled\n".toList

def announce (cfg : AppConfigT) : OsProgram Unit := do
  os (.printf (listeningMessage cfg))
  if cfg.testingMode then os (.printf testingMessage) else pure ()

/-- What `main` does between the start of the server and `shutdown_runtime`. -/
def serveUntilStop (cfg : AppConfigT) (app : Runtime) : OsProgram Unit := do
  announce cfg
  let now ← os .clock
  let nextHeartbeatMs := heartbeatNowMs now + heartbeatPeriodMs
  if cfg.testingMode then os .sleepUntilStop
  else os (.serve app.canFd app.epollFd app.timerFd nextHeartbeatMs)

/-- The exit that all paths behind the opening of the log have in common. -/
def shutDown (app : Runtime) (status : Int) : OsProgram Int := do
  shutdownRuntime app
  appContextCleanup
  pure status

/-- `main` behind `app_config_parse`. -/
def run (cfg : AppConfigT) : OsProgram Int := do
  appContextInit
  os .onSignal
  os (.printf (appConfigPrint cfg))
  let (opened, logFile) ← loggerOpen cfg.loggingEnabled cfg.logDir
  if opened ≠ 0 then
    os (.perror "logger_open".toList)
    appContextCleanup
    pure 1
  else
    let (ready, app) ← initRuntime cfg ⟨-1, -1, -1, none, logFile⟩
    if ready ≠ 0 then shutDown app 1
    else
      let (started, ws) ← wsBridgeStart cfg
      let app := { app with ws := ws }
      if started ≠ 0 then
        os (.fprintf "Failed to start WebSocket server\n".toList)
        shutDown app 1
      else
        serveUntilStop cfg app
        shutDown app 0

def printDiagnostic : Diagnostic → OsProgram Unit
  | .text s => os (.fprintf s)
  | .perror path _ => os (.perror path)

def main : ParseResult → OsProgram Int
  | .exit printed => do
    printed.forM printDiagnostic
    pure 1
  | .returned status cfg printed => do
    printed.forM printDiagnostic
    if status ≠ 0 then
      os (.fprintf "Invalid arguments\n".toList)
      pure 1
    else run cfg

end Startup
end WsServer
