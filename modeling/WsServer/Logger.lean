import WsServer.Base.ByteFile
import WsServer.Context

/-! `logger.c`: the CSV log. On a disk that is nearly full, with no old log left to delete, it
writes over its own file from the beginning, in a ring. -/
namespace WsServer

def loggerMinFreePercent : UInt32 := 20
def loggerMaintenanceIntervalMs : UInt64 := 5000
def loggerMinCyclicCapacityBytes : Int := 4096
def pathMax : ℕ := 4096

/-- The kinds with which the server calls the logger. -/
inductive LogKind where
  | wsRx
  | wsTx
  | canTx
  | canRx
  deriving DecidableEq, Repr

def LogKind.text : LogKind → CText
  | .wsRx => "WS_RX".toList
  | .wsTx => "WS_TX".toList
  | .canTx => "CAN_TX".toList
  | .canRx => "CAN_RX".toList

/-- `logger_t`; the file is its contents, and there is none where `fp` is `NULL`. -/
structure Logger where
  enabled : Bool
  fp : Option CText
  logDir : CText
  currentPath : CText
  nextMaintenanceMs : UInt64
  cyclicMode : Bool
  cyclicWriteOffset : Int
  cyclicCapacityBytes : Int
  deriving DecidableEq

structure Timespec where
  sec : Int
  nsec : Int
  deriving DecidableEq, Repr

structure FileStat where
  regular : Bool
  mtime : Timespec
  deriving DecidableEq, Repr

/-- The names in the log directory. -/
abbrev Directory := List CText

structure Statvfs where
  blocks : UInt64
  bavail : UInt64

/-- What the logger does that can be seen in the file system, and the two places where it
sets the offset of the ring back to 0. -/
inductive LogEvent where
  | freePercent (percent : Option UInt32)
  | unlink (path : CText) (done : Bool)
  | reset
  | wrote (offset : Int) (data : CText)
  deriving DecidableEq, Repr

/-! ### The ring -/

/-- Whether `fflush` and `fstat` succeed. -/
structure PrepareIO where
  fflush : Bool
  fstat : Bool

/-- What a write meets: `fwrite` is the number of bytes that it takes, where it is short. -/
structure WriteIO where
  prepare : PrepareIO
  fseeko : Bool
  fwrite : Option ℕ
  fflush : Bool

/-- `prepare_cyclic_mode_locked` -/
def prepareCyclicModeLocked (io : PrepareIO) (logger : Logger) :
    Logger × Int × List LogEvent :=
  match logger.fp with
  | none => (logger, -1, [])
  | some file =>
    if !io.fflush then (logger, -1, [])
    else if !io.fstat then (logger, -1, [])
    else
      let size : Int := file.length
      let cap := if size < loggerMinCyclicCapacityBytes then loggerMinCyclicCapacityBytes else size
      let logger := { logger with cyclicCapacityBytes := cap }
      if logger.cyclicWriteOffset < 0 ∨ logger.cyclicWriteOffset ≥ cap then
        ({ logger with cyclicWriteOffset := 0 }, 0, [.reset])
      else (logger, 0, [])

/-- The part of `write_cyclic_bytes_locked` behind its checks: room for the piece, the write
and the offset behind it. -/
def writePiece (io : WriteIO) (data file : CText) (logger : Logger) :
    Logger × Int × List LogEvent :=
  let len : Int := data.length
  let capacity := if len > logger.cyclicCapacityBytes then len else logger.cyclicCapacityBytes
  let wraps : Prop := logger.cyclicWriteOffset+len > capacity
  let offset := if wraps then 0 else logger.cyclicWriteOffset
  let resets := if wraps then [LogEvent.reset] else []
  let logger := { logger with cyclicCapacityBytes := capacity, cyclicWriteOffset := offset }
  if !io.fseeko || offset < 0 then (logger, -1, resets)
  else
    let written := data.take (io.fwrite.getD data.length)
    let logger :=
      { logger with fp := some (ByteFile.write (Char.ofNat 0) file offset.toNat written) }
    let events := resets ++ [.wrote offset written]
    if written.length ≠ data.length then (logger, -1, events)
    else
      let result : Int := if io.fflush then 0 else -1
      if offset+len ≥ capacity then
        ({ logger with cyclicWriteOffset := 0 }, result, events ++ [.reset])
      else ({ logger with cyclicWriteOffset := offset+len }, result, events)

/-- `write_cyclic_bytes_locked` -/
def writeCyclicBytesLocked (io : WriteIO) (data : CText) (logger : Logger) :
    Logger × Int × List LogEvent :=
  match logger.fp with
  | none => (logger, -1, [])
  | some file =>
    if data = [] then (logger, 0, [])
    else
      let prepared :=
        if logger.cyclicCapacityBytes ≤ 0 then prepareCyclicModeLocked io.prepare logger
        else (logger, 0, [])
      if prepared.2.1 ≠ 0 then (prepared.1, -1, prepared.2.2)
      else
        let x := writePiece io data file prepared.1
        (x.1, x.2.1, prepared.2.2 ++ x.2.2)

/-! ### Maintenance -/

/-- `get_free_percent`, of what `statvfs` answers. -/
def getFreePercent : Option Statvfs → Option UInt32
  | none => none
  | some fs =>
    if fs.blocks = 0 then some 100 else some ((fs.bavail*100)/fs.blocks).toUInt32

def isLoggerFileName (name : CText) : Bool := "simple_ws_".toList.isPrefixOf name

def timespecCmp (a b : Timespec) : Int :=
  if a.sec < b.sec then -1
  else if a.sec > b.sec then 1
  else if a.nsec < b.nsec then -1
  else if a.nsec > b.nsec then 1
  else 0

/-- The path of an entry of the log directory; none where the buffer is too short for it. -/
def fullPath (logDir name : CText) : Option CText :=
  let path := logDir ++ (if logDir.getLast? = some '/' then [] else ['/']) ++ name
  if path.length ≥ pathMax then none else some path

/-- The path and the time of an entry that may be deleted; `stat` may fail on it. -/
def Logger.deletable (stat : CText → Option FileStat) (logger : Logger) (name : CText) :
    Option (CText × Timespec) :=
  if !isLoggerFileName name then none
  else match fullPath logger.logDir name with
    | none => none
    | some path =>
      if path = logger.currentPath then none
      else match stat path with
        | none => none
        | some st => if !st.regular then none else some (path, st.mtime)

/-- The loop of `find_oldest_deletable_log` over the entries. -/
def oldestOf (stat : CText → Option FileStat) (logger : Logger) :
    Directory → Option (CText × Timespec) → Option (CText × Timespec)
  | [], oldest => oldest
  | name :: rest, oldest =>
    match logger.deletable stat name with
    | none => oldestOf stat logger rest oldest
    | some (path, mtime) =>
      match oldest with
      | none => oldestOf stat logger rest (some (path, mtime))
      | some (oldestPath, oldestMtime) =>
        if timespecCmp mtime oldestMtime < 0 then oldestOf stat logger rest (some (path, mtime))
        else oldestOf stat logger rest (some (oldestPath, oldestMtime))

/-- `find_oldest_deletable_log`: `none` where the directory cannot be read, else the path of
the log that is found, if there is one. -/
def findOldestDeletableLog (opendir readdir : Bool) (stat : CText → Option FileStat)
    (logger : Logger) (dir : Directory) : Option (Option CText) :=
  if !opendir then none
  else if !readdir then none
  else some ((oldestOf stat logger dir none).map Prod.fst)

/-- What a maintenance run meets, round by round; the free space is read before the loop and
behind each deletion. -/
structure MaintenanceEnv where
  monotonicMs : UInt64
  statvfs : ℕ → Option Statvfs
  opendir : ℕ → Bool
  readdir : ℕ → Bool
  stat : ℕ → CText → Option FileStat
  unlink : ℕ → Bool
  prepare : PrepareIO

/-- The normal mode, in which the log is written at its end. -/
def Logger.leaveCyclic (logger : Logger) : Logger :=
  { logger with cyclicMode := false, cyclicCapacityBytes := 0, cyclicWriteOffset := 0 }

/-- The loop of `maybe_run_maintenance_locked`; `none` where the fuel does not suffice. -/
def maintenanceLoop (env : MaintenanceEnv) : ℕ → ℕ → Logger → Directory →
    Option (Logger × Directory × List LogEvent)
  | 0, _, _, _ => none
  | fuel+1, i, logger, dir =>
    match findOldestDeletableLog (env.opendir i) (env.readdir i) (env.stat i) logger dir with
    | none => some (logger, dir, [])
    | some none =>
      let x := prepareCyclicModeLocked env.prepare { logger with cyclicMode := true }
      some (x.1, dir, x.2.2)
    | some (some path) =>
      if !env.unlink i then some (logger, dir, [.unlink path false])
      else
        let dir := dir.filter (fun name => fullPath logger.logDir name ≠ some path)
        let percent := getFreePercent (env.statvfs (i+1))
        let events := [.unlink path true, .freePercent percent]
        match percent with
        | none => some (logger, dir, events)
        | some percent =>
          if percent ≥ loggerMinFreePercent then some (logger.leaveCyclic, dir, events)
          else (maintenanceLoop env fuel (i+1) logger dir).map
            (fun x => (x.1, x.2.1, events ++ x.2.2))

/-- `maybe_run_maintenance_locked`; each round of its loop deletes an entry. -/
def maybeRunMaintenanceLocked (env : MaintenanceEnv) (logger : Logger) (dir : Directory) :
    Option (Logger × Directory × List LogEvent) :=
  if !logger.enabled || logger.fp.isNone then some (logger, dir, [])
  else if env.monotonicMs < logger.nextMaintenanceMs then some (logger, dir, [])
  else
    let logger :=
      { logger with nextMaintenanceMs := env.monotonicMs+loggerMaintenanceIntervalMs }
    let percent := getFreePercent (env.statvfs 0)
    match percent with
    | none => some (logger, dir, [.freePercent percent])
    | some free =>
      if free ≥ loggerMinFreePercent then some (logger.leaveCyclic, dir, [.freePercent percent])
      else (maintenanceLoop env (dir.length+1) 0 logger dir).map
        (fun x => (x.1, x.2.1, .freePercent percent :: x.2.2))

/-! ### The calls -/

/-- `"%llu,%s,"` -/
def logHeader (realtimeNs : UInt64) (kind : LogKind) : CText :=
  (toString realtimeNs.toNat).toList ++ ',' :: (kind.text ++ [','])

/-- What a call of the logger meets: the time, memory, the `fseeko` of the normal mode and
the writes of the ring. -/
structure LogEnv where
  maintenance : MaintenanceEnv
  realtimeNs : UInt64
  malloc : Bool
  fseeko : Bool
  write : ℕ → WriteIO

/-- `write_normal_line_locked` -/
def writeNormalLineLocked (env : LogEnv) (kind : LogKind) (payload : Option CText)
    (logger : Logger) : Logger :=
  if !env.fseeko then logger
  else { logger with
    fp := logger.fp.map
      (fun file => file ++ (logHeader env.realtimeNs kind ++ payload.getD [] ++ ['\n'])) }

/-- Pieces of a record, one after the other; their results are dropped. -/
def writePieces (write : ℕ → WriteIO) : ℕ → List CText → Logger → Logger × List LogEvent
  | _, [], logger => (logger, [])
  | i, piece :: rest, logger =>
    let x := writeCyclicBytesLocked (write i) piece logger
    let y := writePieces write (i+1) rest x.1
    (y.1, x.2.2 ++ y.2)

/-- `logger_write`; the payload is `NULL` or a text of the length that is passed. -/
def loggerWrite (env : LogEnv) (kind : LogKind) (payload : Option CText) (logger : Logger)
    (dir : Directory) : Option (Logger × Directory × List LogEvent) :=
  if !logger.enabled || logger.fp.isNone then some (logger, dir, [])
  else (maybeRunMaintenanceLocked env.maintenance logger dir).map fun x =>
    if !x.1.cyclicMode then (writeNormalLineLocked env kind payload x.1, x.2.1, x.2.2)
    else
      let header := logHeader env.realtimeNs kind
      let pieces :=
        match payload with
        | none => [header, ['\n']]
        | some text => if text.length > 0 then [header, text, ['\n']] else [header, ['\n']]
      let y := writePieces env.write 0 pieces x.1
      (y.1, x.2.1, x.2.2 ++ y.2)

/-- `logger_printf`, with the text that its format gives. -/
def loggerPrintf (env : LogEnv) (kind : LogKind) (message : CText) (logger : Logger)
    (dir : Directory) : Option (Logger × Directory × List LogEvent) :=
  if !logger.enabled || logger.fp.isNone then some (logger, dir, [])
  else (maybeRunMaintenanceLocked env.maintenance logger dir).map fun x =>
    if !x.1.cyclicMode then (writeNormalLineLocked env kind (some message) x.1, x.2.1, x.2.2)
    else
      let header := logHeader env.realtimeNs kind
      let pieces :=
        if message.length > 0 ∧ env.malloc = true then [header, message, ['\n']]
        else [header, ['\n']]
      let y := writePieces env.write 0 pieces x.1
      (y.1, x.2.1, x.2.2 ++ y.2)

end WsServer
