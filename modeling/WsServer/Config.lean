import WsServer.Base.Fgets
import WsServer.Base.Strto
import WsServer.Base.Trim
import WsServer.Context

/-! `config.c`: the settings of the server, from a file of `key=value` lines and from the
command line. -/
namespace WsServer

def appDefaultConfigPath : CText := "/etc/ws_server/ws_server.conf".toList

/-- The buffers of `app_config_t` and the one in which a line is read. -/
def ifNameSize : ℕ := 16
def logDirSize : ℕ := 256
def configLineSize : ℕ := 512

/-- `app_config_t`, all of it. -/
structure AppConfigT where
  wsPort : UInt16
  maxClients : Int32
  readOnly : Bool
  testingMode : Bool
  loggingEnabled : Bool
  autoConfigCan : Bool
  tickIntervalMs : Int32
  canBitrate : UInt32
  canIfname : CText
  logDir : CText
  deriving DecidableEq

/-- `snprintf` of a text in a buffer of this size. -/
def stringCopy (size : ℕ) (s : CText) : CText := s.take (size-1)

def appConfigInitDefaults : AppConfigT where
  wsPort := 8080
  maxClients := 128
  readOnly := false
  testingMode := false
  loggingEnabled := false
  autoConfigCan := true
  tickIntervalMs := 5
  canBitrate := 500000
  canIfname := stringCopy ifNameSize "can0".toList
  logDir := stringCopy logDirSize "/var/log/simple_ws".toList

/-! ### A line of the file -/

def trimWhitespace (s : CText) : CText := Trim.trim Scanf.isSpace s

/-- `strcasecmp(a, b) == 0` -/
def sameText (a b : CText) : Bool := a.map Char.toLower = b.map Char.toLower

def parseBoolValue (value : CText) : Option Bool :=
  if sameText value "1".toList || sameText value "true".toList || sameText value "yes".toList ||
      sameText value "on".toList || sameText value "enable".toList then some true
  else if sameText value "0".toList || sameText value "false".toList ||
      sameText value "no".toList || sameText value "off".toList ||
      sameText value "disable".toList then some false
  else none

/-- The settings of the file; some of them have two names. -/
inductive ConfigKey where
  | wsPort
  | maxClients
  | readOnly
  | testingMode
  | logging
  | autoConfigCan
  | tickIntervalMs
  | canBitrate
  | canIfname
  | logDir
  deriving DecidableEq, Repr

def ConfigKey.ofText (key : CText) : Option ConfigKey :=
  if key = "ws_port".toList ∨ key = "port".toList then some .wsPort
  else if key = "max_clients".toList then some .maxClients
  else if key = "read_only".toList then some .readOnly
  else if key = "testing_mode".toList ∨ key = "testing".toList then some .testingMode
  else if key = "logging_enabled".toList ∨ key = "logging".toList then some .logging
  else if key = "auto_config_can".toList then some .autoConfigCan
  else if key = "tick_interval_ms".toList ∨ key = "tick_ms".toList then some .tickIntervalMs
  else if key = "can_bitrate".toList then some .canBitrate
  else if key = "can_ifname".toList ∨ key = "can_if".toList then some .canIfname
  else if key = "log_dir".toList ∨ key = "log_path".toList then some .logDir
  else none

/-- The name of a setting in what is printed of an invalid value. -/
def ConfigKey.label : ConfigKey → String
  | .wsPort => "ws_port"
  | .maxClients => "max_clients"
  | .readOnly => "read_only"
  | .testingMode => "testing_mode"
  | .logging => "logging"
  | .autoConfigCan => "auto_config_can"
  | .tickIntervalMs => "tick_interval_ms"
  | .canBitrate => "can_bitrate"
  | .canIfname => "can_ifname"
  | .logDir => "log_dir"

/-- The whole value as a `long` that is positive. -/
def positiveLong (value : CText) : Option Int64 :=
  let (v, endptr) := Strto.strtol value
  if value = [] ∨ endptr ≠ [] ∨ v ≤ 0 then none else some v

/-- The whole value as an `unsigned long` other than 0, at most `max`. -/
def positiveULong (max : UInt64) (value : CText) : Option UInt64 :=
  let (v, endptr) := Strto.strtoul value
  if value = [] ∨ endptr ≠ [] ∨ v = 0 ∨ v > max then none else some v

/-- The configuration with a setting; none where its value is invalid. -/
def ConfigKey.apply (cfg : AppConfigT) (value : CText) : ConfigKey → Option AppConfigT
  | .wsPort => (positiveULong 65535 value).map fun v => { cfg with wsPort := v.toUInt16 }
  | .maxClients => (positiveLong value).map fun v => { cfg with maxClients := v.toInt32 }
  | .readOnly => (parseBoolValue value).map fun b => { cfg with readOnly := b }
  | .testingMode => (parseBoolValue value).map fun b => { cfg with testingMode := b }
  | .logging => (parseBoolValue value).map fun b => { cfg with loggingEnabled := b }
  | .autoConfigCan => (parseBoolValue value).map fun b => { cfg with autoConfigCan := b }
  | .tickIntervalMs => (positiveLong value).map fun v => { cfg with tickIntervalMs := v.toInt32 }
  -- no bound of its own: every `unsigned long` passes
  | .canBitrate => (positiveULong 0xFFFFFFFFFFFFFFFF value).map fun v =>
      { cfg with canBitrate := v.toUInt32 }
  | .canIfname => some { cfg with canIfname := stringCopy ifNameSize value }
  | .logDir => some { cfg with logDir := stringCopy logDirSize value }

/-- What is printed of a line, behind the place where it stands. -/
def configMessage (configPath : CText) (lineNo : ℕ) (message : CText) : CText :=
  configPath ++ ":".toList ++ (toString lineNo).toList ++ " ".toList ++ message ++ "\n".toList

/-- `apply_config_kv`: the configuration with the setting, or what is printed. -/
def applyConfigKv (cfg : AppConfigT) (key value configPath : CText) (lineNo : ℕ) :
    Except CText AppConfigT :=
  match ConfigKey.ofText key with
  | none => .error (configMessage configPath lineNo ("unknown key: ".toList ++ key))
  | some setting =>
    match setting.apply cfg value with
    | none =>
      .error (configMessage configPath lineNo
        ("invalid ".toList ++ setting.label.toList ++ " value: ".toList ++ value))
    | some cfg => .ok cfg

/-- A value between double quotes, without them. -/
def unquoted (value : CText) : CText :=
  if value.head? = some '"' ∧ value.length ≥ 2 ∧ value.getLast? = some '"' then
    value.tail.dropLast
  else value

/-- The body of the loop of `app_config_load_file`. -/
def applyConfigLine (configPath : CText) (lineNo : ℕ) (line : CText) (cfg : AppConfigT) :
    Except CText AppConfigT :=
  let trimmed := trimWhitespace line
  if trimmed = [] ∨ trimmed.head? = some '#' ∨ trimmed.head? = some ';' then .ok cfg
  else
    match Lines.field '=' trimmed with
    | none => .error (configMessage configPath lineNo "expected key=value".toList)
    | some (key, value) =>
      applyConfigKv cfg (trimWhitespace key) (unquoted (trimWhitespace value)) configPath lineNo

/-! ### The file -/

inductive Errno where
  | enoent
  | einval
  | eio
  | other (code : ℕ)
  deriving DecidableEq, Repr

/-- What `fopen` answers; a file is what the reads from it hand out, which may end in an
error. -/
inductive Opened where
  | failed (errno : Errno)
  | file (content : CText) (readError : Bool)

abbrev FileSystem := CText → Opened

/-- The lines that are read, until one of them fails with what it prints. -/
def applyConfigLines (configPath : CText) : ℕ → List CText → AppConfigT →
    AppConfigT × Option CText
  | _, [], cfg => (cfg, none)
  | lineNo, line :: rest, cfg =>
    match applyConfigLine configPath (lineNo+1) line cfg with
    | .error message => (cfg, some message)
    | .ok cfg => applyConfigLines configPath (lineNo+1) rest cfg

/-- Why a file is not loaded, and what is printed of it. -/
structure LoadError where
  errno : Errno
  message : Option CText
  deriving DecidableEq

/-- `app_config_load_file`: the settings in front of a failure are kept. -/
def appConfigLoadFile (fopen : FileSystem) (cfg : AppConfigT) (configPath : CText) :
    AppConfigT × Option LoadError :=
  match fopen configPath with
  | .failed errno => (cfg, some ⟨errno, none⟩)
  | .file content readError =>
    match applyConfigLines configPath 0 (Fgets.chunks '\n' (configLineSize-1) content) cfg with
    | (cfg, some message) => (cfg, some ⟨.einval, some message⟩)
    | (cfg, none) => (cfg, if readError then some ⟨.eio, none⟩ else none)

/-! ### The command line -/

inductive CliOption where
  | config
  | port
  | maxClients
  | readOnly
  | testing
  | logging
  | canIf
  | canBitrate
  | noCanConfig
  | tickMs
  | logDir
  deriving DecidableEq, Repr

def CliOption.ofWord (word : CText) : Option CliOption :=
  if word = "--config".toList then some .config
  else if word = "--port".toList then some .port
  else if word = "--max-clients".toList then some .maxClients
  else if word = "--read-only".toList then some .readOnly
  else if word = "--testing".toList then some .testing
  else if word = "--logging".toList then some .logging
  else if word = "--can-if".toList then some .canIf
  else if word = "--can-bitrate".toList then some .canBitrate
  else if word = "--no-can-config".toList then some .noCanConfig
  else if word = "--tick-ms".toList then some .tickMs
  else if word = "--log-dir".toList ∨ word = "--log-path".toList then some .logDir
  else none

def CliOption.takesOperand : CliOption → Bool
  | .readOnly => false
  | .testing => false
  | .logging => false
  | .noCanConfig => false
  | _ => true

/-- What an option does, with its operand where it has one. -/
def CliOption.apply (cfg : AppConfigT) (operand : CText) : CliOption → AppConfigT
  | .config => cfg
  | .port => { cfg with wsPort := (Strto.atoi operand).toUInt32.toUInt16 }
  | .maxClients => { cfg with maxClients := Strto.atoi operand }
  | .readOnly => { cfg with readOnly := true }
  | .testing => { cfg with testingMode := true }
  | .logging => { cfg with loggingEnabled := true }
  | .canIf => { cfg with canIfname := stringCopy ifNameSize operand }
  | .canBitrate => { cfg with canBitrate := (Strto.strtoul operand).1.toUInt32 }
  | .noCanConfig => { cfg with autoConfigCan := false }
  | .tickMs => { cfg with tickIntervalMs := Strto.atoi operand }
  | .logDir => { cfg with logDir := stringCopy logDirSize operand }

/-- The first loop of `app_config_parse`; `none` where it prints the usage and exits. -/
def scanConfigPath : List CText → Option CText → Option (Option CText)
  | [], path => some path
  | word :: rest, path =>
    if word = "--config".toList then
      match rest with
      | [] => none
      | operand :: rest => scanConfigPath rest (some operand)
    else scanConfigPath rest path

/-- The second loop of `app_config_parse`. -/
def applyOptions : List CText → AppConfigT → Option AppConfigT
  | [], cfg => some cfg
  | word :: rest, cfg =>
    match CliOption.ofWord word with
    | none => none
    | some option =>
      if option.takesOperand then
        match rest with
        | [] => none
        | operand :: rest => applyOptions rest (option.apply cfg operand)
      else applyOptions rest (option.apply cfg [])

inductive Diagnostic where
  | text (s : CText)
  | perror (path : CText) (errno : Errno)
  deriving DecidableEq

inductive ParseResult where
  | exit (printed : List Diagnostic)
  | returned (status : Int) (cfg : AppConfigT) (printed : List Diagnostic)
  deriving DecidableEq

/-- The configuration with which the server goes on. -/
def ParseResult.config : ParseResult → Option AppConfigT
  | .exit _ => none
  | .returned status cfg _ => if status = 0 then some cfg else none

def usageMessage (argv0 : CText) : CText :=
  "Usage: ".toList ++ argv0 ++ (" [--config PATH] [--port N] [--max-clients N] [--read-only] " ++
    "[--testing] [--logging] [--can-if can0] [--can-bitrate N] [--no-can-config] [--tick-ms N] " ++
    "[--log-dir PATH]\n").toList

/-- What is printed of a file that is not loaded. -/
def LoadError.printed (configPath : CText) (error : LoadError) : List Diagnostic :=
  error.message.toList.map .text ++
    [if error.errno = .einval then
      .text ("Invalid config file: ".toList ++ configPath ++ "\n".toList)
    else .perror configPath error.errno]

/-- The last check of `app_config_parse`. -/
def AppConfigT.Invalid (cfg : AppConfigT) : Prop :=
  cfg.wsPort = 0 ∨ cfg.maxClients ≤ 0 ∨ cfg.tickIntervalMs ≤ 0 ∨ cfg.canBitrate = 0

instance (cfg : AppConfigT) : Decidable cfg.Invalid := inferInstanceAs (Decidable (_ ∨ _ ∨ _ ∨ _))

/-- `app_config_parse`; only a default file that does not exist is passed over. -/
def appConfigParse (fopen : FileSystem) (cfg : AppConfigT) (argv : List CText) : ParseResult :=
  let usage := Diagnostic.text (usageMessage (argv.headD []))
  match scanConfigPath argv.tail none with
  | none => .exit [usage]
  | some userPath =>
    let configPath := userPath.getD appDefaultConfigPath
    let (cfg, error) := appConfigLoadFile fopen cfg configPath
    match error.filter (fun error => userPath.isSome || error.errno ≠ .enoent) with
    | some error => .returned (-1) cfg (error.printed configPath)
    | none =>
      match applyOptions argv.tail cfg with
      | none => .exit [usage]
      | some cfg => if cfg.Invalid then .returned (-1) cfg [] else .returned 0 cfg []

end WsServer
