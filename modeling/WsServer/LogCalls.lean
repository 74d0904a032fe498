import WsServer.Base.Machine
import WsServer.LogMaintenance

/-! The calls of the logger, one after the other. Outside cyclic mode its offset and its
capacity are 0, so that cyclic mode is always entered at the beginning of the file. -/
namespace WsServer
open Interaction

/-- A call of the logger by the server. -/
inductive LogCall where
  | write (kind : LogKind) (payload : Option CText)
  | printf (kind : LogKind) (message : CText)
  deriving DecidableEq

def LogCall.kind : LogCall → LogKind
  | .write kind _ => kind
  | .printf kind _ => kind

/-- The text that is to be logged. -/
def LogCall.payload : LogCall → CText
  | .write _ payload => payload.getD []
  | .printf _ message => message

def LogCall.perform (env : LogEnv) (logger : Logger) (dir : Directory) :
    LogCall → Option (Logger × Directory × List LogEvent)
  | .write kind payload => loggerWrite env kind payload logger dir
  | .printf kind message => loggerPrintf env kind message logger dir

/-- The whole record of a call: the time, the kind, the payload and the newline. -/
def LogCall.record (call : LogCall) (realtimeNs : UInt64) : CText :=
  logHeader realtimeNs call.kind ++ call.payload ++ ['\n']

/-- The log with its directory under the calls, each with what it meets. -/
def logMachine : Machine (Logger × Directory) (LogEnv × LogCall) LogEvent where
  step s x := (x.2.perform x.1 s.1 s.2).map fun y => ((y.1, y.2.1), y.2.2)

/-- What `logger_open` has filled in before it runs maintenance for the first time. -/
def openedLogger (logDir currentPath : CText) : Logger :=
  ⟨true, some [], logDir, currentPath, 0, false, 0, 0⟩

/-- All I/O of a write succeeds. -/
def WriteIO.good : WriteIO := ⟨⟨true, true⟩, true, none, true⟩

/-- A disk of which so many of a hundred blocks are free. -/
def diskWith (free : UInt64) : MaintenanceEnv where
  monotonicMs := 5000
  statvfs _ := some ⟨100, free⟩
  opendir _ := true
  readdir _ := true
  stat _ _ := none
  unlink _ := true
  prepare := ⟨true, true⟩

def goodEnv (free realtimeNs : UInt64) : LogEnv where
  maintenance := diskWith free
  realtimeNs := realtimeNs
  malloc := true
  fseeko := true
  write _ := .good

/-- The log writes at its end, into this file. -/
structure Logger.Normal (l : Logger) (file : CText) : Prop where
  enabled : l.enabled = true
  fp : l.fp = some file
  mode : l.cyclicMode = false
  capacity : l.cyclicCapacityBytes = 0
  offset : l.cyclicWriteOffset = 0

/-- The log is open, and nothing of cyclic mode is left where it is not in it. -/
structure Logger.Settled (l : Logger) : Prop where
  enabled : l.enabled = true
  fp : ∃ file, l.fp = some file
  capacity : l.cyclicMode = false → l.cyclicCapacityBytes = 0
  offset : l.cyclicMode = false → l.cyclicWriteOffset = 0

variable {env : LogEnv} {l l' : Logger} {dir dir' : Directory} {es : List LogEvent}

theorem Logger.Settled.normal (h : l.Settled) (hmode : l.cyclicMode = false) :
    ∃ file, l.Normal file := by
  obtain ⟨file, hfp⟩ := h.fp
  exact ⟨file, h.enabled, hfp, hmode, h.capacity hmode, h.offset hmode⟩

/-! ### The header of a record -/

theorem isDigit_of_mem_time {time : UInt64} {c : Char}
    (h : c ∈ (toString time.toNat).toList) : c.isDigit = true := by
  rw [Nat.toString_eq_repr, Nat.toList_repr] at h
  exact Nat.isDigit_of_mem_toDigits (by decide) (by decide) h

/-- A header is made of digits, commas and the letters of the kinds. -/
theorem notMem_logHeader {c : Char} (hdigit : c.isDigit = false) (hcomma : c ≠ ',')
    (hkind : ∀ kind : LogKind, c ∉ kind.text) (time : UInt64) (kind : LogKind) :
    c ∉ logHeader time kind := by
  intro h
  rcases List.mem_append.mp h with htime | hrest
  · rw [isDigit_of_mem_time htime] at hdigit
    cases hdigit
  · rcases List.mem_cons.mp hrest with heq | hrest
    · exact hcomma heq
    · rcases List.mem_append.mp hrest with htext | hlast
      · exact hkind kind htext
      · exact hcomma (List.mem_singleton.mp hlast)

theorem newline_notMem_logHeader (time : UInt64) (kind : LogKind) :
    '\n' ∉ logHeader time kind := by
  apply notMem_logHeader (by decide) (by decide)
  intro kind
  cases kind <;> decide

theorem blank_notMem_logHeader (time : UInt64) (kind : LogKind) :
    ' ' ∉ logHeader time kind := by
  apply notMem_logHeader (by decide) (by decide)
  intro kind
  cases kind <;> decide

theorem logHeader_ne_nil (time : UInt64) (kind : LogKind) : logHeader time kind ≠ [] :=
  List.append_ne_nil_of_right_ne_nil _ (List.cons_ne_nil _ _)

/-- The buffer of the source holds every header. -/
theorem logHeader_length_lt (time : UInt64) (kind : LogKind) :
    (logHeader time kind).length < 128 := by
  have hdigits : (toString time.toNat).toList.length ≤ 20 := by
    rw [Nat.toString_eq_repr, Nat.toList_repr]
    apply (Nat.length_toDigits_le_iff (by decide) (by decide)).mpr
    exact lt_of_lt_of_le time.toNat_lt (by decide)
  have hkind : kind.text.length ≤ 6 := by cases kind <;> decide
  simp only [logHeader, List.length_append, List.length_cons, List.length_nil]
  omega

/-! ### What the ring leaves as it is -/

/-- The log stays open, in the mode that it is in, and maintenance is due when it was. -/
structure Logger.SameMode (l l' : Logger) : Prop where
  enabled : l'.enabled = l.enabled
  fp : l'.fp.isSome = l.fp.isSome
  mode : l'.cyclicMode = l.cyclicMode
  next : l'.nextMaintenanceMs = l.nextMaintenanceMs

theorem Logger.SameMode.refl (l : Logger) : l.SameMode l := ⟨rfl, rfl, rfl, rfl⟩

theorem Logger.SameMode.trans {l₁ l₂ l₃ : Logger} (h : l₁.SameMode l₂) (h' : l₂.SameMode l₃) :
    l₁.SameMode l₃ :=
  ⟨h'.enabled.trans h.enabled, h'.fp.trans h.fp, h'.mode.trans h.mode, h'.next.trans h.next⟩

theorem Logger.SameMode.settled (h : l.SameMode l') (henabled : l.enabled = true)
    (hfp : ∃ file, l.fp = some file) (hmode : l.cyclicMode = true) : l'.Settled := by
  have hcyclic : l'.cyclicMode ≠ false := by
    rw [h.mode, hmode]
    decide
  refine ⟨h.enabled.trans henabled, ?_, fun hoff => absurd hoff hcyclic,
    fun hoff => absurd hoff hcyclic⟩
  apply Option.isSome_iff_exists.mp
  rw [h.fp]
  exact Option.isSome_iff_exists.mpr hfp

theorem prepare_sameMode (io : PrepareIO) (l : Logger) :
    l.SameMode (prepareCyclicModeLocked io l).1 := by
  unfold prepareCyclicModeLocked
  split
  · exact .refl l
  · dsimp only
    split_ifs
    all_goals exact ⟨rfl, rfl, rfl, rfl⟩

theorem writePiece_sameMode (io : WriteIO) (data file : CText) (l : Logger)
    (hopen : l.fp.isSome = true) : l.SameMode (writePiece io data file l).1 := by
  unfold writePiece
  simp only
  split_ifs
  all_goals first | exact ⟨rfl, rfl, rfl, rfl⟩ | exact ⟨rfl, hopen.symm, rfl, rfl⟩

theorem writeCyclic_sameMode (io : WriteIO) (data : CText) (l : Logger) :
    l.SameMode (writeCyclicBytesLocked io data l).1 := by
  have hprepare := prepare_sameMode io.prepare l
  unfold writeCyclicBytesLocked
  split
  · exact .refl l
  · rename_i file hfp
    have hpiece (l' : Logger) (h : l.SameMode l') :
        l.SameMode (writePiece io data file l').1 := by
      apply h.trans (writePiece_sameMode io data file l' _)
      rw [h.fp, hfp, Option.isSome_some]
    dsimp only
    split_ifs
    · exact .refl l
    · exact hprepare
    · exact hpiece _ hprepare
    · exact .refl l
    · exact hpiece _ (.refl l)

theorem writePieces_sameMode (write : ℕ → WriteIO) (pieces : List CText) :
    ∀ (i : ℕ) (l : Logger), l.SameMode (writePieces write i pieces l).1 := by
  induction pieces with
  | nil =>
    intro i l
    exact .refl l
  | cons piece rest ih =>
    intro i l
    exact (writeCyclic_sameMode (write i) piece l).trans (ih (i+1) _)

/-! ### A call as maintenance and a write -/

/-- The pieces in which a call writes its record in cyclic mode. -/
def LogCall.pieces (env : LogEnv) (call : LogCall) : List CText :=
  let header := logHeader env.realtimeNs call.kind
  match call with
  | .write _ none => [header, ['\n']]
  | .write _ (some text) => if text.length > 0 then [header, text, ['\n']] else [header, ['\n']]
  | .printf _ message =>
    if message.length > 0 ∧ env.malloc = true then [header, message, ['\n']]
    else [header, ['\n']]

/-- The payload that is written: `logger_printf` needs memory for it in cyclic mode. -/
def LogCall.sent (malloc : Bool) : LogCall → CText
  | .write _ payload => payload.getD []
  | .printf _ message => if malloc then message else []

/-- What a call does behind its maintenance. -/
def LogCall.writeTo (env : LogEnv) (call : LogCall) (l : Logger) : Logger × List LogEvent :=
  if l.cyclicMode then writePieces env.write 0 (call.pieces env) l
  else (writeNormalLineLocked env call.kind (some call.payload) l, [])

theorem perform_eq (henabled : l.enabled = true) {file : CText} (hfp : l.fp = some file)
    (env : LogEnv) (dir : Directory) (call : LogCall) :
    call.perform env l dir = (maybeRunMaintenanceLocked env.maintenance l dir).map fun x =>
      ((call.writeTo env x.1).1, x.2.1, x.2.2 ++ (call.writeTo env x.1).2) := by
  have hopen : (!l.enabled || l.fp.isNone) = false := by rw [henabled, hfp]; rfl
  cases call with
  | write kind payload =>
    simp only [LogCall.perform, loggerWrite, hopen, Bool.false_eq_true, if_false]
    congr 1
    funext x
    cases hmode : x.1.cyclicMode with
    | false =>
      cases payload <;> simp [LogCall.writeTo, hmode, LogCall.kind, LogCall.payload,
        writeNormalLineLocked]
    | true =>
      cases payload <;> simp [LogCall.writeTo, hmode, LogCall.kind, LogCall.pieces]
  | printf kind message =>
    simp only [LogCall.perform, loggerPrintf, hopen, Bool.false_eq_true, if_false]
    congr 1
    funext x
    cases hmode : x.1.cyclicMode with
    | false => simp [LogCall.writeTo, hmode, LogCall.kind, LogCall.payload]
    | true => simp [LogCall.writeTo, hmode, LogCall.kind, LogCall.pieces]

/-- A call on an open log comes to its end. -/
theorem perform_isSome (h : l.Settled) (env : LogEnv) (dir : Directory) (call : LogCall) :
    (call.perform env l dir).isSome := by
  obtain ⟨file, hfp⟩ := h.fp
  rw [perform_eq h.enabled hfp, Option.isSome_map]
  exact maintenance_isSome env.maintenance l dir

/-! ### Runs -/

theorem Logger.Settled.maintain {env : MaintenanceEnv} (h : l.Settled)
    (hmaintenance : maybeRunMaintenanceLocked env l dir = some (l', dir', es)) : l'.Settled := by
  obtain ⟨next, hm⟩ := maintenance_maintained hmaintenance
  cases hm with
  | kept _ => exact ⟨h.enabled, h.fp, h.capacity, h.offset⟩
  | left _ => exact ⟨h.enabled, h.fp, fun _ => rfl, fun _ => rfl⟩
  | prepared _ => exact (prepare_sameMode env.prepare _).settled h.enabled h.fp rfl

theorem writeTo_sameMode (env : LogEnv) (call : LogCall) (l : Logger) :
    l.SameMode (call.writeTo env l).1 := by
  unfold LogCall.writeTo
  split_ifs with hmode
  · exact writePieces_sameMode env.write (call.pieces env) 0 l
  · unfold writeNormalLineLocked
    split_ifs
    · exact .refl l
    · exact ⟨rfl, Option.isSome_map, rfl, rfl⟩

theorem writeTo_normal (env : LogEnv) (call : LogCall) (hmode : l.cyclicMode = false) :
    call.writeTo env l =
      (writeNormalLineLocked env call.kind (some call.payload) l, []) := by
  rw [LogCall.writeTo, hmode, if_neg Bool.false_ne_true]

theorem writeTo_settled (h : l.Settled) (env : LogEnv) (call : LogCall) :
    (call.writeTo env l).1.Settled := by
  have hsame := writeTo_sameMode env call l
  cases hmode : l.cyclicMode with
  | true => exact hsame.settled h.enabled h.fp hmode
  | false =>
    obtain ⟨file, hfp⟩ := h.fp
    rw [writeTo_normal env call hmode]
    unfold writeNormalLineLocked
    split_ifs
    · exact h
    · exact ⟨h.enabled, ⟨_, congrArg (Option.map _) hfp⟩, h.capacity, h.offset⟩

/-- Every call of the logger keeps it settled. -/
theorem perform_settled (h : l.Settled) {call : LogCall}
    (hcall : call.perform env l dir = some (l', dir', es)) : l'.Settled := by
  obtain ⟨file, hfp⟩ := h.fp
  rw [perform_eq h.enabled hfp] at hcall
  obtain ⟨⟨l₁, dir₁, es₁⟩, hmaintenance, heq⟩ := Option.map_eq_some_iff.mp hcall
  obtain ⟨rfl, -, -⟩ := heq
  exact writeTo_settled (h.maintain hmaintenance) env call

theorem openedLogger_settled (logDir currentPath : CText) :
    (openedLogger logDir currentPath).Settled :=
  ⟨rfl, ⟨[], rfl⟩, fun _ => rfl, fun _ => rfl⟩

/-- In every run from an opened log, one that is not in cyclic mode is as it was opened, but
for its contents. -/
theorem reachable_normal {logDir currentPath : CText} {s : Logger × Directory}
    (h : logMachine.Reachable (openedLogger logDir currentPath, dir) s)
    (hmode : s.1.cyclicMode = false) : ∃ file, s.1.Normal file := by
  have hsettled : s.1.Settled := by
    apply h.invariant (I := fun s => s.1.Settled) (openedLogger_settled logDir currentPath)
    intro s x y hs hstep
    obtain ⟨⟨l₁, dir₁, es₁⟩, hcall, rfl⟩ := Option.map_eq_some_iff.mp hstep
    exact perform_settled hs hcall
  exact hsettled.normal hmode

end WsServer
