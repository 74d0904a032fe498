import WsServer.Base.Lines
import WsServer.CanUpdates
import WsServer.LogCalls

/-! Reading the log back. The payloads are written as they are, so that it can be read back
exactly where none of them holds a newline. -/
namespace WsServer
open Interaction

/-- What a line of the log says. -/
structure LogEntry where
  time : UInt64
  kind : LogKind
  payload : CText
  deriving DecidableEq

/-- What a call is to say in the log. -/
def LogCall.entry (call : LogCall) (realtimeNs : UInt64) : LogEntry :=
  ⟨realtimeNs, call.kind, call.payload⟩

def readTime (text : CText) : UInt64 := (Nat.ofDigitChars 10 text 0).toUInt64

def readKind (text : CText) : Option LogKind :=
  [LogKind.wsRx, .wsTx, .canTx, .canRx].find? (fun kind => kind.text = text)

/-- A line, cut at its first two commas. -/
def readLine (line : CText) : Option LogEntry :=
  (Lines.field ',' line).bind fun x => (Lines.field ',' x.2).bind fun y =>
    (readKind y.1).map fun kind => ⟨readTime x.1, kind, y.2⟩

/-- The lines of the log, each read for itself. -/
def readLog (bytes : CText) : List (Option LogEntry) := (Lines.lines '\n' bytes).map readLine

variable {l : Logger} {dir : Directory} {file : CText}

/-! ### A line -/

theorem readTime_toString (time : UInt64) : readTime (toString time.toNat).toList = time := by
  rw [readTime, Nat.toString_eq_repr, Nat.toList_repr, Nat.ofDigitChars_ten_toDigits]
  exact UInt64.ofNat_toNat

theorem readKind_text (kind : LogKind) : readKind kind.text = some kind := by
  cases kind <;> decide

theorem comma_notMem_time (time : UInt64) : ',' ∉ (toString time.toNat).toList := by
  intro h
  exact absurd (isDigit_of_mem_time h) (by decide)

theorem comma_notMem_kind (kind : LogKind) : ',' ∉ kind.text := by
  cases kind <;> decide

/-- The payload of a line may hold commas. -/
theorem readLine_header (time : UInt64) (kind : LogKind) (payload : CText) :
    readLine (logHeader time kind ++ payload) = some ⟨time, kind, payload⟩ := by
  have hline : logHeader time kind ++ payload =
      (toString time.toNat).toList ++ ',' :: (kind.text ++ ',' :: payload) := by
    simp only [logHeader, List.append_assoc, List.cons_append, List.nil_append]
  rw [hline, readLine, Lines.field_append (comma_notMem_time time), Option.bind_some,
    Lines.field_append (comma_notMem_kind kind), Option.bind_some, readKind_text, Option.map_some,
    readTime_toString]

/-! ### The lines of a run -/

/-- The line of a call, without its newline. -/
def logLine (x : LogEnv × LogCall) : CText :=
  logHeader x.1.realtimeNs x.2.kind ++ x.2.payload

theorem newline_mem_line (x : LogEnv × LogCall) : '\n' ∈ logLine x ↔ '\n' ∈ x.2.payload := by
  rw [logLine, List.mem_append]
  exact or_iff_right (newline_notMem_logHeader x.1.realtimeNs x.2.kind)

/-- The lines are read back exactly where no payload holds a newline. -/
theorem readLog_lines (xs : List (LogEnv × LogCall)) :
    readLog (Lines.unlines '\n' (xs.map logLine)) =
        xs.map (fun x => some (x.2.entry x.1.realtimeNs)) ↔
      ∀ x ∈ xs, '\n' ∉ x.2.payload := by
  have hlines : (∀ line ∈ xs.map logLine, '\n' ∉ line) ↔ ∀ x ∈ xs, '\n' ∉ x.2.payload := by
    rw [List.forall_mem_map]
    apply forall₂_congr
    intro x _
    exact not_congr (newline_mem_line x)
  rw [← hlines]
  constructor
  · intro h
    -- a newline in a payload makes one line more
    have hlength := congrArg List.length h
    rw [readLog, List.length_map, List.length_map] at hlength
    apply Lines.length_lines_unlines.mp
    rw [hlength, List.length_map]
  · intro h
    rw [readLog, Lines.lines_unlines h, List.map_map]
    apply List.map_congr_left
    intro x _
    exact readLine_header x.1.realtimeNs x.2.kind x.2.payload

/-- The frames of the bus are logged without a newline: only a text can break a line. -/
theorem newline_notMem_frame (c : CanCommand) :
    '\n' ∉ (formatIdValue c.id c.value).toList ∧ '\n' ∉ (formatCanCommand c).toList := by
  have hpair : '\n' ∉ (formatIdValue c.id c.value).toList :=
    not_mem_formatIdValue (by decide) (by decide)
  refine ⟨hpair, ?_⟩
  simp only [formatCanCommand, String.toList_append, List.mem_append, not_or]
  refine ⟨⟨hpair, by decide⟩, ?_⟩
  intro h
  rw [Nat.toString_eq_repr, Nat.toList_repr] at h
  have hdigit := Nat.isDigit_of_mem_toDigits (by decide) (by decide) h
  exact absurd hdigit (by decide)

/-! ### Runs in normal mode -/

/-- The call is made with its I/O succeeding, and the log does not enter cyclic mode. -/
def StaysNormal (s : Logger × Directory) (x : LogEnv × LogCall) : Prop :=
  x.1.fseeko = true ∧ ∀ y, logMachine.step s x = some y → y.1.1.cyclicMode = false

/-- Maintenance that does not enter cyclic mode leaves a normal log normal. -/
theorem Logger.Normal.maintain {env : MaintenanceEnv} {l' : Logger} {dir' : Directory}
    {es : List LogEvent} (h : l.Normal file)
    (hmaintenance : maybeRunMaintenanceLocked env l dir = some (l', dir', es))
    (hmode : l'.cyclicMode = false) : l'.Normal file := by
  obtain ⟨next, hm⟩ := maintenance_maintained hmaintenance
  cases hm with
  | kept _ => exact ⟨h.enabled, h.fp, h.mode, h.capacity, h.offset⟩
  | left _ => exact ⟨h.enabled, h.fp, rfl, rfl, rfl⟩
  | prepared _ =>
    rw [(prepare_sameMode env.prepare _).mode] at hmode
    cases hmode

/-- The step lemma: a call puts its line at the end of the file. -/
theorem step_normal {x : LogEnv × LogCall} {y : (Logger × Directory) × List LogEvent}
    (h : l.Normal file) (hstays : StaysNormal (l, dir) x)
    (hstep : logMachine.step (l, dir) x = some y) :
    y.1.1.Normal (file ++ (logLine x ++ ['\n'])) := by
  have hmode := hstays.2 y hstep
  obtain ⟨⟨l', dir', es⟩, hcall, rfl⟩ := Option.map_eq_some_iff.mp hstep
  rw [perform_eq h.enabled h.fp] at hcall
  obtain ⟨⟨l₁, dir₁, es₁⟩, hmaintenance, heq⟩ := Option.map_eq_some_iff.mp hcall
  obtain ⟨rfl, -, -⟩ := heq
  -- the write keeps the mode that maintenance has left
  have hmode₁ : l₁.cyclicMode = false := (writeTo_sameMode x.1 x.2 l₁).mode.symm.trans hmode
  have hnormal := h.maintain hmaintenance hmode₁
  have hseek : (!x.1.fseeko) ≠ true := by rw [hstays.1]; decide
  rw [writeTo_normal x.1 x.2 hmode₁, writeNormalLineLocked, if_neg hseek]
  refine ⟨hnormal.enabled, ?_, hnormal.mode, hnormal.capacity, hnormal.offset⟩
  rw [hnormal.fp]
  rfl

/-- The run lemma. -/
theorem run_normal {xs : List (LogEnv × LogCall)} {s s' : Logger × Directory}
    {os : List LogEvent} (h : s.1.Normal file) (hstays : logMachine.Along StaysNormal s xs)
    (hrun : logMachine.run s xs = some (s', os)) :
    s'.1.Normal (file ++ Lines.unlines '\n' (xs.map logLine)) := by
  induction xs generalizing s file os with
  | nil =>
    obtain ⟨rfl, -⟩ := Prod.mk.inj (Option.some.inj hrun)
    rw [List.map_nil, Lines.unlines, List.flatMap_nil, List.append_nil]
    exact h
  | cons x xs ih =>
    obtain ⟨t, o, os', hstep, hrest, -⟩ := Machine.run_cons_eq_some.mp hrun
    have hafter := ih (step_normal h hstays.1 hstep) (hstays.2 _ hstep) hrest
    rw [List.map_cons, Lines.unlines_cons]
    simp only [List.append_assoc, List.singleton_append] at hafter
    exact hafter

/-- What a run in normal mode appends to the file can be read back as what was logged exactly
where no payload holds a newline. -/
theorem log_read_back_iff {xs : List (LogEnv × LogCall)} {s : Logger × Directory}
    {os : List LogEvent} (hnormal : l.Normal file)
    (hstays : logMachine.Along StaysNormal (l, dir) xs)
    (hrun : logMachine.run (l, dir) xs = some (s, os)) :
    (∃ bytes, s.1.fp = some (file ++ bytes) ∧
      readLog bytes = xs.map (fun x => some (x.2.entry x.1.realtimeNs))) ↔
        ∀ x ∈ xs, '\n' ∉ x.2.payload := by
  have hfp := (run_normal hnormal hstays hrun).fp
  rw [← readLog_lines]
  constructor
  · rintro ⟨bytes, hbytes, hread⟩
    have heq := Option.some.inj (hbytes.symm.trans hfp)
    rw [← List.append_cancel_left heq]
    exact hread
  · intro hread
    exact ⟨_, hfp, hread⟩

/-! ### A forged line -/

/-- The log as it was opened on a disk with room, after some calls. -/
def freshLog (next : UInt64) (file : CText) : Logger :=
  { openedLogger "logs".toList "logs/simple_ws_1.csv".toList with
    fp := some file
    nextMaintenanceMs := next }

theorem log_read_back_iff_hello :
    (∃ bytes, some "1,WS_RX,a,b\n".toList = some ([] ++ bytes) ∧
      readLog bytes = [some ⟨1, .wsRx, "a,b".toList⟩]) ↔
        ∀ x ∈ [(goodEnv 50 1, LogCall.write .wsRx (some "a,b".toList))], '\n' ∉ x.2.payload := by
  have hstep : logMachine.step (freshLog 0 [], [])
      (goodEnv 50 1, .write .wsRx (some "a,b".toList)) =
        some ((freshLog 10000 "1,WS_RX,a,b\n".toList, []), [.freePercent (some 50)]) := by
    decide +kernel
  have hstays : logMachine.Along StaysNormal (freshLog 0 [], [])
      [(goodEnv 50 1, .write .wsRx (some "a,b".toList))] := by
    refine ⟨⟨rfl, ?_⟩, fun _ _ => trivial⟩
    intro y hy
    rw [← Option.some.inj (hstep.symm.trans hy)]
    rfl
  exact log_read_back_iff ⟨rfl, rfl, rfl, rfl, rfl⟩ hstays
    (Machine.run_single_eq_some.mpr hstep)

/-- A client text that holds a newline is read back as two records, the second of them one
that the server never made. -/
theorem client_forges_record : (freshLog 0 []).Normal [] ∧
    ∃ s os bytes, logMachine.run (freshLog 0 [], []) [(goodEnv 50 1700000000000000000,
        .write .wsRx (some "x\n1700000000000000001,CAN_TX,101#0001".toList))] = some (s, os) ∧
      s.1.cyclicMode = false ∧ s.1.fp = some bytes ∧
      readLog bytes = [some ⟨1700000000000000000, .wsRx, "x".toList⟩,
        some ⟨1700000000000000001, .canTx, "101#0001".toList⟩] := by
  have hrun : logMachine.run (freshLog 0 [], []) [(goodEnv 50 1700000000000000000,
      .write .wsRx (some "x\n1700000000000000001,CAN_TX,101#0001".toList))] =
        some ((freshLog 10000
          "1700000000000000000,WS_RX,x\n1700000000000000001,CAN_TX,101#0001\n".toList, []),
            [.freePercent (some 50)]) := by
    decide +kernel
  exact ⟨⟨rfl, rfl, rfl, rfl, rfl⟩, _, _, _, hrun, rfl, rfl, by decide +kernel⟩

end WsServer
