import WsServer.AuditLog
import WsServer.CsvLog
import WsServer.LoopDelivery

/-! The log file as a record of the bus: what the whole process logs, read back from the file,
has every frame that a handler, a wiggle or a worker has sent, and every value that has come in. -/
namespace WsServer
open Interaction Program Printf

/-! ### The calls of the logger -/

def lineCall (kind text : String) : Option LogCall :=
  if kind = "WS_RX" then some (.write .wsRx (some text.toList))
  else if kind = "WS_TX" then some (.write .wsTx (some text.toList))
  else if kind = "CAN_TX" then some (.printf .canTx text.toList)
  else if kind = "CAN_RX" then some (.printf .canRx text.toList)
  else none

/-- `ws_bridge_broadcast_text` logs what it sends. -/
def Output.logCall : Output → Option LogCall
  | .event _ (.log kind text) => lineCall kind text
  | .event _ (.broadcast text) => lineCall "WS_TX" text
  | .worker _ (.log kind text) => lineCall kind text
  | _ => none

/-- The broadcast of `flush_can_updates` has a line of its own. -/
def LoopOutput.logCall : LoopOutput → Option LogCall
  | .server o => o.logCall
  | .event (.log kind text) => lineCall kind text
  | _ => none

/-- The calls of the logger that the process makes, in order. -/
def logCalls (os : List LoopOutput) : List LogCall := os.filterMap LoopOutput.logCall

/-! ### Reading the file -/

/-- The frame of a line of the log, or that the line has none. -/
def LogEntry.sentFrame (e : LogEntry) : Option (Option CanCommand) :=
  if e.kind = .canTx then some (readRecord e.payload) else none

def LogEntry.receivedValue (e : LogEntry) : Option (Option (ℕ × ℕ)) :=
  if e.kind = .canRx then some (readEntry e.payload) else none

/-- What the file has of the frames that were sent: each read back, or that it cannot be. -/
def framesOnFile (bytes : CText) : List (Option CanCommand) :=
  (readLog bytes).filterMap (fun line => line.bind LogEntry.sentFrame)

/-- What the file has of the values that came in. -/
def valuesOnFile (bytes : CText) : List (Option (ℕ × ℕ)) :=
  (readLog bytes).filterMap (fun line => line.bind LogEntry.receivedValue)

/-- The frames that handlers, wiggles and workers have got onto the bus. -/
def framesSent (os : List LoopOutput) : List CanCommand :=
  (os.filterMap LoopOutput.serverOutput).filterMap (fun o => o.entry.bind AuditEntry.frame)

/-- What a call says of the bus, whenever it is made. -/
def LogCall.sentFrame (call : LogCall) : Option (Option CanCommand) := (call.entry 0).sentFrame

def LogCall.receivedValue (call : LogCall) : Option (Option (ℕ × ℕ)) :=
  (call.entry 0).receivedValue

variable {J : String → Prop} {pending : Option CanCommand} {es : List AuditEntry}

/-- A line that is logged for itself is a record or a text that was heard. -/
theorem AuditTrail.lines (h : AuditTrail J pending es) :
    ∀ kind text, .line kind text ∈ es →
      (kind = "WS_RX" ∧ J text) ∨ (kind = "CAN_TX" ∧ ∃ c, IsRecord c text) := by
  induction h with
  | nil => exact fun _ _ hmem => nomatch hmem
  | sent _ c ih =>
    intro kind text hmem
    rcases List.mem_append.mp hmem with hmem | hmem
    · exact ih kind text hmem
    · cases List.mem_singleton.mp hmem
  | record _ ht ih =>
    intro kind text hmem
    rcases List.mem_append.mp hmem with hmem | hmem
    · exact ih kind text hmem
    · obtain ⟨rfl, rfl⟩ := AuditEntry.line.inj (List.mem_singleton.mp hmem)
      exact Or.inr ⟨rfl, _, ht⟩
  | heard _ ht ih =>
    intro kind text hmem
    rcases List.mem_append.mp hmem with hmem | hmem
    · exact ih kind text hmem
    · obtain ⟨rfl, rfl⟩ := AuditEntry.line.inj (List.mem_singleton.mp hmem)
      exact Or.inl ⟨rfl, ht⟩

theorem Audited.lines {s : System} {os : List Output} (h : Audited J s os) {o : Output}
    (ho : o ∈ os) {kind text : String} (hentry : o.entry = some (.line kind text)) :
    (kind = "WS_RX" ∧ J text) ∨ (kind = "CAN_TX" ∧ ∃ c, IsRecord c text) := by
  have hmem : AuditEntry.line kind text ∈ entriesOf o.author os := by
    apply List.mem_filterMap.mpr
    exact ⟨o, List.mem_filter.mpr ⟨ho, decide_eq_true rfl⟩, hentry⟩
  cases o with
  | event t e =>
    obtain ⟨pending, -, htrail⟩ := h.threads t
    exact htrail.lines kind text hmem
  | worker k e => exact (h.workers k).lines kind text hmem

/-! ### The lines of the server -/

theorem newline_notMem_record {c : CanCommand} {text : String} (h : IsRecord c text) :
    '\n' ∉ text.toList := by
  rcases h with rfl | ⟨-, rfl⟩
  · exact (newline_notMem_frame c).2
  · exact (newline_notMem_frame c).1

theorem newline_notMem_announcement {text : String} (h : IsAnnouncement text) :
    '\n' ∉ text.toList := by
  rcases h with ⟨state, rfl⟩ | ⟨stopped, rfl⟩
  · cases state <;> decide
  · simp only [String.toList_append, List.mem_append, not_or]
    refine ⟨⟨by decide, ?_⟩, by decide⟩
    intro hdigit
    rw [Nat.toString_eq_repr, Nat.toList_repr] at hdigit
    exact absurd (Nat.isDigit_of_mem_toDigits (by decide) (by decide) hdigit) (by decide)

theorem lineCall_payload {kind text : String} {call : LogCall}
    (h : lineCall kind text = some call) : call.payload = text.toList := by
  unfold lineCall at h
  split_ifs at h <;> exact Option.some.inj h ▸ rfl

/-- A line counts as a record of a frame if it is one of the kind for it. -/
theorem lineCall_sentFrame (kind text : String) :
    (lineCall kind text).bind LogCall.sentFrame =
      ((AuditEntry.line kind text).record).map readRecord := by
  by_cases hkind : kind = "CAN_TX"
  · subst hkind
    rfl
  · rw [AuditEntry.record, if_neg hkind, lineCall, if_neg hkind]
    split_ifs <;> rfl

/-- The texts of the server that are logged have no newline, where the texts of the clients have
none, and none of them is about a value from the bus. -/
theorem server_line {s : System} {os : List Output}
    (haudited : Audited (fun text => '\n' ∉ text.toList) s os)
    (hannounced : ∀ t text, .event t (.broadcast text) ∈ os → IsAnnouncement text) {o : Output}
    (ho : o ∈ os) {call : LogCall} (hcall : o.logCall = some call) :
    '\n' ∉ call.payload ∧ call.receivedValue = none := by
  have hline {kind text : String} (hentry : o.entry = some (.line kind text))
      (hlogged : lineCall kind text = some call) :
      '\n' ∉ call.payload ∧ call.receivedValue = none := by
    rw [lineCall_payload hlogged]
    rcases haudited.lines ho hentry with ⟨rfl, ht⟩ | ⟨rfl, c, hc⟩
    · obtain rfl := Option.some.inj hlogged
      exact ⟨ht, rfl⟩
    · obtain rfl := Option.some.inj hlogged
      exact ⟨newline_notMem_record hc, rfl⟩
  cases o with
  | worker k e =>
    cases e with
    | log kind text => exact hline rfl hcall
    | _ => cases hcall
  | event t e =>
    cases e with
    | log kind text => exact hline rfl hcall
    | broadcast text =>
      obtain rfl := Option.some.inj hcall
      exact ⟨newline_notMem_announcement (hannounced t text ho), rfl⟩
    | _ => cases hcall

/-- The records of the server read back as its frames, but for the order between the parties. -/
theorem server_frames {s : System} {os : List Output} (haudited : Audited J s os)
    (hrest : ∀ i, s.nextRecord i = none) :
    (os.filterMap (fun o => o.logCall.bind LogCall.sentFrame)).Perm
      ((os.filterMap (fun o => o.entry.bind AuditEntry.frame)).map some) := by
  have hrecords : os.filterMap (fun o => o.logCall.bind LogCall.sentFrame) =
      os.filterMap (fun o => (o.entry.bind AuditEntry.record).map readRecord) := by
    apply List.filterMap_congr
    intro o _
    cases o with
    | event t e =>
      cases e with
      | canTx site c result => cases result <;> rfl
      | log kind text => exact lineCall_sentFrame kind text
      | _ => rfl
    | worker k e =>
      cases e with
      | attempt i c result => cases result <;> rfl
      | log kind text => exact lineCall_sentFrame kind text
      | _ => rfl
  rw [hrecords, List.map_filterMap]
  apply Machine.perm_of_parts Output.author
  intro i
  -- within a party, the order is the one of the frames
  have hparty := haudited.records i
  rw [hrest i, Option.toList_none, List.append_nil, entriesOf, List.filterMap_filterMap,
    List.filterMap_filterMap, List.map_filterMap, List.map_filterMap] at hparty
  exact hparty

/-! ### The lines of the loop -/

/-- A value on a line that the loop writes itself. -/
def LoopOutput.ownValue : LoopOutput → Option (Option (ℕ × ℕ))
  | .event (.log kind text) => (lineCall kind text).bind LogCall.receivedValue
  | _ => none

theorem newline_notMem_joinedEntries (canValues : Fin appCanIdCount → Int)
    (ids : List (Fin appCanIdCount)) : '\n' ∉ joinedEntries canValues ids := by
  have hentries : ∀ entry ∈ ids.map (canEntry canValues), ∀ c ∈ entry, c ≠ '\n' := by
    intro entry hentry c hc
    obtain ⟨id, -, rfl⟩ := List.mem_map.mp hentry
    rintro rfl
    exact not_mem_formatIdValue (by decide) (by decide) hc
  exact fun hmem => Lines.forall_mem_intercalate (P := fun c => c ≠ '\n')
    (by decide : '|' ≠ '\n') hentries _ hmem rfl

theorem newline_notMem_flushed (t : CanTable) (buffer : ℕ → Char) :
    '\n' ∉ (flushedUpdate t buffer).text := by
  have htext := (canBusFormatDirty_returns t buffer (by decide : 10 ≤ flushCapacity)).2.2.1
  simp only [flushedUpdate]
  rw [htext]
  exact newline_notMem_joinedEntries _ _

/-- The time in front is made of digits. -/
theorem newline_notMem_payload {input : LoopInput} {t : CanTable} {payload : String}
    (h : flushPayload input (flushedUpdate t input.buffer) = some payload) :
    '\n' ∉ payload.toList := by
  have htext := newline_notMem_flushed t input.buffer
  have hwhole : '\n' ∉ (toString input.realtimeNs.toNat ++ "|" ++
      String.ofList (flushedUpdate t input.buffer).text).toList := by
    simp only [String.toList_append, List.mem_append, String.toList_ofList, not_or]
    refine ⟨⟨fun hdigit => ?_, by decide⟩, htext⟩
    exact absurd (isDigit_of_mem_time hdigit) (by decide)
  unfold flushPayload at h
  split_ifs at h
  obtain rfl := Option.some.inj h
  rw [broadcastPayload, if_pos rfl]
  dsimp only
  split_ifs
  · rw [truncated, String.toList_ofList]
    exact fun hmem => hwhole (List.mem_of_mem_take hmem)
  · rw [String.toList_ofList]
    exact htext

/-- A step of the loop logs a value for each frame that it stores, and no frame that was sent. -/
theorem loop_lines {fuel : ℕ} {s s' : MainLoop} {l : LoopLabel} {os : List LoopOutput}
    (h : (mainLoop fuel).step s l = some (s', os)) :
    (∀ kind text, .event (.log kind text) ∈ os → kind ≠ "CAN_TX" ∧ '\n' ∉ text.toList) ∧
      os.filterMap LoopOutput.ownValue =
        ((canCallsOf ⟨s, l, os⟩).filterMap CanCall.accepted).map some := by
  have hquiet {α : Type} {f : α → LoopOutput} (hf : ∀ a e, f a ≠ .event e) (as : List α) :
      (∀ kind text, .event (.log kind text) ∈ as.map f → kind ≠ "CAN_TX" ∧ '\n' ∉ text.toList) ∧
        (as.map f).filterMap LoopOutput.ownValue = [] := by
    constructor
    · intro kind text hmem
      obtain ⟨a, -, ha⟩ := List.mem_map.mp hmem
      exact absurd ha (hf a _)
    · rw [List.filterMap_map]
      apply List.filterMap_eq_nil_iff.mpr
      intro a _
      cases ha : f a with
      | event e => exact absurd ha (hf a e)
      | _ => simp only [Function.comp_apply, ha, LoopOutput.ownValue]
  cases loop_move h with
  | frame input rest frame hpc hread =>
    simp only [canCallsOf, hpc, hread]
    rw [canBusStoreRx]
    cases hflagged : frame.flagged with
    | true =>
      simp only [CanCall.accepted, hflagged, List.filterMap_cons, if_true, List.map_nil]
      exact ⟨fun _ _ hmem => absurd hmem List.not_mem_nil, rfl⟩
    | false =>
      simp only [CanCall.accepted, hflagged, List.filterMap_cons, Bool.false_eq_true, if_false]
      constructor
      · intro kind text hmem
        obtain ⟨rfl, rfl⟩ := Event.log.inj (LoopOutput.event.inj (List.mem_singleton.mp hmem))
        exact ⟨by decide, (newline_notMem_frame ⟨frame.rxId, frame.rxValue, 0⟩).1⟩
      · have hread := readEntry_formatIdValue frame.rxId frame.rxValue
        exact congrArg (fun entry => [entry]) hread
  | flush input rest hpc =>
    simp only [canCallsOf, hpc]
    cases hpayload : flushPayload input (flushedUpdate s.table input.buffer) with
    | none => exact ⟨fun _ _ hmem => absurd hmem List.not_mem_nil, rfl⟩
    | some payload =>
      refine ⟨?_, rfl⟩
      intro kind text hmem
      rcases List.mem_cons.mp hmem with hline | hmem
      · obtain ⟨rfl, rfl⟩ := Event.log.inj (LoopOutput.event.inj hline)
        exact ⟨by decide, newline_notMem_payload hpayload⟩
      · cases List.mem_singleton.mp hmem
  | other l t os' hmover hstep =>
    exact hquiet (f := .server) (fun _ _ heq => LoopOutput.noConfusion heq) os'
  | wiggles input rest t os' hpc hrun =>
    simp only [canCallsOf, hpc]
    exact hquiet (f := .server) (fun _ _ heq => LoopOutput.noConfusion heq) os'
  | heartbeat input rest next es hpc htick =>
    simp only [canCallsOf, hpc]
    exact hquiet (f := .heartbeat) (fun _ _ heq => LoopOutput.noConfusion heq) es
  | noFrame input rest errors hpc hread =>
    have hcalls : canCallsOf ⟨s, .main input, errors.map .perror⟩ = [] := by
      simp only [canCallsOf, hpc]
    rw [hcalls]
    exact hquiet (f := .perror) (fun _ _ heq => LoopOutput.noConfusion heq) errors
  | wait input pc errors hpc hstop hnext =>
    simp only [canCallsOf, hpc]
    exact hquiet (f := .perror) (fun _ _ heq => LoopOutput.noConfusion heq) errors
  | leave input hpc hstop =>
    simp only [canCallsOf, hpc]
    exact ⟨fun _ _ hmem => absurd hmem List.not_mem_nil, rfl⟩

/-! ### Runs -/

/-- What the loop writes on its own lines in a run. -/
theorem loop_run_lines {fuel : ℕ} {s s' : MainLoop} {ls : List LoopLabel} {os : List LoopOutput}
    (h : (mainLoop fuel).run s ls = some (s', os)) :
    (∀ kind text, .event (.log kind text) ∈ os → kind ≠ "CAN_TX" ∧ '\n' ∉ text.toList) ∧
      os.filterMap LoopOutput.ownValue = (busValues ((mainLoop fuel).history s ls)).map some := by
  induction ls generalizing s os with
  | nil =>
    obtain ⟨-, rfl⟩ := Prod.mk.inj (Option.some.inj h)
    exact ⟨fun _ _ hmem => (nomatch hmem), rfl⟩
  | cons l ls ih =>
    obtain ⟨t, o, os', hstep, hrest, rfl⟩ := Machine.run_cons_eq_some.mp h
    obtain ⟨hfirst, hvalue⟩ := loop_lines hstep
    obtain ⟨hbehind, hvalues⟩ := ih hrest
    constructor
    · intro kind text hmem
      rcases List.mem_append.mp hmem with hmem | hmem
      · exact hfirst kind text hmem
      · exact hbehind kind text hmem
    · rw [List.filterMap_append, hvalue, hvalues, Machine.history_cons hstep, busValues, busValues,
        List.flatMap_cons, List.filterMap_append, List.map_append]

/-- The text of a client, where a step of the loop is the call for one. -/
def LoopLabel.heard : LoopLabel → Option CText
  | .other l => l.heard
  | .main _ => none

/-- The server in a run of the loop puts its frames on record, and hears what clients send. -/
theorem loop_audited {fuel : ℕ} {config : AppConfig} {canFd : Int} {start : UInt64}
    {ls : List LoopLabel} {s : MainLoop} {os : List LoopOutput}
    (hrun : (mainLoop fuel).run (.initial config canFd start) ls = some (s, os))
    (hheard : ∀ l ∈ ls, ∀ text ∈ l.heard, J (String.ofList text)) :
    Audited J s.system (os.filterMap LoopOutput.serverOutput) ∧
      ∀ t text, .event t (.broadcast text) ∈ os.filterMap LoopOutput.serverOutput →
        IsAnnouncement text := by
  have hpart := (serverPart fuel canFd).run loop_canFd (s := .initial config canFd start) rfl hrun
  have houtputs : ((mainLoop fuel).history (.initial config canFd start) ls).flatMap
      (serverPart fuel canFd).outputs = os.filterMap LoopOutput.serverOutput := by
    rw [← Machine.outputs_history hrun, List.filterMap_flatMap]
    rfl
  rw [houtputs] at hpart
  have hthreads := (announcing_initial config canFd start).threads
  refine ⟨audited_run ?_ hpart, (server_run_announces hthreads hpart).2⟩
  intro l hl text htext
  obtain ⟨x, hx, hlabel⟩ := List.mem_flatMap.mp hl
  have hmem := Machine.label_of_mem_history hx
  -- the tick of the timer hears nothing
  change l ∈ serverLabels x at hlabel
  unfold serverLabels at hlabel
  split at hlabel
  · rename_i l' hother
    rw [hother] at hmem
    rw [List.mem_singleton.mp hlabel] at htext
    exact hheard (.other l') hmem text htext
  · rcases List.mem_cons.mp hlabel with rfl | hlabel
    · cases htext
    · rw [List.mem_singleton.mp hlabel] at htext
      cases htext
  · cases hlabel

/-- No line that the process logs has a newline in it, where the texts of the clients have
none. -/
theorem newline_notMem_logCalls {s : System} {os : List LoopOutput}
    (haudited : Audited (fun text => '\n' ∉ text.toList) s (os.filterMap LoopOutput.serverOutput))
    (hannounced : ∀ t text, .event t (.broadcast text) ∈ os.filterMap LoopOutput.serverOutput →
      IsAnnouncement text)
    (hown : ∀ kind text, .event (.log kind text) ∈ os → kind ≠ "CAN_TX" ∧ '\n' ∉ text.toList) :
    ∀ call ∈ logCalls os, '\n' ∉ call.payload := by
  intro call hcall
  obtain ⟨o, ho, hlogged⟩ := List.mem_filterMap.mp hcall
  cases o with
  | server o =>
    have hserver : o ∈ os.filterMap LoopOutput.serverOutput :=
      List.mem_filterMap.mpr ⟨.server o, ho, rfl⟩
    exact (server_line haudited hannounced hserver hlogged).1
  | event e =>
    cases e with
    | log kind text =>
      rw [lineCall_payload hlogged]
      exact (hown kind text ho).2
    | _ => cases hlogged
  | _ => cases hlogged

/-- Of the frames that were sent, the lines of the process have what its server puts on
record. -/
theorem sentFrames_logCalls {os : List LoopOutput}
    (hown : ∀ kind text, .event (.log kind text) ∈ os → kind ≠ "CAN_TX" ∧ '\n' ∉ text.toList) :
    (logCalls os).filterMap LogCall.sentFrame = (os.filterMap LoopOutput.serverOutput).filterMap
      (fun o => o.logCall.bind LogCall.sentFrame) := by
  rw [logCalls, List.filterMap_filterMap, List.filterMap_filterMap]
  apply List.filterMap_congr
  intro o ho
  cases o with
  | event e =>
    cases e with
    | log kind text =>
      have hnone := lineCall_sentFrame kind text
      rw [AuditEntry.record, if_neg (hown kind text ho).1] at hnone
      exact hnone
    | _ => rfl
  | _ => rfl

/-- And of the values that came in, what the loop logs. -/
theorem receivedValues_logCalls {s : System} {os : List LoopOutput}
    (haudited : Audited (fun text => '\n' ∉ text.toList) s (os.filterMap LoopOutput.serverOutput))
    (hannounced : ∀ t text, .event t (.broadcast text) ∈ os.filterMap LoopOutput.serverOutput →
      IsAnnouncement text) :
    (logCalls os).filterMap LogCall.receivedValue = os.filterMap LoopOutput.ownValue := by
  rw [logCalls, List.filterMap_filterMap]
  apply List.filterMap_congr
  intro o ho
  cases o with
  | server o =>
    have hserver : o ∈ os.filterMap LoopOutput.serverOutput :=
      List.mem_filterMap.mpr ⟨.server o, ho, rfl⟩
    change o.logCall.bind LogCall.receivedValue = none
    cases hcall : o.logCall with
    | none => rfl
    | some call => exact (server_line haudited hannounced hserver hcall).2
  | event e => cases e <;> rfl
  | _ => rfl

/-- The log file is a record of the bus: where the log stays in normal mode and no client sends
a newline, its lines read back as the frames that handlers, wiggles and workers have sent, each
once, and as the values that have come in, in their order. -/
theorem log_file_records_bus {fuel : ℕ} {config : AppConfig} {canFd : Int} {start : UInt64}
    {ls : List LoopLabel} {s : MainLoop} {os : List LoopOutput}
    (hrun : (mainLoop fuel).run (.initial config canFd start) ls = some (s, os))
    (hrest : ∀ i, s.system.nextRecord i = none)
    (hheard : ∀ l ∈ ls, ∀ text ∈ l.heard, '\n' ∉ text)
    {l : Logger} {dir : Directory} {file : CText} {xs : List (LogEnv × LogCall)}
    {t : Logger × Directory} {es : List LogEvent} (hnormal : l.Normal file)
    (hcalls : xs.map Prod.snd = logCalls os)
    (hstays : logMachine.Along StaysNormal (l, dir) xs)
    (hlog : logMachine.run (l, dir) xs = some (t, es)) :
    ∃ bytes, t.1.fp = some (file ++ bytes) ∧
      (framesOnFile bytes).Perm ((framesSent os).map some) ∧
      valuesOnFile bytes =
        (busValues ((mainLoop fuel).history (.initial config canFd start) ls)).map some := by
  obtain ⟨haudited, hannounced⟩ := loop_audited (J := fun text => '\n' ∉ text.toList) hrun
    (fun l hl text htext => by rw [String.toList_ofList]; exact hheard l hl text htext)
  obtain ⟨hown, hvalues⟩ := loop_run_lines hrun
  have hpayloads : ∀ x ∈ xs, '\n' ∉ x.2.payload := by
    intro x hx
    apply newline_notMem_logCalls haudited hannounced hown
    rw [← hcalls]
    exact List.mem_map_of_mem hx
  have hread := (readLog_lines xs).mpr hpayloads
  refine ⟨_, (run_normal hnormal hstays hlog).fp, ?_, ?_⟩
  · have hframes : framesOnFile (Lines.unlines '\n' (xs.map logLine)) =
        (logCalls os).filterMap LogCall.sentFrame := by
      rw [framesOnFile, hread, ← hcalls, List.filterMap_map, List.filterMap_map]
      rfl
    rw [hframes, sentFrames_logCalls hown]
    exact server_frames haudited hrest
  · have hreceived : valuesOnFile (Lines.unlines '\n' (xs.map logLine)) =
        (logCalls os).filterMap LogCall.receivedValue := by
      rw [valuesOnFile, hread, ← hcalls, List.filterMap_map, List.filterMap_map]
      rfl
    rw [hreceived, receivedValues_logCalls haudited hannounced, hvalues]

instance (s : Logger × Directory) (x : LogEnv × LogCall) : Decidable (StaysNormal s x) :=
  decidable_of_iff
    (x.1.fseeko = true ∧ (logMachine.step s x).all (fun y => !y.1.1.cyclicMode) = true) <| by
      cases h : logMachine.step s x with
      | none => simp [StaysNormal, h]
      | some y => simp [StaysNormal, h]

/-- A client has a frame sent, and another one comes in. -/
def busLabels : List LoopLabel :=
  (rawCommandRun ++ List.replicate 3 (⟨.thread (.handler 0), luckyEnv⟩ : Label)).map .other ++
    oneFrameLabels.take 2

/-- What the process logs of it. -/
def busLines : List (LogEnv × LogCall) :=
  [(goodEnv 50 1, .write .wsRx (some "STATE#HOTFIRE".toList)),
    (goodEnv 50 2, .write .wsTx (some "State has been set to HOTFIRE".toList)),
    (goodEnv 50 3, .write .wsRx (some "101#2a".toList)),
    (goodEnv 50 4, .printf .canTx "101#002a".toList),
    (goodEnv 50 5, .printf .canRx "101#002a".toList)]

theorem log_file_records_bus_raw : ∃ s os bytes,
    (mainLoop 1).run (.initial realMode 3 0) busLabels = some (s, os) ∧
      (framesOnFile bytes).Perm [some ⟨0x101, 0x2a, 0⟩] ∧
      valuesOnFile bytes = [some (0x101, 0x2a)] := by
  have hfacts : (((mainLoop 1).run (.initial realMode 3 0) busLabels).map (fun r =>
      (r.1.system.nextRecord (.thread (.handler 0)), r.1.system.process.workers.length,
        logCalls r.2, framesSent r.2))) =
      some (none, 0, busLines.map Prod.snd, [⟨0x101, 0x2a, 0⟩]) := by decide +kernel
  obtain ⟨⟨s, os⟩, hrun, hmap⟩ := Option.map_eq_some_iff.mp hfacts
  obtain ⟨hnext, hrest⟩ := Prod.mk.inj hmap
  obtain ⟨hworkers, hrest⟩ := Prod.mk.inj hrest
  obtain ⟨hcalls, hframes⟩ := Prod.mk.inj hrest
  have hvalues : busValues ((mainLoop 1).history (.initial realMode 3 0) busLabels) =
      [(0x101, 0x2a)] := by decide +kernel
  -- nobody but the one thread has done anything
  have hpart := (serverPart 1 3).run loop_canFd (s := .initial realMode 3 0) rfl hrun
  have hmovers : ∀ l ∈ ((mainLoop 1).history (.initial realMode 3 0) busLabels).flatMap
      serverLabels, l.actor.mover = some (.handler 0) := by decide +kernel
  have hidle : ∀ i, s.system.nextRecord i = none := by
    intro i
    cases i with
    | signal => rfl
    | worker k =>
      have hnone : s.system.process.workers[k]? = none := by
        rw [List.length_eq_zero_iff.mp hworkers]
        rfl
      simp only [System.nextRecord, hnone]
      rfl
    | thread t =>
      by_cases ht : t = .handler 0
      · rw [ht]
        exact hnext
      · have hsame := threads_of_unmoved (u := t) hpart (fun l hl h =>
          ht (Option.some.inj (h.symm.trans (hmovers l hl))))
        simp only [System.nextRecord]
        rw [show s.system.threads t = .ret 0 from hsame]
  have hheard : ∀ l ∈ busLabels, ∀ text ∈ l.heard, '\n' ∉ text := by decide +kernel
  have hstays : logMachine.Along StaysNormal (freshLog 0 [], []) busLines := by decide +kernel
  have hlogs : (logMachine.run (freshLog 0 [], []) busLines).isSome = true := by decide +kernel
  obtain ⟨⟨t, es⟩, hlog⟩ := Option.isSome_iff_exists.mp hlogs
  obtain ⟨bytes, -, hsent, hreceived⟩ := log_file_records_bus hrun hidle hheard
    (l := freshLog 0 []) ⟨rfl, rfl, rfl, rfl, rfl⟩ hcalls.symm hstays hlog
  rw [show framesSent os = _ from hframes] at hsent
  rw [hvalues] at hreceived
  exact ⟨s, os, bytes, hrun, hsent, hreceived⟩

end WsServer
