import WsServer.CanCodec
import WsServer.LockedServer
import WsServer.Provenance

/-! The log as a record of the frames: whatever threads and workers do at the same time, each
of them puts every frame that it has sent on record before it does anything else, and a record
reads back as the frame that was sent. -/
namespace WsServer
open Interaction Program

/-! ### Records -/

/-- The line of a frame, with its duration or, where that is 0, without it. -/
def IsRecord (c : CanCommand) (text : String) : Prop :=
  text = formatCanCommand c ∨ (c.durationMs = 0 ∧ text = formatIdValue c.id c.value)

/-- The frame that a record is of, read as the server reads a raw command. -/
def readRecord (text : CText) : Option CanCommand :=
  (parseRawCanFields text).map fun f => ⟨f.id, f.value, f.durationMs⟩

theorem strtoul_toUInt32 (n : UInt32) : (Scanf.strtoul n.toNat).toUInt32 = n := by
  have hlt := n.toNat_lt
  have hfits := (Scanf.store_int_eq_iff n.toNat).mpr
    ⟨by omega, by simp only [Scanf.Size.bits]; omega⟩
  apply UInt32.toNat_inj.mp
  omega

theorem strtoul_toUInt16 (n : UInt16) : (Scanf.strtoul n.toNat).toUInt16 = n := by
  have hlt := n.toNat_lt
  have hfits := (Scanf.store_short_eq_iff n.toNat).mpr
    ⟨by omega, by simp only [Scanf.Size.bits]; omega⟩
  apply UInt16.toNat_inj.mp
  omega

theorem scanAll_formatCanCommand (c : CanCommand) :
    Scanf.scanAll [.num 16 .int, .lit '#', .num 16 .short, .lit '#', .num 10 .short]
        (formatCanCommand c).toList =
      some ([.num .int c.id.toNat, .num .short c.value.toNat, .num .short c.durationMs.toNat],
        []) := by
  have htext : (formatCanCommand c).toList = (Printf.hexPadded 3 c.id.toNat).toList ++
      '#' :: ((Printf.hexPadded 4 c.value.toNat).toList ++
        '#' :: (toString c.durationMs.toNat).toList) := by
    rw [formatCanCommand, String.toList_append, String.toList_append, toList_formatIdValue]
    simp only [List.append_assoc, List.cons_append]
    rfl
  have hduration : Scanf.scanAll [.num 10 .short] (toString c.durationMs.toNat).toList =
      some ([.num .short c.durationMs.toNat], []) := by
    apply (Scanf.scanAll_last_iff (by decide)).mpr
    exact ⟨_, Printf.isNumeral_decimal _, rfl⟩
  have hvalue := (@Scanf.scanAll_field_iff 16 (by decide) .short '#' (by decide) _ _ _ _).mpr
    ⟨_, _, _, _, rfl, Printf.isNumeral_hexPadded 4 c.value.toNat, hduration, rfl⟩
  apply (Scanf.scanAll_field_iff (by decide) (by decide)).mpr
  exact ⟨_, _, _, _, htext, Printf.isNumeral_hexPadded 3 c.id.toNat, hvalue, rfl⟩

theorem readsAs_formatCanCommand (c : CanCommand) :
    parseRawCanFields (formatCanCommand c).toList =
      some ⟨c.id, c.value, c.durationMs, true⟩ := by
  have hlong := Scanf.scanItems_of_scanAll (scanAll_formatCanCommand c)
  simp only [parseRawCanFields, Scanf.sscanf, hlong, List.map_cons, List.map_nil,
    Scanf.Item.store, strtoul_toUInt32, strtoul_toUInt16]

theorem IsRecord.reads {c : CanCommand} {text : String} (h : IsRecord c text) :
    readRecord text.toList = some c := by
  rcases h with rfl | ⟨hduration, rfl⟩
  · rw [readRecord, readsAs_formatCanCommand]
    rfl
  · rw [readRecord, readsAs_formatIdValue, Option.map_some, ← hduration]

/-- A raw command without a duration is one with the duration 0. -/
theorem durationMs_of_parse {text : CText} {f : RawCanFields}
    (h : parseRawCanFields text = some f) (hduration : f.hasDuration = false) :
    f.durationMs = 0 := by
  unfold parseRawCanFields at h
  split at h
  · obtain rfl := Option.some.inj h
    cases hduration
  split at h
  · obtain rfl := Option.some.inj h
    rfl
  · cases h

/-! ### Trails -/

/-- A frame that got onto the bus, or a line of the log. -/
inductive AuditEntry where
  | sent (c : CanCommand)
  | line (kind text : String)

def AuditEntry.frame : AuditEntry → Option CanCommand
  | .sent c => some c
  | .line _ _ => none

/-- The text of a line for a frame. -/
def AuditEntry.record : AuditEntry → Option CText
  | .sent _ => none
  | .line kind text => if kind = "CAN_TX" then some text.toList else none

/-- What one party has sent and logged, up to a frame that is not on record yet: every frame is
followed by its record, and the other lines are what it has heard. -/
inductive AuditTrail (J : String → Prop) : Option CanCommand → List AuditEntry → Prop where
  | nil : AuditTrail J none []
  | sent {es : List AuditEntry} (h : AuditTrail J none es) (c : CanCommand) :
      AuditTrail J (some c) (es ++ [.sent c])
  | record {es : List AuditEntry} {c : CanCommand} {text : String} (h : AuditTrail J (some c) es)
      (ht : IsRecord c text) : AuditTrail J none (es ++ [.line "CAN_TX" text])
  | heard {es : List AuditEntry} {text : String} (h : AuditTrail J none es) (ht : J text) :
      AuditTrail J none (es ++ [.line "WS_RX" text])

variable {J : String → Prop} {pending : Option CanCommand} {es es' : List AuditEntry}

theorem AuditTrail.append (h : AuditTrail J none es) (h' : AuditTrail J pending es') :
    AuditTrail J pending (es ++ es') := by
  induction h' with
  | nil =>
    rw [List.append_nil]
    exact h
  | sent _ c ih =>
    rw [← List.append_assoc]
    exact .sent ih c
  | record _ ht ih =>
    rw [← List.append_assoc]
    exact .record ih ht
  | heard _ ht ih =>
    rw [← List.append_assoc]
    exact .heard ih ht

theorem AuditTrail.flatMap {ι : Type} {f : ι → List AuditEntry}
    (h : ∀ i, AuditTrail J none (f i)) (l : List ι) : AuditTrail J none (l.flatMap f) := by
  induction l with
  | nil => exact .nil
  | cons i l ih =>
    rw [List.flatMap_cons]
    exact (h i).append ih

/-- The records read back as the frames, but for the one that is not on record yet. -/
theorem AuditTrail.reads (h : AuditTrail J pending es) :
    (es.filterMap AuditEntry.record).map readRecord ++ pending.toList.map some =
      (es.filterMap AuditEntry.frame).map some := by
  induction h with
  | nil => rfl
  | @sent es _ c ih =>
    rw [Option.toList_none, List.map_nil, List.append_nil] at ih
    rw [List.filterMap_append, List.filterMap_append, List.map_append, List.map_append, ← ih]
    simp [AuditEntry.record, AuditEntry.frame]
  | @record es c text _ ht ih =>
    rw [List.filterMap_append, List.filterMap_append, List.map_append, List.map_append, ← ih]
    simp [AuditEntry.record, AuditEntry.frame, ht.reads]
  | @heard es text _ ht ih =>
    rw [List.filterMap_append, List.filterMap_append, List.map_append, List.map_append, ← ih]
    simp [AuditEntry.record, AuditEntry.frame]

/-! ### The entries of an action -/

def Event.entry : Event → Option AuditEntry
  | .canTx _ c .sent => some (.sent c)
  | .log kind text => some (.line kind text)
  | _ => none

theorem trail_sendValue (fd : Int) (slot : WiggleCommand) (value : UInt16)
    (write : Option String) :
    AuditTrail J none ((sendValue fd slot value write).2.filterMap Event.entry) := by
  simp only [sendValue]
  cases canBusSendCommand fd ⟨slot.id, value, 0⟩ write with
  | sent => exact .record (.sent .nil _) (Or.inr ⟨rfl, rfl⟩)
  | refused error => exact .nil

theorem trail_deactivateSlot (fd : Int) (slot : WiggleCommand) (sendExitValue : Bool)
    (write : Option String) :
    AuditTrail J none ((deactivateSlot fd slot sendExitValue write).2.filterMap Event.entry) := by
  unfold deactivateSlot
  split_ifs
  · exact .nil
  · exact trail_sendValue fd slot _ write
  · exact .nil

theorem trail_processSlot (fd : Int) (now : UInt64) (slot : WiggleCommand)
    (write : Option String) :
    AuditTrail J none ((processSlot fd now slot write).2.filterMap Event.entry) := by
  unfold processSlot
  split_ifs
  · exact .nil
  · exact trail_deactivateSlot fd slot true write
  · exact .nil
  · exact trail_sendValue fd slot _ write
  · exact trail_sendValue fd slot _ write

/-- What the loops over the slots send is on record slot by slot. -/
theorem trail_overSlots {app : App} {body : Fin appMaxWiggles → WiggleCommand × List Event}
    (h : ∀ i, AuditTrail J none ((body i).2.filterMap Event.entry)) :
    AuditTrail J none ((overSlots app body).2.filterMap Event.entry) := by
  rw [overSlots, List.filterMap_flatMap]
  exact .flatMap h _

/-- A frame is followed by its record, and nothing else is logged but what is heard. -/
def auditing (J : String → Prop) : Protocol serverSig (Option CanCommand) where
  allowed pending
    | .log kind text => (∃ c, pending = some c ∧ kind = "CAN_TX" ∧ IsRecord c text) ∨
        (pending = none ∧ kind = "WS_RX" ∧ J text)
    | _ => pending = none
  after pending
    | .canSend c, result => some (if result = .sent then some c else none)
    | .log _ _, _ => some none
    | _, _ => some pending

/-- The critical sections put their own frames on record. -/
theorem trail_section (p : Process) (env : Env) {a : Act} (hlog : ∀ kind text, a ≠ .log kind text)
    (hsend : ∀ c, a ≠ .canSend c) :
    AuditTrail J none ((perform p env a).2.2.filterMap Event.entry) := by
  cases a with
  | wiggleStart r =>
    simp only [perform, wiggleStartLocked]
    split
    · exact .nil
    · exact trail_sendValue p.app.canFd _ _ _
  | wiggleStop id =>
    simp only [perform, wiggleStopLocked]
    split
    · exact .nil
    · exact trail_deactivateSlot p.app.canFd _ true _
  | wiggleStopAll sendExitValue =>
    simp only [perform, wiggleStopAllLocked]
    exact trail_overSlots (fun i => trail_deactivateSlot p.app.canFd _ sendExitValue _)
  | wiggleProcess =>
    simp only [perform, wiggleProcess]
    split_ifs
    · exact .nil
    · exact trail_overSlots (fun i => trail_processSlot p.app.canFd env.now _ _)
  | createWorker args =>
    simp only [perform]
    split_ifs <;> exact .nil
  | canSend c => exact absurd rfl (hsend c)
  | log kind text => exact absurd rfl (hlog kind text)
  | _ => exact .nil

/-- The step lemma for an action: the trail grows as the protocol moves. -/
theorem AuditTrail.perform (h : AuditTrail J pending es) (p : Process) (env : Env) {a : Act}
    (ha : (auditing J).allowed pending a) :
    ∃ pending', (auditing J).after pending a (perform p env a).2.1 = some pending' ∧
      AuditTrail J pending' (es ++ (WsServer.perform p env a).2.2.filterMap Event.entry) := by
  cases a with
  | log kind text =>
    refine ⟨none, rfl, ?_⟩
    rcases ha with ⟨c, rfl, rfl, ht⟩ | ⟨rfl, rfl, ht⟩
    · exact .record h ht
    · exact .heard h ht
  | canSend c =>
    obtain rfl : pending = none := ha
    have hresult (result : SendResult) : AuditTrail J (if result = .sent then some c else none)
        (es ++ [Event.canTx .rawCommand c result].filterMap Event.entry) := by
      cases result with
      | sent => exact .sent h c
      | refused error => exact h.append .nil
    exact ⟨_, rfl, hresult _⟩
  | _ =>
    obtain rfl : pending = none := ha
    exact ⟨none, rfl, h.append
      (trail_section p env (fun _ _ h => Act.noConfusion h) (fun _ h => Act.noConfusion h))⟩

/-! ### The calls -/

/-- The program has every frame on record when it ends. -/
abbrev Audits (J : String → Prop) {β : Type} (p : Server β) : Prop :=
  Follows (auditing J) none p (fun _ pending => pending = none)

/-- Neither a frame nor a line of the log. -/
def Act.Unlogged : Act → Prop
  | .canSend _ | .log _ _ => False
  | _ => True

variable {β β' : Type}

theorem audits_pure (v : β) : Audits J (pure v : Server β) := rfl

theorem Audits.bind {p : Server β} {f : β → Server β'} (hp : Audits J p)
    (hf : ∀ v, Audits J (f v)) : Audits J (p >>= f) := by
  refine Follows.bind hp ?_
  rintro v pending rfl
  exact hf v

theorem audits_then {a : Act} {f : a.Answer → Server β} (ha : a.Unlogged)
    (hf : ∀ r, Audits J (f r)) : Audits J (act a >>= f) := by
  have hmove : (auditing J).allowed none a ∧
      ∀ r pending, (auditing J).after none a r = some pending → pending = none := by
    cases a with
    | canSend c => exact ha.elim
    | log kind text => exact ha.elim
    | _ => exact ⟨rfl, fun _ _ h => (Option.some.inj h).symm⟩
  refine ⟨hmove.1, ?_⟩
  intro r pending hafter
  rw [hmove.2 r pending hafter]
  exact hf r

theorem audits_single {a : Act} (ha : a.Unlogged) : Audits J (act a) :=
  audits_then ha (fun r => audits_pure r)

theorem audits_reply (client : Client) (msg : String) : Audits J (sendReply client msg) :=
  audits_single trivial

theorem audits_reply_then (client : Client) (msg : String) (v : β) :
    Audits J (do sendReply client msg; pure v : Server β) :=
  (audits_reply client msg).bind (fun _ => audits_pure v)

/-- A program that performs no action of the two kinds with which frames and lines come. -/
theorem Kinds.audits {ks : List ActKind} {p : Server β} (h : Kinds ks p)
    (hks : ∀ k ∈ ks, k ∉ [ActKind.chat, .can]) : Audits J p := by
  refine Performs.follows h (auditing J) none ?_
  intro a ha
  cases a with
  | canSend c => exact absurd (by decide : ActKind.can ∈ [ActKind.chat, .can]) (hks _ ha)
  | log kind text => exact absurd (by decide : ActKind.chat ∈ [ActKind.chat, .can]) (hks _ ha)
  | _ => exact ⟨rfl, fun _ _ h => (Option.some.inj h).symm⟩

theorem audits_wiggleStopAll (sendExitValue : Bool) : Audits J (wiggleStopAll sendExitValue) := by
  refine audits_then trivial (fun stopped => ?_)
  split_ifs
  · exact audits_single trivial
  · exact audits_pure ()

theorem audits_appStateSet (state : AppState) : Audits J (appStateSet state) := by
  have hbroadcast : Audits J appStateBroadcast :=
    audits_then trivial (fun state => audits_single trivial)
  refine audits_then trivial (fun changed => ?_)
  dsimp only
  split_ifs
  · exact (audits_wiggleStopAll true).bind
      (fun _ => hbroadcast.bind (fun _ => audits_pure changed))
  · exact hbroadcast.bind (fun _ => audits_pure changed)

theorem audits_handleReadToggle (client : Client) (text : CText) :
    Audits J (handleReadToggle client text) := by
  refine audits_then trivial (fun ctx => ?_)
  split_ifs
  · exact audits_pure false
  · exact audits_then trivial (fun _ => audits_reply_then client _ true)
  · exact audits_then trivial (fun _ => audits_reply_then client _ true)
  · exact audits_pure false

theorem audits_handleTestingCommand (client : Client) (normalized : CText) :
    Audits J (handleTestingCommand client normalized) := by
  unfold handleTestingCommand
  split
  · exact audits_reply client _
  refine audits_then trivial (fun copied => ?_)
  split_ifs
  · exact audits_reply client _
  split
  · exact audits_reply client _
  split
  · exact audits_reply client _
  · exact audits_then trivial (fun _ => audits_reply client _)

theorem audits_handleAbort (client : Client) (text : CText) :
    Audits J (handleAbort client text) := by
  unfold handleAbort
  split_ifs
  · exact audits_pure false
  · exact audits_then trivial (fun _ => (audits_wiggleStopAll true).bind
      (fun _ => audits_reply_then client _ true))

theorem audits_handleStateCommand (client : Client) (text : CText) :
    Audits J (handleStateCommand client text) := by
  unfold handleStateCommand
  split_ifs
  · exact audits_pure false
  · exact (audits_appStateSet _).bind (fun _ => audits_reply_then client _ true)
  · exact (audits_appStateSet _).bind (fun _ => audits_reply_then client _ true)
  · exact audits_reply_then client _ true

theorem audits_handleSetValve (client : Client) (text : CText) :
    Audits J (handleSetValve client text) := by
  unfold handleSetValve
  split_ifs
  · exact audits_pure false
  split
  · exact audits_reply_then client _ true
  split
  · exact audits_reply_then client _ true
  split_ifs
  · exact audits_reply_then client _ true
  · exact audits_then trivial (fun _ => audits_reply_then client _ true)

theorem audits_handleWiggleStop (client : Client) (command : CText) :
    Audits J (handleWiggleStop client command) := by
  unfold handleWiggleStop
  split_ifs
  · exact audits_pure false
  refine ((kinds_stopEntries _ 0).audits (by decide)).bind ?_
  rintro ⟨stopped, parseError⟩
  dsimp only
  split_ifs <;> exact audits_reply_then client _ true

theorem audits_handleWiggle (client : Client) (command : CText) :
    Audits J (handleWiggle client command) := by
  unfold handleWiggle
  split_ifs
  · exact audits_pure false
  refine audits_then trivial (fun state => ?_)
  split_ifs
  · exact audits_reply_then client _ true
  refine ((kinds_startEntries _ 0).audits (by decide)).bind ?_
  rintro ⟨started, parseError⟩
  dsimp only
  split_ifs <;> exact audits_reply_then client _ true

theorem audits_handleDrown (client : Client) (text : CText) :
    Audits J (handleDrown client text) := by
  unfold handleDrown
  split_ifs
  · exact audits_pure false
  refine ((kinds_firingSequenceStartDrown client).audits (by decide)).bind (fun rc => ?_)
  split_ifs
  · exact audits_reply_then client _ true
  · exact audits_pure true

theorem audits_handleFire (client : Client) (text : CText) :
    Audits J (handleFire client text) := by
  unfold handleFire
  split_ifs
  · exact audits_pure false
  refine audits_then trivial (fun strdupOk => ?_)
  split
  · exact audits_reply_then client _ true
  refine ((kinds_firingSequenceStart client _ _ _ _).audits (by decide)).bind (fun rc => ?_)
  split_ifs
  · exact audits_reply_then client _ true
  · exact audits_pure true

/-- The handler that sends a frame itself puts it on record before it answers. -/
theorem audits_handleRawCan (client : Client) (text : CText) :
    Audits J (handleRawCan client text) := by
  unfold handleRawCan
  split
  · exact audits_pure false
  rename_i f hparse
  refine ⟨rfl, ?_⟩
  intro result pending hafter
  obtain rfl := Option.some.inj hafter
  cases result with
  | refused error => exact audits_reply_then client _ true
  | sent =>
    refine ⟨Or.inl ⟨_, rfl, rfl, ?_⟩, ?_⟩
    · -- without a duration in the text, the frame has the duration 0
      split_ifs with hduration
      · exact Or.inl rfl
      · exact Or.inr ⟨durationMs_of_parse hparse (Bool.eq_false_of_not_eq_true hduration), rfl⟩
    · intro _ pending hlogged
      obtain rfl := Option.some.inj hlogged
      exact audits_reply_then client _ true

/-- A handler that may take the text, before the ones behind it. -/
theorem Audits.handler {handler : Server Bool} (h : Audits J handler) {rest : Server Unit}
    (hrest : Audits J rest) :
    Audits J (handler >>= fun taken => if taken then pure () else rest) := by
  apply h.bind
  intro taken
  split_ifs
  · exact audits_pure ()
  · exact hrest

theorem audits_commandHandleText (config : AppConfig) (client : Client) (text : CText) :
    Audits J (commandHandleText config client text) := by
  have hhotfire (normalized : CText) : Audits J (hotfireHandlers client normalized) := by
    refine audits_then trivial (fun state => ?_)
    split_ifs
    · exact audits_reply client _
    · apply (audits_handleDrown client normalized).handler
      apply (audits_handleFire client normalized).handler
      exact (audits_handleRawCan client normalized).handler (audits_reply client _)
  apply (audits_handleReadToggle client text).handler
  dsimp only
  split_ifs
  · exact audits_handleTestingCommand client _
  · exact audits_reply client _
  · apply (audits_handleAbort client _).handler
    apply (audits_handleStateCommand client _).handler
    apply (audits_handleSetValve client _).handler
    refine audits_then trivial (fun copied => ?_)
    split_ifs
    · exact audits_reply client _
    · apply (audits_handleWiggleStop client _).handler
      apply (audits_handleWiggle client _).handler
      exact hhotfire _

/-- The text of a message as it is logged. -/
def Call.heard : Call → Option CText
  | .message _ payload => some (payload.takeWhile (· != Char.ofNat 0))
  | _ => none

/-- A call ends with all of its frames on record. -/
theorem audits_call (config : AppConfig) (c : Call)
    (hc : ∀ text, c.heard = some text → J (String.ofList text)) :
    Audits J (c.program config) := by
  cases c with
  | connect client =>
    refine Audits.bind ?_ (fun _ => audits_pure 0)
    refine audits_then trivial (fun allocated => ?_)
    split_ifs
    · exact audits_pure ()
    · exact audits_then trivial (fun _ => audits_then trivial
        (fun _ => audits_then trivial (fun _ => audits_single trivial)))
  | disconnect client => exact audits_then trivial (fun _ => audits_pure 0)
  | message client payload =>
    refine Audits.bind ?_ (fun _ => audits_pure 0)
    refine audits_then trivial (fun copied => ?_)
    split_ifs
    · exact audits_single trivial
    · refine ⟨Or.inr ⟨rfl, rfl, hc _ rfl⟩, ?_⟩
      intro _ pending hafter
      obtain rfl := Option.some.inj hafter
      exact audits_commandHandleText config client _
  | startSequence client blocks started completed failed =>
    exact (kinds_firingSequenceStart client blocks _ _ _).audits (by decide)
  | startDrown client => exact (kinds_firingSequenceStartDrown client).audits (by decide)
  | requestAbort => exact audits_then trivial (fun _ => audits_pure 0)
  | tick => exact audits_then trivial (fun _ => audits_pure 0)

/-! ### The parties of a run -/

def WorkerEvent.entry : WorkerEvent → Option AuditEntry
  | .attempt _ c .sent => some (.sent c)
  | .log kind text => some (.line kind text)
  | _ => none

def Output.entry : Output → Option AuditEntry
  | .event _ e => e.entry
  | .worker _ e => e.entry

/-- What a party has sent and logged, in its order. -/
def entriesOf (i : Party) (os : List Output) : List AuditEntry :=
  (os.filter (fun o => o.author = i)).filterMap Output.entry

/-- The frame that a worker has sent and not yet put on record. -/
def Worker.unrecorded (w : Worker) : Option CanCommand :=
  match w.pc with
  | .logBlock i => some (w.args.config.command i)
  | _ => none

/-- Behind every party is a trail of records that is complete, but for the frame that the party
is about to put on record. -/
structure Audited (J : String → Prop) (s : System) (os : List Output) : Prop where
  threads : ∀ t, ∃ pending, Follows (auditing J) pending (s.threads t) (fun _ g => g = none) ∧
    AuditTrail J pending (entriesOf (.thread t) os)
  workers : ∀ k, AuditTrail J (s.process.workers[k]?.bind Worker.unrecorded)
    (entriesOf (.worker k) os)

theorem entriesOf_append (i : Party) (os os' : List Output) :
    entriesOf i (os ++ os') = entriesOf i os ++ entriesOf i os' := by
  rw [entriesOf, List.filter_append, List.filterMap_append]
  rfl

/-- What the others put out is no concern of a party. -/
theorem entriesOf_append_others {i : Party} {os os' : List Output}
    (h : ∀ o ∈ os', o.author ≠ i) : entriesOf i (os ++ os') = entriesOf i os := by
  have hnone : os'.filter (fun o => o.author = i) = [] :=
    List.filter_eq_nil_iff.mpr (fun o ho => by simpa using h o ho)
  rw [entriesOf, List.filter_append, hnone, List.append_nil]
  rfl

theorem author_events {t : Thread} {i : Party} (hi : i ≠ .thread t) (es : List Event) :
    ∀ o ∈ es.map (Output.event t), o.author ≠ i := by
  intro o ho
  obtain ⟨e, -, rfl⟩ := List.mem_map.mp ho
  exact hi.symm

theorem entriesOf_events (t : Thread) (es : List Event) :
    entriesOf (.thread t) (es.map (.event t)) = es.filterMap Event.entry := by
  have hall : (es.map (Output.event t)).filter (fun o => o.author = Party.thread t) =
      es.map (.event t) := by
    apply List.filter_eq_self.mpr
    intro o ho
    obtain ⟨e, -, rfl⟩ := List.mem_map.mp ho
    exact decide_eq_true rfl
  rw [entriesOf, hall, List.filterMap_map]
  rfl

theorem Audited.call {s : System} {os : List Output} (h : Audited J s os) (t : Thread) (c : Call)
    {v : Int} (hidle : s.threads t = .ret v)
    (hc : ∀ text, c.heard = some text → J (String.ofList text)) :
    Audited J { s with threads := Function.update s.threads t (c.program s.app.config) } os := by
  refine ⟨fun u => ?_, h.workers⟩
  dsimp only
  by_cases hu : u = t
  · subst hu
    obtain ⟨pending, hfollows, htrail⟩ := h.threads u
    rw [hidle] at hfollows
    obtain rfl : pending = none := hfollows
    rw [Function.update_self]
    exact ⟨none, audits_call s.app.config c hc, htrail⟩
  · rw [Function.update_of_ne hu]
    exact h.threads u

theorem Audited.thread {s : System} {os : List Output} (h : Audited J s os) (t : Thread)
    (env : Env) {a : Act} {k : a.Answer → Server Int}
    (hk : s.threads t = Program.act (S := serverSig) a k) :
    Audited J (s.afterAct t env a k)
      (os ++ (perform s.process env a).2.2.map (.event t)) := by
  constructor
  · intro u
    dsimp only [System.afterAct]
    by_cases hu : u = t
    · subst hu
      obtain ⟨pending, hfollows, htrail⟩ := h.threads u
      rw [hk] at hfollows
      obtain ⟨pending', hafter, hgrown⟩ := htrail.perform s.process env hfollows.1
      refine ⟨pending', ?_, ?_⟩
      · rw [Function.update_self]
        exact hfollows.2 _ _ hafter
      · rw [entriesOf_append, entriesOf_events]
        exact hgrown
    · rw [Function.update_of_ne hu,
        entriesOf_append_others (author_events (fun heq => hu (Party.thread.inj heq)) _)]
      exact h.threads u
  · intro j
    rw [entriesOf_append_others (author_events (fun heq => Party.noConfusion heq) _)]
    have hj := h.workers j
    rcases perform_workers_cases s.process env a with ⟨args, -, -, hnew⟩ | ⟨-, hsame⟩
    · rw [System.afterAct, hnew]
      by_cases hlt : j < s.process.workers.length
      · rw [List.getElem?_append_left hlt]
        exact hj
      · -- a new worker has nothing behind it
        rw [List.getElem?_eq_none (not_lt.mp hlt)] at hj
        have hfresh : ((s.process.workers ++ [⟨args, .sendStarted⟩])[j]?).bind
            Worker.unrecorded = none := by
          rw [List.getElem?_append_right (not_lt.mp hlt)]
          cases j - s.process.workers.length <;> rfl
        rw [hfresh]
        exact hj
    · rw [System.afterAct, hsame]
      exact hj

/-- A worker logs a block directly behind the attempt that has succeeded. -/
theorem AuditTrail.worker {args : SequenceWorkerArgs} {x : WorkerInput} {pc mid : WorkerPc}
    {e : WorkerEvent} (hm : WorkerMove args x pc mid e)
    (h : AuditTrail J (Worker.unrecorded ⟨args, pc⟩) es) :
    AuditTrail J (Worker.unrecorded ⟨args, mid⟩) (es ++ e.entry.toList) := by
  have hblocks (i : ℕ) : Worker.unrecorded ⟨args, args.nextBlock i⟩ = none := by
    rw [SequenceWorkerArgs.nextBlock]
    split_ifs <;> rfl
  cases hm with
  | sent i a hsent => exact .sent h _
  | logged i =>
    rw [hblocks]
    exact .record h (Or.inl rfl)
  | start =>
    rw [hblocks]
    exact h.append .nil
  | _ => exact h.append .nil

theorem Audited.worker {s : System} {os : List Output} (h : Audited J s os) {k : ℕ} (env : Env)
    {args : SequenceWorkerArgs} {pc mid : WorkerPc} {e : WorkerEvent}
    (hw : s.process.workers[k]? = some ⟨args, pc⟩)
    (hm : WorkerMove args (workerInput s.app env) pc mid e) :
    Audited J (s.afterWorker k args mid e) (os ++ [.worker k e]) := by
  constructor
  · intro t
    rw [entriesOf_append_others (i := .thread t)]
    · exact h.threads t
    · intro o ho
      rw [List.mem_singleton.mp ho]
      exact fun heq => Party.noConfusion heq
  · intro j
    by_cases hj : j = k
    · subst hj
      have hlt : j < s.process.workers.length := (List.getElem?_eq_some_iff.mp hw).1
      have hentry : entriesOf (.worker j) [.worker j e] = e.entry.toList := by
        simp [entriesOf, Output.author, Output.entry, List.filterMap_cons]
        cases e.entry <;> rfl
      have hj := h.workers j
      rw [hw] at hj
      rw [System.afterWorker, entriesOf_append, hentry, List.getElem?_set_self hlt]
      exact AuditTrail.worker hm hj
    · rw [System.afterWorker, List.getElem?_set_ne (Ne.symm hj), entriesOf_append_others]
      · exact h.workers j
      · intro o ho
        rw [List.mem_singleton.mp ho]
        exact fun heq => hj (Party.worker.inj heq).symm

def Label.heard (l : Label) : Option CText := l.call.bind Call.heard

theorem audited_step {s s' : System} {l : Label} {os os' : List Output} (h : Audited J s os)
    (hl : ∀ text, l.heard = some text → J (String.ofList text))
    (hstep : server.step s l = some (s', os')) : Audited J s' (os ++ os') := by
  obtain ⟨actor, env⟩ := l
  have hmove := system_move hstep
  cases hmove with
  | call t c v hidle =>
    rw [List.append_nil]
    exact h.call t c hidle hl
  | thread t a k hk => exact h.thread t env hk
  | worker k args pc mid e hw hm => exact h.worker env hw hm
  | signal =>
    rw [List.append_nil]
    exact ⟨h.threads, h.workers⟩

theorem audited_initial (config : AppConfig) (canFd : Int) :
    Audited J (System.initial config canFd) [] :=
  ⟨fun _ => ⟨none, rfl, .nil⟩, fun _ => .nil⟩

/-- The run lemma. -/
theorem audited_run {config : AppConfig} {canFd : Int} {ls : List Label} {s : System}
    {os : List Output} (hls : ∀ l ∈ ls, ∀ text, l.heard = some text → J (String.ofList text))
    (hrun : server.run (System.initial config canFd) ls = some (s, os)) : Audited J s os := by
  have h := Machine.outputs_invariant (I := fun os s => Audited J s os)
    (C := fun l => ∀ text, l.heard = some text → J (String.ofList text))
    (fun _ _ _ _ hs hl hstep => audited_step hs hl hstep) (audited_initial config canFd) hls hrun
  rw [List.nil_append] at h
  exact h

/-! ### Frames and records -/

/-- The record that a party writes in its next step. -/
def System.nextRecord (s : System) : Party → Option CText
  | .thread t =>
    match s.threads t with
    | .act (.log kind text) _ => (AuditEntry.line kind text).record
    | _ => none
  | .worker k =>
    (s.process.workers[k]?.bind Worker.unrecorded).map fun c => (formatCanCommand c).toList
  | .signal => none

/-- A thread that has a frame to put on record does so next. -/
theorem nextRecord_thread {s : System} {t : Thread}
    (h : Follows (auditing J) pending (s.threads t) (fun _ g => g = none)) :
    (s.nextRecord (.thread t)).toList.map readRecord = pending.toList.map some := by
  simp only [System.nextRecord]
  split
  · rename_i kind text k heq
    rw [heq] at h
    rcases h.1 with ⟨c, rfl, rfl, ht⟩ | ⟨rfl, rfl, -⟩
    · exact congrArg (fun r => [r]) ht.reads
    · rfl
  · rename_i hother
    obtain rfl : pending = none := by
      cases hp : s.threads t with
      | ret v =>
        rw [hp] at h
        exact h
      | act a k =>
        rw [hp] at h
        cases a with
        | log kind text => exact absurd hp (hother kind text k)
        | _ => exact h.1
    rfl

/-- What a party has on record, and the record that it is about to write, read back as the
frames that it has got onto the bus. -/
theorem Audited.records {s : System} {os : List Output} (h : Audited J s os) (i : Party) :
    ((entriesOf i os).filterMap AuditEntry.record ++ (s.nextRecord i).toList).map readRecord =
      ((entriesOf i os).filterMap AuditEntry.frame).map some := by
  rw [List.map_append]
  cases i with
  | thread t =>
    obtain ⟨pending, hfollows, htrail⟩ := h.threads t
    rw [nextRecord_thread hfollows]
    exact htrail.reads
  | worker k =>
    rw [← (h.workers k).reads, System.nextRecord]
    cases s.process.workers[k]?.bind Worker.unrecorded with
    | none => rfl
    | some c => exact congrArg (fun r => _ ++ [r]) (IsRecord.reads (Or.inl rfl))
  | signal =>
    have hnobody : entriesOf .signal os = [] := by
      have hnone : os.filter (fun o => o.author = Party.signal) = [] := by
        apply List.filter_eq_nil_iff.mpr
        intro o _
        cases o <;> exact of_decide_eq_false rfl
      rw [entriesOf, hnone]
      rfl
    rw [hnobody]
    rfl

end WsServer
