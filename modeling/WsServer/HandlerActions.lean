import WsServer.System

/-! Which atomic actions the handlers may perform, whatever the answers they get. The
protocols that follow need no more of most handlers than this. -/
namespace WsServer
open Interaction Program

/-- What an action is about. -/
inductive ActKind where
  | chat
  | registry
  | abort
  | stopAll
  | drop
  | getState
  | storeState
  | start
  | stop
  | tick
  | valve
  | profile
  | sequence
  | can
  deriving DecidableEq, Repr

def Act.kind : Act → ActKind
  | .clientContext _ | .setWriteOnly _ _ | .allocate | .log _ _ | .sendText _ _
  | .broadcast _ => .chat
  | .registerClient _ | .unregisterClient _ => .registry
  | .requestAbort => .abort
  | .wiggleStopAll true => .stopAll
  | .wiggleStopAll false => .drop
  | .getState => .getState
  | .storeState _ => .storeState
  | .wiggleStart _ => .start
  | .wiggleStop _ => .stop
  | .wiggleProcess => .tick
  | .setValve _ _ => .valve
  | .readProfile => .profile
  | .claimSequence | .callocArgs | .createWorker _ | .finishSequence => .sequence
  | .canSend _ => .can

/-- The program performs only actions of these kinds. -/
def Kinds (ks : List ActKind) {β : Type} (p : Server β) : Prop :=
  Performs (S := serverSig) (fun a => a.kind ∈ ks) p

variable {β : Type} {ks : List ActKind}

theorem Kinds.mono {ks' : List ActKind} {p : Server β} (h : Kinds ks p)
    (hks : ∀ k ∈ ks, k ∈ ks') : Kinds ks' p :=
  Performs.mono h (fun a ha => hks a.kind ha)

theorem Kinds.bind {β' : Type} {p : Server β'} {f : β' → Server β} (h : Kinds ks p)
    (hf : ∀ v, Kinds ks (f v)) : Kinds ks (p >>= f) := Performs.bind h hf

theorem kinds_pure (v : β) : Kinds ks (pure v : Server β) := trivial

theorem kinds_single {a : Act} (k : ActKind) (ha : a.kind = k) (hk : k ∈ ks) :
    Kinds ks (act a) := ⟨(ha ▸ hk : a.kind ∈ ks), fun _ => trivial⟩

theorem kinds_then {a : Act} {f : a.Answer → Server β} (k : ActKind) (ha : a.kind = k)
    (hk : k ∈ ks) (hf : ∀ r, Kinds ks (f r)) : Kinds ks (act a >>= f) :=
  ⟨(ha ▸ hk : a.kind ∈ ks), hf⟩

/-! ### The kinds of each handler -/

theorem kinds_sendReply (hks : .chat ∈ ks) (client : Client) (msg : String) :
    Kinds ks (sendReply client msg) := kinds_single .chat rfl hks

/-- A reply ends most branches of the handlers. -/
theorem kinds_reply_then (hks : .chat ∈ ks) (client : Client) (msg : String) (v : β) :
    Kinds ks (do sendReply client msg; pure v : Server β) :=
  (kinds_sendReply hks client msg).bind (fun _ => kinds_pure v)

theorem kinds_wiggleStopAll : Kinds [.chat, .stopAll] (wiggleStopAll true) := by
  refine kinds_then .stopAll rfl (by decide) (fun stopped => ?_)
  split_ifs
  · exact kinds_single .chat rfl (by decide)
  · exact kinds_pure ()

theorem kinds_handleReadToggle (client : Client) (text : CText) :
    Kinds [.chat] (handleReadToggle client text) := by
  refine kinds_then .chat rfl (by decide) (fun ctx => ?_)
  split_ifs
  · exact kinds_pure false
  · exact kinds_then .chat rfl (by decide) (fun _ => kinds_reply_then (by decide) client _ true)
  · exact kinds_then .chat rfl (by decide) (fun _ => kinds_reply_then (by decide) client _ true)
  · exact kinds_pure false

theorem kinds_handleTestingCommand (client : Client) (normalized : CText) :
    Kinds [.chat] (handleTestingCommand client normalized) := by
  have hreply (msg : String) : Kinds [.chat] (sendReply client msg) :=
    kinds_sendReply (by decide) client msg
  unfold handleTestingCommand
  split
  · exact hreply _
  refine kinds_then .chat rfl (by decide) (fun copied => ?_)
  split_ifs
  · exact hreply _
  split
  · exact hreply _
  split
  · exact hreply _
  · exact kinds_then .chat rfl (by decide) (fun _ => hreply _)

theorem kinds_handleAbort (client : Client) (text : CText) :
    Kinds [.chat, .abort, .stopAll] (handleAbort client text) := by
  unfold handleAbort
  split_ifs
  · exact kinds_pure false
  · refine kinds_then .abort rfl (by decide) (fun _ => ?_)
    exact (kinds_wiggleStopAll.mono (by decide)).bind
      (fun _ => kinds_reply_then (by decide) client _ true)

theorem kinds_appStateSet (state : AppState) :
    Kinds [.chat, .stopAll, .getState, .storeState] (appStateSet state) := by
  refine kinds_then .storeState rfl (by decide) (fun changed => ?_)
  have hrest : Kinds [.chat, .stopAll, .getState, .storeState]
      (do appStateBroadcast; pure changed : Server Bool) :=
    kinds_then .getState rfl (by decide)
      (fun _ => kinds_then .chat rfl (by decide) (fun _ => kinds_pure changed))
  dsimp only
  split_ifs
  · exact (kinds_wiggleStopAll.mono (by decide)).bind (fun _ => hrest)
  · exact hrest

theorem kinds_handleStateCommand (client : Client) (text : CText) :
    Kinds [.chat, .stopAll, .getState, .storeState] (handleStateCommand client text) := by
  have hreply (msg : String) : Kinds [.chat, .stopAll, .getState, .storeState]
      (do sendReply client msg; pure true : Server Bool) :=
    kinds_reply_then (by decide) client msg true
  unfold handleStateCommand
  split_ifs
  · exact kinds_pure false
  · exact (kinds_appStateSet _).bind (fun _ => hreply _)
  · exact (kinds_appStateSet _).bind (fun _ => hreply _)
  · exact hreply _

theorem kinds_handleSetValve (client : Client) (text : CText) :
    Kinds [.chat, .valve] (handleSetValve client text) := by
  have hreply (msg : String) :
      Kinds [.chat, .valve] (do sendReply client msg; pure true : Server Bool) :=
    kinds_reply_then (by decide) client msg true
  unfold handleSetValve
  split_ifs
  · exact kinds_pure false
  cases scanSetValve text with
  | none => exact hreply _
  | some scanned =>
    obtain ⟨name, value⟩ := scanned
    dsimp only
    cases valveFieldOf name with
    | none => exact hreply _
    | some found =>
      dsimp only
      split_ifs
      · exact hreply _
      · exact kinds_then .valve rfl (by decide) (fun _ => hreply _)

theorem kinds_stopEntries (tokens : List CText) (stopped : ℕ) :
    Kinds [.stop] (stopEntries tokens stopped) := by
  induction tokens generalizing stopped with
  | nil => exact kinds_pure _
  | cons token rest ih =>
    unfold stopEntries
    cases scanWiggleStop token with
    | none => exact kinds_pure _
    | some found => exact kinds_then .stop rfl (by decide) (fun _ => ih _)

theorem kinds_handleWiggleStop (client : Client) (command : CText) :
    Kinds [.chat, .stop] (handleWiggleStop client command) := by
  unfold handleWiggleStop
  split_ifs
  · exact kinds_pure false
  · refine ((kinds_stopEntries _ 0).mono (by decide)).bind ?_
    rintro ⟨stopped, parseError⟩
    dsimp only
    split_ifs <;> exact kinds_reply_then (by decide) client _ true

theorem kinds_startEntries (tokens : List CText) (started : ℕ) :
    Kinds [.start] (startEntries tokens started) := by
  induction tokens generalizing started with
  | nil => exact kinds_pure _
  | cons token rest ih =>
    unfold startEntries
    cases scanWiggle token with
    | none => exact kinds_pure _
    | some r =>
      have hstart : Kinds [.start] (wiggleStart r) := by
        unfold wiggleStart
        split_ifs
        · exact kinds_pure _
        · exact kinds_single .start rfl (by decide)
      refine hstart.bind (fun rc => ?_)
      split_ifs
      · exact kinds_pure _
      · exact ih _

theorem kinds_handleWiggle (client : Client) (command : CText) :
    Kinds [.chat, .getState, .start] (handleWiggle client command) := by
  have hreply (msg : String) :
      Kinds [.chat, .getState, .start] (do sendReply client msg; pure true : Server Bool) :=
    kinds_reply_then (by decide) client msg true
  unfold handleWiggle
  split_ifs
  · exact kinds_pure false
  refine kinds_then .getState rfl (by decide) (fun state => ?_)
  split_ifs
  · exact hreply _
  refine ((kinds_startEntries _ 0).mono (by decide)).bind ?_
  rintro ⟨started, parseError⟩
  dsimp only
  split_ifs <;> exact hreply _

theorem kinds_handleRawCan (client : Client) (text : CText) :
    Kinds [.chat, .can] (handleRawCan client text) := by
  have hreply (msg : String) :
      Kinds [.chat, .can] (do sendReply client msg; pure true : Server Bool) :=
    kinds_reply_then (by decide) client msg true
  unfold handleRawCan
  cases parseRawCanFields text with
  | none => exact kinds_pure false
  | some f =>
    refine kinds_then .can rfl (by decide) (fun result => ?_)
    cases result with
    | sent => exact kinds_then .chat rfl (by decide) (fun _ => hreply _)
    | refused error => exact hreply _

theorem kinds_firingSequenceStart (client : Client) (config : FiringSequenceConfig)
    (startedMessage completedMessage failedMessage : Option String) :
    Kinds [.sequence]
      (firingSequenceStart client config startedMessage completedMessage failedMessage) := by
  have hrelease : Kinds [.sequence] (do act .finishSequence; pure (-1) : Server Int) :=
    kinds_then .sequence rfl (by decide) (fun _ => kinds_pure _)
  unfold firingSequenceStart
  split_ifs
  · exact kinds_pure _
  refine kinds_then .sequence rfl (by decide) (fun claimed => ?_)
  split_ifs
  · exact kinds_pure _
  refine kinds_then .sequence rfl (by decide) (fun allocated => ?_)
  split_ifs
  · exact hrelease
  refine kinds_then .sequence rfl (by decide) (fun created => ?_)
  split_ifs
  · exact hrelease
  · exact kinds_pure _

theorem kinds_firingSequenceStartDrown (client : Client) :
    Kinds [.profile, .sequence] (firingSequenceStartDrown client) := by
  refine kinds_then .profile rfl (by decide) (fun checked => ?_)
  split_ifs
  · exact kinds_pure _
  · exact kinds_then .profile rfl (by decide)
      (fun profile => (kinds_firingSequenceStart client _ _ _ _).mono (by decide))

theorem kinds_handleDrown (client : Client) (text : CText) :
    Kinds [.chat, .profile, .sequence] (handleDrown client text) := by
  unfold handleDrown
  split_ifs
  · exact kinds_pure false
  refine ((kinds_firingSequenceStartDrown client).mono (by decide)).bind (fun rc => ?_)
  split_ifs
  · exact kinds_reply_then (by decide) client _ true
  · exact kinds_pure true

theorem kinds_handleFire (client : Client) (text : CText) :
    Kinds [.chat, .sequence] (handleFire client text) := by
  unfold handleFire
  split_ifs
  · exact kinds_pure false
  refine kinds_then .chat rfl (by decide) (fun strdupOk => ?_)
  cases firingSequenceParse strdupOk text with
  | none => exact kinds_reply_then (by decide) client _ true
  | some config =>
    refine ((kinds_firingSequenceStart client config _ _ _).mono (by decide)).bind (fun rc => ?_)
    split_ifs
    · exact kinds_reply_then (by decide) client _ true
    · exact kinds_pure true

theorem kinds_onConnect (client : Client) :
    Kinds [.chat, .registry, .getState] (onConnect client) := by
  refine kinds_then .chat rfl (by decide) (fun allocated => ?_)
  split_ifs
  · exact kinds_pure ()
  · refine kinds_then .registry rfl (by decide) (fun _ => ?_)
    exact kinds_then .chat rfl (by decide)
      (fun _ => kinds_then .getState rfl (by decide) (fun _ => kinds_single .chat rfl (by decide)))

/-! ### What the protocols need -/

/-- The actions between the test-and-set of `firing_sequence_start` and its end. -/
def Act.Sequence : Act → Prop
  | .claimSequence | .callocArgs | .createWorker _ | .finishSequence => True
  | _ => False

/-- The actions that read or store the state, or that need one. -/
def Act.Mode : Act → Prop
  | .getState | .storeState _ | .wiggleStart _ => True
  | _ => False

def Act.IsWiggleStart : Act → Prop
  | .wiggleStart _ => True
  | _ => False

def Act.NoSequence (a : Act) : Prop := ¬ a.Sequence
def Act.NoMode (a : Act) : Prop := ¬ a.Mode
def Act.Plain (a : Act) : Prop := a.NoSequence ∧ a.NoMode

/-- The plain actions that need no number. -/
def Act.Talk : Act → Prop
  | .clientContext _ | .setWriteOnly _ _ | .wiggleStopAll _ | .allocate | .requestAbort
  | .log _ _ | .sendText _ _ | .broadcast _ => True
  | _ => False

/-- The actions of a handler that changes the state. -/
def Act.StateTalk : Act → Prop
  | .getState | .storeState _ => True
  | a => a.Talk

theorem stateTalk_of_talk {a : Act} (h : a.Talk) : a.StateTalk := by
  cases a <;> first | exact h | trivial

theorem talk_of_kind {a : Act} (h : a.kind ∈ [ActKind.chat, .abort, .stopAll]) : a.Talk := by
  revert h
  fun_cases Act.kind a <;> first | exact fun _ => trivial | exact fun h => absurd h (by decide)

theorem stateTalk_of_kind {a : Act}
    (h : a.kind ∈ [ActKind.chat, .stopAll, .getState, .storeState]) : a.StateTalk := by
  revert h
  fun_cases Act.kind a <;> first | exact fun _ => trivial | exact fun h => absurd h (by decide)

theorem noSequence_of_kind {a : Act} (h : a.kind ≠ .sequence) : a.NoSequence := by
  cases a <;> first | exact id | exact absurd rfl h

theorem noMode_of_kind {a : Act}
    (h : a.kind ∉ [ActKind.getState, .storeState, .start]) : a.NoMode := by
  revert h
  fun_cases Act.kind a <;> first | exact fun _ => id | exact fun h => absurd (by decide) h

theorem isWiggleStart_of_kind {a : Act} (h : a.kind ∈ [ActKind.start]) : a.IsWiggleStart := by
  revert h
  fun_cases Act.kind a <;> first | exact fun _ => trivial | exact fun h => absurd h (by decide)

/-- None of the kinds starts a sequence. -/
theorem Kinds.noSequence {p : Server β} (h : Kinds ks p) (hks : .sequence ∉ ks) :
    Performs Act.NoSequence p :=
  Performs.mono h (fun _ ha => noSequence_of_kind (fun heq => hks (heq ▸ ha)))

/-- None of the kinds has to do with the state. -/
theorem Kinds.noMode {p : Server β} (h : Kinds ks p)
    (hks : ∀ k ∈ ks, k ∉ [ActKind.getState, .storeState, .start]) : Performs Act.NoMode p :=
  Performs.mono h (fun a ha => noMode_of_kind (hks a.kind ha))

theorem Kinds.plain {p : Server β} (h : Kinds ks p)
    (hks : ∀ k ∈ ks, k ∉ [ActKind.getState, .storeState, .start, .sequence]) :
    Performs Act.Plain p := by
  refine Performs.mono h (fun a ha => ⟨noSequence_of_kind ?_, noMode_of_kind ?_⟩)
  · intro heq
    exact hks a.kind ha (by rw [heq]; decide)
  · intro hmem
    refine hks a.kind ha ?_
    simp only [List.mem_cons, List.not_mem_nil, or_false] at hmem ⊢
    tauto

variable {A : Act → Prop}

theorem performs_pure (v : β) : Performs A (pure v : Server β) := trivial

theorem performs_single {a : Act} (ha : A a) : Performs A (act a) := ⟨ha, fun _ => trivial⟩

theorem performs_then {a : Act} {f : a.Answer → Server β} (ha : A a)
    (hf : ∀ r, Performs A (f r)) : Performs A (act a >>= f) := ⟨ha, hf⟩

theorem talk_sendReply (client : Client) (msg : String) :
    Performs Act.Talk (sendReply client msg) := performs_single trivial

theorem talk_handleReadToggle (client : Client) (text : CText) :
    Performs Act.Talk (handleReadToggle client text) :=
  Performs.mono ((kinds_handleReadToggle client text).mono (by decide)) (fun _ => talk_of_kind)

theorem talk_handleAbort (client : Client) (text : CText) :
    Performs Act.Talk (handleAbort client text) :=
  Performs.mono (kinds_handleAbort client text) (fun _ => talk_of_kind)

theorem talk_handleTestingCommand (client : Client) (normalized : CText) :
    Performs Act.Talk (handleTestingCommand client normalized) :=
  Performs.mono ((kinds_handleTestingCommand client normalized).mono (by decide))
    (fun _ => talk_of_kind)

theorem stateTalk_handleStateCommand (client : Client) (text : CText) :
    Performs Act.StateTalk (handleStateCommand client text) :=
  Performs.mono (kinds_handleStateCommand client text) (fun _ => stateTalk_of_kind)

theorem performs_sendReply (client : Client) (msg : String) :
    Performs Act.Plain (sendReply client msg) := performs_single ⟨id, id⟩

theorem performs_reply_then (client : Client) (msg : String) (v : β) :
    Performs Act.Plain (do sendReply client msg; pure v : Server β) :=
  (performs_sendReply client msg).bind (fun _ => trivial)

theorem performs_handleSetValve (client : Client) (text : CText) :
    Performs Act.Plain (handleSetValve client text) :=
  (kinds_handleSetValve client text).plain (by decide)

theorem performs_handleReadToggle (client : Client) (text : CText) :
    Performs Act.Plain (handleReadToggle client text) :=
  (kinds_handleReadToggle client text).plain (by decide)

theorem performs_handleAbort (client : Client) (text : CText) :
    Performs Act.Plain (handleAbort client text) :=
  (kinds_handleAbort client text).plain (by decide)

theorem performs_handleTestingCommand (client : Client) (normalized : CText) :
    Performs Act.Plain (handleTestingCommand client normalized) :=
  (kinds_handleTestingCommand client normalized).plain (by decide)

theorem performs_handleWiggleStop (client : Client) (command : CText) :
    Performs Act.Plain (handleWiggleStop client command) :=
  (kinds_handleWiggleStop client command).plain (by decide)

theorem performs_handleRawCan (client : Client) (text : CText) :
    Performs Act.Plain (handleRawCan client text) :=
  (kinds_handleRawCan client text).plain (by decide)

theorem performs_handleStateCommand (client : Client) (text : CText) :
    Performs Act.NoSequence (handleStateCommand client text) :=
  (kinds_handleStateCommand client text).noSequence (by decide)

theorem performs_startEntries (tokens : List CText) (started : ℕ) :
    Performs Act.IsWiggleStart (startEntries tokens started) :=
  Performs.mono (kinds_startEntries tokens started) (fun _ => isWiggleStart_of_kind)

theorem performs_handleWiggle (client : Client) (command : CText) :
    Performs Act.NoSequence (handleWiggle client command) :=
  (kinds_handleWiggle client command).noSequence (by decide)

theorem performs_onConnect (client : Client) :
    Performs Act.NoSequence (onConnect client) :=
  (kinds_onConnect client).noSequence (by decide)

theorem performs_handleDrown (client : Client) (text : CText) :
    Performs Act.NoMode (handleDrown client text) :=
  (kinds_handleDrown client text).noMode (by decide)

theorem performs_handleFire (client : Client) (text : CText) :
    Performs Act.NoMode (handleFire client text) :=
  (kinds_handleFire client text).noMode (by decide)

/-! ### The workers that are created -/

/-- The worker, where the action creates one, gets such arguments. -/
def Act.CreatesOnly (W : SequenceWorkerArgs → Prop) : Act → Prop
  | .createWorker args => W args
  | _ => True

variable {W : SequenceWorkerArgs → Prop}

theorem createsOnly_reply_then (client : Client) (msg : String) (v : β) :
    Performs (Act.CreatesOnly W) (do sendReply client msg; pure v : Server β) :=
  performs_then trivial (fun _ => performs_pure v)

theorem createsOnly_firingSequenceStart (client : Client) (config : FiringSequenceConfig)
    (started completed failed : Option String)
    (hW : W ⟨client, config, Printf.truncated 160 (started.getD "Firing sequence started"),
      Printf.truncated 128 (completed.getD "Firing sequence completed"),
      Printf.truncated 128 (failed.getD "Firing sequence failed to start")⟩) :
    Performs (Act.CreatesOnly W) (firingSequenceStart client config started completed failed) := by
  unfold firingSequenceStart
  split_ifs
  · exact performs_pure _
  apply performs_then trivial
  intro claimed
  split_ifs
  · exact performs_pure _
  apply performs_then trivial
  intro allocated
  split_ifs
  · exact performs_then trivial (fun _ => performs_pure _)
  apply performs_then hW
  intro created
  split_ifs
  · exact performs_then trivial (fun _ => performs_pure _)
  · exact performs_pure _

end WsServer
