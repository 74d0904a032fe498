import WsServer.TokenReading
import WsServer.WsBridge
import WsServer.Base.Guided

/-! What a call may do, read off its text: whom it answers, what it announces to all, and
which numbers it hands on to the bus, the wiggles and the firing workers. -/
namespace WsServer
open Interaction Program

/-- The two texts that the server announces to every reading client. -/
def IsAnnouncement (text : String) : Prop :=
  (∃ state, text = "State has been set to " ++ appStateLabel state) ∨
    ∃ stopped : ℕ, text = "Stopped " ++ toString stopped ++ " active wiggle(s)"

/-- What is done in the name of a client has to do with that client only, and a broadcast is
one of the two announcements. -/
def Act.Within (client : Option Client) : Act → Prop
  | .registerClient c | .unregisterClient c | .clientContext c | .setWriteOnly c _
  | .sendText c _ => client = some c
  | .createWorker args => client = some args.client
  | .broadcast text => IsAnnouncement text
  | _ => True

/-- The client that a call is made for; the tick of the timer and an abort request have
none. -/
def Call.client : Call → Option Client
  | .connect c | .disconnect c | .message c _ | .startSequence c _ _ _ _ | .startDrown c => some c
  | .requestAbort | .tick => none

/-- What every handler does whose work is shared by the dispatcher. -/
structure HandlersGuided (G : ∀ a : Act, a.Answer → Prop) (A : Act → Prop) (client : Client)
    (text : CText) : Prop where
  abort : Guided (S := serverSig) G A (handleAbort client text)
  state : Guided (S := serverSig) G A (handleStateCommand client text)
  setValve : Guided (S := serverSig) G A (handleSetValve client text)
  wiggleStop : Guided (S := serverSig) G A (handleWiggleStop client text)
  wiggle : Guided (S := serverSig) G A (handleWiggle client text)
  drown : Guided (S := serverSig) G A (handleDrown client text)
  fire : Guided (S := serverSig) G A (handleFire client text)
  rawCan : Guided (S := serverSig) G A (handleRawCan client text)

/-- What the dispatcher does by itself: it asks for memory and the state, and replies. -/
structure DispatchGuided (A : Act → Prop) (client : Client) : Prop where
  allocate : A .allocate
  getState : A .getState
  reply : ∀ msg, A (.sendText client msg)

section Dispatch
variable {G : ∀ a : Act, a.Answer → Prop} {A : Act → Prop} {client : Client} {text : CText}

theorem DispatchGuided.hotfireHandlers (hA : DispatchGuided A client)
    (h : HandlersGuided G A client text) :
    Guided (S := serverSig) G A (hotfireHandlers client text) := by
  refine guided_then hA.getState (fun state _ => ?_)
  split_ifs
  · exact guided_single (hA.reply _)
  refine h.drown.bind (fun drown => ?_)
  split_ifs
  · trivial
  refine h.fire.bind (fun fire => ?_)
  split_ifs
  · trivial
  refine h.rawCan.bind (fun raw => ?_)
  split_ifs
  · trivial
  · exact guided_single (hA.reply _)

theorem DispatchGuided.copyHandlers (hA : DispatchGuided A client)
    (h : HandlersGuided G A client text) :
    Guided (S := serverSig) G A (copyHandlers client text) := by
  refine guided_then hA.allocate (fun copied _ => ?_)
  split_ifs
  · exact guided_single (hA.reply _)
  refine h.wiggleStop.bind (fun wiggleStop => ?_)
  split_ifs
  · trivial
  refine h.wiggle.bind (fun wiggle => ?_)
  split_ifs
  · trivial
  · exact hA.hotfireHandlers h

/-- The dispatcher does what its handlers do, those of the mode that it is in. -/
theorem DispatchGuided.commandHandleText {config : AppConfig} (hA : DispatchGuided A client)
    (htoggle : Guided (S := serverSig) G A (handleReadToggle client text))
    (htesting : config.testingMode = true →
      Guided (S := serverSig) G A (handleTestingCommand client (stripCanPrefix text)))
    (hreal : config.testingMode = false → config.readOnly = false →
      HandlersGuided G A client (stripCanPrefix text)) :
    Guided (S := serverSig) G A (commandHandleText config client text) := by
  refine htoggle.bind (fun toggled => ?_)
  dsimp only
  split_ifs with htoggled hmode hread
  · trivial
  · exact htesting hmode
  · exact guided_single (hA.reply _)
  have h := hreal ((Bool.not_eq_true _).mp hmode) ((Bool.not_eq_true _).mp hread)
  refine h.abort.bind (fun abort => ?_)
  split_ifs
  · trivial
  refine h.state.bind (fun state => ?_)
  split_ifs
  · trivial
  refine h.setValve.bind (fun setValve => ?_)
  split_ifs
  · trivial
  · exact hA.copyHandlers h

/-- A text frame of a client is logged and handed to the dispatcher. -/
theorem DispatchGuided.onMessage {config : AppConfig} {payload : CText}
    (hA : DispatchGuided A client) (hlog : ∀ line, A (.log "WS_RX" line))
    (h : Guided (S := serverSig) G A
      (WsServer.commandHandleText config client (payload.takeWhile (· != Char.ofNat 0)))) :
    Guided (S := serverSig) G A (onMessage config client payload) := by
  refine guided_then hA.allocate (fun copied _ => ?_)
  split_ifs
  · exact guided_single (hA.reply _)
  · exact guided_then (hlog _) (fun _ _ => h)

end Dispatch

/-! ### In the name of a client -/

section Within
variable {G : ∀ a : Act, a.Answer → Prop} {client : Client} {β : Type}

theorem within_of_kind {a : Act} (h : a.kind ∉ [ActKind.chat, .registry, .sequence]) :
    a.Within (some client) := by
  revert h
  fun_cases Act.kind a <;> first | exact fun _ => trivial | exact fun h => absurd (by decide) h

theorem within_of_kinds {ks : List ActKind} {p : Server β} (h : Kinds ks p)
    (hks : ∀ k ∈ ks, k ∉ [ActKind.chat, .registry, .sequence]) :
    Performs (Act.Within (some client)) p :=
  Performs.mono h (fun a ha => within_of_kind (hks a.kind ha))

theorem within_reply (client : Client) (msg : String) :
    Performs (Act.Within (some client)) (sendReply client msg) := performs_single rfl

theorem within_reply_then (client : Client) (msg : String) (v : β) :
    Performs (Act.Within (some client)) (do sendReply client msg; pure v : Server β) :=
  (within_reply client msg).bind (fun _ => trivial)

theorem within_wiggleStopAll (client : Client) (sendExitValue : Bool) :
    Performs (Act.Within (some client)) (wiggleStopAll sendExitValue) := by
  refine performs_then trivial (fun stopped => ?_)
  split_ifs
  · exact performs_single (Or.inr ⟨stopped, rfl⟩)
  · trivial

theorem within_appStateSet (client : Client) (state : AppState) :
    Performs (Act.Within (some client)) (appStateSet state) := by
  have hbroadcast : Performs (Act.Within (some client)) appStateBroadcast :=
    performs_then trivial (fun state => performs_single (Or.inl ⟨state, rfl⟩))
  refine performs_then trivial (fun changed => ?_)
  dsimp only
  split_ifs
  · exact (within_wiggleStopAll client true).bind
      (fun _ => hbroadcast.bind (fun _ => performs_pure changed))
  · exact hbroadcast.bind (fun _ => performs_pure changed)

theorem within_handleReadToggle (client : Client) (text : CText) :
    Performs (Act.Within (some client)) (handleReadToggle client text) := by
  refine performs_then rfl (fun ctx => ?_)
  split_ifs
  · trivial
  · exact performs_then rfl (fun _ => within_reply_then client _ true)
  · exact performs_then rfl (fun _ => within_reply_then client _ true)
  · trivial

theorem within_handleTestingCommand (client : Client) (normalized : CText) :
    Performs (Act.Within (some client)) (handleTestingCommand client normalized) := by
  unfold handleTestingCommand
  split
  · exact within_reply client _
  refine performs_then trivial (fun copied => ?_)
  split_ifs
  · exact within_reply client _
  split
  · exact within_reply client _
  split
  · exact within_reply client _
  · exact performs_then trivial (fun _ => within_reply client _)

theorem within_firingSequenceStart (client : Client) (config : FiringSequenceConfig)
    (started completed failed : Option String) :
    Performs (Act.Within (some client))
      (firingSequenceStart client config started completed failed) := by
  have hrelease : Performs (Act.Within (some client)) (do act .finishSequence; pure (-1) : Server Int) :=
    performs_then trivial (fun _ => trivial)
  unfold firingSequenceStart
  split_ifs
  · trivial
  refine performs_then trivial (fun claimed => ?_)
  split_ifs
  · trivial
  refine performs_then trivial (fun allocated => ?_)
  split_ifs
  · exact hrelease
  refine performs_then rfl (fun created => ?_)
  split_ifs
  · exact hrelease
  · trivial

theorem within_firingSequenceStartDrown (client : Client) :
    Performs (Act.Within (some client)) (firingSequenceStartDrown client) := by
  refine performs_then trivial (fun checked => ?_)
  split_ifs
  · trivial
  · exact performs_then trivial (fun profile => within_firingSequenceStart client _ _ _ _)

/-- The handlers answer the client that they are called for, and no other. -/
theorem within_handlers (client : Client) (text : CText) :
    HandlersGuided G (Act.Within (some client)) client text where
  abort := by
    apply Performs.guided
    unfold handleAbort
    split_ifs
    · trivial
    · exact performs_then trivial (fun _ => (within_wiggleStopAll client true).bind
        (fun _ => within_reply_then client _ true))
  state := by
    apply Performs.guided
    unfold handleStateCommand
    split_ifs
    · trivial
    · exact (within_appStateSet client _).bind (fun _ => within_reply_then client _ true)
    · exact (within_appStateSet client _).bind (fun _ => within_reply_then client _ true)
    · exact within_reply_then client _ true
  setValve := by
    apply Performs.guided
    unfold handleSetValve
    split_ifs
    · trivial
    split
    · exact within_reply_then client _ true
    split
    · exact within_reply_then client _ true
    split_ifs
    · exact within_reply_then client _ true
    · exact performs_then trivial (fun _ => within_reply_then client _ true)
  wiggleStop := by
    apply Performs.guided
    unfold handleWiggleStop
    split_ifs
    · trivial
    refine (within_of_kinds (kinds_stopEntries _ 0) (by decide)).bind ?_
    rintro ⟨stopped, parseError⟩
    dsimp only
    split_ifs <;> exact within_reply_then client _ true
  wiggle := by
    apply Performs.guided
    unfold handleWiggle
    split_ifs
    · trivial
    refine performs_then trivial (fun state => ?_)
    split_ifs
    · exact within_reply_then client _ true
    refine (within_of_kinds (kinds_startEntries _ 0) (by decide)).bind ?_
    rintro ⟨started, parseError⟩
    dsimp only
    split_ifs <;> exact within_reply_then client _ true
  drown := by
    apply Performs.guided
    unfold handleDrown
    split_ifs
    · trivial
    refine (within_firingSequenceStartDrown client).bind (fun rc => ?_)
    split_ifs
    · exact within_reply_then client _ true
    · trivial
  fire := by
    apply Performs.guided
    unfold handleFire
    split_ifs
    · trivial
    refine performs_then trivial (fun strdupOk => ?_)
    split
    · exact within_reply_then client _ true
    refine (within_firingSequenceStart client _ _ _ _).bind (fun rc => ?_)
    split_ifs
    · exact within_reply_then client _ true
    · trivial
  rawCan := by
    apply Performs.guided
    unfold handleRawCan
    split
    · trivial
    refine performs_then trivial (fun result => ?_)
    split
    · exact performs_then trivial (fun _ => within_reply_then client _ true)
    · exact within_reply_then client _ true

theorem within_onConnect (client : Client) :
    Performs (Act.Within (some client)) (onConnect client) := by
  refine performs_then trivial (fun allocated => ?_)
  split_ifs
  · trivial
  refine performs_then rfl (fun _ => performs_then rfl (fun _ => ?_))
  exact performs_then trivial (fun state => performs_single rfl)

theorem within_onMessage (config : AppConfig) (client : Client) (payload : CText) :
    Guided (S := serverSig) G (Act.Within (some client)) (onMessage config client payload) := by
  have hdispatch : DispatchGuided (Act.Within (some client)) client :=
    ⟨trivial, trivial, fun _ => rfl⟩
  refine hdispatch.onMessage (fun _ => trivial) ?_
  refine hdispatch.commandHandleText (within_handleReadToggle client _).guided ?_ ?_
  · exact fun _ => (within_handleTestingCommand client _).guided
  · exact fun _ _ => within_handlers client _

/-- A call acts in the name of its client. -/
theorem within_call (config : AppConfig) (c : Call) :
    Guided (S := serverSig) G (Act.Within c.client) (c.program config) := by
  cases c with
  | connect client => exact (within_onConnect client).guided.bind (fun _ => trivial)
  | disconnect client => exact guided_then rfl (fun _ _ => trivial)
  | message client payload =>
    exact (within_onMessage config client payload).bind (fun _ => trivial)
  | startSequence client blocks started completed failed =>
    exact (within_firingSequenceStart client blocks _ _ _).guided
  | startDrown client => exact (within_firingSequenceStartDrown client).guided
  | requestAbort => exact guided_then trivial (fun _ _ => trivial)
  | tick => exact guided_then trivial (fun _ _ => trivial)

end Within

/-! ### The numbers of a call -/

/-- The text of a message as the handlers get it. -/
def messageText (payload : CText) : CText :=
  stripCanPrefix (payload.takeWhile (· != Char.ofNat 0))

/-- The commands of clients are neither only reported nor refused. -/
def AppConfig.real (config : AppConfig) : Bool := !config.testingMode && !config.readOnly

/-- The tokens that a call hands on to the handlers of real mode. -/
def Call.tokens (config : AppConfig) : Call → List Token
  | .message _ payload => if config.real then commandTokens (messageText payload) else []
  | _ => []

/-- The call asks for the drowning of the injector. -/
def Call.AsksDrown (config : AppConfig) : Call → Prop
  | .message _ payload => config.real = true ∧ messageText payload = "DROWN#8765".toList
  | .startDrown _ => True
  | _ => False

/-- The blocks that a call asks a firing worker for, with a profile that may be read. -/
def Call.AsksBlocks (config : AppConfig) (J : ValveProfile → Prop) (c : Call)
    (args : SequenceWorkerArgs) : Prop :=
  (∃ token ∈ c.tokens config, ReadFrom (.createWorker args) token) ∨
  (c.AsksDrown config ∧ ∃ profile, J profile ∧ args.config = drownConfig profile) ∨
  ∃ client started completed failed,
    c = .startSequence client args.config started completed failed

/-- The numbers of an action are those that the call asks for. -/
def Call.Asks (config : AppConfig) (J : ValveProfile → Prop) (c : Call) : Act → Prop
  | .createWorker args => c.AsksBlocks config J args
  | .canSend cmd => ∃ token ∈ c.tokens config, ReadFrom (.canSend cmd) token
  | .wiggleStart r => ∃ token ∈ c.tokens config, ReadFrom (.wiggleStart r) token
  | .setValve field value => ∃ token ∈ c.tokens config, ReadFrom (.setValve field value) token
  | _ => True

/-- The answers of a process whose valve profile meets `J`. -/
def ProfileAnswers (J : ValveProfile → Prop) : ∀ a : Act, a.Answer → Prop
  | .readProfile, profile => J profile
  | _, _ => True

/-- A worker for the drowning of the injector gets a profile that was read. -/
def DrownFrom (J : ValveProfile → Prop) (asked : Prop) : Act → Prop :=
  Act.CreatesOnly (fun args => args.config.drownInjector = true →
    asked ∧ ∃ profile, J profile ∧ args.config = drownConfig profile)

section Numbers
variable {J : ValveProfile → Prop} {asked : Prop} {β : Type}

theorem drownFrom_of_kinds {ks : List ActKind} {p : Server β} (h : Kinds ks p)
    (hks : .sequence ∉ ks) :
    Guided (S := serverSig) (ProfileAnswers J) (DrownFrom J asked) p := by
  refine Performs.guided ((h.noSequence hks).mono (fun a ha => ?_))
  cases a with
  | createWorker args => exact absurd trivial ha
  | _ => trivial

theorem drownFrom_firingSequenceStart {client : Client} {config : FiringSequenceConfig}
    {started completed failed : Option String}
    (h : config.drownInjector = true →
      asked ∧ ∃ profile, J profile ∧ config = drownConfig profile) :
    Guided (S := serverSig) (ProfileAnswers J) (DrownFrom J asked)
      (firingSequenceStart client config started completed failed) :=
  (createsOnly_firingSequenceStart client config started completed failed h).guided

/-- The worker gets the configuration of the profile that was read last. -/
theorem drowns_firingSequenceStartDrown (client : Client) :
    Guided (S := serverSig) (ProfileAnswers J)
      (Act.CreatesOnly (fun args => ∃ profile, J profile ∧ args.config = drownConfig profile))
      (firingSequenceStartDrown client) := by
  refine guided_then trivial (fun checked _ => ?_)
  split_ifs
  · trivial
  refine guided_then trivial (fun profile hprofile => Performs.guided ?_)
  exact createsOnly_firingSequenceStart client _ _ _ _ ⟨profile, hprofile, rfl⟩

theorem drownFrom_handleDrown (client : Client) (text : CText) :
    Guided (S := serverSig) (ProfileAnswers J) (DrownFrom J (text = "DROWN#8765".toList))
      (handleDrown client text) := by
  unfold handleDrown
  split_ifs with htext
  · trivial
  have hstart : Guided (S := serverSig) (ProfileAnswers J)
      (DrownFrom J (text = "DROWN#8765".toList)) (firingSequenceStartDrown client) := by
    refine (drowns_firingSequenceStartDrown client).mono (fun _ _ hr => hr) (fun a ha => ?_)
    cases a with
    | createWorker args => exact fun _ => ⟨not_not.mp htext, ha⟩
    | _ => trivial
  refine hstart.bind (fun rc => ?_)
  split_ifs
  · exact guided_then trivial (fun _ _ => trivial)
  · trivial

/-- The parser makes no configuration for the drowning of the injector. -/
theorem drownFrom_handleFire (client : Client) (text : CText) :
    Guided (S := serverSig) (ProfileAnswers J) (DrownFrom J asked) (handleFire client text) := by
  unfold handleFire
  split_ifs
  · trivial
  refine guided_then trivial (fun strdupOk _ => ?_)
  cases hparse : firingSequenceParse strdupOk text with
  | none => exact guided_then trivial (fun _ _ => trivial)
  | some blocks =>
    have hdrown := (firingSequenceParse_reads hparse).1
    have hnever (htrue : blocks.drownInjector = true) :
        asked ∧ ∃ profile, J profile ∧ blocks = drownConfig profile :=
      absurd (hdrown.symm.trans htrue) Bool.false_ne_true
    refine (drownFrom_firingSequenceStart hnever).bind (fun rc => ?_)
    split_ifs
    · exact guided_then trivial (fun _ _ => trivial)
    · trivial

theorem drownFrom_handlers (client : Client) (text : CText) :
    HandlersGuided (ProfileAnswers J) (DrownFrom J (text = "DROWN#8765".toList)) client text where
  abort := drownFrom_of_kinds (kinds_handleAbort client text) (by decide)
  state := drownFrom_of_kinds (kinds_handleStateCommand client text) (by decide)
  setValve := drownFrom_of_kinds (kinds_handleSetValve client text) (by decide)
  wiggleStop := drownFrom_of_kinds (kinds_handleWiggleStop client text) (by decide)
  wiggle := drownFrom_of_kinds (kinds_handleWiggle client text) (by decide)
  drown := drownFrom_handleDrown client text
  fire := drownFrom_handleFire client text
  rawCan := drownFrom_of_kinds (kinds_handleRawCan client text) (by decide)

/-- What is read from the tokens and what is read from the profile is all there is. -/
theorem asks_of_tokens {config : AppConfig} {c : Call} {a : Act}
    (htokens : a.Numeric → ∃ token ∈ c.tokens config, ReadFrom a token)
    (hdrown : DrownFrom J (c.AsksDrown config) a) : c.Asks config J a := by
  cases a with
  | canSend cmd => exact htokens trivial
  | wiggleStart r => exact htokens trivial
  | setValve field value => exact htokens trivial
  | createWorker args =>
    cases hinjector : args.config.drownInjector with
    | false => exact Or.inl (htokens hinjector)
    | true => exact Or.inr (Or.inl (hdrown hinjector))
  | _ => trivial

theorem asks_of_talk {config : AppConfig} {c : Call} {p : Server β}
    (h : Performs Act.Talk p) :
    Guided (S := serverSig) (ProfileAnswers J) (c.Asks config J) p := by
  refine Performs.guided (h.mono (fun a ha => ?_))
  cases a <;> trivial

/-- Behind `firing_sequence_start` only the configuration matters. -/
theorem asks_of_sequence {config : AppConfig} {c : Call} {a : Act}
    (hkind : a.kind ∈ [ActKind.profile, .sequence])
    (hblocks : ∀ args, a = .createWorker args → c.AsksBlocks config J args) :
    c.Asks config J a := by
  cases a with
  | createWorker args => exact hblocks args rfl
  | canSend cmd => exact absurd (show ActKind.can ∈ _ from hkind) (by decide)
  | wiggleStart r => exact absurd (show ActKind.start ∈ _ from hkind) (by decide)
  | setValve field value => exact absurd (show ActKind.valve ∈ _ from hkind) (by decide)
  | _ => trivial

theorem dispatch_asks (config : AppConfig) (J : ValveProfile → Prop) (c : Call)
    (client : Client) : DispatchGuided (c.Asks config J) client :=
  ⟨trivial, trivial, fun _ => trivial⟩

theorem asks_onMessage (config : AppConfig) (client : Client) (payload : CText) :
    Guided (S := serverSig) (ProfileAnswers J) ((Call.message client payload).Asks config J)
      (onMessage config client payload) := by
  cases hreal : config.real with
  | false =>
    refine (dispatch_asks config J _ client).onMessage (fun _ => trivial) ?_
    refine (dispatch_asks config J _ client).commandHandleText
      (asks_of_talk (talk_handleReadToggle client _))
      (fun _ => asks_of_talk (talk_handleTestingCommand client _)) ?_
    intro htesting hreadOnly
    rw [AppConfig.real, htesting, hreadOnly] at hreal
    cases hreal
  | true =>
    have htokens : (Call.message client payload).tokens config =
        commandTokens (messageText payload) := by
      simp only [Call.tokens, hreal, if_true]
    refine (dispatch_asks config J _ client).onMessage (fun _ => trivial) ?_
    have hnumeric := (reading_commandHandleText config client
      (payload.takeWhile (· != Char.ofNat 0))).performs_consuming
    have hdrown : Guided (S := serverSig) (ProfileAnswers J)
        (DrownFrom J ((Call.message client payload).AsksDrown config))
        (commandHandleText config client (payload.takeWhile (· != Char.ofNat 0))) := by
      have hdispatch : DispatchGuided
          (DrownFrom J ((Call.message client payload).AsksDrown config)) client :=
        ⟨trivial, trivial, fun _ => trivial⟩
      refine hdispatch.commandHandleText
        (drownFrom_of_kinds (kinds_handleReadToggle client _) (by decide))
        (fun _ => drownFrom_of_kinds (kinds_handleTestingCommand client _) (by decide)) ?_
      intro _ _
      have h := drownFrom_handlers (J := J) client (messageText payload)
      have hiff : (messageText payload = "DROWN#8765".toList) =
          (Call.message client payload).AsksDrown config :=
        propext (and_iff_right hreal).symm
      rw [hiff] at h
      exact h
    refine ((Performs.guided hnumeric).and hdrown).mono (fun _ _ hr => hr) (fun a ha => ?_)
    refine asks_of_tokens ?_ ha.2
    rw [htokens]
    exact ha.1

/-- A call puts no number on the bus, in the table, in the profile or in a configuration
that it does not ask for. -/
theorem asks_call (config : AppConfig) (J : ValveProfile → Prop) (c : Call) :
    Guided (S := serverSig) (ProfileAnswers J) (c.Asks config J) (c.program config) := by
  cases c with
  | connect client =>
    refine Guided.bind (Performs.guided ?_) (fun _ => trivial)
    refine performs_then trivial (fun allocated => ?_)
    split_ifs
    · trivial
    · exact performs_then trivial (fun _ => performs_then trivial
        (fun _ => performs_then trivial (fun _ => performs_single trivial)))
  | disconnect client => exact guided_then trivial (fun _ _ => trivial)
  | message client payload =>
    exact (asks_onMessage config client payload).bind (fun _ => trivial)
  | startSequence client blocks started completed failed =>
    have hcreates := createsOnly_firingSequenceStart (W := fun args => args.config = blocks)
      client blocks started completed failed rfl
    have hkinds := kinds_firingSequenceStart client blocks started completed failed
    refine Performs.guided ((Performs.and hkinds hcreates).mono (fun a ha => ?_))
    refine asks_of_sequence (List.mem_cons_of_mem _ ha.1) ?_
    rintro args rfl
    have hconfig : args.config = blocks := ha.2
    exact Or.inr (Or.inr ⟨client, started, completed, failed, hconfig ▸ rfl⟩)
  | startDrown client =>
    have hdrown := drowns_firingSequenceStartDrown (J := J) client
    have hkinds := kinds_firingSequenceStartDrown client
    refine ((Performs.guided hkinds).and hdrown).mono (fun _ _ hr => hr) (fun a ha => ?_)
    refine asks_of_sequence ha.1 ?_
    rintro args rfl
    exact Or.inr (Or.inl ⟨trivial, ha.2⟩)
  | requestAbort => exact guided_then trivial (fun _ _ => trivial)
  | tick => exact guided_then trivial (fun _ _ => trivial)

end Numbers

end WsServer
