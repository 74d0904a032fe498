import WsServer.SerialRun
import WsServer.TestingMode

/-! What the clients know of the state. They are told on `on_connect` and on each
`app_state_set`, but not when they turn reading on again, so that a client is right after
`READ-ENABLE` only if the state is the one in which it had stopped to read. -/
namespace WsServer
open Interaction Program

/-! ### What the clients are sent -/

def stateNews (state : AppState) : String := "State has been set to " ++ appStateLabel state

def IsStateNews (text : String) : Prop := hasPrefix "State has been set to " text.toList = true

instance : DecidablePred IsStateNews := fun _ => inferInstanceAs (Decidable (_ = true))

abbrev Delivery := Client × String

/-- Who gets a text when all sends succeed: one client, or all that are not write-only. -/
def Event.deliveries (clients : List AppClientCtx) : Event → List Delivery
  | .sendText client text => [(client, text)]
  | .broadcast text => (clients.filter (fun c => !c.writeOnly)).map (fun c => (c.client, text))
  | _ => []

/-- One action, with what the clients get of it. -/
def deliver (p : Process) (env : Env) (a : Act) : Process × a.Answer × List Delivery :=
  let x := perform p env a
  (x.1, x.2.1, x.2.2.flatMap (Event.deliveries p.app.clients))

/-- The last text about the state among what a client gets. -/
def lastNews (client : Client) (ds : List Delivery) : Option String :=
  ((ds.filter (fun d => d.1 = client ∧ IsStateNews d.2)).getLast?).map Prod.snd

inductive ClientCall where
  | connect (client : Client)
  | disconnect (client : Client)
  | message (client : Client) (payload : CText)

def ClientCall.call : ClientCall → Call
  | .connect client => .connect client
  | .disconnect client => .disconnect client
  | .message client payload => .message client payload

/-- The calls of clients, one at a time, with what each of their actions meets. -/
def clientCalls : Machine Process (ClientCall × (ℕ → Env)) Delivery where
  step p l :=
    some (solo (S := serverSig) deliver (l.1.call.program p.app.config) p l.2).2

abbrev CallStep := Machine.Taken Process (ClientCall × (ℕ → Env)) Delivery

/-- The process behind a step. -/
def CallStep.behind (x : CallStep) : Process :=
  (solo (S := serverSig) deliver (x.label.1.call.program x.state.app.config) x.state
    x.label.2).2.1

/-- The client is registered and not in write-only mode. -/
def Process.Reads (p : Process) (client : Client) : Prop :=
  ∃ c ∈ p.app.clients, c.client = client ∧ c.writeOnly = false

instance (p : Process) (client : Client) : Decidable (p.Reads client) :=
  inferInstanceAs (Decidable (∃ c ∈ p.app.clients, _))

/-- After the step every client that reads was last told the state that there is. -/
def KnowsState (before : List CallStep) (x : CallStep) : Prop :=
  ∀ client, x.behind.Reads client →
    lastNews client ((before ++ [x]).flatMap Machine.Taken.outputs) =
      some (stateNews x.behind.app.state)

/-- The call is a `READ-ENABLE` of a registered client that does not read. -/
def Process.Resumes (p : Process) (client : Client) : ClientCall × (ℕ → Env) → Prop
  | (.message sender payload, e) => sender = client ∧ (e 0).alloc = true ∧
      payload.takeWhile (· != Char.ofNat 0) = "READ-ENABLE".toList ∧
      p.connected client = true ∧ ¬ p.Reads client
  | _ => False

/-- The state in the last of the processes in which the client reads. -/
def lastReading (client : Client) (ps : List Process) : Option AppState :=
  ((ps.filter (fun p => p.Reads client)).getLast?).map (fun p => p.app.state)

/-- A client that reads again finds the state in which it has stopped to read. -/
def ResumesInState (before : List CallStep) (x : CallStep) : Prop :=
  ∀ client, x.state.Resumes client x.label →
    lastReading client (before.map Machine.Taken.state) = some x.state.app.state

/-! ### News -/

theorem isStateNews_stateNews (state : AppState) : IsStateNews (stateNews state) := by
  cases state <;> decide

theorem stateNews_injective : Function.Injective stateNews := by
  intro s t h
  cases s <;> cases t <;> first | rfl | exact absurd h (by decide)

theorem lastNews_append (client : Client) (ds ds' : List Delivery) :
    lastNews client (ds ++ ds') = (lastNews client ds').or (lastNews client ds) := by
  rw [lastNews, List.filter_append, List.getLast?_append, Option.map_or, lastNews, lastNews]

theorem lastNews_eq_none {client : Client} {ds : List Delivery}
    (h : ∀ d ∈ ds, ¬ (d.1 = client ∧ IsStateNews d.2)) : lastNews client ds = none := by
  have hfilter : ds.filter (fun d => d.1 = client ∧ IsStateNews d.2) = [] := by
    apply List.filter_eq_nil_iff.mpr
    intro d hd
    rw [decide_eq_true_eq]
    exact h d hd
  rw [lastNews, hfilter]
  rfl

theorem lastNews_stateNews (client : Client) (state : AppState) :
    lastNews client [(client, stateNews state)] = some (stateNews state) := by
  have hfilter : [(client, stateNews state)].filter (fun d => d.1 = client ∧ IsStateNews d.2) =
      [(client, stateNews state)] :=
    List.filter_cons_of_pos (decide_eq_true ⟨rfl, isStateNews_stateNews state⟩)
  rw [lastNews, hfilter]
  rfl

/-- A reply that is no news. -/
theorem lastNews_reply (c client : Client) {msg : String} (hmsg : ¬ IsStateNews msg) :
    lastNews c [(client, msg)] = none := by
  apply lastNews_eq_none
  intro d hd hnews
  rw [List.mem_singleton.mp hd] at hnews
  exact hmsg hnews.2

/-- A broadcast of the state is news for every client that reads. -/
theorem lastNews_broadcast (client : Client) (p : Process) (state : AppState) :
    lastNews client ((Event.broadcast (stateNews state)).deliveries p.app.clients) =
      if p.Reads client then some (stateNews state) else none := by
  by_cases hreads : p.Reads client
  · rw [if_pos hreads]
    obtain ⟨c, hc, hclient, hreading⟩ := hreads
    have hmem : (client, stateNews state) ∈
        ((Event.broadcast (stateNews state)).deliveries p.app.clients).filter
          (fun d => d.1 = client ∧ IsStateNews d.2) := by
      apply List.mem_filter.mpr
      refine ⟨?_, decide_eq_true ⟨rfl, isStateNews_stateNews state⟩⟩
      apply List.mem_map.mpr
      exact ⟨c, List.mem_filter.mpr ⟨hc, by rw [hreading]; rfl⟩, by rw [hclient]⟩
    have hne := List.ne_nil_of_mem hmem
    have hlast := List.getLast_mem hne
    obtain ⟨d, -, hd⟩ := List.mem_map.mp (List.mem_filter.mp hlast).1
    rw [lastNews, List.getLast?_eq_some_getLast hne, Option.map_some, ← hd]
  · rw [if_neg hreads]
    apply lastNews_eq_none
    intro d hd hnews
    obtain ⟨c, hc, rfl⟩ := List.mem_map.mp hd
    obtain ⟨hc, hreading⟩ := List.mem_filter.mp hc
    exact hreads ⟨c, hc, hnews.1, Bool.not_eq_true' _ |>.mp hreading⟩

theorem lastReading_concat (client : Client) (ps : List Process) (p : Process) :
    lastReading client (ps ++ [p]) =
      if p.Reads client then some p.app.state else lastReading client ps := by
  rw [lastReading, List.filter_append, List.getLast?_append]
  by_cases hreads : p.Reads client
  · rw [if_pos hreads, List.filter_cons_of_pos (by simpa using hreads)]
    rfl
  · rw [if_neg hreads, List.filter_cons_of_neg (by simpa using hreads)]
    rfl

/-! ### Actions without news -/

/-- Neither the state nor the listeners change, and nobody is told the state. -/
def Act.NoNews : Act → Prop
  | .registerClient _ | .unregisterClient _ | .setWriteOnly _ _ | .storeState _ => False
  | .sendText _ text | .broadcast text => ¬ IsStateNews text
  | _ => True

theorem deliveries_sendValue (clients : List AppClientCtx) (fd : Int) (slot : WiggleCommand)
    (value : UInt16) (write : Option String) :
    (sendValue fd slot value write).2.flatMap (Event.deliveries clients) = [] := by
  simp only [sendValue]
  cases canBusSendCommand fd ⟨slot.id, value, 0⟩ write <;> rfl

theorem deliveries_deactivateSlot (clients : List AppClientCtx) (fd : Int) (slot : WiggleCommand)
    (sendExitValue : Bool) (write : Option String) :
    (deactivateSlot fd slot sendExitValue write).2.flatMap (Event.deliveries clients) = [] := by
  unfold deactivateSlot
  split_ifs
  · rfl
  · exact deliveries_sendValue clients fd slot slot.exitValue write
  · rfl

theorem deliveries_processSlot (clients : List AppClientCtx) (fd : Int) (now : UInt64)
    (slot : WiggleCommand) (write : Option String) :
    (processSlot fd now slot write).2.flatMap (Event.deliveries clients) = [] := by
  unfold processSlot
  split_ifs
  · rfl
  · exact deliveries_deactivateSlot clients fd slot true write
  · rfl
  · exact deliveries_sendValue clients fd slot slot.endValue write
  · exact deliveries_sendValue clients fd slot slot.startValue write

theorem deliveries_overSlots {clients : List AppClientCtx} (app : App)
    {body : Fin appMaxWiggles → WiggleCommand × List Event}
    (h : ∀ i, (body i).2.flatMap (Event.deliveries clients) = []) :
    (overSlots app body).2.flatMap (Event.deliveries clients) = [] := by
  simp only [overSlots, List.flatMap_assoc]
  apply List.flatMap_eq_nil_iff.mpr
  intro i _
  exact h i

theorem noNews_clients {a : Act} (ha : a.NoNews) (p : Process) (env : Env) :
    (deliver p env a).1.app.clients = p.app.clients := by
  cases a with
  | wiggleStart r =>
    obtain ⟨t, ht⟩ := wiggleStartLocked_frame p.app env r
    simp only [deliver, perform, ht, Process.setApp]
  | wiggleStop id =>
    obtain ⟨t, ht⟩ := wiggleStopLocked_frame p.app env id
    simp only [deliver, perform, ht, Process.setApp]
  | wiggleProcess =>
    obtain ⟨t, ht⟩ := wiggleProcess_frame p.app env
    simp only [deliver, perform, ht, Process.setApp]
  | claimSequence =>
    simp only [deliver, perform, App.claimSequence, Process.setApp]
    split_ifs <;> rfl
  | createWorker args =>
    simp only [deliver, perform]
    split_ifs <;> rfl
  | registerClient client => exact ha.elim
  | unregisterClient client => exact ha.elim
  | setWriteOnly client writeOnly => exact ha.elim
  | storeState state => exact ha.elim
  | _ => rfl

theorem noNews_deliveries {a : Act} (ha : a.NoNews) (p : Process) (env : Env) :
    ∀ d ∈ (deliver p env a).2.2, ¬ IsStateNews d.2 := by
  have hsilent (h : (deliver p env a).2.2 = []) :
      ∀ d ∈ (deliver p env a).2.2, ¬ IsStateNews d.2 := by
    rw [h]
    exact List.forall_mem_nil _
  cases a with
  -- the actions on the slots write to the bus and to the log, never to a client
  | wiggleStart r =>
    apply hsilent
    simp only [deliver, perform, wiggleStartLocked]
    split
    · rfl
    · exact deliveries_sendValue _ _ _ _ _
  | wiggleStop id =>
    apply hsilent
    simp only [deliver, perform, wiggleStopLocked]
    split
    · rfl
    · exact deliveries_deactivateSlot _ _ _ _ _
  | wiggleStopAll sendExitValue =>
    apply hsilent
    simp only [deliver, perform, wiggleStopAllLocked]
    exact deliveries_overSlots p.app (fun i => deliveries_deactivateSlot _ _ _ _ _)
  | wiggleProcess =>
    apply hsilent
    simp only [deliver, perform, wiggleProcess]
    split_ifs
    · rfl
    · exact deliveries_overSlots p.app (fun i => deliveries_processSlot _ _ _ _ _)
  | createWorker args =>
    apply hsilent
    simp only [deliver, perform]
    split_ifs <;> rfl
  -- what is told is the text of the action, which is no news
  | sendText client text =>
    intro d hd
    obtain rfl : d = (client, text) := List.mem_singleton.mp hd
    exact ha
  | broadcast text =>
    intro d hd
    have hd : d ∈ (Event.broadcast text).deliveries p.app.clients ++ [] := hd
    rw [List.append_nil] at hd
    obtain ⟨c, -, rfl⟩ := List.mem_map.mp hd
    exact ha
  | registerClient client => exact ha.elim
  | unregisterClient client => exact ha.elim
  | setWriteOnly client writeOnly => exact ha.elim
  | storeState state => exact ha.elim
  | _ => exact hsilent rfl

theorem noNews_frame {a : Act} (ha : a.NoNews) (p : Process) (env : Env) :
    (deliver p env a).1.app.clients = p.app.clients ∧
      (deliver p env a).1.app.state = p.app.state ∧
      ∀ d ∈ (deliver p env a).2.2, ¬ IsStateNews d.2 := by
  have hstate : (deliver p env a).1.app.state = p.app.state := by
    apply perform_state
    intro state hstore
    rw [hstore] at ha
    exact ha
  exact ⟨noNews_clients ha p env, hstate, noNews_deliveries ha p env⟩

/-! ### Programs without news -/

variable {β : Type} {client : Client} {p : Process}

/-- What a program does that tells nobody the state. -/
structure Unheard (p : Process) (tr : List (Process × Env × Act)) (p' : Process) : Prop where
  clients : p'.app.clients = p.app.clients
  state : p'.app.state = p.app.state
  news : ∀ d ∈ outputs (S := serverSig) deliver tr, ¬ IsStateNews d.2

abbrev AlwaysHeard (p : Process) (q : Server β)
    (Q : List (Process × Env × Act) → β → Process → Prop) : Prop :=
  Always (S := serverSig) deliver (fun _ => True) q p Q

theorem unheard_of_noNews {q : Server β} (h : Performs Act.NoNews q) :
    AlwaysHeard p q (fun tr _ p' => Unheard p tr p') := by
  refine (Performs.always h (I := fun q => q.app.clients = p.app.clients ∧
    q.app.state = p.app.state) ?_ ⟨rfl, rfl⟩).mono ?_
  · rintro s env a ha ⟨hclients, hstate⟩
    obtain ⟨hclients', hstate', -⟩ := noNews_frame ha s env
    exact ⟨hclients'.trans hclients, hstate'.trans hstate⟩
  · rintro tr v p' ⟨⟨hclients, hstate⟩, hall⟩
    refine ⟨hclients, hstate, ?_⟩
    intro d hd
    obtain ⟨x, hx, hd⟩ := List.mem_flatMap.mp hd
    exact (noNews_frame (hall x hx).1 x.1 x.2.1).2.2 d hd

/-- A text that begins otherwise is no news. -/
theorem not_news_of_word {word text : String} (h : word.toList <+: text.toList)
    (hword : ¬ word.toList <+: "State has been set to ".toList ∧
      ¬ "State has been set to ".toList <+: word.toList) : ¬ IsStateNews text := by
  rw [IsStateNews, hasPrefix_other (hasPrefix_iff.mpr h) hword]
  exact Bool.false_ne_true

theorem not_news_append {word : String} (rest : String)
    (hword : ¬ word.toList <+: "State has been set to ".toList ∧
      ¬ "State has been set to ".toList <+: word.toList) : ¬ IsStateNews (word ++ rest) :=
  not_news_of_word (prefix_append (List.prefix_refl _) rest) hword

theorem not_news_truncated {text : String} (size : ℕ) (h : ¬ IsStateNews text) :
    ¬ IsStateNews (Printf.truncated size text) := by
  intro hnews
  have hcut : (Printf.truncated size text).toList = text.toList.take (size-1) :=
    String.toList_ofList
  have hbegins := hasPrefix_iff.mp hnews
  rw [hcut] at hbegins
  exact h (hasPrefix_iff.mpr (hbegins.trans (List.take_prefix _ _)))

theorem noNews_of_kind {a : Act} (h : a.kind ∉ [ActKind.chat, .registry, .storeState]) :
    a.NoNews := by
  revert h
  fun_cases Act.kind a <;> first | exact fun _ => trivial | exact fun h => absurd (by decide) h

theorem noNews_of_kinds {ks : List ActKind} {q : Server β} (h : Kinds ks q)
    (hks : ∀ k ∈ ks, k ∉ [ActKind.chat, .registry, .storeState]) : Performs Act.NoNews q :=
  Performs.mono h (fun a ha => noNews_of_kind (hks a.kind ha))

theorem noNews_reply {msg : String} (h : ¬ IsStateNews msg) :
    Performs Act.NoNews (sendReply client msg) := performs_single h

theorem noNews_reply_then {msg : String} (h : ¬ IsStateNews msg) (v : β) :
    Performs Act.NoNews (do sendReply client msg; pure v : Server β) :=
  (noNews_reply h).bind (fun _ => trivial)

theorem noNews_wiggleStopAll (sendExitValue : Bool) :
    Performs Act.NoNews (wiggleStopAll sendExitValue) := by
  refine performs_then trivial (fun stopped => ?_)
  split_ifs
  · refine performs_single ?_
    rw [String.append_assoc]
    exact not_news_append _ (by decide)
  · trivial

/-! ### The handlers -/

theorem noNews_handleAbort (client : Client) (text : CText) :
    Performs Act.NoNews (handleAbort client text) := by
  unfold handleAbort
  split_ifs
  · trivial
  · refine performs_then trivial (fun _ => ?_)
    exact (noNews_wiggleStopAll true).bind (fun _ => noNews_reply_then (by decide) true)

theorem noNews_handleSetValve (client : Client) (text : CText) :
    Performs Act.NoNews (handleSetValve client text) := by
  unfold handleSetValve
  split_ifs
  · trivial
  cases scanSetValve text with
  | none => exact noNews_reply_then (by decide) true
  | some scanned =>
    obtain ⟨name, value⟩ := scanned
    dsimp only
    cases valveFieldOf name with
    | none => exact noNews_reply_then (by decide) true
    | some found =>
      dsimp only
      split_ifs
      · exact noNews_reply_then (by decide) true
      · exact performs_then trivial (fun _ => noNews_reply_then (by decide) true)

theorem noNews_handleWiggleStop (client : Client) (command : CText) :
    Performs Act.NoNews (handleWiggleStop client command) := by
  unfold handleWiggleStop
  split_ifs
  · trivial
  refine (noNews_of_kinds (kinds_stopEntries _ 0) (by decide)).bind ?_
  rintro ⟨stopped, parseError⟩
  dsimp only
  split_ifs
  · exact noNews_reply_then (by decide) true
  · exact noNews_reply_then (by decide) true
  · refine noNews_reply_then (not_news_truncated 96 ?_) true
    rw [String.append_assoc]
    exact not_news_append _ (by decide)

theorem noNews_handleWiggle (client : Client) (command : CText) :
    Performs Act.NoNews (handleWiggle client command) := by
  unfold handleWiggle
  split_ifs
  · trivial
  refine performs_then trivial (fun state => ?_)
  split_ifs
  · exact noNews_reply_then (by decide) true
  refine (noNews_of_kinds (kinds_startEntries _ 0) (by decide)).bind ?_
  rintro ⟨started, parseError⟩
  dsimp only
  split_ifs
  · exact noNews_reply_then (by decide) true
  · refine noNews_reply_then (not_news_truncated 96 ?_) true
    rw [String.append_assoc]
    exact not_news_append _ (by decide)

theorem noNews_handleRawCan (client : Client) (text : CText) :
    Performs Act.NoNews (handleRawCan client text) := by
  unfold handleRawCan
  cases parseRawCanFields text with
  | none => trivial
  | some f =>
    refine performs_then trivial (fun result => ?_)
    cases result with
    | sent => exact performs_then trivial (fun _ => noNews_reply_then (by decide) true)
    | refused error =>
      refine noNews_reply_then (not_news_truncated 128 ?_) true
      exact not_news_append _ (by decide)

theorem noNews_handleDrown (client : Client) (text : CText) :
    Performs Act.NoNews (handleDrown client text) := by
  unfold handleDrown
  split_ifs
  · trivial
  refine (noNews_of_kinds (kinds_firingSequenceStartDrown client) (by decide)).bind (fun rc => ?_)
  split_ifs
  · exact noNews_reply_then (by decide) true
  · trivial

theorem noNews_handleFire (client : Client) (text : CText) :
    Performs Act.NoNews (handleFire client text) := by
  unfold handleFire
  split_ifs
  · trivial
  refine performs_then trivial (fun strdupOk => ?_)
  cases firingSequenceParse strdupOk text with
  | none => exact noNews_reply_then (by decide) true
  | some config =>
    refine (noNews_of_kinds (kinds_firingSequenceStart client config _ _ _) (by decide)).bind
      (fun rc => ?_)
    split_ifs
    · exact noNews_reply_then (by decide) true
    · trivial

/-! ### The replies of testing mode -/

/-- A reply of testing mode, if there is one, says so at its beginning. -/
def SaysTesting (reply : Option String) : Prop :=
  ∀ msg ∈ reply, "TESTING".toList <+: msg.toList

theorem saysTesting_none : SaysTesting none := fun _ h => nomatch h

theorem saysTesting_some {msg : String} (h : "TESTING".toList <+: msg.toList) :
    SaysTesting (some msg) := by
  intro msg' hmsg
  rw [← Option.some.inj hmsg]
  exact h

theorem SaysTesting.or {reply reply' : Option String} (h : SaysTesting reply)
    (h' : SaysTesting reply') : SaysTesting (reply.or reply') := by
  cases reply with
  | none => exact h'
  | some msg => exact h

theorem not_news_of_testing {msg : String} (h : "TESTING".toList <+: msg.toList) :
    ¬ IsStateNews msg := not_news_of_word h (by decide)

/-- A report with its arguments, cut off to the buffer. -/
theorem testing_truncated {text : String} (h : "TESTING".toList <+: text.toList) :
    "TESTING".toList <+: (Printf.truncated 512 text).toList :=
  prefix_truncated h (by decide)

theorem testing_handleTestingAbort (text : CText) : SaysTesting (handleTestingAbort text) := by
  unfold handleTestingAbort
  split_ifs
  · exact saysTesting_none
  · exact saysTesting_some (by decide)

theorem testing_handleTestingState (text : CText) : SaysTesting (handleTestingState text) := by
  unfold handleTestingState
  split_ifs
  · exact saysTesting_none
  all_goals exact saysTesting_some (by decide)

theorem testing_handleTestingSetValve (text : CText) :
    SaysTesting (handleTestingSetValve text) := by
  unfold handleTestingSetValve
  split_ifs
  · exact saysTesting_none
  cases scanSetValve text with
  | none => exact saysTesting_some (by decide)
  | some scanned =>
    obtain ⟨name, value⟩ := scanned
    have hparsed : "TESTING".toList <+: (Printf.truncated 512 ("TESTING parsed SET_VALVE: " ++
        String.ofList name ++ "=0x" ++ Printf.hexPadded 3 value.toNat)).toList :=
      testing_truncated (prefix_append (prefix_append (prefix_append (by decide) _) _) _)
    dsimp only
    split_ifs
    · exact saysTesting_some (by decide)
    · exact saysTesting_some hparsed
    · exact saysTesting_some (by decide)
    · exact saysTesting_some hparsed
    · exact saysTesting_some (by decide)

theorem testing_handleTestingWiggleStop (command : CText) :
    SaysTesting (handleTestingWiggleStop command) := by
  unfold handleTestingWiggleStop
  split_ifs
  · exact saysTesting_none
  cases testingStopEntries (Strtok.tokens '|' command).tail 0 with
  | none => exact saysTesting_some (by decide)
  | some ids =>
    dsimp only
    split_ifs
    · exact saysTesting_some (by decide)
    · exact saysTesting_some
        (testing_truncated (prefix_append (prefix_append (by decide) _) _))

theorem testing_handleTestingWiggle (command : CText) :
    SaysTesting (handleTestingWiggle command) := by
  unfold handleTestingWiggle
  split_ifs
  · exact saysTesting_none
  cases testingWiggleEntries (Strtok.tokens '|' command).tail 0 with
  | none => exact saysTesting_some (by decide)
  | some blocks =>
    dsimp only
    split_ifs
    · exact saysTesting_some (by decide)
    · exact saysTesting_some
        (testing_truncated (prefix_append (prefix_append (by decide) _) _))

theorem testing_handleTestingDrown (text : CText) : SaysTesting (handleTestingDrown text) := by
  unfold handleTestingDrown
  split_ifs
  · exact saysTesting_none
  · exact saysTesting_some (by decide)

theorem testing_handleTestingFire (strdupOk : Bool) (text : CText) :
    SaysTesting (handleTestingFire strdupOk text) := by
  unfold handleTestingFire
  split_ifs
  · exact saysTesting_none
  cases firingSequenceParse strdupOk text with
  | none => exact saysTesting_some (by decide)
  | some config =>
    apply saysTesting_some
    have hheading : "TESTING".toList <+: (Command.heading (.fire config)).toList := by
      dsimp only [Command.heading]
      decide
    exact hheading.trans (report_heading (.fire config))

theorem testing_handleTestingRawCan (text : CText) : SaysTesting (handleTestingRawCan text) := by
  unfold handleTestingRawCan
  cases parseRawCanFields text with
  | none => exact saysTesting_none
  | some f =>
    have hparsed : "TESTING".toList <+: ("TESTING parsed RAW CAN: id=0x" ++
        Printf.hexPadded 3 f.id.toNat ++ " value=0x" ++ Printf.hexPadded 4 f.value.toNat).toList :=
      prefix_append (prefix_append (prefix_append (by decide) _) _) _
    dsimp only
    split_ifs
    · exact saysTesting_some (by decide)
    · exact saysTesting_some (testing_truncated (prefix_append (prefix_append hparsed _) _))
    · exact saysTesting_some (testing_truncated hparsed)

theorem noNews_testing {reply : Option String} {rest : Server Unit} (h : SaysTesting reply)
    (hrest : Performs Act.NoNews rest) :
    Performs Act.NoNews
      (match reply with
        | some msg => sendReply client msg
        | none => rest : Server Unit) := by
  cases reply with
  | none => exact hrest
  | some msg => exact noNews_reply (not_news_of_testing (h msg rfl))

theorem noNews_handleTestingCommand (client : Client) (normalized : CText) :
    Performs Act.NoNews (handleTestingCommand client normalized) := by
  unfold handleTestingCommand
  apply noNews_testing
  · exact ((testing_handleTestingAbort normalized).or (testing_handleTestingState normalized)).or
      (testing_handleTestingSetValve normalized)
  refine performs_then trivial (fun copied => ?_)
  split_ifs
  · exact noNews_reply (by decide)
  apply noNews_testing
  · exact (testing_handleTestingWiggleStop normalized).or (testing_handleTestingWiggle normalized)
  apply noNews_testing
  · exact testing_handleTestingDrown normalized
  refine performs_then trivial (fun strdupOk => noNews_reply ?_)
  have hlast := (testing_handleTestingFire strdupOk normalized).or
    (testing_handleTestingRawCan normalized)
  cases hreply : (handleTestingFire strdupOk normalized).or (handleTestingRawCan normalized) with
  | none => exact not_news_of_testing (by decide)
  | some msg => exact not_news_of_testing (hlast msg hreply)

/-! ### Commands -/

theorem noNews_hotfireHandlers (client : Client) (normalized : CText) :
    Performs Act.NoNews (hotfireHandlers client normalized) := by
  refine performs_then trivial (fun state => ?_)
  split_ifs
  · exact noNews_reply (by decide)
  refine (noNews_handleDrown client normalized).bind (fun drown => ?_)
  split_ifs
  · trivial
  refine (noNews_handleFire client normalized).bind (fun fire => ?_)
  split_ifs
  · trivial
  refine (noNews_handleRawCan client normalized).bind (fun raw => ?_)
  split_ifs
  · trivial
  · exact noNews_reply (by decide)

theorem noNews_copyHandlers (client : Client) (normalized : CText) :
    Performs Act.NoNews (copyHandlers client normalized) := by
  refine performs_then trivial (fun copied => ?_)
  split_ifs
  · exact noNews_reply (by decide)
  refine (noNews_handleWiggleStop client normalized).bind (fun wiggleStop => ?_)
  split_ifs
  · trivial
  refine (noNews_handleWiggle client normalized).bind (fun wiggle => ?_)
  split_ifs
  · trivial
  · exact noNews_hotfireHandlers client normalized

/-- What a command that is no read toggle tells the clients: nothing about a state that
stays, or the state behind it to all that read. -/
structure Told (p : Process) (tr : List (Process × Env × Act)) (p' : Process) : Prop where
  clients : p'.app.clients = p.app.clients
  news : (p'.app.state = p.app.state ∧
      ∀ c, lastNews c (outputs (S := serverSig) deliver tr) = none) ∨
    ∀ c, lastNews c (outputs (S := serverSig) deliver tr) =
      if p.Reads c then some (stateNews p'.app.state) else none

theorem Unheard.lastNews {tr : List (Process × Env × Act)} {p' : Process} (h : Unheard p tr p')
    (c : Client) : lastNews c (outputs (S := serverSig) deliver tr) = none :=
  lastNews_eq_none (fun d hd hnews => h.news d hd hnews.2)

theorem Unheard.told {tr : List (Process × Env × Act)} {p' : Process} (h : Unheard p tr p') :
    Told p tr p' where
  clients := h.clients
  news := Or.inl ⟨h.state, h.lastNews⟩

theorem reads_congr {p p' : Process} (h : p'.app.clients = p.app.clients) (c : Client) :
    p'.Reads c ↔ p.Reads c := by
  unfold Process.Reads
  rw [h]

/-- The end of `app_state_set`, and what the handler replies. -/
theorem broadcast_told (state : AppState) (hstate : p.app.state = state) {msg : String}
    (hmsg : ¬ IsStateNews msg) :
    AlwaysHeard p (appStateBroadcast >>= fun _ => sendReply client msg >>= fun _ => pure true)
      (fun tr _ p' => p'.app.clients = p.app.clients ∧ p'.app.state = state ∧
        ∀ c, lastNews c (outputs (S := serverSig) deliver tr) =
          if p.Reads c then some (stateNews state) else none) := by
  intro env _ env' _ env'' _
  refine ⟨rfl, hstate, ?_⟩
  intro c
  have hreply := lastNews_reply c client hmsg
  change lastNews c (((Event.broadcast (stateNews p.app.state)).deliveries p.app.clients ++ []) ++
    [(client, msg)]) = _
  rw [List.append_nil, lastNews_append, hreply, Option.none_or, lastNews_broadcast, hstate]

theorem appStateSet_told (client : Client) (p : Process) (state : AppState) {reply : Bool → String}
    (hreply : ∀ changed, ¬ IsStateNews (reply changed)) :
    AlwaysHeard p (appStateSet state >>= fun changed =>
      sendReply client (reply changed) >>= fun _ => pure true) (fun tr _ p' => Told p tr p') := by
  intro env _
  let q := (deliver p env (.storeState state)).1
  have hbroadcast (q' : Process) (hclients : q'.app.clients = p.app.clients)
      (hstate : q'.app.state = state) (tr : List (Process × Env × Act))
      (htr : ∀ d ∈ outputs (S := serverSig) deliver tr, ¬ IsStateNews d.2) (changed : Bool) :
      AlwaysHeard q' (appStateBroadcast >>= fun _ =>
        sendReply client (reply changed) >>= fun _ => pure true)
        (fun tr' _ p' => Told p ((p, env, .storeState state) :: (tr ++ tr')) p') := by
    refine (broadcast_told state hstate (hreply changed)).mono ?_
    rintro tr' v p' ⟨hclients', hstate', hnews⟩
    refine ⟨hclients'.trans hclients, Or.inr ?_⟩
    intro c
    have hquiet : lastNews c (outputs (S := serverSig) deliver tr) = none :=
      lastNews_eq_none (fun d hd h => htr d hd h.2)
    have hout : outputs (S := serverSig) deliver ((p, env, .storeState state) :: (tr ++ tr')) =
        outputs (S := serverSig) deliver tr ++ outputs (S := serverSig) deliver tr' := by
      rw [outputs_cons, outputs_append]
      rfl
    rw [hout, lastNews_append, hquiet, Option.or_none, hnews c, hstate', if_congr
      (reads_congr hclients c) rfl rfl]
  cases state with
  | prechilling => exact hbroadcast q rfl rfl [] (List.forall_mem_nil _) _
  | hotfire =>
    change AlwaysHeard q ((wiggleStopAll true >>= fun _ => _) >>= _) _
    rw [Program.bind_assoc]
    refine always_bind.mpr ((unheard_of_noNews (noNews_wiggleStopAll true)).mono ?_)
    intro tr v q' hquiet
    exact hbroadcast q' (hquiet.clients.trans rfl) (hquiet.state.trans rfl) tr hquiet.news _

theorem handleStateCommand_told (client : Client) (text : CText) (p : Process) :
    AlwaysHeard p (handleStateCommand client text) (fun tr _ p' => Told p tr p') := by
  have hquiet {q : Server Bool} (h : Performs Act.NoNews q) :
      AlwaysHeard p q (fun tr _ p' => Told p tr p') :=
    (unheard_of_noNews h).mono (fun _ _ _ hunheard => hunheard.told)
  unfold handleStateCommand
  split_ifs
  · exact hquiet trivial
  · apply appStateSet_told
    intro changed
    cases changed <;> decide
  · apply appStateSet_told
    intro changed
    cases changed <;> decide
  · exact hquiet (noNews_reply_then (by decide) true)

theorem Told.behind {q p' : Process} {tr tr' : List (Process × Env × Act)} (h : Unheard p tr q)
    (h' : Told q tr' p') : Told p (tr ++ tr') p' := by
  refine ⟨h'.clients.trans h.clients, ?_⟩
  have hnews (c : Client) : lastNews c (outputs (S := serverSig) deliver (tr ++ tr')) =
      lastNews c (outputs (S := serverSig) deliver tr') := by
    rw [outputs_append, lastNews_append, h.lastNews c, Option.or_none]
  rcases h'.news with ⟨hstate, hnone⟩ | hall
  · exact Or.inl ⟨hstate.trans h.state, fun c => (hnews c).trans (hnone c)⟩
  · refine Or.inr (fun c => ?_)
    rw [hnews c, hall c, if_congr (reads_congr h.clients c) rfl rfl]

theorem told_behind {q : Server β} {β' : Type} {f : β → Server β'} (h : Performs Act.NoNews q)
    (hf : ∀ v p', AlwaysHeard p' (f v) (fun tr _ p'' => Told p' tr p'')) :
    AlwaysHeard p (q >>= f) (fun tr _ p' => Told p tr p') := by
  refine always_bind.mpr ((unheard_of_noNews h).mono ?_)
  intro tr v q' hunheard
  exact (hf v q').mono (fun _ _ _ htold => Told.behind hunheard htold)

theorem told_of_noNews {q : Server β} (h : Performs Act.NoNews q) :
    AlwaysHeard p q (fun tr _ p' => Told p tr p') :=
  (unheard_of_noNews h).mono (fun _ _ _ hunheard => hunheard.told)

/-- The handlers behind that of the state. -/
theorem noNews_behindState (client : Client) (normalized : CText) (taken : Bool) :
    Performs Act.NoNews (if taken then pure () else do
      let setValve ← handleSetValve client normalized
      if setValve then pure () else copyHandlers client normalized : Server Unit) := by
  split_ifs
  · trivial
  refine (noNews_handleSetValve client normalized).bind (fun setValve => ?_)
  split_ifs
  · trivial
  · exact noNews_copyHandlers client normalized

theorem dispatch_told (config : AppConfig) (client : Client) (normalized : CText) (p : Process) :
    AlwaysHeard p (dispatch config client normalized) (fun tr _ p' => Told p tr p') := by
  unfold dispatch
  split_ifs
  · exact told_of_noNews (noNews_handleTestingCommand client normalized)
  · exact told_of_noNews (noNews_reply (by decide))
  refine told_behind (noNews_handleAbort client normalized) (fun abort q => ?_)
  split_ifs
  · exact told_of_noNews trivial
  refine always_bind.mpr ((handleStateCommand_told client normalized q).mono ?_)
  intro tr taken q' htold
  refine (unheard_of_noNews (noNews_behindState client normalized taken)).mono ?_
  intro tr' v p' hunheard
  refine ⟨hunheard.clients.trans htold.clients, ?_⟩
  have hnews (c : Client) : lastNews c (outputs (S := serverSig) deliver (tr ++ tr')) =
      lastNews c (outputs (S := serverSig) deliver tr) := by
    rw [outputs_append, lastNews_append, hunheard.lastNews c, Option.none_or]
  rcases htold.news with ⟨hstate, hnone⟩ | hall
  · exact Or.inl ⟨hunheard.state.trans hstate, fun c => (hnews c).trans (hnone c)⟩
  · refine Or.inr (fun c => ?_)
    rw [hnews c, hall c, hunheard.state]

/-! ### The listeners -/

/-- `handle_read_toggle` writes the flag of the first context of the client. -/
theorem modify_first (client : Client) (writeOnly : Bool) {ctxs : List AppClientCtx}
    (h : ctxs.any (fun c => c.client == client) = true) :
    ∃ before x after, ctxs = before ++ x :: after ∧ x.client = client ∧
      ctxs.modify (ctxs.findIdx (fun c => c.client == client))
        (fun c => { c with writeOnly := writeOnly }) =
          before ++ { x with writeOnly := writeOnly } :: after := by
  induction ctxs with
  | nil => cases h
  | cons x ctxs ih =>
    by_cases hx : x.client = client
    · refine ⟨[], x, ctxs, rfl, hx, ?_⟩
      have hfirst : (x.client == client) = true := beq_iff_eq.mpr hx
      rw [List.findIdx_cons, hfirst, cond_true, List.modify_zero_cons]
      rfl
    · rw [List.any_cons, beq_false_of_ne hx, Bool.false_or] at h
      obtain ⟨before, y, after, hctxs, hy, hmodify⟩ := ih h
      refine ⟨x :: before, y, after, by rw [hctxs]; rfl, hy, ?_⟩
      rw [List.findIdx_cons, beq_false_of_ne hx, cond_false, List.modify_succ_cons, hmodify]
      rfl

/-- The reader of a list of contexts. -/
theorem reads_split {p : Process} {before after : List AppClientCtx} {x : AppClientCtx}
    (h : p.app.clients = before ++ x :: after) (c : Client) :
    p.Reads c ↔ (x.client = c ∧ x.writeOnly = false) ∨
      ∃ y ∈ before ++ after, y.client = c ∧ y.writeOnly = false := by
  unfold Process.Reads
  rw [h]
  simp only [List.mem_append, List.mem_cons]
  constructor
  · rintro ⟨y, hbefore | rfl | hafter, hy⟩
    · exact Or.inr ⟨y, Or.inl hbefore, hy⟩
    · exact Or.inl hy
    · exact Or.inr ⟨y, Or.inr hafter, hy⟩
  · rintro (hx | ⟨y, hbefore | hafter, hy⟩)
    · exact ⟨x, Or.inr (Or.inl rfl), hx⟩
    · exact ⟨y, Or.inl hbefore, hy⟩
    · exact ⟨y, Or.inr (Or.inr hafter), hy⟩

theorem reads_disabled {p : Process} {client : Client} (h : p.connected client = true) {c : Client}
    (hreads : (p.setApp (p.app.setWriteOnly client true)).Reads c) : p.Reads c := by
  obtain ⟨before, x, after, hctxs, -, hmodify⟩ := modify_first client true h
  rcases (reads_split hmodify c).mp hreads with ⟨-, hwrite⟩ | hother
  · cases hwrite
  · exact (reads_split hctxs c).mpr (Or.inr hother)

theorem reads_enabled {p : Process} {client : Client} (h : p.connected client = true)
    (c : Client) : (p.setApp (p.app.setWriteOnly client false)).Reads c ↔
      client = c ∨ p.Reads c := by
  obtain ⟨before, x, after, hctxs, hx, hmodify⟩ := modify_first client false h
  rw [reads_split hmodify c, reads_split hctxs c, hx]
  constructor
  · rintro (⟨hclient, -⟩ | hother)
    · exact Or.inl hclient
    · exact Or.inr (Or.inr hother)
  · rintro (hclient | ⟨hclient, -⟩ | hother)
    · exact Or.inl ⟨hclient, rfl⟩
    · exact Or.inl ⟨hclient, rfl⟩
    · exact Or.inr hother

/-- What a call is for one client: nothing about the state, the state behind it, something
that a client does not hear that is not reading, or the end of its write-only mode. -/
inductive Hears (p p' : Process) (ds : List Delivery) (c : Client) (resumes : Prop) : Prop where
  | silent (hno : ¬ resumes) (hstate : p'.app.state = p.app.state) (hnews : lastNews c ds = none)
      (hreads : p'.Reads c → p.Reads c)
  | told (hno : ¬ resumes) (hnews : lastNews c ds = some (stateNews p'.app.state))
      (hreads : p'.Reads c)
  | unheard (hno : ¬ resumes) (hnews : lastNews c ds = none) (hbefore : ¬ p.Reads c)
      (hafter : ¬ p'.Reads c)
  | resumed (h : resumes) (hstate : p'.app.state = p.app.state) (hnews : lastNews c ds = none)
      (hbefore : ¬ p.Reads c) (hafter : p'.Reads c)

theorem Told.hears {tr : List (Process × Env × Act)} {p' : Process} (h : Told p tr p')
    {resumes : Prop} (hno : ¬ resumes) (c : Client) :
    Hears p p' (outputs (S := serverSig) deliver tr) c resumes := by
  have hreads := reads_congr h.clients c
  rcases h.news with ⟨hstate, hnone⟩ | hall
  · exact .silent hno hstate (hnone c) hreads.mp
  · by_cases hc : p.Reads c
    · exact .told hno ((hall c).trans (if_pos hc)) (hreads.mpr hc)
    · exact .unheard hno ((hall c).trans (if_neg hc)) hc (fun h => hc (hreads.mp h))

/-- The text turns reading on for the client, who is registered and does not read. -/
def Process.TurnsOn (p : Process) (sender : Client) (text : CText) (c : Client) : Prop :=
  sender = c ∧ text = "READ-ENABLE".toList ∧ p.connected c = true ∧ ¬ p.Reads c

theorem not_news_enabled : ¬ IsStateNews "Write-only mode enabled" := by decide

theorem not_news_disabled : ¬ IsStateNews "Write-only mode disabled" := by decide

theorem command_hears (config : AppConfig) (sender : Client) (text : CText) (p : Process) :
    AlwaysHeard p (commandHandleText config sender text) (fun tr _ p' =>
      ∀ c, Hears p p' (outputs (S := serverSig) deliver tr) c (p.TurnsOn sender text c)) := by
  have hdispatch (hno : ∀ c, ¬ p.TurnsOn sender text c) (env : Env) :
      AlwaysHeard p (dispatch config sender (stripCanPrefix text)) (fun tr _ p' => ∀ c,
        Hears p p' (outputs (S := serverSig) deliver ((p, env, .clientContext sender) :: tr)) c
          (p.TurnsOn sender text c)) :=
    (dispatch_told config sender _ p).mono (fun _ _ _ htold c => htold.hears (hno c) c)
  by_cases htoggle : IsReadToggle text
  · cases hconnected : p.connected sender with
    | false =>
      intro env _
      change AlwaysHeard p ((if !(p.connected sender) then pure false else _) >>= _) _
      rw [hconnected]
      apply hdispatch
      rintro c ⟨rfl, -, hc, -⟩
      cases hconnected.symm.trans hc
    | true =>
      intro env _
      change AlwaysHeard p ((if !(p.connected sender) then pure false else _) >>= _) _
      rw [hconnected]
      rcases htoggle with rfl | rfl
      · intro env' _ env'' _ c
        refine .silent ?_ rfl (lastNews_reply c sender not_news_enabled)
          (reads_disabled hconnected)
        rintro ⟨-, h, -⟩
        exact absurd h (by decide)
      · intro env' _ env'' _ c
        have hreads := reads_enabled hconnected c
        have hnone := lastNews_reply c sender not_news_disabled
        by_cases hc : p.Reads c
        · exact .silent (fun hon => hon.2.2.2 hc) rfl hnone (fun _ => hc)
        · by_cases hsender : sender = c
          · exact .resumed ⟨hsender, rfl, hsender ▸ hconnected, hc⟩ rfl hnone hc
              (hreads.mpr (Or.inl hsender))
          · exact .silent (fun hon => hsender hon.1) rfl hnone
              (fun h => (hreads.mp h).resolve_left hsender)
  · rw [commandHandleText_other config sender htoggle]
    intro env _
    apply hdispatch
    rintro c ⟨-, htext, -⟩
    exact htoggle (Or.inr htext)

/-! ### The calls -/

/-- The run of a call. -/
def runCall (p : Process) (l : ClientCall × (ℕ → Env)) : Int × Process × List Delivery :=
  solo (S := serverSig) deliver (l.1.call.program p.app.config) p l.2

theorem runCall_connect (p : Process) (client : Client) (e : ℕ → Env) :
    runCall p (.connect client, e) =
      if (e 0).alloc then
        (0, p.setApp { p.app with clients := ⟨client, false⟩ :: p.app.clients },
          [(client, "Hello from server"), (client, stateNews p.app.state)])
      else (0, p, []) := by
  have hask : runCall p (.connect client, e) = solo (S := serverSig) deliver
      ((if !(e 0).alloc then pure () else do
        act (.registerClient client)
        act (.sendText client "Hello from server")
        wsBridgeSendCurrentState client : Server Unit) >>= fun _ => pure 0) p
      (fun n => e (n+1)) := rfl
  rw [hask]
  cases (e 0).alloc <;> rfl

theorem runCall_disconnect (p : Process) (client : Client) (e : ℕ → Env) :
    runCall p (.disconnect client, e) =
      (0, p.setApp { p.app with
        clients := p.app.clients.eraseP (fun c => c.client == client) }, []) := rfl

theorem runCall_message (p : Process) (client : Client) (payload : CText) (e : ℕ → Env) :
    runCall p (.message client payload, e) =
      if (e 0).alloc then solo (S := serverSig) deliver
        (commandHandleText p.app.config client (payload.takeWhile (· != Char.ofNat 0)) >>=
          fun _ => pure 0) p (fun n => e (n+2))
      else (0, p, [(client, "Server error: out of memory")]) := by
  have hask : runCall p (.message client payload, e) = solo (S := serverSig) deliver
      ((if !(e 0).alloc then act (.sendText client "Server error: out of memory") else do
        act (.log "WS_RX" (String.ofList (payload.takeWhile (· != Char.ofNat 0))))
        commandHandleText p.app.config client (payload.takeWhile (· != Char.ofNat 0)) :
          Server Unit) >>= fun _ => pure 0) p
      (fun n => e (n+1)) := rfl
  rw [hask]
  cases (e 0).alloc <;> rfl

theorem connect_hears (p : Process) (client : Client) (e : ℕ → Env) (c : Client) :
    Hears p (runCall p (.connect client, e)).2.1 (runCall p (.connect client, e)).2.2 c
      (p.Resumes c (.connect client, e)) := by
  have hno : ¬ p.Resumes c (.connect client, e) := id
  rw [runCall_connect]
  split_ifs
  · have hreads : (p.setApp { p.app with clients := ⟨client, false⟩ :: p.app.clients }).Reads c ↔
        client = c ∨ p.Reads c := by
      have hfirst : (p.setApp { p.app with
          clients := ⟨client, false⟩ :: p.app.clients }).app.clients =
          [] ++ ⟨client, false⟩ :: p.app.clients := rfl
      rw [reads_split hfirst c]
      exact or_congr (and_iff_left rfl) Iff.rfl
    by_cases hc : client = c
    · refine .told hno ?_ (hreads.mpr (Or.inl hc))
      subst hc
      have hlast := lastNews_append client [(client, "Hello from server")]
        [(client, stateNews p.app.state)]
      rw [lastNews_stateNews, Option.some_or] at hlast
      exact hlast
    · refine .silent hno rfl (lastNews_eq_none ?_) (fun h => (hreads.mp h).resolve_left hc)
      intro d hd hnews
      simp only [List.mem_cons, List.not_mem_nil, or_false] at hd
      rcases hd with rfl | rfl <;> exact hc hnews.1
  · exact .silent hno rfl rfl id

theorem disconnect_hears (p : Process) (client : Client) (e : ℕ → Env) (c : Client) :
    Hears p (runCall p (.disconnect client, e)).2.1 (runCall p (.disconnect client, e)).2.2 c
      (p.Resumes c (.disconnect client, e)) := by
  rw [runCall_disconnect]
  refine .silent id rfl rfl ?_
  rintro ⟨x, hx, hreads⟩
  exact ⟨x, List.mem_of_mem_eraseP hx, hreads⟩

theorem message_hears (p : Process) (client : Client) (payload : CText) (e : ℕ → Env)
    (c : Client) :
    Hears p (runCall p (.message client payload, e)).2.1
      (runCall p (.message client payload, e)).2.2 c
      (p.Resumes c (.message client payload, e)) := by
  rw [runCall_message]
  cases halloc : (e 0).alloc with
  | false =>
    refine .silent ?_ rfl (lastNews_reply c client (by decide)) id
    rintro ⟨-, h, -⟩
    cases halloc.symm.trans h
  | true =>
    have hresumes : p.Resumes c (.message client payload, e) ↔
        p.TurnsOn client (payload.takeWhile (· != Char.ofNat 0)) c :=
      and_congr_right (fun _ => and_iff_right halloc)
    have hcommand := command_hears p.app.config client
      (payload.takeWhile (· != Char.ofNat 0)) p
    have hcall : AlwaysHeard p (commandHandleText p.app.config client
        (payload.takeWhile (· != Char.ofNat 0)) >>= fun _ => (pure 0 : Server Int))
        (fun tr _ p' => ∀ c, Hears p p' (outputs (S := serverSig) deliver tr) c
          (p.TurnsOn client (payload.takeWhile (· != Char.ofNat 0)) c)) := by
      refine always_bind.mpr (hcommand.mono ?_)
      intro tr v p' hall
      change ∀ c, Hears p p' (outputs (S := serverSig) deliver (tr ++ [])) c _
      rw [List.append_nil]
      exact hall
    obtain ⟨tr, hout, hhears⟩ := hcall.solo (fun n => e (n+2))
    rw [if_pos rfl, ← hout, hresumes]
    exact hhears c

/-- What a step is for each client. -/
theorem call_hears (p : Process) (l : ClientCall × (ℕ → Env)) (c : Client) :
    Hears p (runCall p l).2.1 (runCall p l).2.2 c (p.Resumes c l) := by
  obtain ⟨call, e⟩ := l
  cases call with
  | connect client => exact connect_hears p client e c
  | disconnect client => exact disconnect_hears p client e c
  | message client payload => exact message_hears p client payload e c

/-! ### The law -/

/-- Each client was last told the state in which it was last reading. -/
def Informed (before : List CallStep) (p : Process) : Prop :=
  ∀ c, lastNews c (before.flatMap Machine.Taken.outputs) =
    (lastReading c (before.map Machine.Taken.state ++ [p])).map stateNews

variable {before : List CallStep} {x : CallStep}

theorem outputs_concat (before : List CallStep) (x : CallStep) :
    (before ++ [x]).flatMap Machine.Taken.outputs =
      before.flatMap Machine.Taken.outputs ++ x.outputs := by
  rw [List.flatMap_append, List.flatMap_singleton]

/-- A client that does not read was last told what the last process says in which it did. -/
theorem Informed.notReading {p : Process} (h : Informed before p) {c : Client}
    (hc : ¬ p.Reads c) : lastNews c (before.flatMap Machine.Taken.outputs) =
      (lastReading c (before.map Machine.Taken.state)).map stateNews := by
  rw [h c, lastReading_concat, if_neg hc]

theorem Informed.reading {p : Process} (h : Informed before p) {c : Client} (hc : p.Reads c) :
    lastNews c (before.flatMap Machine.Taken.outputs) = some (stateNews p.app.state) := by
  rw [h c, lastReading_concat, if_pos hc]
  rfl

theorem step_hears (hout : x.outputs = (runCall x.state x.label).2.2) (c : Client) :
    Hears x.state x.behind x.outputs c (x.state.Resumes c x.label) := by
  rw [hout]
  exact call_hears x.state x.label c

/-- The step leaves the clients that read with the state that there is exactly if each one
that resumes finds the state in which it has stopped to read. -/
theorem knows_iff (h : Informed before x.state)
    (hout : x.outputs = (runCall x.state x.label).2.2) :
    KnowsState before x ↔ ResumesInState before x := by
  refine forall_congr' (fun c => ?_)
  rw [outputs_concat, lastNews_append]
  cases step_hears hout c with
  | silent hno hstate hnews hreads =>
    refine iff_of_true ?_ (fun hresumes => absurd hresumes hno)
    intro hc
    rw [hnews, Option.none_or, h.reading (hreads hc), hstate]
  | told hno hnews hreads =>
    refine iff_of_true ?_ (fun hresumes => absurd hresumes hno)
    intro _
    rw [hnews, Option.some_or]
  | unheard hno hnews hbefore hafter =>
    exact iff_of_true (fun hc => absurd hc hafter) (fun hresumes => absurd hresumes hno)
  | resumed hresumes hstate hnews hbefore hafter =>
    rw [hnews, Option.none_or, h.notReading hbefore, hstate, forall_prop_of_true hafter,
      forall_prop_of_true hresumes, ← Option.map_some, (Option.map_injective stateNews_injective).eq_iff]

theorem informed_step (h : Informed before x.state)
    (hout : x.outputs = (runCall x.state x.label).2.2) (hin : ResumesInState before x) :
    Informed (before ++ [x]) x.behind := by
  intro c
  rw [outputs_concat, lastNews_append, List.map_append, List.map_singleton, lastReading_concat]
  cases step_hears hout c with
  | silent hno hstate hnews hreads =>
    rw [hnews, Option.none_or, hstate, h c]
    by_cases hc : x.behind.Reads c
    · rw [if_pos hc, lastReading_concat, if_pos (hreads hc)]
    · rw [if_neg hc]
  | told hno hnews hreads =>
    rw [hnews, Option.some_or, if_pos hreads]
    rfl
  | unheard hno hnews hbefore hafter =>
    rw [hnews, Option.none_or, if_neg hafter, h c]
  | resumed hresumes hstate hnews hbefore hafter =>
    rw [hnews, Option.none_or, if_pos hafter, h.notReading hbefore, hin c hresumes, hstate]

/-- The server before its first client. -/
def clientCallsInitial (config : AppConfig) (canFd : Int) : Process :=
  ⟨appContextInit config canFd, []⟩

/-- In every run of calls of clients, after each of them every client that reads knows the
state, exactly when every client that resumes finds the state in which it has stopped to
read. -/
theorem readers_know_state (config : AppConfig) (canFd : Int)
    (ls : List (ClientCall × (ℕ → Env))) :
    (∀ before x after,
      clientCalls.history (clientCallsInitial config canFd) ls = before ++ x :: after →
        KnowsState before x) ↔
      ∀ before x after,
        clientCalls.history (clientCallsInitial config canFd) ls = before ++ x :: after →
          ResumesInState before x := by
  have hout {p : Process} {l : ClientCall × (ℕ → Env)} {y : Process × List Delivery}
      (hstep : clientCalls.step p l = some y) : y = (runCall p l).2 :=
    (Option.some.inj hstep).symm
  refine Machine.forall_history_iff (h := []) (I := Informed) ?_ ?_ ?_ ls
  · intro before p l y hinformed hstep
    exact knows_iff (x := ⟨p, l, y.2⟩) hinformed (congrArg Prod.snd (hout hstep))
  · intro before p l y hinformed hstep hin
    have hnext := informed_step (x := ⟨p, l, y.2⟩) hinformed (congrArg Prod.snd (hout hstep)) hin
    rw [hout hstep] at hnext ⊢
    exact hnext
  · exact fun _ => rfl

/-- A client that was write-only during the change to `HOTFIRE` still shows `PRECHILLING`. -/
theorem reader_misled :
    let env : ℕ → Env := fun _ => ⟨0, fun _ => none, true, true⟩
    let run : List (ClientCall × (ℕ → Env)) := [(.connect 1, env), (.connect 2, env),
      (.message 1 "READ-DISABLE".toList, env), (.message 2 "STATE#HOTFIRE".toList, env),
      (.message 1 "READ-ENABLE".toList, env)]
    ¬ ∀ before x after, clientCalls.history (clientCallsInitial ⟨false, false⟩ 3) run =
      before ++ x :: after → KnowsState before x := by
  intro env run hlaw
  let steps := clientCalls.history (clientCallsInitial ⟨false, false⟩ 3) run
  have hsplit : steps = steps.take 4 ++ steps.get ⟨4, by decide⟩ :: steps.drop 5 := by
    rw [List.get_eq_getElem, List.getElem_cons_drop, List.take_append_drop]
  have hknows := hlaw (steps.take 4) (steps.get ⟨4, by decide⟩) (steps.drop 5) hsplit 1
  exact absurd (hknows (by decide)) (by decide)

end WsServer
