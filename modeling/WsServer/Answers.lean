import WsServer.Provenance
import WsServer.WorkerClient

/-! Every message of a client is answered exactly once: by the thread that handles it, or by a
firing worker that first tells the client that it has started and in the end how it went. -/
namespace WsServer
open Interaction Program

/-- An answer to a client: a text, or a worker that will report to it. -/
inductive Answer where
  | text (client : Client) (text : String)
  | worker (args : SequenceWorkerArgs)

def Answer.client : Answer → Client
  | .text client _ => client
  | .worker args => args.client

/-- The client is answered once; the ghost state is whether it has been. -/
def answering (client : Client) : Protocol serverSig Bool where
  allowed answered
    | .sendText c _ => answered = false ∧ c = client
    | .createWorker args => answered = false ∧ args.client = client
    | _ => True
  after answered
    | .sendText _ _, _ => some true
    | .createWorker _, created => some (answered || created)
    | _, _ => some answered

/-! ### The programs -/

/-- Nobody is answered by the action. -/
def Act.Silent : Act → Prop
  | .sendText _ _ | .createWorker _ => False
  | _ => True

/-- The handler answers exactly if it takes the text. -/
abbrev AnswersTaken (client : Client) (p : Server Bool) : Prop :=
  Follows (answering client) false p (fun taken answered => answered = taken)

/-- The program answers, once. -/
abbrev AnswersOnce (client : Client) {β : Type} (p : Server β) : Prop :=
  Follows (answering client) false p (fun _ answered => answered = true)

section Programs
variable {client : Client} {β β' : Type} {answered : Bool}

theorem answering_silent {a : Act} (ha : a.Silent) : (answering client).allowed answered a ∧
    ∀ r next, (answering client).after answered a r = some next → next = answered := by
  cases a with
  | sendText c text => exact ha.elim
  | createWorker args => exact ha.elim
  | _ => exact ⟨trivial, fun _ _ h => (Option.some.inj h).symm⟩

theorem silent_then {a : Act} {f : a.Answer → Server β} {post : β → Bool → Prop}
    (ha : a.Silent) (hf : ∀ r, Follows (answering client) answered (f r) post) :
    Follows (answering client) answered (act a >>= f) post := by
  obtain ⟨hallowed, hafter⟩ := @answering_silent client answered a ha
  refine ⟨hallowed, ?_⟩
  intro r next hnext
  rw [hafter r next hnext]
  exact hf r

theorem silent_bind {p : Server β} {f : β → Server β'} {post : β' → Bool → Prop}
    (hp : Performs Act.Silent p) (hf : ∀ v, Follows (answering client) answered (f v) post) :
    Follows (answering client) answered (p >>= f) post := by
  have hkeeps := hp.follows (answering client) answered (fun _ ha => answering_silent ha)
  refine Follows.bind hkeeps ?_
  rintro v next rfl
  exact hf v

theorem Kinds.silent {ks : List ActKind} {p : Server β} (h : Kinds ks p)
    (hks : ∀ k ∈ ks, k ∉ [ActKind.chat, .sequence]) : Performs Act.Silent p := by
  apply Performs.mono h
  intro a ha
  cases a with
  | sendText c text =>
    exact absurd (by decide : ActKind.chat ∈ [ActKind.chat, .sequence]) (hks _ ha)
  | createWorker args =>
    exact absurd (by decide : ActKind.sequence ∈ [ActKind.chat, .sequence]) (hks _ ha)
  | _ => trivial

theorem answers_reply (client : Client) (msg : String) :
    AnswersOnce client (sendReply client msg) :=
  ⟨⟨rfl, rfl⟩, fun _ _ h => (Option.some.inj h).symm⟩

theorem answers_reply_then (client : Client) (msg : String) :
    AnswersTaken client (do sendReply client msg; pure true) := by
  refine Follows.bind (answers_reply client msg) ?_
  rintro _ _ rfl
  exact rfl

theorem silent_wiggleStopAll (sendExitValue : Bool) :
    Performs Act.Silent (wiggleStopAll sendExitValue) := by
  refine performs_then trivial (fun stopped => ?_)
  split_ifs
  · exact performs_single trivial
  · trivial

theorem silent_appStateSet (state : AppState) : Performs Act.Silent (appStateSet state) := by
  have hbroadcast : Performs Act.Silent appStateBroadcast :=
    performs_then trivial (fun state => performs_single trivial)
  refine performs_then trivial (fun changed => ?_)
  dsimp only
  split_ifs
  · exact (silent_wiggleStopAll true).bind
      (fun _ => hbroadcast.bind (fun _ => performs_pure changed))
  · exact hbroadcast.bind (fun _ => performs_pure changed)

/-- A sequence is started exactly if a worker will report to the client. -/
theorem answers_firingSequenceStart (client : Client) (config : FiringSequenceConfig)
    (started completed failed : Option String) :
    Follows (answering client) false (firingSequenceStart client config started completed failed)
      (fun rc answered => answered = decide (rc = 0)) := by
  have hrelease : Follows (answering client) false
      (do act .finishSequence; pure (-1) : Server Int)
      (fun rc answered => answered = decide (rc = 0)) := silent_then trivial (fun _ => rfl)
  unfold firingSequenceStart
  split_ifs
  · exact rfl
  refine silent_then trivial (fun claimed => ?_)
  split_ifs
  · exact rfl
  refine silent_then trivial (fun allocated => ?_)
  split_ifs
  · exact hrelease
  refine ⟨⟨rfl, rfl⟩, ?_⟩
  intro created next hnext
  obtain rfl := Option.some.inj hnext
  cases created
  · exact hrelease
  · exact rfl

theorem answers_firingSequenceStartDrown (client : Client) :
    Follows (answering client) false (firingSequenceStartDrown client)
      (fun rc answered => answered = decide (rc = 0)) := by
  refine silent_then trivial (fun checked => ?_)
  split_ifs
  · exact rfl
  · exact silent_then trivial (fun profile => answers_firingSequenceStart client _ _ _ _)

/-- Where no sequence was started the handler has still to say so. -/
theorem answers_started {p : Server Int} {msg : String}
    (hp : Follows (answering client) false p (fun rc answered => answered = decide (rc = 0))) :
    AnswersTaken client (do
      let rc ← p
      if rc ≠ 0 then sendReply client msg else pure ()
      pure true) := by
  refine Follows.bind hp ?_
  rintro rc _ rfl
  by_cases hrc : rc = 0
  · rw [if_neg (not_not.mpr hrc), decide_eq_true hrc]
    exact rfl
  · rw [if_pos hrc, decide_eq_false hrc]
    exact answers_reply_then client msg

/-! ### The handlers -/

theorem answers_handleReadToggle (client : Client) (text : CText) :
    AnswersTaken client (handleReadToggle client text) := by
  refine silent_then trivial (fun ctx => ?_)
  split_ifs
  · exact rfl
  · exact silent_then trivial (fun _ => answers_reply_then client _)
  · exact silent_then trivial (fun _ => answers_reply_then client _)
  · exact rfl

theorem answers_handleTestingCommand (client : Client) (normalized : CText) :
    AnswersOnce client (handleTestingCommand client normalized) := by
  unfold handleTestingCommand
  split
  · exact answers_reply client _
  refine silent_then trivial (fun copied => ?_)
  split_ifs
  · exact answers_reply client _
  split
  · exact answers_reply client _
  split
  · exact answers_reply client _
  · exact silent_then trivial (fun _ => answers_reply client _)

theorem answers_handleAbort (client : Client) (text : CText) :
    AnswersTaken client (handleAbort client text) := by
  unfold handleAbort
  split_ifs
  · exact rfl
  · exact silent_then trivial (fun _ => silent_bind (silent_wiggleStopAll true)
      (fun _ => answers_reply_then client _))

theorem answers_handleStateCommand (client : Client) (text : CText) :
    AnswersTaken client (handleStateCommand client text) := by
  unfold handleStateCommand
  split_ifs
  · exact rfl
  · exact silent_bind (silent_appStateSet _) (fun _ => answers_reply_then client _)
  · exact silent_bind (silent_appStateSet _) (fun _ => answers_reply_then client _)
  · exact answers_reply_then client _

theorem answers_handleSetValve (client : Client) (text : CText) :
    AnswersTaken client (handleSetValve client text) := by
  unfold handleSetValve
  split_ifs
  · exact rfl
  split
  · exact answers_reply_then client _
  split
  · exact answers_reply_then client _
  split_ifs
  · exact answers_reply_then client _
  · exact silent_then trivial (fun _ => answers_reply_then client _)

theorem answers_handleWiggleStop (client : Client) (command : CText) :
    AnswersTaken client (handleWiggleStop client command) := by
  unfold handleWiggleStop
  split_ifs
  · exact rfl
  refine silent_bind ((kinds_stopEntries _ 0).silent (by decide)) ?_
  rintro ⟨stopped, parseError⟩
  dsimp only
  split_ifs <;> exact answers_reply_then client _

theorem answers_handleWiggle (client : Client) (command : CText) :
    AnswersTaken client (handleWiggle client command) := by
  unfold handleWiggle
  split_ifs
  · exact rfl
  refine silent_then trivial (fun state => ?_)
  split_ifs
  · exact answers_reply_then client _
  refine silent_bind ((kinds_startEntries _ 0).silent (by decide)) ?_
  rintro ⟨started, parseError⟩
  dsimp only
  split_ifs <;> exact answers_reply_then client _

theorem answers_handleDrown (client : Client) (text : CText) :
    AnswersTaken client (handleDrown client text) := by
  unfold handleDrown
  split_ifs
  · exact rfl
  · exact answers_started (answers_firingSequenceStartDrown client)

theorem answers_handleFire (client : Client) (text : CText) :
    AnswersTaken client (handleFire client text) := by
  unfold handleFire
  split_ifs
  · exact rfl
  refine silent_then trivial (fun strdupOk => ?_)
  split
  · exact answers_reply_then client _
  · exact answers_started (answers_firingSequenceStart client _ _ _ _)

theorem answers_handleRawCan (client : Client) (text : CText) :
    AnswersTaken client (handleRawCan client text) := by
  unfold handleRawCan
  split
  · exact rfl
  refine silent_then trivial (fun result => ?_)
  split
  · exact silent_then trivial (fun _ => answers_reply_then client _)
  · exact answers_reply_then client _

/-- The next handler gets a text that nobody has answered yet. -/
theorem AnswersTaken.handler {p : Server Bool} (h : AnswersTaken client p) {rest : Server Unit}
    (hrest : AnswersOnce client rest) :
    AnswersOnce client (p >>= fun taken => if taken then pure () else rest) := by
  refine Follows.bind h ?_
  rintro _ taken rfl
  cases taken
  · exact hrest
  · exact rfl

theorem answers_commandHandleText (config : AppConfig) (client : Client) (text : CText) :
    AnswersOnce client (commandHandleText config client text) := by
  have hhotfire (normalized : CText) : AnswersOnce client (hotfireHandlers client normalized) := by
    refine silent_then trivial (fun state => ?_)
    split_ifs
    · exact answers_reply client _
    · apply (answers_handleDrown client normalized).handler
      apply (answers_handleFire client normalized).handler
      exact (answers_handleRawCan client normalized).handler (answers_reply client _)
  apply (answers_handleReadToggle client text).handler
  dsimp only
  split_ifs
  · exact answers_handleTestingCommand client _
  · exact answers_reply client _
  · apply (answers_handleAbort client _).handler
    apply (answers_handleStateCommand client _).handler
    apply (answers_handleSetValve client _).handler
    refine silent_then trivial (fun copied => ?_)
    split_ifs
    · exact answers_reply client _
    · apply (answers_handleWiggleStop client _).handler
      apply (answers_handleWiggle client _).handler
      exact hhotfire _

theorem answers_message (config : AppConfig) (client : Client) (payload : CText) :
    AnswersOnce client ((Call.message client payload).program config) := by
  have hmessage : AnswersOnce client (onMessage config client payload) := by
    refine silent_then trivial (fun copied => ?_)
    split_ifs
    · exact answers_reply client _
    · exact silent_then trivial (fun _ => answers_commandHandleText config client _)
  refine Follows.bind hmessage ?_
  rintro _ _ rfl
  exact rfl

end Programs

/-! ### The calls of a run -/

/-- The answers that a step of a thread gives. -/
def answersOf (x : ServerStep) : List Answer :=
  match x.state.action x.label.actor with
  | some (.sendText client text) => [.text client text]
  | some (.createWorker args) => if x.label.env.thread then [.worker args] else []
  | _ => []

/-- The call that a thread has made last and its answers so far, behind one more step. -/
def advance (t : Thread) (last : Option (Call × List Answer)) (x : ServerStep) :
    Option (Call × List Answer) :=
  match x.label.actor with
  | .call t' c => if t' = t then some (c, []) else last
  | .thread t' => if t' = t then last.map (fun y => (y.1, y.2 ++ answersOf x)) else last
  | _ => last

/-- The call that a thread has made last, with the answers that it has given since. -/
def sinceCall (t : Thread) (xs : List ServerStep) : Option (Call × List Answer) :=
  xs.foldl (advance t) none

theorem sinceCall_append (t : Thread) (xs : List ServerStep) (x : ServerStep) :
    sinceCall t (xs ++ [x]) = advance t (sinceCall t xs) x := by
  rw [sinceCall, List.foldl_append]
  rfl

/-- How far a message of the client has been answered: once, or by a program that has still to
do it. -/
inductive AnsweredBy (client : Client) (p : Server Int) : List Answer → Prop where
  | waiting (h : AnswersOnce client p) : AnsweredBy client p []
  | answered (h : Follows (answering client) true p (fun _ answered => answered = true))
      (a : Answer) (ha : a.client = client) : AnsweredBy client p [a]

/-- An action gives the answer that its protocol lets it. -/
theorem AnsweredBy.perform {s : System} {t : Thread} {env : Env} {a : Act}
    {k : a.Answer → Server Int} (hk : s.threads t = Program.act (S := serverSig) a k)
    {client : Client} {answers : List Answer} {os : List Output}
    (h : AnsweredBy client (s.threads t) answers) :
    AnsweredBy client (k (perform s.process env a).2.1)
      (answers ++ answersOf ⟨s, ⟨.thread t, env⟩, os⟩) := by
  have haction : s.action (.thread t) = some a := action_of_thread hk
  rw [hk] at h
  simp only [answersOf, haction]
  cases h with
  | waiting h =>
    cases a with
    | sendText c text =>
      obtain ⟨⟨-, rfl⟩, hnext⟩ := h
      exact .answered (hnext () true rfl) (.text c text) rfl
    | createWorker args =>
      obtain ⟨⟨-, rfl⟩, hnext⟩ := h
      simp only [WsServer.perform]
      cases hthread : env.thread with
      | true => exact .answered (hnext true true rfl) (.worker args) rfl
      | false => exact .waiting (hnext false false rfl)
    | _ => exact .waiting (h.2 _ false rfl)
  | answered h b hb =>
    cases a with
    | sendText c text => cases h.1.1
    | createWorker args => cases h.1.1
    | _ => exact .answered (h.2 _ true rfl) b hb

/-- What holds of every thread that is at work on a message, or done with it. -/
def AllAnswered (xs : List ServerStep) (s : System) : Prop :=
  ∀ t client payload answers, sinceCall t xs = some (.message client payload, answers) →
    AnsweredBy client (s.threads t) answers

theorem allAnswered_step {xs : List ServerStep} {s : System} {l : Label}
    {x : System × List Output} (hs : AllAnswered xs s) (hstep : server.step s l = some x) :
    AllAnswered (xs ++ [⟨s, l, x.2⟩]) x.1 := by
  obtain ⟨s', os⟩ := x
  obtain ⟨actor, env⟩ := l
  intro t client payload answers hlast
  rw [sinceCall_append] at hlast
  have hmove := system_move hstep
  cases hmove with
  | call t' c v hidle =>
    dsimp only
    simp only [advance] at hlast
    split_ifs at hlast with ht
    · subst ht
      obtain ⟨rfl, rfl⟩ := Prod.mk.inj (Option.some.inj hlast)
      rw [Function.update_self]
      exact .waiting (answers_message s.app.config client payload)
    · rw [Function.update_of_ne (Ne.symm ht)]
      exact hs t client payload answers hlast
  | thread t' a k hk =>
    simp only [advance] at hlast
    dsimp only [System.afterAct]
    split_ifs at hlast with ht
    · subst ht
      obtain ⟨⟨c, before⟩, hbefore, heq⟩ := Option.map_eq_some_iff.mp hlast
      obtain ⟨rfl, rfl⟩ := Prod.mk.inj heq
      rw [Function.update_self]
      exact (hs t' client payload before hbefore).perform hk
    · rw [Function.update_of_ne (Ne.symm ht)]
      exact hs t client payload answers hlast
  | worker k args pc mid e hw hm => exact hs t client payload answers hlast
  | signal => exact hs t client payload answers hlast

/-! ### The workers -/

def Output.message (k : ℕ) : Output → Option SequenceMessage
  | .worker k' (.send m) => if k' = k then some m else none
  | _ => none

/-- What a worker has told its client, in order. -/
def messagesOf (k : ℕ) (os : List Output) : List SequenceMessage := os.filterMap (Output.message k)

/-- What a worker has told its client when it gets to a place. -/
def WorkerPc.Told (told : List SequenceMessage) : WorkerPc → Prop
  | .sendStarted => told = []
  | .finish | .done => ∃ m, m ≠ .started ∧ told = [.started, m]
  | _ => told = [.started]

theorem told_nextBlock {told : List SequenceMessage} (h : told = [.started])
    (args : SequenceWorkerArgs) (i : ℕ) : (args.nextBlock i).Told told := by
  rw [SequenceWorkerArgs.nextBlock]
  split_ifs <;> exact h

theorem told_worker {args : SequenceWorkerArgs} {x : WorkerInput} {pc mid : WorkerPc}
    {e : WorkerEvent} {k : ℕ} {told : List SequenceMessage} (hm : WorkerMove args x pc mid e)
    (h : pc.Told told) : mid.Told (told ++ messagesOf k [.worker k e]) := by
  have hmessage (m : SequenceMessage) : messagesOf k [.worker k (.send m)] = [m] := by
    simp [messagesOf, Output.message]
  cases hm with
  | start =>
    obtain rfl : told = [] := h
    rw [hmessage]
    exact told_nextBlock rfl args 0
  | aborted =>
    obtain rfl : told = [.started] := h
    rw [hmessage]
    exact ⟨.aborted, by decide, rfl⟩
  | failed =>
    obtain rfl : told = [.started] := h
    rw [hmessage]
    exact ⟨.failed, by decide, rfl⟩
  | completed =>
    obtain rfl : told = [.started] := h
    rw [hmessage]
    exact ⟨.completed, by decide, rfl⟩
  | logged i =>
    obtain rfl : told = [.started] := h
    exact told_nextBlock rfl args (i+1)
  | _ =>
    -- the client is told nothing
    change WorkerPc.Told (told ++ []) _
    rw [List.append_nil]
    exact h

/-- A worker tells its client at most two things, and both of them when it is done. -/
theorem WorkerPc.Told.outcome {told : List SequenceMessage} {pc : WorkerPc} (h : pc.Told told) :
    ∃ m, m ≠ .started ∧ told <+: [.started, m] ∧ (pc = .done → told = [.started, m]) := by
  cases pc with
  | sendStarted =>
    obtain rfl : told = [] := h
    exact ⟨.aborted, by decide, List.nil_prefix, fun h => WorkerPc.noConfusion h⟩
  | finish =>
    obtain ⟨m, hm, rfl⟩ := h
    exact ⟨m, hm, List.prefix_rfl, fun _ => rfl⟩
  | done =>
    obtain ⟨m, hm, rfl⟩ := h
    exact ⟨m, hm, List.prefix_rfl, fun _ => rfl⟩
  | _ =>
    obtain rfl : told = [.started] := h
    exact ⟨.aborted, by decide, ⟨[.aborted], rfl⟩, fun h => WorkerPc.noConfusion h⟩

/-- Every worker has told its client what belongs to the place that it is at. -/
structure Reporting (s : System) (os : List Output) : Prop where
  told : ∀ k (w : Worker), s.process.workers[k]? = some w → w.pc.Told (messagesOf k os)
  unborn : ∀ k, s.process.workers[k]? = none → messagesOf k os = []

theorem reporting_initial {config : AppConfig} {canFd : Int} :
    Reporting (System.initial config canFd) [] := by
  refine ⟨?_, fun _ _ => rfl⟩
  intro k w hw
  cases hw

theorem messagesOf_append (k : ℕ) (os os' : List Output) :
    messagesOf k (os ++ os') = messagesOf k os ++ messagesOf k os' := List.filterMap_append

theorem messagesOf_others {k : ℕ} {os : List Output}
    (h : ∀ e, .worker k e ∉ os) : messagesOf k os = [] := by
  apply List.filterMap_eq_nil_iff.mpr
  intro o ho
  cases o with
  | event t e => rfl
  | worker k' e =>
    have hne : k' ≠ k := by
      rintro rfl
      exact h e ho
    cases e with
    | send m => simp only [Output.message, if_neg hne]
    | _ => rfl

theorem reporting_step {s s' : System} {l : Label} {os os' : List Output} (h : Reporting s os)
    (hstep : server.step s l = some (s', os')) : Reporting s' (os ++ os') := by
  obtain ⟨actor, env⟩ := l
  have hmove := system_move hstep
  cases hmove with
  | call t c v hidle =>
    rw [List.append_nil]
    exact ⟨h.told, h.unborn⟩
  | signal =>
    rw [List.append_nil]
    exact ⟨h.told, h.unborn⟩
  | thread t a k hk =>
    have hnone (j : ℕ) : messagesOf j (os ++ (perform s.process env a).2.2.map (.event t)) =
        messagesOf j os := by
      have hothers : ∀ e, Output.worker j e ∉ (perform s.process env a).2.2.map (.event t) := by
        intro e hmem
        obtain ⟨_, -, heq⟩ := List.mem_map.mp hmem
        cases heq
      rw [messagesOf_append, messagesOf_others hothers, List.append_nil]
    constructor
    · intro j w hw
      rw [hnone]
      rcases perform_workers_cases s.process env a with ⟨args, -, -, hnew⟩ | ⟨-, hsame⟩
      · rw [System.afterAct, hnew] at hw
        by_cases hlt : j < s.process.workers.length
        · rw [List.getElem?_append_left hlt] at hw
          exact h.told j w hw
        · -- the new worker is about to say that it has started
          rw [List.getElem?_append_right (not_lt.mp hlt)] at hw
          have hmem := List.mem_of_getElem? hw
          rw [List.mem_singleton.mp hmem]
          exact h.unborn j (List.getElem?_eq_none (not_lt.mp hlt))
      · rw [System.afterAct, hsame] at hw
        exact h.told j w hw
    · intro j hw
      rw [hnone]
      rcases perform_workers_cases s.process env a with ⟨args, -, -, hnew⟩ | ⟨-, hsame⟩
      · rw [System.afterAct, hnew, List.getElem?_eq_none_iff, List.length_append] at hw
        exact h.unborn j (List.getElem?_eq_none (by omega))
      · rw [System.afterAct, hsame] at hw
        exact h.unborn j hw
  | worker k args pc mid e hw hm =>
    have hlt : k < s.process.workers.length := (List.getElem?_eq_some_iff.mp hw).1
    have hother {j : ℕ} (hj : j ≠ k) : messagesOf j (os ++ [.worker k e]) = messagesOf j os := by
      have hothers : ∀ e', Output.worker j e' ∉ [Output.worker k e] :=
        fun e' hmem => hj (Output.worker.inj (List.mem_singleton.mp hmem)).1
      rw [messagesOf_append, messagesOf_others hothers, List.append_nil]
    constructor
    · intro j w hwj
      by_cases hj : j = k
      · subst hj
        rw [System.afterWorker, List.getElem?_set_self hlt] at hwj
        rw [← Option.some.inj hwj, messagesOf_append]
        exact told_worker hm (h.told j _ hw)
      · rw [System.afterWorker, List.getElem?_set_ne (Ne.symm hj)] at hwj
        rw [hother hj]
        exact h.told j w hwj
    · intro j hwj
      have hj : j ≠ k := by
        rintro rfl
        rw [System.afterWorker, List.getElem?_set_self hlt] at hwj
        cases hwj
      rw [System.afterWorker, List.getElem?_set_ne (Ne.symm hj)] at hwj
      rw [hother hj]
      exact h.unborn j hwj

/-! ### Who answers -/

/-- A worker was created with these arguments. -/
def System.Employs (s : System) (args : SequenceWorkerArgs) : Prop :=
  ∃ w ∈ s.process.workers, w.args = args

theorem employs_step {s s' : System} {l : Label} {os : List Output} {args : SequenceWorkerArgs}
    (h : s.Employs args) (hstep : server.step s l = some (s', os)) : s'.Employs args := by
  obtain ⟨actor, env⟩ := l
  obtain ⟨w, hw, hargs⟩ := h
  have hmove := system_move hstep
  cases hmove with
  | call t c v hidle => exact ⟨w, hw, hargs⟩
  | signal => exact ⟨w, hw, hargs⟩
  | thread t a k hk =>
    refine ⟨w, ?_, hargs⟩
    rcases perform_workers_cases s.process env a with ⟨args', -, -, hnew⟩ | ⟨-, hsame⟩
    · rw [System.afterAct, hnew]
      exact List.mem_append_left _ hw
    · rw [System.afterAct, hsame]
      exact hw
  | worker k args' pc mid e hk hm =>
    -- the one that has moved is still there, somewhere else in its code
    obtain ⟨j, hj⟩ := List.mem_iff_getElem?.mp hw
    have hlt : k < s.process.workers.length := (List.getElem?_eq_some_iff.mp hk).1
    by_cases hjk : j = k
    · subst hjk
      obtain rfl := Option.some.inj (hj.symm.trans hk)
      exact ⟨⟨args', mid⟩, List.mem_of_getElem? (List.getElem?_set_self hlt), hargs⟩
    · exact ⟨w, List.mem_of_getElem? ((List.getElem?_set_ne (Ne.symm hjk)).trans hj), hargs⟩

/-- Every worker that counts as an answer is one of the server's. -/
def AllEmployed (xs : List ServerStep) (s : System) : Prop :=
  ∀ t c answers args, sinceCall t xs = some (c, answers) → .worker args ∈ answers →
    s.Employs args

theorem allEmployed_step {xs : List ServerStep} {s : System} {l : Label}
    {x : System × List Output} (hs : AllEmployed xs s) (hstep : server.step s l = some x) :
    AllEmployed (xs ++ [⟨s, l, x.2⟩]) x.1 := by
  intro t c answers args hlast hmem
  rw [sinceCall_append] at hlast
  have hkept (hbefore : sinceCall t xs = some (c, answers)) : x.1.Employs args :=
    employs_step (hs t c answers args hbefore hmem) hstep
  obtain ⟨actor, env⟩ := l
  cases actor with
  | worker k => exact hkept hlast
  | signal => exact hkept hlast
  | call t' c' =>
    simp only [advance] at hlast
    split_ifs at hlast with ht
    · obtain ⟨-, rfl⟩ := Prod.mk.inj (Option.some.inj hlast)
      cases hmem
    · exact hkept hlast
  | thread t' =>
    simp only [advance] at hlast
    split_ifs at hlast with ht
    · obtain ⟨⟨c', before⟩, hbefore, heq⟩ := Option.map_eq_some_iff.mp hlast
      obtain ⟨-, rfl⟩ := Prod.mk.inj heq
      rcases List.mem_append.mp hmem with hmem | hmem
      · exact employs_step (hs t c' before args hbefore hmem) hstep
      · simp only [answersOf] at hmem
        split at hmem
        · cases List.mem_singleton.mp hmem
        · rename_i args' haction
          split_ifs at hmem with hthread
          · obtain rfl := Answer.worker.inj (List.mem_singleton.mp hmem)
            obtain ⟨k, hk⟩ := thread_of_action haction
            obtain ⟨s', os⟩ := x
            have hmove := system_move hstep
            cases hmove with
            | thread _ a k' hk' =>
              obtain ⟨rfl, -⟩ := Program.act.inj (hk.symm.trans hk')
              refine ⟨⟨args, .sendStarted⟩, ?_, rfl⟩
              simp only [System.afterAct, perform, hthread, if_true]
              exact List.mem_append_right _ (List.mem_singleton.mpr rfl)
          · cases hmem
        · cases hmem
    · exact hkept hlast

/-! ### Runs -/

/-- Under any interleaving every message of a client is answered once by the time that its
thread is done with it: by a text for that client, or by a worker for it; and every worker tells
its client that it has started, and at its end exactly one of the three ways that it has gone. -/
theorem messages_answered_once {config : AppConfig} {canFd : Int} {ls : List Label} {s : System}
    {os : List Output} (hrun : server.run (System.initial config canFd) ls = some (s, os)) :
    (∀ t client payload answers,
      sinceCall t (server.history (.initial config canFd) ls) =
          some (.message client payload, answers) →
        answers.length ≤ 1 ∧ (∀ v, s.threads t = .ret v → answers.length = 1) ∧
          ∀ a ∈ answers, a.client = client ∧ ∀ args, a = .worker args → s.Employs args) ∧
    ∀ k (w : Worker), s.process.workers[k]? = some w →
      ∃ m, m ≠ .started ∧ messagesOf k os <+: [.started, m] ∧
        (w.pc = .done → messagesOf k os = [.started, m]) := by
  have hanswered := Machine.history_invariant (I := AllAnswered) (h := [])
    (fun _ _ _ _ hs hstep => allAnswered_step hs hstep) (fun _ _ _ _ h => nomatch h) hrun
  have hemployed := Machine.history_invariant (I := AllEmployed) (h := [])
    (fun _ _ _ _ hs hstep => allEmployed_step hs hstep) (fun _ _ _ _ h => nomatch h) hrun
  have hreporting : Reporting s ([] ++ os) :=
    Machine.outputs_invariant (I := fun os s => Reporting s os) (C := fun _ => True)
      (fun _ _ _ _ hs _ hstep => reporting_step hs hstep) reporting_initial (fun _ _ => trivial) hrun
  rw [List.nil_append] at hanswered hemployed hreporting
  constructor
  · intro t client payload answers hlast
    have hby := hanswered t client payload answers hlast
    refine ⟨?_, ?_, ?_⟩
    · cases hby with
      | waiting h => exact Nat.zero_le 1
      | answered h a ha => exact Nat.le_refl 1
    · intro v hv
      rw [hv] at hby
      cases hby with
      | waiting h => cases h
      | answered h a ha => rfl
    · intro a ha
      constructor
      · cases hby with
        | waiting h => cases ha
        | answered h b hb =>
          rw [List.mem_singleton.mp ha]
          exact hb
      · rintro args rfl
        exact hemployed t _ answers args hlast ha
  · intro k w hw
    exact (hreporting.told k w hw).outcome

/-- A client that may not command is told so, and nothing more. -/
theorem messages_answered_once_refusal : ∃ s os answers,
    server.run (System.initial ⟨true, false⟩ 3)
        (⟨.call (.handler 0) (.message 7 ['x']), luckyEnv⟩ ::
          List.replicate 4 ⟨.thread (.handler 0), luckyEnv⟩) = some (s, os) ∧
      sinceCall (.handler 0) (server.history (System.initial ⟨true, false⟩ 3)
        (⟨.call (.handler 0) (.message 7 ['x']), luckyEnv⟩ ::
          List.replicate 4 ⟨.thread (.handler 0), luckyEnv⟩)) =
        some (.message 7 ['x'], answers) ∧
      answers.length = 1 := by
  have hrun : server.run (System.initial ⟨true, false⟩ 3)
      (⟨.call (.handler 0) (.message 7 ['x']), luckyEnv⟩ ::
        List.replicate 4 ⟨.thread (.handler 0), luckyEnv⟩) = some (_, _) := rfl
  obtain ⟨-, hdone, -⟩ := (messages_answered_once hrun).1 (.handler 0) 7 ['x'] _ rfl
  exact ⟨_, _, _, hrun, rfl, hdone 0 rfl⟩

end WsServer
