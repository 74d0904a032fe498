import WsServer.OneSequence

/-! The client handle of the firing worker. It is taken when the sequence is started and used
up to the last message, while `on_disconnect` knows nothing of workers: the handle is good
exactly as long as no client departs for which a worker has still something to send. -/
namespace WsServer
open Interaction Program

abbrev ServerStep := Machine.Taken System Label Output

/-- The client whose `on_disconnect` returns with the step. -/
def ServerStep.disconnected (x : ServerStep) : Option Client :=
  match x.state.action x.label.actor with
  | some (.unregisterClient client) => some client
  | _ => none

/-- The client whose `on_connect` is called. -/
def ServerStep.connected (x : ServerStep) : Option Client :=
  match x.label.actor with
  | .call _ (.connect client) => some client
  | _ => none

/-- The arguments of the worker that the step creates. -/
def ServerStep.started (x : ServerStep) : Option SequenceWorkerArgs :=
  match x.state.action x.label.actor with
  | some (.createWorker args) => if x.label.env.thread then some args else none
  | _ => none

/-- The worker that calls `ws_bridge_send_text`, with the handle that it uses. -/
def ServerStep.workerSend (x : ServerStep) : Option (ℕ × Client) :=
  match x.label.actor, x.outputs with
  | .worker k, [.worker _ (.send _)] =>
    (x.state.process.workers[k]?).map (fun w => (k, w.args.client))
  | _, _ => none

/-- `on_disconnect` of the client has returned, and it has not connected again. -/
def departed (client : Client) (steps : List ServerStep) : Bool :=
  steps.foldl (fun gone x =>
    if x.disconnected = some client then true
    else if x.connected = some client then false else gone) false

/-- The handle of worker `k`: `on_disconnect` of its client had not returned when the worker
was created, and has not since. -/
structure HandleLive (steps : List ServerStep) (k : ℕ) (client : Client) : Prop where
  created : departed client
    (steps.filter (fun x => x.state.process.workers.length ≤ k)) = false
  since : ∀ x ∈ steps, k < x.state.process.workers.length → x.disconnected ≠ some client

/-- The worker uses a handle whose `on_disconnect` has not returned. -/
def SendsToLive (before : List ServerStep) (x : ServerStep) : Prop :=
  ∀ k client, x.workerSend = some (k, client) → HandleLive before k client

/-- The worker has still to call `ws_bridge_send_text`. -/
def WorkerPc.SendAhead (pc : WorkerPc) : Prop := pc ≠ .finish ∧ pc ≠ .done

instance : DecidablePred WorkerPc.SendAhead := fun _ => inferInstanceAs (Decidable (_ ∧ _))

/-- No client departs to whom a worker has still to send, and no worker is created for a
client who has departed. -/
structure DepartsUnused (before : List ServerStep) (x : ServerStep) : Prop where
  leaves : ∀ client, x.disconnected = some client →
    ∀ w ∈ x.state.process.workers, w.args.client = client → ¬ w.pc.SendAhead
  starts : ∀ args, x.started = some args → departed args.client before = false

/-! ### The handles of the workers -/

theorem departed_concat (client : Client) (steps : List ServerStep) (x : ServerStep) :
    departed client (steps ++ [x]) =
      if x.disconnected = some client then true
      else if x.connected = some client then false else departed client steps := by
  rw [departed, List.foldl_append]
  rfl

/-- A step that is no callback. -/
theorem departed_quiet (client : Client) (steps : List ServerStep) {x : ServerStep}
    (hdisconnected : x.disconnected = none) (hconnected : x.connected = none) :
    departed client (steps ++ [x]) = departed client steps := by
  have hnone : ¬ (none : Option Client) = some client := (Option.some_ne_none client).symm
  rw [departed_concat, hdisconnected, hconnected, if_neg hnone, if_neg hnone]

/-- All workers with something to send have live handles. -/
structure HandlesLive (before : List ServerStep) (s : System) : Prop where
  live : ∀ (k : ℕ) (w : Worker), s.process.workers[k]? = some w → w.pc.SendAhead →
    HandleLive before k w.args.client
  growing : ∀ x ∈ before, x.state.process.workers.length ≤ s.process.workers.length

/-- A step that is no `on_disconnect` of the client changes nothing for a worker that
there is. -/
theorem HandleLive.concat {steps : List ServerStep} {k : ℕ} {client : Client}
    (h : HandleLive steps k client) {x : ServerStep}
    (hk : k < x.state.process.workers.length) (hx : x.disconnected ≠ some client) :
    HandleLive (steps ++ [x]) k client := by
  refine ⟨?_, ?_⟩
  · rw [List.filter_append, List.filter_cons_of_neg (by simpa using hk), List.filter_nil,
      List.append_nil]
    exact h.created
  · intro y hy hlength
    rcases List.mem_append.mp hy with hy | hy
    · exact h.since y hy hlength
    · rw [List.mem_singleton.mp hy]
      exact hx

theorem disconnected_eq_some {x : ServerStep} {client : Client} :
    x.disconnected = some client ↔
      x.state.action x.label.actor = some (.unregisterClient client) := by
  unfold ServerStep.disconnected
  split
  · rename_i client' h
    rw [h]
    simp only [Option.some.injEq, Act.unregisterClient.injEq]
  · rename_i h
    exact iff_of_false nofun (h client)

theorem started_eq_some {x : ServerStep} {args : SequenceWorkerArgs} :
    x.started = some args ↔
      x.state.action x.label.actor = some (.createWorker args) ∧ x.label.env.thread = true := by
  unfold ServerStep.started
  split
  · rename_i args' h
    rw [h]
    split_ifs with hthread
    · simp only [Option.some.injEq, Act.createWorker.injEq, hthread, and_true]
    · exact iff_of_false nofun (fun h => hthread h.2)
  · rename_i h
    exact iff_of_false nofun (fun h' => h args h'.1)

/-- What a step makes of the workers: one moves on, one is created, or they stay. -/
inductive WorkersMove (x : ServerStep) (s' : System) : Prop where
  | moved (k : ℕ) (args : SequenceWorkerArgs) (pc mid : WorkerPc) (e : WorkerEvent)
      (hactor : x.label.actor = .worker k) (hw : x.state.process.workers[k]? = some ⟨args, pc⟩)
      (hmove : WorkerMove args (workerInput x.state.app x.label.env) pc mid e)
      (h : s'.process.workers = x.state.process.workers.set k ⟨args, mid⟩)
  | created (args : SequenceWorkerArgs) (hstarted : x.started = some args)
      (h : s'.process.workers = x.state.process.workers ++ [⟨args, .sendStarted⟩])
  | same (hstarted : x.started = none) (h : s'.process.workers = x.state.process.workers)

theorem workersMove {s s' : System} {l : Label} {os : List Output}
    (hstep : server.step s l = some (s', os)) : WorkersMove ⟨s, l, os⟩ s' := by
  obtain ⟨actor, env⟩ := l
  have hmove : SystemMove s env actor s' os := system_move hstep
  cases hmove with
  | call t c v ht => exact .same rfl rfl
  | thread t a k ht =>
    have haction : s.action (.thread t) = some a := action_of_thread ht
    rcases perform_workers_cases s.process env a with ⟨args, rfl, hthread, h⟩ | ⟨hnone, h⟩
    · exact .created args (started_eq_some.mpr ⟨haction, hthread⟩) h
    · refine .same ?_ h
      rw [Option.eq_none_iff_forall_ne_some]
      intro args hstarted
      obtain ⟨hcreate, hthread⟩ := started_eq_some.mp hstarted
      have ha : a = .createWorker args := Option.some.inj (haction.symm.trans hcreate)
      cases (hnone args ha).symm.trans hthread
  | worker k args pc mid e hw hm => exact .moved k args pc mid e rfl hw hm rfl
  | signal => exact .same rfl rfl

theorem WorkersMove.length {x : ServerStep} {s' : System} (h : WorkersMove x s') :
    x.state.process.workers.length ≤ s'.process.workers.length := by
  cases h with
  | moved k args pc mid e hactor hw hmove h => rw [h, List.length_set]
  | created args hstarted h =>
    rw [h, List.length_append]
    exact Nat.le_add_right _ _
  | same hstarted h => rw [h]

/-- A worker that has still to send had so before its step. -/
theorem sendAhead_of_move {args : SequenceWorkerArgs} {x : WorkerInput} {pc mid : WorkerPc}
    {e : WorkerEvent} (hm : WorkerMove args x pc mid e) (h : mid.SendAhead) : pc.SendAhead := by
  cases hm with
  | finished => exact absurd rfl h.2
  | _ => exact ⟨WorkerPc.noConfusion, WorkerPc.noConfusion⟩

/-- Only an action is an `on_disconnect` that returns or the creation of a worker. -/
theorem quiet_of_worker {x : ServerStep} {k : ℕ} (h : x.label.actor = .worker k) :
    x.disconnected = none ∧ x.connected = none ∧ x.started = none := by
  unfold ServerStep.disconnected ServerStep.connected ServerStep.started
  rw [h]
  exact ⟨rfl, rfl, rfl⟩

/-- The step that creates a worker is no callback. -/
theorem quiet_of_started {x : ServerStep} {args : SequenceWorkerArgs}
    (h : x.started = some args) : x.disconnected = none ∧ x.connected = none := by
  obtain ⟨haction, -⟩ := started_eq_some.mp h
  refine ⟨?_, ?_⟩
  · rw [Option.eq_none_iff_forall_ne_some]
    intro client hclient
    cases (disconnected_eq_some.mp hclient).symm.trans haction
  · unfold ServerStep.connected
    split
    · rename_i hactor
      rw [hactor] at haction
      cases haction
    · rfl

/-- The step lemma. -/
theorem handlesLive_step {before : List ServerStep} {x : ServerStep} {s' : System}
    (h : HandlesLive before x.state) (hx : DepartsUnused before x) (hmove : WorkersMove x s') :
    HandlesLive (before ++ [x]) s' := by
  have hgrowing : ∀ y ∈ before ++ [x],
      y.state.process.workers.length ≤ s'.process.workers.length := by
    intro y hy
    rcases List.mem_append.mp hy with hy | hy
    · exact (h.growing y hy).trans hmove.length
    · rw [List.mem_singleton.mp hy]
      exact hmove.length
  refine ⟨?_, hgrowing⟩
  -- a worker that there was and that has still to send
  have hold (k : ℕ) (w : Worker) (hw : x.state.process.workers[k]? = some w)
      (hahead : w.pc.SendAhead) : HandleLive (before ++ [x]) k w.args.client := by
    refine (h.live k w hw hahead).concat (List.getElem?_eq_some_iff.mp hw).1 ?_
    intro hclient
    exact hx.leaves w.args.client hclient w (List.mem_of_getElem? hw) rfl hahead
  intro k w hw hahead
  cases hmove with
  | moved j args pc mid e hactor hj hstep hworkers =>
    rw [hworkers] at hw
    by_cases hjk : j = k
    · subst hjk
      rw [List.getElem?_set_self (List.getElem?_eq_some_iff.mp hj).1] at hw
      obtain rfl := Option.some.inj hw
      exact hold j ⟨args, pc⟩ hj (sendAhead_of_move hstep hahead)
    · rw [List.getElem?_set_ne hjk] at hw
      exact hold k w hw hahead
  | created args hstarted hworkers =>
    rw [hworkers] at hw
    by_cases hk : k < x.state.process.workers.length
    · rw [List.getElem?_append_left hk] at hw
      exact hold k w hw hahead
    · -- the new worker: nothing has happened since, and its client had not departed
      obtain ⟨hdisconnected, hconnected⟩ := quiet_of_started hstarted
      have hlength : ∀ y ∈ before ++ [x], y.state.process.workers.length ≤ k := by
        intro y hy
        rcases List.mem_append.mp hy with hy | hy
        · exact (h.growing y hy).trans (Nat.not_lt.mp hk)
        · rw [List.mem_singleton.mp hy]
          exact Nat.not_lt.mp hk
      have hargs : w.args = args := by
        rw [List.getElem?_append_right (Nat.not_lt.mp hk)] at hw
        obtain rfl := List.mem_singleton.mp (List.mem_of_getElem? hw)
        rfl
      rw [hargs]
      refine ⟨?_, ?_⟩
      · rw [List.filter_eq_self.mpr (fun y hy => decide_eq_true (hlength y hy)),
          departed_quiet args.client before hdisconnected hconnected]
        exact hx.starts args hstarted
      · intro y hy hlt
        exact absurd (hlength y hy) (Nat.not_le.mpr hlt)
  | same hstarted hworkers =>
    rw [hworkers] at hw
    exact hold k w hw hahead

theorem handlesLive_initial (config : AppConfig) (canFd : Int) :
    HandlesLive [] (System.initial config canFd) where
  live k w hw := by cases hw
  growing := List.forall_mem_nil _

/-- A step that sends is one of a worker that had still to send. -/
theorem workerSend_eq_some {s s' : System} {l : Label} {os : List Output}
    (hstep : server.step s l = some (s', os)) {k : ℕ} {client : Client}
    (h : ServerStep.workerSend ⟨s, l, os⟩ = some (k, client)) :
    ∃ w, s.process.workers[k]? = some w ∧ w.args.client = client ∧ w.pc.SendAhead := by
  obtain ⟨actor, env⟩ := l
  have hmove : SystemMove s env actor s' os := system_move hstep
  cases hmove with
  | call t c v ht => cases h
  | thread t a j ht => cases h
  | worker j args pc mid e hw hm =>
    have hsend (hahead : pc.SendAhead)
        (hj : (s.process.workers[j]?).map (fun w => (j, w.args.client)) = some (k, client)) :
        ∃ w, s.process.workers[k]? = some w ∧ w.args.client = client ∧ w.pc.SendAhead := by
      rw [hw, Option.map_some] at hj
      obtain ⟨rfl, rfl⟩ := Prod.mk.inj (Option.some.inj hj)
      exact ⟨⟨args, pc⟩, hw, rfl, hahead⟩
    cases hm with
    | start => exact hsend (by decide) h
    | aborted => exact hsend (by decide) h
    | failed => exact hsend (by decide) h
    | completed => exact hsend (by decide) h
    | _ => cases h
  | signal => cases h

/-! ### A worker that goes on alone -/

/-- How many steps the worker is at most away from its next message when the clock is at its
end and no frame can be written. -/
def WorkerPc.toSend : WorkerPc → ℕ
  | .checkAbort _ _ => 8
  | .checkStop _ _ | .logBlock _ => 7
  | .sleep _ _ | .enterWait _ => 6
  | .testDeadline _ _ => 5
  | .sendBlock _ attempt => canSendAttempts-attempt+1
  | _ => 0

def WorkerEvent.IsSend : WorkerEvent → Prop
  | .send _ => True
  | _ => False

/-- The clock is at its end and no frame can be written. -/
def lateEnv : Env := ⟨0xFFFFFFFFFFFFFFFF, fun _ => some "No buffer space available", true, true⟩

theorem not_late_lt (d : UInt64) : ¬ lateEnv.now < d := by
  rw [UInt64.not_lt, UInt64.le_iff_toNat_le]
  have hd : d.toNat < 2^64 := d.toNat_lt
  have hmax : lateEnv.now.toNat = 2^64-1 := by decide
  omega

theorem refused_of_full (fd : Int) (c : CanCommand) (error : String) :
    ∃ error', canBusSendCommand fd c (some error) = .refused error' := by
  unfold canBusSendCommand
  split_ifs
  · exact ⟨_, rfl⟩
  · exact ⟨_, rfl⟩

theorem nextBlock_toSend (args : SequenceWorkerArgs) (i : ℕ) :
    (args.nextBlock i).SendAhead ∧ (args.nextBlock i).toSend < 7 := by
  unfold SequenceWorkerArgs.nextBlock
  split_ifs
  · exact ⟨⟨WorkerPc.noConfusion, WorkerPc.noConfusion⟩, show 6 < 7 by decide⟩
  · exact ⟨⟨WorkerPc.noConfusion, WorkerPc.noConfusion⟩, show 0 < 7 by decide⟩

/-- The worker sends in its next step, or comes nearer to that. -/
theorem worker_comes_to_send (args : SequenceWorkerArgs) (app : App) {pc : WorkerPc}
    (hpc : pc.SendAhead) : ∃ mid e, workerStep args pc (workerInput app lateEnv) = some (mid, e) ∧
      (e.IsSend ∨ mid.SendAhead ∧ mid.toSend < pc.toSend) := by
  -- each case gives the one step that there is, and the measure behind it
  have hwaits {i : ℕ} {d : UInt64} : (WorkerPc.testDeadline i d).SendAhead :=
    ⟨WorkerPc.noConfusion, WorkerPc.noConfusion⟩
  have hsends {i attempt : ℕ} : (WorkerPc.sendBlock i attempt).SendAhead :=
    ⟨WorkerPc.noConfusion, WorkerPc.noConfusion⟩
  cases pc with
  | finish => exact absurd rfl hpc.1
  | done => exact absurd rfl hpc.2
  | enterWait i => exact ⟨_, _, rfl, Or.inr ⟨hwaits, show 5 < 6 by decide⟩⟩
  | testDeadline i d =>
    refine ⟨.sendBlock i 0, .readClock, ?_, Or.inr ⟨hsends, show 4 < 5 by decide⟩⟩
    exact congrArg (fun pc => some (pc, WorkerEvent.readClock)) (if_neg (not_late_lt d))
  | checkAbort i d =>
    refine ⟨_, _, rfl, Or.inr ?_⟩
    split_ifs
    · exact ⟨⟨WorkerPc.noConfusion, WorkerPc.noConfusion⟩, show 0 < 8 by decide⟩
    · exact ⟨⟨WorkerPc.noConfusion, WorkerPc.noConfusion⟩, show 7 < 8 by decide⟩
  | checkStop i d =>
    refine ⟨_, _, rfl, Or.inr ?_⟩
    split_ifs
    · exact ⟨⟨WorkerPc.noConfusion, WorkerPc.noConfusion⟩, show 0 < 7 by decide⟩
    · exact ⟨⟨WorkerPc.noConfusion, WorkerPc.noConfusion⟩, show 6 < 7 by decide⟩
  | sleep i d => exact ⟨_, _, rfl, Or.inr ⟨hwaits, show 5 < 6 by decide⟩⟩
  | sendBlock i attempt =>
    obtain ⟨error, hrefused⟩ :=
      refused_of_full app.canFd (args.config.command i) "No buffer space available"
    have hresult : canBusSendCommand (workerInput app lateEnv).canFd (args.config.command i)
        (workerInput app lateEnv).write = .refused error := hrefused
    by_cases hretry : attempt+1 < canSendAttempts
    · refine ⟨_, _, (WorkerMove.retry i attempt error hresult hretry).workerStep_eq,
        Or.inr ⟨hsends, ?_⟩⟩
      change canSendAttempts-(attempt+1)+1 < canSendAttempts-attempt+1
      omega
    · exact ⟨_, _, (WorkerMove.giveUp i attempt error hresult hretry).workerStep_eq,
        Or.inr ⟨⟨WorkerPc.noConfusion, WorkerPc.noConfusion⟩, Nat.succ_pos _⟩⟩
  | logBlock i => exact ⟨_, _, rfl, Or.inr (nextBlock_toSend args (i+1))⟩
  | _ => exact ⟨_, _, rfl, Or.inl trivial⟩

/-- Alone, a worker that has still to send comes to it. -/
theorem worker_sends {s : System} {k : ℕ} {w : Worker} (hw : s.process.workers[k]? = some w)
    (hpc : w.pc.SendAhead) : ∃ n steps, ∃ x : ServerStep,
      server.history s (List.replicate n ⟨.worker k, lateEnv⟩) = steps ++ [x] ∧
        x.workerSend = some (k, w.args.client) ∧
        ∀ y ∈ steps, k < y.state.process.workers.length := by
  induction hn : w.pc.toSend using Nat.strong_induction_on generalizing s w with
  | _ n ih =>
    obtain ⟨args, pc⟩ := w
    obtain ⟨mid, e, hstep, hnext⟩ := worker_comes_to_send args s.app hpc
    have hlt : k < s.process.workers.length := (List.getElem?_eq_some_iff.mp hw).1
    have henabled : server.step s ⟨.worker k, lateEnv⟩ =
        some (s.afterWorker k args mid e, [.worker k e]) := by
      simp only [server, System.step, hw, hstep]
      rfl
    rcases hnext with hsend | ⟨hmid, hless⟩
    · refine ⟨1, [], ⟨s, ⟨.worker k, lateEnv⟩, [.worker k e]⟩, ?_, ?_, List.forall_mem_nil _⟩
      · rw [List.replicate_one, Machine.history_cons henabled]
        rfl
      · cases e with
        | send message =>
          change (s.process.workers[k]?).map (fun w => (k, w.args.client)) = _
          rw [hw]
          rfl
        | _ => exact hsend.elim
    · have hpause : pc.toSend = n := hn
      obtain ⟨m, steps, x, hhistory, hx, hsteps⟩ := ih mid.toSend (by omega)
        (s := s.afterWorker k args mid e) (w := ⟨args, mid⟩) (List.getElem?_set_self hlt) hmid rfl
      refine ⟨m+1, ⟨s, ⟨.worker k, lateEnv⟩, [.worker k e]⟩ :: steps, x, ?_, hx,
        List.forall_mem_cons.mpr ⟨hlt, hsteps⟩⟩
      rw [List.replicate_succ, Machine.history_cons henabled, hhistory]
      rfl

/-! ### The law -/

def Label.OfWorker (l : Label) : Prop := ∃ k, l.actor = .worker k

/-- A callback leaves the workers alone. -/
theorem WorkersMove.unchanged {x : ServerStep} {s' : System} (h : WorkersMove x s')
    {client : Client} (hclient : x.disconnected = some client) :
    s'.process.workers = x.state.process.workers := by
  cases h with
  | moved j args pc mid e hactor hj hmid hworkers =>
    rw [(quiet_of_worker hactor).1] at hclient
    cases hclient
  | created args hstarted hworkers =>
    rw [(quiet_of_started hstarted).1] at hclient
    cases hclient
  | same hstarted hworkers => exact hworkers

theorem WorkersMove.appended {x : ServerStep} {s' : System} (h : WorkersMove x s')
    {args : SequenceWorkerArgs} (hstarted : x.started = some args) :
    s'.process.workers = x.state.process.workers ++ [⟨args, .sendStarted⟩] := by
  cases h with
  | moved j args' pc mid e hactor hj hmid hworkers =>
    rw [(quiet_of_worker hactor).2.2] at hstarted
    cases hstarted
  | created args' hstarted' hworkers =>
    obtain rfl := Option.some.inj (hstarted.symm.trans hstarted')
    exact hworkers
  | same hnone hworkers => cases hstarted.symm.trans hnone

/-- A client departs with a worker that has still to send, or a worker is created for a client
who has departed: the worker comes to use the handle. -/
theorem departsUnused_of_sends {before : List ServerStep} {x : ServerStep} {s' : System}
    (hgrowing : ∀ y ∈ before, y.state.process.workers.length ≤ x.state.process.workers.length)
    (hstep : server.step x.state x.label = some (s', x.outputs))
    (h : ∀ (rest : List Label) (steps after : List ServerStep) (z : ServerStep),
      (∀ l ∈ rest, l.OfWorker) → server.history s' rest = steps ++ z :: after →
        SendsToLive (before ++ x :: steps) z) : DepartsUnused before x := by
  have hmove := workersMove hstep
  -- left to itself, a worker that has still to send comes to it
  have hsend {k : ℕ} {w : Worker} (hw : s'.process.workers[k]? = some w)
      (hpc : w.pc.SendAhead) : ∃ steps : List ServerStep,
        (∀ y ∈ steps, k < y.state.process.workers.length) ∧
          HandleLive (before ++ x :: steps) k w.args.client := by
    obtain ⟨n, steps, z, hhistory, hz, hsteps⟩ := worker_sends hw hpc
    refine ⟨steps, hsteps, h _ steps [] z ?_ hhistory k w.args.client hz⟩
    intro l hl
    rw [List.eq_of_mem_replicate hl]
    exact ⟨k, rfl⟩
  refine ⟨?_, ?_⟩
  · -- the departure itself lies between the worker's creation and that send
    rintro client hclient w hw rfl hpc
    obtain ⟨k, hk⟩ := List.mem_iff_getElem?.mp hw
    obtain ⟨steps, -, hlive⟩ := hsend (hmove.unchanged hclient ▸ hk) hpc
    exact hlive.since x (List.mem_append_right before List.mem_cons_self)
      (List.getElem?_eq_some_iff.mp hk).1 hclient
  · intro args hstarted
    have hk : s'.process.workers[x.state.process.workers.length]? =
        some ⟨args, .sendStarted⟩ := by
      rw [hmove.appended hstarted, List.getElem?_concat_length]
    obtain ⟨steps, hsteps, hlive⟩ :=
      hsend hk ⟨WorkerPc.noConfusion, WorkerPc.noConfusion⟩
    -- the steps up to the creation are those with fewer workers
    have hbefore : before.filter
        (fun y => y.state.process.workers.length ≤ x.state.process.workers.length) = before :=
      List.filter_eq_self.mpr (fun y hy => decide_eq_true (hgrowing y hy))
    have hbehind : steps.filter
        (fun y => y.state.process.workers.length ≤ x.state.process.workers.length) = [] := by
      apply List.filter_eq_nil_iff.mpr
      intro y hy
      rw [decide_eq_true_eq]
      exact Nat.not_le.mpr (hsteps y hy)
    have hcreated := hlive.created
    obtain ⟨hdisconnected, hconnected⟩ := quiet_of_started hstarted
    rw [List.filter_append, hbefore, List.filter_cons_of_pos (by simp), hbehind,
      departed_quiet args.client before hdisconnected hconnected] at hcreated
    exact hcreated

/-- There never are fewer workers than before. -/
theorem workers_growing (config : AppConfig) (canFd : Int) (ls : List Label) :
    ∀ before x after, server.history (System.initial config canFd) ls = before ++ x :: after →
      ∀ y ∈ before, y.state.process.workers.length ≤ x.state.process.workers.length := by
  let Growing (before : List ServerStep) (s : System) : Prop :=
    ∀ y ∈ before, y.state.process.workers.length ≤ s.process.workers.length
  refine Machine.forall_history_imp (M := server) (h := []) (s := System.initial config canFd)
    (A := fun _ _ => True) (B := fun before x => Growing before x.state) (I := Growing)
    ?_ ?_ (List.forall_mem_nil _) ls (fun _ _ _ _ => trivial)
  · intro before s l y hgrowing hstep _
    exact hgrowing
  · intro before s l y hgrowing hstep _ z hz
    have hlength := (workersMove hstep).length
    rcases List.mem_append.mp hz with hz | hz
    · exact (hgrowing z hz).trans hlength
    · rw [List.mem_singleton.mp hz]
      exact hlength

theorem departsUnused_of_worker (before : List ServerStep) {x : ServerStep}
    (h : x.label.OfWorker) : DepartsUnused before x := by
  obtain ⟨k, hk⟩ := h
  obtain ⟨hdisconnected, -, hstarted⟩ := quiet_of_worker hk
  refine ⟨?_, ?_⟩
  · intro client hclient
    cases hdisconnected.symm.trans hclient
  · intro args hargs
    cases hstarted.symm.trans hargs

/-- A step of a schedule that is none of its last part is one of the first. -/
theorem prefix_of_not_mem {α : Type} {as bs cs ds : List α} {a : α}
    (h : as ++ bs = cs ++ a :: ds) (ha : a ∉ bs) : cs ++ [a] <+: as := by
  rcases List.append_eq_append_iff.mp h with ⟨es, rfl, hes⟩ | ⟨es, rfl, hes⟩
  · rw [hes] at ha
    exact absurd (List.mem_append_right es List.mem_cons_self) ha
  · cases es with
    | nil =>
      rw [List.nil_append] at hes
      rw [← hes] at ha
      exact absurd List.mem_cons_self ha
    | cons e es =>
      obtain ⟨rfl, -⟩ := List.cons.inj hes
      exact ⟨es, by simp⟩

/-- In every run in which no client departs for which a worker has still something to send, and
no worker is created for a client who has departed, all workers send to clients whose
`on_disconnect` has not returned; and only such runs are right however their workers go on. -/
theorem workers_send_to_live (config : AppConfig) (canFd : Int) (ls : List Label) :
    (∀ ls' rest, ls' <+: ls → (∀ l ∈ rest, l.OfWorker) → ∀ before x after,
      server.history (System.initial config canFd) (ls' ++ rest) = before ++ x :: after →
        SendsToLive before x) ↔
      ∀ before x after,
        server.history (System.initial config canFd) ls = before ++ x :: after →
          DepartsUnused before x := by
  constructor
  · intro h before x after hsplit
    obtain ⟨s', rest, hstep, hls, hother⟩ := Machine.history_split hsplit
    refine departsUnused_of_sends (workers_growing config canFd ls before x after hsplit) hstep ?_
    · intro rest' steps after' z hrest' hhistory
      refine h (before.map Machine.Taken.label ++ [x.label]) rest' ?_ hrest' _ z after' ?_
      · rw [hls]
        exact ⟨rest, by simp⟩
      · have hrun := hother rest'
        rw [hhistory] at hrun
        simpa using hrun
  · intro h ls' rest hprefix hrest
    have hcond : ∀ before x after,
        server.history (System.initial config canFd) (ls' ++ rest) = before ++ x :: after →
          DepartsUnused before x := by
      intro before x after hsplit
      -- a worker's own step lets nobody depart; any other step is in the run itself, behind which
      -- only workers go on
      by_cases hworker : x.label.OfWorker
      · exact departsUnused_of_worker before hworker
      · obtain ⟨s', tail, hstep, hls, hother⟩ := Machine.history_split hsplit
        obtain ⟨more, rfl⟩ := hprefix
        obtain ⟨tail', rfl⟩ := prefix_of_not_mem hls (fun hmem => hworker (hrest _ hmem))
        have hrun := hother (tail' ++ more)
        simp only [List.append_assoc, List.singleton_append] at h
        exact h before x _ hrun
    refine Machine.forall_history_imp (h := []) (I := HandlesLive) ?_ ?_
      (handlesLive_initial config canFd) (ls' ++ rest) hcond
    · intro before s l y hlive hstep hx k client hsend
      obtain ⟨w, hw, rfl, hpc⟩ := workerSend_eq_some hstep hsend
      exact hlive.live k w hw hpc
    · intro before s l y hlive hstep hx
      exact handlesLive_step hlive hx (workersMove hstep)

/-- The client of a drown sequence departs, and still gets the message at its end. -/
theorem departed_client_addressed :
    let env : Env := ⟨0, fun _ => none, true, true⟩
    let later : Env := ⟨100, fun _ => none, true, true⟩
    let handler (n : ℕ) : List Label := List.replicate n ⟨.thread (.handler 0), env⟩
    let run : List Label :=
      [⟨.call (.handler 0) (.connect 1), env⟩] ++ handler 5 ++
      [⟨.call (.handler 0) (.message 1 "STATE#HOTFIRE".toList), env⟩] ++ handler 8 ++
      [⟨.call (.handler 0) (.message 1 "DROWN#8765".toList), env⟩] ++ handler 10 ++
      [⟨.worker 0, env⟩, ⟨.call (.handler 0) (.disconnect 1), env⟩] ++ handler 1 ++
      List.replicate 5 ⟨.worker 0, env⟩ ++ List.replicate 4 ⟨.worker 0, later⟩
    ¬ ∀ before x after, server.history (System.initial ⟨false, false⟩ 3) run =
      before ++ x :: after → SendsToLive before x := by
  intro env later handler run hlaw
  let steps := server.history (System.initial ⟨false, false⟩ 3) run
  have hsplit : steps = steps.take 37 ++ steps.get ⟨37, by decide⟩ :: steps.drop 38 := by
    rw [List.get_eq_getElem, List.getElem_cons_drop, List.take_append_drop]
  have hlive := hlaw (steps.take 37) (steps.get ⟨37, by decide⟩) (steps.drop 38) hsplit 0 1
    (by decide)
  exact absurd hlive.since (by decide)

end WsServer
