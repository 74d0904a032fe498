import WsServer.HandlerActions
import WsServer.WorkerRun

/-! One step of the server, said once: who moves, and what it leaves as it was. -/
namespace WsServer
open Interaction

/-- The system behind an action that thread `t` performed. -/
def System.afterAct (s : System) (t : Thread) (env : Env) (a : Act)
    (k : a.Answer → Server Int) : System :=
  ⟨(perform s.process env a).1, Function.update s.threads t (k (perform s.process env a).2.1)⟩

/-- The system behind a step of worker `k`. -/
def System.afterWorker (s : System) (k : ℕ) (args : SequenceWorkerArgs) (pc : WorkerPc)
    (e : WorkerEvent) : System :=
  { s with process := ⟨s.app.afterWorker e, s.process.workers.set k ⟨args, pc⟩⟩ }

/-- Everything a step of the server can be, by the one who moves. -/
inductive SystemMove (s : System) (env : Env) : Actor → System → List Output → Prop where
  | call (t : Thread) (c : Call) (v : Int) (h : s.threads t = .ret v) :
      SystemMove s env (.call t c)
        { s with threads := Function.update s.threads t (c.program s.app.config) } []
  | thread (t : Thread) (a : Act) (k : a.Answer → Server Int)
      (h : s.threads t = Program.act (S := serverSig) a k) :
      SystemMove s env (.thread t) (s.afterAct t env a k)
        ((perform s.process env a).2.2.map (.event t))
  | worker (k : ℕ) (args : SequenceWorkerArgs) (pc mid : WorkerPc) (e : WorkerEvent)
      (h : s.process.workers[k]? = some ⟨args, pc⟩)
      (hm : WorkerMove args (workerInput s.app env) pc mid e) :
      SystemMove s env (.worker k) (s.afterWorker k args mid e) [.worker k e]
  | signal :
      SystemMove s env .signal
        { s with process := s.process.setApp { s.app with stop := true } } []

theorem system_move {s s' : System} {l : Label} {os : List Output}
    (h : server.step s l = some (s', os)) : SystemMove s l.env l.actor s' os := by
  obtain ⟨actor, env⟩ := l
  cases actor with
  | call t c =>
    cases ht : s.threads t with
    | act a k => simp only [server, System.step, ht, reduceCtorEq] at h
    | ret v =>
      simp only [server, System.step, ht, Option.some.injEq, Prod.mk.injEq] at h
      obtain ⟨rfl, rfl⟩ := h
      exact .call t c v ht
  | thread t =>
    cases ht : s.threads t with
    | ret v => simp only [server, System.step, ht, reduceCtorEq] at h
    | act a k =>
      simp only [server, System.step, ht, Option.some.injEq, Prod.mk.injEq] at h
      obtain ⟨rfl, rfl⟩ := h
      exact .thread t a k ht
  | worker k =>
    cases hw : s.process.workers[k]? with
    | none => simp only [server, System.step, hw, reduceCtorEq] at h
    | some w =>
      cases hm : workerStep w.args w.pc (workerInput s.app env) with
      | none => simp only [server, System.step, hw, hm, reduceCtorEq] at h
      | some r =>
        simp only [server, System.step, hw, hm, Option.some.injEq, Prod.mk.injEq] at h
        obtain ⟨rfl, rfl⟩ := h
        exact .worker k w.args w.pc r.1 r.2 hw (workerStep_move _ _ _ _ _ hm)
  | signal =>
    simp only [server, System.step, Option.some.injEq, Prod.mk.injEq] at h
    obtain ⟨rfl, rfl⟩ := h
    exact .signal

/-- A thread goes on by its own actions, and starts anew with a call of its own. -/
theorem SystemMove.threads {s s' : System} {env : Env} {actor : Actor} {os : List Output}
    (h : SystemMove s env actor s' os) {P : Thread → Server Int → Prop}
    (hs : ∀ t, P t (s.threads t))
    (hcall : ∀ t c, actor = .call t c → P t (c.program s.app.config))
    (hact : ∀ t a k, P t (Program.act (S := serverSig) a k) →
      P t (k (perform s.process env a).2.1)) :
    ∀ t, P t (s'.threads t) := by
  cases h with
  | call t c v ht =>
    rw [Function.forall_update_iff]
    exact ⟨hcall t c rfl, fun u _ => hs u⟩
  | thread t a k ht =>
    have hown := hs t
    rw [ht] at hown
    rw [System.afterAct, Function.forall_update_iff]
    exact ⟨hact t a k hown, fun u _ => hs u⟩
  | worker k args pc mid e hw hm => exact hs
  | signal => exact hs

/-- The action that an actor is about to perform. -/
def System.action (s : System) : Actor → Option Act
  | .thread t =>
    match s.threads t with
    | .ret _ => none
    | .act a _ => some a
  | _ => none

theorem action_of_thread {s : System} {t : Thread} {a : Act} {k : a.Answer → Server Int}
    (h : s.threads t = Program.act (S := serverSig) a k) : s.action (.thread t) = some a := by
  simp only [System.action, h]

theorem thread_of_action {s : System} {t : Thread} {a : Act} (h : s.action (.thread t) = some a) :
    ∃ k, s.threads t = Program.act (S := serverSig) a k := by
  cases ht : s.threads t with
  | ret v => simp only [System.action, ht, reduceCtorEq] at h
  | act b k =>
    obtain rfl := Option.some.inj ((action_of_thread ht).symm.trans h)
    exact ⟨k, rfl⟩

/-! ### Frames of the actions -/

theorem wiggleStartLocked_frame (app : App) (env : Env) (r : WiggleRequest) :
    ∃ t, (wiggleStartLocked app env r).1 = { app with wiggles := t } := by
  unfold wiggleStartLocked
  split
  · exact ⟨app.wiggles, rfl⟩
  · exact ⟨_, rfl⟩

theorem wiggleStopLocked_frame (app : App) (env : Env) (id : UInt32) :
    ∃ t, (wiggleStopLocked app env id).1 = { app with wiggles := t } := by
  unfold wiggleStopLocked
  split
  · exact ⟨app.wiggles, rfl⟩
  · exact ⟨_, rfl⟩

theorem wiggleProcess_frame (app : App) (env : Env) :
    ∃ t, (wiggleProcess app env).1 = { app with wiggles := t } := by
  unfold wiggleProcess
  split_ifs
  · exact ⟨app.wiggles, rfl⟩
  · exact ⟨_, rfl⟩

/-- What the actions outside `firing_sequence_start` leave alone. -/
structure SameSequence (p p' : Process) : Prop where
  active : p'.app.sequenceActive = p.app.sequenceActive
  stop : p'.app.stop = p.app.stop
  canFd : p'.app.canFd = p.app.canFd
  config : p'.app.config = p.app.config
  workers : p'.workers = p.workers

theorem sameSequence_setWiggles (p : Process) (t : WiggleTable) :
    SameSequence p (p.setApp { p.app with wiggles := t }) := ⟨rfl, rfl, rfl, rfl, rfl⟩

theorem perform_sameSequence (p : Process) (env : Env) (a : Act) (ha : a.NoSequence) :
    SameSequence p (perform p env a).1 := by
  cases a with
  | wiggleStart r =>
    obtain ⟨t, ht⟩ := wiggleStartLocked_frame p.app env r
    simp only [perform, ht, sameSequence_setWiggles]
  | wiggleStop id =>
    obtain ⟨t, ht⟩ := wiggleStopLocked_frame p.app env id
    simp only [perform, ht, sameSequence_setWiggles]
  | wiggleProcess =>
    obtain ⟨t, ht⟩ := wiggleProcess_frame p.app env
    simp only [perform, ht, sameSequence_setWiggles]
  | claimSequence => exact absurd trivial ha
  | callocArgs => exact absurd trivial ha
  | createWorker args => exact absurd trivial ha
  | finishSequence => exact absurd trivial ha
  | _ => exact ⟨rfl, rfl, rfl, rfl, rfl⟩

/-- A worker is created by the one action that does so, where there is a thread for it. -/
theorem perform_workers_cases (p : Process) (env : Env) (a : Act) :
    (∃ args, a = .createWorker args ∧ env.thread = true ∧
      (perform p env a).1.workers = p.workers ++ [⟨args, .sendStarted⟩]) ∨
    ((∀ args, a = .createWorker args → env.thread = false) ∧
      (perform p env a).1.workers = p.workers) := by
  by_cases ha : a.NoSequence
  · right
    refine ⟨?_, (perform_sameSequence p env a ha).workers⟩
    rintro args rfl
    exact absurd trivial ha
  · cases a with
    | createWorker args =>
      cases hthread : env.thread with
      | true =>
        left
        refine ⟨args, rfl, rfl, ?_⟩
        simp only [perform, hthread, if_true]
      | false =>
        right
        refine ⟨fun _ _ => rfl, ?_⟩
        simp only [perform, hthread, Bool.false_eq_true, if_false]
    | claimSequence => exact Or.inr ⟨fun _ h => Act.noConfusion h, rfl⟩
    | callocArgs => exact Or.inr ⟨fun _ h => Act.noConfusion h, rfl⟩
    | finishSequence => exact Or.inr ⟨fun _ h => Act.noConfusion h, rfl⟩
    | _ => exact absurd id ha

/-- The stop flag is raised by the signal only. -/
theorem perform_stop (p : Process) (env : Env) (a : Act) :
    (perform p env a).1.app.stop = p.app.stop := by
  by_cases ha : a.NoSequence
  · exact (perform_sameSequence p env a ha).stop
  · cases a with
    | claimSequence =>
      simp only [perform, App.claimSequence, Process.setApp]
      split_ifs <;> rfl
    | createWorker args =>
      simp only [perform]
      split_ifs <;> rfl
    | _ => first | rfl | exact absurd id ha

/-- The options and the CAN socket are what `main` has set up. -/
theorem perform_setup (p : Process) (env : Env) (a : Act) :
    (perform p env a).1.app.config = p.app.config ∧
      (perform p env a).1.app.canFd = p.app.canFd := by
  by_cases ha : a.NoSequence
  · have hsame := perform_sameSequence p env a ha
    exact ⟨hsame.config, hsame.canFd⟩
  · cases a with
    | claimSequence =>
      simp only [perform, App.claimSequence, Process.setApp]
      split_ifs <;> exact ⟨rfl, rfl⟩
    | createWorker args =>
      simp only [perform]
      split_ifs <;> exact ⟨rfl, rfl⟩
    | _ => first | exact ⟨rfl, rfl⟩ | exact absurd id ha

/-- The valve profile is written by `SET_VALVE` only. -/
theorem perform_valveProfile (p : Process) (env : Env) (a : Act)
    (ha : ∀ field value, a ≠ .setValve field value) :
    (perform p env a).1.app.valveProfile = p.app.valveProfile := by
  cases a with
  | wiggleStart r =>
    obtain ⟨t, ht⟩ := wiggleStartLocked_frame p.app env r
    simp only [perform, ht, Process.setApp]
  | wiggleStop id =>
    obtain ⟨t, ht⟩ := wiggleStopLocked_frame p.app env id
    simp only [perform, ht, Process.setApp]
  | wiggleProcess =>
    obtain ⟨t, ht⟩ := wiggleProcess_frame p.app env
    simp only [perform, ht, Process.setApp]
  | setValve field value => exact absurd rfl (ha field value)
  | claimSequence =>
    simp only [perform, App.claimSequence, Process.setApp]
    split_ifs <;> rfl
  | createWorker args =>
    simp only [perform]
    split_ifs <;> rfl
  | _ => rfl

/-- The abort flag is written by a claim, a release and a request only. -/
theorem perform_sequenceAbort (p : Process) (env : Env) (a : Act) (ha : a ≠ .requestAbort)
    (hclaim : a ≠ .claimSequence) (hfinish : a ≠ .finishSequence) :
    (perform p env a).1.app.sequenceAbort = p.app.sequenceAbort := by
  cases a with
  | wiggleStart r =>
    obtain ⟨t, ht⟩ := wiggleStartLocked_frame p.app env r
    simp only [perform, ht, Process.setApp]
  | wiggleStop id =>
    obtain ⟨t, ht⟩ := wiggleStopLocked_frame p.app env id
    simp only [perform, ht, Process.setApp]
  | wiggleProcess =>
    obtain ⟨t, ht⟩ := wiggleProcess_frame p.app env
    simp only [perform, ht, Process.setApp]
  | createWorker args =>
    simp only [perform]
    split_ifs <;> rfl
  | claimSequence => exact absurd rfl hclaim
  | finishSequence => exact absurd rfl hfinish
  | requestAbort => exact absurd rfl ha
  | _ => rfl

end WsServer
