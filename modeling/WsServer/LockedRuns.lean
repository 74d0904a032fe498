import WsServer.AtomicSections
import WsServer.Dispatch
import WsServer.MainLoop

/-! Every run of the server in pieces is a run of the server, and its locks do not keep each
other waiting for ever. -/
namespace WsServer
open Interaction Sections

section
variable {logging : Bool}

/-! ### Steps in one piece -/

/-- An action that is none of a section does the same whatever the locks guard. -/
theorem acting_independent {t : Thread} {a : Act} {k : a.Answer → Server Int} {fd : Int}
    (ha : ∀ (p : Process) (env : Env) (table : ModeTable) (flags : SequenceFlags),
      perform (p.setApp (p.app.setGuarded table flags)) env a =
        ((perform p env a).1.setApp ((perform p env a).1.app.setGuarded table flags),
          (perform p env a).2)) :
    (lockedSections logging).Independent server (.acting t a k fd) (.thread t) := by
  intro s d e hc
  obtain ⟨hprogram, -⟩ := thread_of_control hc
  have hset : (s.setGuarded d).threads t = .act a k := hprogram
  have hperform : perform (s.setGuarded d).process e.env a = _ :=
    ha s.process e.env (d .state) (d .sequence)
  simp only [server, System.step, Control.label, hprogram, hset, hperform, Option.map_some]
  rfl

theorem call_independent (t : Thread) :
    (lockedSections logging).Independent server (.idle t) (.thread t) := by
  intro s d e hc
  have hidle : s.control (.thread t) = some (.idle t) := hc
  unfold System.control at hidle
  cases hprogram : s.threads t with
  | act a k =>
    simp only [hprogram] at hidle
    cases hidle
  | ret v =>
    have hset : (s.setGuarded d).threads t = .ret v := hprogram
    simp only [server, System.step, Control.label, hprogram, hset, Option.map_some]
    rfl

theorem signal_independent :
    (lockedSections logging).Independent server .signal .signal := fun _ _ _ _ => rfl

theorem worker_of_control {s : System} {k : ℕ} {args : SequenceWorkerArgs} {pc : WorkerPc}
    {k' : ℕ} (h : s.control (.worker k') = some (.worker k args pc)) :
    k' = k ∧ s.process.workers[k]? = some ⟨args, pc⟩ ∧ pc ≠ .done := by
  unfold System.control at h
  cases hw : s.process.workers[k']? with
  | none =>
    simp only [hw] at h
    cases h
  | some w =>
    simp only [hw] at h
    split_ifs at h with hdone
    cases h
    exact ⟨rfl, hw, hdone⟩

/-- A worker looks at the flags where it asks for an abort, and clears them at its end. -/
theorem workerStep_flags {args : SequenceWorkerArgs} {pc : WorkerPc}
    (hcheck : ∀ i deadline, pc ≠ .checkAbort i deadline) (app : App) (env : Env)
    (table : ModeTable) (flags : SequenceFlags) :
    workerStep args pc (workerInput (app.setGuarded table flags) env) =
      workerStep args pc (workerInput app env) := by
  cases pc with
  | checkAbort i deadline => exact absurd rfl (hcheck i deadline)
  | _ => rfl

theorem afterWorker_same {args : SequenceWorkerArgs} {pc pc' : WorkerPc} {x : WorkerInput}
    {e : WorkerEvent} (hfinish : pc ≠ .finish) (h : workerStep args pc x = some (pc', e))
    (app : App) : app.afterWorker e = app := by
  cases workerStep_move args x pc pc' e h with
  | finished => exact absurd rfl hfinish
  | _ => rfl

theorem worker_independent {k : ℕ} {args : SequenceWorkerArgs} {pc : WorkerPc}
    (hcheck : ∀ i deadline, pc ≠ .checkAbort i deadline) (hfinish : pc ≠ .finish) :
    (lockedSections logging).Independent server (.worker k args pc) (.worker k) := by
  intro s d e hc
  obtain ⟨-, hw, -⟩ := worker_of_control hc
  have hset : (s.setGuarded d).process.workers[k]? = some ⟨args, pc⟩ := hw
  have hsame : workerStep args pc (workerInput (s.setGuarded d).app e.env) =
      workerStep args pc (workerInput s.app e.env) :=
    workerStep_flags hcheck s.app e.env (d .state) (d .sequence)
  simp only [server, System.step, Control.label, hw, hset, hsame]
  cases hm : workerStep args pc (workerInput s.app e.env) with
  | none => rfl
  | some r =>
    have hafter := afterWorker_same hfinish hm
    simp only [hafter, Option.map_some]
    rfl

/-! ### All steps are carried out -/

/-- A step in one piece, with no lock or a lock around it that guards nothing of the state. -/
theorem carries_whole {c : Control} {i : Party} (old new : ∀ m, GuardedData m)
    (h : (lockedSections logging).Independent server c i) :
    (lockedSections logging).Carries server c i (fun _ => False) old new [] Locked.whole :=
  ⟨rfl, fun _ hm => hm.elim, h, fun _ hm => hm⟩

theorem carries_around {c : Control} {i : Party} {m : Mutex} (old new : ∀ m, GuardedData m)
    (h : (lockedSections logging).Independent server c i) :
    (lockedSections logging).Carries server c i (fun _ => False) old new []
      (Locked.around m) := by
  intro d
  refine ⟨rfl, ?_, h, unwinds_release m⟩
  intro n hn
  obtain rfl := hn.resolve_right id
  rw [Function.update_self, Function.update_self]

theorem carries_logged {c : Control} {i : Party} (old new : ∀ m, GuardedData m)
    (h : (lockedSections logging).Independent server c i) :
    (lockedSections logging).Carries server c i (fun _ => False) old new []
      (Locked.logged logging) := by
  unfold Locked.logged
  split_ifs
  · exact carries_around old new h
  · exact carries_whole old new h

theorem carries_broadcast {c : Control} {i : Party} (old new : ∀ m, GuardedData m)
    (h : (lockedSections logging).Independent server c i) :
    (lockedSections logging).Carries server c i (fun _ => False) old new []
      (Locked.beforeBroadcast logging >>= fun _ => Locked.around .clients) := by
  unfold Locked.beforeBroadcast
  split_ifs
  · intro d
    refine ⟨Or.inl rfl, rfl, ?_⟩
    have hnone : (fun n => n ≠ Mutex.logger ∧ (n = Mutex.logger ∨ False)) = fun _ => False :=
      funext (fun n => eq_false (fun hn => hn.1 (hn.2.resolve_right id)))
    rw [hnone]
    exact carries_around _ _ h
  · exact carries_around old new h

theorem carries_act {t : Thread} {a : Act} {k : a.Answer → Server Int} {fd : Int}
    (old new : ∀ m, GuardedData m) :
    InSection logging (.acting t a k fd) t (fun _ => False) old new []
      (Locked.actCode logging fd t a k) := by
  cases a with
  | getState => exact carries_getState old new
  | storeState state => exact carries_storeState old new
  | wiggleStart r => exact carries_wiggleStart old new
  | wiggleStop id => exact carries_wiggleStop old new
  | wiggleStopAll sendExitValue => exact carries_wiggleStopAll old new
  | wiggleProcess => exact carries_wiggleProcess old new
  | claimSequence => exact carries_claimSequence old new
  | finishSequence => exact carries_finishSequence old new
  | requestAbort => exact carries_requestAbort old new
  | registerClient client => exact carries_around old new (acting_independent fun _ _ _ _ => rfl)
  | unregisterClient client => exact carries_around old new (acting_independent fun _ _ _ _ => rfl)
  | log kind text => exact carries_logged old new (acting_independent fun _ _ _ _ => rfl)
  | broadcast text => exact carries_broadcast old new (acting_independent fun _ _ _ _ => rfl)
  | createWorker args =>
    refine carries_whole old new (acting_independent fun p env table flags => ?_)
    simp only [perform]
    split_ifs <;> rfl
  | _ => exact carries_whole old new (acting_independent fun _ _ _ _ => rfl)

/-- The result of a section of worker `k` is one that its step could have had. -/
theorem commits_worker {k : ℕ} {args : SequenceWorkerArgs} {pc pc' : WorkerPc} {e : WorkerEvent}
    {old new : ∀ n, GuardedData n}
    (h : ∀ app : App, app.sequenceActive = (old .sequence).active →
      app.sequenceAbort = (old .sequence).abort → ∃ env,
      workerStep args pc (workerInput app env) = some (pc', e) ∧
        app.afterWorker e = app.setGuarded ⟨app.state, app.wiggles⟩ (new .sequence)) :
    (lockedSections logging).Carries server (.worker k args pc) (.worker k) (only .sequence)
      old new []
      (Locked.commit (Locked.workerAt k args pc') [.worker k e] >>= fun _ =>
        Locked.release .sequence) := by
  refine ⟨fun _ _ => rfl, unwinds_release .sequence, ?_⟩
  intro s d hc hheld hfree
  obtain ⟨-, hw, -⟩ := worker_of_control hc
  obtain ⟨hold, hnew⟩ := hheld .sequence (Or.inl rfl)
  have hstate : d .state = ⟨s.app.state, s.app.wiggles⟩ :=
    hfree .state (fun hn => by rcases hn with hn | hn; cases hn; exact hn)
  obtain ⟨env, hstep, hafter⟩ := h s.app (congrArg SequenceFlags.active hold)
    (congrArg SequenceFlags.abort hold)
  refine ⟨⟨.tick, env⟩, ?_⟩
  simp only [server, System.step, Control.label, hw, hstep, hafter, List.nil_append]
  rw [← hnew, ← hstate]
  rfl

theorem carries_worker {k : ℕ} {args : SequenceWorkerArgs} {pc : WorkerPc}
    (old new : ∀ m, GuardedData m) :
    (lockedSections logging).Carries server (.worker k args pc) (.worker k) (fun _ => False)
      old new [] (Locked.workerCode logging k args pc) := by
  cases pc with
  | checkAbort i deadline =>
    intro d
    refine carries_readFlag (fun _ => rfl) (Or.inl rfl) rfl ?_
    refine commits_worker (fun app hactive habort => ⟨sectionEnv 0 (fun _ => none), ?_, ?_⟩)
    · change some (if app.sequenceAbort then _ else _, WorkerEvent.abortRequested app.sequenceAbort) = _
      rw [habort]
      rfl
    · rw [Function.update_self] at hactive habort ⊢
      rw [App.setGuarded, ← hactive, ← habort]
      rfl
  | finish =>
    intro d
    refine ⟨Or.inl rfl, Or.inl rfl, ?_⟩
    refine commits_worker (fun app _ _ => ⟨sectionEnv 0 (fun _ => none), rfl, rfl⟩)
  | logBlock i =>
    exact carries_logged old new
      (worker_independent (fun _ _ h => WorkerPc.noConfusion h) (fun h => WorkerPc.noConfusion h))
  | _ =>
    exact carries_whole old new
      (worker_independent (fun _ _ h => WorkerPc.noConfusion h) (fun h => WorkerPc.noConfusion h))

/-! ### Who moves -/

def Actor.party : Actor → Party
  | .call t _ => .thread t
  | .thread t => .thread t
  | .worker k => .worker k
  | .signal => .signal

theorem label_party {s : System} {i : Party} {c : Control} (h : s.control i = some c)
    (e : PartyInput) : (c.label e).actor.party = i := by
  cases i with
  | signal =>
    cases h
    rfl
  | thread t =>
    unfold System.control at h
    cases hprogram : s.threads t <;>
      (simp only [hprogram] at h
       cases h
       rfl)
  | worker k =>
    unfold System.control at h
    cases hw : s.process.workers[k]? with
    | none =>
      simp only [hw] at h
      cases h
    | some w =>
      simp only [hw] at h
      split_ifs at h
      cases h
      rfl

theorem control_thread {s s' : System} {t : Thread} (hthreads : s'.threads t = s.threads t)
    (hfd : s'.app.canFd = s.app.canFd) : s'.control (.thread t) = s.control (.thread t) := by
  simp only [System.control, hthreads, hfd]

theorem control_worker {s s' : System} {k : ℕ} {c : Control}
    (h : ∀ w, s.process.workers[k]? = some w → s'.process.workers[k]? = some w)
    (hc : s.control (.worker k) = some c) : s'.control (.worker k) = some c := by
  unfold System.control at hc ⊢
  cases hw : s.process.workers[k]? with
  | none =>
    simp only [hw] at hc
    cases hc
  | some w =>
    simp only [hw] at hc
    simp only [h w hw]
    exact hc

/-- A step of the server moves one party. -/
theorem control_keeps {s s' : System} {l : Label} {os : List Output}
    (h : server.step s l = some (s', os)) {j : Party} (hj : j ≠ l.actor.party) {c : Control}
    (hc : s.control j = some c) : s'.control j = some c := by
  have hmove := system_move h
  have hfd := server_canFd h
  obtain ⟨actor, env⟩ := l
  cases j with
  | signal => exact hc
  | thread u =>
    rw [← hc]
    refine control_thread ?_ hfd
    cases hmove with
    | call t call v ht => exact Function.update_of_ne (fun hu => hj (congrArg Party.thread hu)) _ _
    | thread t a k ht => exact Function.update_of_ne (fun hu => hj (congrArg Party.thread hu)) _ _
    | worker k args pc mid e hw hm => rfl
    | signal => rfl
  | worker k' =>
    refine control_worker (fun w hw => ?_) hc
    cases hmove with
    | call t call v ht => exact hw
    | signal => exact hw
    | worker k args pc mid e hk hm =>
      have hne : k ≠ k' := fun hkk => hj (congrArg Party.worker hkk.symm)
      exact (List.getElem?_set_ne hne).trans hw
    | thread t a k ht =>
      change (perform s.process env a).1.workers[k']? = some w
      rcases perform_workers_cases s.process env a with ⟨args, -, -, hworkers⟩ | ⟨-, hworkers⟩
      · obtain ⟨hlt, -⟩ := List.getElem?_eq_some_iff.mp hw
        rw [hworkers, List.getElem?_append_left hlt]
        exact hw
      · rw [hworkers]
        exact hw

theorem server_enabled {s : System} {i : Party} {c : Control} (h : s.control i = some c)
    (e : PartyInput) : (server.step s (c.label e)).isSome := by
  cases i with
  | signal =>
    cases h
    rfl
  | thread t =>
    unfold System.control at h
    cases hprogram : s.threads t <;>
      (simp only [hprogram] at h
       cases h
       simp only [server, System.step, Control.label, hprogram, Option.isSome_some])
  | worker k =>
    unfold System.control at h
    cases hw : s.process.workers[k]? with
    | none =>
      simp only [hw] at h
      cases h
    | some w =>
      simp only [hw] at h
      split_ifs at h with hdone
      cases h
      simp only [server, System.step, Control.label, hw]
      obtain ⟨args, pc⟩ := w
      cases pc with
      | done => exact absurd rfl hdone
      | _ => rfl

theorem server_author {s s' : System} {l : Label} {os : List Output}
    (h : server.step s l = some (s', os)) : ∀ o ∈ os, o.author = l.actor.party := by
  have hmove := system_move h
  obtain ⟨actor, env⟩ := l
  intro o ho
  cases hmove with
  | call t call v ht => cases ho
  | signal => cases ho
  | worker k args pc mid e hw hm =>
    obtain rfl := List.mem_singleton.mp ho
    rfl
  | thread t a k ht =>
    obtain ⟨e, -, rfl⟩ := List.mem_map.mp ho
    rfl

/-- The sections of the server carry out its steps. -/
theorem lockedSections_lawful : (lockedSections logging).Lawful server where
  get_set s d := by
    funext m
    cases m <;> rfl
  set_get _ := rfl
  set_set _ _ _ := rfl
  control_set s d := by
    funext i
    cases i <;> rfl
  keeps s y c i e hc hstep j hj c' hc' :=
    control_keeps hstep (by rw [label_party hc]; exact hj) hc'
  enabled s c i e hc := server_enabled hc e
  author_step s y c i e hc hstep o ho := (server_author hstep o ho).trans (label_party hc e)
  author_ask i e a o ho := by
    cases a with
    | monotonicMs => cases ho
    | canSend fd command =>
      cases i with
      | thread t => exact congrArg Output.author (List.mem_singleton.mp ho)
      | _ => cases ho
    | log kind text =>
      cases i with
      | thread t => exact congrArg Output.author (List.mem_singleton.mp ho)
      | _ => cases ho
  carries s c i e hc old new := by
    cases i with
    | signal =>
      cases hc
      exact carries_whole old new signal_independent
    | thread t =>
      change s.control (.thread t) = some c at hc
      unfold System.control at hc
      cases hprogram : s.threads t with
      | ret v =>
        simp only [hprogram] at hc
        cases hc
        exact carries_whole old new (call_independent t)
      | act a k =>
        simp only [hprogram] at hc
        cases hc
        exact carries_act old new
    | worker k =>
      change s.control (.worker k) = some c at hc
      unfold System.control at hc
      cases hw : s.process.workers[k]? with
      | none =>
        simp only [hw] at hc
        cases hc
      | some w =>
        simp only [hw] at hc
        split_ifs at hc
        cases hc
        exact carries_worker old new

end

/-! ### Runs -/

/-- The server in pieces, where `main` has started it. -/
def lockedInitial (logging : Bool) (config : AppConfig) (canFd : Int) :
    (lockedSections logging).State :=
  (lockedSections logging).atRest (.initial config canFd)

def lockedServer (logging : Bool) :
    Machine (lockedSections logging).State (Party × PartyInput) Output :=
  (lockedSections logging).machine server

/-- Whatever the pieces of its sections are interleaved with, the server does what it can do
in whole steps: with no lock taken it is in the same state, and each party has put out the
same, but for the one that is in a section and ahead of its result. -/
theorem locked_server_refines {logging : Bool} {config : AppConfig} {canFd : Int}
    {ls : List (Party × PartyInput)} {x : (lockedSections logging).State} {os : List Output}
    (h : (lockedServer logging).run (lockedInitial logging config canFd) ls = some (x, os)) :
    ∃ ks s' os', server.run (.initial config canFd) ks = some (s', os') ∧
      ((∀ m, x.owner m = none) → x.shared = s') ∧
      ∀ i, (lockedSections logging).outputsOf i os' <+: (lockedSections logging).outputsOf i os ∧
        (x.rest i = .ret () →
          (lockedSections logging).outputsOf i os = (lockedSections logging).outputsOf i os') := by
  have hlawful : (lockedSections logging).Lawful server := lockedSections_lawful
  obtain ⟨ks, s', os', underway, pending, hrun, hahead, houtputs⟩ :=
    (Ahead.atRest hlawful (.initial config canFd)).run hlawful h
  refine ⟨ks, s', os', hrun, ?_, fun i => ⟨⟨pending i, houtputs i⟩, fun hrest => ?_⟩⟩
  · intro hfree
    apply hahead.same hlawful
    intro m i _
    rw [hfree m]
    exact (Option.some_ne_none i).symm
  · -- a party at rest has come to its result
    have hover : ¬ underway i := by
      intro hunder
      obtain ⟨c, -, hcarries⟩ := hahead.carries i hunder
      rw [hrest] at hcarries
      exact hcarries
    have hnow := houtputs i
    rw [(hahead.unwinds i hover).2, List.append_nil] at hnow
    exact hnow.symm

/-- A thread that requests an abort. -/
def abortInput : PartyInput := ⟨.requestAbort, sectionEnv 0 (fun _ => none)⟩

theorem locked_server_refines_abort :
    ∃ ks s' os', server.run (.initial realMode 3) ks = some (s', os') ∧
      s'.app.sequenceAbort = true := by
  -- the call, and the pieces of the section in which it sets the flag
  obtain ⟨ks, s', os', hrun, hsame, -⟩ := locked_server_refines
    (show (lockedServer true).run (lockedInitial true realMode 3)
      (List.replicate 7 (.thread .main, abortInput)) = some (_, _) from rfl)
  refine ⟨ks, s', os', hrun, ?_⟩
  rw [← hsame (fun m => by cases m <;> rfl)]
  rfl

end WsServer
