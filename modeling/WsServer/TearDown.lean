import WsServer.Lifetime

/-! Firing workers and the end of the context: `app_context_cleanup` waits for no worker,
so what it finds of them is what was there when the handlers had ended. -/
namespace WsServer
open Interaction Program

/-- The step of a worker reads or writes the context: a lock and what it guards, the stop
flag, the CAN socket, the log or the WebSocket server. -/
def WorkerEvent.UsesContext : WorkerEvent → Prop
  | .beginWait _ | .readClock | .nanosleep => False
  | _ => True

/-- No step from here is one of a worker that uses the context. -/
def NoWorkerUse (pool : ℕ) (s : Lifetime) : Prop :=
  ∀ l s' os, (lifetime pool).step s l = some (s', os) →
    ∀ k e, Output.worker k e ∈ os → ¬ e.UsesContext

/-- Every worker has run `finish_sequence`. -/
def WorkersFinished (s : Lifetime) : Prop := ∀ w ∈ s.system.process.workers, w.pc = .done

/-- The step does not begin `app_context_cleanup` while a sequence is active. -/
def TearsDownIdle (s : Lifetime) : LifeLabel → Prop
  | .main _ => s.phase.stage = 6 → s.app.sequenceActive = false
  | .server _ => True

instance (s : Lifetime) : DecidablePred (TearsDownIdle s)
  | .main _ => inferInstanceAs (Decidable (_ → _))
  | .server _ => isTrue trivial

/-! ### The owner of the flag -/

theorem effect_active (p : Phase) (app : App) :
    (p.effect app).sequenceActive = app.sequenceActive := by
  cases p <;> rfl

theorem ownership_main {s : System} {o : Option Owner} (hs : Ownership s o) {p : Process}
    (hactive : p.app.sequenceActive = s.process.app.sequenceActive)
    (hworkers : p.workers = s.process.workers) : Ownership { s with process := p } o :=
  hs.keep hs.follows (fun _ => Iff.rfl) (isOwner_worker_congr hworkers) hactive

/-- The main thread on its way out takes and gives back no sequence. -/
theorem ownership_life {pool : ℕ} {s s' : Lifetime} {o : Option Owner} {l : LifeLabel}
    {os : List Output} (hs : Staged pool s) (ho : Ownership s.system o)
    (h : LifeMove pool s l s' os) : ∃ o', Ownership s'.system o' := by
  cases h with
  | server l s' os hallowed hmove =>
    obtain ⟨o', ho', -⟩ := ownership_step ho hmove
    exact ⟨o', ho'⟩
  | shutdown env a k hphase =>
    have hno : a.NoSequence := by
      rcases shutdownRest_act (hs.rest _ hphase) with ⟨rfl, -⟩ | ⟨rfl, -⟩ | ⟨⟨text, rfl⟩, -⟩
      · exact id
      · exact id
      · exact id
    have hsame := perform_sameSequence s.system.process env a hno
    exact ⟨o, ownership_main ho hsame.active hsame.workers⟩
  | advance env next hnext =>
    exact ⟨o, ownership_main ho (effect_active s.phase s.app) rfl⟩
  | _ => exact ⟨o, ho⟩

/-- The invariant of the lifetime. -/
structure Owned (pool : ℕ) (s : Lifetime) : Prop where
  staged : Staged pool s
  ownership : ∃ o, Ownership s.system o

theorem owned_initial (pool : ℕ) (config : AppConfig) (canFd : Int) :
    Owned pool (.initial config canFd) :=
  ⟨staged_initial pool config canFd, none, ownership_initial config canFd⟩

theorem owned_step {pool : ℕ} {s s' : Lifetime} {l : LifeLabel} {os : List Output}
    (hs : Owned pool s) (h : (lifetime pool).step s l = some (s', os)) : Owned pool s' := by
  obtain ⟨o, ho⟩ := hs.ownership
  have hmove := life_move h
  exact ⟨staged_step hs.staged hmove, ownership_life hs.staged ho hmove⟩

theorem owned_reachable {pool : ℕ} {i s : Lifetime} (hi : Owned pool i)
    (h : (lifetime pool).Reachable i s) : Owned pool s :=
  h.invariant hi (fun _ _ _ hs hstep => owned_step hs hstep)

/-- Behind `ws_server_join` the flag stands for a worker that has not ended. -/
theorem active_iff_unfinished {pool : ℕ} {s : Lifetime} (hs : Owned pool s)
    (hjoined : s.phase.Joined) : s.app.sequenceActive = true ↔
      ∃ (k : ℕ) (w : Worker), s.system.process.workers[k]? = some w ∧ w.pc ≠ .done := by
  obtain ⟨o, ho⟩ := hs.ownership
  constructor
  · intro hactive
    have hsome : o.isSome = true := ho.active.symm.trans hactive
    obtain ⟨owner, rfl⟩ := Option.isSome_iff_exists.mp hsome
    have howner := (ho.owner_iff owner).mpr rfl
    cases owner with
    | starter t =>
      obtain ⟨v, hv⟩ := hs.staged.idle hjoined t
      refine absurd ?_ howner
      rw [hv]
      rfl
    | worker k =>
      obtain ⟨w, hw, hpc⟩ := howner
      exact ⟨k, w, hw, hpc⟩
  · rintro ⟨k, w, hw, hpc⟩
    have howner := (ho.owner_iff (.worker k)).mp ⟨w, hw, hpc⟩
    have hactive : s.app.sequenceActive = o.isSome := ho.active
    rw [hactive, howner]
    rfl

theorem finished_iff_inactive {pool : ℕ} {s : Lifetime} (hs : Owned pool s)
    (hjoined : s.phase.Joined) : WorkersFinished s ↔ s.app.sequenceActive = false := by
  rw [← Bool.not_eq_true, active_iff_unfinished hs hjoined]
  constructor
  · rintro hdone ⟨k, w, hw, hpc⟩
    exact hpc (hdone w (List.mem_of_getElem? hw))
  · intro hnone w hw
    by_contra hpc
    obtain ⟨k, hk⟩ := List.getElem?_of_mem hw
    exact hnone ⟨k, w, hk, hpc⟩

/-! ### Without a worker -/

/-- Behind `ws_server_join` and without a sequence, only the signal and the main thread move. -/
theorem idle_step {pool : ℕ} {s s' : Lifetime} {l : LifeLabel} {os : List Output}
    (hs : Owned pool s) (hjoined : s.phase.Joined) (hfree : s.app.sequenceActive = false)
    (h : LifeMove pool s l s' os) :
    s'.phase.Joined ∧ s'.app.sequenceActive = false ∧ ∀ k e, Output.worker k e ∉ os := by
  have hstage : 3 ≤ s.phase.stage := hjoined
  cases h with
  | server l s' os hallowed hmove =>
    obtain ⟨actor, env⟩ := l
    cases hmove with
    | call t c v ht =>
      -- the library calls no handler any more, and the main thread does not tick
      cases t with
      | main =>
        have hserving : s.phase.stage = 0 := hallowed.2.1
        omega
      | handler n =>
        have hopen : s.phase.stage ≤ 2 := hallowed.2.2
        omega
    | thread t a k ht =>
      obtain ⟨v, hv⟩ := hs.staged.idle hjoined t
      cases hv.symm.trans ht
    | worker k args pc mid e hw hm =>
      have hdone := (finished_iff_inactive hs hjoined).mpr hfree _ (List.mem_of_getElem? hw)
      obtain rfl : pc = .done := hdone
      cases hm
    | signal => exact ⟨hjoined, hfree, fun _ _ h => nomatch h⟩
  | advance env next hnext =>
    obtain ⟨-, hnextstage⟩ := stage_next hnext
    refine ⟨?_, (effect_active s.phase s.app).trans hfree, fun _ _ h => nomatch h⟩
    change 3 ≤ next.stage
    omega
  | leave env hphase hleaves =>
    rw [hphase] at hstage
    exact absurd hstage (by decide)
  | shutdown env a k hphase =>
    rw [hphase] at hstage
    exact absurd hstage (show ¬ 3 ≤ 1 by decide)
  | stopServer env v hphase =>
    rw [hphase] at hstage
    exact absurd hstage (show ¬ 3 ≤ 1 by decide)
  | join env hphase hready =>
    rw [hphase] at hstage
    exact absurd hstage (by decide)

/-- From there on no worker moves, and none is unfinished. -/
theorem idle_reachable {pool : ℕ} {s t : Lifetime} (hs : Owned pool s)
    (hjoined : s.phase.Joined) (hfree : s.app.sequenceActive = false)
    (h : (lifetime pool).Reachable s t) : NoWorkerUse pool t ∧ WorkersFinished t := by
  have hinvariant : Owned pool t ∧ t.phase.Joined ∧ t.app.sequenceActive = false := by
    refine h.invariant
      (I := fun u => Owned pool u ∧ u.phase.Joined ∧ u.app.sequenceActive = false)
      ⟨hs, hjoined, hfree⟩ ?_
    intro u l x hu hstep
    obtain ⟨howned, hjoin, hclear⟩ := hu
    obtain ⟨hjoin', hclear', -⟩ := idle_step howned hjoin hclear (life_move hstep)
    exact ⟨owned_step howned hstep, hjoin', hclear'⟩
  obtain ⟨howned, hjoin, hclear⟩ := hinvariant
  refine ⟨?_, (finished_iff_inactive howned hjoin).mpr hclear⟩
  intro l t' os hstep k e he
  obtain ⟨-, -, hnone⟩ := idle_step howned hjoin hclear (life_move hstep)
  exact absurd he (hnone k e)

/-! ### With a worker -/

theorem advance_enabled (pool : ℕ) {s : Lifetime} {next : Phase} (h : s.phase.next = some next)
    (env : Env) : (lifetime pool).step s (.main env) =
      some (⟨{ s.system with process := s.system.process.setApp (s.phase.effect s.app) }, next⟩,
        []) := by
  obtain ⟨system, phase⟩ := s
  cases phase <;> cases h <;> rfl

/-- Between `ws_server_join` and `app_context_cleanup` the main thread waits for nothing. -/
theorem reaches_tearDown (pool : ℕ) (env : Env) (n : ℕ) {s : Lifetime}
    (hjoined : s.phase.Joined) (h : s.phase.stage+n = 7) :
    ∃ t, (lifetime pool).Reachable s t ∧ t.phase.stage = 7 ∧
      t.system.process.workers = s.system.process.workers := by
  induction n generalizing s with
  | zero => exact ⟨s, .init s, h, rfl⟩
  | succ n ih =>
    have hstage : 3 ≤ s.phase.stage := hjoined
    obtain ⟨next, hnext⟩ : ∃ next, s.phase.next = some next := by
      cases hp : s.phase <;> rw [hp] at hstage h <;>
        first | exact ⟨_, rfl⟩ | (simp only [Phase.stage] at hstage h; omega)
    obtain ⟨-, hlater⟩ := stage_next hnext
    have hstep := advance_enabled pool hnext env
    obtain ⟨t, ht, htorn, hworkers⟩ := ih
      (s := ⟨{ s.system with process := s.system.process.setApp (s.phase.effect s.app) }, next⟩)
      (show 3 ≤ next.stage by omega) (show next.stage+n = 7 by omega)
    obtain ⟨ls, os, hrun⟩ := ht
    refine ⟨t, ⟨.main env :: ls, [] ++ os, ?_⟩, htorn, hworkers⟩
    exact Machine.run_cons_eq_some.mpr ⟨_, _, os, hstep, hrun, rfl⟩

/-- How many steps a worker is away from one that uses the context. -/
def WorkerPc.pause : WorkerPc → ℕ
  | .enterWait _ | .sleep _ _ => 2
  | .testDeadline _ _ => 1
  | _ => 0

/-- An unfinished worker uses the context in its next step, or comes nearer to that. -/
theorem worker_comes_to_use (args : SequenceWorkerArgs) {pc : WorkerPc} (hpc : pc ≠ .done)
    (x : WorkerInput) : ∃ mid e, workerStep args pc x = some (mid, e) ∧
      (e.UsesContext ∨ mid ≠ .done ∧ mid.pause < pc.pause) := by
  cases pc with
  | done => exact absurd rfl hpc
  | enterWait i => exact ⟨_, _, rfl, Or.inr ⟨nofun, Nat.lt_succ_self 1⟩⟩
  | sleep i deadline => exact ⟨_, _, rfl, Or.inr ⟨nofun, Nat.lt_succ_self 1⟩⟩
  | testDeadline i deadline =>
    refine ⟨_, _, rfl, Or.inr ?_⟩
    split_ifs
    · exact ⟨nofun, Nat.zero_lt_one⟩
    · exact ⟨nofun, Nat.zero_lt_one⟩
  | _ => exact ⟨_, _, rfl, Or.inl trivial⟩

theorem worker_enabled (pool : ℕ) {s : Lifetime} (hstage : s.phase.stage < 8) {k : ℕ}
    {args : SequenceWorkerArgs} {pc mid : WorkerPc} {e : WorkerEvent} (env : Env)
    (hw : s.system.process.workers[k]? = some ⟨args, pc⟩)
    (h : workerStep args pc (workerInput s.app env) = some (mid, e)) :
    (lifetime pool).step s (.server ⟨.worker k, env⟩) =
      some (⟨s.system.afterWorker k args mid e, s.phase⟩, [.worker k e]) := by
  have hallowed : s.Allows pool (.worker k) := hstage
  have hstep : server.step s.system ⟨.worker k, env⟩ =
      some (s.system.afterWorker k args mid e, [.worker k e]) := by
    have h' : workerStep args pc (workerInput s.system.app env) = some (mid, e) := h
    simp only [server, System.step, hw, h']
    rfl
  change (if s.Allows pool (.worker k) then
    (server.step s.system ⟨.worker k, env⟩).map (fun x => (Lifetime.mk x.1 s.phase, x.2))
    else none) = _
  rw [if_pos hallowed, hstep]
  rfl

/-- A worker that has not ended when `app_context_cleanup` begins can go on to use the
context. -/
theorem worker_uses_tornDown (pool : ℕ) (env : Env) {s : Lifetime} (htorn : s.phase.stage = 7)
    {k : ℕ} {w : Worker} (hw : s.system.process.workers[k]? = some w) (hpc : w.pc ≠ .done) :
    ∃ t, (lifetime pool).Reachable s t ∧ t.phase.stage = 7 ∧ ¬ NoWorkerUse pool t := by
  induction hn : w.pc.pause using Nat.strong_induction_on generalizing s w with
  | _ n ih =>
    obtain ⟨args, pc⟩ := w
    obtain ⟨mid, e, hstep, hnext⟩ := worker_comes_to_use args hpc (workerInput s.app env)
    have henabled := worker_enabled pool (by omega) env hw hstep
    rcases hnext with huse | ⟨hmid, hless⟩
    · refine ⟨s, .init s, htorn, ?_⟩
      intro hno
      exact hno _ _ _ henabled k e (List.mem_singleton_self _) huse
    · have hlt : k < s.system.process.workers.length := (List.getElem?_eq_some_iff.mp hw).1
      have hpause : pc.pause = n := hn
      obtain ⟨t, ⟨ls, os, hrun⟩, ht, huse⟩ := ih mid.pause (by omega)
        (s := ⟨s.system.afterWorker k args mid e, s.phase⟩) (w := ⟨args, mid⟩) htorn
        (List.getElem?_set_self hlt) hmid rfl
      refine ⟨t, ⟨.server ⟨.worker k, env⟩ :: ls, [.worker k e] ++ os, ?_⟩, ht, huse⟩
      exact Machine.run_cons_eq_some.mpr ⟨_, _, os, henabled, hrun, rfl⟩

/-- Whatever the main thread finds active behind `ws_server_join` it may find unfinished. -/
theorem active_reaches_use {pool : ℕ} {s : Lifetime} (hs : Owned pool s)
    (hjoined : s.phase.Joined) (hlive : ¬ s.phase.TornDown)
    (hactive : s.app.sequenceActive = true) :
    (∃ t, (lifetime pool).Reachable s t ∧ t.phase.TornDown ∧ ¬ NoWorkerUse pool t) ∧
      ∃ t, (lifetime pool).Reachable s t ∧ t.phase.TornDown ∧ ¬ WorkersFinished t := by
  let env : Env := ⟨0, fun _ => none, true, true⟩
  obtain ⟨k, w, hw, hpc⟩ := (active_iff_unfinished hs hjoined).mp hactive
  have hlater : s.phase.stage < 7 := not_le.mp hlive
  obtain ⟨t, ht, htorn, hworkers⟩ :=
    reaches_tearDown pool env (7-s.phase.stage) hjoined (by omega)
  rw [← hworkers] at hw
  have htornDown : 7 ≤ t.phase.stage := htorn.ge
  obtain ⟨u, ⟨ls, os, hrun⟩, hu, huse⟩ := worker_uses_tornDown pool env htorn hw hpc
  refine ⟨⟨u, ht.run hrun, hu.ge, huse⟩, t, ht, htornDown, ?_⟩
  intro hfinished
  exact hpc (hfinished w (List.mem_of_getElem? hw))

/-! ### The law -/

theorem tearsDownIdle_step {pool : ℕ} {s : Lifetime} {l : LifeLabel} {x : Lifetime × List Output}
    (hs : Owned pool s) (hfree : s.phase.TornDown → s.app.sequenceActive = false)
    (hl : TearsDownIdle s l) (hstep : (lifetime pool).step s l = some x) :
    x.1.phase.TornDown → x.1.app.sequenceActive = false := by
  intro htorn
  have hmove := life_move hstep
  by_cases hbefore : s.phase.TornDown
  · have hjoined : 3 ≤ s.phase.stage := le_trans (by decide) hbefore
    exact (idle_step hs hjoined (hfree hbefore) hmove).2.1
  · obtain ⟨s', os⟩ := x
    have hearly : s.phase.stage < 7 := not_le.mp hbefore
    cases hmove with
    | advance env next hnext =>
      obtain ⟨-, hlater⟩ := stage_next hnext
      have hnow : 7 ≤ next.stage := htorn
      exact (effect_active s.phase s.app).trans (hl (by omega))
    | server l s' os hallowed hmove => exact absurd htorn hbefore
    | leave env hphase hleaves => exact absurd htorn (show ¬ 7 ≤ 1 by decide)
    | shutdown env a k hphase => exact absurd htorn (show ¬ 7 ≤ 1 by decide)
    | stopServer env v hphase => exact absurd htorn (show ¬ 7 ≤ 2 by decide)
    | join env hphase hready => exact absurd htorn (show ¬ 7 ≤ 3 by decide)

/-- In every run that begins `app_context_cleanup` only while no sequence is active, no
worker uses the context from there on, all of them having run `finish_sequence`. Behind
`ws_server_join` nothing else sees to it: the runs that follow a state all keep to it
exactly when no sequence is active there. -/
theorem tear_down_after_workers (pool : ℕ) (config : AppConfig) (canFd : Int) :
    (∀ ls s os, (lifetime pool).run (.initial config canFd) ls = some (s, os) →
      (lifetime pool).Along TearsDownIdle (.initial config canFd) ls →
      s.phase.TornDown → NoWorkerUse pool s ∧ WorkersFinished s) ∧
    ∀ s, (lifetime pool).Reachable (.initial config canFd) s → s.phase.Joined →
      ¬ s.phase.TornDown →
      ((∀ t, (lifetime pool).Reachable s t → t.phase.TornDown → NoWorkerUse pool t) ↔
        s.app.sequenceActive = false) ∧
      ((∀ t, (lifetime pool).Reachable s t → t.phase.TornDown → WorkersFinished t) ↔
        s.app.sequenceActive = false) := by
  constructor
  · intro ls s os hrun hls htorn
    -- a run that tears down only while idle keeps the owner invariant, and the flag stays clear
    have hinvariant : Owned pool s ∧ (s.phase.TornDown → s.app.sequenceActive = false) := by
      refine Machine.run_invariant (C := TearsDownIdle)
        (I := fun s => Owned pool s ∧ (s.phase.TornDown → s.app.sequenceActive = false)) ?_
        ⟨owned_initial pool config canFd, fun _ => rfl⟩ hls hrun
      intro s l x hs hl hstep
      exact ⟨owned_step hs.1 hstep, tearsDownIdle_step hs.1 hs.2 hl hstep⟩
    obtain ⟨howned, hfree⟩ := hinvariant
    have hjoined : 3 ≤ s.phase.stage := le_trans (by decide) htorn
    exact idle_reachable howned hjoined (hfree htorn) (.init s)
  · intro s hreach hjoined hlive
    have howned := owned_reachable (owned_initial pool config canFd) hreach
    -- an active sequence has a run in which its worker uses what is torn down
    refine ⟨⟨?_, ?_⟩, ?_, ?_⟩
    · intro hno
      by_contra hactive
      rw [Bool.not_eq_false] at hactive
      obtain ⟨⟨t, ht, htorn, huse⟩, -⟩ := active_reaches_use howned hjoined hlive hactive
      exact huse (hno t ht htorn)
    · intro hfree t ht _
      exact (idle_reachable howned hjoined hfree ht).1
    · intro hall
      by_contra hactive
      rw [Bool.not_eq_false] at hactive
      obtain ⟨-, t, ht, htorn, hunfinished⟩ := active_reaches_use howned hjoined hlive hactive
      exact hunfinished (hall t ht htorn)
    · intro hfree t ht _
      exact (idle_reachable howned hjoined hfree ht).2

/-- A drowning sequence in its second wait that shutdown aborts in time. -/
theorem tear_down_after_aborted_drown :
    let env : Env := ⟨0, fun _ => none, true, true⟩
    let say (text : String) : LifeLabel :=
      .server ⟨.call (.handler 0) (.message 0 text.toList), env⟩
    let own : LifeLabel := .server ⟨.thread (.handler 0), env⟩
    let worker : LifeLabel := .server ⟨.worker 0, env⟩
    let main : LifeLabel := .main env
    ∃ s os, (lifetime 1).run (.initial ⟨false, false⟩ 3)
        (say "STATE#HOTFIRE" :: List.replicate 8 own ++ say "DROWN#8765" ::
          List.replicate 10 own ++ List.replicate 7 worker ++ List.replicate 2 main ++
          List.replicate 3 worker ++ List.replicate 7 main) = some (s, os) ∧
      s.system.process.workers.length = 1 ∧ NoWorkerUse 1 s ∧ WorkersFinished s := by
  intro env say own worker main
  have hfacts : ((lifetime 1).run (.initial ⟨false, false⟩ 3)
      (say "STATE#HOTFIRE" :: List.replicate 8 own ++ say "DROWN#8765" ::
        List.replicate 10 own ++ List.replicate 7 worker ++ List.replicate 2 main ++
        List.replicate 3 worker ++ List.replicate 7 main)).map
      (fun r => (r.1.phase.stage, r.1.system.process.workers.length)) = some (7, 1) := by decide
  obtain ⟨⟨s, os⟩, hrun, hs⟩ := Option.map_eq_some_iff.mp hfacts
  obtain ⟨hstage, hone⟩ := Prod.mk.inj hs
  have htorn : 7 ≤ s.phase.stage := hstage.ge
  exact ⟨s, os, hrun, hone,
    (tear_down_after_workers 1 ⟨false, false⟩ 3).1 _ s os hrun (by decide) htorn⟩

/-- The same sequence when the worker is not scheduled until `app_context_cleanup` has
begun: its next step takes a lock that is destroyed. -/
theorem tear_down_overtakes_worker :
    let env : Env := ⟨0, fun _ => none, true, true⟩
    let say (text : String) : LifeLabel :=
      .server ⟨.call (.handler 0) (.message 0 text.toList), env⟩
    let own : LifeLabel := .server ⟨.thread (.handler 0), env⟩
    let worker : LifeLabel := .server ⟨.worker 0, env⟩
    ∃ s os, (lifetime 1).run (.initial ⟨false, false⟩ 3)
        (say "STATE#HOTFIRE" :: List.replicate 8 own ++ say "DROWN#8765" ::
          List.replicate 10 own ++ List.replicate 7 worker ++
          List.replicate 9 (.main env)) = some (s, os) ∧
      s.phase.TornDown ∧ ¬ NoWorkerUse 1 s ∧ ¬ WorkersFinished s := by
  intro env say own worker
  have hfacts : ((lifetime 1).run (.initial ⟨false, false⟩ 3)
      (say "STATE#HOTFIRE" :: List.replicate 8 own ++ say "DROWN#8765" ::
        List.replicate 10 own ++ List.replicate 7 worker ++
        List.replicate 9 (.main env))).map (fun r => (r.1.phase.stage,
          (r.1.system.process.workers[0]?).map (fun w => w.pc),
          ((lifetime 1).step r.1 worker).map (fun x => x.2))) =
      some (7, some (.checkAbort 1 100), some [.worker 0 (.abortRequested true)]) := by decide
  obtain ⟨⟨s, os⟩, hrun, hs⟩ := Option.map_eq_some_iff.mp hfacts
  obtain ⟨hstage, hs⟩ := Prod.mk.inj hs
  obtain ⟨hpc, hstep⟩ := Prod.mk.inj hs
  obtain ⟨⟨s', os'⟩, hstep, rfl⟩ := Option.map_eq_some_iff.mp hstep
  obtain ⟨w, hw, hat⟩ := Option.map_eq_some_iff.mp hpc
  refine ⟨s, os, hrun, hstage.ge, ?_, ?_⟩
  · intro hno
    exact hno worker s' _ hstep 0 (.abortRequested true) (List.mem_singleton_self _) trivial
  · intro hfinished
    cases hat.symm.trans (hfinished w (List.mem_of_getElem? hw))

end WsServer
