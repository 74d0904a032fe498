import WsServer.HotfireQuiet
import WsServer.Lifetime
import WsServer.WiggleLedger

/-! Wiggles at the end of the server: `shutdown_runtime` stops all of them before it stops
the handlers, so what remains is what a handler starts in between and nobody stops. -/
namespace WsServer
open Interaction Program

/-- `shutdown_runtime` has stopped all wiggles. -/
def Phase.wigglesStopped : Phase → Bool
  | .serving => false
  | .shuttingDown (.act .requestAbort _) => false
  | .shuttingDown (.act (.wiggleStopAll _) _) => false
  | _ => true

def Lifetime.action (s : Lifetime) : LifeLabel → Option Act
  | .server l => s.system.action l.actor
  | .main _ =>
    match s.phase with
    | .shuttingDown (.act a _) => some a
    | _ => none

/-- The wiggle that a step starts. -/
def Lifetime.starts (s : Lifetime) (l : LifeLabel) : Option WiggleRequest :=
  (s.action l).bind (Act.starts s.app.wiggles)

def Lifetime.stops (s : Lifetime) (l : LifeLabel) (id : UInt32) : Bool :=
  (s.action l).any (Act.stops id)

abbrev LifeHistory := List (Machine.Taken Lifetime LifeLabel Output)

/-- The wiggles started in a run, and the commands sent for them. -/
def account (h : LifeHistory) : List WiggleNote :=
  h.flatMap (fun x => notesOf (x.state.starts x.label) (wiggleAttempts x.outputs))

/-- The ids whose wiggles were started when shutdown had stopped all of them, by a step that
no stop of the id has followed. -/
def startedLate (h : LifeHistory) : List UInt32 :=
  h.foldl (fun ids x =>
    match x.state.starts x.label with
    | some r => if x.state.phase.wigglesStopped then r.id :: ids else ids
    | none => ids.filter (fun id => !x.state.stops x.label id)) []

/-- No slot is active, and every wiggle started has had its exit value attempted last, or
one that has replaced it has. -/
structure LeftQuiet (s : Lifetime) (h : LifeHistory) : Prop where
  quiet : Quiet s.app.wiggles
  settled : AccountSettled (account h)

/-! ### One step -/

/-- What the threads may do to the table. -/
structure Tended (s : Lifetime) : Prop where
  main : Performs Act.IsTick (s.system.threads .main)
  handlers : ∀ n, Performs Act.Served (s.system.threads (.handler n))

theorem tended_initial (config : AppConfig) (canFd : Int) : Tended (.initial config canFd) where
  main := trivial
  handlers _ := trivial

/-- What a thread of the kind may do. -/
def Thread.Tends : Thread → Act → Prop
  | .main => Act.IsTick
  | .handler _ => Act.Served

theorem tends_call {pool : ℕ} {s : Lifetime} {t : Thread} {c : Call}
    (h : s.Allows pool (.call t c)) : Performs t.Tends (c.program s.app.config) := by
  cases t with
  | main =>
    have htick : c.IsTick := h.1
    cases c <;> first | exact htick.elim | exact ⟨trivial, fun _ => trivial⟩
  | handler n =>
    have hclient : c.FromClient := h.2.1
    apply served_call
    rintro rfl
    exact hclient

theorem tended_step {pool : ℕ} {s s' : Lifetime} {l : LifeLabel} {os : List Output}
    (hs : Tended s) (h : LifeMove pool s l s' os) : Tended s' := by
  cases h with
  | server l s' os hallowed hmove =>
    have hthreads : ∀ t, Performs t.Tends (s.system.threads t) := by
      intro t
      cases t with
      | main => exact hs.main
      | handler n => exact hs.handlers n
    have hnext := hmove.threads (P := fun t => Performs t.Tends) hthreads
      (fun t c hc => tends_call (hc ▸ hallowed)) (fun t a k hp => hp.2 _)
    exact ⟨hnext .main, fun n => hnext (.handler n)⟩
  | _ => exact ⟨hs.main, hs.handlers⟩

/-- What a step does to the table: nothing, or what its action does. -/
inductive TableStep (s s' : Lifetime) (l : LifeLabel) (os : List Output) : Prop where
  | idle (haction : s.action l = none) (hwiggles : s'.app.wiggles = s.app.wiggles)
      (hstate : s'.app.state = s.app.state) (hsent : wiggleAttempts os = [])
  | action (env : Env) (a : Act) (haction : s.action l = some a)
      (happ : s'.app = (perform s.system.process env a).1.app)
      (hsent : wiggleAttempts os = attempted (perform s.system.process env a).2.2)
      (hserved : a.Served ∨ a = .wiggleProcess ∧ s.phase.wigglesStopped = false)

theorem wigglesStopped_of_stage {p : Phase} (h : p.stage = 0) : p.wigglesStopped = false := by
  cases p <;> first | rfl | cases h

theorem effect_table (p : Phase) (app : App) :
    (p.effect app).wiggles = app.wiggles ∧ (p.effect app).state = app.state := by
  cases p <;> exact ⟨rfl, rfl⟩

theorem table_step {pool : ℕ} {s s' : Lifetime} {l : LifeLabel} {os : List Output}
    (hs : Staged pool s) (ht : Tended s) (h : LifeMove pool s l s' os) :
    TableStep s s' l os := by
  cases h with
  | server l s' os hallowed hmove =>
    obtain ⟨actor, env⟩ := l
    cases hmove with
    | call t c v hidle => exact .idle rfl rfl rfl rfl
    | thread t a k hk =>
      have haction : s.action (.server ⟨.thread t, env⟩) = some a := by
        simp only [Lifetime.action, System.action, hk]
      refine .action env a haction rfl (wiggleAttempts_event t _) ?_
      cases t with
      | main =>
        -- the main thread is at work in its loop only, where nothing has been stopped yet
        have hmain := ht.main
        rw [hk] at hmain
        have hstage : s.phase.stage = 0 := by
          by_contra hne
          have hidle := hs.main hne
          simp only [System.idle, hk, Bool.false_eq_true] at hidle
        have htick : a.IsTick := hmain.1
        cases a <;> first | exact htick.elim | exact Or.inr ⟨rfl, wigglesStopped_of_stage hstage⟩
      | handler n =>
        have hhandler := ht.handlers n
        rw [hk] at hhandler
        exact Or.inl hhandler.1
    | worker k args pc mid e hw hm =>
      obtain ⟨hstate, hwiggles⟩ := afterWorker_mode s.app e
      exact .idle rfl hwiggles hstate rfl
    | signal => exact .idle rfl rfl rfl rfl
  | leave env hphase hleaves =>
    exact .idle (by simp only [Lifetime.action, hphase]) rfl rfl rfl
  | shutdown env a k hphase =>
    have haction : s.action (.main env) = some a := by simp only [Lifetime.action, hphase]
    refine .action env a haction rfl (wiggleAttempts_event .main _) (Or.inl ?_)
    rcases shutdownRest_act (hs.rest _ hphase) with ⟨rfl, -⟩ | ⟨rfl, -⟩ | ⟨⟨text, rfl⟩, -⟩
    · trivial
    · exact rfl
    · trivial
  | stopServer env v hphase =>
    exact .idle (by simp only [Lifetime.action, hphase]) rfl rfl rfl
  | join env hphase hready =>
    exact .idle (by simp only [Lifetime.action, hphase]) rfl rfl rfl
  | advance env next hnext =>
    obtain ⟨hwiggles, hstate⟩ := effect_table s.phase s.app
    have haction : s.action (.main env) = none := by
      unfold Lifetime.action
      cases hphase : s.phase with
      | shuttingDown rest =>
        rw [hphase] at hnext
        cases hnext
      | _ => rfl
    exact .idle haction hwiggles hstate rfl

/-- The wiggles are stopped by the one step that stops all of them. -/
theorem wigglesStopped_step {pool : ℕ} {s s' : Lifetime} {l : LifeLabel} {os : List Output}
    (hs : Staged pool s) (h : LifeMove pool s l s' os) :
    s'.phase.wigglesStopped = s.phase.wigglesStopped ∨
      s.phase.wigglesStopped = false ∧ s.action l = some (.wiggleStopAll true) := by
  cases h with
  | server l s' os hallowed hmove => exact Or.inl rfl
  | leave env hphase hleaves =>
    rw [hphase]
    exact Or.inl rfl
  | shutdown env a k hphase =>
    have haction : s.action (.main env) = some a := by simp only [Lifetime.action, hphase]
    rcases shutdownRest_act (hs.rest _ hphase) with ⟨rfl, hk⟩ | ⟨rfl, hk⟩ | ⟨⟨text, rfl⟩, hk⟩
    · rw [hphase, hk]
      exact Or.inl rfl
    · rw [hphase]
      exact Or.inr ⟨rfl, haction⟩
    · rw [hphase, hk]
      exact Or.inl rfl
  | stopServer env v hphase =>
    rw [hphase]
    exact Or.inl rfl
  | join env hphase hready =>
    rw [hphase]
    exact Or.inl rfl
  | advance env next hnext =>
    refine Or.inl ?_
    cases hphase : s.phase <;> rw [hphase] at hnext <;> cases hnext <;> rfl

/-! ### The invariant -/

/-- The account goes with the table, and so do the late starts. -/
structure Accounted (pool : ℕ) (h : LifeHistory) (s : Lifetime) : Prop where
  staged : Staged pool s
  tended : Tended s
  table : ∃ w, Refines s.app w ∧
    ∀ id, Accounts (w.map.lookup id) (trailOf id (account h))
  late : ∀ id, id ∈ startedLate h ↔ s.phase.wigglesStopped = true ∧ s.app.Wiggles id

theorem accounted_initial (pool : ℕ) (config : AppConfig) (canFd : Int) :
    Accounted pool [] (.initial config canFd) where
  staged := staged_initial pool config canFd
  tended := tended_initial config canFd
  table := by
    refine ⟨.initial, refines_initial config canFd, ?_⟩
    intro id exitValue vs hvs
    cases hvs
  late id := iff_of_false List.not_mem_nil (fun h => Bool.false_ne_true h.1)

theorem trail_account (id : UInt32) (h : LifeHistory)
    (x : Machine.Taken Lifetime LifeLabel Output) :
    trailOf id (account (h ++ [x])) =
      (notesOf (x.state.starts x.label) (wiggleAttempts x.outputs)).foldl (Trail.add id)
        (trailOf id (account h)) := by
  rw [account, List.flatMap_append, List.flatMap_singleton, trailOf, List.foldl_append]
  rfl

theorem startedLate_concat (h : LifeHistory) (x : Machine.Taken Lifetime LifeLabel Output) :
    startedLate (h ++ [x]) =
      match x.state.starts x.label with
      | some r => if x.state.phase.wigglesStopped then r.id :: startedLate h else startedLate h
      | none => (startedLate h).filter (fun id => !x.state.stops x.label id) := by
  rw [startedLate, List.foldl_append]
  rfl

/-- A step without an action changes neither the account nor the late starts. -/
theorem accounted_idle {pool : ℕ} {h : LifeHistory} {s s' : Lifetime} {l : LifeLabel}
    {os : List Output} (hs : Accounted pool h s) (hmove : LifeMove pool s l s' os)
    (haction : s.action l = none) (hwiggles : s'.app.wiggles = s.app.wiggles)
    (hstate : s'.app.state = s.app.state) (hsent : wiggleAttempts os = []) :
    Accounted pool (h ++ [⟨s, l, os⟩]) s' := by
  have hstarts : s.starts l = none := by
    rw [Lifetime.starts, haction]
    rfl
  have hphase : s'.phase.wigglesStopped = s.phase.wigglesStopped := by
    rcases wigglesStopped_step hs.staged hmove with hsame | ⟨-, hstop⟩
    · exact hsame
    · cases haction.symm.trans hstop
  refine ⟨staged_step hs.staged hmove, tended_step hs.tended hmove, ?_, ?_⟩
  · obtain ⟨w, hw, haccounts⟩ := hs.table
    refine ⟨w, hw.congr hwiggles hstate, ?_⟩
    intro id
    rw [trail_account]
    simp only [hstarts, hsent]
    exact haccounts id
  · intro id
    rw [startedLate_concat]
    simp only [hstarts, Lifetime.stops, haction, Option.any_none, Bool.not_false,
      List.filter_true, hphase, App.Wiggles, hwiggles]
    exact hs.late id

/-- Late starts behind an action. -/
theorem late_step {h : LifeHistory} {s s' : Lifetime} {l : LifeLabel} {os : List Output}
    {a : Act} {id : UInt32} (haction : s.action l = some a)
    (hlate : ∀ id, id ∈ startedLate h ↔ s.phase.wigglesStopped = true ∧ s.app.Wiggles id)
    (hphase : s'.phase.wigglesStopped = s.phase.wigglesStopped ∨
      s.phase.wigglesStopped = false ∧ s.action l = some (.wiggleStopAll true))
    (hserved : a.Served ∨ a = .wiggleProcess ∧ s.phase.wigglesStopped = false)
    (hwiggles : a.Served → (s'.app.Wiggles id ↔
      (∃ r, a.starts s.app.wiggles = some r ∧ r.id = id) ∨
        (s.app.Wiggles id ∧ a.stops id = false))) :
    id ∈ startedLate (h ++ [⟨s, l, os⟩]) ↔
      s'.phase.wigglesStopped = true ∧ s'.app.Wiggles id := by
  have hstarts : s.starts l = a.starts s.app.wiggles := by
    rw [Lifetime.starts, haction]
    rfl
  have hstops : ∀ id', s.stops l id' = a.stops id' := by
    intro id'
    rw [Lifetime.stops, haction]
    rfl
  rw [startedLate_concat]
  simp only [hstarts, hstops]
  cases hbefore : s.phase.wigglesStopped with
  | false =>
    -- nothing is late yet, and the step that stops all wiggles leaves none
    have hnone : startedLate h = [] := by
      refine List.eq_nil_iff_forall_not_mem.mpr (fun id' hid' => ?_)
      exact Bool.false_ne_true (hbefore.symm.trans ((hlate id').mp hid').1)
    refine iff_of_false ?_ ?_
    · rw [hnone]
      cases a.starts s.app.wiggles <;> exact List.not_mem_nil
    · rintro ⟨hafter, hw⟩
      rcases hphase with hsame | ⟨-, hstop⟩
      · exact Bool.false_ne_true (hbefore.symm.trans (hsame.symm.trans hafter))
      · obtain rfl := Option.some.inj (haction.symm.trans hstop)
        rcases (hwiggles rfl).mp hw with ⟨r, hr, -⟩ | ⟨-, hno⟩
        · cases hr
        · cases hno
  | true =>
    have hafter : s'.phase.wigglesStopped = true := by
      rcases hphase with hsame | ⟨hno, -⟩
      · exact hsame.trans hbefore
      · cases hbefore.symm.trans hno
    have ha : a.Served := by
      rcases hserved with ha | ⟨-, hno⟩
      · exact ha
      · cases hbefore.symm.trans hno
    have hmem : id ∈ startedLate h ↔ s.app.Wiggles id := by
      rw [hlate id, hbefore]
      exact and_iff_right rfl
    rw [hwiggles ha, hafter]
    simp only [true_and, if_true]
    cases hr : a.starts s.app.wiggles with
    | some r =>
      have hno : a.stops id = false := by
        by_contra hstop
        rw [Bool.not_eq_false] at hstop
        cases (starts_of_stops hstop).symm.trans hr
      simp only [List.mem_cons, hmem, hno, and_true, Option.some.injEq, exists_eq_left',
        eq_comm]
    | none =>
      simp only [List.mem_filter, hmem, Bool.not_eq_true', reduceCtorEq, false_and, exists_false,
        false_or]

theorem accounted_step {pool : ℕ} {h : LifeHistory} {s s' : Lifetime} {l : LifeLabel}
    {os : List Output} (hs : Accounted pool h s)
    (hstep : (lifetime pool).step s l = some (s', os)) :
    Accounted pool (h ++ [⟨s, l, os⟩]) s' := by
  have hmove := life_move hstep
  cases table_step hs.staged hs.tended hmove with
  | idle haction hwiggles hstate hsent =>
    exact accounted_idle hs hmove haction hwiggles hstate hsent
  | action env a haction happ hsent hserved =>
    obtain ⟨w, hw, haccounts⟩ := hs.table
    obtain ⟨w', hw', hkeys⟩ := atKeys_perform hw env a (hserved.imp_right And.left)
    rw [← happ] at hw'
    have hstarts : s.starts l = a.starts s.app.wiggles := by
      rw [Lifetime.starts, haction]
      rfl
    refine ⟨staged_step hs.staged hmove, tended_step hs.tended hmove, ⟨w', hw', ?_⟩, ?_⟩
    · intro id
      rw [trail_account]
      simp only [hstarts, hsent]
      exact accounts_step (hkeys id) (haccounts id)
    · intro id
      exact late_step haction hs.late (wigglesStopped_step hs.staged hmove) hserved
        (fun ha => wiggles_of_keyStep hw hw' ha (hkeys id))

theorem accounted_run {pool : ℕ} {config : AppConfig} {canFd : Int} {ls : List LifeLabel}
    {s : Lifetime} {os : List Output}
    (hrun : (lifetime pool).run (.initial config canFd) ls = some (s, os)) :
    Accounted pool ((lifetime pool).history (.initial config canFd) ls) s := by
  have hinvariant := Machine.history_invariant (I := Accounted pool)
    (fun h s l x hs hstep => accounted_step hs hstep) (accounted_initial pool config canFd) hrun
  rw [List.nil_append] at hinvariant
  exact hinvariant

/-! ### The law -/

theorem wigglesStopped_of_returned {p : Phase} (h : p.Returned) : p.wigglesStopped = true := by
  have hstage : 6 ≤ p.stage := h
  cases p with
  | serving => exact absurd hstage (show ¬ 6 ≤ 0 by decide)
  | shuttingDown rest => exact absurd hstage (show ¬ 6 ≤ 1 by decide)
  | _ => rfl

/-- When `shutdown_runtime` has returned, no slot is active and every wiggle ever started
has come to its exit value, exactly when every wiggle that a handler has started behind the
`wiggle_stop_all` of the shutdown has been stopped again. -/
theorem shutdown_leaves_no_wiggle (pool : ℕ) (config : AppConfig) (canFd : Int)
    (ls : List LifeLabel) (s : Lifetime) (os : List Output)
    (hrun : (lifetime pool).run (.initial config canFd) ls = some (s, os))
    (hreturned : s.phase.Returned) :
    LeftQuiet s ((lifetime pool).history (.initial config canFd) ls) ↔
      startedLate ((lifetime pool).history (.initial config canFd) ls) = [] := by
  have hs := accounted_run hrun
  have hstopped := wigglesStopped_of_returned hreturned
  generalize (lifetime pool).history (.initial config canFd) ls = h at hs ⊢
  have hlate : startedLate h = [] ↔ ∀ id, ¬ s.app.Wiggles id := by
    rw [List.eq_nil_iff_forall_not_mem]
    refine forall_congr' (fun id => not_congr ?_)
    rw [hs.late id]
    exact and_iff_right hstopped
  rw [hlate]
  constructor
  · rintro hquiet id ⟨i, hactive, -⟩
    exact Bool.false_ne_true ((hquiet.quiet i).symm.trans hactive)
  · intro hnone
    obtain ⟨w, hw, haccounts⟩ := hs.table
    refine ⟨?_, accountSettled_of_accounts ?_⟩
    · intro i
      by_contra hactive
      exact hnone _ ⟨i, Bool.eq_true_of_not_eq_false hactive, rfl⟩
    · intro id
      have hlookup : w.map.lookup id = none := by
        by_contra hsome
        obtain ⟨p, hp⟩ := Option.ne_none_iff_exists'.mp hsome
        exact hnone id (hw.wiggles_iff.mpr ⟨p, hp⟩)
      rw [← hlookup]
      exact haccounts id

/-- A wiggle that runs when the shutdown begins. -/
theorem shutdown_leaves_no_wiggle_one :
    let env : Env := ⟨0, fun _ => none, true, true⟩
    let say (text : String) : LifeLabel :=
      .server ⟨.call (.handler 0) (.message 0 text.toList), env⟩
    let own : LifeLabel := .server ⟨.thread (.handler 0), env⟩
    ∃ s os, (lifetime 1).run (.initial ⟨false, false⟩ 3)
        (say "WIGGLE|101#1#2#3#5" :: List.replicate 7 own ++
          List.replicate 9 (.main env)) = some (s, os) ∧
      LeftQuiet s ((lifetime 1).history (.initial ⟨false, false⟩ 3)
        (say "WIGGLE|101#1#2#3#5" :: List.replicate 7 own ++ List.replicate 9 (.main env))) := by
  intro env say own
  have hfacts : ((lifetime 1).run (.initial ⟨false, false⟩ 3)
      (say "WIGGLE|101#1#2#3#5" :: List.replicate 7 own ++
        List.replicate 9 (.main env))).map (fun r => r.1.phase.stage) = some 6 := by decide
  obtain ⟨⟨s, os⟩, hrun, hstage⟩ := Option.map_eq_some_iff.mp hfacts
  have hreturned : 6 ≤ s.phase.stage := hstage.ge
  exact ⟨s, os, hrun,
    (shutdown_leaves_no_wiggle 1 ⟨false, false⟩ 3 _ s os hrun hreturned).mpr (by decide)⟩

/-- A `WIGGLE` that is handled behind the `wiggle_stop_all` of the shutdown wiggles on. -/
theorem late_wiggle_outlives_shutdown :
    let env : Env := ⟨0, fun _ => none, true, true⟩
    let say (text : String) : LifeLabel :=
      .server ⟨.call (.handler 0) (.message 0 text.toList), env⟩
    let own : LifeLabel := .server ⟨.thread (.handler 0), env⟩
    let run := say "WIGGLE|101#1#2#3#5" :: List.replicate 3 (.main env) ++
      List.replicate 7 own ++ List.replicate 5 (.main env)
    ∃ s os, (lifetime 1).run (.initial ⟨false, false⟩ 3) run = some (s, os) ∧
      s.phase.Returned ∧ (s.app.wiggles ⟨0, by decide⟩).active = true ∧
      ¬ LeftQuiet s ((lifetime 1).history (.initial ⟨false, false⟩ 3) run) := by
  intro env say own run
  have hfacts : ((lifetime 1).run (.initial ⟨false, false⟩ 3) run).map
      (fun r => (r.1.phase.stage, (r.1.app.wiggles ⟨0, by decide⟩).active)) =
      some (6, true) := by decide
  obtain ⟨⟨s, os⟩, hrun, hs⟩ := Option.map_eq_some_iff.mp hfacts
  obtain ⟨hstage, hactive⟩ := Prod.mk.inj hs
  refine ⟨s, os, hrun, hstage.ge, hactive, ?_⟩
  intro hquiet
  exact Bool.false_ne_true ((hquiet.quiet _).symm.trans hactive)

end WsServer
