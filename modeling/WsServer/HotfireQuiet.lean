import WsServer.OneSequence
import WsServer.SerialRun

/-! From the store of `HOTFIRE` on, the wiggle code sends nothing but the exit values of
the slots that were active, until `PRECHILLING` is stored again. -/
namespace WsServer
open Interaction Program

def Output.wiggleTx : Output → Option CanCommand
  | .event _ e => e.wiggleTx
  | .worker _ _ => none

/-- The CAN commands that the wiggle code attempted in a run, in order. -/
def wiggleAttempts (os : List Output) : List CanCommand := os.filterMap Output.wiggleTx

theorem wiggleAttempts_append (os os' : List Output) :
    wiggleAttempts (os ++ os') = wiggleAttempts os ++ wiggleAttempts os' :=
  List.filterMap_append

theorem wiggleAttempts_event (t : Thread) (es : List Event) :
    wiggleAttempts (es.map (.event t)) = attempted es := by
  simp only [wiggleAttempts, attempted, List.filterMap_map]
  rfl

/-- A serial step that does not leave `HOTFIRE`. -/
abbrev HotfireStep (s : System) (l : Label) : Prop :=
  Serial l.actor ∧ s.stores l.actor ≠ some .prechilling

/-! ### Without an active slot -/

theorem hotfire_quiet_step {s s' : System} {g : Gate} (hs : SerialState s g) {l : Label}
    {os : List Output} (hm : SystemMove s l.env l.actor s' os) (hl : HotfireStep s l)
    (hhot : s.app.state = .hotfire) (hquiet : Quiet s.app.wiggles) :
    s'.app.state = .hotfire ∧ Quiet s'.app.wiggles ∧ wiggleAttempts os = [] := by
  obtain ⟨actor, env⟩ := l
  cases hm with
  | call t c v ht => exact ⟨hhot, hquiet, rfl⟩
  | thread t a k ht =>
    have haction : s.action (.thread t) = some a := action_of_thread ht
    rw [wiggleAttempts_event]
    have hstart : ∀ r, a ≠ .wiggleStart r := by
      rintro r rfl
      -- only the handler starts wiggles, and only where it knows of `PRECHILLING`
      cases t with
      | main =>
        have hmain := hs.main
        rw [ht] at hmain
        exact hmain.1
      | handler n =>
        by_cases hn : n = 0
        · subst hn
          have hf := hs.handler
          rw [ht] at hf
          obtain rfl : g = .prechilling := hf.1
          cases hhot.symm.trans hs.gate.knows
        · obtain ⟨v, hv⟩ := hs.idle n hn
          cases hv.symm.trans ht
    refine ⟨?_, perform_quiet s.process env a hstart hquiet⟩
    by_cases hstore : ∃ state, a = .storeState state
    · obtain ⟨state, rfl⟩ := hstore
      cases state with
      | prechilling => exact absurd (stores_eq_some.mpr haction) hl.2
      | hotfire => rfl
    · exact (perform_state s.process env a (fun state h => hstore ⟨state, h⟩)).trans hhot
  | worker k args pc mid e hw hmove =>
    obtain ⟨hstate, hwiggles⟩ := afterWorker_mode s.app e
    exact ⟨hstate.trans hhot, fun i => (congrFun hwiggles i).symm ▸ hquiet i, rfl⟩
  | signal => exact ⟨hhot, hquiet, rfl⟩

theorem hotfire_quiet_run {s s' : System} {g : Gate} (hs : SerialState s g) {ls : List Label}
    {os : List Output} (hrun : server.run s ls = some (s', os))
    (hls : server.Along HotfireStep s ls) (hhot : s.app.state = .hotfire)
    (hquiet : Quiet s.app.wiggles) :
    s'.app.state = .hotfire ∧ Quiet s'.app.wiggles ∧ wiggleAttempts os = [] := by
  induction ls generalizing s g os with
  | nil =>
    obtain ⟨rfl, rfl⟩ := Prod.mk.inj (Option.some.inj hrun)
    exact ⟨hhot, hquiet, rfl⟩
  | cons l ls ih =>
    obtain ⟨mid, head, os', hstep, hrest, rfl⟩ := Machine.run_cons_eq_some.mp hrun
    obtain ⟨hl, htail⟩ := (Machine.along_cons_iff hstep).mp hls
    have hm := system_move hstep
    obtain ⟨hhot', hquiet', hnone⟩ := hotfire_quiet_step hs hm hl hhot hquiet
    obtain ⟨g', hs', -⟩ := serialState_step hs hl.1 hm
    obtain ⟨hlast, hquietlast, hrestnone⟩ := ih hs' hrest htail hhot' hquiet'
    refine ⟨hlast, hquietlast, ?_⟩
    rw [wiggleAttempts_append, hnone, hrestnone, List.append_nil]

/-! ### From the store on -/

/-- While the wiggles are still to be stopped, only the handler moves the table. -/
theorem stopping_other_step {s s' : System} (hs : SerialState s .stopping) {l : Label}
    {os : List Output} (hm : SystemMove s l.env l.actor s' os) (hl : Serial l.actor)
    (hthread : l.isThread (.handler 0) = false) :
    SerialState s' .stopping ∧ s'.app.wiggles = s.app.wiggles ∧ wiggleAttempts os = [] := by
  obtain ⟨g', hs', hgate⟩ := serialState_step hs hl hm
  obtain ⟨actor, env⟩ := l
  have hg : g' = .stopping := by
    cases hgate with
    | own a h _ _ r hafter => cases hthread
    | other _ _ h => rfl
  subst hg
  refine ⟨hs', ?_⟩
  cases hm with
  | call t c v ht => exact ⟨rfl, rfl⟩
  | thread t a k ht =>
    cases t with
    | main =>
      have hmain := hs.main
      rw [ht] at hmain
      obtain ⟨htick, -⟩ := hmain
      cases a <;> first | exact htick.elim | skip
      have hperform : perform s.process env .wiggleProcess = (s.process, (), []) := by
        have hhot : s.process.app.state = .hotfire := hs.gate.knows
        simp only [perform, wiggleProcess_hotfire env hhot, Process.setApp]
      simp only [System.afterAct, hperform, wiggleAttempts_event, attempted_nil, and_true]
      rfl
    | handler n =>
      have hn : n ≠ 0 := by
        rintro rfl
        simp [Label.isThread] at hthread
      obtain ⟨v, hv⟩ := hs.idle n hn
      cases hv.symm.trans ht
  | worker k args pc mid e hw hmove => exact ⟨(afterWorker_mode s.app e).2, rfl⟩
  | signal => exact ⟨rfl, rfl⟩

/-- The handler's next step stops all wiggles. -/
theorem stopping_own_step {s s' : System} (hs : SerialState s .stopping) {l : Label}
    {os : List Output} (hm : SystemMove s l.env l.actor s' os) (hl : Serial l.actor)
    (hthread : l.isThread (.handler 0) = true) :
    (∃ g, SerialState s' g) ∧ s'.app.state = .hotfire ∧ Quiet s'.app.wiggles ∧
      wiggleAttempts os = exitCommands s.app.wiggles := by
  obtain ⟨g', hs', -⟩ := serialState_step hs hl hm
  refine ⟨⟨g', hs'⟩, ?_⟩
  obtain ⟨actor, env⟩ := l
  cases hm with
  | thread t a k ht =>
    obtain rfl : t = .handler 0 := by simpa [Label.isThread] using hthread
    have hf := hs.handler
    rw [ht] at hf
    have hallowed := hf.1
    cases a with
    | wiggleStopAll sendExitValue =>
      obtain rfl : sendExitValue = true := hallowed rfl
      refine ⟨hs.gate.knows, quiet_wiggleStopAllLocked s.process.app env true, ?_⟩
      rw [wiggleAttempts_event]
      exact attempted_wiggleStopAllLocked s.process.app env
    | wiggleStart r => cases hallowed
    | claimSequence => cases hallowed
    | _ => exact absurd rfl hallowed
  | _ => cases hthread

/-- What holds in the time from a store of `HOTFIRE` to the next one of `PRECHILLING`,
`t` being the table at the store. -/
structure HotfireWindow (t : WiggleTable) (stopped : Bool) (app : App) (os : List Output) :
    Prop where
  state : app.state = .hotfire
  sent : wiggleAttempts os = if stopped then exitCommands t else []
  quiet : stopped = true → Quiet app.wiggles

theorem stopping_run {s s' : System} (hs : SerialState s .stopping) {ls : List Label}
    {os : List Output} (hrun : server.run s ls = some (s', os))
    (hls : server.Along HotfireStep s ls) :
    HotfireWindow s.app.wiggles (ls.any (Label.isThread (.handler 0))) s'.app os := by
  induction ls generalizing s os with
  | nil =>
    obtain ⟨rfl, rfl⟩ := Prod.mk.inj (Option.some.inj hrun)
    exact ⟨hs.gate.knows, rfl, fun h => nomatch h⟩
  | cons l ls ih =>
    obtain ⟨mid, head, os', hstep, hrest, rfl⟩ := Machine.run_cons_eq_some.mp hrun
    obtain ⟨hl, htail⟩ := (Machine.along_cons_iff hstep).mp hls
    have hm := system_move hstep
    cases hthread : l.isThread (.handler 0) with
    | false =>
      obtain ⟨hs', hsame, hnone⟩ := stopping_other_step hs hm hl.1 hthread
      have hwindow := ih hs' hrest htail
      rw [hsame] at hwindow
      rw [List.any_cons, hthread, Bool.false_or]
      refine ⟨hwindow.state, ?_, hwindow.quiet⟩
      rw [wiggleAttempts_append, hnone, List.nil_append, hwindow.sent]
    | true =>
      obtain ⟨⟨g, hs'⟩, hhot, hquiet, hexit⟩ := stopping_own_step hs hm hl.1 hthread
      obtain ⟨hlast, hquietlast, hnone⟩ := hotfire_quiet_run hs' hrest htail hhot hquiet
      rw [List.any_cons, hthread, Bool.true_or]
      refine ⟨hlast, ?_, fun _ => hquietlast⟩
      rw [wiggleAttempts_append, hexit, hnone, List.append_nil, if_pos rfl]

/-- From the store of `HOTFIRE` in `app_state_set` on, as long as `PRECHILLING` is not
stored, the wiggle code sends the exit values of the slots active at the store and
nothing else; behind the handler's next section, which is before `app_state_set`
returns, they have been sent and no slot is active. -/
theorem no_wiggling_in_hotfire (config : AppConfig) (canFd : Int) (ls₀ : List Label)
    (s : System) (os₀ : List Output)
    (hrun₀ : server.run (System.initial config canFd) ls₀ = some (s, os₀))
    (hserial : server.Along (fun _ l => Serial l.actor) (System.initial config canFd) ls₀)
    (hstore : s.stores (.thread (.handler 0)) = some .hotfire) (env : Env)
    (s₁ : System) (os₁ : List Output)
    (hstep : server.step s ⟨.thread (.handler 0), env⟩ = some (s₁, os₁)) (ls : List Label)
    (s₂ : System) (os₂ : List Output) (hrun : server.run s₁ ls = some (s₂, os₂))
    (hls : server.Along HotfireStep s₁ ls) :
    wiggleAttempts os₁ = [] ∧
      HotfireWindow s.app.wiggles (ls.any (Label.isThread (.handler 0))) s₂.app os₂ := by
  obtain ⟨g, hs⟩ := serialState_run (serialState_initial config canFd) hrun₀ hserial
  have hm : SystemMove s env (.thread (.handler 0)) s₁ os₁ := system_move hstep
  have hown : Serial (.thread (.handler 0)) := trivial
  obtain ⟨g₁, hs₁, hgate⟩ := serialState_step hs hown hm
  have hstore' := stores_eq_some.mp hstore
  cases hm with
  | thread t a k ht =>
    have haction : s.action (.thread (.handler 0)) = some a := action_of_thread ht
    obtain rfl := Option.some.inj (hstore'.symm.trans haction)
    have hg : g₁ = .stopping := by
      cases hgate with
      | own a h _ _ r hafter =>
        obtain rfl := Option.some.inj (hstore'.symm.trans h)
        exact (Option.some.inj hafter).symm
      | other _ _ h => exact absurd rfl h
    subst hg
    exact ⟨rfl, stopping_run hs₁ hrun hls⟩

/-- A wiggle is started, and a tick comes between the store of `HOTFIRE` and the stop. -/
theorem no_wiggling_in_hotfire_one_wiggle :
    let env : Env := ⟨0, fun _ => none, true, true⟩
    let say (text : String) : Label := ⟨.call (.handler 0) (.message 0 text.toList), env⟩
    let own : Label := ⟨.thread (.handler 0), env⟩
    let tick : List Label := [⟨.call .main .tick, env⟩, ⟨.thread .main, env⟩]
    ∃ s s₁ s₂ os os₁ os₂, server.run (System.initial ⟨false, false⟩ 3)
        (say "WIGGLE|101#1#2#3#5" :: List.replicate 7 own ++
          say "STATE#HOTFIRE" :: List.replicate 3 own) = some (s, os) ∧
      server.step s own = some (s₁, os₁) ∧
      server.run s₁ (tick ++ own :: tick) = some (s₂, os₂) ∧
      wiggleAttempts os₂ = [⟨0x101, 3, 0⟩] ∧ Quiet s₂.app.wiggles := by
  intro env say own tick
  let before := say "WIGGLE|101#1#2#3#5" :: List.replicate 7 own ++
    say "STATE#HOTFIRE" :: List.replicate 3 own
  let behind := tick ++ own :: tick
  have hall : (server.run (System.initial ⟨false, false⟩ 3)
      (before ++ ([own] ++ behind))).isSome = true := by decide
  have hsteps : server.Along HotfireStep (System.initial ⟨false, false⟩ 3)
      (before ++ ([own] ++ behind)) := by decide
  have hfacts : (server.run (System.initial ⟨false, false⟩ 3) before).map (fun r =>
      (r.1.stores (.thread (.handler 0)), exitCommands r.1.app.wiggles)) =
        some (some .hotfire, [⟨0x101, 3, 0⟩]) := by decide
  obtain ⟨⟨s₂, _⟩, hall⟩ := Option.isSome_iff_exists.mp hall
  obtain ⟨s, os, _, hbefore, hrest, -⟩ := Machine.run_append_eq_some.mp hall
  obtain ⟨s₁, os₁, os₂, hown, hbehind, -⟩ := Machine.run_append_eq_some.mp hrest
  rw [hbefore] at hfacts
  obtain ⟨hstore, hexit⟩ := Prod.mk.inj (Option.some.inj hfacts)
  have hstep := Machine.run_single_eq_some.mp hown
  obtain ⟨-, hwindow⟩ := no_wiggling_in_hotfire ⟨false, false⟩ 3 before s os hbefore
    (hsteps.before.mono (fun _ _ h => h.1)) hstore env s₁ os₁ hstep behind s₂ os₂ hbehind
    ((hsteps.behind hbefore).behind hown)
  exact ⟨s, s₁, s₂, os, os₁, os₂, hbefore, hstep, hbehind, hwindow.sent.trans hexit,
    hwindow.quiet rfl⟩

end WsServer
