import WsServer.ModeGate
import WsServer.WiggleSlots

/-! Runs in which client commands are handled one at a time, with the ticks of the main
thread, the firing workers and the stop signal anywhere in between. -/
namespace WsServer
open Interaction Program

def Call.IsTick : Call → Prop
  | .tick => True
  | _ => False

instance : DecidablePred Call.IsTick
  | .tick => isTrue trivial
  | .connect _ | .disconnect _ | .message _ _ | .startSequence .. | .startDrown _
  | .requestAbort => isFalse id

/-- One handler thread for the calls of clients, and the tick on the main thread. -/
def Serial : Actor → Prop
  | .call (.handler n) c => n = 0 ∧ c.FromClient
  | .call .main c => c.IsTick
  | _ => True

instance : DecidablePred Serial
  | .call (.handler n) c => inferInstanceAs (Decidable (n = 0 ∧ c.FromClient))
  | .call .main c => inferInstanceAs (Decidable c.IsTick)
  | .thread _ | .worker _ | .signal => isTrue trivial

def Act.IsTick : Act → Prop
  | .wiggleProcess => True
  | _ => False

/-- What the handler knows is so. -/
def Gate.Holds : Gate → App → Prop
  | .unknown, _ => True
  | .prechilling, app => app.state = .prechilling
  | .hotfire, app | .stopping, app => app.state = .hotfire

/-- In `HOTFIRE` no slot is active, but for the time between the store of the state and
the stop of the wiggles. -/
structure GateState (g : Gate) (app : App) : Prop where
  knows : g.Holds app
  quiet : app.state = .hotfire → g ≠ .stopping → Quiet app.wiggles

/-- The invariant of serial runs, `g` being what the handler knows. -/
structure SerialState (s : System) (g : Gate) : Prop where
  handler : Follows modeGate g (s.threads (.handler 0)) (fun _ g => g ≠ .stopping)
  main : Performs Act.IsTick (s.threads .main)
  idle : ∀ n, n ≠ 0 → ∃ v, s.threads (.handler n) = .ret v
  gate : GateState g s.app

theorem serialState_initial (config : AppConfig) (canFd : Int) :
    SerialState (System.initial config canFd) .unknown where
  handler := Gate.noConfusion
  main := trivial
  idle _ _ := ⟨0, rfl⟩
  gate := ⟨trivial, fun h _ => nomatch h⟩

/-! ### Frames -/

theorem perform_state (p : Process) (env : Env) (a : Act) (ha : ∀ state, a ≠ .storeState state) :
    (perform p env a).1.app.state = p.app.state := by
  cases a with
  | wiggleStart r =>
    obtain ⟨t, ht⟩ := wiggleStartLocked_frame p.app env r
    simp only [perform, ht, Process.setApp]
  | wiggleStop id =>
    obtain ⟨t, ht⟩ := wiggleStopLocked_frame p.app env id
    simp only [perform, ht, Process.setApp]
  | wiggleProcess =>
    obtain ⟨t, ht⟩ := wiggleProcess_frame p.app env
    simp only [perform, ht, Process.setApp]
  | storeState state => exact absurd rfl (ha state)
  | claimSequence =>
    simp only [perform, App.claimSequence, Process.setApp]
    split_ifs <;> rfl
  | createWorker args =>
    simp only [perform]
    split_ifs <;> rfl
  | _ => rfl

/-- A table without an active slot stays one, whatever is done but for a start, and
nothing is sent for it. -/
theorem perform_quiet (p : Process) (env : Env) (a : Act) (ha : ∀ r, a ≠ .wiggleStart r)
    (h : Quiet p.app.wiggles) :
    Quiet (perform p env a).1.app.wiggles ∧ attempted (perform p env a).2.2 = [] := by
  cases a with
  | wiggleStart r => exact absurd rfl (ha r)
  | wiggleStop id =>
    simp only [perform, wiggleStopLocked_quiet env id h]
    exact ⟨h, rfl⟩
  | wiggleStopAll sendExitValue =>
    refine ⟨quiet_wiggleStopAllLocked p.app env sendExitValue, ?_⟩
    simp only [perform, wiggleStopAllLocked, attempted_overSlots,
      deactivateSlot_inactive _ _ _ _ (h _), attempted_nil, List.flatMap_eq_nil_iff, implies_true]
  | wiggleProcess => exact quiet_wiggleProcess env h
  | claimSequence =>
    simp only [perform, App.claimSequence, Process.setApp]
    split_ifs <;> exact ⟨h, rfl⟩
  | createWorker args =>
    simp only [perform]
    split_ifs <;> exact ⟨h, rfl⟩
  | _ => exact ⟨h, rfl⟩

theorem Gate.Holds.congr {g : Gate} {app app' : App} (h : g.Holds app)
    (hstate : app'.state = app.state) : g.Holds app' := by
  cases g with
  | unknown => trivial
  | prechilling => exact hstate.trans h
  | hotfire => exact hstate.trans h
  | stopping => exact hstate.trans h

theorem holds_ofState (app : App) : (Gate.ofState app.state).Holds app := by
  cases hstate : app.state with
  | prechilling => exact hstate
  | hotfire => exact hstate

theorem GateState.congr {g : Gate} {app app' : App} (h : GateState g app)
    (hstate : app'.state = app.state) (hwiggles : app'.wiggles = app.wiggles) :
    GateState g app' := by
  refine ⟨h.knows.congr hstate, ?_⟩
  rw [hstate, hwiggles]
  exact h.quiet

/-- A worker step touches neither the state nor the table. -/
theorem afterWorker_mode (app : App) (e : WorkerEvent) :
    (app.afterWorker e).state = app.state ∧ (app.afterWorker e).wiggles = app.wiggles := by
  cases e <;> exact ⟨rfl, rfl⟩

/-! ### The step of the handler -/

/-- An action that neither stores the state nor starts a wiggle. -/
theorem GateState.perform {p : Process} {g : Gate} (h : GateState g p.app) (env : Env) {a : Act}
    (hg : g ≠ .stopping) (hstart : ∀ r, a ≠ .wiggleStart r)
    (hstore : ∀ state, a ≠ .storeState state) :
    GateState g (WsServer.perform p env a).1.app := by
  have hstate := perform_state p env a hstore
  refine ⟨h.knows.congr hstate, ?_⟩
  intro hhot _
  exact (perform_quiet p env a hstart (h.quiet (hstate.symm.trans hhot) hg)).1

/-- Every action that the gate allows keeps the state and the table in step. -/
theorem gateState_handler {p : Process} {g : Gate} {a : Act} (env : Env) (h : GateState g p.app)
    (hallowed : modeGate.allowed g a) :
    ∃ g', modeGate.after g a (WsServer.perform p env a).2.1 = some g' ∧
      GateState g' (WsServer.perform p env a).1.app := by
  cases a with
  | getState =>
    refine ⟨_, rfl, holds_ofState p.app, ?_⟩
    intro hhot _
    exact h.quiet hhot hallowed
  | storeState state =>
    cases state with
    | prechilling => exact ⟨_, rfl, rfl, fun h => nomatch h⟩
    | hotfire => exact ⟨_, rfl, rfl, fun _ h => absurd rfl h⟩
  | wiggleStart r =>
    obtain rfl : g = .prechilling := hallowed
    have hstate := perform_state p env (.wiggleStart r) (by simp)
    have hpre : p.app.state = .prechilling := h.knows
    refine ⟨_, rfl, h.knows.congr hstate, ?_⟩
    intro hhot
    rw [hstate, hpre] at hhot
    cases hhot
  | wiggleStopAll sendExitValue =>
    refine ⟨_, rfl, ?_, fun _ _ => quiet_wiggleStopAllLocked p.app env sendExitValue⟩
    split_ifs with hg
    · subst hg
      exact h.knows
    · exact h.knows.congr rfl
  | _ =>
    refine ⟨g, rfl, h.perform env ?_ (by simp) (by simp)⟩
    first | exact hallowed | exact hallowed ▸ Gate.noConfusion

/-! ### The step of the server -/

/-- The state that a step is about to store. -/
def System.stores (s : System) (actor : Actor) : Option AppState :=
  match s.action actor with
  | some (.storeState state) => some state
  | _ => none

theorem stores_eq_some {s : System} {actor : Actor} {state : AppState} :
    s.stores actor = some state ↔ s.action actor = some (.storeState state) := by
  unfold System.stores
  split
  · rename_i state' h
    simp only [h, Option.some.injEq, Act.storeState.injEq]
  · rename_i h
    exact iff_of_false (by simp) (h state)

/-- How a step moves what the handler knows: only its own actions do. -/
inductive GateMove (s : System) : Actor → Gate → Gate → Prop where
  | own (a : Act) (h : s.action (.thread (.handler 0)) = some a) (g g' : Gate)
      (r : a.Answer) (hafter : modeGate.after g a r = some g') :
      GateMove s (.thread (.handler 0)) g g'
  | other (actor : Actor) (g : Gate) (h : actor ≠ .thread (.handler 0)) :
      GateMove s actor g g

theorem gateState_tick {p : Process} {g : Gate} (h : GateState g p.app) (env : Env) :
    GateState g (WsServer.perform p env .wiggleProcess).1.app := by
  have hstate := perform_state p env .wiggleProcess (by simp)
  refine ⟨h.knows.congr hstate, ?_⟩
  intro hhot hg
  exact (perform_quiet p env .wiggleProcess (by simp) (h.quiet (hstate.symm.trans hhot) hg)).1

/-! ### Any protocol of the handler -/

section
variable {γ : Type} {M : Protocol serverSig γ} {ended : γ → Prop} {R : γ → Process → Prop}

/-- The invariant of serial runs for a protocol of the handler: `g` is its ghost state, and
`R` what that says of the process. Between two calls the ghost state is an ended one. -/
structure Serially (M : Protocol serverSig γ) (ended : γ → Prop) (R : γ → Process → Prop)
    (s : System) (g : γ) : Prop where
  handler : Follows M g (s.threads (.handler 0)) (fun _ => ended)
  main : Performs Act.IsTick (s.threads .main)
  idle : ∀ n, n ≠ 0 → ∃ v, s.threads (.handler n) = .ret v
  holds : R g s.process

/-- What is to be shown of a protocol and its reading: the calls follow the one, and all
that moves in a serial run keeps the other. -/
structure SerialRule (M : Protocol serverSig γ) (ended : γ → Prop) (R : γ → Process → Prop) :
    Prop where
  call : ∀ g config c, ended g → c.FromClient →
    Follows M g (Call.program config c) (fun _ => ended)
  own : ∀ g p env a, R g p → M.allowed g a →
    ∃ g', M.after g a (perform p env a).2.1 = some g' ∧ R g' (perform p env a).1
  tick : ∀ g p env, R g p → R g (perform p env .wiggleProcess).1
  worker : ∀ g p k args pc mid e, R g p → p.workers[k]? = some ⟨args, pc⟩ →
    R g ⟨p.app.afterWorker e, p.workers.set k ⟨args, mid⟩⟩
  signal : ∀ g p, R g p → R g (p.setApp { p.app with stop := true })

/-- How a step moves the ghost state: only the handler's own actions do. -/
inductive ProtocolMove (M : Protocol serverSig γ) (s : System) : Actor → γ → γ → Prop where
  | own (a : Act) (h : s.action (.thread (.handler 0)) = some a) (g g' : γ)
      (r : a.Answer) (hafter : M.after g a r = some g') :
      ProtocolMove M s (.thread (.handler 0)) g g'
  | other (actor : Actor) (g : γ) (h : actor ≠ .thread (.handler 0)) :
      ProtocolMove M s actor g g

theorem serially_initial (config : AppConfig) (canFd : Int) {g : γ} (hg : ended g)
    (h : R g (System.initial config canFd).process) :
    Serially M ended R (System.initial config canFd) g :=
  ⟨hg, trivial, fun _ _ => ⟨0, rfl⟩, h⟩

theorem serially_handler (hrule : SerialRule M ended R) {s : System} {g : γ}
    (hs : Serially M ended R s g) (env : Env) (a : Act) (k : a.Answer → Server Int)
    (ht : s.threads (.handler 0) = Program.act (S := serverSig) a k) :
    ∃ g', Serially M ended R (s.afterAct (.handler 0) env a k) g' ∧
      ProtocolMove M s (.thread (.handler 0)) g g' := by
  have hf := hs.handler
  rw [ht] at hf
  obtain ⟨g', hafter, hholds⟩ := hrule.own g s.process env a hs.holds hf.1
  refine ⟨g', ⟨?_, hs.main, ?_, hholds⟩, .own a (action_of_thread ht) g g' _ hafter⟩
  · simp only [System.afterAct, Function.update_self]
    exact hf.2 _ g' hafter
  · intro n hn
    have hne : Thread.handler n ≠ .handler 0 := fun h => hn (Thread.handler.inj h)
    simp only [System.afterAct, Function.update_of_ne hne]
    exact hs.idle n hn

theorem serially_call (hrule : SerialRule M ended R) {s : System} {g : γ}
    (hs : Serially M ended R s g) (t : Thread) (c : Call) (v : Int) (ht : s.threads t = .ret v)
    (hserial : Serial (.call t c)) :
    Serially M ended R
      { s with threads := Function.update s.threads t (c.program s.app.config) } g := by
  cases t with
  | main =>
    have htick : c.IsTick := hserial
    cases c <;> first | exact htick.elim | skip
    refine ⟨hs.handler, ?_, hs.idle, hs.holds⟩
    simp only [Function.update_self]
    exact ⟨trivial, fun _ => trivial⟩
  | handler n =>
    obtain ⟨rfl, hc⟩ := hserial
    have hg : ended g := by
      have hf := hs.handler
      rw [ht] at hf
      exact hf
    refine ⟨?_, hs.main, ?_, hs.holds⟩
    · simp only [Function.update_self]
      exact hrule.call g s.app.config c hg hc
    · intro m hm
      have hne : Thread.handler m ≠ .handler 0 := fun h => hm (Thread.handler.inj h)
      simp only [Function.update_of_ne hne]
      exact hs.idle m hm

/-- The step lemma of serial runs. -/
theorem serially_step (hrule : SerialRule M ended R) {s s' : System} {g : γ}
    (hs : Serially M ended R s g) {env : Env} {actor : Actor} {os : List Output}
    (hserial : Serial actor) (hm : SystemMove s env actor s' os) :
    ∃ g', Serially M ended R s' g' ∧ ProtocolMove M s actor g g' := by
  cases hm with
  | call t c v ht =>
    exact ⟨g, serially_call hrule hs t c v ht hserial, .other _ g Actor.noConfusion⟩
  | thread t a k ht =>
    cases t with
    | main =>
      have hmain := hs.main
      rw [ht] at hmain
      obtain ⟨htick, hnext⟩ := hmain
      cases a <;> first | exact htick.elim | skip
      have hholds := hrule.tick g s.process env hs.holds
      refine ⟨g, ⟨hs.handler, ?_, hs.idle, hholds⟩, .other _ g (by simp)⟩
      simp only [System.afterAct, Function.update_self]
      exact hnext _
    | handler n =>
      by_cases hn : n = 0
      · subst hn
        exact serially_handler hrule hs env a k ht
      · obtain ⟨v, hv⟩ := hs.idle n hn
        cases hv.symm.trans ht
  | worker k args pc mid e hw hmove =>
    have hholds := hrule.worker g s.process k args pc mid e hs.holds hw
    exact ⟨g, ⟨hs.handler, hs.main, hs.idle, hholds⟩, .other _ g Actor.noConfusion⟩
  | signal =>
    exact ⟨g, ⟨hs.handler, hs.main, hs.idle, hrule.signal g s.process hs.holds⟩,
      .other _ g Actor.noConfusion⟩

theorem serially_run (hrule : SerialRule M ended R) {s s' : System} {g : γ}
    (hs : Serially M ended R s g) {ls : List Label} {os : List Output}
    (hrun : server.run s ls = some (s', os))
    (hserial : server.Along (fun _ l => Serial l.actor) s ls) :
    ∃ g', Serially M ended R s' g' := by
  apply Machine.run_invariant (I := fun s => ∃ g, Serially M ended R s g)
    (C := fun _ l => Serial l.actor) ?_ ⟨g, hs⟩ hserial hrun
  intro s l x h hl hstep
  obtain ⟨g, hg⟩ := h
  obtain ⟨g', hg', -⟩ := serially_step hrule hg hl (system_move hstep)
  exact ⟨g', hg'⟩

end

/-! ### The mode gate in serial runs -/

theorem serialRule_modeGate :
    SerialRule modeGate (fun g => g ≠ .stopping) (fun g p => GateState g p.app) where
  call g config c hg hc := gated_call config c hc g hg
  own _ _ env _ hgate hallowed := gateState_handler env hgate hallowed
  tick _ _ env hgate := gateState_tick hgate env
  worker _ p _ _ _ _ e hgate _ :=
    hgate.congr (afterWorker_mode p.app e).1 (afterWorker_mode p.app e).2
  signal _ _ hgate := hgate.congr rfl rfl

theorem SerialState.serially {s : System} {g : Gate} (hs : SerialState s g) :
    Serially modeGate (fun g => g ≠ .stopping) (fun g p => GateState g p.app) s g :=
  ⟨hs.handler, hs.main, hs.idle, hs.gate⟩

theorem Serially.serialState {s : System} {g : Gate}
    (hs : Serially modeGate (fun g => g ≠ .stopping) (fun g p => GateState g p.app) s g) :
    SerialState s g := ⟨hs.handler, hs.main, hs.idle, hs.holds⟩

theorem serialState_step {s s' : System} {g : Gate} (hs : SerialState s g) {env : Env}
    {actor : Actor} {os : List Output} (hserial : Serial actor)
    (hm : SystemMove s env actor s' os) :
    ∃ g', SerialState s' g' ∧ GateMove s actor g g' := by
  obtain ⟨g', hs', hmove⟩ := serially_step serialRule_modeGate hs.serially hserial hm
  refine ⟨g', hs'.serialState, ?_⟩
  cases hmove with
  | own a h g g' r hafter => exact .own a h g g' r hafter
  | other actor g h => exact .other actor g h

theorem serialState_run {s s' : System} {g : Gate} (hs : SerialState s g) {ls : List Label}
    {os : List Output} (hrun : server.run s ls = some (s', os))
    (hserial : server.Along (fun _ l => Serial l.actor) s ls) : ∃ g', SerialState s' g' := by
  obtain ⟨g', hs'⟩ := serially_run serialRule_modeGate hs.serially hrun hserial
  exact ⟨g', hs'.serialState⟩

end WsServer
