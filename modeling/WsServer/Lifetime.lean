import WsServer.Ownership
import WsServer.SerialRun
import WsServer.WiggleIds

/-! The server up to the end of `main`: `shutdown_runtime` and `app_context_cleanup` on the
main thread, with handlers that run until `ws_server_join` returns and firing workers that
nobody waits for. -/
namespace WsServer
open Interaction Program

/-- The calls of `shutdown_runtime` before `ws_bridge_stop`. -/
def shutdownRuntime : Server Unit := do
  firingSequenceRequestAbort
  wiggleStopAll true

/-- Where the main thread is: in its loop, in `shutdown_runtime` (with what it has still to
do before `ws_bridge_stop`, or in the call that the phase names), or behind it. -/
inductive Phase where
  | serving
  | shuttingDown (rest : Server Unit)
  | joining
  | freeingClients
  | closingCan
  | closingLog
  | returned
  | tornDown
  | exited

/-- The phases in their order. -/
def Phase.stage : Phase → ℕ
  | .serving => 0
  | .shuttingDown _ => 1
  | .joining => 2
  | .freeingClients => 3
  | .closingCan => 4
  | .closingLog => 5
  | .returned => 6
  | .tornDown => 7
  | .exited => 8

/-- `ws_server_join` has returned. -/
def Phase.Joined (p : Phase) : Prop := 3 ≤ p.stage

/-- `shutdown_runtime` has returned. -/
def Phase.Returned (p : Phase) : Prop := 6 ≤ p.stage

/-- `app_context_cleanup` has begun: the locks are destroyed one after the other. -/
def Phase.TornDown (p : Phase) : Prop := 7 ≤ p.stage

instance : DecidablePred Phase.Joined := fun _ => inferInstanceAs (Decidable (_ ≤ _))
instance : DecidablePred Phase.Returned := fun _ => inferInstanceAs (Decidable (_ ≤ _))
instance : DecidablePred Phase.TornDown := fun _ => inferInstanceAs (Decidable (_ ≤ _))

/-- What follows `ws_server_join`, phase by phase. -/
def Phase.next : Phase → Option Phase
  | .freeingClients => some .closingCan
  | .closingCan => some .closingLog
  | .closingLog => some .returned
  | .returned => some .tornDown
  | .tornDown => some .exited
  | _ => none

def canBusClose (fd : Int) : Int := if fd < 0 then fd else -1

/-- What the phases behind `ws_server_join` do to the context. -/
def Phase.effect : Phase → App → App
  | .freeingClients, app => { app with clients := [] }
  | .closingCan, app => { app with canFd := canBusClose app.canFd }
  | _, app => app

structure Lifetime where
  system : System
  phase : Phase

def Lifetime.app (s : Lifetime) : App := s.system.app

def System.idle (s : System) (t : Thread) : Bool :=
  match s.threads t with
  | .ret _ => true
  | .act _ _ => false

/-- The main loop ends behind a tick, on the stop flag or, unless it only sleeps in testing
mode, on an error of `epoll_wait`. -/
def System.LeavesLoop (s : System) : Prop :=
  s.idle .main = true ∧ (s.app.config.testingMode = true → s.app.stop = true)

instance : DecidablePred System.LeavesLoop := fun _ => inferInstanceAs (Decidable (_ ∧ _))

inductive LifeLabel where
  | server (l : Label)
  | main (env : Env)

/-- Who may move: the library has `pool` handler threads, which call until
`ws_server_join` returns; the main thread ticks in its loop. Nothing moves behind `exit`. -/
def Lifetime.Allows (pool : ℕ) (s : Lifetime) : Actor → Prop
  | .call (.handler n) c => n < pool ∧ c.FromClient ∧ s.phase.stage ≤ 2
  | .call .main c => c.IsTick ∧ s.phase.stage = 0 ∧ s.app.config.testingMode = false
  | _ => s.phase.stage < 8

instance (pool : ℕ) (s : Lifetime) : DecidablePred (s.Allows pool)
  | .call (.handler n) c => inferInstanceAs (Decidable (n < pool ∧ c.FromClient ∧ _ ≤ 2))
  | .call .main c => inferInstanceAs (Decidable (c.IsTick ∧ _ = 0 ∧ _ = false))
  | .thread _ | .worker _ | .signal => inferInstanceAs (Decidable (_ < 8))

/-- The next step of the main thread on its way out. -/
def Lifetime.mainStep (pool : ℕ) (s : Lifetime) (env : Env) : Option (Lifetime × List Output) :=
  match s.phase with
  | .serving =>
    if s.system.LeavesLoop then some (⟨s.system, .shuttingDown shutdownRuntime⟩, []) else none
  | .shuttingDown (.ret _) => some (⟨s.system, .joining⟩, [])
  | .shuttingDown (.act a k) =>
    let x := perform s.system.process env a
    some (⟨{ s.system with process := x.1 }, .shuttingDown (k x.2.1)⟩, x.2.2.map (.event .main))
  | .joining =>
    if ∀ n < pool, s.system.idle (.handler n) = true then some (⟨s.system, .freeingClients⟩, [])
    else none
  | phase => phase.next.map (fun next =>
    (⟨{ s.system with process := s.system.process.setApp (phase.effect s.app) }, next⟩, []))

def Lifetime.step (pool : ℕ) (s : Lifetime) : LifeLabel → Option (Lifetime × List Output)
  | .server l =>
    if s.Allows pool l.actor then
      (server.step s.system l).map (fun x => (⟨x.1, s.phase⟩, x.2))
    else none
  | .main env => s.mainStep pool env

def lifetime (pool : ℕ) : Machine Lifetime LifeLabel Output := ⟨Lifetime.step pool⟩

def Lifetime.initial (config : AppConfig) (canFd : Int) : Lifetime :=
  ⟨System.initial config canFd, .serving⟩

/-! ### One step -/

/-- Everything a step can be. -/
inductive LifeMove (pool : ℕ) (s : Lifetime) : LifeLabel → Lifetime → List Output → Prop where
  | server (l : Label) (s' : System) (os : List Output) (hallowed : s.Allows pool l.actor)
      (h : SystemMove s.system l.env l.actor s' os) :
      LifeMove pool s (.server l) ⟨s', s.phase⟩ os
  | leave (env : Env) (hphase : s.phase = .serving) (h : s.system.LeavesLoop) :
      LifeMove pool s (.main env) ⟨s.system, .shuttingDown shutdownRuntime⟩ []
  | shutdown (env : Env) (a : Act) (k : a.Answer → Server Unit)
      (hphase : s.phase = .shuttingDown (Program.act (S := serverSig) a k)) :
      LifeMove pool s (.main env)
        ⟨{ s.system with process := (perform s.system.process env a).1 },
          .shuttingDown (k (perform s.system.process env a).2.1)⟩
        ((perform s.system.process env a).2.2.map (.event .main))
  | stopServer (env : Env) (v : Unit) (hphase : s.phase = .shuttingDown (.ret v)) :
      LifeMove pool s (.main env) ⟨s.system, .joining⟩ []
  | join (env : Env) (hphase : s.phase = .joining)
      (h : ∀ n < pool, s.system.idle (.handler n) = true) :
      LifeMove pool s (.main env) ⟨s.system, .freeingClients⟩ []
  | advance (env : Env) (next : Phase) (h : s.phase.next = some next) :
      LifeMove pool s (.main env)
        ⟨{ s.system with process := s.system.process.setApp (s.phase.effect s.app) }, next⟩ []

theorem life_move {pool : ℕ} {s s' : Lifetime} {l : LifeLabel} {os : List Output}
    (h : (lifetime pool).step s l = some (s', os)) : LifeMove pool s l s' os := by
  obtain ⟨system, phase⟩ := s
  cases l with
  | server l =>
    simp only [lifetime, Lifetime.step] at h
    split_ifs at h with hallowed
    obtain ⟨⟨s', os⟩, hstep, hx⟩ := Option.map_eq_some_iff.mp h
    obtain ⟨rfl, rfl⟩ := Prod.mk.inj hx
    exact .server l s' os hallowed (system_move hstep)
  | main env =>
    have hmain : Lifetime.mainStep pool ⟨system, phase⟩ env = some (s', os) := h
    -- one phase of the main thread is one kind of move
    cases phase with
    | serving =>
      simp only [Lifetime.mainStep] at hmain
      split_ifs at hmain with hleaves
      cases hmain
      exact .leave env rfl hleaves
    | shuttingDown rest =>
      cases rest with
      | ret v =>
        cases hmain
        exact .stopServer env v rfl
      | act a k =>
        cases hmain
        exact .shutdown env a k rfl
    | joining =>
      simp only [Lifetime.mainStep] at hmain
      split_ifs at hmain with hidle
      cases hmain
      exact .join env rfl hidle
    | exited => cases hmain
    | _ =>
      cases hmain
      exact .advance env _ rfl

/-! ### Shutting down -/

/-- What `shutdown_runtime` can have still to do before `ws_bridge_stop`. -/
inductive ShutdownRest : Server Unit → Prop where
  | begin : ShutdownRest shutdownRuntime
  | stopAll : ShutdownRest (wiggleStopAll true)
  | announce (text : String) : ShutdownRest (act (.broadcast text))
  | finished : ShutdownRest (pure ())

/-- The actions of `shutdown_runtime`, in their order. -/
theorem shutdownRest_act {a : Act} {k : a.Answer → Server Unit}
    (h : ShutdownRest (Program.act (S := serverSig) a k)) :
    (a = .requestAbort ∧ ∀ r, k r = wiggleStopAll true) ∨
    (a = .wiggleStopAll true ∧ ∀ r, (∃ text, k r = act (.broadcast text)) ∨ k r = pure ()) ∨
    (∃ text, a = .broadcast text) ∧ ∀ r, k r = pure () := by
  generalize hp : Program.act (S := serverSig) a k = p at h
  cases h with
  | begin =>
    have hp' : Program.act (S := serverSig) a k =
        .act .requestAbort (fun _ => wiggleStopAll true) := hp
    cases hp'
    exact Or.inl ⟨rfl, fun _ => rfl⟩
  | stopAll =>
    have hp' : Program.act (S := serverSig) a k = .act (.wiggleStopAll true) (fun stopped =>
        if stopped > 0 then
          act (.broadcast ("Stopped " ++ toString stopped ++ " active wiggle(s)"))
        else pure ()) := hp
    cases hp'
    refine Or.inr (Or.inl ⟨rfl, ?_⟩)
    intro stopped
    by_cases hstopped : stopped > 0
    · exact Or.inl ⟨_, if_pos hstopped⟩
    · exact Or.inr (if_neg hstopped)
  | announce text =>
    have hp' : Program.act (S := serverSig) a k = .act (.broadcast text) .ret := hp
    cases hp'
    exact Or.inr (Or.inr ⟨⟨text, rfl⟩, fun _ => rfl⟩)
  | finished => cases hp

theorem shutdownRest_next {a : Act} {k : a.Answer → Server Unit}
    (h : ShutdownRest (Program.act (S := serverSig) a k)) (r : a.Answer) :
    ShutdownRest (k r) := by
  rcases shutdownRest_act h with ⟨-, hk⟩ | ⟨-, hk⟩ | ⟨-, hk⟩
  · rw [hk r]
    exact .stopAll
  · rcases hk r with ⟨text, hr⟩ | hr
    · rw [hr]
      exact .announce text
    · rw [hr]
      exact .finished
  · rw [hk r]
    exact .finished

/-- What holds of the threads in every reachable state: the main thread is idle on its way
out, there are `pool` handlers, and none of them is at work behind `ws_server_join`. -/
structure Staged (pool : ℕ) (s : Lifetime) : Prop where
  main : s.phase.stage ≠ 0 → s.system.idle .main = true
  outside : ∀ n, pool ≤ n → s.system.idle (.handler n) = true
  joined : s.phase.Joined → ∀ n, s.system.idle (.handler n) = true
  rest : ∀ rest, s.phase = .shuttingDown rest → ShutdownRest rest

/-- Behind `ws_server_join` no thread is at work. -/
theorem Staged.idle {pool : ℕ} {s : Lifetime} (hs : Staged pool s) (hjoined : s.phase.Joined)
    (t : Thread) : ∃ v, s.system.threads t = .ret v := by
  have hstage : 3 ≤ s.phase.stage := hjoined
  have hidle : s.system.idle t = true := by
    cases t with
    | main => exact hs.main (by omega)
    | handler n => exact hs.joined hjoined n
  unfold System.idle at hidle
  split at hidle
  · exact ⟨_, ‹_›⟩
  · cases hidle

theorem stage_next {p p' : Phase} (h : p.next = some p') : 3 ≤ p.stage ∧ p'.stage = p.stage+1 := by
  cases p <;> cases h <;> exact ⟨by decide, rfl⟩

theorem next_ne_shuttingDown {p : Phase} {rest : Server Unit} : p.next ≠ some (.shuttingDown rest) := by
  cases p <;> exact nofun

/-- A thread starts to work by a call of its own only. -/
theorem idle_of_move {s s' : System} {env : Env} {actor : Actor} {os : List Output}
    (h : SystemMove s env actor s' os) {t : Thread} (hidle : s.idle t = true)
    (hcall : ∀ c, actor ≠ .call t c) : s'.idle t = true := by
  cases h with
  | call u c v hu =>
    have hne : t ≠ u := by
      rintro rfl
      exact hcall c rfl
    simp only [System.idle, Function.update_of_ne hne]
    exact hidle
  | thread u a k hu =>
    have hne : t ≠ u := by
      rintro rfl
      simp only [System.idle, hu, Bool.false_eq_true] at hidle
    simp only [System.idle, System.afterAct, Function.update_of_ne hne]
    exact hidle
  | worker k args pc mid e hw hmove => exact hidle
  | signal => exact hidle

theorem staged_initial (pool : ℕ) (config : AppConfig) (canFd : Int) :
    Staged pool (.initial config canFd) where
  main _ := rfl
  outside _ _ := rfl
  joined _ _ := rfl
  rest _ h := nomatch h

theorem staged_step {pool : ℕ} {s s' : Lifetime} {l : LifeLabel} {os : List Output}
    (hs : Staged pool s) (h : LifeMove pool s l s' os) : Staged pool s' := by
  cases h with
  | server l s' os hallowed hmove =>
    -- who is idle for good gets no call: the rule for calls names the stage and the pool
    refine ⟨?_, ?_, ?_, hs.rest⟩
    · intro hstage
      refine idle_of_move hmove (hs.main hstage) ?_
      intro c hc
      rw [hc] at hallowed
      exact hstage hallowed.2.1
    · intro n hn
      refine idle_of_move hmove (hs.outside n hn) ?_
      intro c hc
      rw [hc] at hallowed
      exact absurd hallowed.1 (not_lt.mpr hn)
    · intro hjoined n
      refine idle_of_move hmove (hs.joined hjoined n) ?_
      intro c hc
      rw [hc] at hallowed
      have hlate : 3 ≤ s.phase.stage := hjoined
      have hearly : s.phase.stage ≤ 2 := hallowed.2.2
      omega
  | leave env hphase hleaves =>
    refine ⟨fun _ => hleaves.1, hs.outside, fun h => absurd h (show ¬ 3 ≤ 1 by decide), ?_⟩
    intro rest hrest
    cases hrest
    exact .begin
  | shutdown env a k hphase =>
    have hmain := hs.main (by rw [hphase]; exact Nat.one_ne_zero)
    refine ⟨fun _ => hmain, hs.outside, fun h => absurd h (show ¬ 3 ≤ 1 by decide), ?_⟩
    intro rest hrest
    cases hrest
    exact shutdownRest_next (hs.rest _ hphase) _
  | stopServer env v hphase =>
    have hmain := hs.main (by rw [hphase]; exact Nat.one_ne_zero)
    exact ⟨fun _ => hmain, hs.outside, fun h => absurd h (show ¬ 3 ≤ 2 by decide),
      fun _ h => nomatch h⟩
  | join env hphase hidle =>
    have hmain := hs.main (by rw [hphase]; decide)
    refine ⟨fun _ => hmain, hs.outside, ?_, fun _ h => nomatch h⟩
    intro _ n
    -- the join waits for the handlers of the pool, and there were never others
    by_cases hn : n < pool
    · exact hidle n hn
    · exact hs.outside n (not_lt.mp hn)
  | advance env next hnext =>
    obtain ⟨hstage, -⟩ := stage_next hnext
    refine ⟨fun _ => hs.main (by omega), hs.outside, fun _ => hs.joined hstage, ?_⟩
    intro rest hrest
    rw [show next = .shuttingDown rest from hrest] at hnext
    exact absurd hnext next_ne_shuttingDown

end WsServer
