import WsServer.Interlock

/-! Handlers of several clients at once: what a handler has decided by the state it has
read, and the stores of another handler that overtake the decision. -/
namespace WsServer
open Interaction Program

/-- Calls of clients on any of the handler threads, and the tick on the main thread. -/
def Concurrent : Actor → Prop
  | .call (.handler _) c => c.FromClient
  | .call .main c => c.IsTick
  | _ => True

instance : DecidablePred Concurrent
  | .call (.handler _) c => inferInstanceAs (Decidable c.FromClient)
  | .call .main c => inferInstanceAs (Decidable c.IsTick)
  | .thread _ | .worker _ | .signal => isTrue trivial

def Act.IsClaim : Act → Prop
  | .claimSequence => True
  | _ => False

/-- The actions behind which a handler knows the state anew. -/
def Act.Refreshes : Act → Prop
  | .getState | .storeState _ => True
  | _ => False

/-- The program can come to such an action before it reads or stores the state again: it
acts on what it has decided before. -/
def HasDecided {α : Type} (effect : Act → Prop) : Server α → Prop
  | .ret _ => False
  | .act a k => effect a ∨ ¬ Act.Refreshes a ∧ ∃ r, HasDecided effect (k r)

/-- What the program has decided to do is for this state. -/
def DecidedFor (state : AppState) (p : Server Int) : Prop :=
  (HasDecided Act.IsWiggleStart p → state = .prechilling) ∧
    (HasDecided Act.IsClaim p → state = .hotfire)

/-- A concurrent step that does not store a state while another handler has decided to
act on the other one. -/
def ModeStable (s : System) (l : Label) : Prop :=
  Concurrent l.actor ∧ ∀ state, s.stores l.actor = some state →
    ∀ t, l.actor ≠ .thread t → DecidedFor state (s.threads t)

/-- What a step does to slots and to the sequence flag it does in the state for it. -/
structure EffectsInMode (s : System) (l : Label) (s' : System) : Prop where
  started : ∀ r, s.action l.actor = some (.wiggleStart r) →
    (wiggleStartLocked s.app l.env r).2.1 = 0 → s.app.state = .prechilling
  activated : ∀ i, (s.app.wiggles i).active = false → (s'.app.wiggles i).active = true →
    s.app.state = .prechilling
  claimed : s.app.sequenceActive = false → s'.app.sequenceActive = true →
    s.app.state = .hotfire

/-! ### Decisions -/

theorem modeGate_after {g g' : Gate} {a : Act} {r : a.Answer} (ha : ¬ a.Refreshes)
    (h : modeGate.after g a r = some g') : g' = g ∨ g = .stopping ∧ g' = .hotfire := by
  cases a with
  | getState => exact absurd trivial ha
  | storeState state => exact absurd trivial ha
  | wiggleStopAll sendExitValue =>
    obtain rfl := Option.some.inj h
    split_ifs with hg
    · exact Or.inr ⟨hg, rfl⟩
    · exact Or.inl rfl
  | _ => exact Or.inl (Option.some.inj h).symm

theorem modeGate_after_total (g : Gate) (a : Act) (r : a.Answer) :
    ∃ g', modeGate.after g a r = some g' := by
  cases a with
  | storeState state => cases state <;> exact ⟨_, rfl⟩
  | _ => exact ⟨_, rfl⟩

/-- Who has decided to start a wiggle knows of `PRECHILLING`. -/
theorem prechilling_of_decided {α : Type} {p : Server α} {g : Gate} {post : α → Gate → Prop}
    (hf : Follows modeGate g p post) (h : HasDecided Act.IsWiggleStart p) :
    g = .prechilling := by
  induction p generalizing g with
  | ret v => exact h.elim
  | act a k ih =>
    rcases h with hstart | ⟨hrefresh, r, hrest⟩
    · cases a <;> first | exact hstart.elim | exact hf.1
    · obtain ⟨g', hg'⟩ := modeGate_after_total g a r
      have hpre := ih r (hf.2 r g' hg') hrest
      rcases modeGate_after hrefresh hg' with hsame | ⟨-, hhot⟩
      · exact hsame ▸ hpre
      · cases hhot.symm.trans hpre

/-- Who has decided to claim the sequence knows of `HOTFIRE`. -/
theorem hotfire_of_decided {α : Type} {p : Server α} {g : Gate} {post : α → Gate → Prop}
    (hf : Follows modeGate g p post) (h : HasDecided Act.IsClaim p) :
    g = .hotfire ∨ g = .stopping := by
  induction p generalizing g with
  | ret v => exact h.elim
  | act a k ih =>
    rcases h with hclaim | ⟨hrefresh, r, hrest⟩
    · cases a <;> first | exact hclaim.elim | exact Or.inl hf.1
    · obtain ⟨g', hg'⟩ := modeGate_after_total g a r
      have hhot := ih r (hf.2 r g' hg') hrest
      rcases modeGate_after hrefresh hg' with hsame | ⟨hstopping, -⟩
      · exact hsame ▸ hhot
      · exact Or.inr hstopping

/-! ### The invariant -/

/-- What holds in concurrent runs that overtake no decision, `gates t` being what thread
`t` knows. -/
structure RaceState (s : System) (gates : Thread → Gate) : Prop where
  follows : ∀ t, Follows modeGate (gates t) (s.threads t) (fun _ g => g ≠ .stopping)
  current : ∀ t, DecidedFor s.app.state (s.threads t)
  quiet : s.app.state = .hotfire → (∀ t, gates t ≠ .stopping) → Quiet s.app.wiggles

theorem raceState_initial (config : AppConfig) (canFd : Int) :
    RaceState (System.initial config canFd) (fun _ => .unknown) where
  follows _ := Gate.noConfusion
  current _ := ⟨False.elim, False.elim⟩
  quiet h := nomatch h

theorem gated_concurrent (config : AppConfig) {t : Thread} {c : Call}
    (h : Concurrent (.call t c)) : Gated (c.program config) := by
  cases t with
  | handler n => exact gated_call config c h
  | main =>
    have htick : c.IsTick := h
    cases c <;> first | exact htick.elim | skip
    have hprocess : Performs Act.Plain (act .wiggleProcess) := performs_single ⟨id, id⟩
    exact (gated_plain hprocess).bind (fun _ => gated_pure 0)

/-- A thread that moves keeps its decisions, unless the action renews what it knows. -/
theorem decidedFor_step {state : AppState} {a : Act} {k : a.Answer → Server Int}
    (h : DecidedFor state (Program.act (S := serverSig) a k)) (ha : ¬ a.Refreshes)
    (r : a.Answer) : DecidedFor state (k r) :=
  ⟨fun hk => h.1 (Or.inr ⟨ha, r, hk⟩), fun hk => h.2 (Or.inr ⟨ha, r, hk⟩)⟩

/-- What a program has decided is for any state that agrees with what it knows. -/
theorem decidedFor_of_gate {state : AppState} {p : Server Int} {g : Gate}
    {post : Int → Gate → Prop} (hf : Follows modeGate g p post)
    (hpre : g = .prechilling → state = .prechilling)
    (hhot : g = .hotfire ∨ g = .stopping → state = .hotfire) : DecidedFor state p :=
  ⟨fun h => hpre (prechilling_of_decided hf h), fun h => hhot (hotfire_of_decided hf h)⟩

/-- Thread `t` moves on to `p`, where it knows `g`, and the other threads stay. -/
theorem RaceState.moved {s : System} {gates : Thread → Gate} (hs : RaceState s gates) (t : Thread)
    {process : Process} {p : Server Int} {g : Gate}
    (hfollows : Follows modeGate g p (fun _ g => g ≠ .stopping))
    (hcurrent : DecidedFor process.app.state p)
    (hothers : ∀ u, u ≠ t → DecidedFor process.app.state (s.threads u))
    (hquiet : process.app.state = .hotfire → g ≠ .stopping →
      (∀ u, u ≠ t → gates u ≠ .stopping) → Quiet process.app.wiggles) :
    RaceState ⟨process, Function.update s.threads t p⟩ (Function.update gates t g) where
  follows u := by
    by_cases hu : u = t
    · subst hu
      simp only [Function.update_self]
      exact hfollows
    · simp only [Function.update_of_ne hu]
      exact hs.follows u
  current := by
    apply (Function.forall_update_iff s.threads (fun _ p => DecidedFor process.app.state p)).mpr
    exact ⟨hcurrent, hothers⟩
  quiet hhot hgates := by
    obtain ⟨hg, hrest⟩ :=
      (Function.forall_update_iff gates (fun _ g => g ≠ .stopping)).mp hgates
    exact hquiet hhot hg hrest

/-- The wiggles are quiet in `HOTFIRE` as long as no thread is about to stop them. -/
theorem RaceState.quiet_others {s : System} {gates : Thread → Gate} (hs : RaceState s gates)
    {t : Thread} (hhot : s.app.state = .hotfire) (hg : gates t ≠ .stopping)
    (hrest : ∀ u, u ≠ t → gates u ≠ .stopping) : Quiet s.app.wiggles := by
  apply hs.quiet hhot
  intro u
  by_cases hu : u = t
  · rw [hu]
    exact hg
  · exact hrest u hu

/-- The step of a thread that neither reads nor stores the state. -/
theorem raceState_plain {s : System} {gates : Thread → Gate} (hs : RaceState s gates) (t : Thread)
    (env : Env) (a : Act) (k : a.Answer → Server Int)
    (ht : s.threads t = Program.act (S := serverSig) a k) (ha : ¬ a.Refreshes) :
    ∃ gates', RaceState (s.afterAct t env a k) gates' := by
  have hf := hs.follows t
  have hcurrent := hs.current t
  rw [ht] at hf hcurrent
  obtain ⟨g', hg'⟩ := modeGate_after_total (gates t) a (perform s.process env a).2.1
  have hstate : (perform s.process env a).1.app.state = s.app.state := by
    apply perform_state s.process env a
    rintro state rfl
    exact ha trivial
  refine ⟨Function.update gates t g', hs.moved t (hf.2 _ g' hg') ?_ ?_ ?_⟩
  · rw [hstate]
    exact decidedFor_step hcurrent ha _
  · intro u _
    rw [hstate]
    exact hs.current u
  · intro hhot hg hrest
    have hold : s.app.state = .hotfire := hstate.symm.trans hhot
    by_cases hstop : ∃ sendExitValue, a = .wiggleStopAll sendExitValue
    · obtain ⟨sendExitValue, rfl⟩ := hstop
      exact quiet_wiggleStopAllLocked s.process.app env sendExitValue
    · have hstart : ∀ r, a ≠ .wiggleStart r := by
        rintro r rfl
        cases hold.symm.trans (hcurrent.1 (Or.inl trivial))
      -- the thread itself is not stopping: all that it could do then is to stop the wiggles
      have hown : gates t ≠ .stopping := by
        rcases modeGate_after ha hg' with hsame | ⟨hstopping, -⟩
        · exact hsame ▸ hg
        · intro _
          have hallowed := hf.1
          rw [hstopping] at hallowed
          cases a with
          | wiggleStopAll sendExitValue => exact hstop ⟨sendExitValue, rfl⟩
          | wiggleStart r => cases hallowed
          | claimSequence => cases hallowed
          | _ => exact hallowed rfl
      exact (perform_quiet s.process env a hstart (hs.quiet_others hold hown hrest)).1

/-- The step of a thread that reads the state. -/
theorem raceState_getState {s : System} {gates : Thread → Gate} (hs : RaceState s gates)
    (t : Thread) (env : Env) (k : AppState → Server Int)
    (ht : s.threads t = Program.act (S := serverSig) .getState k) :
    RaceState (s.afterAct t env .getState k)
      (Function.update gates t (.ofState s.app.state)) := by
  have hf := hs.follows t
  rw [ht] at hf
  have hnext := hf.2 s.app.state _ rfl
  refine hs.moved t hnext ?_ (fun u _ => hs.current u) ?_
  · change DecidedFor s.app.state (k s.app.state)
    apply decidedFor_of_gate hnext
    · intro hg
      cases hstate : s.app.state with
      | prechilling => rfl
      | hotfire =>
        rw [hstate] at hg
        cases hg
    · intro hg
      cases hstate : s.app.state with
      | prechilling =>
        rw [hstate] at hg
        rcases hg with hg | hg <;> cases hg
      | hotfire => rfl
  · intro hhot _ hrest
    exact hs.quiet_others hhot hf.1 hrest

/-- What a thread knows behind its store of a state. -/
def Gate.stored : AppState → Gate
  | .prechilling => .prechilling
  | .hotfire => .stopping

/-- The step of a thread that stores the state. -/
theorem raceState_storeState {s : System} {gates : Thread → Gate} (hs : RaceState s gates)
    (t : Thread) (env : Env) (state : AppState) (k : Bool → Server Int)
    (ht : s.threads t = Program.act (S := serverSig) (.storeState state) k)
    (hstable : ∀ u, u ≠ t → DecidedFor state (s.threads u)) :
    RaceState (s.afterAct t env (.storeState state) k)
      (Function.update gates t (.stored state)) := by
  have hf := hs.follows t
  rw [ht] at hf
  have hnext := hf.2 (s.app.state != state) (.stored state) (by cases state <;> rfl)
  refine hs.moved t hnext ?_ hstable ?_
  · change DecidedFor state (k (s.app.state != state))
    apply decidedFor_of_gate hnext
    · intro hg
      cases state with
      | prechilling => rfl
      | hotfire => cases hg
    · intro hg
      cases state with
      | prechilling => rcases hg with hg | hg <;> cases hg
      | hotfire => rfl
  · -- behind a store of `HOTFIRE` the thread itself has still to stop the wiggles
    intro hhot hg _
    obtain rfl : state = .hotfire := hhot
    exact absurd rfl hg

/-- The step lemma of concurrent runs. -/
theorem raceState_step {s s' : System} {gates : Thread → Gate} (hs : RaceState s gates)
    {l : Label} {os : List Output} (hm : SystemMove s l.env l.actor s' os)
    (hl : ModeStable s l) : ∃ gates', RaceState s' gates' := by
  obtain ⟨actor, env⟩ := l
  obtain ⟨hconcurrent, hstable⟩ := hl
  cases hm with
  | call t c v ht =>
    have hg : gates t ≠ .stopping := by
      have hf := hs.follows t
      rw [ht] at hf
      exact hf
    -- a call begins with no knowledge of the state
    have hfollows := gated_concurrent s.app.config hconcurrent .unknown Gate.noConfusion
    refine ⟨_, hs.moved t hfollows ?_ (fun u _ => hs.current u) ?_⟩
    · apply decidedFor_of_gate hfollows Gate.noConfusion
      intro h
      rcases h with h | h <;> cases h
    · intro hhot _ hrest
      exact hs.quiet_others hhot hg hrest
  | thread t a k ht =>
    by_cases ha : a.Refreshes
    · cases a with
      | getState => exact ⟨_, raceState_getState hs t env k ht⟩
      | storeState state =>
        refine ⟨_, raceState_storeState hs t env state k ht ?_⟩
        intro u hu
        have haction : s.action (.thread t) = some (.storeState state) := action_of_thread ht
        exact hstable state (stores_eq_some.mpr haction) u
          (fun h => hu (Actor.thread.inj h).symm)
      | _ => exact ha.elim
    · exact raceState_plain hs t env a k ht ha
  | worker k args pc mid e hw hmove =>
    obtain ⟨hstate, hwiggles⟩ := afterWorker_mode s.app e
    refine ⟨gates, hs.follows, ?_, ?_⟩
    · intro u
      change DecidedFor (s.app.afterWorker e).state _
      rw [hstate]
      exact hs.current u
    · intro hhot hgates
      change Quiet (s.app.afterWorker e).wiggles
      rw [hwiggles]
      exact hs.quiet (hstate.symm.trans hhot) hgates
  | signal => exact ⟨gates, hs.follows, hs.current, hs.quiet⟩

/-! ### The effects -/

/-- A slot that is not active stays so, but for a start. -/
theorem perform_inactive (p : Process) (env : Env) (a : Act) (ha : ∀ r, a ≠ .wiggleStart r)
    {i : Fin appMaxWiggles} (h : (p.app.wiggles i).active = false) :
    ((perform p env a).1.app.wiggles i).active = false := by
  cases a with
  | wiggleStart r => exact absurd rfl (ha r)
  | wiggleStop id =>
    simp only [perform, wiggleStopLocked]
    split
    · exact h
    · rename_i j hj
      by_cases hij : i = j
      · subst hij
        simp only [Process.setApp, Function.update_self]
        exact deactivateSlot_active_false _ _ _ _
      · simp only [Process.setApp, Function.update_of_ne hij]
        exact h
  | wiggleStopAll sendExitValue =>
    exact quiet_wiggleStopAllLocked p.app env sendExitValue i
  | wiggleProcess =>
    simp only [perform, wiggleProcess]
    split_ifs
    · exact h
    · simp only [Process.setApp, overSlots, processSlot_inactive _ _ _ _ h, h]
  | claimSequence =>
    simp only [perform, App.claimSequence, Process.setApp]
    split_ifs <;> exact h
  | createWorker args =>
    simp only [perform]
    split_ifs <;> exact h
  | _ => exact h

theorem effectsInMode {s s' : System} {gates : Thread → Gate} (hs : RaceState s gates)
    {l : Label} {os : List Output} (hm : SystemMove s l.env l.actor s' os) :
    EffectsInMode s l s' := by
  obtain ⟨actor, env⟩ := l
  -- an action that is about to be performed has been decided
  have hstart : ∀ t r, s.action (.thread t) = some (.wiggleStart r) →
      s.app.state = .prechilling := by
    intro t r h
    apply (hs.current t).1
    obtain ⟨k, ht⟩ := thread_of_action h
    rw [ht]
    exact Or.inl trivial
  have hclaim : ∀ t, s.action (.thread t) = some .claimSequence → s.app.state = .hotfire := by
    intro t h
    apply (hs.current t).2
    obtain ⟨k, ht⟩ := thread_of_action h
    rw [ht]
    exact Or.inl trivial
  refine ⟨?_, ?_, ?_⟩
  · intro r haction _
    cases actor with
    | thread t => exact hstart t r haction
    | _ => cases haction
  · intro i hinactive hactive
    cases hm with
    | call t c v ht => cases hinactive.symm.trans hactive
    | thread t a k ht =>
      have haction : s.action (.thread t) = some a := action_of_thread ht
      by_contra hstate
      have hnone : ∀ r, a ≠ .wiggleStart r := by
        rintro r rfl
        exact hstate (hstart t r haction)
      cases (perform_inactive s.process env a hnone hinactive).symm.trans hactive
    | worker k args pc mid e hw hmove =>
      have hsame := congrFun (afterWorker_mode s.app e).2 i
      have hactive' : ((s.app.afterWorker e).wiggles i).active = true := hactive
      rw [hsame] at hactive'
      cases hinactive.symm.trans hactive'
    | signal => cases hinactive.symm.trans hactive
  · intro hinactive hactive
    cases hm with
    | call t c v ht => cases hinactive.symm.trans hactive
    | thread t a k ht =>
      have haction : s.action (.thread t) = some a := action_of_thread ht
      by_contra hstate
      have hnone : a ≠ .claimSequence := by
        rintro rfl
        exact hstate (hclaim t haction)
      cases hinactive.symm.trans (active_of_perform hnone hactive)
    | worker k args pc mid e hw hmove =>
      have hactive' : (s.app.afterWorker e).sequenceActive = true := hactive
      cases e with
      | finishSequence => cases hactive'
      | _ => cases hinactive.symm.trans hactive'
    | signal => cases hinactive.symm.trans hactive

/-- The thread has returned from its last call. -/
def System.returned (s : System) (t : Thread) : Bool :=
  match s.threads t with
  | .ret _ => true
  | .act _ _ => false

theorem returned_iff {s : System} {t : Thread} :
    s.returned t = true ↔ ∃ v, s.threads t = .ret v := by
  unfold System.returned
  split
  · rename_i v h
    exact iff_of_true rfl ⟨v, h⟩
  · rename_i a k h
    refine iff_of_false Bool.false_ne_true ?_
    rintro ⟨v, hv⟩
    cases h.symm.trans hv

/-- Every call has returned. -/
def System.AllReturned (s : System) : Prop := ∀ t, ∃ v, s.threads t = .ret v

/-- In every run of any number of clients that overtakes no decision, wiggles are started
in `PRECHILLING` and sequences in `HOTFIRE` only; and once all calls have returned in
`HOTFIRE`, no slot is active. -/
theorem mode_checks_at_effect (config : AppConfig) (canFd : Int) (ls : List Label)
    (s : System) (os : List Output)
    (hrun : server.run (System.initial config canFd) ls = some (s, os))
    (hls : server.Along ModeStable (System.initial config canFd) ls) :
    server.Along (fun s l => ∀ s' os, server.step s l = some (s', os) → EffectsInMode s l s')
      (System.initial config canFd) ls ∧
    (s.AllReturned → s.app.state = .hotfire → Quiet s.app.wiggles) := by
  have hinitial : ∃ gates, RaceState (System.initial config canFd) gates :=
    ⟨_, raceState_initial config canFd⟩
  have hstep : ∀ (s : System) (l : Label) (x : System × List Output),
      (∃ gates, RaceState s gates) → ModeStable s l → server.step s l = some x →
      ∃ gates, RaceState x.1 gates := by
    rintro s l x ⟨gates, hs⟩ hl hx
    exact raceState_step hs (system_move hx) hl
  refine ⟨?_, ?_⟩
  · refine Machine.along_of_invariant hstep ?_ hinitial hls
    rintro s l ⟨gates, hs⟩ - s' os hx
    exact effectsInMode hs (system_move hx)
  · intro hreturned hhot
    obtain ⟨gates, hs⟩ := Machine.run_invariant (I := fun s => ∃ gates, RaceState s gates)
      hstep hinitial hls hrun
    refine hs.quiet hhot ?_
    intro t
    obtain ⟨v, hv⟩ := hreturned t
    have hf := hs.follows t
    rw [hv] at hf
    exact hf

/-! ### Runs of two clients -/

def Actor.mover : Actor → Option Thread
  | .call t _ | .thread t => some t
  | _ => none

/-- A thread that a schedule does not mention stays where it is. -/
theorem threads_of_unmoved {s s' : System} {ls : List Label} {os : List Output} {u : Thread}
    (hrun : server.run s ls = some (s', os)) (hls : ∀ l ∈ ls, l.actor.mover ≠ some u) :
    s'.threads u = s.threads u := by
  induction ls generalizing s os with
  | nil =>
    obtain ⟨rfl, -⟩ := Prod.mk.inj (Option.some.inj hrun)
    rfl
  | cons l ls ih =>
    obtain ⟨mid, head, os', hstep, hrest, -⟩ := Machine.run_cons_eq_some.mp hrun
    have hl := hls l (by simp)
    rw [ih hrest (fun l' h => hls l' (by simp [h]))]
    obtain ⟨actor, env⟩ := l
    have hm : SystemMove s env actor mid head := system_move hstep
    cases hm with
    | call t c v ht => exact Function.update_of_ne (fun h => hl (congrArg some h.symm)) _ _
    | thread t a k ht => exact Function.update_of_ne (fun h => hl (congrArg some h.symm)) _ _
    | worker k args pc mid e hw hmove => rfl
    | signal => rfl

/-- A step that stores no state is stable. -/
theorem modeStable_of_no_store {s : System} {l : Label}
    (h : Concurrent l.actor ∧ s.stores l.actor = none) : ModeStable s l := by
  refine ⟨h.1, ?_⟩
  intro state hstore
  cases h.2.symm.trans hstore

/-- One client stores `HOTFIRE`, and then another one drowns the injector. -/
theorem mode_checks_at_effect_drown :
    let env : Env := ⟨0, fun _ => none, true, true⟩
    let say (n : ℕ) (text : String) : Label :=
      ⟨.call (.handler n) (.message n text.toList), env⟩
    let own (n : ℕ) : Label := ⟨.thread (.handler n), env⟩
    let before := say 0 "STATE#HOTFIRE" :: List.replicate 3 (own 0)
    let behind := List.replicate 4 (own 0) ++ say 1 "DROWN#8765" :: List.replicate 10 (own 1)
    ∃ s os, server.run (System.initial ⟨false, false⟩ 3) (before ++ (own 0 :: behind)) =
        some (s, os) ∧ s.app.sequenceActive = true ∧
      server.Along (fun s l => ∀ s' os, server.step s l = some (s', os) → EffectsInMode s l s')
        (System.initial ⟨false, false⟩ 3) (before ++ (own 0 :: behind)) ∧
      (s.AllReturned → s.app.state = .hotfire → Quiet s.app.wiggles) := by
  intro env say own before behind
  let start := System.initial ⟨false, false⟩ 3
  let NoStore (s : System) (l : Label) : Prop := Concurrent l.actor ∧ s.stores l.actor = none
  have hfacts : (server.run start (before ++ (own 0 :: behind))).map
      (fun r => r.1.app.sequenceActive) = some true := by decide
  obtain ⟨⟨s, os⟩, hrun, hactive⟩ := Option.map_eq_some_iff.mp hfacts
  have hbefore : server.Along NoStore start before := by decide
  have hbehind : ((server.run start (before ++ [own 0])).all
      (fun r => decide (server.Along NoStore r.1 behind))) = true := by decide
  have hstable : server.Along ModeStable start (before ++ (own 0 :: behind)) := by
    refine Machine.along_append (hbefore.mono (fun _ _ => modeStable_of_no_store)) ?_
    intro mid os₁ hmid
    refine ⟨⟨trivial, ?_⟩, ?_⟩
    · -- at the store the other threads are idle
      intro state _ u hu
      have hmovers : ∀ l ∈ before, l.actor.mover = some (.handler 0) := by decide
      have hunmoved : ∀ l ∈ before, l.actor.mover ≠ some u := by
        intro l hl h
        exact hu (congrArg Actor.thread (Option.some.inj ((hmovers l hl).symm.trans h)))
      have hidle : mid.threads u = .ret 0 := threads_of_unmoved hmid hunmoved
      rw [hidle]
      exact ⟨False.elim, False.elim⟩
    · rintro ⟨next, os₂⟩ hnext
      have hone := Machine.run_append_eq_some.mpr
        ⟨mid, os₁, os₂, hmid, Machine.run_single_eq_some.mpr hnext, rfl⟩
      rw [hone] at hbehind
      exact (of_decide_eq_true hbehind).mono (fun _ _ => modeStable_of_no_store)
  exact ⟨s, os, hrun, hactive, mode_checks_at_effect ⟨false, false⟩ 3 _ s os hrun hstable⟩

/-- `WIGGLE` looks at the state, another client stores `HOTFIRE` and stops all wiggles,
and then the wiggle is started. -/
theorem overtaken_check_starts_wiggle :
    let env : Env := ⟨0, fun _ => none, true, true⟩
    let say (n : ℕ) (text : String) : Label :=
      ⟨.call (.handler n) (.message n text.toList), env⟩
    let own (n : ℕ) : Label := ⟨.thread (.handler n), env⟩
    ∃ s os, server.run (System.initial ⟨false, false⟩ 3)
        (say 0 "WIGGLE|101#1#2#3#5" :: List.replicate 5 (own 0) ++
          say 1 "STATE#HOTFIRE" :: List.replicate 8 (own 1) ++ List.replicate 2 (own 0)) =
        some (s, os) ∧
      s.AllReturned ∧ s.app.state = .hotfire ∧ ¬ Quiet s.app.wiggles := by
  intro env say own
  let ls := say 0 "WIGGLE|101#1#2#3#5" :: List.replicate 5 (own 0) ++
    say 1 "STATE#HOTFIRE" :: List.replicate 8 (own 1) ++ List.replicate 2 (own 0)
  have hfacts : (server.run (System.initial ⟨false, false⟩ 3) ls).map (fun r =>
      (r.1.returned (.handler 0), r.1.returned (.handler 1), r.1.app.state,
        (r.1.app.wiggles ⟨0, by decide⟩).active)) = some (true, true, .hotfire, true) := by decide
  obtain ⟨⟨s, os⟩, hrun, hs⟩ := Option.map_eq_some_iff.mp hfacts
  obtain ⟨hzero, hs⟩ := Prod.mk.inj hs
  obtain ⟨hone, hs⟩ := Prod.mk.inj hs
  obtain ⟨hstate, hslot⟩ := Prod.mk.inj hs
  refine ⟨s, os, hrun, ?_, hstate, ?_⟩
  · intro t
    by_cases h0 : t = .handler 0
    · exact h0 ▸ returned_iff.mp hzero
    · by_cases h1 : t = .handler 1
      · exact h1 ▸ returned_iff.mp hone
      · -- nobody else is moved, so all other threads are as they were
        have hmovers : ∀ l ∈ ls, l.actor.mover = some (.handler 0) ∨
            l.actor.mover = some (.handler 1) := by decide
        have hunmoved : ∀ l ∈ ls, l.actor.mover ≠ some t := by
          intro l hl h
          rcases hmovers l hl with h' | h'
          · exact h0 (Option.some.inj (h.symm.trans h'))
          · exact h1 (Option.some.inj (h.symm.trans h'))
        exact ⟨0, threads_of_unmoved hrun hunmoved⟩
  · intro hquiet
    cases (hquiet ⟨0, by decide⟩).symm.trans hslot

end WsServer
