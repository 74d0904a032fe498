import WsServer.OneSequence

/-! An abort belongs to the sequence that is running when it is requested, and to no
other. -/
namespace WsServer
open Interaction

/-- The sequence that thread `t` claimed when there were `n` workers is still running:
its owner is that thread or the worker that the thread then created. -/
structure RunningSequence (t : Thread) (n : ℕ) (s : System) : Prop where
  owned : Ownership s (some (.starter t)) ∧ s.process.workers.length = n ∨
    Ownership s (some (.worker n))

theorem RunningSequence.active {t : Thread} {n : ℕ} {s : System} (h : RunningSequence t n s) :
    s.app.sequenceActive = true := by
  rcases h.owned with ⟨ho, -⟩ | ho
  · exact ho.active
  · exact ho.active

theorem running_of_claim {s s' : System} {o : Option Owner} (hs : Ownership s o) {env : Env}
    {t : Thread} {os : List Output} (hclaim : s.Claims (.thread t))
    (hm : SystemMove s env (.thread t) s' os) :
    RunningSequence t s.process.workers.length s' ∧ s'.app.sequenceAbort = false := by
  obtain ⟨o', ho', hstep⟩ := ownership_step hs hm
  cases hstep with
  | keep _ _ h _ => exact absurd hclaim h.claims
  | claim _ _ habort hworkers => exact ⟨⟨Or.inl ⟨ho', hworkers⟩⟩, habort⟩
  | handOver _ h => exact absurd hclaim h.claims
  | giveUp _ h _ =>
    have hsame := hclaim.1.symm.trans h
    cases hsame

/-- One step within the sequence: nothing but a request changes the abort flag. -/
theorem running_step {t : Thread} {n : ℕ} {s s' : System} (hs : RunningSequence t n s) {env : Env}
    {actor : Actor} {os : List Output} (hm : SystemMove s env actor s' os)
    (hrelease : ¬ s.Releases actor) :
    RunningSequence t n s' ∧
      s'.app.sequenceAbort = (s.app.sequenceAbort || s.requestsAbort actor) := by
  rcases hs.owned with ⟨ho, hn⟩ | ho
  · obtain ⟨o', ho', hstep⟩ := ownership_step ho hm
    cases hstep with
    | keep _ _ h hworkers => exact ⟨⟨Or.inl ⟨ho', hworkers.trans hn⟩⟩, h.abort⟩
    | handOver _ h => exact ⟨⟨Or.inr (hn ▸ ho')⟩, h.abort⟩
    | giveUp _ h _ => exact absurd h hrelease
  · obtain ⟨o', ho', hstep⟩ := ownership_step ho hm
    cases hstep with
    | keep _ _ h hworkers => exact ⟨⟨Or.inr ho'⟩, h.abort⟩
    | finish _ h _ => exact absurd h hrelease

/-- No step of the run requests an abort. -/
abbrev NoRequest (s : System) (ls : List Label) : Prop :=
  server.Along (fun s l => s.requestsAbort l.actor = false) s ls

/-- No step of the run is a `finish_sequence`. -/
abbrev NoRelease (s : System) (ls : List Label) : Prop :=
  server.Along (fun s l => ¬ s.Releases l.actor) s ls

theorem running_run {t : Thread} {n : ℕ} {s s' : System} (hs : RunningSequence t n s)
    {ls : List Label} {os : List Output} (hrun : server.run s ls = some (s', os))
    (hheld : NoRelease s ls) :
    RunningSequence t n s' ∧
      (s'.app.sequenceAbort = false ↔ s.app.sequenceAbort = false ∧ NoRequest s ls) := by
  induction ls generalizing s os with
  | nil =>
    obtain ⟨rfl, -⟩ := Prod.mk.inj (Option.some.inj hrun)
    exact ⟨hs, (and_iff_left trivial).symm⟩
  | cons l ls ih =>
    obtain ⟨mid, head, os', hstep, hrest, -⟩ := Machine.run_cons_eq_some.mp hrun
    have hheld' := (Machine.along_cons_iff hstep).mp hheld
    obtain ⟨hmid, habort⟩ := running_step hs (system_move hstep) hheld'.1
    obtain ⟨hs', hiff⟩ := ih hmid hrest hheld'.2
    refine ⟨hs', hiff.trans ?_⟩
    rw [habort, Bool.or_eq_false_iff, and_assoc]
    refine and_congr_right (fun _ => ?_)
    exact Iff.symm (Machine.along_cons_iff (C := fun s l => s.requestsAbort l.actor = false) hstep)

/-- What the worker of the sequence reads, and who ends the sequence. -/
structure AbortScope (t : Thread) (n : ℕ) (requested : Prop) (s : System) : Prop where
  active : s.app.sequenceActive = true
  abort_iff : s.app.sequenceAbort = true ↔ requested
  read : ∀ k env s' os e, server.step s ⟨.worker k, env⟩ = some (s', os) →
    Output.worker k (.abortRequested e) ∈ os → k = n ∧ (e = true ↔ requested)
  release : ∀ l s' os, server.step s l = some (s', os) → s.Releases l.actor →
    (l.actor = .thread t ∨ l.actor = .worker n) ∧
      s'.app.sequenceActive = false ∧ s'.app.sequenceAbort = false

theorem release_step {t : Thread} {n : ℕ} {s s' : System} (hs : RunningSequence t n s) {l : Label}
    {os : List Output} (hm : SystemMove s l.env l.actor s' os) (h : s.Releases l.actor) :
    (l.actor = .thread t ∨ l.actor = .worker n) ∧
      s'.app.sequenceActive = false ∧ s'.app.sequenceAbort = false := by
  obtain ⟨actor, env⟩ := l
  rcases hs.owned with ⟨ho, -⟩ | ho
  · obtain ⟨o', ho', hstep⟩ := ownership_step ho hm
    cases hstep with
    | keep _ _ hw _ => exact absurd h hw.releases
    | handOver _ hw => exact absurd h hw.releases
    | giveUp _ _ habort => exact ⟨Or.inl rfl, ho'.active, habort⟩
  · obtain ⟨o', ho', hstep⟩ := ownership_step ho hm
    cases hstep with
    | keep _ _ hw _ => exact absurd h hw.releases
    | finish _ _ habort => exact ⟨Or.inr rfl, ho'.active, habort⟩

theorem read_step {t : Thread} {n : ℕ} {s s' : System} (hs : RunningSequence t n s) {k : ℕ}
    {env : Env} {os : List Output} {answer : Bool} (hm : SystemMove s env (.worker k) s' os)
    (he : Output.worker k (.abortRequested answer) ∈ os) :
    k = n ∧ answer = s.app.sequenceAbort := by
  cases hm with
  | worker _ args pc mid e hw hmove =>
    obtain ⟨-, rfl⟩ := Output.worker.inj (List.mem_singleton.mp he)
    have hpc : pc ≠ .done := by
      rintro rfl
      cases hmove
    have howner : s.IsOwner (.worker k) := ⟨_, hw, hpc⟩
    have hk : k = n := by
      rcases hs.owned with ⟨ho, -⟩ | ho
      · cases (ho.owner_iff _).mp howner
      · exact (Owner.worker.inj (Option.some.inj ((ho.owner_iff _).mp howner))).symm
    refine ⟨hk, ?_⟩
    cases hmove with
    | abortSeen i d h => exact h.symm
    | abortClear i d h => exact h.symm

/-- From its claim to its own `finish_sequence`, whatever is started or requested in
between, a sequence sees an abort exactly when one was requested since that claim. -/
theorem abort_scoping (config : AppConfig) (canFd : Int) (s : System)
    (hs : server.Reachable (System.initial config canFd) s) (t : Thread) (env : Env)
    (s₁ : System) (os₁ : List Output) (hclaim : s.Claims (.thread t))
    (hstep : server.step s ⟨.thread t, env⟩ = some (s₁, os₁)) (ls : List Label) (s₂ : System)
    (os₂ : List Output) (hrun : server.run s₁ ls = some (s₂, os₂)) (hheld : NoRelease s₁ ls) :
    AbortScope t s.process.workers.length (¬ NoRequest s₁ ls) s₂ := by
  obtain ⟨o, ho⟩ := ownership_reachable hs
  have hm : SystemMove s env (.thread t) s₁ os₁ := system_move hstep
  obtain ⟨hstart, hclear⟩ := running_of_claim ho hclaim hm
  obtain ⟨hrunning, hiff⟩ := running_run hstart hrun hheld
  have habort : s₂.app.sequenceAbort = true ↔ ¬ NoRequest s₁ ls := by
    rw [← Bool.not_eq_false, hiff, hclear]
    exact not_congr (and_iff_right rfl)
  refine ⟨hrunning.active, habort, ?_, ?_⟩
  · intro k env' s' os e hread he
    obtain ⟨hk, rfl⟩ := read_step hrunning (system_move hread) he
    exact ⟨hk, habort⟩
  · intro l s' os hrelease h
    exact release_step hrunning (system_move hrelease) h

/-- An abort between the claim of a sequence and the first step of its worker. -/
theorem abort_scoping_early_request :
    let config : FiringSequenceConfig := { FiringSequenceConfig.zero with numBlocks := 1 }
    let env : Env := ⟨0, fun _ => none, true, true⟩
    let start : Label := ⟨.call (.handler 0) (.startSequence 0 config none none none), env⟩
    let own : Label := ⟨.thread (.handler 0), env⟩
    let ls : List Label := [⟨.call .main .requestAbort, env⟩, ⟨.thread .main, env⟩, own, own,
      ⟨.worker 0, env⟩]
    ∃ s os s₁ os₁ s₂ os₂, server.run (System.initial ⟨false, false⟩ 3) [start] = some (s, os) ∧
      server.step s own = some (s₁, os₁) ∧ server.run s₁ ls = some (s₂, os₂) ∧
      s₂.app.sequenceAbort = true ∧ AbortScope (.handler 0) 0 (¬ NoRequest s₁ ls) s₂ := by
  intro config env start own ls
  have hfacts : (server.run (System.initial ⟨false, false⟩ 3) ([start] ++ ([own] ++ ls))).map
      (fun r => r.1.app.sequenceAbort) = some true := by decide
  have hclaim : (server.run (System.initial ⟨false, false⟩ 3) [start]).map
      (fun r => (decide (r.1.Claims (.thread (.handler 0))), r.1.process.workers.length)) =
        some (true, 0) := by decide
  have hheld : NoRelease (System.initial ⟨false, false⟩ 3) ([start] ++ ([own] ++ ls)) := by decide
  obtain ⟨⟨s₂, _⟩, hall, habort⟩ := Option.map_eq_some_iff.mp hfacts
  obtain ⟨s, os, _, hstart, hrest, -⟩ := Machine.run_append_eq_some.mp hall
  obtain ⟨s₁, os₁, os₂, hown, hrun, -⟩ := Machine.run_append_eq_some.mp hrest
  rw [hstart] at hclaim
  obtain ⟨hclaim, hnone⟩ := Prod.mk.inj (Option.some.inj hclaim)
  have hstep := Machine.run_single_eq_some.mp hown
  have hscope := abort_scoping ⟨false, false⟩ 3 s ⟨_, _, hstart⟩ (.handler 0) env s₁ os₁
    (of_decide_eq_true hclaim) hstep ls s₂ os₂ hrun ((hheld.behind hstart).behind hown)
  exact ⟨s, os, s₁, os₁, s₂, os₂, hstart, hstep, hrun, habort, hnone ▸ hscope⟩

end WsServer
