import WsServer.HotfireQuiet

/-! The interlock between firing and wiggling: what keeps it, and the store of a state
that breaks it. -/
namespace WsServer
open Interaction Program

/-- Firing and wiggling exclude each other, and blocks are written in `HOTFIRE` only. -/
structure Interlocked (s : System) : Prop where
  exclusive : ¬ (s.app.sequenceActive = true ∧ ∃ i, (s.app.wiggles i).active = true)
  written : ∀ l s' os k i c, server.step s l = some (s', os) →
    Output.worker k (.attempt i c .sent) ∈ os → s.app.state ≠ .prechilling

/-- A serial step that does not store `PRECHILLING` while a sequence is active. -/
abbrev InterlockStep (s : System) (l : Label) : Prop :=
  Serial l.actor ∧ ¬ (s.stores l.actor = some .prechilling ∧ s.app.sequenceActive = true)

/-- A sequence runs only in `HOTFIRE` and without an active slot. -/
def FiringQuiet (app : App) : Prop :=
  app.sequenceActive = true → app.state = .hotfire ∧ Quiet app.wiggles

/-- The flag is set by a claim only. -/
theorem active_of_perform {p : Process} {env : Env} {a : Act} (ha : a ≠ .claimSequence)
    (h : (perform p env a).1.app.sequenceActive = true) : p.app.sequenceActive = true := by
  by_cases hseq : a.NoSequence
  · rwa [← (perform_sameSequence p env a hseq).active]
  · cases a with
    | claimSequence => exact absurd rfl ha
    | callocArgs => exact h
    | createWorker args =>
      simp only [perform] at h
      split_ifs at h <;> exact h
    | finishSequence => cases h
    | _ => exact absurd id hseq

theorem perform_claim_mode (p : Process) (env : Env) :
    (perform p env .claimSequence).1.app.state = p.app.state ∧
      (perform p env .claimSequence).1.app.wiggles = p.app.wiggles := by
  simp only [perform, App.claimSequence, Process.setApp]
  split_ifs <;> exact ⟨rfl, rfl⟩

theorem firingQuiet_handler {s : System} {g : Gate} (hs : SerialState s g)
    (hquiet : FiringQuiet s.app) (env : Env) (a : Act) (k : a.Answer → Server Int)
    (ht : s.threads (.handler 0) = Program.act (S := serverSig) a k)
    (hstores : ¬ (s.stores (.thread (.handler 0)) = some .prechilling ∧
      s.app.sequenceActive = true)) :
    FiringQuiet (s.afterAct (.handler 0) env a k).app := by
  have hf := hs.handler
  rw [ht] at hf
  have haction : s.action (.thread (.handler 0)) = some a := action_of_thread ht
  intro hactive
  by_cases hclaim : a = .claimSequence
  · subst hclaim
    -- a sequence is claimed behind the gate, where the handler knows of `HOTFIRE`
    obtain rfl : g = .hotfire := hf.1
    obtain ⟨hstate, hwiggles⟩ := perform_claim_mode s.process env
    refine ⟨hstate.trans hs.gate.knows, ?_⟩
    simp only [System.afterAct, System.app, hwiggles]
    exact hs.gate.quiet hs.gate.knows (by decide)
  · have hold : s.app.sequenceActive = true := active_of_perform hclaim hactive
    obtain ⟨hhot, hnone⟩ := hquiet hold
    have hstart : ∀ r, a ≠ .wiggleStart r := by
      rintro r rfl
      obtain rfl : g = .prechilling := hf.1
      cases hhot.symm.trans hs.gate.knows
    refine ⟨?_, (perform_quiet s.process env a hstart hnone).1⟩
    by_cases hstore : ∃ state, a = .storeState state
    · obtain ⟨state, rfl⟩ := hstore
      cases state with
      | prechilling => exact absurd ⟨stores_eq_some.mpr haction, hold⟩ hstores
      | hotfire => rfl
    · exact (perform_state s.process env a (fun state h => hstore ⟨state, h⟩)).trans hhot

theorem firingQuiet_step {s s' : System} {g : Gate} (hs : SerialState s g)
    (hquiet : FiringQuiet s.app) {l : Label} {os : List Output}
    (hm : SystemMove s l.env l.actor s' os) (hl : InterlockStep s l) : FiringQuiet s'.app := by
  obtain ⟨actor, env⟩ := l
  cases hm with
  | call t c v ht => exact hquiet
  | thread t a k ht =>
    cases t with
    | main =>
      have hmain := hs.main
      rw [ht] at hmain
      obtain ⟨htick, -⟩ := hmain
      cases a <;> first | exact htick.elim | skip
      intro hactive
      obtain ⟨hhot, hnone⟩ := hquiet (active_of_perform (by simp) hactive)
      exact ⟨(perform_state s.process env .wiggleProcess (by simp)).trans hhot,
        (perform_quiet s.process env .wiggleProcess (by simp) hnone).1⟩
    | handler n =>
      by_cases hn : n = 0
      · subst hn
        exact firingQuiet_handler hs hquiet env a k ht hl.2
      · obtain ⟨v, hv⟩ := hs.idle n hn
        cases hv.symm.trans ht
  | worker k args pc mid e hw hmove =>
    cases e with
    | finishSequence => exact fun h => nomatch h
    | _ => exact hquiet
  | signal => exact hquiet

theorem interlocked_of_firingQuiet {s : System} {o : Option Owner} (ho : Ownership s o)
    (hquiet : FiringQuiet s.app) : Interlocked s where
  exclusive := by
    rintro ⟨hactive, i, hi⟩
    rw [(hquiet hactive).2 i] at hi
    cases hi
  written := by
    intro l s' os k i c hstep he
    obtain ⟨actor, env⟩ := l
    have hm : SystemMove s env actor s' os := system_move hstep
    cases hm with
    | call t c v ht => cases he
    | thread t a g ht =>
      obtain ⟨x, -, hx⟩ := List.mem_map.mp he
      cases hx
    | worker j args pc mid e hw hmove =>
      have hpc : pc ≠ .done := by
        rintro rfl
        cases hmove
      have howner := (ho.owner_iff (.worker j)).mp ⟨_, hw, hpc⟩
      have hactive : s.app.sequenceActive = true := by rw [ho.active, howner]; rfl
      rw [(hquiet hactive).1]
      decide
    | signal => cases he

/-- In every serial run that stores `PRECHILLING` only while no sequence is active, no
block is written in `PRECHILLING` and no slot is active during a sequence. -/
theorem firing_wiggling_interlock (config : AppConfig) (canFd : Int) (ls : List Label)
    (s : System) (os : List Output)
    (hrun : server.run (System.initial config canFd) ls = some (s, os))
    (hls : server.Along InterlockStep (System.initial config canFd) ls) : Interlocked s := by
  have hinvariant : ∃ g o, SerialState s g ∧ Ownership s o ∧ FiringQuiet s.app := by
    refine Machine.run_invariant (C := InterlockStep)
      (I := fun s => ∃ g o, SerialState s g ∧ Ownership s o ∧ FiringQuiet s.app) ?_
      ⟨.unknown, none, serialState_initial config canFd, ownership_initial config canFd,
        fun h => nomatch h⟩ hls hrun
    intro s l x hs hl hstep
    obtain ⟨g, o, hserial, ho, hquiet⟩ := hs
    have hm := system_move hstep
    obtain ⟨g', hserial', -⟩ := serialState_step hserial hl.1 hm
    obtain ⟨o', ho', -⟩ := ownership_step ho hm
    exact ⟨g', o', hserial', ho', firingQuiet_step hserial hquiet hm hl⟩
  obtain ⟨g, o, -, ho, hquiet⟩ := hinvariant
  exact interlocked_of_firingQuiet ho hquiet

/-- `DROWN` in `HOTFIRE`, with a block written. -/
theorem firing_wiggling_interlock_drown :
    let env : Env := ⟨0, fun _ => none, true, true⟩
    let say (text : String) : Label := ⟨.call (.handler 0) (.message 0 text.toList), env⟩
    let own : Label := ⟨.thread (.handler 0), env⟩
    let worker : Label := ⟨.worker 0, env⟩
    ∃ s os, server.run (System.initial ⟨false, false⟩ 3)
        (say "STATE#HOTFIRE" :: List.replicate 8 own ++
          say "DROWN#8765" :: List.replicate 10 own ++ List.replicate 4 worker) = some (s, os) ∧
      Interlocked s := by
  intro env say own worker
  obtain ⟨⟨s, os⟩, hrun⟩ := Option.isSome_iff_exists.mp
    (show (server.run (System.initial ⟨false, false⟩ 3)
        (say "STATE#HOTFIRE" :: List.replicate 8 own ++
          say "DROWN#8765" :: List.replicate 10 own ++ List.replicate 4 worker)).isSome = true
      by decide)
  exact ⟨s, os, hrun, firing_wiggling_interlock ⟨false, false⟩ 3 _ s os hrun (by decide)⟩

/-- `PRECHILLING` during a drowning sequence: a wiggle starts beside the sequence, and
the next step of the worker writes a block. -/
theorem prechilling_breaks_interlock :
    let env : Env := ⟨0, fun _ => none, true, true⟩
    let say (text : String) : Label := ⟨.call (.handler 0) (.message 0 text.toList), env⟩
    let own : Label := ⟨.thread (.handler 0), env⟩
    let worker : Label := ⟨.worker 0, env⟩
    ∃ s os, server.run (System.initial ⟨false, false⟩ 3)
        (say "STATE#HOTFIRE" :: List.replicate 8 own ++
          say "DROWN#8765" :: List.replicate 10 own ++ List.replicate 3 worker ++
          say "STATE#PRECHILLING" :: List.replicate 7 own ++
          say "WIGGLE|101#1#2#3#5" :: List.replicate 7 own) = some (s, os) ∧
      (s.app.sequenceActive = true ∧ ∃ i, (s.app.wiggles i).active = true) ∧
      s.app.state = .prechilling ∧
      ∃ s' c, server.step s worker = some (s', [.worker 0 (.attempt 0 c .sent)]) := by
  intro env say own worker
  have hfacts : (server.run (System.initial ⟨false, false⟩ 3)
      (say "STATE#HOTFIRE" :: List.replicate 8 own ++
        say "DROWN#8765" :: List.replicate 10 own ++ List.replicate 3 worker ++
        say "STATE#PRECHILLING" :: List.replicate 7 own ++
        say "WIGGLE|101#1#2#3#5" :: List.replicate 7 own)).map (fun r =>
          (r.1.app.sequenceActive, (r.1.app.wiggles ⟨0, by decide⟩).active, r.1.app.state,
            (server.step r.1 worker).map (·.2))) =
      some (true, true, .prechilling,
        some [.worker 0 (.attempt 0 ⟨0x709, 0x0099, 0⟩ .sent)]) := by decide
  obtain ⟨⟨s, os⟩, hrun, hs⟩ := Option.map_eq_some_iff.mp hfacts
  obtain ⟨hactive, hs⟩ := Prod.mk.inj hs
  obtain ⟨hslot, hs⟩ := Prod.mk.inj hs
  obtain ⟨hstate, hstep⟩ := Prod.mk.inj hs
  obtain ⟨⟨s', _⟩, hstep, rfl⟩ := Option.map_eq_some_iff.mp hstep
  exact ⟨s, os, hrun, ⟨hactive, ⟨0, by decide⟩, hslot⟩, hstate, s', _, hstep⟩

end WsServer
