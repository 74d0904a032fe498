import Mathlib.Data.List.Basic
import WsServer.Ownership

/-! At most one firing sequence at a time, and no start that leaves the flag behind. -/
namespace WsServer
open Interaction Program

/-! ### No two sequences interleave -/

/-- The first `b` workers have all ended. -/
def System.DoneBelow (s : System) (b : ℕ) : Prop :=
  ∀ j < b, ∃ w, s.process.workers[j]? = some w ∧ w.pc = .done

theorem perform_workers (p : Process) (env : Env) (a : Act) :
    p.workers <+: (perform p env a).1.workers := by
  by_cases ha : a.NoSequence
  · exact (perform_sameSequence p env a ha).workers ▸ List.prefix_rfl
  · cases a with
    | claimSequence =>
      simp only [perform, Process.setApp]
      exact List.prefix_rfl
    | createWorker args =>
      simp only [perform]
      split_ifs
      · exact List.prefix_append _ _
      · exact List.prefix_rfl
    | _ => exact List.prefix_rfl

/-- Workers that have ended stay so, and are heard of no more. -/
theorem doneBelow_step {s s' : System} {env : Env} {actor : Actor} {os : List Output} {b : ℕ}
    (hm : SystemMove s env actor s' os) (hb : s.DoneBelow b) :
    s'.DoneBelow b ∧ ∀ k e, Output.worker k e ∈ os → b ≤ k := by
  cases hm with
  | call t c v ht => exact ⟨hb, fun k e h => nomatch h⟩
  | thread t a k ht =>
    refine ⟨?_, ?_⟩
    · intro j hj
      obtain ⟨w, hw, hdone⟩ := hb j hj
      obtain ⟨rest, hrest⟩ := perform_workers s.process env a
      have hlt : j < s.process.workers.length := (List.getElem?_eq_some_iff.mp hw).1
      refine ⟨w, ?_, hdone⟩
      simp only [System.afterAct, ← hrest, List.getElem?_append_left hlt, hw]
    · intro k e h
      obtain ⟨x, -, hx⟩ := List.mem_map.mp h
      cases hx
  | worker k args pc mid e hw hmove =>
    have hk : b ≤ k := by
      by_contra hlt
      obtain ⟨w, hw', hdone⟩ := hb k (not_le.mp hlt)
      obtain rfl := Option.some.inj (hw.symm.trans hw')
      obtain rfl : pc = .done := hdone
      cases hmove
    refine ⟨?_, ?_⟩
    · intro j hj
      have hne : k ≠ j := by omega
      simpa only [System.afterWorker, List.getElem?_set_ne hne] using hb j hj
    · intro k' e' h
      obtain ⟨rfl, -⟩ := Output.worker.inj (List.mem_singleton.mp h)
      exact hk
  | signal => exact ⟨hb, fun k e h => nomatch h⟩

theorem doneBelow_run {s s' : System} {ls : List Label} {os : List Output} {b : ℕ}
    (hrun : server.run s ls = some (s', os)) (hb : s.DoneBelow b) :
    ∀ k e, Output.worker k e ∈ os → b ≤ k := by
  induction ls generalizing s os with
  | nil =>
    obtain ⟨-, rfl⟩ := Prod.mk.inj (Option.some.inj hrun)
    intro k e h
    cases h
  | cons l ls ih =>
    obtain ⟨mid, o, os', hstep, hrest, rfl⟩ := Machine.run_cons_eq_some.mp hrun
    obtain ⟨hmid, hhead⟩ := doneBelow_step (system_move hstep) hb
    intro k e h
    rcases List.mem_append.mp h with h | h
    · exact hhead k e h
    · exact ih hrest hmid k e h

/-- While a worker moves, those created before it have ended. -/
theorem doneBelow_of_worker {s : System} {o : Option Owner} (hs : Ownership s o) {k : ℕ}
    {w : Worker} (hw : s.process.workers[k]? = some w) (hpc : w.pc ≠ .done) : s.DoneBelow k := by
  obtain rfl : o = some (.worker k) := (hs.owner_iff (.worker k)).mp ⟨w, hw, hpc⟩
  intro j hj
  have hk : k < s.process.workers.length := (List.getElem?_eq_some_iff.mp hw).1
  have hj' : j < s.process.workers.length := hj.trans hk
  refine ⟨_, List.getElem?_eq_getElem hj', ?_⟩
  by_contra hlive
  have howner := (hs.owner_iff (.worker j)).mp ⟨_, List.getElem?_eq_getElem hj', hlive⟩
  have hjk := Owner.worker.inj (Option.some.inj howner)
  omega

/-- Two outputs of workers come in the order in which the workers were created. -/
def Output.InOrder (x y : Output) : Prop :=
  ∀ j k e e', x = .worker j e → y = .worker k e' → j ≤ k

theorem outputs_in_order {s s' : System} {o : Option Owner} (hs : Ownership s o)
    {ls : List Label} {os : List Output} (hrun : server.run s ls = some (s', os)) :
    os.Pairwise Output.InOrder := by
  induction ls generalizing s o os with
  | nil =>
    obtain ⟨-, rfl⟩ := Prod.mk.inj (Option.some.inj hrun)
    exact List.Pairwise.nil
  | cons l ls ih =>
    obtain ⟨mid, head, os', hstep, hrest, rfl⟩ := Machine.run_cons_eq_some.mp hrun
    obtain ⟨actor, env⟩ := l
    have hm : SystemMove s env actor mid head := system_move hstep
    obtain ⟨o', ho', -⟩ := ownership_step hs hm
    have htail := ih ho' hrest
    refine List.pairwise_append.mpr ⟨?_, htail, ?_⟩
    · -- a step has at most one output of a worker
      cases hm with
      | call t c v ht => exact List.Pairwise.nil
      | thread t a k ht =>
        refine List.pairwise_map.mpr (List.pairwise_of_forall ?_)
        intro x y j k e e' hx
        cases hx
      | worker k args pc pc' e hw hmove => exact List.pairwise_singleton _ _
      | signal => exact List.Pairwise.nil
    · rintro x hx y hy j k e e' rfl rfl
      have hdone : mid.DoneBelow j := by
        cases hm with
        | call t c v ht => cases hx
        | thread t a k ht =>
          obtain ⟨z, -, hz⟩ := List.mem_map.mp hx
          cases hz
        | worker i args pc pc' e'' hw hmove =>
          obtain ⟨rfl, -⟩ := Output.worker.inj (List.mem_singleton.mp hx)
          have hpc : pc ≠ .done := by
            rintro rfl
            cases hmove
          have hbelow := doneBelow_of_worker hs hw hpc
          exact (doneBelow_step (.worker _ args pc pc' e'' hw hmove) hbelow).1
        | signal => cases hx
      exact doneBelow_run hrest hdone k e' hy

/-! ### A start is refused or goes through -/

/-- A call of `firing_sequence_start`, whatever follows it. -/
theorem firingSequenceStart_claims (client : Client) (config : FiringSequenceConfig)
    (m₁ m₂ m₃ : Option String) (f : Int → Server Int) (hn : config.numBlocks ≠ 0) :
    ∃ k, (firingSequenceStart client config m₁ m₂ m₃ >>= f) =
      Program.act (S := serverSig) .claimSequence k ∧ k false = f (-1) := by
  unfold firingSequenceStart
  rw [if_neg hn]
  exact ⟨_, rfl, rfl⟩

/-- A call that finds the flag set returns -1 and alters nothing. -/
theorem start_refused (s : System) (t : Thread) (env : Env) (client : Client)
    (config : FiringSequenceConfig) (m₁ m₂ m₃ : Option String) (f : Int → Server Int)
    (hn : config.numBlocks ≠ 0)
    (ht : s.threads t = firingSequenceStart client config m₁ m₂ m₃ >>= f)
    (hactive : s.app.sequenceActive = true) :
    server.step s ⟨.thread t, env⟩ =
      some ({ s with threads := Function.update s.threads t (f (-1)) }, []) := by
  obtain ⟨k, hk, hfalse⟩ := firingSequenceStart_claims client config m₁ m₂ m₃ f hn
  have hperform : perform s.process env .claimSequence = (s.process, false, []) := by
    simp only [perform, App.claimSequence, Process.setApp]
    rw [if_pos (show s.process.app.sequenceActive = true from hactive)]
  rw [hk] at ht
  simp only [server, System.step, ht, hperform, hfalse, List.map_nil]

theorem start_accepted {s s' : System} {o : Option Owner} (hs : Ownership s o) (t : Thread)
    (env : Env) (os : List Output) (client : Client) (config : FiringSequenceConfig)
    (m₁ m₂ m₃ : Option String) (f : Int → Server Int) (hn : config.numBlocks ≠ 0)
    (ht : s.threads t = firingSequenceStart client config m₁ m₂ m₃ >>= f)
    (hfree : s.app.sequenceActive = false)
    (hstep : server.step s ⟨.thread t, env⟩ = some (s', os)) : s'.IsOwner (.starter t) := by
  obtain ⟨k, hk, -⟩ := firingSequenceStart_claims client config m₁ m₂ m₃ f hn
  rw [hk] at ht
  obtain ⟨-, howned, -⟩ := ownership_claim hs env t k ht hfree
  have hs' : s' = s.afterAct t env .claimSequence k := by
    simp only [server, System.step, ht, Option.some.injEq, Prod.mk.injEq] at hstep
    exact hstep.1.symm
  rw [hs']
  exact (howned.owner_iff _).mpr rfl

/-! ### A starter does not keep the flag -/

/-- How many calls a starter has at most before it hands the flag over or releases it. -/
def StartPhase.rank : StartPhase → ℕ
  | .outside => 0
  | .failed => 1
  | .allocated => 2
  | .claimed => 3

/-- A starter's own step brings it nearer to the end of its start. -/
theorem rank_own_step {s : System} {o : Option Owner} (hs : Ownership s o) (t : Thread) (env : Env)
    (a : Act) (k : a.Answer → Server Int) (ht : s.threads t = Program.act (S := serverSig) a k)
    (hphase : phaseOf (s.threads t) ≠ .outside) :
    (phaseOf ((s.afterAct t env a k).threads t)).rank < (phaseOf (s.threads t)).rank := by
  have hf := hs.follows t
  rw [ht] at hf hphase ⊢
  simp only [System.afterAct, Function.update_self]
  cases a with
  | callocArgs =>
    rw [phaseOf_eq (hf.2 _ _ rfl)]
    show _ < StartPhase.claimed.rank
    split_ifs <;> decide
  | createWorker args =>
    rw [phaseOf_eq (hf.2 _ _ rfl)]
    show _ < StartPhase.allocated.rank
    split_ifs <;> decide
  | finishSequence =>
    rw [phaseOf_eq (hf.2 _ _ rfl)]
    show _ < StartPhase.failed.rank
    decide
  | _ => exact absurd rfl hphase

/-- The paths that fail: without memory or a thread the starter comes to its release,
and that clears both flags. -/
theorem failing_step {s s' : System} {o : Option Owner} (hs : Ownership s o) (t : Thread)
    (env : Env) (os : List Output) (hstep : server.step s ⟨.thread t, env⟩ = some (s', os)) :
    (phaseOf (s.threads t) = .claimed → env.alloc = false → phaseOf (s'.threads t) = .failed) ∧
    (phaseOf (s.threads t) = .allocated → env.thread = false →
      phaseOf (s'.threads t) = .failed) ∧
    (phaseOf (s.threads t) = .failed →
      s'.app.sequenceActive = false ∧ s'.app.sequenceAbort = false) := by
  have hm : SystemMove s env (.thread t) s' os := system_move hstep
  cases hm with
  | thread t a k ht =>
    have hf := hs.follows t
    rw [ht] at hf ⊢
    simp only [System.afterAct, Function.update_self]
    refine ⟨?_, ?_, ?_⟩
    · intro hphase halloc
      cases a <;> cases hphase
      rw [phaseOf_eq (hf.2 _ _ rfl)]
      exact if_neg (by simp [perform, halloc])
    · intro hphase hthread
      cases a <;> cases hphase
      rw [phaseOf_eq (hf.2 _ _ rfl)]
      exact if_neg (by simp [perform, hthread])
    · intro hphase
      cases a <;> cases hphase
      exact ⟨rfl, rfl⟩

def Label.isThread (t : Thread) (l : Label) : Bool :=
  match l.actor with
  | .thread u => u == t
  | _ => false

/-- The steps of others leave a thread where it is. -/
theorem threads_other_step {s s' : System} {l : Label} {os : List Output} (t : Thread)
    (hm : SystemMove s l.env l.actor s' os) (hl : l.isThread t = false)
    (hphase : phaseOf (s.threads t) ≠ .outside) : s'.threads t = s.threads t := by
  obtain ⟨actor, env⟩ := l
  cases hm with
  | call u c v hu =>
    have hne : t ≠ u := by
      rintro rfl
      rw [hu] at hphase
      exact hphase rfl
    exact Function.update_of_ne hne _ _
  | thread u a k hu =>
    have hne : t ≠ u := by
      rintro rfl
      simp [Label.isThread] at hl
    exact Function.update_of_ne hne _ _
  | worker k args pc mid e hw hmove => rfl
  | signal => rfl

/-- In every interleaving a starter that has taken `rank` steps no longer has the flag. -/
theorem starter_leaves {s s' : System} {o : Option Owner} (hs : Ownership s o) (t : Thread)
    {ls : List Label} {os : List Output} (hrun : server.run s ls = some (s', os))
    (hsteps : (phaseOf (s.threads t)).rank ≤ ls.countP (Label.isThread t)) :
    ∃ ls₁ ls₂ s₁ os₁, ls = ls₁ ++ ls₂ ∧ server.run s ls₁ = some (s₁, os₁) ∧
      ¬ s₁.IsOwner (.starter t) := by
  induction ls generalizing s o os with
  | nil =>
    refine ⟨[], [], s, [], rfl, rfl, ?_⟩
    intro howner
    refine howner ?_
    cases hp : phaseOf (s.threads t) <;> simp [hp, StartPhase.rank] at hsteps ⊢
  | cons l ls ih =>
    -- it is out already, or one step of its own takes it nearer and other steps leave it where it
    -- is
    by_cases hphase : phaseOf (s.threads t) = .outside
    · exact ⟨[], l :: ls, s, [], rfl, rfl, fun howner => howner hphase⟩
    · obtain ⟨mid, head, os', hstep, hrest, -⟩ := Machine.run_cons_eq_some.mp hrun
      have hm := system_move hstep
      obtain ⟨o', ho', -⟩ := ownership_step hs hm
      have hmid : (phaseOf (mid.threads t)).rank ≤ ls.countP (Label.isThread t) := by
        rw [List.countP_cons] at hsteps
        cases hl : l.isThread t with
        | false =>
          rw [threads_other_step t hm hl hphase]
          simpa only [hl, Bool.false_eq_true, if_false, Nat.add_zero] using hsteps
        | true =>
          obtain ⟨actor, env⟩ := l
          cases hm with
          | thread u a k hu =>
            obtain rfl : u = t := by simpa [Label.isThread] using hl
            have hlt := rank_own_step hs u env a k hu hphase
            rw [if_pos hl] at hsteps
            exact Nat.le_of_lt_succ (hlt.trans_le hsteps)
          | _ => cases hl
      obtain ⟨ls₁, ls₂, s₁, os₁, rfl, h₁, hleft⟩ := ih ho' hrest hmid
      refine ⟨l :: ls₁, ls₂, s₁, head ++ os₁, rfl, ?_, hleft⟩
      exact Machine.run_cons_eq_some.mpr ⟨mid, head, os₁, hstep, h₁, rfl⟩

/-! ### The law -/

/-- What every reachable state guarantees about `sequence_active`. -/
structure OneSequence (s : System) : Prop where
  active_iff : s.app.sequenceActive = true ↔ ∃! p, s.IsOwner p
  active_of_owner : ∀ p, s.IsOwner p → s.app.sequenceActive = true
  refused : ∀ t env client config m₁ m₂ m₃ f, config.numBlocks ≠ 0 →
    s.threads t = firingSequenceStart client config m₁ m₂ m₃ >>= f →
    s.app.sequenceActive = true → server.step s ⟨.thread t, env⟩ =
      some ({ s with threads := Function.update s.threads t (f (-1)) }, [])
  accepted : ∀ t env s' os client config m₁ m₂ m₃ f, config.numBlocks ≠ 0 →
    s.threads t = firingSequenceStart client config m₁ m₂ m₃ >>= f →
    s.app.sequenceActive = false → server.step s ⟨.thread t, env⟩ = some (s', os) →
      s'.IsOwner (.starter t)
  failing : ∀ t env s' os, server.step s ⟨.thread t, env⟩ = some (s', os) →
    (phaseOf (s.threads t) = .claimed → env.alloc = false → phaseOf (s'.threads t) = .failed) ∧
    (phaseOf (s.threads t) = .allocated → env.thread = false →
      phaseOf (s'.threads t) = .failed) ∧
    (phaseOf (s.threads t) = .failed →
      s'.app.sequenceActive = false ∧ s'.app.sequenceAbort = false)
  leaves : ∀ t ls s' os, server.run s ls = some (s', os) → 3 ≤ ls.countP (Label.isThread t) →
    ∃ ls₁ ls₂ s₁ os₁, ls = ls₁ ++ ls₂ ∧ server.run s ls₁ = some (s₁, os₁) ∧
      ¬ s₁.IsOwner (.starter t)

theorem oneSequence_of_ownership {s : System} {o : Option Owner} (hs : Ownership s o) :
    OneSequence s where
  active_iff := by
    rw [hs.active, Option.isSome_iff_exists]
    constructor
    · rintro ⟨p, rfl⟩
      refine ⟨p, (hs.owner_iff p).mpr rfl, ?_⟩
      intro q hq
      exact (Option.some.inj ((hs.owner_iff q).mp hq)).symm
    · rintro ⟨p, hp, -⟩
      exact ⟨p, (hs.owner_iff p).mp hp⟩
  active_of_owner p hp := by
    rw [hs.active, (hs.owner_iff p).mp hp]
    rfl
  refused t env client config m₁ m₂ m₃ f hn ht hactive :=
    start_refused s t env client config m₁ m₂ m₃ f hn ht hactive
  accepted t env s' os client config m₁ m₂ m₃ f hn ht hfree hstep :=
    start_accepted hs t env os client config m₁ m₂ m₃ f hn ht hfree hstep
  failing t env s' os hstep := failing_step hs t env os hstep
  leaves t ls s' os hrun hsteps := by
    refine starter_leaves hs t hrun (le_trans ?_ hsteps)
    cases phaseOf (s.threads t) <;> decide

/-- In every interleaving of any calls there is at most one firing sequence, its flag
has exactly one owner, and no start keeps the flag without a worker. -/
theorem one_sequence_at_a_time (config : AppConfig) (canFd : Int) :
    (∀ s, server.Reachable (System.initial config canFd) s → OneSequence s) ∧
    ∀ ls s os, server.run (System.initial config canFd) ls = some (s, os) →
      os.Pairwise Output.InOrder := by
  constructor
  · intro s hs
    obtain ⟨o, ho⟩ := ownership_reachable hs
    exact oneSequence_of_ownership ho
  · intro ls s os hrun
    exact outputs_in_order (ownership_initial config canFd) hrun

/-- A start without memory for its worker, from beginning to end. -/
theorem one_sequence_without_memory :
    let config : FiringSequenceConfig := { FiringSequenceConfig.zero with numBlocks := 1 }
    let start : Label :=
      ⟨.call (.handler 0) (.startSequence 0 config none none none), ⟨0, fun _ => none, true, true⟩⟩
    let own : Label := ⟨.thread (.handler 0), ⟨0, fun _ => none, false, true⟩⟩
    ∃ s os, server.run (System.initial ⟨false, false⟩ 3) [start, own, own, own] = some (s, os) ∧
      s.app.sequenceActive = false ∧ OneSequence s := by
  intro config start own
  have hfacts : (server.run (System.initial ⟨false, false⟩ 3) [start, own, own, own]).map
      (fun r => r.1.app.sequenceActive) = some false := by decide
  obtain ⟨⟨s, os⟩, hrun, hactive⟩ := Option.map_eq_some_iff.mp hfacts
  exact ⟨s, os, hrun, hactive, (one_sequence_at_a_time ⟨false, false⟩ 3).1 s ⟨_, os, hrun⟩⟩

end WsServer
