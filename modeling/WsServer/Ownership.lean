import WsServer.SystemStep

/-! Who holds `sequence_active`: a thread behind the test-and-set of
`firing_sequence_start`, or the worker that this thread has created. -/
namespace WsServer
open Interaction Program

/-- Where a thread is in `firing_sequence_start`: not behind its test-and-set, behind
it, behind the allocation as well, or on a path that fails. -/
inductive StartPhase where
  | outside
  | claimed
  | allocated
  | failed
  deriving DecidableEq, Repr

/-- The order of the calls in `firing_sequence_start`, with nothing else in between. -/
def ownership : Protocol serverSig StartPhase where
  allowed g
    | .callocArgs => g = .claimed
    | .createWorker _ => g = .allocated
    | .finishSequence => g = .failed
    | _ => g = .outside
  after g
    | .claimSequence, claimed => some (if claimed then .claimed else .outside)
    | .callocArgs, allocated => some (if allocated then .allocated else .failed)
    | .createWorker _, created => some (if created then .outside else .failed)
    | .finishSequence, _ => some .outside
    | _, _ => some g

/-- The program ends, as it begins, without the flag. -/
abbrev Balanced {β : Type} (p : Server β) : Prop :=
  Follows ownership .outside p (fun _ g => g = .outside)

theorem Balanced.bind {β β' : Type} {p : Server β} {f : β → Server β'} (hp : Balanced p)
    (hf : ∀ v, Balanced (f v)) : Balanced (p >>= f) := by
  refine Follows.bind hp ?_
  intro v g hg
  rw [hg]
  exact hf v

theorem balanced_of_performs {β : Type} {p : Server β} (h : Performs Act.NoSequence p) :
    Balanced p := by
  refine h.follows ownership .outside ?_
  intro a ha
  cases a with
  | claimSequence => exact absurd trivial ha
  | callocArgs => exact absurd trivial ha
  | createWorker args => exact absurd trivial ha
  | finishSequence => exact absurd trivial ha
  | _ => exact ⟨rfl, fun _ _ hg => (Option.some.inj hg).symm⟩

theorem balanced_plain {β : Type} {p : Server β} (h : Performs Act.Plain p) : Balanced p :=
  balanced_of_performs (h.mono (fun _ ha => ha.1))

theorem balanced_firingSequenceStart (client : Client) (config : FiringSequenceConfig)
    (startedMessage completedMessage failedMessage : Option String) :
    Balanced (firingSequenceStart client config startedMessage completedMessage
      failedMessage) := by
  have hrelease : Follows ownership .failed
      (do act .finishSequence; pure (-1) : Server Int) (fun _ g => g = .outside) := by
    refine ⟨rfl, ?_⟩
    intro _ g hg
    exact (Option.some.inj hg).symm
  unfold firingSequenceStart
  split_ifs
  · rfl
  refine ⟨rfl, ?_⟩
  intro claimed g hg
  obtain rfl := Option.some.inj hg
  cases claimed
  · rfl
  refine ⟨rfl, ?_⟩
  intro allocated g hg
  obtain rfl := Option.some.inj hg
  cases allocated
  · exact hrelease
  refine ⟨rfl, ?_⟩
  intro created g hg
  obtain rfl := Option.some.inj hg
  cases created
  · exact hrelease
  · rfl

theorem balanced_firingSequenceStartDrown (client : Client) :
    Balanced (firingSequenceStartDrown client) := by
  refine Balanced.bind (balanced_of_performs (performs_single id)) (fun checked => ?_)
  split_ifs
  · rfl
  · exact Balanced.bind (balanced_of_performs (performs_single id))
      (fun profile => balanced_firingSequenceStart client _ _ _ _)

theorem balanced_handleDrown (client : Client) (text : CText) :
    Balanced (handleDrown client text) := by
  unfold handleDrown
  split_ifs
  · rfl
  refine (balanced_firingSequenceStartDrown client).bind (fun rc => ?_)
  split_ifs
  · exact balanced_plain (performs_reply_then client _ true)
  · rfl

theorem balanced_handleFire (client : Client) (text : CText) :
    Balanced (handleFire client text) := by
  unfold handleFire
  split_ifs
  · rfl
  refine Balanced.bind (balanced_of_performs (performs_single id)) (fun strdupOk => ?_)
  cases firingSequenceParse strdupOk text with
  | none => exact balanced_plain (performs_reply_then client _ true)
  | some config =>
    refine (balanced_firingSequenceStart client config _ _ _).bind (fun rc => ?_)
    split_ifs
    · exact balanced_plain (performs_reply_then client _ true)
    · rfl

theorem balanced_hotfireHandlers (client : Client) (normalized : CText) :
    Balanced (hotfireHandlers client normalized) := by
  refine Balanced.bind (balanced_of_performs (performs_single id)) (fun state => ?_)
  split_ifs
  · exact balanced_plain (performs_sendReply client _)
  refine (balanced_handleDrown client normalized).bind (fun drown => ?_)
  split_ifs
  · rfl
  refine (balanced_handleFire client normalized).bind (fun fire => ?_)
  split_ifs
  · rfl
  refine (balanced_plain (performs_handleRawCan client normalized)).bind (fun raw => ?_)
  split_ifs
  · rfl
  · exact balanced_plain (performs_sendReply client _)

theorem balanced_copyHandlers (client : Client) (normalized : CText) :
    Balanced (copyHandlers client normalized) := by
  refine Balanced.bind (balanced_of_performs (performs_single id)) (fun copied => ?_)
  split_ifs
  · exact balanced_plain (performs_sendReply client _)
  refine (balanced_plain (performs_handleWiggleStop client normalized)).bind (fun stopped => ?_)
  split_ifs
  · rfl
  refine (balanced_of_performs (performs_handleWiggle client normalized)).bind (fun wiggle => ?_)
  split_ifs
  · rfl
  · exact balanced_hotfireHandlers client normalized

theorem balanced_commandHandleText (config : AppConfig) (client : Client) (text : CText) :
    Balanced (commandHandleText config client text) := by
  refine (balanced_plain (performs_handleReadToggle client text)).bind (fun toggled => ?_)
  dsimp only
  split_ifs
  · rfl
  · exact balanced_plain (performs_handleTestingCommand client _)
  · exact balanced_plain (performs_sendReply client _)
  refine (balanced_plain (performs_handleAbort client _)).bind (fun abort => ?_)
  split_ifs
  · rfl
  refine (balanced_of_performs (performs_handleStateCommand client _)).bind (fun state => ?_)
  split_ifs
  · rfl
  refine (balanced_plain (performs_handleSetValve client _)).bind (fun setValve => ?_)
  split_ifs
  · rfl
  · exact balanced_copyHandlers client _

/-- Whatever a thread calls gives the flag back, or leaves it to a worker. -/
theorem balanced_call (config : AppConfig) (c : Call) : Balanced (c.program config) := by
  have hzero {p : Server Unit} (h : Balanced p) : Balanced (do p; pure 0 : Server Int) :=
    h.bind (fun _ => rfl)
  cases c with
  | connect client => exact hzero (balanced_of_performs (performs_onConnect client))
  | disconnect client => exact hzero (balanced_of_performs (performs_single id))
  | message client payload =>
    refine hzero (Balanced.bind (balanced_of_performs (performs_single id)) (fun copied => ?_))
    split_ifs
    · exact balanced_of_performs (performs_single id)
    · exact Balanced.bind (balanced_of_performs (performs_single id))
        (fun _ => balanced_commandHandleText config client _)
  | startSequence client blocks started completed failed =>
    exact balanced_firingSequenceStart client blocks started completed failed
  | startDrown client => exact balanced_firingSequenceStartDrown client
  | requestAbort => exact hzero (balanced_of_performs (performs_single id))
  | tick => exact hzero (balanced_of_performs (performs_single id))

/-! ### Owners -/

/-- The place of a thread in `firing_sequence_start` shows in its next action. -/
def phaseOf : Server Int → StartPhase
  | .act .callocArgs _ => .claimed
  | .act (.createWorker _) _ => .allocated
  | .act .finishSequence _ => .failed
  | _ => .outside

theorem phaseOf_eq {g : StartPhase} {p : Server Int}
    (h : Follows ownership g p (fun _ g => g = .outside)) : phaseOf p = g := by
  cases p with
  | ret v => exact Eq.symm h
  | act a k => cases a <;> exact Eq.symm h.1

inductive Owner where
  | starter (t : Thread)
  | worker (k : ℕ)
  deriving DecidableEq, Repr

/-- A starter behind its test-and-set, or a worker that has not run `finish_sequence`. -/
def System.IsOwner (s : System) : Owner → Prop
  | .starter t => phaseOf (s.threads t) ≠ .outside
  | .worker k => ∃ w, s.process.workers[k]? = some w ∧ w.pc ≠ .done

/-- `o` is the one owner, or there is none, and the flag says which. -/
structure Ownership (s : System) (o : Option Owner) : Prop where
  follows : ∀ t, Follows ownership (phaseOf (s.threads t)) (s.threads t)
    (fun _ g => g = .outside)
  owner_iff : ∀ p, s.IsOwner p ↔ o = some p
  active : s.app.sequenceActive = o.isSome

theorem ownership_initial (config : AppConfig) (canFd : Int) :
    Ownership (System.initial config canFd) none where
  follows _ := rfl
  owner_iff p := by
    cases p with
    | starter t => simp [System.IsOwner, System.initial, phaseOf]
    | worker k => simp [System.IsOwner, System.initial]
  active := rfl

/-- The step takes the flag. -/
def System.Claims (s : System) (actor : Actor) : Prop :=
  s.action actor = some .claimSequence ∧ s.app.sequenceActive = false

/-- The step gives the flag back. -/
def System.Releases (s : System) : Actor → Prop
  | .worker k => ∃ w, s.process.workers[k]? = some w ∧ w.pc = .finish
  | actor => s.action actor = some .finishSequence

def Act.isClaim : Act → Bool
  | .claimSequence => true
  | _ => false

def Act.isFinish : Act → Bool
  | .finishSequence => true
  | _ => false

instance (s : System) (actor : Actor) : Decidable (s.Claims actor) :=
  decidable_of_iff ((s.action actor).any Act.isClaim = true ∧ s.app.sequenceActive = false) <| by
    refine and_congr_left (fun _ => ?_)
    rw [Option.any_eq_true]
    constructor
    · rintro ⟨a, ha, h⟩
      cases a <;> first | exact ha | cases h
    · intro h
      exact ⟨_, h, rfl⟩

instance (s : System) : DecidablePred s.Releases
  | .worker k => decidable_of_iff
      ((s.process.workers[k]?).any (fun w => w.pc = .finish) = true) <| by
        simp [System.Releases, Option.any_eq_true]
  | .thread t => decidable_of_iff ((s.action (.thread t)).any Act.isFinish = true) <| by
      simp only [Option.any_eq_true, System.Releases]
      constructor
      · rintro ⟨a, ha, h⟩
        cases a <;> first | exact ha | cases h
      · intro h
        exact ⟨_, h, rfl⟩
  | .call _ _ => isFalse (fun h => nomatch h)
  | .signal => isFalse (fun h => nomatch h)

def System.requestsAbort (s : System) (actor : Actor) : Bool :=
  match s.action actor with
  | some .requestAbort => true
  | _ => false

/-- A step within a sequence, or outside of any: the abort flag is as it was, unless
the step requests the abort. -/
structure WithinSequence (s s' : System) (actor : Actor) : Prop where
  claims : ¬ s.Claims actor
  releases : ¬ s.Releases actor
  abort : s'.app.sequenceAbort = (s.app.sequenceAbort || s.requestsAbort actor)

/-- What a step does to the owner. -/
inductive OwnerStep (s s' : System) : Actor → Option Owner → Option Owner → Prop where
  | keep (actor : Actor) (o : Option Owner) (h : WithinSequence s s' actor)
      (hworkers : s'.process.workers.length = s.process.workers.length) :
      OwnerStep s s' actor o o
  | claim (t : Thread) (h : s.Claims (.thread t)) (habort : s'.app.sequenceAbort = false)
      (hworkers : s'.process.workers.length = s.process.workers.length) :
      OwnerStep s s' (.thread t) none (some (.starter t))
  | handOver (t : Thread) (h : WithinSequence s s' (.thread t)) :
      OwnerStep s s' (.thread t) (some (.starter t))
        (some (.worker s.process.workers.length))
  | giveUp (t : Thread) (h : s.Releases (.thread t)) (habort : s'.app.sequenceAbort = false) :
      OwnerStep s s' (.thread t) (some (.starter t)) none
  | finish (k : ℕ) (h : s.Releases (.worker k)) (habort : s'.app.sequenceAbort = false) :
      OwnerStep s s' (.worker k) (some (.worker k)) none

/-! ### Threads -/

theorem update_follows {s : System} {o : Option Owner} (hs : Ownership s o) (t : Thread)
    {p : Server Int} {g : StartPhase} (hp : Follows ownership g p (fun _ g => g = .outside))
    (u : Thread) : Follows ownership (phaseOf (Function.update s.threads t p u))
      (Function.update s.threads t p u) (fun _ g => g = .outside) := by
  by_cases hu : u = t
  · rw [hu, Function.update_self, phaseOf_eq hp]
    exact hp
  · rw [Function.update_of_ne hu]
    exact hs.follows u

theorem phaseOf_update {s : System} (t : Thread) {p : Server Int} {g : StartPhase}
    (hp : Follows ownership g p (fun _ g => g = .outside)) (u : Thread) :
    phaseOf (Function.update s.threads t p u) = if u = t then g else phaseOf (s.threads u) := by
  by_cases hu : u = t
  · rw [hu, Function.update_self, phaseOf_eq hp, if_pos rfl]
  · rw [Function.update_of_ne hu, if_neg hu]

/-- A step that changes no owner and not the flag keeps the ownership. -/
theorem Ownership.keep {s s' : System} {o : Option Owner} (hs : Ownership s o)
    (hfollows : ∀ t, Follows ownership (phaseOf (s'.threads t)) (s'.threads t)
      (fun _ g => g = .outside))
    (hphase : ∀ t, phaseOf (s'.threads t) = .outside ↔ phaseOf (s.threads t) = .outside)
    (hworkers : ∀ k, s'.IsOwner (.worker k) ↔ s.IsOwner (.worker k))
    (hactive : s'.app.sequenceActive = s.app.sequenceActive) : Ownership s' o where
  follows := hfollows
  owner_iff p := by
    cases p with
    | starter t => exact (not_congr (hphase t)).trans (hs.owner_iff (.starter t))
    | worker k => exact (hworkers k).trans (hs.owner_iff (.worker k))
  active := hactive.trans hs.active

theorem isOwner_worker_congr {s s' : System} (h : s'.process.workers = s.process.workers) (k : ℕ) :
    s'.IsOwner (.worker k) ↔ s.IsOwner (.worker k) := by
  simp only [System.IsOwner, h]

/-- A thread that is where it was with respect to the flag changes no owner. -/
theorem phase_update_iff {s : System} (t : Thread) {p : Server Int} {g : StartPhase}
    (hp : Follows ownership g p (fun _ g => g = .outside))
    (hg : g = .outside ↔ phaseOf (s.threads t) = .outside) (u : Thread) :
    phaseOf (Function.update s.threads t p u) = .outside ↔ phaseOf (s.threads u) = .outside := by
  rw [phaseOf_update t hp u]
  split_ifs with hu
  · rw [hu]
    exact hg
  · exact Iff.rfl

theorem follows_noSequence {a : Act} {k : a.Answer → Server Int} {g : StartPhase}
    (h : Follows ownership g (Program.act (S := serverSig) a k) (fun _ g => g = .outside))
    (ha : a.NoSequence) :
    g = .outside ∧ ∀ r, Follows ownership .outside (k r) (fun _ g => g = .outside) := by
  obtain ⟨hallowed, hnext⟩ := h
  cases a with
  | claimSequence => exact absurd trivial ha
  | callocArgs => exact absurd trivial ha
  | createWorker args => exact absurd trivial ha
  | finishSequence => exact absurd trivial ha
  | _ =>
    obtain rfl : g = .outside := hallowed
    exact ⟨rfl, fun r => hnext r .outside rfl⟩

theorem owner_of_phase {s : System} {o : Option Owner} (hs : Ownership s o) {t : Thread}
    (h : phaseOf (s.threads t) ≠ .outside) : o = some (.starter t) :=
  (hs.owner_iff (.starter t)).mp h

/-- A claim that finds the flag clear makes its thread the owner. -/
theorem ownership_claim {s : System} {o : Option Owner} (hs : Ownership s o) (env : Env)
    (t : Thread) (k : Bool → Server Int)
    (ht : s.threads t = Program.act (S := serverSig) .claimSequence k)
    (hfree : s.app.sequenceActive = false) :
    o = none ∧ Ownership (s.afterAct t env .claimSequence k) (some (.starter t)) ∧
      (s.afterAct t env .claimSequence k).app.sequenceAbort = false := by
  have hf := hs.follows t
  rw [ht] at hf
  have hperform : perform s.process env .claimSequence =
      (s.process.setApp { s.app with sequenceActive := true, sequenceAbort := false },
        true, []) := by
    simp only [perform, App.claimSequence]
    rw [if_neg (show ¬ s.process.app.sequenceActive = true by
      rw [show s.process.app.sequenceActive = false from hfree]; decide)]
    rfl
  have hnext : Follows ownership .claimed (k true) (fun _ g => g = .outside) :=
    hf.2 true .claimed rfl
  -- the flag was clear, so nobody owned the sequence
  have hnone : o = none := by
    rw [← Option.isNone_iff_eq_none, ← Option.not_isSome, ← hs.active, hfree]
    rfl
  simp only [System.afterAct, hperform]
  refine ⟨hnone, ⟨update_follows hs t hnext, ?_, rfl⟩, rfl⟩
  intro p
  -- the thread that claims is the owner from now on, and the only one
  cases p with
  | starter u =>
    simp only [System.IsOwner, phaseOf_update t hnext]
    split_ifs with hu
    · simp [hu]
    · have hold := hs.owner_iff (.starter u)
      rw [hnone] at hold
      simpa [Ne.symm hu, System.IsOwner] using hold
  | worker j =>
    have hold := hs.owner_iff (.worker j)
    rw [hnone] at hold
    refine Iff.trans (isOwner_worker_congr (s := s) rfl j) ?_
    simpa using hold

/-- An action of the owner that keeps it the owner. -/
theorem ownership_stay {s : System} {o : Option Owner} (hs : Ownership s o) (t : Thread)
    {p : Server Int} {g : StartPhase} (hphase : phaseOf (s.threads t) ≠ .outside)
    (hp : Follows ownership g p (fun _ g => g = .outside)) (hg : g ≠ .outside) :
    Ownership ⟨s.process, Function.update s.threads t p⟩ o := by
  refine hs.keep (update_follows hs t hp) ?_ (fun k => Iff.rfl) rfl
  exact phase_update_iff t hp (iff_of_false hg hphase)

/-- A created worker takes the flag over from its starter. -/
theorem ownership_handOver {s : System} (t : Thread) {p : Server Int} (args : SequenceWorkerArgs)
    (hs : Ownership s (some (.starter t)))
    (hp : Follows ownership .outside p (fun _ g => g = .outside)) :
    Ownership
      ⟨{ s.process with workers := s.process.workers ++ [⟨args, .sendStarted⟩] },
        Function.update s.threads t p⟩
      (some (.worker s.process.workers.length)) := by
  refine ⟨update_follows hs t hp, ?_, hs.active⟩
  intro q
  cases q with
  | starter u =>
    simp only [System.IsOwner, phaseOf_update t hp]
    split_ifs with hu
    · simp
    · have hold := hs.owner_iff (.starter u)
      simpa [Ne.symm hu, System.IsOwner] using hold
  | worker j =>
    have hold : ¬ s.IsOwner (.worker j) := by
      rw [hs.owner_iff]
      simp
    simp only [System.IsOwner, Option.some.injEq, Owner.worker.injEq]
    constructor
    · rintro ⟨w, hw, hpc⟩
      by_contra hj
      rw [List.getElem?_append] at hw
      split_ifs at hw with hlt
      · exact hold ⟨w, hw, hpc⟩
      · rw [List.getElem?_eq_none] at hw
        · cases hw
        · simp only [List.length_singleton]
          omega
    · rintro rfl
      exact ⟨⟨args, .sendStarted⟩, by simp, by simp⟩

/-- `finish_sequence` leaves no owner. -/
theorem ownership_release {s s' : System} {p : Owner} (hs : Ownership s (some p))
    (hfollows : ∀ t, Follows ownership (phaseOf (s'.threads t)) (s'.threads t)
      (fun _ g => g = .outside))
    (hactive : s'.app.sequenceActive = false) (hp : ¬ s'.IsOwner p)
    (hrest : ∀ q, q ≠ p → (s'.IsOwner q ↔ s.IsOwner q)) : Ownership s' none := by
  refine ⟨hfollows, ?_, hactive⟩
  intro q
  refine iff_of_false ?_ (fun h => nomatch h)
  by_cases hq : q = p
  · exact hq ▸ hp
  · rw [hrest q hq, hs.owner_iff]
    intro h
    exact hq (Option.some.inj h).symm

/-- A step that performs no action of a program. -/
theorem withinSequence_idle {s s' : System} {actor : Actor} (haction : s.action actor = none)
    (hrelease : ¬ s.Releases actor) (habort : s'.app.sequenceAbort = s.app.sequenceAbort) :
    WithinSequence s s' actor := by
  have hrequest : s.requestsAbort actor = false := by simp only [System.requestsAbort, haction]
  refine ⟨?_, hrelease, ?_⟩
  · rintro ⟨h, -⟩
    cases haction.symm.trans h
  · rw [habort, hrequest, Bool.or_false]

/-- An action of a thread that neither claims nor releases. -/
theorem withinSequence_thread {s : System} {t : Thread} {env : Env} {a : Act}
    {k : a.Answer → Server Int} (ht : s.threads t = Program.act (S := serverSig) a k)
    (hclaim : a ≠ .claimSequence) (hfinish : a ≠ .finishSequence) :
    WithinSequence s (s.afterAct t env a k) (.thread t) := by
  have haction : s.action (.thread t) = some a := action_of_thread ht
  refine ⟨fun hc => hclaim (Option.some.inj (haction.symm.trans hc.1)),
    fun hr => hfinish (Option.some.inj (haction.symm.trans hr)), ?_⟩
  by_cases ha : a = .requestAbort
  · subst ha
    simp only [System.requestsAbort, haction, Bool.or_true]
    rfl
  · have hrequest : s.requestsAbort (.thread t) = false := by
      simp only [System.requestsAbort, haction]
      split
      · rename_i h
        exact absurd (Option.some.inj h) ha
      · rfl
    rw [hrequest, Bool.or_false]
    exact perform_sequenceAbort s.process env a ha hclaim hfinish

/-- An action outside `firing_sequence_start` leaves the owner and the flag alone. -/
theorem ownership_plain {s : System} {o : Option Owner} (hs : Ownership s o) (env : Env)
    (t : Thread) (a : Act) (k : a.Answer → Server Int)
    (ht : s.threads t = Program.act (S := serverSig) a k) (ha : a.NoSequence) :
    Ownership (s.afterAct t env a k) o ∧
      OwnerStep s (s.afterAct t env a k) (.thread t) o o := by
  have hf := hs.follows t
  rw [ht] at hf
  obtain ⟨hg, hnext⟩ := follows_noSequence hf ha
  have hsame := perform_sameSequence s.process env a ha
  have hclaim : a ≠ .claimSequence := by
    rintro rfl
    exact ha trivial
  have hfinish : a ≠ .finishSequence := by
    rintro rfl
    exact ha trivial
  refine ⟨hs.keep (update_follows hs t (hnext _)) ?_ (isOwner_worker_congr hsame.workers)
    hsame.active, .keep _ o (withinSequence_thread ht hclaim hfinish)
      (congrArg List.length hsame.workers)⟩
  refine phase_update_iff t (hnext _) ?_
  rw [ht, hg]

/-- A claim that finds the flag set is refused and changes nothing. -/
theorem ownership_refused {s : System} {o : Option Owner} (hs : Ownership s o) (env : Env)
    (t : Thread) (k : Bool → Server Int)
    (ht : s.threads t = Program.act (S := serverSig) .claimSequence k)
    (hactive : s.app.sequenceActive = true) :
    Ownership (s.afterAct t env .claimSequence k) o ∧
      OwnerStep s (s.afterAct t env .claimSequence k) (.thread t) o o := by
  have haction : s.action (.thread t) = some .claimSequence := action_of_thread ht
  have hf := hs.follows t
  rw [ht] at hf
  have hperform : perform s.process env .claimSequence = (s.process, false, []) := by
    simp only [perform, App.claimSequence, Process.setApp]
    rw [if_pos (show s.process.app.sequenceActive = true from hactive)]
  have hnext : Follows ownership .outside (k false) (fun _ g => g = .outside) :=
    hf.2 false .outside rfl
  have hrequest : s.requestsAbort (.thread t) = false := by
    simp only [System.requestsAbort, haction]
  simp only [System.afterAct, hperform]
  refine ⟨hs.keep (update_follows hs t hnext) ?_ (fun k => Iff.rfl) rfl,
    .keep _ o ⟨?_, ?_, ?_⟩ rfl⟩
  · refine phase_update_iff t hnext ?_
    rw [ht]
    rfl
  · intro hc
    exact Bool.false_ne_true (hc.2.symm.trans hactive)
  · intro hr
    cases haction.symm.trans hr
  · rw [hrequest, Bool.or_false]
    rfl

/-- The creation of a worker hands the flag over to it, or fails and keeps it. -/
theorem ownership_createWorker {s : System} (t : Thread) (hs : Ownership s (some (.starter t)))
    (env : Env) (args : SequenceWorkerArgs) (k : Bool → Server Int)
    (ht : s.threads t = Program.act (S := serverSig) (.createWorker args) k) :
    ∃ o', Ownership (s.afterAct t env (.createWorker args) k) o' ∧
      OwnerStep s (s.afterAct t env (.createWorker args) k) (.thread t) (some (.starter t)) o' := by
  have hf := hs.follows t
  rw [ht] at hf
  have hwithin : WithinSequence s (s.afterAct t env (.createWorker args) k) (.thread t) :=
    withinSequence_thread ht (by simp) (by simp)
  cases hthread : env.thread with
  | true =>
    have hperform : perform s.process env (.createWorker args) =
        ({ s.process with workers := s.process.workers ++ [⟨args, .sendStarted⟩] },
          true, []) := by
      simp only [perform, hthread, if_true]
    simp only [System.afterAct, hperform] at hwithin ⊢
    exact ⟨_, ownership_handOver t args hs (hf.2 true _ rfl), .handOver t hwithin⟩
  | false =>
    have hperform : perform s.process env (.createWorker args) = (s.process, false, []) := by
      simp only [perform, hthread, Bool.false_eq_true, if_false]
    have hphase : phaseOf (s.threads t) ≠ .outside := by
      rw [ht]
      exact StartPhase.noConfusion
    simp only [System.afterAct, hperform] at hwithin ⊢
    exact ⟨_, ownership_stay hs t hphase (hf.2 false _ rfl) (by decide), .keep _ _ hwithin rfl⟩

/-- A starter that fails gives the flag back. -/
theorem ownership_giveUp {s : System} (t : Thread) (hs : Ownership s (some (.starter t)))
    (env : Env) (k : Unit → Server Int)
    (ht : s.threads t = Program.act (S := serverSig) .finishSequence k) :
    Ownership (s.afterAct t env .finishSequence k) none ∧
      OwnerStep s (s.afterAct t env .finishSequence k) (.thread t) (some (.starter t)) none := by
  have haction : s.action (.thread t) = some .finishSequence := action_of_thread ht
  have hf := hs.follows t
  rw [ht] at hf
  have hnext : Follows ownership .outside (k ()) (fun _ g => g = .outside) :=
    hf.2 () .outside rfl
  refine ⟨ownership_release hs (update_follows hs t hnext) rfl ?_ ?_, .giveUp t haction rfl⟩
  · simp [System.IsOwner, System.afterAct, perform, phaseOf_eq hnext]
  · intro q hq
    cases q with
    | starter u =>
      have hu : u ≠ t := fun h => hq (congrArg Owner.starter h)
      simp only [System.IsOwner, System.afterAct, Function.update_of_ne hu]
    | worker j => exact isOwner_worker_congr rfl j

/-- An action of a thread: the flag and the owner go together. -/
theorem ownership_thread {s : System} {o : Option Owner} (hs : Ownership s o) (env : Env)
    (t : Thread) (a : Act) (k : a.Answer → Server Int)
    (ht : s.threads t = Program.act (S := serverSig) a k) :
    ∃ o', Ownership (s.afterAct t env a k) o' ∧
      OwnerStep s (s.afterAct t env a k) (.thread t) o o' := by
  by_cases ha : a.NoSequence
  · exact ⟨o, ownership_plain hs env t a k ht ha⟩
  -- the four actions of `firing_sequence_start`; behind the claim the thread is the owner
  have howner (h : phaseOf (s.threads t) ≠ .outside) : o = some (.starter t) :=
    owner_of_phase hs h
  rw [ht] at howner
  cases a with
  | claimSequence =>
    cases hactive : s.app.sequenceActive with
    | true => exact ⟨o, ownership_refused hs env t k ht hactive⟩
    | false =>
      have haction : s.action (.thread t) = some .claimSequence := action_of_thread ht
      obtain ⟨rfl, howned, habort⟩ := ownership_claim hs env t k ht hactive
      refine ⟨_, howned, .claim t ⟨haction, hactive⟩ habort ?_⟩
      simp only [System.afterAct, perform, Process.setApp]
  | callocArgs =>
    have hphase : phaseOf (s.threads t) ≠ .outside := by
      rw [ht]
      exact StartPhase.noConfusion
    have hf := hs.follows t
    rw [ht] at hf
    refine ⟨o, ownership_stay hs t hphase (hf.2 env.alloc _ rfl) ?_,
      .keep _ o (withinSequence_thread ht (by simp) (by simp)) rfl⟩
    split_ifs <;> decide
  | createWorker args =>
    obtain rfl := howner StartPhase.noConfusion
    exact ownership_createWorker t hs env args k ht
  | finishSequence =>
    obtain rfl := howner StartPhase.noConfusion
    exact ⟨none, ownership_giveUp t hs env k ht⟩
  | _ => exact absurd id ha

/-- A step of a worker: only `finish_sequence` changes the owner. -/
theorem ownership_worker {s : System} {o : Option Owner} (hs : Ownership s o) (env : Env)
    (k : ℕ) (args : SequenceWorkerArgs) (pc mid : WorkerPc) (e : WorkerEvent)
    (hw : s.process.workers[k]? = some ⟨args, pc⟩)
    (hm : WorkerMove args (workerInput s.app env) pc mid e) :
    ∃ o', Ownership (s.afterWorker k args mid e) o' ∧
      OwnerStep s (s.afterWorker k args mid e) (.worker k) o o' := by
  have hpc : pc ≠ .done := by
    rintro rfl
    cases hm
  obtain rfl : o = some (.worker k) := (hs.owner_iff (.worker k)).mp ⟨_, hw, hpc⟩
  have hlt : k < s.process.workers.length := (List.getElem?_eq_some_iff.mp hw).1
  have hself (p : WorkerPc) : (s.process.workers.set k ⟨args, p⟩)[k]? = some ⟨args, p⟩ := by
    rw [List.getElem?_set_self hlt]
  by_cases hfin : pc = .finish
  · subst hfin
    cases hm
    refine ⟨none, ownership_release hs hs.follows rfl ?_ ?_, .finish k ⟨_, hw, rfl⟩ rfl⟩
    · rintro ⟨w, hw', hdone⟩
      obtain rfl := Option.some.inj ((hself .done).symm.trans hw')
      exact hdone rfl
    · intro q hq
      cases q with
      | starter u => exact Iff.rfl
      | worker j =>
        have hj : k ≠ j := fun h => hq (congrArg Owner.worker h.symm)
        simp only [System.IsOwner, System.afterWorker, List.getElem?_set_ne hj]
  · have hmid : mid ≠ .done := fun h => hfin (hm.to_done h).1
    have happ : s.app.afterWorker e = s.app := by
      cases hm with
      | finished => exact absurd rfl hfin
      | _ => rfl
    have hrelease : ¬ s.Releases (.worker k) := by
      rintro ⟨w, hw', hpc'⟩
      obtain rfl := Option.some.inj (hw.symm.trans hw')
      exact hfin hpc'
    refine ⟨_, hs.keep hs.follows (fun t => Iff.rfl) ?_ (congrArg App.sequenceActive happ),
      .keep _ _ (withinSequence_idle rfl hrelease (congrArg App.sequenceAbort happ))
        List.length_set⟩
    intro j
    by_cases hj : k = j
    · subst hj
      exact iff_of_true ⟨_, hself mid, hmid⟩ ⟨_, hw, hpc⟩
    · simp only [System.IsOwner, System.afterWorker, List.getElem?_set_ne hj]

/-- The step lemma of the ownership: every move keeps it, and changes the owner only by
a claim, a hand-over or a release. -/
theorem ownership_step {s s' : System} {o : Option Owner} (hs : Ownership s o) {env : Env}
    {actor : Actor} {os : List Output} (hm : SystemMove s env actor s' os) :
    ∃ o', Ownership s' o' ∧ OwnerStep s s' actor o o' := by
  cases hm with
  | call t c v ht =>
    have hphase : phaseOf (s.threads t) = .outside := by rw [ht]; rfl
    have hnext := balanced_call s.app.config c
    refine ⟨o, hs.keep (update_follows hs t hnext) ?_ (fun k => Iff.rfl) rfl,
      .keep _ o (withinSequence_idle rfl (fun h => nomatch h) rfl) rfl⟩
    exact phase_update_iff t hnext (iff_of_true rfl hphase)
  | thread t a k ht => exact ownership_thread hs env t a k ht
  | worker k args pc mid e hw hmove => exact ownership_worker hs env k args pc mid e hw hmove
  | signal =>
    exact ⟨o, hs.keep hs.follows (fun t => Iff.rfl) (fun k => Iff.rfl) rfl,
      .keep _ o (withinSequence_idle rfl (fun h => nomatch h) rfl) rfl⟩

theorem ownership_reachable {config : AppConfig} {canFd : Int} {s : System}
    (h : server.Reachable (System.initial config canFd) s) : ∃ o, Ownership s o := by
  refine h.invariant (I := fun s => ∃ o, Ownership s o) ⟨none, ownership_initial config canFd⟩ ?_
  intro s l x hs hstep
  obtain ⟨o, ho⟩ := hs
  obtain ⟨o', ho', -⟩ := ownership_step ho (system_move hstep)
  exact ⟨o', ho'⟩

end WsServer
