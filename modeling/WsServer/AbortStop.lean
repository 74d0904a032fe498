import WsServer.AbortScope
import WsServer.WorkerTrace

/-! Whether an abort, or the stop signal, that is there when a block's wait begins
really stops the firing sequence. -/
namespace WsServer
open Interaction

/-! ### The run of one worker inside a run of the server -/

/-- The reading of the clock in a step of worker `k`. -/
def Label.timeOf (k : ℕ) (l : Label) : Option UInt64 :=
  match l.actor with
  | .worker j => if j = k then some l.env.now else none
  | _ => none

def Output.eventOf (k : ℕ) : Output → Option WorkerEvent
  | .worker j e => if j = k then some e else none
  | .event _ _ => none

/-- The readings of the clock in the steps that worker `k` takes. -/
def ownTimes (k : ℕ) (ls : List Label) : List UInt64 := ls.filterMap (Label.timeOf k)

def ownEvents (k : ℕ) (os : List Output) : List WorkerEvent := os.filterMap (Output.eventOf k)

/-- What a run of the server gives worker `k`: a run of the worker alone. -/
structure WorkerRun (k : ℕ) (args : SequenceWorkerArgs) (pc : WorkerPc) (ls : List Label)
    (s' : System) (os : List Output) (pc' : WorkerPc) (xs : List WorkerInput)
    (tr : WorkerTrace) : Prop where
  run : (workerMachine args).run pc xs = some (pc', tr)
  last : s'.process.workers[k]? = some ⟨args, pc'⟩
  times : xs.map (·.now) = ownTimes k ls
  events : tr.map (·.2) = ownEvents k os

theorem ownEvents_thread (k : ℕ) (t : Thread) (es : List Event) :
    ownEvents k (es.map (.event t)) = [] := by
  simp only [ownEvents, List.filterMap_map, List.filterMap_eq_nil_iff, Function.comp_apply]
  exact fun _ _ => rfl

/-- A step by another: the worker is where it was, and nothing is heard of it. -/
theorem worker_other_step {s s' : System} {l : Label} {os : List Output} {k : ℕ} {w : Worker}
    (hm : SystemMove s l.env l.actor s' os) (hl : l.timeOf k = none)
    (hw : s.process.workers[k]? = some w) :
    s'.process.workers[k]? = some w ∧ ownEvents k os = [] := by
  obtain ⟨actor, env⟩ := l
  cases hm with
  | call t c v ht => exact ⟨hw, rfl⟩
  | thread t a g ht =>
    obtain ⟨rest, hrest⟩ := perform_workers s.process env a
    have hlt : k < s.process.workers.length := (List.getElem?_eq_some_iff.mp hw).1
    refine ⟨?_, ownEvents_thread k t _⟩
    simp only [System.afterAct, ← hrest, List.getElem?_append_left hlt, hw]
  | worker j args pc mid e hj hmove =>
    have hne : j ≠ k := by
      rintro rfl
      simp [Label.timeOf] at hl
    refine ⟨?_, ?_⟩
    · simpa only [System.afterWorker, List.getElem?_set_ne hne] using hw
    · simp only [ownEvents, List.filterMap_cons, Output.eventOf, if_neg hne, List.filterMap_nil]
  | signal => exact ⟨hw, rfl⟩

/-- The projection: any interleaving is a run of the worker alone, on inputs that satisfy
whatever an invariant of the server says of them while the worker runs. -/
theorem worker_projection {I : System → Prop} {Q : WorkerInput → Prop} {k : ℕ}
    (hI : ∀ s l x, I s → server.step s l = some x → I x.1)
    (hQ : ∀ s env w, I s → s.process.workers[k]? = some w → w.pc ≠ .done →
      Q (workerInput s.app env))
    {args : SequenceWorkerArgs} {pc : WorkerPc} {s s' : System} {ls : List Label}
    {os : List Output} (hs : I s) (hw : s.process.workers[k]? = some ⟨args, pc⟩)
    (hrun : server.run s ls = some (s', os)) :
    ∃ pc' xs tr, WorkerRun k args pc ls s' os pc' xs tr ∧ ∀ x ∈ xs, Q x := by
  induction ls generalizing s pc os with
  | nil =>
    obtain ⟨rfl, rfl⟩ := Prod.mk.inj (Option.some.inj hrun)
    exact ⟨pc, [], [], ⟨rfl, hw, rfl, rfl⟩, fun x hx => nomatch hx⟩
  | cons l ls ih =>
    obtain ⟨mid, head, os', hstep, hrest, rfl⟩ := Machine.run_cons_eq_some.mp hrun
    have hm := system_move hstep
    have hmid : I mid := hI s l _ hs hstep
    cases hl : l.timeOf k with
    -- a step of somebody else: the worker stays where it is and puts out nothing
    | none =>
      obtain ⟨hw', hno⟩ := worker_other_step hm hl hw
      obtain ⟨pc', xs, tr, h, hq⟩ := ih hmid hw' hrest
      refine ⟨pc', xs, tr, ⟨h.run, h.last, ?_, ?_⟩, hq⟩
      · simpa only [ownTimes, List.filterMap_cons, hl] using h.times
      · simp only [ownEvents, List.filterMap_append] at hno ⊢
        rw [hno, List.nil_append]
        exact h.events
    | some time =>
      obtain ⟨actor, env⟩ := l
      cases hm with
      | worker j args' pc₀ pc₁ e hj hmove =>
        -- its own step is one input of its machine, in front of the rest of the run
        have hjk : j = k := by
          by_contra hne
          simp [Label.timeOf, hne] at hl
        subst hjk
        obtain ⟨rfl, rfl⟩ := Worker.mk.inj (Option.some.inj (hj.symm.trans hw))
        have hlt : j < s.process.workers.length := (List.getElem?_eq_some_iff.mp hw).1
        have hw' : (s.afterWorker j args' pc₁ e).process.workers[j]? = some ⟨args', pc₁⟩ := by
          simp only [System.afterWorker, List.getElem?_set_self hlt]
        obtain ⟨pc', xs, tr, h, hq⟩ := ih hmid hw' hrest
        have hpc : pc₀ ≠ .done := by
          rintro rfl
          cases hmove
        refine ⟨pc', workerInput s.app env :: xs, (env.now, e) :: tr, ⟨?_, h.last, ?_, ?_⟩, ?_⟩
        · exact worker_run_of_move hmove h.run
        · simp only [ownTimes, List.filterMap_cons, Label.timeOf, if_true, List.map_cons]
          exact congrArg (env.now :: ·) h.times
        · simp only [ownEvents, List.filterMap_cons, Output.eventOf, if_true, List.map_cons,
            List.singleton_append]
          exact congrArg (e :: ·) h.events
        · exact List.forall_mem_cons.mpr ⟨hQ s env _ hs hw hpc, hq⟩
      | _ => cases hl

/-! ### A worker that finds a flag set -/

/-- The flag that is set: the stop flag, or that of the abort. -/
def WorkerInput.flag (byStop : Bool) (x : WorkerInput) : Bool :=
  if byStop then x.stop else x.sequenceAbort

/-- Behind a first test that came before the deadline. -/
def WorkerPc.Aborting (byStop : Bool) : WorkerPc → Prop
  | .checkAbort _ _ | .sendAborted => True
  | .checkStop _ _ => byStop = true
  | _ => False

/-- How many steps the way out takes at most. -/
def WorkerPc.stepsLeft : WorkerPc → ℕ
  | .checkAbort _ _ => 4
  | .checkStop _ _ => 3
  | .sendAborted => 2
  | .finish => 1
  | _ => 0

theorem WorkerMove.aborting_step {args : SequenceWorkerArgs} {x : WorkerInput} {pc mid : WorkerPc}
    {e : WorkerEvent} {byStop : Bool} (hm : WorkerMove args x pc mid e)
    (hx : x.flag byStop = true) (hpc : pc.Aborting byStop) :
    e.written = none ∧ mid.stepsLeft+1 ≤ pc.stepsLeft ∧
      (mid.Aborting byStop ∨ mid = .finish ∧ e = .send .aborted) := by
  cases hm with
  | abortSeen i d h => exact ⟨rfl, Nat.le_succ 3, Or.inl trivial⟩
  | abortClear i d h =>
    refine ⟨rfl, le_rfl, Or.inl ?_⟩
    cases byStop with
    | true => exact rfl
    | false => exact absurd hx (by simp [WorkerInput.flag, h])
  | stopSeen i d h => exact ⟨rfl, le_rfl, Or.inl trivial⟩
  | stopClear i d h =>
    obtain rfl : byStop = true := hpc
    exact absurd hx (by simp [WorkerInput.flag, h])
  | aborted => exact ⟨rfl, le_rfl, Or.inr ⟨rfl, rfl⟩⟩
  | _ => exact hpc.elim

theorem finish_run (args : SequenceWorkerArgs) (pc' : WorkerPc) (xs : List WorkerInput)
    (tr : WorkerTrace) (h : (workerMachine args).run .finish xs = some (pc', tr)) :
    tr.written = [] ∧ (1 ≤ xs.length → pc' = .done) := by
  cases xs with
  | nil =>
    obtain ⟨-, rfl⟩ := Prod.mk.inj (Option.some.inj h)
    exact ⟨rfl, fun hlen => absurd hlen (by decide)⟩
  | cons x xs =>
    obtain ⟨mid, e, tr', hm, hrun, rfl⟩ := worker_run_cons args _ pc' x xs tr h
    cases hm
    obtain ⟨rfl, rfl⟩ := worker_run_done args pc' xs tr' hrun
    exact ⟨rfl, fun _ => rfl⟩

/-- On the way out nothing is written, the message is that of the abort, and the end
is near. -/
theorem aborting_run (args : SequenceWorkerArgs) (byStop : Bool) (pc pc' : WorkerPc)
    (xs : List WorkerInput) (tr : WorkerTrace)
    (h : (workerMachine args).run pc xs = some (pc', tr)) :
    (∀ x ∈ xs, x.flag byStop = true) → pc.Aborting byStop → tr.written = [] ∧
      (pc' = .done → .send .aborted ∈ tr.map (·.2)) ∧
      (pc.stepsLeft ≤ xs.length → pc' = .done) := by
  refine worker_run_induction args
    (P := fun pc xs pc' tr => (∀ x ∈ xs, x.flag byStop = true) → pc.Aborting byStop →
      WorkerTrace.written tr = [] ∧ (pc' = .done → .send .aborted ∈ tr.map (·.2)) ∧
      (pc.stepsLeft ≤ xs.length → pc' = .done)) ?_ ?_ pc pc' xs tr h
  · intro pc _ hpc
    refine ⟨rfl, ?_, ?_⟩
    · rintro rfl
      exact hpc.elim
    · intro hleft
      cases pc <;> first | exact hpc.elim | exact absurd hleft (Nat.not_succ_le_zero _)
  · intro x xs pc mid pc' e tr hm hrun ih hxs hpc
    obtain ⟨hx, hrest⟩ := List.forall_mem_cons.mp hxs
    obtain ⟨hwritten, hleft, hmid⟩ := hm.aborting_step hx hpc
    have hcons : WorkerTrace.written ((x.now, e) :: tr) = WorkerTrace.written tr := by
      simp only [WorkerTrace.written, List.filterMap_cons, hwritten]
    rw [hcons, List.length_cons, List.map_cons]
    rcases hmid with hmid | ⟨rfl, rfl⟩
    · obtain ⟨hnone, haborted, hdone⟩ := ih hrest hmid
      refine ⟨hnone, fun h => List.mem_cons_of_mem _ (haborted h), fun h => hdone ?_⟩
      omega
    · obtain ⟨hnone, hdone⟩ := finish_run args pc' xs tr hrun
      refine ⟨hnone, fun _ => List.mem_cons_self, fun h => hdone ?_⟩
      have hone : WorkerPc.finish.stepsLeft = 1 := rfl
      omega

/-- Where a worker that missed the flags can be before it has written a block. -/
def WorkerPc.Missed : WorkerPc → Prop
  | .sendBlock _ _ | .sendFailed | .finish | .done => True
  | _ => False

/-- A wait that is over writes its block, or the sequence ends as failed. -/
theorem missed_run (args : SequenceWorkerArgs) (pc pc' : WorkerPc) (xs : List WorkerInput)
    (tr : WorkerTrace) (h : (workerMachine args).run pc xs = some (pc', tr)) :
    pc.Missed → tr.written = [] → .send .aborted ∉ tr.map (·.2) := by
  refine worker_run_induction args
    (P := fun pc _ _ tr => pc.Missed → WorkerTrace.written tr = [] →
      .send .aborted ∉ tr.map (·.2)) ?_ ?_ pc pc' xs tr h
  · intro pc _ _ he
    cases he
  · intro x xs pc mid pc' e tr hm hrun ih hpc hnone he
    have hstep : (∃ b, e.written = some b) ∨ (e ≠ .send .aborted ∧ mid.Missed) := by
      cases hm with
      | sent i a h => exact Or.inl ⟨_, rfl⟩
      | retry i a error h ha => exact Or.inr ⟨by simp, trivial⟩
      | giveUp i a error h ha => exact Or.inr ⟨by simp, trivial⟩
      | failed => exact Or.inr ⟨by decide, trivial⟩
      | finished => exact Or.inr ⟨by decide, trivial⟩
      | _ => exact hpc.elim
    rcases hstep with ⟨b, hb⟩ | ⟨hne, hmid⟩
    · simp [WorkerTrace.written, hb] at hnone
    · have hnone' : WorkerTrace.written tr = [] := by
        simp only [WorkerTrace.written, List.filterMap_cons] at hnone
        cases hw : e.written with
        | some b => simp [hw] at hnone
        | none =>
          rw [hw] at hnone
          exact hnone
      rw [List.map_cons] at he
      rcases List.mem_cons.mp he with heq | htail
      · exact hne heq.symm
      · exact ih hmid hnone' htail

/-- The condition under which a set flag is seen: the first test of the waiting loop
reads the clock before the deadline, which is the delay behind the reading at its
entry. -/
def FirstTestEarly (delay : UInt64) (times : List UInt64) : Prop :=
  ∀ t₀ t₁ rest, times = t₀ :: t₁ :: rest → t₁ < t₀+delay

theorem enterWait_run (args : SequenceWorkerArgs) (byStop : Bool) (i : ℕ) (pc' : WorkerPc)
    (xs : List WorkerInput) (tr : WorkerTrace)
    (h : (workerMachine args).run (.enterWait i) xs = some (pc', tr))
    (hxs : ∀ x ∈ xs, x.flag byStop = true) :
    (FirstTestEarly (args.config.delayMs i) (xs.map (·.now)) → tr.written = [] ∧
      (pc' = .done → .send .aborted ∈ tr.map (·.2)) ∧ (6 ≤ xs.length → pc' = .done)) ∧
    (tr.written = [] → .send .aborted ∈ tr.map (·.2) →
      FirstTestEarly (args.config.delayMs i) (xs.map (·.now))) := by
  rcases xs with - | ⟨x₀, - | ⟨x₁, rest⟩⟩
  · obtain ⟨rfl, rfl⟩ := Prod.mk.inj (Option.some.inj h)
    exact ⟨fun _ => ⟨rfl, WorkerPc.noConfusion, fun hlen => absurd hlen (by decide)⟩,
      fun _ _ t₀ t₁ ts hts => nomatch hts⟩
  · obtain ⟨mid, e, tr', hm, hrun, rfl⟩ := worker_run_cons args _ pc' x₀ [] tr h
    obtain ⟨rfl, rfl⟩ := Prod.mk.inj (Option.some.inj hrun)
    cases hm
    exact ⟨fun _ => ⟨rfl, WorkerPc.noConfusion,
        fun hlen => absurd hlen (show ¬ 6 ≤ 1 by decide)⟩,
      fun _ _ t₀ t₁ ts hts => nomatch hts⟩
  · obtain ⟨mid, e, tr', hm, hrun, rfl⟩ := worker_run_cons args _ pc' x₀ (x₁ :: rest) tr h
    cases hm
    obtain ⟨mid, e, tr'', hm, hrun', rfl⟩ := worker_run_cons args _ pc' x₁ rest tr' hrun
    have hrest : ∀ x ∈ rest, x.flag byStop = true := fun x hx =>
      hxs x (List.mem_cons_of_mem _ (List.mem_cons_of_mem _ hx))
    cases hm with
    | early j d hearly =>
      -- the flag is looked at, and it is set
      obtain ⟨hnone, haborted, hdone⟩ :=
        aborting_run args byStop _ pc' rest tr'' hrun' hrest trivial
      refine ⟨fun _ => ⟨hnone, ?_, ?_⟩, ?_⟩
      · intro hd
        exact List.mem_cons_of_mem _ (List.mem_cons_of_mem _ (haborted hd))
      · intro hlen
        have hleft : (WorkerPc.checkAbort i (x₀.now+args.config.delayMs i)).stepsLeft = 4 := rfl
        simp only [List.length_cons] at hlen
        exact hdone (by omega)
      · intro _ _ t₀ t₁ ts hts
        obtain ⟨h₀, hts⟩ := List.cons.inj hts
        have h₁ := (List.cons.inj hts).1
        calc t₁ = x₁.now := h₁.symm
          _ < x₀.now+args.config.delayMs i := hearly
          _ = t₀+args.config.delayMs i := congrArg (· + _) h₀
    | late j d hlate =>
      -- the loop is left without a look at the flag
      refine ⟨?_, ?_⟩
      · intro hcond
        exact absurd (hcond x₀.now x₁.now (rest.map (·.now)) rfl) hlate
      · intro hnone haborted
        refine absurd ?_ (missed_run args _ pc' rest tr'' hrun' trivial hnone)
        simpa using haborted

/-! ### The flags while the worker runs -/

def App.flag (byStop : Bool) (app : App) : Bool := if byStop then app.stop else app.sequenceAbort

theorem stop_step {s s' : System} {env : Env} {actor : Actor} {os : List Output}
    (hm : SystemMove s env actor s' os) (h : s.app.stop = true) : s'.app.stop = true := by
  cases hm with
  | call t c v ht => exact h
  | thread t a k ht => exact (perform_stop s.process env a).trans h
  | worker k args pc mid e hw hmove =>
    cases e <;> exact h
  | signal => rfl

theorem workers_length_le {s s' : System} {env : Env} {actor : Actor} {os : List Output}
    (hm : SystemMove s env actor s' os) :
    s.process.workers.length ≤ s'.process.workers.length := by
  cases hm with
  | call t c v ht => exact le_rfl
  | thread t a k ht => exact (perform_workers s.process env a).length_le
  | worker k args pc mid e hw hmove => exact List.length_set.ge
  | signal => exact le_rfl

/-- Worker `k` exists, and as long as it runs the flag is set. -/
def FlagHeld (byStop : Bool) (k : ℕ) (s : System) : Prop :=
  k < s.process.workers.length ∧
    ∃ o, Ownership s o ∧ (o = some (.worker k) → s.app.flag byStop = true)

/-- Only the worker itself can clear a flag before it ends. -/
theorem flagHeld_step {byStop : Bool} {k : ℕ} (s : System) (l : Label) (x : System × List Output)
    (hs : FlagHeld byStop k s) (hstep : server.step s l = some x) : FlagHeld byStop k x.1 := by
  obtain ⟨hk, o, ho, hflag⟩ := hs
  obtain ⟨actor, env⟩ := l
  have hm : SystemMove s env actor x.1 x.2 := system_move hstep
  obtain ⟨o', ho', hown⟩ := ownership_step ho hm
  refine ⟨hk.trans_le (workers_length_le hm), o', ho', ?_⟩
  intro hworker
  cases hown with
  | keep _ _ h _ =>
    cases byStop with
    | true => exact stop_step hm (hflag hworker)
    | false =>
      refine h.abort.trans ?_
      rw [show s.app.sequenceAbort = true from hflag hworker, Bool.true_or]
  | claim _ _ _ _ => cases hworker
  | handOver _ _ =>
    have hnew := Owner.worker.inj (Option.some.inj hworker)
    omega
  | giveUp _ _ _ => cases hworker
  | finish _ _ _ => cases hworker

theorem flagHeld_input {byStop : Bool} {k : ℕ} (s : System) (env : Env) (w : Worker)
    (hs : FlagHeld byStop k s) (hw : s.process.workers[k]? = some w) (hpc : w.pc ≠ .done) :
    (workerInput s.app env).flag byStop = true := by
  obtain ⟨-, o, ho, hflag⟩ := hs
  exact hflag ((ho.owner_iff (.worker k)).mp ⟨w, hw, hpc⟩)

theorem flagHeld_of_reachable {config : AppConfig} {canFd : Int} {byStop : Bool} {k : ℕ}
    {s : System} {w : Worker} (hs : server.Reachable (System.initial config canFd) s)
    (hw : s.process.workers[k]? = some w) (hflag : s.app.flag byStop = true) :
    FlagHeld byStop k s := by
  obtain ⟨o, ho⟩ := ownership_reachable hs
  exact ⟨(List.getElem?_eq_some_iff.mp hw).1, o, ho, fun _ => hflag⟩

/-! ### The abort of a firing sequence -/

/-- No block of worker `k` was written from some point on, and if the worker has ended
since, it ended by its message of an abort. -/
structure StoppedByAbort (k : ℕ) (s : System) (os : List Output) : Prop where
  written : (ownEvents k os).filterMap WorkerEvent.written = []
  aborted : ∀ w, s.process.workers[k]? = some w → w.pc = .done →
    .send .aborted ∈ ownEvents k os

/-- A set flag stops a sequence if the first test of the block's wait comes before its
deadline, and a sequence that has ended was stopped by it only then. -/
theorem abort_stops_sequence (config : AppConfig) (canFd : Int) (s : System)
    (hs : server.Reachable (System.initial config canFd) s) (k i : ℕ) (args : SequenceWorkerArgs)
    (hw : s.process.workers[k]? = some ⟨args, .enterWait i⟩)
    (hflag : s.app.sequenceAbort = true ∨ s.app.stop = true) (ls : List Label) (s' : System)
    (os : List Output) (hrun : server.run s ls = some (s', os)) :
    (FirstTestEarly (args.config.delayMs i) (ownTimes k ls) → StoppedByAbort k s' os ∧
      (6 ≤ (ownTimes k ls).length → s'.process.workers[k]? = some ⟨args, .done⟩)) ∧
    (s'.process.workers[k]? = some ⟨args, .done⟩ → (StoppedByAbort k s' os ↔
      FirstTestEarly (args.config.delayMs i) (ownTimes k ls))) := by
  -- one of the two flags is set, and it stays set as long as the worker has it before it
  obtain ⟨byStop, hbyStop⟩ : ∃ byStop, s.app.flag byStop = true := by
    rcases hflag with h | h
    · exact ⟨false, h⟩
    · exact ⟨true, h⟩
  obtain ⟨pc', xs, tr, hown, hxs⟩ := worker_projection (I := FlagHeld byStop k)
    (Q := fun x => x.flag byStop = true) flagHeld_step flagHeld_input
    (flagHeld_of_reachable hs hw hbyStop) hw hrun
  obtain ⟨hearly, hlate⟩ := enterWait_run args byStop i pc' xs tr hown.run hxs
  -- the events of the system that are the worker's are those of its own run
  have hwritten : (ownEvents k os).filterMap WorkerEvent.written = tr.written := by
    rw [← hown.events, List.filterMap_map]
    rfl
  have hlength : (ownTimes k ls).length = xs.length := by
    rw [← hown.times, List.length_map]
  rw [hown.times, hown.events] at hearly
  rw [hown.times, hown.events] at hlate
  refine ⟨?_, ?_⟩
  · intro hcond
    obtain ⟨hnone, haborted, hdone⟩ := hearly hcond
    refine ⟨⟨hwritten.trans hnone, ?_⟩, ?_⟩
    · intro w hw' hpc
      obtain rfl := Option.some.inj (hown.last.symm.trans hw')
      exact haborted hpc
    · intro hlen
      rw [hown.last, hdone (hlength ▸ hlen)]
  · intro hdone
    have hpc : pc' = .done :=
      (Worker.mk.inj (Option.some.inj (hown.last.symm.trans hdone))).2
    constructor
    · intro hstop
      exact hlate (hwritten.symm.trans hstop.written) (hstop.aborted _ hdone rfl)
    · intro hcond
      obtain ⟨hnone, haborted, -⟩ := hearly hcond
      exact ⟨hwritten.trans hnone, fun _ _ _ => haborted hpc⟩

/-- One block behind the countdown: an abort in the countdown is seen. -/
theorem abort_stops_countdown :
    let config : FiringSequenceConfig := { FiringSequenceConfig.zero with numBlocks := 1 }
    let env : Env := ⟨0, fun _ => none, true, true⟩
    let start : Label := ⟨.call (.handler 0) (.startSequence 0 config none none none), env⟩
    let own : Label := ⟨.thread (.handler 0), env⟩
    let worker : Label := ⟨.worker 0, env⟩
    let abort : Label := ⟨.call .main .requestAbort, env⟩
    ∃ s s' os, server.run (System.initial ⟨false, false⟩ 3)
        [start, own, own, own, worker, abort, ⟨.thread .main, env⟩] =
          some (s, [.worker 0 (.send .started)]) ∧
      server.run s [worker, worker, worker, worker, worker] = some (s', os) ∧
      StoppedByAbort 0 s' os := by
  intro config env start own worker abort
  -- both halves run, and what the first half leaves is computed
  have hall : (server.run (System.initial ⟨false, false⟩ 3)
      ([start, own, own, own, worker, abort, ⟨.thread .main, env⟩] ++
        [worker, worker, worker, worker, worker])).isSome = true := by decide
  obtain ⟨⟨s', _⟩, hall⟩ := Option.isSome_iff_exists.mp hall
  obtain ⟨s, _, os, hstart, hrun, -⟩ := Machine.run_append_eq_some.mp hall
  have hfacts : (server.run (System.initial ⟨false, false⟩ 3)
      [start, own, own, own, worker, abort, ⟨.thread .main, env⟩]).map (fun r =>
        (r.1.process.workers[0]?.map (fun w => (w.pc, w.args.config.delayMs 0)),
          r.1.app.sequenceAbort, r.2)) =
      some (some (.enterWait 0, 10000), true, [.worker 0 (.send .started)]) := by decide
  rw [hstart] at hfacts
  obtain ⟨hworker, hflag, rfl⟩ := by simpa only [Option.map_some, Option.some.injEq,
    Prod.mk.injEq] using hfacts
  obtain ⟨⟨args, pc⟩, hw, hpc⟩ := Option.map_eq_some_iff.mp hworker
  obtain ⟨rfl, hdelay⟩ := Prod.mk.inj hpc
  refine ⟨s, s', os, hstart, hrun, ?_⟩
  refine ((abort_stops_sequence ⟨false, false⟩ 3 s ⟨_, _, hstart⟩ 0 0 args hw (Or.inl hflag)
    [worker, worker, worker, worker, worker] s' os hrun).1 ?_).1
  rw [hdelay]
  intro t₀ t₁ rest h
  have h₀ : 0 = t₀ := (List.cons.inj h).1
  have h₁ : 0 = t₁ := (List.cons.inj (List.cons.inj h).2).1
  rw [← h₀, ← h₁]
  decide

/-- `DROWN` and then `ABORT` before the worker begins to wait for its first block: the
delay of that block is 0, and it is written all the same. -/
theorem drown_misses_abort :
    let env : Env := ⟨0, fun _ => none, true, true⟩
    let drown : Label := ⟨.call (.handler 0) (.startDrown 0), env⟩
    let own : Label := ⟨.thread (.handler 0), env⟩
    let worker : Label := ⟨.worker 0, env⟩
    let abort : Label := ⟨.call .main .requestAbort, env⟩
    ∃ s args s' os, server.run (System.initial ⟨false, false⟩ 3)
        [drown, own, own, own, own, own, worker, abort, ⟨.thread .main, env⟩] =
          some (s, [.worker 0 (.send .started)]) ∧
      s.process.workers[0]? = some ⟨args, .enterWait 0⟩ ∧ s.app.sequenceAbort = true ∧
      server.run s [worker, worker, worker] = some (s', os) ∧ ¬ StoppedByAbort 0 s' os := by
  intro env drown own worker abort
  refine ⟨_, _, _, _, rfl, rfl, rfl, rfl, ?_⟩
  intro h
  exact absurd h.written (by decide)

end WsServer
