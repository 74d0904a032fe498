import Mathlib.Order.WellFounded
import WsServer.WorkerRun

/-! What the firing worker does over a whole run, whatever the clock, the CAN writes
and the abort and stop flags are: order, timing, retries and the three ways out. -/
namespace WsServer
open Interaction

/-- The blocks of a configuration with their places, in the order of the loop. -/
def FiringSequenceConfig.blocks (config : FiringSequenceConfig) : List (ℕ × CanCommand) :=
  (List.range config.numBlocks).map (fun i => (i, config.command i))

/-- The block that an event wrote to CAN. -/
def WorkerEvent.written : WorkerEvent → Option (ℕ × CanCommand)
  | .attempt i c .sent => some (i, c)
  | _ => none

def WorkerEvent.isAttempt (i : ℕ) : WorkerEvent → Bool
  | .attempt j _ _ => j == i
  | _ => false

abbrev WorkerTrace := List (UInt64 × WorkerEvent)

def WorkerTrace.written (tr : WorkerTrace) : List (ℕ × CanCommand) :=
  tr.filterMap (fun e => e.2.written)

def WorkerTrace.attemptsOn (i : ℕ) (tr : WorkerTrace) : ℕ :=
  tr.countP (fun e => e.2.isAttempt i)

/-- The first block that the worker has not written yet; on its ways out there is none. -/
def WorkerPc.pending (n : ℕ) : WorkerPc → ℕ
  | .sendStarted => 0
  | .enterWait i | .testDeadline i _ | .checkAbort i _ | .checkStop i _ | .sleep i _
  | .sendBlock i _ => i
  | .logBlock i => i+1
  | _ => n

/-- The next block that the worker has not begun to wait for. -/
def WorkerPc.nextWait (n : ℕ) : WorkerPc → ℕ
  | .sendStarted => 0
  | .enterWait i => i
  | .testDeadline i _ | .checkAbort i _ | .checkStop i _ | .sleep i _ | .sendBlock i _
  | .logBlock i => i+1
  | _ => n

/-- The ways out that do not complete, and what follows the last message. -/
def WorkerPc.IsExit : WorkerPc → Prop
  | .sendAborted | .sendFailed | .finish | .done => True
  | _ => False

theorem WorkerPc.pending_of_exit {n : ℕ} {pc : WorkerPc} (h : pc.IsExit) : pc.pending n = n := by
  cases pc <;> first | rfl | exact h.elim

theorem pending_nextBlock (args : SequenceWorkerArgs) (i : ℕ) (h : i ≤ args.config.numBlocks) :
    (args.nextBlock i).pending args.config.numBlocks = i := by
  unfold SequenceWorkerArgs.nextBlock
  split_ifs with hi
  · rfl
  · exact le_antisymm (not_lt.mp hi) h

theorem blocks_drop (config : FiringSequenceConfig) (i : ℕ) (h : i < config.numBlocks) :
    config.blocks.drop i = (i, config.command i) :: config.blocks.drop (i+1) := by
  have hl : i < config.blocks.length := by
    simpa only [FiringSequenceConfig.blocks, List.length_map, List.length_range] using h
  rw [List.drop_eq_getElem_cons hl]
  simp only [FiringSequenceConfig.blocks, List.getElem_map, List.getElem_range]

theorem blocks_drop_all (config : FiringSequenceConfig) :
    config.blocks.drop config.numBlocks = [] := by
  apply List.drop_of_length_le
  simp only [FiringSequenceConfig.blocks, List.length_map, List.length_range, le_refl]

/-- A step writes nothing, or the pending block, and then that one is pending no longer. -/
theorem WorkerMove.pending_step {args : SequenceWorkerArgs} {x : WorkerInput} {pc mid : WorkerPc}
    {e : WorkerEvent} (hm : WorkerMove args x pc mid e) (hr : pc.InRange args.config.numBlocks) :
    (e.written = none ∧
      (mid.pending args.config.numBlocks = pc.pending args.config.numBlocks ∨ mid.IsExit)) ∨
    (pc.pending args.config.numBlocks < args.config.numBlocks ∧
      e.written = some (pc.pending args.config.numBlocks,
        args.config.command (pc.pending args.config.numBlocks)) ∧
      mid.pending args.config.numBlocks = pc.pending args.config.numBlocks+1) := by
  cases hm with
  | start => exact Or.inl ⟨rfl, Or.inl (pending_nextBlock args 0 (Nat.zero_le _))⟩
  | sent i a h => exact Or.inr ⟨hr.1, rfl, rfl⟩
  | logged i => exact Or.inl ⟨rfl, Or.inl (pending_nextBlock args (i+1) hr)⟩
  | _ => first | exact Or.inl ⟨rfl, Or.inl rfl⟩ | exact Or.inl ⟨rfl, Or.inr trivial⟩

/-- The blocks written are a prefix of those pending, in order and once each. -/
theorem written_prefix (args : SequenceWorkerArgs) (pc pc' : WorkerPc) (xs : List WorkerInput)
    (tr : WorkerTrace) (h : (workerMachine args).run pc xs = some (pc', tr)) :
    pc.InRange args.config.numBlocks →
      tr.written <+: args.config.blocks.drop (pc.pending args.config.numBlocks) := by
  refine worker_run_induction args
    (P := fun pc _ _ tr => pc.InRange args.config.numBlocks →
      WorkerTrace.written tr <+: args.config.blocks.drop (pc.pending args.config.numBlocks))
    ?_ ?_ pc pc' xs tr h
  · intro pc _
    exact List.nil_prefix
  · intro x xs pc mid pc' e tr hm hrun ih hr
    have hrest := ih (hm.inRange hr)
    rcases hm.pending_step hr with ⟨he, hp | hp⟩ | ⟨hlt, he, hp⟩
    · rw [hp] at hrest
      simpa only [WorkerTrace.written, List.filterMap_cons, he] using hrest
    · rw [WorkerPc.pending_of_exit hp, blocks_drop_all, List.prefix_nil] at hrest
      simp only [WorkerTrace.written, List.filterMap_cons, he] at hrest ⊢
      rw [hrest]
      exact List.nil_prefix
    · rw [hp] at hrest
      simp only [WorkerTrace.written, List.filterMap_cons, he]
      rw [blocks_drop args.config _ hlt]
      exact List.cons_prefix_cons.mpr ⟨rfl, hrest⟩

/-! ### Order of the events -/

theorem WorkerMove.pending_le {args : SequenceWorkerArgs} {x : WorkerInput} {pc mid : WorkerPc}
    {e : WorkerEvent} (hm : WorkerMove args x pc mid e) (hr : pc.InRange args.config.numBlocks) :
    pc.pending args.config.numBlocks ≤ mid.pending args.config.numBlocks := by
  have hle : pc.pending args.config.numBlocks ≤ args.config.numBlocks := by
    cases pc <;> simp only [WorkerPc.pending, WorkerPc.InRange] at hr ⊢ <;> omega
  rcases hm.pending_step hr with ⟨-, h | h⟩ | ⟨-, -, h⟩
  · exact h.ge
  · rwa [WorkerPc.pending_of_exit h]
  · omega

theorem WorkerMove.of_attempt {args : SequenceWorkerArgs} {x : WorkerInput} {pc mid : WorkerPc}
    {i : ℕ} {c : CanCommand} {r : SendResult} (hm : WorkerMove args x pc mid (.attempt i c r)) :
    (∃ a, pc = .sendBlock i a) ∧ c = args.config.command i := by
  cases hm <;> exact ⟨⟨_, rfl⟩, rfl⟩

theorem WorkerMove.of_beginWait {args : SequenceWorkerArgs} {x : WorkerInput} {pc mid : WorkerPc}
    {i : ℕ} (hm : WorkerMove args x pc mid (.beginWait i)) :
    pc = .enterWait i ∧ mid = .testDeadline i (x.now+args.config.delayMs i) := by
  cases hm
  exact ⟨rfl, rfl⟩

theorem nextWait_nextBlock (args : SequenceWorkerArgs) (i : ℕ) (h : i ≤ args.config.numBlocks) :
    (args.nextBlock i).nextWait args.config.numBlocks = i := by
  unfold SequenceWorkerArgs.nextBlock
  split_ifs with hi
  · rfl
  · exact le_antisymm (not_lt.mp hi) h

/-- A step starts no wait, or the next one, or leaves the loop. -/
theorem WorkerMove.nextWait_step {args : SequenceWorkerArgs} {x : WorkerInput} {pc mid : WorkerPc}
    {e : WorkerEvent} (hm : WorkerMove args x pc mid e) (hr : pc.InRange args.config.numBlocks) :
    mid.nextWait args.config.numBlocks = pc.nextWait args.config.numBlocks ∨
    (e = .beginWait (pc.nextWait args.config.numBlocks) ∧
      mid.nextWait args.config.numBlocks = pc.nextWait args.config.numBlocks+1) ∨
    (mid.nextWait args.config.numBlocks = args.config.numBlocks ∧
      mid.pending args.config.numBlocks = args.config.numBlocks) := by
  cases hm with
  | start => exact Or.inl (nextWait_nextBlock args 0 (Nat.zero_le _))
  | beginWait i => exact Or.inr (Or.inl ⟨rfl, rfl⟩)
  | logged i => exact Or.inl (nextWait_nextBlock args (i+1) hr)
  | _ => first | exact Or.inl rfl | exact Or.inr (Or.inr ⟨rfl, rfl⟩)

theorem WorkerPc.nextWait_le {n : ℕ} {pc : WorkerPc} (hr : pc.InRange n) : pc.nextWait n ≤ n := by
  cases pc <;> simp only [WorkerPc.nextWait, WorkerPc.InRange] at hr ⊢ <;> omega

theorem WorkerMove.nextWait_mono {args : SequenceWorkerArgs} {x : WorkerInput} {pc mid : WorkerPc}
    {e : WorkerEvent} (hm : WorkerMove args x pc mid e) (hr : pc.InRange args.config.numBlocks) :
    pc.nextWait args.config.numBlocks ≤ mid.nextWait args.config.numBlocks := by
  have hle := WorkerPc.nextWait_le hr
  rcases hm.nextWait_step hr with h | ⟨-, h⟩ | ⟨h, -⟩ <;> omega

/-- Attempts to come are on blocks still pending, with the block's own fields. -/
theorem attempt_index (args : SequenceWorkerArgs) (pc pc' : WorkerPc) (xs : List WorkerInput)
    (tr : WorkerTrace) (h : (workerMachine args).run pc xs = some (pc', tr)) :
    pc.InRange args.config.numBlocks → ∀ t i c r, (t, WorkerEvent.attempt i c r) ∈ tr →
      pc.pending args.config.numBlocks ≤ i ∧ i < args.config.numBlocks ∧
        c = args.config.command i := by
  refine worker_run_induction args
    (P := fun pc _ _ tr => pc.InRange args.config.numBlocks →
      ∀ t i c r, (t, WorkerEvent.attempt i c r) ∈ tr → pc.pending args.config.numBlocks ≤ i ∧
        i < args.config.numBlocks ∧ c = args.config.command i) ?_ ?_ pc pc' xs tr h
  · intro pc _ t i c r he
    cases he
  · intro x xs pc mid pc' e tr hm hrun ih hr t i c r he
    rcases List.mem_cons.mp he with heq | htail
    · obtain ⟨-, rfl⟩ := Prod.mk.inj heq
      obtain ⟨⟨a, rfl⟩, hc⟩ := hm.of_attempt
      exact ⟨le_rfl, hr.1, hc⟩
    · obtain ⟨hp, hi, hc⟩ := ih (hm.inRange hr) t i c r htail
      exact ⟨(hm.pending_le hr).trans hp, hi, hc⟩

/-- Waits to come are those not begun yet. -/
theorem beginWait_index (args : SequenceWorkerArgs) (pc pc' : WorkerPc) (xs : List WorkerInput)
    (tr : WorkerTrace) (h : (workerMachine args).run pc xs = some (pc', tr)) :
    pc.InRange args.config.numBlocks → ∀ t i, (t, WorkerEvent.beginWait i) ∈ tr →
      pc.nextWait args.config.numBlocks ≤ i := by
  refine worker_run_induction args
    (P := fun pc _ _ tr => pc.InRange args.config.numBlocks →
      ∀ t i, (t, WorkerEvent.beginWait i) ∈ tr → pc.nextWait args.config.numBlocks ≤ i)
    ?_ ?_ pc pc' xs tr h
  · intro pc _ t i he
    cases he
  · intro x xs pc mid pc' e tr hm hrun ih hr t i he
    rcases List.mem_cons.mp he with heq | htail
    · obtain ⟨-, rfl⟩ := Prod.mk.inj heq
      obtain ⟨rfl, -⟩ := hm.of_beginWait
      exact le_rfl
    · exact (hm.nextWait_mono hr).trans (ih (hm.inRange hr) t i htail)

/-- Every attempt to come is behind the start of its own wait. -/
theorem attempt_after_beginWait (args : SequenceWorkerArgs) (pc pc' : WorkerPc)
    (xs : List WorkerInput) (tr : WorkerTrace)
    (h : (workerMachine args).run pc xs = some (pc', tr)) :
    pc.InRange args.config.numBlocks → ∀ t i c r, (t, WorkerEvent.attempt i c r) ∈ tr →
      pc.nextWait args.config.numBlocks ≤ i → ∃ t₀, (t₀, WorkerEvent.beginWait i) ∈ tr := by
  refine worker_run_induction args
    (P := fun pc _ _ tr => pc.InRange args.config.numBlocks →
      ∀ t i c r, (t, WorkerEvent.attempt i c r) ∈ tr →
        pc.nextWait args.config.numBlocks ≤ i → ∃ t₀, (t₀, WorkerEvent.beginWait i) ∈ tr)
    ?_ ?_ pc pc' xs tr h
  · intro pc _ t i c r he
    cases he
  · intro x xs pc mid pc' e tr hm hrun ih hr t i c r he hi
    rcases List.mem_cons.mp he with heq | htail
    · obtain ⟨-, rfl⟩ := Prod.mk.inj heq
      obtain ⟨⟨a, rfl⟩, -⟩ := hm.of_attempt
      exact absurd hi (Nat.not_succ_le_self i)
    · have hindex := attempt_index args mid pc' xs tr hrun (hm.inRange hr) t i c r htail
      rcases hm.nextWait_step hr with hs | ⟨hwait, hs⟩ | ⟨-, hs⟩
      · obtain ⟨t₀, h₀⟩ := ih (hm.inRange hr) t i c r htail (hs.trans_le hi)
        exact ⟨t₀, List.mem_cons_of_mem _ h₀⟩
      · -- the step that starts the next wait, which is that of block i or of one before it
        rcases Nat.eq_or_lt_of_le hi with heq | hlt
        · exact ⟨x.now, by rw [hwait, heq]; exact List.mem_cons_self⟩
        · obtain ⟨t₀, h₀⟩ := ih (hm.inRange hr) t i c r htail (hs.trans_le hlt)
          exact ⟨t₀, List.mem_cons_of_mem _ h₀⟩
      · omega

/-! ### Timing -/

/-- The wait that the worker is in: its block and its deadline. -/
def WorkerPc.wait : WorkerPc → Option (ℕ × UInt64)
  | .testDeadline i d | .checkAbort i d | .checkStop i d | .sleep i d => some (i, d)
  | _ => none

/-- The readings of the clock never go back. -/
def NonDecreasing (xs : List WorkerInput) : Prop := xs.Pairwise (fun x y => x.now ≤ y.now)

theorem time_of_mem (args : SequenceWorkerArgs) (pc pc' : WorkerPc) (xs : List WorkerInput)
    (tr : WorkerTrace) (h : (workerMachine args).run pc xs = some (pc', tr))
    (e : UInt64 × WorkerEvent) (he : e ∈ tr) : ∃ x ∈ xs, x.now = e.1 := by
  have hm : e.1 ∈ tr.map (·.1) := List.mem_map_of_mem he
  rw [worker_times args pc pc' xs tr h] at hm
  exact List.mem_map.mp hm

/-- From inside a wait no attempt comes before the deadline: the wait is left towards
the next block only by a reading at or behind it, and the clock does not go back. -/
theorem attempt_after_deadline (args : SequenceWorkerArgs) (pc pc' : WorkerPc)
    (xs : List WorkerInput) (tr : WorkerTrace)
    (h : (workerMachine args).run pc xs = some (pc', tr)) :
    pc.InRange args.config.numBlocks → NonDecreasing xs → ∀ j d, pc.wait = some (j, d) →
      ∀ t i c r, (t, WorkerEvent.attempt i c r) ∈ tr → d ≤ t := by
  refine worker_run_induction args
    (P := fun pc xs _ tr => pc.InRange args.config.numBlocks → NonDecreasing xs →
      ∀ j d, pc.wait = some (j, d) → ∀ t i c r, (t, WorkerEvent.attempt i c r) ∈ tr → d ≤ t)
    ?_ ?_ pc pc' xs tr h
  · intro pc _ _ j d _ t i c r he
    cases he
  · intro x xs pc mid pc' e tr hm hrun ih hr hnd j d hd t i c r he
    have hir := hm.inRange hr
    have hmid := attempt_index args mid pc' xs tr hrun hir t i c r
    obtain ⟨hx, hxs⟩ := List.pairwise_cons.mp hnd
    rcases List.mem_cons.mp he with heq | htail
    · obtain ⟨-, rfl⟩ := Prod.mk.inj heq
      obtain ⟨⟨a, rfl⟩, -⟩ := hm.of_attempt
      cases hd
    · cases hm with
      -- the only way to the attempt: the deadline was reached on the clock, which does not go back
      | late j' d' hlate =>
        have hd' : d' = d := (Prod.mk.inj (Option.some.inj hd)).2
        obtain ⟨y, hy, hyt⟩ := time_of_mem args _ pc' xs tr hrun _ htail
        calc d = d' := hd'.symm
          _ ≤ x.now := UInt64.not_lt.mp hlate
          _ ≤ y.now := hx y hy
          _ = t := hyt
      | early j' d' hearly => exact ih hir hxs j d hd t i c r htail
      | abortClear j' d' ha => exact ih hir hxs j d hd t i c r htail
      | stopClear j' d' hs => exact ih hir hxs j d hd t i c r htail
      | slept j' d' => exact ih hir hxs j d hd t i c r htail
      -- a worker that has seen the abort has no block left to attempt
      | abortSeen j' d' ha =>
        have := hmid htail
        simp only [WorkerPc.pending] at this
        omega
      | stopSeen j' d' hs =>
        have := hmid htail
        simp only [WorkerPc.pending] at this
        omega
      | _ => cases hd

/-- No attempt on a block comes before the deadline set when its wait began. -/
theorem attempt_not_early (args : SequenceWorkerArgs) (pc pc' : WorkerPc) (xs : List WorkerInput)
    (tr : WorkerTrace) (h : (workerMachine args).run pc xs = some (pc', tr)) :
    pc.InRange args.config.numBlocks → NonDecreasing xs → ∀ i t₀ t c r,
      (t₀, WorkerEvent.beginWait i) ∈ tr → (t, WorkerEvent.attempt i c r) ∈ tr →
      t₀+args.config.delayMs i ≤ t := by
  refine worker_run_induction args
    (P := fun pc xs _ tr => pc.InRange args.config.numBlocks → NonDecreasing xs → ∀ i t₀ t c r,
      (t₀, WorkerEvent.beginWait i) ∈ tr → (t, WorkerEvent.attempt i c r) ∈ tr →
      t₀+args.config.delayMs i ≤ t) ?_ ?_ pc pc' xs tr h
  · intro pc _ _ i t₀ t c r h₀
    cases h₀
  · intro x xs pc mid pc' e tr hm hrun ih hr hnd i t₀ t c r h₀ he
    have hir := hm.inRange hr
    have hxs := (List.pairwise_cons.mp hnd).2
    rcases List.mem_cons.mp h₀ with heq₀ | htail₀
    · obtain ⟨rfl, rfl⟩ := Prod.mk.inj heq₀
      obtain ⟨rfl, rfl⟩ := hm.of_beginWait
      rcases List.mem_cons.mp he with heq | htail
      · cases (Prod.mk.inj heq).2
      · exact attempt_after_deadline args _ pc' xs tr hrun hir hxs _ _ rfl t i c r htail
    · rcases List.mem_cons.mp he with heq | htail
      · -- behind an attempt on block i its wait does not begin again
        obtain ⟨-, rfl⟩ := Prod.mk.inj heq
        obtain ⟨⟨a, rfl⟩, -⟩ := hm.of_attempt
        have hlater := beginWait_index args mid pc' xs tr hrun hir t₀ i htail₀
        have hmono : i+1 ≤ mid.nextWait args.config.numBlocks := hm.nextWait_mono hr
        omega
      · exact ih hir hxs i t₀ t c r htail₀ htail

/-- The wait for a block begins no earlier than any attempt on the block before it. -/
theorem beginWait_after_attempt (args : SequenceWorkerArgs) (pc pc' : WorkerPc)
    (xs : List WorkerInput) (tr : WorkerTrace)
    (h : (workerMachine args).run pc xs = some (pc', tr)) :
    pc.InRange args.config.numBlocks → NonDecreasing xs → ∀ i t t₀ c r,
      (t, WorkerEvent.attempt i c r) ∈ tr → (t₀, WorkerEvent.beginWait (i+1)) ∈ tr → t ≤ t₀ := by
  refine worker_run_induction args
    (P := fun pc xs _ tr => pc.InRange args.config.numBlocks → NonDecreasing xs → ∀ i t t₀ c r,
      (t, WorkerEvent.attempt i c r) ∈ tr → (t₀, WorkerEvent.beginWait (i+1)) ∈ tr → t ≤ t₀)
    ?_ ?_ pc pc' xs tr h
  · intro pc _ _ i t t₀ c r he
    cases he
  · intro x xs pc mid pc' e tr hm hrun ih hr hnd i t t₀ c r he h₀
    have hir := hm.inRange hr
    obtain ⟨hx, hxs⟩ := List.pairwise_cons.mp hnd
    rcases List.mem_cons.mp he with heq | htail
    · obtain ⟨rfl, rfl⟩ := Prod.mk.inj heq
      rcases List.mem_cons.mp h₀ with heq₀ | htail₀
      · cases (Prod.mk.inj heq₀).2
      · obtain ⟨y, hy, hyt⟩ := time_of_mem args mid pc' xs tr hrun _ htail₀
        exact (hx y hy).trans_eq hyt
    · rcases List.mem_cons.mp h₀ with heq₀ | htail₀
      · obtain ⟨-, rfl⟩ := Prod.mk.inj heq₀
        obtain ⟨rfl, rfl⟩ := hm.of_beginWait
        have hindex := (attempt_index args _ pc' xs tr hrun hir t i c r htail).1
        exact absurd hindex (Nat.not_succ_le_self i)
      · exact ih hir hxs i t t₀ c r htail htail₀

/-! ### Retries -/

/-- The attempts already made on the pending block. -/
def WorkerPc.made : WorkerPc → ℕ
  | .sendBlock _ a => a
  | _ => 0

/-- How many attempts on block `i` can still come. -/
def WorkerPc.attemptsLeft (n i : ℕ) (pc : WorkerPc) : ℕ :=
  if i < pc.pending n then 0
  else if i = pc.pending n then canSendAttempts-pc.made
  else canSendAttempts

/-- The pair of the pending block and the attempts made on it never goes back. -/
theorem WorkerMove.made_step {args : SequenceWorkerArgs} {x : WorkerInput} {pc mid : WorkerPc}
    {e : WorkerEvent} (hm : WorkerMove args x pc mid e) (hr : pc.InRange args.config.numBlocks) :
    pc.pending args.config.numBlocks < mid.pending args.config.numBlocks ∨
      (mid.pending args.config.numBlocks = pc.pending args.config.numBlocks ∧
        pc.made+(if e.isAttempt (pc.pending args.config.numBlocks) then 1 else 0) ≤
          mid.made) := by
  cases hm with
  | start => exact Or.inr ⟨pending_nextBlock args 0 (Nat.zero_le _), Nat.zero_le _⟩
  | abortSeen i d h => exact Or.inl hr
  | stopSeen i d h => exact Or.inl hr
  | sent i a h => exact Or.inl (Nat.lt_succ_self i)
  | retry i a error h ha =>
    refine Or.inr ⟨rfl, ?_⟩
    simp only [WorkerPc.made, WorkerPc.pending, WorkerEvent.isAttempt, beq_self_eq_true, ↓reduceIte,
      le_refl]
  | giveUp i a error h ha => exact Or.inl hr.1
  | logged i => exact Or.inr ⟨pending_nextBlock args (i+1) hr, Nat.zero_le _⟩
  | _ => exact Or.inr ⟨rfl, Nat.zero_le _⟩

theorem WorkerMove.attemptsLeft_step {args : SequenceWorkerArgs} {x : WorkerInput}
    {pc mid : WorkerPc} {e : WorkerEvent} (hm : WorkerMove args x pc mid e)
    (hr : pc.InRange args.config.numBlocks) (i : ℕ) :
    mid.attemptsLeft args.config.numBlocks i + (if e.isAttempt i then 1 else 0) ≤
      pc.attemptsLeft args.config.numBlocks i := by
  have hstep := hm.made_step hr
  by_cases he : e.isAttempt i
  · have hat : pc.pending args.config.numBlocks = i ∧ pc.made < canSendAttempts := by
      cases e <;> simp only [WorkerEvent.isAttempt, beq_iff_eq, Bool.false_eq_true] at he
      subst he
      obtain ⟨⟨a, rfl⟩, -⟩ := hm.of_attempt
      exact ⟨rfl, hr.2⟩
    simp only [WorkerPc.attemptsLeft, he, ↓reduceIte]
    rw [hat.1, if_pos he] at hstep
    split_ifs <;> omega
  · have hweak : pc.pending args.config.numBlocks < mid.pending args.config.numBlocks ∨
        (mid.pending args.config.numBlocks = pc.pending args.config.numBlocks ∧
          pc.made ≤ mid.made) :=
      hstep.imp_right (fun h => ⟨h.1, (Nat.le_add_right _ _).trans h.2⟩)
    simp only [WorkerPc.attemptsLeft, he, Bool.false_eq_true, ↓reduceIte]
    split_ifs <;> omega

theorem attempts_le (args : SequenceWorkerArgs) (i : ℕ) (pc pc' : WorkerPc)
    (xs : List WorkerInput) (tr : WorkerTrace)
    (h : (workerMachine args).run pc xs = some (pc', tr)) :
    pc.InRange args.config.numBlocks →
      tr.attemptsOn i ≤ pc.attemptsLeft args.config.numBlocks i := by
  refine worker_run_induction args
    (P := fun pc _ _ tr => pc.InRange args.config.numBlocks →
      WorkerTrace.attemptsOn i tr ≤ pc.attemptsLeft args.config.numBlocks i)
    ?_ ?_ pc pc' xs tr h
  · intro pc _
    exact Nat.zero_le _
  · intro x xs pc mid pc' e tr hm hrun ih hr
    have hcons : WorkerTrace.attemptsOn i ((x.now, e) :: tr) =
        WorkerTrace.attemptsOn i tr + if e.isAttempt i then 1 else 0 := by
      simp only [WorkerTrace.attemptsOn, List.countP_cons]
    calc WorkerTrace.attemptsOn i ((x.now, e) :: tr)
        ≤ mid.attemptsLeft args.config.numBlocks i + (if e.isAttempt i then 1 else 0) := by
          rw [hcons]
          exact Nat.add_le_add_right (ih (hm.inRange hr)) _
      _ ≤ pc.attemptsLeft args.config.numBlocks i := hm.attemptsLeft_step hr i

/-! ### The three ways out -/

theorem not_exit_nextBlock (args : SequenceWorkerArgs) (i : ℕ) : ¬ (args.nextBlock i).IsExit := by
  unfold SequenceWorkerArgs.nextBlock
  split_ifs <;> exact id

theorem WorkerMove.of_exit {args : SequenceWorkerArgs} {x : WorkerInput} {pc mid : WorkerPc}
    {e : WorkerEvent} (hm : WorkerMove args x pc mid e) (h : pc.IsExit) :
    mid.IsExit ∧ e ≠ .send .completed := by
  cases hm <;> first | exact h.elim | exact ⟨trivial, by decide⟩

/-- A step that leaves the loop without completing writes nothing, and leaves a block
unwritten unless it was the message of completion. -/
theorem WorkerMove.to_exit {args : SequenceWorkerArgs} {x : WorkerInput} {pc mid : WorkerPc}
    {e : WorkerEvent} (hm : WorkerMove args x pc mid e) (hr : pc.InRange args.config.numBlocks)
    (h : mid.IsExit) (hpc : ¬ pc.IsExit) :
    e.written = none ∧
      (e = .send .completed ∧ pc.pending args.config.numBlocks = args.config.numBlocks ∨
        e ≠ .send .completed ∧ pc.pending args.config.numBlocks < args.config.numBlocks) := by
  cases hm with
  | start => exact absurd h (not_exit_nextBlock args 0)
  | logged i => exact absurd h (not_exit_nextBlock args (i+1))
  | abortSeen i d ha => exact ⟨rfl, Or.inr ⟨by decide, hr⟩⟩
  | stopSeen i d hs => exact ⟨rfl, Or.inr ⟨by decide, hr⟩⟩
  | giveUp i a error hc ha => exact ⟨rfl, Or.inr ⟨by simp, hr.1⟩⟩
  | completed => exact ⟨rfl, Or.inl ⟨rfl, rfl⟩⟩
  | aborted => exact absurd trivial hpc
  | failed => exact absurd trivial hpc
  | finished => exact absurd trivial hpc
  | _ => exact h.elim

theorem not_completed_of_exit (args : SequenceWorkerArgs) (pc pc' : WorkerPc)
    (xs : List WorkerInput) (tr : WorkerTrace)
    (h : (workerMachine args).run pc xs = some (pc', tr)) :
    pc.IsExit → ∀ t, (t, WorkerEvent.send .completed) ∉ tr := by
  refine worker_run_induction args
    (P := fun pc _ _ tr => pc.IsExit → ∀ t, (t, WorkerEvent.send .completed) ∉ tr)
    ?_ ?_ pc pc' xs tr h
  · intro pc _ t he
    cases he
  · intro x xs pc mid pc' e tr hm hrun ih hx t he
    obtain ⟨hmid, hne⟩ := hm.of_exit hx
    rcases List.mem_cons.mp he with heq | htail
    · exact hne (Prod.mk.inj heq).2.symm
    · exact ih hmid t htail

/-- Once the worker has left the loop, completion was reported exactly when every
pending block was written. -/
theorem completed_iff (args : SequenceWorkerArgs) (pc pc' : WorkerPc)
    (xs : List WorkerInput) (tr : WorkerTrace)
    (h : (workerMachine args).run pc xs = some (pc', tr)) :
    pc.InRange args.config.numBlocks → ¬ pc.IsExit → pc'.IsExit →
      ((∃ t, (t, WorkerEvent.send .completed) ∈ tr) ↔
        tr.written = args.config.blocks.drop (pc.pending args.config.numBlocks)) := by
  refine worker_run_induction args
    (P := fun pc _ pc' tr => pc.InRange args.config.numBlocks → ¬ pc.IsExit → pc'.IsExit →
      ((∃ t, (t, WorkerEvent.send .completed) ∈ tr) ↔
        WorkerTrace.written tr = args.config.blocks.drop (pc.pending args.config.numBlocks)))
    ?_ ?_ pc pc' xs tr h
  · intro pc _ hpc hdone
    exact absurd hdone hpc
  · intro x xs pc mid pc' e tr hm hrun ih hr hpc hdone
    by_cases hx : mid.IsExit
    · -- the move out of the loop: nothing is written behind it, and it reports completion or
      -- stops early
      obtain ⟨hw, hcase⟩ := hm.to_exit hr hx hpc
      have hnil : WorkerTrace.written tr = [] := by
        have hpre := written_prefix args mid pc' xs tr hrun (hm.inRange hr)
        rw [WorkerPc.pending_of_exit hx, blocks_drop_all] at hpre
        exact List.prefix_nil.mp hpre
      have hno := not_completed_of_exit args mid pc' xs tr hrun hx
      have hcons : WorkerTrace.written ((x.now, e) :: tr) = [] := by
        simp only [WorkerTrace.written, List.filterMap_cons, hw]
        exact hnil
      rw [hcons]
      rcases hcase with ⟨rfl, hall⟩ | ⟨hne, hlt⟩
      · rw [hall, blocks_drop_all]
        exact ⟨fun _ => rfl, fun _ => ⟨x.now, List.mem_cons_self⟩⟩
      · rw [blocks_drop args.config _ hlt]
        refine ⟨?_, fun hn => nomatch hn⟩
        rintro ⟨t, ht⟩
        rcases List.mem_cons.mp ht with heq | htail
        · exact absurd (Prod.mk.inj heq).2.symm hne
        · exact absurd htail (hno t)
    · -- a move inside the loop does not report completion, and writes the next block or none
      have hrest := ih (hm.inRange hr) hx hdone
      have hne : e ≠ .send .completed := by
        rintro rfl
        cases hm
        exact hx trivial
      have hmem : (∃ t, (t, WorkerEvent.send .completed) ∈ (x.now, e) :: tr) ↔
          ∃ t, (t, WorkerEvent.send .completed) ∈ tr := by
        constructor
        · rintro ⟨t, ht⟩
          rcases List.mem_cons.mp ht with heq | htail
          · exact absurd (Prod.mk.inj heq).2.symm hne
          · exact ⟨t, htail⟩
        · rintro ⟨t, ht⟩
          exact ⟨t, List.mem_cons_of_mem _ ht⟩
      rw [hmem, hrest]
      rcases hm.pending_step hr with ⟨he, hp | hp⟩ | ⟨hlt, he, hp⟩
      · simp only [WorkerTrace.written, List.filterMap_cons, he, hp]
      · exact absurd hp hx
      · simp only [WorkerTrace.written, List.filterMap_cons, he, hp]
        rw [blocks_drop args.config _ hlt, List.cons_inj_right]

theorem WorkerMove.to_sendAborted {args : SequenceWorkerArgs} {x : WorkerInput}
    {pc mid : WorkerPc} {e : WorkerEvent} (hm : WorkerMove args x pc mid e)
    (h : mid = .sendAborted) : e = .abortRequested true ∨ e = .readStop true := by
  have hx : mid.IsExit := h ▸ trivial
  cases hm with
  | start => exact absurd hx (not_exit_nextBlock args 0)
  | logged i => exact absurd hx (not_exit_nextBlock args (i+1))
  | abortSeen i d ha => exact Or.inl rfl
  | stopSeen i d hs => exact Or.inr rfl
  | _ => cases h

/-- The message of an abort comes only behind a flag seen set. -/
theorem aborted_only_if_seen (args : SequenceWorkerArgs) (pc pc' : WorkerPc)
    (xs : List WorkerInput) (tr : WorkerTrace)
    (h : (workerMachine args).run pc xs = some (pc', tr)) :
    pc ≠ .sendAborted → (∃ t, (t, WorkerEvent.send .aborted) ∈ tr) →
      ∃ t, (t, WorkerEvent.abortRequested true) ∈ tr ∨ (t, WorkerEvent.readStop true) ∈ tr := by
  refine worker_run_induction args
    (P := fun pc _ _ tr => pc ≠ .sendAborted → (∃ t, (t, WorkerEvent.send .aborted) ∈ tr) →
      ∃ t, (t, WorkerEvent.abortRequested true) ∈ tr ∨ (t, WorkerEvent.readStop true) ∈ tr)
    ?_ ?_ pc pc' xs tr h
  · rintro pc _ ⟨t, ht⟩
    cases ht
  · rintro x xs pc mid pc' e tr hm hrun ih hpc ⟨t, ht⟩
    by_cases hmid : mid = .sendAborted
    · refine ⟨x.now, ?_⟩
      rcases hm.to_sendAborted hmid with rfl | rfl
      · exact Or.inl List.mem_cons_self
      · exact Or.inr List.mem_cons_self
    · rcases List.mem_cons.mp ht with heq | htail
      · obtain ⟨-, rfl⟩ := Prod.mk.inj heq
        cases hm
        exact absurd rfl hpc
      · obtain ⟨t', h' | h'⟩ := ih hmid ⟨t, htail⟩
        · exact ⟨t', Or.inl (List.mem_cons_of_mem _ h')⟩
        · exact ⟨t', Or.inr (List.mem_cons_of_mem _ h')⟩

theorem worker_run_done (args : SequenceWorkerArgs) (pc' : WorkerPc) (xs : List WorkerInput)
    (tr : WorkerTrace) (h : (workerMachine args).run .done xs = some (pc', tr)) :
    pc' = .done ∧ tr = [] := by
  cases xs with
  | nil =>
    obtain ⟨rfl, rfl⟩ := Prod.mk.inj (Option.some.inj h)
    exact ⟨rfl, rfl⟩
  | cons x xs =>
    obtain ⟨mid, e, tr', hm, -, -⟩ := worker_run_cons args .done pc' x xs tr h
    cases hm

/-- `finish_sequence` runs exactly when the worker ends, once, and last. -/
theorem finish_last (args : SequenceWorkerArgs) (pc pc' : WorkerPc)
    (xs : List WorkerInput) (tr : WorkerTrace)
    (h : (workerMachine args).run pc xs = some (pc', tr)) :
    pc ≠ .done → (∃ before t, tr = before ++ (if pc' = .done then
      [(t, WorkerEvent.finishSequence)] else []) ∧
      ∀ t', (t', WorkerEvent.finishSequence) ∉ before) := by
  refine worker_run_induction args
    (P := fun pc _ pc' tr => pc ≠ .done → (∃ before t, tr = before ++ (if pc' = .done then
      [(t, WorkerEvent.finishSequence)] else []) ∧
      ∀ t', (t', WorkerEvent.finishSequence) ∉ before)) ?_ ?_ pc pc' xs tr h
  · intro pc hpc
    exact ⟨[], 0, by rw [if_neg hpc]; rfl, fun t' h' => nomatch h'⟩
  · intro x xs pc mid pc' e tr hm hrun ih hpc
    by_cases hmid : mid = .done
    · obtain ⟨-, rfl⟩ := hm.to_done hmid
      subst hmid
      obtain ⟨rfl, rfl⟩ := worker_run_done args pc' xs tr hrun
      exact ⟨[], x.now, by simp, fun t' h' => nomatch h'⟩
    · obtain ⟨before, t, rfl, hno⟩ := ih hmid
      refine ⟨(x.now, e) :: before, t, rfl, ?_⟩
      intro t' h'
      rcases List.mem_cons.mp h' with heq | htail
      · obtain ⟨-, rfl⟩ := Prod.mk.inj heq
        cases hm
        exact hmid rfl
      · exact hno t' htail

theorem exit_of_completed (args : SequenceWorkerArgs) (pc pc' : WorkerPc)
    (xs : List WorkerInput) (tr : WorkerTrace)
    (h : (workerMachine args).run pc xs = some (pc', tr)) :
    pc.IsExit ∨ (∃ t, (t, WorkerEvent.send .completed) ∈ tr) → pc'.IsExit := by
  refine worker_run_induction args
    (P := fun pc _ pc' tr => pc.IsExit ∨ (∃ t, (t, WorkerEvent.send .completed) ∈ tr) → pc'.IsExit)
    ?_ ?_ pc pc' xs tr h
  · rintro pc (hpc | ⟨t, ht⟩)
    · exact hpc
    · cases ht
  · rintro x xs pc mid pc' e tr hm hrun ih (hpc | ⟨t, ht⟩)
    · exact ih (Or.inl (hm.of_exit hpc).1)
    · rcases List.mem_cons.mp ht with heq | htail
      · obtain ⟨-, rfl⟩ := Prod.mk.inj heq
        cases hm
        exact ih (Or.inl trivial)
      · exact ih (Or.inr ⟨t, htail⟩)

/-! ### The end of the worker -/

/-- Where the worker is after `n` steps. -/
def workerAt (args : SequenceWorkerArgs) (f : ℕ → WorkerInput) : ℕ → WorkerPc
  | 0 => .sendStarted
  | n+1 =>
    match workerStep args (workerAt args f n) (f n) with
    | none => workerAt args f n
    | some (pc, _) => pc

/-- How far the worker is from its end; the turns of a waiting loop do not count. -/
def WorkerPc.distance (n : ℕ) : WorkerPc → ℕ
  | .sendStarted => 10*n+10
  | .enterWait i => 10*(n-i)+9
  | .testDeadline i _ | .checkAbort i _ | .checkStop i _ | .sleep i _ => 10*(n-i)+8
  | .sendBlock i a => 10*(n-i)+4+(canSendAttempts-a)
  | .logBlock i => 10*(n-i)+3
  | .sendAborted | .sendFailed | .sendCompleted => 2
  | .finish => 1
  | .done => 0

/-- A turn of a waiting loop that does not leave it: the deadline is ahead, and no
flag is seen. -/
def StaysWaiting (i : ℕ) (d : UInt64) (x : WorkerInput) : WorkerPc → Prop
  | .testDeadline j d' => j = i ∧ d' = d ∧ x.now < d
  | .checkAbort j d' => j = i ∧ d' = d ∧ x.sequenceAbort = false
  | .checkStop j d' => j = i ∧ d' = d ∧ x.stop = false
  | .sleep j d' => j = i ∧ d' = d
  | _ => False

/-- The distance at the head of the loop. -/
theorem distance_nextBlock (args : SequenceWorkerArgs) (i : ℕ) :
    (args.nextBlock i).distance args.config.numBlocks ≤ 10*(args.config.numBlocks-i)+9 ∧
      (args.config.numBlocks ≤ i → (args.nextBlock i).distance args.config.numBlocks = 2) := by
  unfold SequenceWorkerArgs.nextBlock
  split_ifs with h
  · exact ⟨le_rfl, fun hi => absurd h (not_lt.mpr hi)⟩
  · exact ⟨(by decide : 2 ≤ 9).trans (Nat.le_add_left _ _), fun _ => rfl⟩

theorem WorkerMove.distance_step {args : SequenceWorkerArgs} {x : WorkerInput} {pc mid : WorkerPc}
    {e : WorkerEvent} (hm : WorkerMove args x pc mid e) :
    mid.distance args.config.numBlocks < pc.distance args.config.numBlocks ∨
      (mid.distance args.config.numBlocks = pc.distance args.config.numBlocks ∧
        mid.wait = pc.wait ∧ ∃ i d, StaysWaiting i d x pc) := by
  cases hm with
  | start =>
    have h := (distance_nextBlock args 0).1
    exact Or.inl (h.trans_lt (Nat.lt_succ_self _))
  | logged i =>
    obtain ⟨h, hlast⟩ := distance_nextBlock args (i+1)
    have hpc : (WorkerPc.logBlock i).distance args.config.numBlocks =
        10*(args.config.numBlocks-i)+3 := rfl
    rw [hpc]
    omega
  | early i d h => exact Or.inr ⟨rfl, rfl, i, d, rfl, rfl, h⟩
  | abortClear i d h => exact Or.inr ⟨rfl, rfl, i, d, rfl, rfl, h⟩
  | stopClear i d h => exact Or.inr ⟨rfl, rfl, i, d, rfl, rfl, h⟩
  | slept i d => exact Or.inr ⟨rfl, rfl, i, d, rfl, rfl⟩
  | _ =>
    simp only [WorkerPc.distance, canSendAttempts] at *
    omega

theorem StaysWaiting.wait {i : ℕ} {d : UInt64} {x : WorkerInput} {pc : WorkerPc}
    (h : StaysWaiting i d x pc) : pc.wait = some (i, d) := by
  cases pc with
  | testDeadline j d' => rw [WorkerPc.wait, h.1, h.2.1]
  | checkAbort j d' => rw [WorkerPc.wait, h.1, h.2.1]
  | checkStop j d' => rw [WorkerPc.wait, h.1, h.2.1]
  | sleep j d' => rw [WorkerPc.wait, h.1, h.2]
  | _ => exact h.elim

theorem workerAt_move (args : SequenceWorkerArgs) (f : ℕ → WorkerInput) (n : ℕ)
    (h : workerAt args f n ≠ .done) :
    ∃ e, WorkerMove args (f n) (workerAt args f n) (workerAt args f (n+1)) e := by
  cases hw : workerStep args (workerAt args f n) (f n) with
  | none => cases hp : workerAt args f n <;> simp only [hp, workerStep, reduceCtorEq, ne_eq,
      not_true_eq_false] at hw h
  | some r =>
    have hn : workerAt args f (n+1) = r.1 := by simp only [workerAt, hw]
    exact ⟨r.2, hn ▸ workerStep_move args (f n) _ r.1 r.2 hw⟩

/-- The worker comes to its end, unless it waits for ever with the clock below one
deadline and neither flag seen. -/
theorem worker_ends_or_waits (args : SequenceWorkerArgs) (f : ℕ → WorkerInput) :
    (∃ n, workerAt args f n = .done) ∨
      ∃ N i d, ∀ n, N ≤ n → StaysWaiting i d (f n) (workerAt args f n) := by
  by_cases hdone : ∃ n, workerAt args f n = .done
  · exact Or.inl hdone
  · let far (n : ℕ) : ℕ := (workerAt args f n).distance args.config.numBlocks
    have hstep (n : ℕ) := (workerAt_move args f n (fun h => hdone ⟨n, h⟩)).elim
      (fun e hm => hm.distance_step)
    have hanti : Antitone far :=
      antitone_nat_of_succ_le (fun n => (hstep n).elim le_of_lt (fun h => h.1.le))
    -- from the place of least distance on, no step can come nearer
    obtain ⟨N, hN⟩ : ∃ N, ∀ n, far N ≤ far n :=
      ⟨Function.argmin far, fun n => Function.argmin_le far n⟩
    have hstay (n : ℕ) (hn : N ≤ n) : (workerAt args f (n+1)).wait = (workerAt args f n).wait ∧
        ∃ i d, StaysWaiting i d (f n) (workerAt args f n) := by
      rcases hstep n with hlt | ⟨-, hw⟩
      · exact absurd ((hanti hn).trans (hN (n+1))) (not_le.mpr hlt)
      · exact hw
    obtain ⟨i, d, hfirst⟩ := (hstay N le_rfl).2
    refine Or.inr ⟨N, i, d, ?_⟩
    have hsame (n : ℕ) (hn : N ≤ n) : (workerAt args f n).wait = some (i, d) := by
      induction n, hn using Nat.le_induction with
      | base => exact hfirst.wait
      | succ n hn ih => rw [(hstay n hn).1, ih]
    intro n hn
    obtain ⟨j, d', h⟩ := (hstay n hn).2
    obtain ⟨rfl, rfl⟩ := Prod.mk.inj (Option.some.inj (h.wait.symm.trans (hsame n hn)))
    exact h

/-! ### The law of the trace -/

/-- The monotonic clock as the kernel keeps it: it never goes back, and it counts
nanoseconds in a signed 64-bit integer. -/
structure KernelClock (xs : List WorkerInput) : Prop where
  nonDecreasing : NonDecreasing xs
  bounded : ∀ x ∈ xs, x.now.toNat < 2^63/10^6

/-- What the trace of a firing worker obeys, `pc` being where the worker is behind it. -/
structure FiringTraceLaw (config : FiringSequenceConfig) (pc : WorkerPc) (tr : WorkerTrace) :
    Prop where
  written : ∃ m ≤ config.numBlocks, tr.written = config.blocks.take m
  attempted : ∀ t i c r, (t, WorkerEvent.attempt i c r) ∈ tr →
    i < config.numBlocks ∧ c = config.command i ∧ ∃ t₀, (t₀, WorkerEvent.beginWait i) ∈ tr
  countdown : config.drownInjector = false → ∀ t₀ t c r,
    (t₀, WorkerEvent.beginWait 0) ∈ tr → (t, WorkerEvent.attempt 0 c r) ∈ tr →
      t₀.toNat+10000 ≤ t.toNat
  spacing : ∀ i t t' c c' r, (t, WorkerEvent.attempt i c .sent) ∈ tr →
    (t', WorkerEvent.attempt (i+1) c' r) ∈ tr →
      t.toNat+(readAt 0 config.waitTimesMs i).toNat ≤ t'.toNat
  retries : ∀ i, tr.attemptsOn i ≤ 3
  completed : (∃ t, (t, WorkerEvent.send .completed) ∈ tr) → tr.written = config.blocks
  completes : pc = .done → tr.written = config.blocks →
    ∃ t, (t, WorkerEvent.send .completed) ∈ tr
  aborted : (∃ t, (t, WorkerEvent.send .aborted) ∈ tr) →
    ∃ t, (t, WorkerEvent.abortRequested true) ∈ tr ∨ (t, WorkerEvent.readStop true) ∈ tr
  finish : ∃ before t,
    tr = before ++ (if pc = .done then [(t, WorkerEvent.finishSequence)] else []) ∧
      ∀ t', (t', WorkerEvent.finishSequence) ∉ before

/-- On a kernel clock a deadline does not wrap around. -/
theorem toNat_le_of_delay (t₀ t : UInt64) (n : ℕ) (delay : UInt64) (hdelay : delay.toNat = n)
    (hn : n < 2^32) (h₀ : t₀.toNat < 2^63/10^6) (h : t₀+delay ≤ t) : t₀.toNat+n ≤ t.toNat := by
  have hle := UInt64.le_iff_toNat_le.mp h
  rw [UInt64.toNat_add, hdelay, Nat.mod_eq_of_lt (by omega)] at hle
  exact hle

theorem KernelClock.time_lt {args : SequenceWorkerArgs} {pc' : WorkerPc} {xs : List WorkerInput}
    {tr : WorkerTrace} (hclock : KernelClock xs)
    (h : (workerMachine args).run .sendStarted xs = some (pc', tr)) {t : UInt64}
    {e : WorkerEvent} (he : (t, e) ∈ tr) : t.toNat < 2^63/10^6 := by
  obtain ⟨y, hy, rfl⟩ := time_of_mem args _ pc' xs tr h _ he
  exact hclock.bounded y hy

theorem attempt_spacing (args : SequenceWorkerArgs) (pc' : WorkerPc) (xs : List WorkerInput)
    (tr : WorkerTrace) (hclock : KernelClock xs)
    (h : (workerMachine args).run .sendStarted xs = some (pc', tr)) (i : ℕ) (t t' : UInt64)
    (c c' : CanCommand) (r : SendResult) (ht : (t, WorkerEvent.attempt i c .sent) ∈ tr)
    (ht' : (t', WorkerEvent.attempt (i+1) c' r) ∈ tr) :
    t.toNat+(readAt 0 args.config.waitTimesMs i).toNat ≤ t'.toNat := by
  obtain ⟨t₀, h₀⟩ := attempt_after_beginWait args _ pc' xs tr h trivial t' (i+1) c' r ht'
    (Nat.zero_le _)
  have hbegin := beginWait_after_attempt args _ pc' xs tr h trivial hclock.nonDecreasing
    i t t₀ c .sent ht h₀
  have hearly := attempt_not_early args _ pc' xs tr h trivial hclock.nonDecreasing
    (i+1) t₀ t' c' r h₀ ht'
  calc t.toNat+(readAt 0 args.config.waitTimesMs i).toNat
      ≤ t₀.toNat+(readAt 0 args.config.waitTimesMs i).toNat :=
        Nat.add_le_add_right (UInt64.le_iff_toNat_le.mp hbegin) _
    _ ≤ t'.toNat := toNat_le_of_delay t₀ t' _ (args.config.delayMs (i+1))
        (UInt16.toNat_toUInt64 _) ((UInt16.toNat_lt _).trans (by decide)) (hclock.time_lt h h₀)
        hearly

theorem firingTraceLaw_of_run (args : SequenceWorkerArgs) (pc' : WorkerPc)
    (xs : List WorkerInput) (tr : WorkerTrace) (hclock : KernelClock xs)
    (h : (workerMachine args).run .sendStarted xs = some (pc', tr)) :
    FiringTraceLaw args.config pc' tr := by
  have hprefix : tr.written <+: args.config.blocks :=
    written_prefix args _ pc' xs tr h trivial
  have hlength : args.config.blocks.length = args.config.numBlocks := by
    simp only [FiringSequenceConfig.blocks, List.length_map, List.length_range]
  have hcompleted := completed_iff args _ pc' xs tr h trivial id
  refine
    { written := ⟨tr.written.length, hlength ▸ hprefix.length_le, ?_⟩
      attempted := ?_
      countdown := ?_
      spacing := attempt_spacing args pc' xs tr hclock h
      retries := ?_
      completed := ?_
      completes := ?_
      aborted := aborted_only_if_seen args _ pc' xs tr h (by decide)
      finish := finish_last args _ pc' xs tr h (by decide) }
  · exact List.prefix_iff_eq_take.mp hprefix
  · intro t i c r he
    obtain ⟨-, hi, hc⟩ := attempt_index args _ pc' xs tr h trivial t i c r he
    exact ⟨hi, hc, attempt_after_beginWait args _ pc' xs tr h trivial t i c r he (Nat.zero_le _)⟩
  · intro hdrown t₀ t c r h₀ he
    have hearly := attempt_not_early args _ pc' xs tr h trivial hclock.nonDecreasing
      0 t₀ t c r h₀ he
    -- the wait in front of the first block of a drown sequence is the countdown
    have hdelay : (args.config.delayMs 0).toNat = 10000 := by
      rw [FiringSequenceConfig.delayMs, hdrown]
      rfl
    exact toNat_le_of_delay t₀ t 10000 _ hdelay (by decide) (hclock.time_lt h h₀) hearly
  · intro i
    refine (attempts_le args i _ pc' xs tr h trivial).trans ?_
    unfold WorkerPc.attemptsLeft
    split_ifs <;> simp [canSendAttempts, WorkerPc.made]
  · intro hsent
    exact (hcompleted (exit_of_completed args _ pc' xs tr h (Or.inr hsent))).mp hsent
  · intro hdone hall
    exact (hcompleted (hdone ▸ trivial)).mpr hall

/-- Every run of a firing worker obeys the law of the trace, and an endless one is an
endless wait. -/
theorem firing_worker_trace (args : SequenceWorkerArgs) :
    (∀ xs pc' tr, KernelClock xs → (workerMachine args).run .sendStarted xs = some (pc', tr) →
      FiringTraceLaw args.config pc' tr) ∧
    ∀ f, (∃ n, workerAt args f n = .done) ∨
      ∃ N i d, ∀ n, N ≤ n → StaysWaiting i d (f n) (workerAt args f n) :=
  ⟨fun xs pc' tr hclock h => firingTraceLaw_of_run args pc' xs tr hclock h,
    worker_ends_or_waits args⟩

/-- One block behind its countdown, on a clock that stands still but for that. -/
theorem firing_worker_trace_one_block :
    let config : FiringSequenceConfig := { FiringSequenceConfig.zero with
      numBlocks := 1
      ids := fun _ => 0x702 }
    let args : SequenceWorkerArgs := ⟨0, config, "started", "completed", "failed"⟩
    let input (now : UInt64) : WorkerInput := ⟨now, none, false, false, 3⟩
    ∃ tr, (workerMachine args).run .sendStarted
        [input 5, input 5, input 10005, input 10005, input 10005, input 10005, input 10005] =
          some (.done, tr) ∧ FiringTraceLaw config .done tr := by
  intro config args input
  have hrun : ((workerMachine args).run .sendStarted
      [input 5, input 5, input 10005, input 10005, input 10005, input 10005, input 10005]).map
        (·.1) = some .done := by decide
  obtain ⟨⟨pc, tr⟩, htr, rfl⟩ := Option.map_eq_some_iff.mp hrun
  refine ⟨tr, htr, (firing_worker_trace args).1 _ _ _ ⟨?_, by decide⟩ htr⟩
  unfold NonDecreasing
  decide

end WsServer
