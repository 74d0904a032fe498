import WsServer.TestingMode
import WsServer.WorkerTrace

/-! The report that a firing sequence failed to start, against what the worker has
written to CAN by then: the report is the same for whichever block is given up. -/
namespace WsServer
open Interaction

/-- What the writes on CAN come to, for each block and each attempt on it. -/
abbrev WritePattern := ℕ → ℕ → Option String

/-- The writes of a run come to what the pattern says, on the one socket there is. -/
def Obeys (canFd : Int) (writes : WritePattern) (pc : WorkerPc) (x : WorkerInput) : Prop :=
  ∀ i a, pc = .sendBlock i a → x.write = writes i a ∧ x.canFd = canFd

instance (canFd : Int) (writes : WritePattern) (pc : WorkerPc) (x : WorkerInput) :
    Decidable (Obeys canFd writes pc x) :=
  match pc with
  | .sendBlock i a => decidable_of_iff (x.write = writes i a ∧ x.canFd = canFd)
      ⟨fun h _ _ heq => (WorkerPc.sendBlock.inj heq).1 ▸ (WorkerPc.sendBlock.inj heq).2 ▸ h,
        fun h => h i a rfl⟩
  | .sendStarted | .enterWait _ | .testDeadline _ _ | .checkAbort _ _ | .checkStop _ _
  | .sleep _ _ | .logBlock _ | .sendAborted | .sendFailed | .sendCompleted | .finish | .done =>
    isTrue (fun _ _ heq => WorkerPc.noConfusion heq)

/-- All attempts on a block are refused. -/
def RefusedThrice (config : FiringSequenceConfig) (canFd : Int) (writes : WritePattern)
    (i : ℕ) : Prop :=
  ∀ a, a < canSendAttempts → canBusSendCommand canFd (config.command i) (writes i a) ≠ .sent

/-- The arguments of the worker that `handle_fire` starts. -/
def fireArgs (client : Client) (config : FiringSequenceConfig) : SequenceWorkerArgs where
  client := client
  config := config
  startedMessage := Printf.truncated 160 (fireStartedMessage config)
  completedMessage := Printf.truncated 128 "Firing sequence completed"
  failedMessage := Printf.truncated 128 "Firing sequence failed to start"

/-- The client has been told that the sequence failed to start. -/
def FailedToStartReported (args : SequenceWorkerArgs) (tr : WorkerTrace) : Prop :=
  ∃ t m, (t, WorkerEvent.send m) ∈ tr ∧ args.text m = "Firing sequence failed to start"

/-- Whenever a run with these results of the writes reports that the sequence failed to
start, no block of it has been written. -/
def FailedMeansUnmoved (args : SequenceWorkerArgs) (canFd : Int) (writes : WritePattern) : Prop :=
  ∀ xs pc (tr : WorkerTrace), (workerMachine args).Along (Obeys canFd writes) .sendStarted xs →
    (workerMachine args).run .sendStarted xs = some (pc, tr) →
    FailedToStartReported args tr → tr.written = []

/-! ### The worker of a firing command -/

/-- The only workers that `handle_fire` creates are those. -/
theorem handleFire_args (client : Client) (text : CText) :
    Program.Performs (S := serverSig) (Act.CreatesOnly (fun args =>
      ∃ config, firingSequenceParse true text = some config ∧ args = fireArgs client config))
      (handleFire client text) := by
  unfold handleFire
  split_ifs
  · exact performs_pure false
  apply performs_then trivial
  intro strdupOk
  cases hparse : firingSequenceParse strdupOk text with
  | none => exact createsOnly_reply_then client _ true
  | some config =>
    have hworker := createsOnly_firingSequenceStart client config
      (some (fireStartedMessage config)) (some "Firing sequence completed")
      (some "Firing sequence failed to start")
      (W := fun args => ∃ config, firingSequenceParse true text = some config ∧
        args = fireArgs client config) ⟨config, firingSequenceParse_true hparse, rfl⟩
    apply hworker.bind
    intro rc
    split_ifs
    · exact createsOnly_reply_then client _ true
    · exact performs_pure true

theorem startedMessage_begins (client : Client) (config : FiringSequenceConfig) :
    "Firing sequence started".toList <+: (fireArgs client config).startedMessage.toList := by
  have hhead : "Firing sequence started".toList <+: (Printf.truncated 256
      ("Firing sequence started with " ++ toString config.numBlocks ++ " blocks")).toList := by
    apply prefix_truncated (prefix_append (prefix_append _ _) _) (by decide)
    decide
  apply prefix_truncated _ (by decide)
  exact appendBlocks_begins 256 ": " config (List.range config.numBlocks)
    (x := (_, ("Firing sequence started with " ++ toString config.numBlocks ++ " blocks").length))
    hhead

/-- No other message of the worker says that the sequence failed to start. -/
theorem text_failed_iff (client : Client) (config : FiringSequenceConfig) (m : SequenceMessage) :
    (fireArgs client config).text m = "Firing sequence failed to start" ↔ m = .failed := by
  cases m with
  | failed => exact iff_of_true rfl rfl
  | completed =>
    apply iff_of_false _ (by decide)
    show Printf.truncated 128 "Firing sequence completed" ≠ "Firing sequence failed to start"
    decide
  | aborted =>
    apply iff_of_false _ (by decide)
    show "Firing sequence aborted by command or shutdown" ≠ "Firing sequence failed to start"
    decide
  | started =>
    apply iff_of_false _ (by decide)
    intro heq
    have hbegins := startedMessage_begins client config
    rw [show (fireArgs client config).startedMessage = _ from heq] at hbegins
    revert hbegins
    decide

theorem reported_iff (client : Client) (config : FiringSequenceConfig) (tr : WorkerTrace) :
    FailedToStartReported (fireArgs client config) tr ↔
      ∃ t, (t, WorkerEvent.send .failed) ∈ tr := by
  constructor
  · rintro ⟨t, m, hmem, htext⟩
    rw [text_failed_iff] at htext
    exact ⟨t, htext ▸ hmem⟩
  · rintro ⟨t, hmem⟩
    exact ⟨t, .failed, hmem, (text_failed_iff client config .failed).mpr rfl⟩

/-! ### Runs that meet the pattern -/

section
variable {args : SequenceWorkerArgs} {canFd : Int} {writes : WritePattern}

theorem along_of_move {x : WorkerInput} {pc mid : WorkerPc} {e : WorkerEvent}
    {xs : List WorkerInput} (hm : WorkerMove args x pc mid e) :
    (workerMachine args).Along (Obeys canFd writes) pc (x :: xs) ↔
      Obeys canFd writes pc x ∧ (workerMachine args).Along (Obeys canFd writes) mid xs := by
  apply Machine.along_cons_iff (x := (mid, [(x.now, e)]))
  simp only [workerMachine, hm.workerStep_eq, Option.map_some]

/-- An attempt of the run comes to what the pattern says of it. -/
theorem send_of_obeys {x : WorkerInput} {i a : ℕ}
    (h : Obeys canFd writes (.sendBlock i a) x) :
    canBusSendCommand x.canFd (args.config.command i) x.write =
      canBusSendCommand canFd (args.config.command i) (writes i a) := by
  obtain ⟨hwrite, hfd⟩ := h i a rfl
  rw [hwrite, hfd]

/-- The worker is not past block 0. -/
def WorkerPc.AtFirst : WorkerPc → Prop
  | .enterWait i | .testDeadline i _ | .checkAbort i _ | .checkStop i _ | .sleep i _
  | .sendBlock i _ => i = 0
  | .logBlock _ => False
  | _ => True

/-- Where block 0 is refused in all attempts, the worker never gets past it. -/
theorem WorkerMove.atFirst {x : WorkerInput} {pc mid : WorkerPc} {e : WorkerEvent}
    (hm : WorkerMove args x pc mid e) (hrefused : RefusedThrice args.config canFd writes 0)
    (hr : pc.InRange args.config.numBlocks) (hobeys : Obeys canFd writes pc x)
    (h : pc.AtFirst) : mid.AtFirst ∧ e.written = none := by
  cases hm with
  | start =>
    refine ⟨?_, rfl⟩
    unfold SequenceWorkerArgs.nextBlock
    split_ifs
    · rfl
    · trivial
  | sent i a hsent =>
    obtain rfl : i = 0 := h
    rw [send_of_obeys hobeys] at hsent
    exact absurd hsent (hrefused a hr.2)
  | logged i => exact h.elim
  | _ => first | exact ⟨h, rfl⟩ | exact ⟨trivial, rfl⟩

theorem written_of_refused_first (hrefused : RefusedThrice args.config canFd writes 0)
    (pc pc' : WorkerPc) (xs : List WorkerInput) (tr : WorkerTrace)
    (hrun : (workerMachine args).run pc xs = some (pc', tr)) :
    pc.InRange args.config.numBlocks → pc.AtFirst →
      (workerMachine args).Along (Obeys canFd writes) pc xs → tr.written = [] := by
  apply worker_run_induction args (P := fun pc xs _ tr => pc.InRange args.config.numBlocks →
    pc.AtFirst → (workerMachine args).Along (Obeys canFd writes) pc xs →
      WorkerTrace.written tr = []) ?_ ?_ pc pc' xs tr hrun
  · intro pc _ _ _
    rfl
  · intro x xs pc mid pc' e tr hm _ ih hr hfirst halong
    obtain ⟨hobeys, hrest⟩ := (along_of_move hm).mp halong
    obtain ⟨hmid, hwritten⟩ := hm.atFirst hrefused hr hobeys hfirst
    have htail := ih (hm.inRange hr) hmid hrest
    simp only [WorkerTrace.written, List.filterMap_cons, hwritten]
    exact htail

/-- The attempts behind the worker on the block that it is at have been refused. -/
def WorkerPc.Tried (config : FiringSequenceConfig) (canFd : Int) (writes : WritePattern) :
    WorkerPc → Prop
  | .sendBlock i a => ∀ b, b < a →
      canBusSendCommand canFd (config.command i) (writes i b) ≠ .sent
  | .sendFailed => False
  | _ => True

theorem tried_nextBlock (i : ℕ) : (args.nextBlock i).Tried args.config canFd writes := by
  unfold SequenceWorkerArgs.nextBlock
  split_ifs <;> trivial

/-- Where no block is refused in all attempts, the worker never gives one up. -/
theorem WorkerMove.tried {x : WorkerInput} {pc mid : WorkerPc} {e : WorkerEvent}
    (hm : WorkerMove args x pc mid e)
    (hnone : ∀ i, i < args.config.numBlocks → ¬ RefusedThrice args.config canFd writes i)
    (hr : pc.InRange args.config.numBlocks) (hobeys : Obeys canFd writes pc x)
    (h : pc.Tried args.config canFd writes) :
    mid.Tried args.config canFd writes ∧ e ≠ .send .failed := by
  -- the attempts on a block up to one that is refused again
  have hagain : ∀ i a error, pc = .sendBlock i a →
      canBusSendCommand x.canFd (args.config.command i) x.write = .refused error →
      ∀ b, b < a+1 → canBusSendCommand canFd (args.config.command i) (writes i b) ≠ .sent := by
    rintro i a error rfl hsend b hb
    rw [send_of_obeys hobeys] at hsend
    rcases Nat.lt_succ_iff_lt_or_eq.mp hb with hlt | rfl
    · exact h b hlt
    · rw [hsend]
      exact SendResult.noConfusion
  cases hm with
  | start => exact ⟨tried_nextBlock 0, by decide⟩
  | late i d hd => exact ⟨fun b hb => absurd hb (Nat.not_lt_zero b), by decide⟩
  | retry i a error hsend ha => exact ⟨hagain i a error rfl hsend, WorkerEvent.noConfusion⟩
  | giveUp i a error hsend ha =>
    have hlast : a + 1 = canSendAttempts := Nat.le_antisymm hr.2 (Nat.not_lt.mp ha)
    have hall : RefusedThrice args.config canFd writes i := by
      intro b hb
      exact hagain i a error rfl hsend b (by omega)
    exact absurd hall (hnone i hr.1)
  | logged i => exact ⟨tried_nextBlock (i+1), WorkerEvent.noConfusion⟩
  | failed => exact h.elim
  | _ => exact ⟨trivial, by first | exact WorkerEvent.noConfusion | decide⟩

theorem not_failed_of_no_refusal
    (hnone : ∀ i, i < args.config.numBlocks → ¬ RefusedThrice args.config canFd writes i)
    (pc pc' : WorkerPc) (xs : List WorkerInput) (tr : WorkerTrace)
    (hrun : (workerMachine args).run pc xs = some (pc', tr)) :
    pc.InRange args.config.numBlocks → pc.Tried args.config canFd writes →
      (workerMachine args).Along (Obeys canFd writes) pc xs →
        ∀ t, (t, WorkerEvent.send .failed) ∉ tr := by
  apply worker_run_induction args (P := fun pc xs _ tr => pc.InRange args.config.numBlocks →
    pc.Tried args.config canFd writes → (workerMachine args).Along (Obeys canFd writes) pc xs →
      ∀ t, (t, WorkerEvent.send .failed) ∉ tr) ?_ ?_ pc pc' xs tr hrun
  · intro pc _ _ _ t
    exact List.not_mem_nil
  · intro x xs pc mid pc' e tr hm _ ih hr htried halong t hmem
    obtain ⟨hobeys, hrest⟩ := (along_of_move hm).mp halong
    obtain ⟨hmid, hother⟩ := hm.tried hnone hr hobeys htried
    rcases List.mem_cons.mp hmem with heq | htail
    · exact hother (Prod.mk.inj heq).2.symm
    · exact ih (hm.inRange hr) hmid hrest t htail

/-! ### Runs that the pattern allows -/

/-- Some run with these results of the writes leads from one point to another. -/
def Reaches (args : SequenceWorkerArgs) (canFd : Int) (writes : WritePattern)
    (pc pc' : WorkerPc) (tr : WorkerTrace) : Prop :=
  ∃ xs, (workerMachine args).Along (Obeys canFd writes) pc xs ∧
    (workerMachine args).run pc xs = some (pc', tr)

theorem reaches_refl (pc : WorkerPc) : Reaches args canFd writes pc pc [] := ⟨[], trivial, rfl⟩

theorem reaches_step {x : WorkerInput} {pc mid pc' : WorkerPc} {e : WorkerEvent}
    {tr : WorkerTrace} (hm : WorkerMove args x pc mid e) (hobeys : Obeys canFd writes pc x)
    (h : Reaches args canFd writes mid pc' tr) :
    Reaches args canFd writes pc pc' ((x.now, e) :: tr) := by
  obtain ⟨xs, halong, hrun⟩ := h
  exact ⟨x :: xs, (along_of_move hm).mpr ⟨hobeys, halong⟩, worker_run_of_move hm hrun⟩

theorem reaches_trans {pc mid pc' : WorkerPc} {tr tr' : WorkerTrace}
    (h : Reaches args canFd writes pc mid tr) (h' : Reaches args canFd writes mid pc' tr') :
    Reaches args canFd writes pc pc' (tr ++ tr') := by
  obtain ⟨xs, halong, hrun⟩ := h
  obtain ⟨ys, halong', hrun'⟩ := h'
  refine ⟨xs ++ ys, ?_, Machine.run_append_eq_some.mpr ⟨mid, tr, tr', hrun, hrun', rfl⟩⟩
  apply Machine.along_append halong
  intro t os hother
  obtain ⟨rfl, -⟩ := Prod.mk.inj (Option.some.inj (hrun.symm.trans hother))
  exact halong'

/-- A step that nothing has been asked of but the time. -/
def calmInput (canFd : Int) (now : UInt64) (write : Option String) : WorkerInput :=
  ⟨now, write, false, false, canFd⟩

theorem obeys_other {pc : WorkerPc} {x : WorkerInput} (h : ∀ i a, pc ≠ .sendBlock i a) :
    Obeys canFd writes pc x := fun i a heq => absurd heq (h i a)

theorem obeys_calm (i a : ℕ) (now : UInt64) :
    Obeys canFd writes (.sendBlock i a) (calmInput canFd now (writes i a)) := by
  intro j b heq
  obtain ⟨rfl, rfl⟩ := WorkerPc.sendBlock.inj heq
  exact ⟨rfl, rfl⟩

/-- The wait of a block may be over at once: only the clock has to be read. -/
theorem reaches_sendBlock (i : ℕ) :
    ∃ tr, Reaches args canFd writes (.enterWait i) (.sendBlock i 0) tr := by
  have hlate : ¬ (0 : UInt64) + args.config.delayMs i < 0 + args.config.delayMs i :=
    UInt64.lt_irrefl _
  have hread : Reaches args canFd writes (.testDeadline i (0 + args.config.delayMs i))
      (.sendBlock i 0) _ :=
    reaches_step (.late (x := calmInput canFd (0 + args.config.delayMs i) none) i _ hlate)
      (obeys_other (fun _ _ => WorkerPc.noConfusion)) (reaches_refl _)
  exact ⟨_, reaches_step (.beginWait (x := calmInput canFd 0 none) i)
    (obeys_other (fun _ _ => WorkerPc.noConfusion)) hread⟩

/-- Attempts go on to the first that is not refused, and the block is written. -/
theorem reaches_logBlock {i a k : ℕ} (hlast : a + k < canSendAttempts)
    (hsent : canBusSendCommand canFd (args.config.command i) (writes i (a+k)) = .sent) :
    ∃ tr, Reaches args canFd writes (.sendBlock i a) (.logBlock i) tr ∧
      (i, args.config.command i) ∈ tr.written := by
  induction k generalizing a with
  | zero =>
    have hmove : WorkerMove args (calmInput canFd 0 (writes i a)) _ _ _ := .sent i a hsent
    refine ⟨_, reaches_step hmove (obeys_calm i a 0) (reaches_refl _), ?_⟩
    exact List.mem_singleton_self _
  | succ k ih =>
    obtain ⟨tr, hreach, hmem⟩ := ih (a := a+1) (by omega)
      (by rw [Nat.add_right_comm, Nat.add_assoc]; exact hsent)
    cases hnow : canBusSendCommand canFd (args.config.command i) (writes i a) with
    | sent =>
      have hmove : WorkerMove args (calmInput canFd 0 (writes i a)) _ _ _ := .sent i a hnow
      refine ⟨_, reaches_step hmove (obeys_calm i a 0) (reaches_refl _), ?_⟩
      exact List.mem_singleton_self _
    | refused error =>
      have hmove : WorkerMove args (calmInput canFd 0 (writes i a)) _ _ _ :=
        .retry i a error hnow (by omega)
      exact ⟨_, reaches_step hmove (obeys_calm i a 0) hreach, hmem⟩

/-- A block that is refused in all attempts is given up. -/
theorem reaches_sendFailed {i a k : ℕ} (hcount : a + k + 1 = canSendAttempts)
    (hrefused : RefusedThrice args.config canFd writes i) :
    ∃ tr, Reaches args canFd writes (.sendBlock i a) .sendFailed tr := by
  induction k generalizing a with
  | zero =>
    cases hnow : canBusSendCommand canFd (args.config.command i) (writes i a) with
    | sent => exact absurd hnow (hrefused a (by omega))
    | refused error =>
      have hmove : WorkerMove args (calmInput canFd 0 (writes i a)) _ _ _ :=
        .giveUp i a error hnow (by omega)
      exact ⟨_, reaches_step hmove (obeys_calm i a 0) (reaches_refl _)⟩
  | succ k ih =>
    obtain ⟨tr, hreach⟩ := ih (a := a+1) (by omega)
    cases hnow : canBusSendCommand canFd (args.config.command i) (writes i a) with
    | sent => exact absurd hnow (hrefused a (by omega))
    | refused error =>
      have hmove : WorkerMove args (calmInput canFd 0 (writes i a)) _ _ _ :=
        .retry i a error hnow (by omega)
      exact ⟨_, reaches_step hmove (obeys_calm i a 0) hreach⟩

/-- Behind a block that is not refused in all attempts comes the next one. -/
theorem reaches_next {i : ℕ} (hi : i + 1 < args.config.numBlocks)
    (h : ¬ RefusedThrice args.config canFd writes i) :
    ∃ tr, Reaches args canFd writes (.enterWait i) (.enterWait (i+1)) tr ∧
      (i, args.config.command i) ∈ tr.written := by
  unfold RefusedThrice at h
  push Not at h
  obtain ⟨a, ha, hsent⟩ := h
  obtain ⟨before, hwait⟩ : ∃ tr, Reaches args canFd writes (.enterWait i) (.sendBlock i 0) tr :=
    reaches_sendBlock i
  obtain ⟨tr, hsend, hmem⟩ := reaches_logBlock (a := 0) (by rw [Nat.zero_add]; exact ha)
    (by rw [Nat.zero_add]; exact hsent)
  have hlog : WorkerMove args (calmInput canFd 0 none) (.logBlock i) (args.nextBlock (i+1)) _ :=
    .logged i
  rw [show args.nextBlock (i+1) = .enterWait (i+1) from if_pos hi] at hlog
  have hlogged : Reaches args canFd writes (.logBlock i) (.enterWait (i+1)) _ :=
    reaches_step hlog (obeys_other (fun _ _ => WorkerPc.noConfusion)) (reaches_refl _)
  refine ⟨_, reaches_trans hwait (reaches_trans hsend hlogged), ?_⟩
  rw [WorkerTrace.written, List.filterMap_append, List.filterMap_append]
  exact List.mem_append_right _ (List.mem_append_left _ hmem)

/-- From block 0 to any other, past blocks that are not refused: block 0 has been written. -/
theorem reaches_block {j : ℕ} (hj : j + 1 < args.config.numBlocks)
    (h : ∀ i, i ≤ j → ¬ RefusedThrice args.config canFd writes i) :
    ∃ tr, Reaches args canFd writes (.enterWait 0) (.enterWait (j+1)) tr ∧
      (0, args.config.command 0) ∈ tr.written := by
  induction j with
  | zero => exact reaches_next hj (h 0 (le_refl 0))
  | succ j ih =>
    obtain ⟨tr, hreach, hmem⟩ := ih (by omega) (fun i hi => h i (Nat.le_succ_of_le hi))
    obtain ⟨tr', hnext, -⟩ := reaches_next hj (h (j+1) (le_refl _))
    refine ⟨tr ++ tr', reaches_trans hreach hnext, ?_⟩
    rw [WorkerTrace.written, List.filterMap_append]
    exact List.mem_append_left _ hmem

/-- A later block that is the first to be refused: the report comes, with block 0 written. -/
theorem reaches_report {j : ℕ} (hj : j + 1 < args.config.numBlocks)
    (h : ∀ i, i ≤ j → ¬ RefusedThrice args.config canFd writes i)
    (hrefused : RefusedThrice args.config canFd writes (j+1)) :
    ∃ tr, Reaches args canFd writes .sendStarted .finish tr ∧
      (∃ t, (t, WorkerEvent.send .failed) ∈ tr) ∧ (0, args.config.command 0) ∈ tr.written := by
  obtain ⟨tr, hreach, hmem⟩ := reaches_block hj h
  obtain ⟨tr', hwait⟩ :
      ∃ tr', Reaches args canFd writes (.enterWait (j+1)) (.sendBlock (j+1) 0) tr' :=
    reaches_sendBlock (j+1)
  obtain ⟨tr'', hgiveUp⟩ :
      ∃ tr'', Reaches args canFd writes (.sendBlock (j+1) 0) .sendFailed tr'' :=
    reaches_sendFailed (k := 2) rfl hrefused
  have hfailed : Reaches args canFd writes .sendFailed .finish _ :=
    reaches_step (.failed (x := calmInput canFd 0 none))
      (obeys_other (fun _ _ => WorkerPc.noConfusion)) (reaches_refl _)
  have hstart : WorkerMove args (calmInput canFd 0 none) .sendStarted (args.nextBlock 0) _ := .start
  rw [show args.nextBlock 0 = .enterWait 0 from if_pos (by omega)] at hstart
  have hrun := reaches_step hstart (obeys_other (fun _ _ => WorkerPc.noConfusion))
    (reaches_trans hreach (reaches_trans hwait (reaches_trans hgiveUp hfailed)))
  refine ⟨_, hrun, ⟨(calmInput canFd 0 none).now, ?_⟩, ?_⟩
  · simp only [List.mem_cons, List.mem_append, or_true, true_or]
  · rw [WorkerTrace.written, List.filterMap_cons_none rfl, List.filterMap_append]
    exact List.mem_append_left _ hmem

end

/-- The failure report of a firing command tells that nothing has moved exactly where the
writes refuse block 0 in all attempts, or no block at all. -/
theorem failed_means_unmoved_iff (client : Client) (config : FiringSequenceConfig) (canFd : Int)
    (writes : WritePattern) :
    FailedMeansUnmoved (fireArgs client config) canFd writes ↔
      RefusedThrice config canFd writes 0 ∨
        ∀ i, i < config.numBlocks → ¬ RefusedThrice config canFd writes i := by
  constructor
  · intro h
    by_contra hcondition
    rw [not_or] at hcondition
    obtain ⟨hfirst, hsome⟩ := hcondition
    push Not at hsome
    -- the first of the blocks that are refused is not block 0
    classical
    have hex : ∃ i, i < config.numBlocks ∧ RefusedThrice config canFd writes i := hsome
    obtain ⟨hi, hrefused⟩ := Nat.find_spec hex
    cases hfind : Nat.find hex with
    | zero =>
      rw [hfind] at hrefused
      exact hfirst hrefused
    | succ j =>
      rw [hfind] at hi hrefused
      have hbefore : ∀ k, k ≤ j → ¬ RefusedThrice config canFd writes k := by
        intro k hk hrefusedk
        exact Nat.find_min hex (by omega) ⟨by omega, hrefusedk⟩
      obtain ⟨tr, ⟨xs, halong, hrun⟩, hreport, hmem⟩ :
          ∃ tr, Reaches (fireArgs client config) canFd writes .sendStarted .finish tr ∧
            (∃ t, (t, WorkerEvent.send .failed) ∈ tr) ∧ (0, config.command 0) ∈ tr.written :=
        reaches_report hi hbefore hrefused
      have hnothing := h xs _ tr halong hrun ((reported_iff client config tr).mpr hreport)
      rw [hnothing] at hmem
      exact List.not_mem_nil hmem
  · intro hcondition xs pc tr halong hrun hreport
    rcases hcondition with hfirst | hnone
    · exact written_of_refused_first hfirst _ _ xs tr hrun trivial trivial halong
    · obtain ⟨t, hmem⟩ := (reported_iff client config tr).mp hreport
      exact absurd hmem (not_failed_of_no_refusal hnone _ _ xs tr hrun trivial trivial halong t)

/-- Two blocks, the first of which is written at once, and the second refused. -/
def twoBlockConfig : FiringSequenceConfig :=
  (firingSequenceParse true "FIRE#8765|101#0032#100|102#0032#100".toList).getD .zero

def secondRefused : WritePattern :=
  fun i _ => if i = 0 then none else some "No buffer space available"

def secondRefusedRun : List WorkerInput :=
  [calmInput 3 0 none, calmInput 3 0 none, calmInput 3 10000 none, calmInput 3 10000 none,
    calmInput 3 10000 none, calmInput 3 10000 none, calmInput 3 10000 none,
    calmInput 3 10000 (secondRefused 1 0), calmInput 3 10000 (secondRefused 1 1),
    calmInput 3 10000 (secondRefused 1 2), calmInput 3 10000 none]

theorem failed_report_behind_first_block :
    ¬ ∀ client config canFd writes, FailedMeansUnmoved (fireArgs client config) canFd writes := by
  intro h
  have halong : (workerMachine (fireArgs 1 twoBlockConfig)).Along (Obeys 3 secondRefused)
      .sendStarted secondRefusedRun := by
    decide +kernel
  have hreport : ((workerMachine (fireArgs 1 twoBlockConfig)).run .sendStarted
      secondRefusedRun).map (fun r => r.2.getLast?) =
        some (some (10000, WorkerEvent.send .failed)) := by
    decide +kernel
  have hmoved : ((workerMachine (fireArgs 1 twoBlockConfig)).run .sendStarted
      secondRefusedRun).map (fun r => r.2.filterMap (fun e => e.2.written)) =
        some [(0, twoBlockConfig.command 0)] := by
    decide +kernel
  obtain ⟨r, hrun, hlast⟩ := Option.map_eq_some_iff.mp hreport
  rw [hrun, Option.map_some] at hmoved
  have hnothing := h 1 twoBlockConfig 3 secondRefused secondRefusedRun r.1 r.2 halong hrun
    ⟨10000, .failed, List.mem_of_getLast? hlast, rfl⟩
  have hnil : ([] : List (ℕ × CanCommand)) = [(0, twoBlockConfig.command 0)] :=
    hnothing.symm.trans (Option.some.inj hmoved)
  cases hnil

end WsServer
