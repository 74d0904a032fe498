import Mathlib.Data.List.Basic
import Mathlib.Tactic.Common
import WsServer.Base.Machine
import WsServer.FiringSequence

/-! The firing worker alone, as a machine over whatever its environment lets it see,
with what one of its steps can do said once. -/
namespace WsServer
open Interaction

/-- The worker with every event stamped by the clock. -/
def workerMachine (args : SequenceWorkerArgs) :
    Machine WorkerPc WorkerInput (UInt64 × WorkerEvent) :=
  ⟨fun pc x => (workerStep args pc x).map (fun r => (r.1, [(x.now, r.2)]))⟩

/-- Everything a step of the worker can do, by name. -/
inductive WorkerMove (args : SequenceWorkerArgs) (x : WorkerInput) :
    WorkerPc → WorkerPc → WorkerEvent → Prop where
  | start : WorkerMove args x .sendStarted (args.nextBlock 0) (.send .started)
  | beginWait (i : ℕ) :
      WorkerMove args x (.enterWait i) (.testDeadline i (x.now+args.config.delayMs i))
        (.beginWait i)
  | early (i : ℕ) (d : UInt64) (h : x.now < d) :
      WorkerMove args x (.testDeadline i d) (.checkAbort i d) .readClock
  | late (i : ℕ) (d : UInt64) (h : ¬ x.now < d) :
      WorkerMove args x (.testDeadline i d) (.sendBlock i 0) .readClock
  | abortSeen (i : ℕ) (d : UInt64) (h : x.sequenceAbort = true) :
      WorkerMove args x (.checkAbort i d) .sendAborted (.abortRequested true)
  | abortClear (i : ℕ) (d : UInt64) (h : x.sequenceAbort = false) :
      WorkerMove args x (.checkAbort i d) (.checkStop i d) (.abortRequested false)
  | stopSeen (i : ℕ) (d : UInt64) (h : x.stop = true) :
      WorkerMove args x (.checkStop i d) .sendAborted (.readStop true)
  | stopClear (i : ℕ) (d : UInt64) (h : x.stop = false) :
      WorkerMove args x (.checkStop i d) (.sleep i d) (.readStop false)
  | slept (i : ℕ) (d : UInt64) : WorkerMove args x (.sleep i d) (.testDeadline i d) .nanosleep
  | sent (i a : ℕ) (h : canBusSendCommand x.canFd (args.config.command i) x.write = .sent) :
      WorkerMove args x (.sendBlock i a) (.logBlock i) (.attempt i (args.config.command i) .sent)
  | retry (i a : ℕ) (error : String)
      (h : canBusSendCommand x.canFd (args.config.command i) x.write = .refused error)
      (ha : a+1 < canSendAttempts) :
      WorkerMove args x (.sendBlock i a) (.sendBlock i (a+1))
        (.attempt i (args.config.command i) (.refused error))
  | giveUp (i a : ℕ) (error : String)
      (h : canBusSendCommand x.canFd (args.config.command i) x.write = .refused error)
      (ha : ¬ a+1 < canSendAttempts) :
      WorkerMove args x (.sendBlock i a) .sendFailed
        (.attempt i (args.config.command i) (.refused error))
  | logged (i : ℕ) : WorkerMove args x (.logBlock i) (args.nextBlock (i+1))
      (.log "CAN_TX" (formatCanCommand (args.config.command i)))
  | aborted : WorkerMove args x .sendAborted .finish (.send .aborted)
  | failed : WorkerMove args x .sendFailed .finish (.send .failed)
  | completed : WorkerMove args x .sendCompleted .finish (.send .completed)
  | finished : WorkerMove args x .finish .done .finishSequence

theorem workerStep_move (args : SequenceWorkerArgs) (x : WorkerInput) (pc pc' : WorkerPc)
    (e : WorkerEvent) (h : workerStep args pc x = some (pc', e)) :
    WorkerMove args x pc pc' e := by
  cases pc <;> simp only [workerStep, Option.some.injEq, Prod.mk.injEq, reduceCtorEq] at h <;>
    obtain ⟨rfl, rfl⟩ := h
  case sendStarted => exact .start
  case enterWait i => exact .beginWait i
  case testDeadline i d =>
    split_ifs with hd
    · exact .early i d hd
    · exact .late i d hd
  case checkAbort i d =>
    cases ha : x.sequenceAbort
    · exact .abortClear i d ha
    · exact .abortSeen i d ha
  case checkStop i d =>
    cases hs : x.stop
    · exact .stopClear i d hs
    · exact .stopSeen i d hs
  case sleep i d => exact .slept i d
  case sendBlock i a =>
    cases hr : canBusSendCommand x.canFd (args.config.command i) x.write with
    | sent => exact .sent i a hr
    | refused error =>
      by_cases ha : a+1 < canSendAttempts
      · simpa only [if_pos ha] using WorkerMove.retry i a error hr ha
      · simpa only [if_neg ha] using WorkerMove.giveUp i a error hr ha
  case logBlock i => exact .logged i
  case sendAborted => exact .aborted
  case sendFailed => exact .failed
  case sendCompleted => exact .completed
  case finish => exact .finished

theorem WorkerMove.workerStep_eq {args : SequenceWorkerArgs} {x : WorkerInput} {pc mid : WorkerPc}
    {e : WorkerEvent} (hm : WorkerMove args x pc mid e) :
    workerStep args pc x = some (mid, e) := by
  cases hm with
  | early i d h => simp only [workerStep, if_pos h]
  | late i d h => simp only [workerStep, if_neg h]
  | abortSeen i d h => simp only [workerStep, h, if_true]
  | abortClear i d h => simp only [workerStep, h, Bool.false_eq_true, if_false]
  | stopSeen i d h => simp only [workerStep, h, if_true]
  | stopClear i d h => simp only [workerStep, h, Bool.false_eq_true, if_false]
  | sent i a h => simp only [workerStep, h]
  | retry i a error h ha => simp only [workerStep, h, if_pos ha]
  | giveUp i a error h ha => simp only [workerStep, h, if_neg ha]
  | _ => rfl

/-- A step behind which the worker runs on is the head of a run. -/
theorem worker_run_of_move {args : SequenceWorkerArgs} {x : WorkerInput} {pc mid pc' : WorkerPc}
    {e : WorkerEvent} {xs : List WorkerInput} {tr : List (UInt64 × WorkerEvent)}
    (hm : WorkerMove args x pc mid e) (h : (workerMachine args).run mid xs = some (pc', tr)) :
    (workerMachine args).run pc (x :: xs) = some (pc', (x.now, e) :: tr) := by
  refine Machine.run_cons_eq_some.mpr ⟨mid, [(x.now, e)], tr, ?_, h, rfl⟩
  simp only [workerMachine, hm.workerStep_eq, Option.map_some]

theorem nextBlock_ne_done (args : SequenceWorkerArgs) (i : ℕ) : args.nextBlock i ≠ .done := by
  unfold SequenceWorkerArgs.nextBlock
  split_ifs <;> exact WorkerPc.noConfusion

/-- `finish_sequence` is the one way to the end. -/
theorem WorkerMove.to_done {args : SequenceWorkerArgs} {x : WorkerInput} {pc mid : WorkerPc}
    {e : WorkerEvent} (hm : WorkerMove args x pc mid e) (h : mid = .done) :
    pc = .finish ∧ e = .finishSequence := by
  cases hm with
  | start => exact absurd h (nextBlock_ne_done args 0)
  | logged i => exact absurd h (nextBlock_ne_done args (i+1))
  | finished => exact ⟨rfl, rfl⟩
  | _ => cases h

/-- A run that takes a step: one move, and the run behind it. -/
theorem worker_run_cons (args : SequenceWorkerArgs) (pc pc' : WorkerPc) (x : WorkerInput)
    (xs : List WorkerInput) (tr : List (UInt64 × WorkerEvent))
    (h : (workerMachine args).run pc (x :: xs) = some (pc', tr)) :
    ∃ mid e tr', WorkerMove args x pc mid e ∧
      (workerMachine args).run mid xs = some (pc', tr') ∧ tr = (x.now, e) :: tr' := by
  obtain ⟨mid, o, tr', hstep, hrun, rfl⟩ := Machine.run_cons_eq_some.mp h
  simp only [workerMachine, Option.map_eq_some_iff, Prod.exists, Prod.mk.injEq] at hstep
  obtain ⟨mid, e, hw, rfl, rfl⟩ := hstep
  exact ⟨mid, e, tr', workerStep_move args x pc mid e hw, hrun, rfl⟩

/-- Induction over a run of the worker, from its first step on. -/
theorem worker_run_induction (args : SequenceWorkerArgs)
    {P : WorkerPc → List WorkerInput → WorkerPc → List (UInt64 × WorkerEvent) → Prop}
    (nil : ∀ pc, P pc [] pc [])
    (cons : ∀ x xs pc mid pc' e tr, WorkerMove args x pc mid e →
      (workerMachine args).run mid xs = some (pc', tr) → P mid xs pc' tr →
      P pc (x :: xs) pc' ((x.now, e) :: tr))
    (pc pc' : WorkerPc) (xs : List WorkerInput) (tr : List (UInt64 × WorkerEvent))
    (h : (workerMachine args).run pc xs = some (pc', tr)) : P pc xs pc' tr := by
  induction xs generalizing pc tr with
  | nil =>
    obtain ⟨rfl, rfl⟩ := Prod.mk.inj (Option.some.inj h)
    exact nil pc
  | cons x xs ih =>
    obtain ⟨mid, e, tr', hm, hrun, rfl⟩ := worker_run_cons args pc pc' x xs tr h
    exact cons x xs pc mid pc' e tr' hm hrun (ih mid tr' hrun)

/-- Inside the loop over the blocks, the index is one of a block, and an attempt is
one of those allowed. -/
def WorkerPc.InRange (n : ℕ) : WorkerPc → Prop
  | .enterWait i | .testDeadline i _ | .checkAbort i _ | .checkStop i _ | .sleep i _
  | .logBlock i => i < n
  | .sendBlock i a => i < n ∧ a < canSendAttempts
  | _ => True

theorem inRange_nextBlock (args : SequenceWorkerArgs) (i : ℕ) :
    (args.nextBlock i).InRange args.config.numBlocks := by
  unfold SequenceWorkerArgs.nextBlock
  split_ifs with h
  · exact h
  · trivial

theorem WorkerMove.inRange {args : SequenceWorkerArgs} {x : WorkerInput} {pc pc' : WorkerPc}
    {e : WorkerEvent} (hm : WorkerMove args x pc pc' e) (h : pc.InRange args.config.numBlocks) :
    pc'.InRange args.config.numBlocks := by
  cases hm with
  | start => exact inRange_nextBlock args 0
  | late i d hd => exact ⟨h, by decide⟩
  | sent i a hs => exact h.1
  | retry i a error hs ha => exact ⟨h.1, ha⟩
  | logged i => exact inRange_nextBlock args (i+1)
  | _ => first | exact h | trivial

theorem worker_times (args : SequenceWorkerArgs) (pc pc' : WorkerPc) (xs : List WorkerInput)
    (tr : List (UInt64 × WorkerEvent)) (h : (workerMachine args).run pc xs = some (pc', tr)) :
    tr.map (·.1) = xs.map (·.now) := by
  refine worker_run_induction args (P := fun _ xs _ tr => tr.map (·.1) = xs.map (·.now))
    (fun _ => rfl) ?_ pc pc' xs tr h
  intro x xs pc mid pc' e tr _ _ ih
  simp only [List.map_cons, ih]

end WsServer
