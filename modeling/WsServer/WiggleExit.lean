import WsServer.WiggleIds
import WsServer.WiggleRoom

/-! What a wiggle leaves its valve at when it ends. `send_value` drops the result of the
write and `deactivate_slot` clears the slot behind it, so the valve is at the exit value
exactly if that one write succeeds. -/
namespace WsServer
open Interaction

/-! ### What the bus has got -/

/-- A value that the wiggle code sends to the id, with the result of the write. -/
def Event.wiggleSend (id : UInt32) : Event → Option (UInt16 × SendResult)
  | .canTx .wiggle c result => if c.id = id then some (c.value, result) else none
  | _ => none

def sendResults (id : UInt32) (es : List Event) : List (UInt16 × SendResult) :=
  es.filterMap (Event.wiggleSend id)

/-- The value of the last frame that the wiggle code has written for the id. -/
def lastWritten (id : UInt32) (es : List Event) : Option UInt16 :=
  (((sendResults id es).filter (fun x => x.2 = .sent)).getLast?).map Prod.fst

/-! ### The operations -/

/-- The checks of `wiggle_start` come before its critical section. -/
def Act.Accepted : Act → Prop
  | .wiggleStart r => ¬ (r.periodMs = 0 ∨ r.id > 0x7FF)
  | _ => True

instance : DecidablePred Act.Accepted
  | .wiggleStart r => inferInstanceAs (Decidable (¬ (r.periodMs = 0 ∨ r.id > 0x7FF)))
  | .registerClient _ | .unregisterClient _ | .clientContext _ | .setWriteOnly _ _ | .getState
  | .storeState _ | .wiggleStop _ | .wiggleStopAll _ | .wiggleProcess | .setValve _ _
  | .readProfile | .allocate | .claimSequence | .callocArgs | .createWorker _ | .finishSequence
  | .requestAbort | .canSend _ | .log _ _ | .sendText _ _ | .broadcast _ => isTrue trivial

/-- The actions of all threads, in the order in which they get their locks. -/
def actions : Machine Process (Act × Env) Event where
  step p l :=
    if l.1.Accepted then
      let x := perform p l.2 l.1
      some (x.1, x.2.2)
    else none

abbrev ActStep := Machine.Taken Process (Act × Env) Event

/-- The process behind a step. -/
def ActStep.behind (x : ActStep) : Process := (perform x.state x.label.2 x.label.1).1

/-- Slots that the step clears leave their valves at the exit value, but for `wiggle_stop_all`
without exit values; a slot whose exit frame could not be written is not forgotten. -/
structure LeavesExitValue (before : List ActStep) (x : ActStep) : Prop where
  left : ∀ i, (x.state.app.wiggles i).active = true → (x.behind.app.wiggles i).active = false →
    x.label.1 ≠ .wiggleStopAll false →
      lastWritten (x.state.app.wiggles i).id
        (before.flatMap Machine.Taken.outputs ++ x.outputs) =
        some (x.state.app.wiggles i).exitValue
  kept : ∀ i error, (x.state.app.wiggles i).active = true →
    ((x.state.app.wiggles i).exitValue, .refused error) ∈
      sendResults (x.state.app.wiggles i).id x.outputs → (x.behind.app.wiggles i).active = true

/-- The action ends the wiggle of the slot and sends its exit value. -/
def Act.Ends (app : App) (env : Env) (i : Fin appMaxWiggles) : Act → Prop
  | .wiggleStop id => (app.wiggles i).active = true ∧ (app.wiggles i).id = id
  | .wiggleStopAll sendExitValue => (app.wiggles i).active = true ∧ sendExitValue = true
  | .wiggleProcess => app.state = .prechilling ∧ (app.wiggles i).active = true ∧
      (app.wiggles i).totalDurationMs > 0 ∧ (app.wiggles i).stopTimeMs > 0 ∧
      env.now ≥ (app.wiggles i).stopTimeMs
  | _ => False

/-- The write that the action makes for the slot: `wiggle_stop` makes one, the loops make
one for each slot. -/
def Act.writeFor (env : Env) (i : Fin appMaxWiggles) : Act → Option String
  | .wiggleStop _ => env.write 0
  | _ => env.write i

/-- The socket is open, and no write of an exit value fails. -/
def ExitFramesWritten (x : ActStep) : Prop :=
  ∀ i, x.label.1.Ends x.state.app x.label.2 i →
    0 ≤ x.state.app.canFd ∧ x.label.1.writeFor x.label.2 i = none

/-! ### One slot -/

theorem sendResults_sendValue (id : UInt32) (fd : Int) (slot : WiggleCommand) (value : UInt16)
    (write : Option String) : sendResults id (sendValue fd slot value write).2 =
      if slot.id = id then [(value, canBusSendCommand fd (slot.tx value) write)] else [] := by
  have htx : (⟨slot.id, value, 0⟩ : CanCommand) = slot.tx value := rfl
  simp only [sendValue, htx]
  cases canBusSendCommand fd (slot.tx value) write with
  | sent => split_ifs with hid <;> simp [sendResults, Event.wiggleSend, WiggleCommand.tx, hid]
  | refused error =>
    split_ifs with hid <;> simp [sendResults, Event.wiggleSend, WiggleCommand.tx, hid]

theorem sendResults_deactivateSlot (id : UInt32) (fd : Int) {slot : WiggleCommand}
    (sendExitValue : Bool) (write : Option String) (h : slot.active = true) :
    sendResults id (deactivateSlot fd slot sendExitValue write).2 =
      if sendExitValue = true ∧ slot.id = id then
        [(slot.exitValue, canBusSendCommand fd (slot.tx slot.exitValue) write)]
      else [] := by
  unfold deactivateSlot
  rw [h, Bool.not_true, if_neg Bool.false_ne_true]
  cases sendExitValue with
  | false => simp only [Bool.false_eq_true, if_false, false_and]; rfl
  | true => simp only [if_true, true_and, sendResults_sendValue]

theorem sendResults_processSlot_other {id : UInt32} {slot : WiggleCommand} (hid : slot.id ≠ id)
    (fd : Int) (now : UInt64) (write : Option String) :
    sendResults id (processSlot fd now slot write).2 = [] := by
  unfold processSlot
  split_ifs with hactive hexpired hearly
  · rfl
  · rw [Bool.not_eq_true', Bool.not_eq_false] at hactive
    rw [sendResults_deactivateSlot id fd true write hactive, if_neg (fun h => hid h.2)]
  · rfl
  · exact (sendResults_sendValue id fd slot slot.endValue write).trans (if_neg hid)
  · exact (sendResults_sendValue id fd slot slot.startValue write).trans (if_neg hid)

/-- No two active slots have one id. -/
def WiggleTable.Distinct (t : WiggleTable) : Prop :=
  ∀ i j, (t i).active = true → (t j).active = true → (t i).id = (t j).id → i = j

/-- A loop over the slots sends for an id what it sends for the slot of that id. -/
theorem sendResults_overSlots {app : App} (hdistinct : app.wiggles.Distinct)
    {body : Fin appMaxWiggles → WiggleCommand × List Event} {i : Fin appMaxWiggles}
    (hactive : (app.wiggles i).active = true)
    (hquiet : ∀ j, (app.wiggles j).active = false → (body j).2 = [])
    (hother : ∀ j, (app.wiggles j).id ≠ (app.wiggles i).id →
      sendResults (app.wiggles i).id (body j).2 = []) :
    sendResults (app.wiggles i).id (overSlots app body).2 =
      sendResults (app.wiggles i).id (body i).2 := by
  have hnone : ∀ j, j ≠ i → sendResults (app.wiggles i).id (body j).2 = [] := by
    intro j hj
    cases hjactive : (app.wiggles j).active with
    | false =>
      rw [hquiet j hjactive]
      rfl
    | true => exact hother j (fun hid => hj (hdistinct j i hjactive hactive hid))
  have hsplit : sendResults (app.wiggles i).id (overSlots app body).2 =
      (List.finRange appMaxWiggles).flatMap
        (fun j => sendResults (app.wiggles i).id (body j).2) := by
    simp only [overSlots, sendResults, List.filterMap_flatMap]
  obtain ⟨before, after, hrange⟩ := List.append_of_mem (List.mem_finRange i)
  have hnodup := List.nodup_finRange appMaxWiggles
  rw [hrange, List.nodup_append, List.nodup_cons] at hnodup
  obtain ⟨-, ⟨hafter, -⟩, hbefore⟩ := hnodup
  rw [hsplit, hrange, List.flatMap_append, List.flatMap_cons]
  have hfirst : before.flatMap (fun j => sendResults (app.wiggles i).id (body j).2) = [] := by
    apply List.flatMap_eq_nil_iff.mpr
    intro j hj
    exact hnone j (hbefore j hj i List.mem_cons_self)
  have hlast : after.flatMap (fun j => sendResults (app.wiggles i).id (body j).2) = [] := by
    apply List.flatMap_eq_nil_iff.mpr
    intro j hj
    apply hnone
    rintro rfl
    exact hafter hj
  rw [hfirst, hlast, List.nil_append, List.append_nil]

/-- What an action does to an active slot, with what is sent for its id. -/
inductive SlotStep (p : Process) (env : Env) (a : Act) (i : Fin appMaxWiggles) :
    WiggleCommand → List (UInt16 × SendResult) → Prop where
  | ended (h : a.Ends p.app env i) : SlotStep p env a i .zero
      [((p.app.wiggles i).exitValue, canBusSendCommand p.app.canFd
        ((p.app.wiggles i).tx (p.app.wiggles i).exitValue) (a.writeFor env i))]
  | dropped (h : a = .wiggleStopAll false) : SlotStep p env a i .zero []
  | stays (slot : WiggleCommand) (sends : List (UInt16 × SendResult))
      (hactive : slot.active = true) (h : ¬ a.Ends p.app env i) : SlotStep p env a i slot sends

theorem slotStep_start {p : Process} {i : Fin appMaxWiggles} (env : Env) (r : WiggleRequest)
    (hactive : (p.app.wiggles i).active = true) :
    SlotStep p env (.wiggleStart r) i ((perform p env (.wiggleStart r)).1.app.wiggles i)
      (sendResults (p.app.wiggles i).id (perform p env (.wiggleStart r)).2.2) := by
  have hends : ¬ (Act.wiggleStart r).Ends p.app env i := id
  refine .stays _ _ ?_ hends
  rcases wiggleStartLocked_cases p.app env r with ⟨-, k, hstarted⟩ | ⟨hsame, -⟩
  · obtain ⟨slot, happ, hslot, -⟩ := hstarted.table
    simp only [perform, Process.setApp, happ]
    by_cases hik : i = k
    · rw [hik, Function.update_self]
      exact hslot
    · rw [Function.update_of_ne hik]
      exact hactive
  · simp only [perform, Process.setApp, hsame]
    exact hactive

theorem slotStep_stop {p : Process} {i : Fin appMaxWiggles} (env : Env) (id : UInt32)
    (hdistinct : p.app.wiggles.Distinct) (hactive : (p.app.wiggles i).active = true) :
    SlotStep p env (.wiggleStop id) i ((perform p env (.wiggleStop id)).1.app.wiggles i)
      (sendResults (p.app.wiggles i).id (perform p env (.wiggleStop id)).2.2) := by
  simp only [perform, Process.setApp, wiggleStopLocked]
  cases hfind : findSlot p.app.wiggles id with
  | none =>
    have hnone := findSlot_eq_none.mp hfind
    exact .stays _ _ hactive (fun hends => hnone ⟨i, hends⟩)
  | some k =>
    obtain ⟨hk, hkid⟩ := findSlot_running hfind
    by_cases hik : i = k
    · subst hik
      have hslot := (deactivateSlot_active p.app.canFd (p.app.wiggles i) true (env.write 0) hk).1
      simp only [Function.update_self, hslot,
        sendResults_deactivateSlot _ p.app.canFd true (env.write 0) hk, and_self, if_true]
      exact .ended ⟨hk, hkid⟩
    · have hends : ¬ (Act.wiggleStop id).Ends p.app env i := by
        rintro ⟨-, hid⟩
        exact hik (hdistinct i k hactive hk (hid.trans hkid.symm))
      simp only [Function.update_of_ne hik]
      exact .stays _ _ hactive hends

theorem slotStep_stopAll {p : Process} {i : Fin appMaxWiggles} (env : Env) (sendExitValue : Bool)
    (hdistinct : p.app.wiggles.Distinct) (hactive : (p.app.wiggles i).active = true) :
    SlotStep p env (.wiggleStopAll sendExitValue) i
      ((perform p env (.wiggleStopAll sendExitValue)).1.app.wiggles i)
      (sendResults (p.app.wiggles i).id (perform p env (.wiggleStopAll sendExitValue)).2.2) := by
  have hslot := (deactivateSlot_active p.app.canFd (p.app.wiggles i) sendExitValue
    (env.write i) hactive).1
  let body (j : Fin appMaxWiggles) :=
    deactivateSlot p.app.canFd (p.app.wiggles j) sendExitValue (env.write j)
  have hsends : sendResults (p.app.wiggles i).id (overSlots p.app body).2 =
      sendResults (p.app.wiggles i).id (body i).2 := by
    apply sendResults_overSlots hdistinct hactive
    · intro j hj
      simp only [body, deactivateSlot_inactive _ _ _ _ hj]
    · intro j hid
      cases hj : (p.app.wiggles j).active with
      | false =>
        simp only [body, deactivateSlot_inactive _ _ _ _ hj]
        rfl
      | true =>
        simp only [body, sendResults_deactivateSlot _ p.app.canFd sendExitValue _ hj]
        exact if_neg (fun h => hid h.2)
  simp only [perform, Process.setApp, wiggleStopAllLocked]
  rw [hsends]
  simp only [body, overSlots, hslot, sendResults_deactivateSlot _ p.app.canFd sendExitValue
    (env.write i) hactive, and_true]
  cases sendExitValue with
  | false => exact .dropped rfl
  | true => exact .ended ⟨hactive, rfl⟩

theorem slotStep_process {p : Process} {i : Fin appMaxWiggles} (env : Env)
    (hdistinct : p.app.wiggles.Distinct) (hactive : (p.app.wiggles i).active = true) :
    SlotStep p env .wiggleProcess i ((perform p env .wiggleProcess).1.app.wiggles i)
      (sendResults (p.app.wiggles i).id (perform p env .wiggleProcess).2.2) := by
  simp only [perform, Process.setApp, wiggleProcess]
  by_cases hstate : p.app.state ≠ .prechilling
  · rw [if_pos hstate]
    exact .stays _ _ hactive (fun hends => hstate hends.1)
  rw [if_neg hstate, sendResults_overSlots hdistinct hactive
    (fun j hj => by rw [processSlot_inactive _ _ _ _ hj])
    (fun j hid => sendResults_processSlot_other hid _ _ _)]
  simp only [overSlots]
  have hstays : ¬ (!(p.app.wiggles i).active) = true := by rw [hactive]; exact Bool.false_ne_true
  unfold processSlot
  rw [if_neg hstays]
  split_ifs with hexpired hearly
  · have hslot := (deactivateSlot_active p.app.canFd (p.app.wiggles i) true (env.write i) hactive).1
    rw [hslot, sendResults_deactivateSlot _ p.app.canFd true _ hactive, if_pos ⟨rfl, rfl⟩]
    exact .ended ⟨not_not.mp hstate, hactive, hexpired⟩
  all_goals exact .stays _ _ hactive (fun hends => hexpired hends.2.2)

/-- Everything an action can be for an active slot. -/
theorem slotStep {p : Process} {i : Fin appMaxWiggles} (env : Env) (a : Act)
    (hdistinct : p.app.wiggles.Distinct) (hactive : (p.app.wiggles i).active = true) :
    SlotStep p env a i ((perform p env a).1.app.wiggles i)
      (sendResults (p.app.wiggles i).id (perform p env a).2.2) := by
  cases a with
  | wiggleStart r => exact slotStep_start env r hactive
  | wiggleStop id => exact slotStep_stop env id hdistinct hactive
  | wiggleStopAll sendExitValue => exact slotStep_stopAll env sendExitValue hdistinct hactive
  | wiggleProcess => exact slotStep_process env hdistinct hactive
  | claimSequence =>
    refine .stays _ _ ?_ id
    simp only [perform, App.claimSequence, Process.setApp]
    split_ifs <;> exact hactive
  | createWorker args =>
    refine .stays _ _ ?_ id
    simp only [perform]
    split_ifs <;> exact hactive
  | _ => exact .stays _ _ hactive id

/-! ### Every reachable table -/

theorem keeps_distinct {t t' : WiggleTable} (h : t.Distinct)
    (hkeeps : ∀ i, (t' i).active = true → (t i).active = true ∧ (t' i).id = (t i).id) :
    t'.Distinct := by
  intro i j hi hj hid
  obtain ⟨hi, hidi⟩ := hkeeps i hi
  obtain ⟨hj, hidj⟩ := hkeeps j hj
  exact h i j hi hj (hidi.symm.trans (hid.trans hidj))

theorem deactivateSlot_keeps {fd : Int} {slot : WiggleCommand} {sendExitValue : Bool}
    {write : Option String}
    (h : (deactivateSlot fd slot sendExitValue write).1.active = true) : False :=
  Bool.false_ne_true ((deactivateSlot_active_false fd slot sendExitValue write).symm.trans h)

theorem processSlot_keeps {fd : Int} {now : UInt64} {slot : WiggleCommand} {write : Option String}
    (h : (processSlot fd now slot write).1.active = true) :
    slot.active = true ∧ (processSlot fd now slot write).1.id = slot.id := by
  cases hactive : slot.active with
  | false =>
    rw [processSlot_inactive fd now slot write hactive, hactive] at h
    cases h
  | true =>
    refine ⟨rfl, ?_⟩
    unfold processSlot at h ⊢
    rw [hactive, Bool.not_true, if_neg Bool.false_ne_true] at h ⊢
    split_ifs at h ⊢
    · exact (deactivateSlot_keeps h).elim
    all_goals rfl

theorem StartedAt.distinct {app app' : App} {env : Env} {r : WiggleRequest}
    {k : Fin appMaxWiggles} (hs : StartedAt app env r k app') (h : app.wiggles.Distinct) :
    app'.wiggles.Distinct := by
  obtain ⟨slot, rfl, -, hid, -⟩ := hs.table
  have hother : ∀ j, j ≠ k → (app.wiggles j).active = true → (app.wiggles j).id ≠ r.id := by
    intro j hj hactive hjid
    rcases hs.slot with ⟨hk, hkid⟩ | ⟨-, hnone⟩
    · exact hj (h j k hactive hk (hjid.trans hkid.symm))
    · exact hnone ⟨j, hactive, hjid⟩
  intro i j hi hj hij
  by_cases hik : i = k
  · by_cases hjk : j = k
    · exact hik.trans hjk.symm
    · simp only [hik, Function.update_self, Function.update_of_ne hjk] at hj hij
      exact absurd (hij.symm.trans hid) (hother j hjk hj)
  · by_cases hjk : j = k
    · simp only [hjk, Function.update_self, Function.update_of_ne hik] at hi hij
      exact absurd (hij.trans hid) (hother i hik hi)
    · simp only [Function.update_of_ne hik, Function.update_of_ne hjk] at hi hj hij
      exact h i j hi hj hij

theorem perform_distinct {p : Process} (h : p.app.wiggles.Distinct) (env : Env) (a : Act) :
    (perform p env a).1.app.wiggles.Distinct := by
  cases a with
  | wiggleStart r =>
    simp only [perform, Process.setApp]
    rcases wiggleStartLocked_cases p.app env r with ⟨-, k, hstarted⟩ | ⟨hsame, -⟩
    · exact hstarted.distinct h
    · rw [hsame]
      exact h
  | wiggleStop id =>
    simp only [perform, Process.setApp, wiggleStopLocked]
    split
    · exact h
    · rename_i k hk
      refine keeps_distinct h ?_
      intro i hi
      by_cases hik : i = k
      · simp only [hik, Function.update_self] at hi
        exact (deactivateSlot_keeps hi).elim
      · simp only [Function.update_of_ne hik] at hi ⊢
        exact ⟨hi, trivial⟩
  | wiggleStopAll sendExitValue =>
    exact keeps_distinct h (fun _ hi => (deactivateSlot_keeps hi).elim)
  | wiggleProcess =>
    simp only [perform, Process.setApp, wiggleProcess]
    split_ifs
    · exact h
    · exact keeps_distinct h (fun _ hi => processSlot_keeps hi)
  | claimSequence =>
    simp only [perform, App.claimSequence, Process.setApp]
    split_ifs <;> exact h
  | createWorker args =>
    simp only [perform]
    split_ifs <;> exact h
  | _ => exact h

/-- What the critical sections keep of the table: one active slot for an id, and no id that
the bus refuses. -/
structure Process.Keyed (p : Process) : Prop where
  valid : p.app.wiggles.ValidIds
  distinct : p.app.wiggles.Distinct

theorem keyed_initial (config : AppConfig) (canFd : Int) :
    Process.Keyed ⟨appContextInit config canFd, []⟩ where
  valid _ := validId_zero
  distinct _ _ h := absurd h Bool.false_ne_true

theorem keyed_step {p : Process} {l : Act × Env} {x : Process × List Event} (h : p.Keyed)
    (hstep : actions.step p l = some x) : x.1.Keyed := by
  simp only [actions] at hstep
  split_ifs at hstep with haccepted
  obtain rfl := Option.some.inj hstep
  refine ⟨perform_validIds h.valid l.2 l.1 ?_, perform_distinct h.distinct l.2 l.1⟩
  obtain ⟨a, env⟩ := l
  cases a with
  | wiggleStart r => exact UInt32.not_lt.mp (not_or.mp haccepted).2
  | _ => trivial

theorem accepted_call (config : AppConfig) (c : Call) :
    Program.Performs Act.Accepted (c.program config) := by
  by_cases hc : c = .tick
  · rw [hc]
    exact performs_then trivial (fun _ => performs_pure 0)
  · apply (served_call config c hc).mono
    intro a ha
    cases a with
    | wiggleStart r => exact not_or.mpr ⟨ha.1, UInt32.not_lt.mpr ha.2⟩
    | _ => trivial

/-- Whatever a thread of the server does, in any interleaving, is a step of this machine. -/
theorem actions_of_server {config : AppConfig} {canFd : Int} {s s' : System} {t : Thread}
    {env : Env} {os : List Output} (h : server.Reachable (System.initial config canFd) s)
    (hstep : server.step s ⟨.thread t, env⟩ = some (s', os)) :
    ∃ a es, s.action (.thread t) = some a ∧
      actions.step s.process (a, env) = some (s'.process, es) ∧ os = es.map (.event t) := by
  have hthreads : ∀ t, Program.Performs Act.Accepted (s.threads t) := by
    apply h.invariant (I := fun s => ∀ t, Program.Performs Act.Accepted (s.threads t))
    · exact fun _ => trivial
    · intro s l x hs hstep
      exact (system_move hstep).threads hs (fun _ c _ => accepted_call _ c) (fun _ _ _ hp => hp.2 _)
  have hmove : SystemMove s env (.thread t) s' os := system_move hstep
  cases hmove with
  | thread t a k ht =>
    have ha := hthreads t
    rw [ht] at ha
    exact ⟨a, _, action_of_thread ht, if_pos ha.1, rfl⟩

/-! ### The law -/

theorem sendResults_append (id : UInt32) (es fs : List Event) :
    sendResults id (es ++ fs) = sendResults id es ++ sendResults id fs := List.filterMap_append

/-- A step that ends in a frame written for the id. -/
theorem lastWritten_of_sent {id : UInt32} {es fs : List Event} {value : UInt16}
    (h : sendResults id fs = [(value, .sent)]) : lastWritten id (es ++ fs) = some value := by
  have hfilter : (sendResults id fs).filter (fun x => x.2 = .sent) = [(value, .sent)] := by
    rw [h]
    rfl
  rw [lastWritten, sendResults_append, List.filter_append, hfilter, List.getLast?_concat]
  rfl

theorem canBusSendCommand_eq_sent {fd : Int} {c : CanCommand} {write : Option String}
    (hid : c.id ≤ 0x7FF) : canBusSendCommand fd c write = .sent ↔ 0 ≤ fd ∧ write = none := by
  have hgood : ¬ c.id > 0x7FF := UInt32.not_lt.mpr hid
  unfold canBusSendCommand
  by_cases hfd : fd < 0
  · rw [if_pos (Or.inl hfd)]
    refine iff_of_false nofun ?_
    intro h
    omega
  · rw [if_neg (not_or.mpr ⟨hfd, hgood⟩)]
    cases write with
    | none => exact iff_of_true rfl ⟨not_lt.mp hfd, rfl⟩
    | some error => exact iff_of_false nofun (fun h => Option.some_ne_none error h.2)

theorem Act.Ends.active {app : App} {env : Env} {i : Fin appMaxWiggles} {a : Act}
    (h : a.Ends app env i) : (app.wiggles i).active = true := by
  cases a with
  | wiggleStop id => exact h.1
  | wiggleStopAll sendExitValue => exact h.1
  | wiggleProcess => exact h.2.1
  | _ => exact h.elim

/-- What a slot that is cleared says of its exit frame. -/
theorem slotStep_of_keyed {x : ActStep} (hs : x.state.Keyed)
    (hsent : x.outputs = (perform x.state x.label.2 x.label.1).2.2) {i : Fin appMaxWiggles}
    (hactive : (x.state.app.wiggles i).active = true) :
    SlotStep x.state x.label.2 x.label.1 i (x.behind.app.wiggles i)
      (sendResults (x.state.app.wiggles i).id x.outputs) := by
  rw [hsent]
  exact slotStep x.label.2 x.label.1 hs.distinct hactive

/-- The bus takes an exit frame if the socket is open and the write succeeds. -/
theorem exitFrame_sent_iff {x : ActStep} (hs : x.state.Keyed) {i : Fin appMaxWiggles}
    (hactive : (x.state.app.wiggles i).active = true) :
    canBusSendCommand x.state.app.canFd
        ((x.state.app.wiggles i).tx (x.state.app.wiggles i).exitValue)
        (x.label.1.writeFor x.label.2 i) = .sent ↔
      0 ≤ x.state.app.canFd ∧ x.label.1.writeFor x.label.2 i = none :=
  canBusSendCommand_eq_sent (hs.valid i hactive)

theorem leavesExitValue_iff (before : List ActStep) {x : ActStep} (hs : x.state.Keyed)
    (hsent : x.outputs = (perform x.state x.label.2 x.label.1).2.2) :
    LeavesExitValue before x ↔ ExitFramesWritten x := by
  constructor
  · -- a slot whose exit frame is refused is cleared all the same, against the law
    intro hlaw i hends
    have hactive := hends.active
    have hkept := hlaw.kept i
    apply (exitFrame_sent_iff hs hactive).mp
    have hi := slotStep_of_keyed hs hsent hactive
    generalize x.behind.app.wiggles i = slot at hi hkept
    generalize sendResults (x.state.app.wiggles i).id x.outputs = sends at hi hkept
    cases hi with
    | ended hends =>
      cases hresult : canBusSendCommand x.state.app.canFd
          ((x.state.app.wiggles i).tx (x.state.app.wiggles i).exitValue)
          (x.label.1.writeFor x.label.2 i) with
      | sent => rfl
      | refused error =>
        rw [hresult] at hkept
        cases hkept error hactive List.mem_cons_self
    | dropped hdrop =>
      rw [hdrop] at hends
      cases hends.2
    | stays slot sends hslot hnot => exact absurd hends hnot
  · intro hwritten
    refine ⟨?_, ?_⟩
    · intro i hactive hcleared hsends
      have hi := slotStep_of_keyed hs hsent hactive
      generalize hslot : x.behind.app.wiggles i = slot at hi hcleared
      generalize hresults : sendResults (x.state.app.wiggles i).id x.outputs = sends at hi
      cases hi with
      | ended hends =>
        apply lastWritten_of_sent
        rw [hresults, (exitFrame_sent_iff hs hactive).mpr (hwritten i hends)]
      | dropped hdrop => exact absurd hdrop hsends
      | stays slot sends hactive' hnot => cases hcleared.symm.trans hactive'
    · intro i error hactive hrefused
      have hi := slotStep_of_keyed hs hsent hactive
      generalize x.behind.app.wiggles i = slot at hi ⊢
      generalize sendResults (x.state.app.wiggles i).id x.outputs = sends at hi hrefused
      cases hi with
      | ended hends =>
        rw [(exitFrame_sent_iff hs hactive).mpr (hwritten i hends), List.mem_singleton] at hrefused
        cases hrefused
      | dropped hdrop => exact absurd hrefused List.not_mem_nil
      | stays slot sends hactive' hnot => exact hactive'

/-- The server before its first action. -/
def actionsInitial (config : AppConfig) (canFd : Int) : Process := ⟨appContextInit config canFd, []⟩

/-- In every run every slot that is cleared leaves its valve at the exit value, and none is
forgotten whose exit frame could not be written, exactly when all exit frames are written. -/
theorem exit_values_left (config : AppConfig) (canFd : Int) (ls : List (Act × Env)) :
    (∀ before x after,
      actions.history (actionsInitial config canFd) ls = before ++ x :: after →
        LeavesExitValue before x) ↔
      ∀ x ∈ actions.history (actionsInitial config canFd) ls, ExitFramesWritten x := by
  have hsteps := Machine.forall_mem_history (fun _ _ _ hp hstep => keyed_step hp hstep)
    (keyed_initial config canFd) ls
  have hiff (before : List ActStep) (x : ActStep)
      (hx : x ∈ actions.history (actionsInitial config canFd) ls) :
      LeavesExitValue before x ↔ ExitFramesWritten x := by
    obtain ⟨hkeyed, s', hstep⟩ := hsteps x hx
    apply leavesExitValue_iff before hkeyed
    simp only [actions] at hstep
    split_ifs at hstep
    exact (congrArg Prod.snd (Option.some.inj hstep)).symm
  constructor
  · intro hlaw x hx
    obtain ⟨before, after, hsplit⟩ := List.append_of_mem hx
    exact (hiff before x hx).mp (hlaw before x after hsplit)
  · intro hwritten before x after hsplit
    have hx : x ∈ actions.history (actionsInitial config canFd) ls := by
      rw [hsplit]
      exact List.mem_append_right before List.mem_cons_self
    exact (hiff before x hx).mpr (hwritten x hx)

/-- The write of the exit frame fails with `ENOBUFS`: the valve stays at the start value and
the slot is gone. -/
theorem exit_value_lost :
    let ready : Env := ⟨0, fun _ => none, true, true⟩
    let full : Env := ⟨50, fun _ => some "No buffer space available", true, true⟩
    let run : List (Act × Env) :=
      [(.wiggleStart ⟨0x101, 1, 2, 3, 100, 0⟩, ready), (.wiggleStop 0x101, full)]
    ¬ ∀ before x after, actions.history (actionsInitial ⟨false, false⟩ 3) run =
      before ++ x :: after → LeavesExitValue before x := by
  intro ready full run hlaw
  let start := perform (actionsInitial ⟨false, false⟩ 3) ready (.wiggleStart ⟨0x101, 1, 2, 3, 100, 0⟩)
  let stop := perform start.1 full (.wiggleStop 0x101)
  have hleft := (hlaw [⟨actionsInitial ⟨false, false⟩ 3, (.wiggleStart _, ready), start.2.2⟩]
    ⟨start.1, (.wiggleStop 0x101, full), stop.2.2⟩ [] rfl).left ⟨0, by decide⟩ (by decide)
    (by decide) Act.noConfusion
  exact absurd hleft (by decide)

end WsServer
