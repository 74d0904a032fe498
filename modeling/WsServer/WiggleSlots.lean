import Mathlib.Data.List.FinRange
import WsServer.Wiggle

/-! What the functions of `wiggle.c` do to one slot, and the CAN commands they attempt. -/
namespace WsServer

/-- The CAN commands that the wiggle code attempted, in order. -/
def attempted (es : List Event) : List CanCommand := es.filterMap Event.wiggleTx

@[simp] theorem attempted_nil : attempted [] = [] := rfl

@[simp] theorem attempted_append (es fs : List Event) :
    attempted (es ++ fs) = attempted es ++ attempted fs := List.filterMap_append

/-- The command that moves the sensor of a slot to a value. -/
def WiggleCommand.tx (slot : WiggleCommand) (value : UInt16) : CanCommand := ⟨slot.id, value, 0⟩

@[simp] theorem attempted_sendValue (fd : Int) (slot : WiggleCommand) (value : UInt16)
    (write : Option String) : attempted (sendValue fd slot value write).2 = [slot.tx value] := by
  dsimp only [sendValue]
  cases canBusSendCommand fd ⟨slot.id, value, 0⟩ write <;> rfl

theorem deactivateSlot_inactive (fd : Int) (slot : WiggleCommand) (sendExitValue : Bool)
    (write : Option String) (h : slot.active = false) :
    deactivateSlot fd slot sendExitValue write = (slot, []) := by
  simp only [deactivateSlot, h, Bool.not_false, if_true]

theorem deactivateSlot_active (fd : Int) (slot : WiggleCommand) (sendExitValue : Bool)
    (write : Option String) (h : slot.active = true) :
    (deactivateSlot fd slot sendExitValue write).1 = .zero ∧
      attempted (deactivateSlot fd slot sendExitValue write).2 =
        if sendExitValue then [slot.tx slot.exitValue] else [] := by
  unfold deactivateSlot
  rw [h, Bool.not_true, if_neg Bool.false_ne_true]
  cases sendExitValue
  · exact ⟨rfl, rfl⟩
  · exact ⟨rfl, attempted_sendValue fd slot slot.exitValue write⟩

theorem deactivateSlot_active_false (fd : Int) (slot : WiggleCommand) (sendExitValue : Bool)
    (write : Option String) :
    (deactivateSlot fd slot sendExitValue write).1.active = false := by
  cases h : slot.active with
  | false => rw [deactivateSlot_inactive fd slot sendExitValue write h, h]
  | true => rw [(deactivateSlot_active fd slot sendExitValue write h).1]; rfl

theorem processSlot_inactive (fd : Int) (now : UInt64) (slot : WiggleCommand)
    (write : Option String) (h : slot.active = false) :
    processSlot fd now slot write = (slot, []) := by
  simp only [processSlot, h, Bool.not_false, if_true]

theorem attempted_overSlots (app : App) (body : Fin appMaxWiggles → WiggleCommand × List Event) :
    attempted (overSlots app body).2 =
      (List.finRange appMaxWiggles).flatMap (fun i => attempted (body i).2) := by
  simp only [overSlots, attempted, List.filterMap_flatMap]

/-! ### Tables without an active slot -/

def Quiet (t : WiggleTable) : Prop := ∀ i, (t i).active = false

theorem findSlot_quiet {t : WiggleTable} (h : Quiet t) (id : UInt32) : findSlot t id = none := by
  refine List.find?_eq_none.mpr ?_
  intro i _
  rw [h i, Bool.false_and]
  exact Bool.false_ne_true

theorem wiggleStopLocked_quiet {app : App} (env : Env) (id : UInt32) (h : Quiet app.wiggles) :
    wiggleStopLocked app env id = (app, false, []) := by
  simp only [wiggleStopLocked, findSlot_quiet h]

theorem quiet_wiggleStopAllLocked (app : App) (env : Env) (sendExitValue : Bool) :
    Quiet (wiggleStopAllLocked app env sendExitValue).1.wiggles :=
  fun _ => deactivateSlot_active_false _ _ _ _

/-- The exit values of the active slots, in the order of the slots. -/
def exitCommands (t : WiggleTable) : List CanCommand :=
  ((List.finRange appMaxWiggles).filter (fun i => (t i).active)).map
    (fun i => (t i).tx (t i).exitValue)

theorem attempted_wiggleStopAllLocked (app : App) (env : Env) :
    attempted (wiggleStopAllLocked app env true).2.2 = exitCommands app.wiggles := by
  simp only [wiggleStopAllLocked, attempted_overSlots, exitCommands]
  induction List.finRange appMaxWiggles with
  | nil => rfl
  | cons i is ih =>
    rw [List.flatMap_cons, ih]
    cases h : (app.wiggles i).active with
    | false =>
      rw [deactivateSlot_inactive _ _ _ _ h, List.filter_cons_of_neg (by simp [h]), attempted_nil,
        List.nil_append]
    | true =>
      rw [(deactivateSlot_active _ _ _ _ h).2, if_pos rfl, List.filter_cons_of_pos (by simp [h]),
        List.map_cons, List.singleton_append]

theorem wiggleProcess_hotfire {app : App} (env : Env) (h : app.state = .hotfire) :
    wiggleProcess app env = (app, []) := by
  simp only [wiggleProcess, h, ne_eq, reduceCtorEq, not_false_eq_true, if_true]

theorem quiet_wiggleProcess {app : App} (env : Env) (h : Quiet app.wiggles) :
    Quiet (wiggleProcess app env).1.wiggles ∧ attempted (wiggleProcess app env).2 = [] := by
  unfold wiggleProcess
  split_ifs
  · exact ⟨h, rfl⟩
  · refine ⟨?_, ?_⟩
    · intro i
      simp only [overSlots, processSlot_inactive _ _ _ _ (h i), h i]
    · simp only [attempted_overSlots, processSlot_inactive _ _ _ _ (h _), attempted_nil,
        List.flatMap_eq_nil_iff, implies_true]

end WsServer
