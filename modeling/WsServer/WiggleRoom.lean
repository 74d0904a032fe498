import Mathlib.Data.Finset.Card
import Mathlib.Data.Fintype.Basic
import WsServer.Control
import WsServer.WiggleSlots

/-! How many wiggles a table can still take: a start succeeds when its id is running or a
slot is free, and a list of starts when its new ids are no more than the free slots. -/
namespace WsServer

/-- The id has an active slot. -/
def Running (t : WiggleTable) (id : UInt32) : Prop := ∃ i, (t i).active = true ∧ (t i).id = id

instance (t : WiggleTable) (id : UInt32) : Decidable (Running t id) :=
  inferInstanceAs (Decidable (∃ i, (t i).active = true ∧ (t i).id = id))

def freeSlots (t : WiggleTable) : Finset (Fin appMaxWiggles) :=
  Finset.univ.filter (fun i => (t i).active = false)

/-- The ids that would need a slot of their own. -/
def newIds (t : WiggleTable) (ids : List UInt32) : Finset UInt32 :=
  ids.toFinset.filter (fun id => ¬ Running t id)

/-- There are enough free slots for the distinct new ids. -/
def Room (t : WiggleTable) (ids : List UInt32) : Prop :=
  (newIds t ids).card ≤ (freeSlots t).card

instance (t : WiggleTable) (ids : List UInt32) : Decidable (Room t ids) :=
  inferInstanceAs (Decidable (_ ≤ _))

theorem mem_freeSlots {t : WiggleTable} {i : Fin appMaxWiggles} :
    i ∈ freeSlots t ↔ (t i).active = false := by
  rw [freeSlots, Finset.mem_filter, and_iff_right (Finset.mem_univ i)]

theorem findSlot_running {t : WiggleTable} {id : UInt32} {i : Fin appMaxWiggles}
    (h : findSlot t id = some i) : (t i).active = true ∧ (t i).id = id := by
  have hi := List.find?_some h
  rw [Bool.and_eq_true, beq_iff_eq] at hi
  exact hi

theorem findSlot_eq_none {t : WiggleTable} {id : UInt32} :
    findSlot t id = none ↔ ¬ Running t id := by
  rw [findSlot, List.find?_eq_none]
  constructor
  · rintro h ⟨i, hactive, hid⟩
    refine h i (List.mem_finRange i) ?_
    rw [hactive, hid, beq_self_eq_true, Bool.and_self]
  · intro h i _ hi
    rw [Bool.and_eq_true, beq_iff_eq] at hi
    exact h ⟨i, hi⟩

theorem allocSlot_free {t : WiggleTable} {i : Fin appMaxWiggles} (h : allocSlot t = some i) :
    (t i).active = false := by
  have hi := List.find?_some h
  rw [Bool.not_eq_true'] at hi
  exact hi

theorem allocSlot_eq_none {t : WiggleTable} : allocSlot t = none ↔ freeSlots t = ∅ := by
  rw [allocSlot, List.find?_eq_none, Finset.eq_empty_iff_forall_notMem]
  constructor
  · intro h i hi
    have hactive := h i (List.mem_finRange i)
    rw [mem_freeSlots.mp hi] at hactive
    exact hactive rfl
  · intro h i _ hi
    rw [Bool.not_eq_true'] at hi
    exact h i (mem_freeSlots.mpr hi)

/-! ### One start -/

/-- What an accepted start leaves in its slot. -/
structure StartedAt (app : App) (env : Env) (r : WiggleRequest) (i : Fin appMaxWiggles)
    (app' : App) : Prop where
  found : (findSlot app.wiggles r.id).or (allocSlot app.wiggles) = some i
  table : ∃ slot : WiggleCommand, app' = { app with wiggles := Function.update app.wiggles i slot } ∧
    slot.active = true ∧ slot.id = r.id ∧ slot.nextToggleMs = env.now + r.periodMs.toUInt64
  slot : (app.wiggles i).active = true ∧ (app.wiggles i).id = r.id ∨
    (app.wiggles i).active = false ∧ ¬ Running app.wiggles r.id

/-- A start is accepted and fills one slot, or it finds none and does nothing. -/
theorem wiggleStartLocked_cases (app : App) (env : Env) (r : WiggleRequest) :
    ((wiggleStartLocked app env r).2.1 = 0 ∧
      ∃ i, StartedAt app env r i (wiggleStartLocked app env r).1) ∨
    (wiggleStartLocked app env r = (app, -1, []) ∧
      ¬ Running app.wiggles r.id ∧ freeSlots app.wiggles = ∅) := by
  cases hfind : findSlot app.wiggles r.id with
  | some i =>
    have hi := findSlot_running hfind
    left
    simp only [wiggleStartLocked, hfind, Option.some_or]
    exact ⟨trivial, i, ⟨by rw [hfind]; rfl, ⟨_, rfl, rfl, rfl, rfl⟩, Or.inl hi⟩⟩
  | none =>
    have hnew := findSlot_eq_none.mp hfind
    cases halloc : allocSlot app.wiggles with
    | some i =>
      have hfree := allocSlot_free halloc
      left
      simp only [wiggleStartLocked, hfind, halloc, Option.none_or]
      exact ⟨trivial, i, ⟨by rw [hfind, halloc]; rfl, ⟨_, rfl, rfl, rfl, rfl⟩, Or.inr ⟨hfree, hnew⟩⟩⟩
    | none =>
      right
      simp only [wiggleStartLocked, hfind, halloc, Option.none_or]
      exact ⟨trivial, hnew, allocSlot_eq_none.mp halloc⟩

variable {app app' : App} {env : Env} {r : WiggleRequest} {i : Fin appMaxWiggles}

theorem StartedAt.running (h : StartedAt app env r i app') (id : UInt32) :
    Running app'.wiggles id ↔ id = r.id ∨ Running app.wiggles id := by
  obtain ⟨slot, rfl, hactive, hid, -⟩ := h.table
  constructor
  · rintro ⟨j, hj, hjid⟩
    by_cases hji : j = i
    · rw [hji] at hjid
      simp only [Function.update_self] at hjid
      exact Or.inl (hjid.symm.trans hid)
    · simp only [Function.update_of_ne hji] at hj hjid
      exact Or.inr ⟨j, hj, hjid⟩
  · rintro (rfl | ⟨j, hj, hjid⟩)
    · exact ⟨i, by simp only [Function.update_self, hactive, hid, and_self]⟩
    · by_cases hji : j = i
      · -- the slot of the start was in use, so that it had the same id
        rcases h.slot with ⟨-, hsame⟩ | ⟨hfree, -⟩
        · rw [hji, hsame] at hjid
          exact ⟨i, by simp only [Function.update_self, hactive, hid, hjid, and_self]⟩
        · rw [hji, hfree] at hj
          cases hj
      · exact ⟨j, by simp only [Function.update_of_ne hji, hj, hjid, and_self]⟩

theorem StartedAt.freeSlots (h : StartedAt app env r i app') :
    WsServer.freeSlots app'.wiggles = (WsServer.freeSlots app.wiggles).erase i := by
  obtain ⟨slot, rfl, hactive, -, -⟩ := h.table
  ext j
  rw [Finset.mem_erase, mem_freeSlots, mem_freeSlots]
  by_cases hji : j = i
  · simp only [hji, Function.update_self, hactive, Bool.true_eq_false, ne_eq, not_true_eq_false,
      false_and]
  · simp only [Function.update_of_ne hji, ne_eq, hji, not_false_eq_true, true_and]

/-- One start takes the room of its id, where that is new. -/
theorem StartedAt.room (h : StartedAt app env r i app') (ids : List UInt32) :
    Room app'.wiggles ids ↔ Room app.wiggles (r.id :: ids) := by
  have hnew : newIds app'.wiggles ids = (newIds app.wiggles (r.id :: ids)).erase r.id := by
    ext id
    simp only [newIds, Finset.mem_erase, Finset.mem_filter, List.mem_toFinset, List.mem_cons,
      h.running, not_or]
    tauto
  unfold Room
  rw [hnew, h.freeSlots]
  rcases h.slot with ⟨hactive, hid⟩ | ⟨hfree, hnot⟩
  · -- a running id needs no slot
    have hin : i ∉ WsServer.freeSlots app.wiggles := by
      rw [mem_freeSlots, hactive]
      exact Bool.false_ne_true.symm
    have hold : r.id ∉ newIds app.wiggles (r.id :: ids) := by
      rw [newIds, Finset.mem_filter]
      exact fun hmem => hmem.2 ⟨i, hactive, hid⟩
    rw [Finset.erase_eq_of_notMem hin, Finset.erase_eq_of_notMem hold]
  · have hin : i ∈ WsServer.freeSlots app.wiggles := mem_freeSlots.mpr hfree
    have hold : r.id ∈ newIds app.wiggles (r.id :: ids) := by
      rw [newIds, Finset.mem_filter]
      exact ⟨by simp, hnot⟩
    have hpos := Finset.card_pos.mpr ⟨i, hin⟩
    have hpos' := Finset.card_pos.mpr ⟨r.id, hold⟩
    rw [Finset.card_erase_of_mem hin, Finset.card_erase_of_mem hold]
    omega

/-- Without a free slot there is room for running ids only. -/
theorem not_room_of_full {t : WiggleTable} {id : UInt32} {ids : List UInt32}
    (hnew : ¬ Running t id) (hfull : freeSlots t = ∅) : ¬ Room t (id :: ids) := by
  have hmem : id ∈ newIds t (id :: ids) := by
    rw [newIds, Finset.mem_filter]
    exact ⟨by simp, hnew⟩
  have hpos := Finset.card_pos.mpr ⟨id, hmem⟩
  rw [Room, hfull, Finset.card_empty]
  omega

theorem room_nil (t : WiggleTable) : Room t [] := Nat.zero_le _

/-- A start is accepted exactly when there is room for its id. -/
theorem wiggleStartLocked_accepted (app : App) (env : Env) (r : WiggleRequest) :
    (Room app.wiggles [r.id] ∧ (wiggleStartLocked app env r).2.1 = 0 ∧
      ∃ i, StartedAt app env r i (wiggleStartLocked app env r).1) ∨
    (¬ Room app.wiggles [r.id] ∧ (wiggleStartLocked app env r).2.1 ≠ 0 ∧
      wiggleStartLocked app env r = (app, -1, [])) := by
  rcases wiggleStartLocked_cases app env r with ⟨hzero, i, hstarted⟩ | ⟨hsame, hnew, hfull⟩
  · exact Or.inl ⟨(hstarted.room []).mp (room_nil _), hzero, i, hstarted⟩
  · have hrc : (wiggleStartLocked app env r).2.1 = -1 := congrArg (fun x => x.2.1) hsame
    exact Or.inr ⟨not_room_of_full hnew hfull, by rw [hrc]; decide, hsame⟩

theorem Room.of_cons {t : WiggleTable} {id : UInt32} {ids : List UInt32} (h : Room t (id :: ids)) :
    Room t [id] := by
  refine le_trans (Finset.card_le_card ?_) h
  apply Finset.filter_subset_filter
  intro id' hid'
  simp only [List.toFinset_cons, List.toFinset_nil, insert_empty_eq, Finset.mem_singleton] at hid'
  simp only [List.toFinset_cons, Finset.mem_insert, hid', true_or]

end WsServer
