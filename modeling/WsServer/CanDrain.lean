import WsServer.CanUpdates

/-! How calls of `can_bus_format_dirty` drain the table: each one hands on as many of the
smallest dirty ids as the buffer has room for, and together they hand on all, each once. -/
namespace WsServer
open Interaction Printf

/-- The ids whose bit is set, in increasing order. -/
def CanTable.dirtyIds (t : CanTable) : List (Fin appCanIdCount) :=
  (List.finRange appCanIdCount).filter t.canDirty

/-- Each dirty id has a stored value. -/
def CanTable.Stored (t : CanTable) : Prop := ∀ id, t.canDirty id = true → 0 ≤ t.canValues id

/-- The entries that a buffer has room for, each with its separator. -/
def entryRoom (capacity : ℕ) : ℕ := (capacity-1)/9

/-- One call hands on the smallest dirty ids, as many as there is room for, clears exactly
their bits, and writes nothing at or behind the end of the buffer. -/
structure CanTable.HandsOn (t : CanTable) (buffer : ℕ → Char) (capacity : ℕ)
    (emitted : List (Fin appCanIdCount)) (x : CanTable × (ℕ → Char) × ℕ) : Prop where
  count : emitted.length = min t.dirtyIds.length (entryRoom capacity)
  increasing : emitted.Pairwise (· < ·)
  dirty : ∀ id ∈ emitted, t.canDirty id = true
  smallest : ∀ id ∈ emitted, ∀ other, t.canDirty other = true → other ∉ emitted → id < other
  text : cString capacity x.2.1 = joinedEntries t.canValues emitted
  length : x.2.2 = (joinedEntries t.canValues emitted).length
  cleared : ∀ id, x.1.canDirty id = (t.canDirty id && decide (id ∉ emitted))
  values : x.1.canValues = t.canValues
  inside : ∀ i, capacity ≤ i → x.2.1 i = buffer i

variable {t : CanTable} {capacity : ℕ}

theorem dirtyIds_pairwise (t : CanTable) : t.dirtyIds.Pairwise (· < ·) :=
  List.Pairwise.filter t.canDirty (List.pairwise_lt_finRange appCanIdCount)

theorem mem_dirtyIds {id : Fin appCanIdCount} : id ∈ t.dirtyIds ↔ t.canDirty id = true := by
  rw [CanTable.dirtyIds, List.mem_filter]
  exact and_iff_right (List.mem_finRange id)

/-- With a stored value for each dirty id the loop skips none of them. -/
theorem CanTable.Stored.pending (h : t.Stored) : t.pending = t.dirtyIds := by
  rw [CanTable.pending, pendingIds, CanTable.dirtyIds]
  apply List.filter_congr
  intro id _
  cases hdirty : t.canDirty id with
  | false => rfl
  | true =>
    have hvalue := h id hdirty
    simp [not_lt.mpr hvalue]

/-! ### One call -/

theorem take_smallest {α : Type} [LinearOrder α] {l : List α} (h : l.Pairwise (· < ·)) (k : ℕ) :
    ∀ a ∈ l.take k, ∀ b ∈ l, b ∉ l.take k → a < b := by
  intro a ha b hb hnot
  have hdrop : b ∈ l.drop k := by
    rw [← List.take_append_drop k l, List.mem_append] at hb
    exact hb.resolve_left hnot
  rw [← List.take_append_drop k l, List.pairwise_append] at h
  exact h.2.2 a ha b hdrop

theorem canBusFormatDirty_handsOn (hstored : t.Stored) (buffer : ℕ → Char)
    (hcapacity : 10 ≤ capacity) :
    t.HandsOn buffer capacity (t.dirtyIds.take (entryRoom capacity))
      (canBusFormatDirty t buffer capacity) := by
  have h := canBusFormatDirty_formats t buffer hcapacity
  have hemitted : t.pending.take ((capacity-1)/9) = t.dirtyIds.take (entryRoom capacity) := by
    rw [hstored.pending, entryRoom]
  have htext := h.text
  rw [hemitted] at htext
  constructor
  case count => rw [List.length_take, min_comm]
  case increasing => exact (dirtyIds_pairwise t).sublist (List.take_sublist _ _)
  case dirty => exact fun id hid => mem_dirtyIds.mp (List.mem_of_mem_take hid)
  case smallest =>
    intro id hid other hother hnot
    exact take_smallest (dirtyIds_pairwise t) _ id hid other (mem_dirtyIds.mpr hother) hnot
  case text => exact htext
  case length => rw [h.length, htext]
  case cleared => rw [← hemitted]; exact h.dirty
  case values => exact h.values
  case inside => exact h.inside

/-! ### Calls in a row -/

theorem filter_not_mem_take {α : Type} [DecidableEq α] {l : List α} (h : l.Nodup) (k : ℕ) :
    l.filter (fun a => decide (a ∉ l.take k)) = l.drop k := by
  have hsplit := h
  rw [← List.take_append_drop k l, List.nodup_append] at hsplit
  have htake : (l.take k).filter (fun a => decide (a ∉ l.take k)) = [] :=
    List.filter_eq_nil_iff.mpr (fun a ha => by simpa using ha)
  have hdrop : (l.drop k).filter (fun a => decide (a ∉ l.take k)) = l.drop k := by
    apply List.filter_eq_self.mpr
    intro a ha
    exact decide_eq_true (fun hmem => hsplit.2.2 a hmem a ha rfl)
  calc l.filter (fun a => decide (a ∉ l.take k))
      = (l.take k ++ l.drop k).filter (fun a => decide (a ∉ l.take k)) := by
        rw [List.take_append_drop]
    _ = l.drop k := by rw [List.filter_append, htake, hdrop, List.nil_append]

/-- What is left is what the call had no room for. -/
theorem CanTable.HandsOn.rest {buffer : ℕ → Char} {x : CanTable × (ℕ → Char) × ℕ}
    (h : t.HandsOn buffer capacity (t.dirtyIds.take (entryRoom capacity)) x) :
    x.1.dirtyIds = t.dirtyIds.drop (entryRoom capacity) := by
  rw [← filter_not_mem_take (dirtyIds_pairwise t).nodup, CanTable.dirtyIds, CanTable.dirtyIds,
    List.filter_filter]
  apply List.filter_congr
  intro id _
  rw [h.cleared id, Bool.and_comm, CanTable.dirtyIds]

theorem CanTable.HandsOn.stored {buffer : ℕ → Char} {x : CanTable × (ℕ → Char) × ℕ}
    {emitted : List (Fin appCanIdCount)} (h : t.HandsOn buffer capacity emitted x)
    (hstored : t.Stored) : x.1.Stored := by
  intro id hid
  rw [h.cleared id, Bool.and_eq_true] at hid
  rw [h.values]
  exact hstored id hid.1

/-- The entries that the clients get, in order. -/
def emittedEntries (us : List CanUpdate) : List CText :=
  us.flatMap (fun u => Strtok.tokens '|' u.text)

/-- After some calls in a row the first dirty ids have been handed on, each once. -/
theorem drains (hcapacity : 10 ≤ capacity) (buffers : List (ℕ → Char)) (hstored : t.Stored) :
    ∃ t' us, canCalls.run t (buffers.map (fun buffer => .formatDirty buffer capacity)) =
        some (t', us) ∧ t'.Stored ∧ t'.canValues = t.canValues ∧
      t'.dirtyIds = t.dirtyIds.drop (buffers.length*entryRoom capacity) ∧
      emittedEntries us =
        (t.dirtyIds.take (buffers.length*entryRoom capacity)).map (canEntry t.canValues) := by
  induction buffers generalizing t with
  | nil => exact ⟨t, [], rfl, hstored, rfl, by simp, by simp [emittedEntries]⟩
  | cons buffer buffers ih =>
    have hfirst := canBusFormatDirty_handsOn hstored buffer hcapacity
    generalize hx : canBusFormatDirty t buffer capacity = x at hfirst
    obtain ⟨t', us, hrun, hstored', hvalues, hdirty, hemitted⟩ := ih (hfirst.stored hstored)
    have hstep : canCalls.step t (.formatDirty buffer capacity) =
        some (x.1, [⟨cString capacity x.2.1, x.2.2⟩]) := by
      rw [← hx]
      rfl
    have hroom : (buffer :: buffers).length*entryRoom capacity =
        entryRoom capacity + buffers.length*entryRoom capacity := by
      rw [List.length_cons, Nat.add_one_mul, Nat.add_comm]
    refine ⟨t', _, Machine.run_cons_eq_some.mpr ⟨x.1, _, us, hstep, hrun, rfl⟩, hstored',
      hvalues.trans hfirst.values, ?_, ?_⟩
    · rw [hdirty, hfirst.rest, List.drop_drop, hroom]
    · rw [emittedEntries, List.singleton_append, List.flatMap_cons, ← emittedEntries, hemitted,
        hfirst.text, tokens_joinedEntries, hfirst.rest, hfirst.values, hroom, List.take_add,
        List.map_append]

/-- Every call hands on exactly the smallest dirty ids that there is room for, and
`⌈n / room⌉` calls in a row hand on every dirty id exactly once; the next one returns 0. -/
theorem dirty_table_drained (t : CanTable) (hstored : t.Stored) {capacity : ℕ}
    (hcapacity : 10 ≤ capacity) :
    (∀ buffer, ∃ emitted,
      t.HandsOn buffer capacity emitted (canBusFormatDirty t buffer capacity)) ∧
    ∀ buffers : List (ℕ → Char), buffers.length =
        (t.dirtyIds.length + entryRoom capacity - 1) / entryRoom capacity →
      ∃ t' us, canCalls.run t (buffers.map (fun buffer => .formatDirty buffer capacity)) =
          some (t', us) ∧ emittedEntries us = t.dirtyIds.map (canEntry t.canValues) ∧
        t'.dirtyIds = [] ∧ ∀ buffer, (canBusFormatDirty t' buffer capacity).2.2 = 0 := by
  refine ⟨fun buffer => ⟨_, canBusFormatDirty_handsOn hstored buffer hcapacity⟩, ?_⟩
  intro buffers hlength
  obtain ⟨t', us, hrun, hstored', -, hdirty, hemitted⟩ := drains hcapacity buffers hstored
  have hroom : 0 < entryRoom capacity := Nat.div_pos (by omega) (by decide)
  have hall : t.dirtyIds.length ≤ buffers.length*entryRoom capacity := by
    have hdiv := Nat.lt_div_mul_add (a := t.dirtyIds.length + entryRoom capacity - 1) hroom
    rw [hlength]
    omega
  rw [List.drop_eq_nil_of_le hall] at hdirty
  rw [List.take_of_length_le hall] at hemitted
  refine ⟨t', us, hrun, hemitted, hdirty, ?_⟩
  intro buffer
  have hnext := (canBusFormatDirty_handsOn hstored' buffer hcapacity).length
  rw [hdirty, List.take_nil] at hnext
  exact hnext

/-- A table after one frame, drained through a buffer with room for one entry. -/
theorem dirty_table_drained_one_frame :
    let t := (canBusStoreRx .init oneFrame).1
    let buffer : ℕ → Char := fun _ => nul
    (∃ emitted, t.HandsOn buffer 10 emitted (canBusFormatDirty t buffer 10)) ∧
    ∃ t' us, canCalls.run t [.formatDirty buffer 10] = some (t', us) ∧
      emittedEntries us = ["101#002a".toList] ∧ t'.dirtyIds = [] ∧
      (canBusFormatDirty t' buffer 10).2.2 = 0 := by
  intro t buffer
  have hdirty : t.dirtyIds = [⟨0x101, by decide⟩] := by decide +kernel
  have hstored : t.Stored := by
    intro id hid
    rw [← mem_dirtyIds, hdirty, List.mem_singleton] at hid
    rw [hid]
    decide
  obtain ⟨hone, hmany⟩ := dirty_table_drained t hstored (by decide : 10 ≤ 10)
  have hcount : [buffer].length =
      (t.dirtyIds.length + entryRoom 10 - 1) / entryRoom 10 := by rw [hdirty]; rfl
  obtain ⟨t', us, hrun, hemitted, hrest, hnext⟩ := hmany [buffer] hcount
  refine ⟨hone buffer, t', us, hrun, ?_, hrest, hnext buffer⟩
  rw [hemitted, hdirty]
  decide

end WsServer
