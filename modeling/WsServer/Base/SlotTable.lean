import Mathlib.Data.Finmap
import Mathlib.Data.List.FinRange
import Mathlib.Data.Multiset.Bind

/-! A finite map kept in a fixed number of slots, in whatever order: the relation
between the slots and the map, and what it makes of updates of single slots, of a loop
over all of them and of what such a loop puts out. -/
namespace SlotTable

variable {κ ν α : Type} {n : ℕ}

/-- A slot is free, or it holds one entry. -/
abbrev Slots (κ ν : Type) (n : ℕ) := Fin n → Option (κ × ν)

/-- The entries in the order of their slots. -/
def contents (s : Slots κ ν n) : List (Σ _ : κ, ν) :=
  (List.finRange n).filterMap (fun i => (s i).map (fun e => ⟨e.1, e.2⟩))

theorem mem_contents {s : Slots κ ν n} {k : κ} {v : ν} :
    ⟨k, v⟩ ∈ contents s ↔ ∃ i, s i = some (k, v) := by
  simp only [contents, List.mem_filterMap, List.mem_finRange, true_and, Option.map_eq_some_iff,
    Prod.exists, Sigma.mk.injEq, heq_eq_eq, exists_eq_right_right, exists_eq_right]

theorem length_contents (s : Slots κ ν n) :
    (contents s).length = (List.finRange n).countP (fun i => (s i).isSome) := by
  simp only [contents, List.length_filterMap_eq_countP, Option.isSome_map]

/-- What stands in a slot after one of them is written. -/
theorem update_eq_some_iff {s : Slots κ ν n} {i j : Fin n} {k k' : κ} {v w : ν} :
    Function.update s i (some (k, v)) j = some (k', w) ↔
      (j = i ∧ k' = k ∧ w = v) ∨ (j ≠ i ∧ s j = some (k', w)) := by
  by_cases hji : j = i
  · subst hji
    rw [Function.update_self, Option.some.injEq, Prod.mk.injEq]
    constructor
    · intro h
      exact Or.inl ⟨rfl, h.1.symm, h.2.symm⟩
    · intro h
      rcases h with h | h
      · exact ⟨h.2.1.symm, h.2.2.symm⟩
      · exact absurd rfl h.1
  · rw [Function.update_of_ne hji]
    constructor
    · intro h
      exact Or.inr ⟨hji, h⟩
    · intro h
      rcases h with h | h
      · exact absurd h.1 hji
      · exact h.2

variable [DecidableEq κ]

/-- The map that the slots hold; no key is in two of them. -/
structure Represents (s : Slots κ ν n) (m : Finmap fun _ : κ => ν) : Prop where
  unique : ∀ i j k v w, s i = some (k, v) → s j = some (k, w) → i = j
  lookup_iff : ∀ k v, m.lookup k = some v ↔ ∃ i, s i = some (k, v)

theorem represents_empty {s : Slots κ ν n} (h : ∀ i, s i = none) : Represents s ∅ where
  unique i _ k v _ hi _ := by
    rw [h i] at hi
    cases hi
  lookup_iff k v := by
    rw [Finmap.lookup_empty]
    refine iff_of_false nofun ?_
    rintro ⟨i, hi⟩
    rw [h i] at hi
    cases hi

/-- What the entries put out for one key is what the entry of this key puts out. -/
theorem output_at_key {β : Type} (m : Finmap fun _ : κ => ν) (f : κ → ν → List β) (key : β → κ)
    (hkey : ∀ k v b, b ∈ f k v → key b = k) (k : κ) :
    (m.entries.bind (fun e => (f e.1 e.2 : Multiset β))).filter (fun b => key b = k) =
      ((m.lookup k).elim [] (f k) : List β) := by
  have hself : ∀ v, (f k v : Multiset β).filter (fun b => key b = k) = f k v :=
    fun v => Multiset.filter_eq_self.mpr (fun b hb => hkey k v b hb)
  have hother : ∀ e : (Σ _ : κ, ν), e.1 ≠ k →
      (f e.1 e.2 : Multiset β).filter (fun b => key b = k) = 0 := by
    intro e he
    refine Multiset.filter_eq_nil.mpr ?_
    intro b hb hbk
    exact he ((hkey e.1 e.2 b hb).symm.trans hbk)
  have hnone : ∀ s : Multiset (Σ _ : κ, ν), (∀ e ∈ s, e.1 ≠ k) →
      (s.bind (fun e => (f e.1 e.2 : Multiset β))).filter (fun b => key b = k) = 0 := by
    intro s hs
    rw [Multiset.filter_bind, Multiset.bind_congr (fun e he => hother e (hs e he))]
    exact Multiset.bind_zero s
  cases h : m.lookup k with
  | none =>
    refine hnone m.entries ?_
    rintro ⟨k', v⟩ he rfl
    cases h.symm.trans (Finmap.lookup_eq_some_iff.mpr he)
  | some v =>
    have hv : (⟨k, v⟩ : Σ _ : κ, ν) ∈ m.entries := Finmap.lookup_eq_some_iff.mp h
    obtain ⟨rest, hentries⟩ := Multiset.exists_cons_of_mem hv
    have hnodup := m.nodup_entries
    rw [hentries, Multiset.nodup_cons] at hnodup
    have hrest : ∀ e ∈ rest, e.1 ≠ k := by
      rintro ⟨k', w⟩ he rfl
      have hw : ⟨k', w⟩ ∈ m.entries := hentries ▸ Multiset.mem_cons_of_mem he
      obtain rfl := Option.some.inj (h.symm.trans (Finmap.lookup_eq_some_iff.mpr hw))
      exact hnodup.1 he
    rw [hentries, Multiset.cons_bind, Multiset.filter_add, hself, hnone rest hrest, add_zero]
    rfl

namespace Represents

variable {s : Slots κ ν n} {m : Finmap fun _ : κ => ν}

theorem lookup_eq (h : Represents s m) {i : Fin n} {k : κ} {v : ν} (hi : s i = some (k, v)) :
    m.lookup k = some v := (h.lookup_iff k v).mpr ⟨i, hi⟩

theorem mem_iff (h : Represents s m) {k : κ} : k ∈ m ↔ ∃ i v, s i = some (k, v) := by
  rw [Finmap.mem_iff]
  constructor
  · rintro ⟨v, hv⟩
    obtain ⟨i, hi⟩ := (h.lookup_iff k v).mp hv
    exact ⟨i, v, hi⟩
  · rintro ⟨i, v, hi⟩
    exact ⟨v, h.lookup_eq hi⟩

theorem nodup_contents (h : Represents s m) : (contents s).Nodup := by
  refine List.Nodup.filterMap ?_ (List.nodup_finRange n)
  intro i j e hi hj
  obtain ⟨⟨k, v⟩, hik, rfl⟩ := Option.map_eq_some_iff.mp hi
  obtain ⟨⟨k', v'⟩, hjk, heq⟩ := Option.map_eq_some_iff.mp hj
  obtain ⟨rfl, -⟩ := Sigma.mk.inj heq
  exact h.unique i j _ v v' hik hjk

/-- The entries of the map are those of the slots, each once. -/
theorem entries_eq (h : Represents s m) : m.entries = (contents s : Multiset (Σ _ : κ, ν)) := by
  refine (Multiset.Nodup.ext m.nodup_entries (Multiset.coe_nodup.mpr h.nodup_contents)).mpr ?_
  rintro ⟨k, v⟩
  rw [Multiset.mem_coe, mem_contents, ← h.lookup_iff]
  exact Finmap.lookup_eq_some_iff.symm

/-- The map is as large as there are slots in use. -/
theorem card_keys (h : Represents s m) :
    m.keys.card = (List.finRange n).countP (fun i => (s i).isSome) := by
  have hcard : m.keys.card = m.entries.card := Multiset.card_map _ _
  rw [hcard, h.entries_eq, Multiset.coe_card, length_contents]

theorem card_le (h : Represents s m) : m.keys.card ≤ n := by
  rw [h.card_keys]
  exact List.countP_le_length.trans_eq List.length_finRange

/-- No slot is free exactly when the map has as many keys as there are slots. -/
theorem full_iff (h : Represents s m) : (∀ i, (s i).isSome) ↔ m.keys.card = n := by
  rw [h.card_keys]
  have hiff := List.countP_eq_length (p := fun i => (s i).isSome) (l := List.finRange n)
  rw [List.length_finRange] at hiff
  rw [hiff]
  exact ⟨fun hall i _ => hall i, fun hall i => hall i (List.mem_finRange i)⟩

/-- What a loop over the slots puts out is what the entries put out, in some order. -/
theorem output_eq (h : Represents s m) (out : Fin n → List α) (f : κ → ν → List α)
    (hout : ∀ i, out i = (s i).elim [] (fun e => f e.1 e.2)) :
    (((List.finRange n).flatMap out : List α) : Multiset α) =
      m.entries.bind (fun e => (f e.1 e.2 : Multiset α)) := by
  have hlist : ∀ l : List (Fin n), l.flatMap out =
      (l.filterMap (fun i => (s i).map (fun e => (⟨e.1, e.2⟩ : Σ _ : κ, ν)))).flatMap
        (fun e => f e.1 e.2) := by
    intro l
    induction l with
    | nil => rfl
    | cons i l ih =>
      rw [List.flatMap_cons, List.filterMap_cons, hout i, ih]
      cases s i with
      | none => rfl
      | some e => rfl
  rw [h.entries_eq, Multiset.coe_bind, hlist]
  rfl

/-! ### Updates of one slot -/

/-- An entry goes into the slot of its key, or into any slot if its key is new. -/
theorem put (h : Represents s m) (i : Fin n) (k : κ) (v : ν)
    (hi : (∃ w, s i = some (k, w)) ∨ (s i = none ∧ k ∉ m)) :
    Represents (Function.update s i (some (k, v))) (m.insert k v) := by
  have hother : ∀ j w, s j = some (k, w) → j = i := by
    intro j w hj
    rcases hi with ⟨w', hw'⟩ | ⟨-, hnew⟩
    · exact h.unique j i k w w' hj hw'
    · exact absurd (h.mem_iff.mpr ⟨j, w, hj⟩) hnew
  have hheld : ∀ k' w, s i = some (k', w) → k' = k := by
    intro k' w hk'
    rcases hi with ⟨w', hw'⟩ | ⟨hfree, -⟩
    · exact (Prod.mk.inj (Option.some.inj (hk'.symm.trans hw'))).1
    · cases hfree.symm.trans hk'
  constructor
  · intro j j' k' w w' hj hj'
    -- an old entry with the key of the new one stood in the slot that is written
    rcases update_eq_some_iff.mp hj with ⟨hji, hk, -⟩ | ⟨hji, hj⟩
    · rcases update_eq_some_iff.mp hj' with ⟨hji', -, -⟩ | ⟨-, hj'⟩
      · rw [hji, hji']
      · rw [hji, hother j' w' (hk ▸ hj')]
    · rcases update_eq_some_iff.mp hj' with ⟨hji', hk, -⟩ | ⟨-, hj'⟩
      · rw [hji', hother j w (hk ▸ hj)]
      · exact h.unique j j' k' w w' hj hj'
  · intro k' w
    by_cases hk' : k' = k
    · rw [hk', Finmap.lookup_insert]
      constructor
      · intro hw
        exact ⟨i, update_eq_some_iff.mpr (Or.inl ⟨rfl, rfl, (Option.some.inj hw).symm⟩)⟩
      · intro hslot
        obtain ⟨j, hj⟩ := hslot
        rcases update_eq_some_iff.mp hj with ⟨-, -, hw⟩ | ⟨hji, hj⟩
        · rw [hw]
        · exact absurd (hother j w hj) hji
    · rw [Finmap.lookup_insert_of_ne m hk', h.lookup_iff k' w]
      constructor
      · intro hslot
        obtain ⟨j, hj⟩ := hslot
        have hji : j ≠ i := fun heq => hk' (hheld k' w (heq ▸ hj))
        exact ⟨j, update_eq_some_iff.mpr (Or.inr ⟨hji, hj⟩)⟩
      · intro hslot
        obtain ⟨j, hj⟩ := hslot
        rcases update_eq_some_iff.mp hj with ⟨-, hk, -⟩ | ⟨-, hj⟩
        · exact absurd hk hk'
        · exact ⟨j, hj⟩

/-- Clearing a slot erases its key. -/
theorem clear (h : Represents s m) (i : Fin n) (k : κ) (v : ν) (hi : s i = some (k, v)) :
    Represents (Function.update s i none) (m.erase k) := by
  have hold : ∀ j k' w, Function.update s i none j = some (k', w) → j ≠ i ∧ s j = some (k', w) := by
    intro j k' w hj
    by_cases hji : j = i
    · subst hji
      rw [Function.update_self] at hj
      cases hj
    · rw [Function.update_of_ne hji] at hj
      exact ⟨hji, hj⟩
  constructor
  · intro j j' k' w w' hj hj'
    exact h.unique j j' k' w w' (hold j k' w hj).2 (hold j' k' w' hj').2
  · intro k' w
    by_cases hk' : k' = k
    · subst hk'
      rw [Finmap.lookup_erase]
      refine iff_of_false nofun ?_
      rintro ⟨j, hj⟩
      obtain ⟨hji, hj⟩ := hold j k' w hj
      exact hji (h.unique j i k' w v hj hi)
    · rw [Finmap.lookup_erase_ne hk', h.lookup_iff]
      constructor
      · rintro ⟨j, hj⟩
        have hji : j ≠ i := by
          rintro rfl
          exact hk' (Prod.mk.inj (Option.some.inj (hj.symm.trans hi))).1
        exact ⟨j, by rw [Function.update_of_ne hji, hj]⟩
      · rintro ⟨j, hj⟩
        exact ⟨j, (hold j k' w hj).2⟩

end Represents

/-! ### A loop over all slots -/

/-- Every entry is changed or dropped by itself. -/
def mapFilter (f : κ → ν → Option ν) (m : Finmap fun _ : κ => ν) : Finmap fun _ : κ => ν :=
  Finmap.keysLookupEquiv.symm
    ⟨(m.keys.filter (fun k => ((m.lookup k).bind (f k)).isSome), fun k => (m.lookup k).bind (f k)),
      by
        intro k
        simp only [Finset.mem_filter, Finmap.mem_keys]
        refine ⟨fun h => ⟨?_, h⟩, fun h => h.2⟩
        obtain ⟨w, hw⟩ := Option.isSome_iff_exists.mp h
        obtain ⟨v, hv, -⟩ := Option.bind_eq_some_iff.mp hw
        exact Finmap.mem_of_lookup_eq_some hv⟩

theorem lookup_mapFilter (f : κ → ν → Option ν) (m : Finmap fun _ : κ => ν) (k : κ) :
    (mapFilter f m).lookup k = (m.lookup k).bind (f k) := by
  simp only [mapFilter, Finmap.keysLookupEquiv_symm_apply_lookup]

theorem Represents.mapFilter {s s' : Slots κ ν n} {m : Finmap fun _ : κ => ν}
    (h : Represents s m) (f : κ → ν → Option ν)
    (hs : ∀ i, s' i = (s i).bind (fun e => (f e.1 e.2).map (fun v => (e.1, v)))) :
    Represents s' (SlotTable.mapFilter f m) := by
  have hslot : ∀ i k w, s' i = some (k, w) ↔ ∃ v, s i = some (k, v) ∧ f k v = some w := by
    intro i k w
    rw [hs i, Option.bind_eq_some_iff]
    constructor
    · rintro ⟨⟨k', v⟩, hi, hmap⟩
      obtain ⟨w', hw', heq⟩ := Option.map_eq_some_iff.mp hmap
      obtain ⟨rfl, rfl⟩ := Prod.mk.inj heq
      exact ⟨v, hi, hw'⟩
    · rintro ⟨v, hi, hw⟩
      exact ⟨(k, v), hi, Option.map_eq_some_iff.mpr ⟨w, hw, rfl⟩⟩
  constructor
  · intro i j k w w' hi hj
    obtain ⟨v, hv, -⟩ := (hslot i k w).mp hi
    obtain ⟨v', hv', -⟩ := (hslot j k w').mp hj
    exact h.unique i j k v v' hv hv'
  · intro k w
    rw [lookup_mapFilter, Option.bind_eq_some_iff]
    constructor
    · rintro ⟨v, hv, hw⟩
      obtain ⟨i, hi⟩ := (h.lookup_iff k v).mp hv
      exact ⟨i, (hslot i k w).mpr ⟨v, hi, hw⟩⟩
    · rintro ⟨i, hi⟩
      obtain ⟨v, hv, hw⟩ := (hslot i k w).mp hi
      exact ⟨v, h.lookup_eq hv, hw⟩

end SlotTable
