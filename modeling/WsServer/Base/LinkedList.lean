import Mathlib.Data.List.AList
import Mathlib.Data.List.Induction

/-! Singly linked lists as C code keeps them: allocated cells with a `next` field, a head
pointer, and walks that go by one link at a time. An access to a cell that is not allocated
has no result, nor has a walk that runs out of fuel. -/
namespace LinkedList
variable {A V : Type} [DecidableEq A]

/-- A cell of the heap; a null pointer is `none`. -/
structure Cell (A V : Type) where
  value : V
  next : Option A
  deriving DecidableEq, Repr

/-- The allocated cells. -/
abbrev Heap (A V : Type) := AList (fun _ : A => Cell A V)

/-- The heap and the variable that holds the head of the list. -/
structure Store (A V : Type) where
  heap : Heap A V
  head : Option A

/-- Where a pointer of the list is stored: in the head variable, or in a cell. -/
inductive Link (A : Type) where
  | head
  | next (a : A)

def Store.read (s : Store A V) : Link A → Option (Option A)
  | .head => some s.head
  | .next a => (s.heap.lookup a).map Cell.next

def Store.write (s : Store A V) : Link A → Option A → Option (Store A V)
  | .head, p => some { s with head := p }
  | .next a, p =>
    (s.heap.lookup a).map (fun cell => { s with heap := s.heap.insert a { cell with next := p } })

/-- A new cell in front of the list. -/
def Store.push (s : Store A V) (a : A) (v : V) : Store A V :=
  ⟨s.heap.insert a ⟨v, s.head⟩, some a⟩

/-- The value of a cell is overwritten. -/
def Store.assign (s : Store A V) (a : A) (v : V) : Option (Store A V) :=
  (s.heap.lookup a).map (fun cell => { s with heap := s.heap.insert a { cell with value := v } })

def Store.free (s : Store A V) (a : A) : Option (Store A V) :=
  (s.heap.lookup a).map (fun _ => { s with heap := s.heap.erase a })

/-- The walk along the links up to the one that holds `p`, which then skips its cell. -/
def unlink (p : Option A) : ℕ → Link A → Store A V → Option (Store A V)
  | 0, _, _ => none
  | fuel+1, link, s =>
    (s.read link).bind fun
      | none => some s
      | some a =>
        if some a = p then (s.heap.lookup a).bind (fun cell => s.write link cell.next)
        else unlink p fuel (.next a) s

/-- The values of the cells from a pointer on, in the order of a walk. -/
def values (heap : Heap A V) : ℕ → Option A → Option (List V)
  | 0, _ => none
  | _+1, none => some []
  | fuel+1, some a =>
    (heap.lookup a).bind (fun cell => (values heap fuel cell.next).map (cell.value :: ·))

/-- All cells from a pointer on are freed; the freed addresses in their order. -/
def freeAll : ℕ → Option A → Heap A V → Option (Heap A V × List A)
  | 0, _, _ => none
  | _+1, none, heap => some (heap, [])
  | fuel+1, some a, heap =>
    (heap.lookup a).bind (fun cell =>
      (freeAll fuel cell.next (heap.erase a)).map (fun x => (x.1, a :: x.2)))

/-! ### Segments -/

/-- From `p` the links go through the cells of the list, in its order, and arrive at `q`. -/
def Segment (heap : Heap A V) : Option A → List (A × V) → Option A → Prop
  | p, [], q => p = q
  | p, (a, v) :: l, q =>
    p = some a ∧ ∃ next, heap.lookup a = some ⟨v, next⟩ ∧ Segment heap next l q

/-- The addresses of a list of cells. -/
abbrev addresses (l : List (A × V)) : List A := l.map Prod.fst

variable {heap heap' : Heap A V} {p q : Option A} {l l' : List (A × V)}

theorem segment_append : Segment heap p (l ++ l') q ↔
    ∃ r, Segment heap p l r ∧ Segment heap r l' q := by
  induction l generalizing p with
  | nil =>
    constructor
    · intro h
      exact ⟨p, rfl, h⟩
    · rintro ⟨r, rfl, h⟩
      exact h
  | cons x l ih =>
    constructor
    · rintro ⟨hp, next, hlookup, hrest⟩
      obtain ⟨r, hl, hl'⟩ := ih.mp hrest
      exact ⟨r, ⟨hp, next, hlookup, hl⟩, hl'⟩
    · rintro ⟨r, ⟨hp, next, hlookup, hl⟩, hl'⟩
      exact ⟨hp, next, hlookup, ih.mpr ⟨r, hl, hl'⟩⟩

/-- A segment depends on its own cells only. -/
theorem Segment.congr (h : Segment heap p l q)
    (hsame : ∀ a ∈ addresses l, heap'.lookup a = heap.lookup a) : Segment heap' p l q := by
  induction l generalizing p with
  | nil => exact h
  | cons x l ih =>
    obtain ⟨hp, next, hlookup, hrest⟩ := h
    rw [addresses, List.map_cons, List.forall_mem_cons] at hsame
    refine ⟨hp, next, ?_, ih hrest hsame.2⟩
    rw [hsame.1]
    exact hlookup

theorem Segment.lookup (h : Segment heap p l q) {x : A × V} (hx : x ∈ l) :
    ∃ next, heap.lookup x.1 = some ⟨x.2, next⟩ := by
  induction l generalizing p with
  | nil => cases hx
  | cons y l ih =>
    obtain ⟨-, next, hlookup, hrest⟩ := h
    rcases List.mem_cons.mp hx with rfl | hx
    · exact ⟨next, hlookup⟩
    · exact ih hrest hx

/-- There are no more cells in a list than in the heap. -/
theorem Segment.length_le (h : Segment heap p l q) (hnodup : (addresses l).Nodup) :
    l.length ≤ heap.keys.length := by
  have hsub : addresses l ⊆ heap.keys := by
    intro a ha
    obtain ⟨x, hx, rfl⟩ := List.mem_map.mp ha
    obtain ⟨next, hlookup⟩ := h.lookup hx
    rw [← AList.mem_keys, ← AList.lookup_isSome, hlookup]
    rfl
  have hle := (List.subperm_of_subset hnodup hsub).length_le
  rwa [addresses, List.length_map] at hle

/-- The walk reads the values in their order. -/
theorem values_segment (h : Segment heap p l none) {fuel : ℕ} (hfuel : l.length < fuel) :
    values heap fuel p = some (l.map Prod.snd) := by
  induction l generalizing p fuel with
  | nil =>
    obtain ⟨fuel, rfl⟩ := Nat.exists_eq_succ_of_ne_zero (Nat.ne_zero_of_lt hfuel)
    rw [show p = none from h]
    rfl
  | cons x l ih =>
    obtain ⟨rfl, next, hlookup, hrest⟩ := h
    obtain ⟨fuel, rfl⟩ := Nat.exists_eq_succ_of_ne_zero (Nat.ne_zero_of_lt hfuel)
    rw [List.length_cons] at hfuel
    rw [values, hlookup, Option.bind_some, ih hrest (by omega)]
    rfl

/-- Each cell is freed once, and no other one. -/
theorem freeAll_segment (h : Segment heap p l none) (hnodup : (addresses l).Nodup) {fuel : ℕ}
    (hfuel : l.length < fuel) : ∃ heap', freeAll fuel p heap = some (heap', addresses l) ∧
      ∀ a, heap'.lookup a = if a ∈ addresses l then none else heap.lookup a := by
  induction l generalizing p heap fuel with
  | nil =>
    obtain ⟨fuel, rfl⟩ := Nat.exists_eq_succ_of_ne_zero (Nat.ne_zero_of_lt hfuel)
    rw [show p = none from h]
    exact ⟨heap, rfl, fun a => rfl⟩
  | cons x l ih =>
    obtain ⟨rfl, next, hlookup, hrest⟩ := h
    obtain ⟨fuel, rfl⟩ := Nat.exists_eq_succ_of_ne_zero (Nat.ne_zero_of_lt hfuel)
    obtain ⟨hx, hnodup⟩ := List.nodup_cons.mp hnodup
    have hfuel : l.length < fuel := Nat.lt_of_succ_lt_succ hfuel
    have hkept : Segment (heap.erase x.1) next l none := by
      apply hrest.congr
      intro a ha
      exact AList.lookup_erase_ne (fun heq => hx (heq ▸ ha))
    obtain ⟨heap', hfree, hheap⟩ := ih hkept hnodup hfuel
    refine ⟨heap', ?_, ?_⟩
    · rw [freeAll, hlookup, Option.bind_some, hfree]
      rfl
    · intro a
      rw [hheap a]
      by_cases ha : a = x.1
      · have hmem : x.1 ∈ addresses (x :: l) := List.mem_cons_self
        rw [ha, AList.lookup_erase, ite_self, if_pos hmem]
      · rw [AList.lookup_erase_ne ha]
        simp only [addresses, List.map_cons, List.mem_cons, ha, false_or]

/-! ### Whole lists -/

/-- The store holds a list with these cells, each once. -/
structure Store.Holds (s : Store A V) (l : List (A × V)) : Prop where
  segment : Segment s.heap s.head l none
  nodup : (addresses l).Nodup

variable {s : Store A V}

/-- An address stands for one cell. -/
theorem Store.Holds.unique (h : s.Holds l) {a : A} {v v' : V} (hv : (a, v) ∈ l)
    (hv' : (a, v') ∈ l) : v = v' := by
  obtain ⟨next, hlookup⟩ := h.segment.lookup hv
  obtain ⟨next', hlookup'⟩ := h.segment.lookup hv'
  exact congrArg Cell.value (Option.some.inj (hlookup.symm.trans hlookup'))

theorem Store.Holds.values (h : s.Holds l) :
    values s.heap (s.heap.keys.length+1) s.head = some (l.map Prod.snd) :=
  values_segment h.segment (Nat.lt_succ_of_le (h.segment.length_le h.nodup))

theorem Store.Holds.push (h : s.Holds l) {a : A} (ha : s.heap.lookup a = none) (v : V) :
    (s.push a v).Holds ((a, v) :: l) := by
  have hnew : a ∉ addresses l := by
    intro hmem
    obtain ⟨x, hx, rfl⟩ := List.mem_map.mp hmem
    obtain ⟨next, hlookup⟩ := h.segment.lookup hx
    rw [ha] at hlookup
    cases hlookup
  refine ⟨⟨rfl, s.head, AList.lookup_insert _, ?_⟩, List.nodup_cons.mpr ⟨hnew, h.nodup⟩⟩
  apply h.segment.congr
  intro b hb
  exact AList.lookup_insert_ne (fun heq => hnew (heq ▸ hb))

/-- A cell that is not in the list may be freed. -/
theorem Store.Holds.free (h : s.Holds l) {a : A} (ha : a ∉ addresses l)
    (hcell : (s.heap.lookup a).isSome = true) :
    ∃ s', s.free a = some s' ∧ s'.Holds l ∧
      ∀ b, (s'.heap.lookup b).isSome = true ↔ b ≠ a ∧ (s.heap.lookup b).isSome = true := by
  obtain ⟨cell, hlookup⟩ := Option.isSome_iff_exists.mp hcell
  refine ⟨{ s with heap := s.heap.erase a }, ?_, ⟨?_, h.nodup⟩, ?_⟩
  · rw [Store.free, hlookup]
    rfl
  · apply h.segment.congr
    intro b hb
    exact AList.lookup_erase_ne (fun heq => ha (heq ▸ hb))
  · intro b
    by_cases hb : b = a
    · rw [hb, AList.lookup_erase]
      simp
    · rw [AList.lookup_erase_ne hb]
      exact (and_iff_right hb).symm

/-- The value of one cell of a list is replaced. -/
def assigned (a : A) (v : V) (l : List (A × V)) : List (A × V) :=
  l.map (fun x => if x.1 = a then (a, v) else x)

theorem addresses_assigned (a : A) (v : V) (l : List (A × V)) :
    addresses (assigned a v l) = addresses l := by
  rw [addresses, assigned, List.map_map]
  apply List.map_congr_left
  intro x _
  by_cases hx : x.1 = a
  · simp only [Function.comp_apply, hx, if_true]
  · simp only [Function.comp_apply, hx, if_false]

theorem mem_assigned {a b : A} {v v' : V} (ha : a ∈ addresses l) :
    (b, v') ∈ assigned a v l ↔ b = a ∧ v' = v ∨ b ≠ a ∧ (b, v') ∈ l := by
  rw [assigned, List.mem_map]
  constructor
  · rintro ⟨x, hx, heq⟩
    by_cases hxa : x.1 = a
    · rw [if_pos hxa] at heq
      obtain ⟨rfl, rfl⟩ := Prod.mk.inj heq
      exact Or.inl ⟨rfl, rfl⟩
    · rw [if_neg hxa] at heq
      rw [heq] at hx hxa
      exact Or.inr ⟨hxa, hx⟩
  · rintro (⟨rfl, rfl⟩ | ⟨hba, hb⟩)
    · obtain ⟨x, hx, hxa⟩ := List.mem_map.mp ha
      exact ⟨x, hx, if_pos hxa⟩
    · exact ⟨(b, v'), hb, if_neg hba⟩

theorem Segment.assign (h : Segment heap p l q) {a : A} {cell : Cell A V}
    (ha : heap.lookup a = some cell) (v : V) :
    Segment (heap.insert a { cell with value := v }) p (assigned a v l) q := by
  induction l generalizing p with
  | nil => exact h
  | cons x l ih =>
    obtain ⟨hp, next, hlookup, hrest⟩ := h
    rw [assigned, List.map_cons]
    by_cases hx : x.1 = a
    · rw [if_pos hx]
      rw [hx, ha] at hlookup
      obtain rfl := Option.some.inj hlookup
      exact ⟨hp.trans (congrArg some hx), next, AList.lookup_insert _, ih hrest⟩
    · rw [if_neg hx]
      refine ⟨hp, next, ?_, ih hrest⟩
      rw [AList.lookup_insert_ne hx]
      exact hlookup

theorem Store.Holds.assign (h : s.Holds l) {a : A} (ha : a ∈ addresses l) (v : V) :
    ∃ s', s.assign a v = some s' ∧ s'.Holds (assigned a v l) ∧
      ∀ b, (s'.heap.lookup b).isSome = (s.heap.lookup b).isSome := by
  obtain ⟨x, hx, rfl⟩ := List.mem_map.mp ha
  obtain ⟨next, hlookup⟩ := h.segment.lookup hx
  refine ⟨_, by rw [Store.assign, hlookup]; rfl, ⟨h.segment.assign hlookup v, ?_⟩, ?_⟩
  · rw [addresses_assigned]
    exact h.nodup
  · intro b
    by_cases hb : b = x.1
    · rw [hb, AList.lookup_insert, hlookup]
      rfl
    · rw [AList.lookup_insert_ne hb]

/-! ### Taking a cell out -/

/-- The cells but for the one that a pointer points to. -/
def without (p : Option A) (l : List (A × V)) : List (A × V) :=
  l.filter (fun x => decide (some x.1 ≠ p))

theorem mem_addresses_without {a : A} :
    a ∈ addresses (without p l) ↔ a ∈ addresses l ∧ some a ≠ p := by
  simp only [addresses, without, List.mem_map, List.mem_filter, decide_eq_true_eq]
  constructor
  · rintro ⟨x, ⟨hx, hne⟩, rfl⟩
    exact ⟨⟨x, hx, rfl⟩, hne⟩
  · rintro ⟨⟨x, hx, rfl⟩, hne⟩
    exact ⟨x, ⟨hx, hne⟩, rfl⟩

/-- The link at the end of a list of cells. -/
def lastLink (l : List (A × V)) : Link A :=
  match l.getLast? with
  | none => .head
  | some x => .next x.1

omit [DecidableEq A] in
theorem lastLink_concat (l : List (A × V)) (x : A × V) : lastLink (l ++ [x]) = .next x.1 := by
  rw [lastLink, List.getLast?_concat]

/-- The link at the end of a segment holds what the segment arrives at. -/
theorem Segment.read (h : Segment s.heap s.head l q) : s.read (lastLink l) = some q := by
  induction l using List.reverseRecOn with
  | nil => exact congrArg some h
  | append_singleton l x =>
    obtain ⟨r, -, -, next, hlookup, rfl⟩ := segment_append.mp h
    rw [lastLink_concat, Store.read, hlookup]
    rfl

/-- A write to the link at the end of a segment changes what it arrives at. -/
theorem Segment.write (h : Segment s.heap s.head l q) (hnodup : (addresses l).Nodup)
    (q' : Option A) : ∃ s', s.write (lastLink l) q' = some s' ∧
      Segment s'.heap s'.head l q' ∧
      (∀ b, b ∉ addresses l → s'.heap.lookup b = s.heap.lookup b) ∧
      ∀ b, (s'.heap.lookup b).isSome = (s.heap.lookup b).isSome := by
  induction l using List.reverseRecOn with
  | nil => exact ⟨{ s with head := q' }, rfl, rfl, fun _ _ => rfl, fun _ => rfl⟩
  | append_singleton l x =>
    obtain ⟨r, hl, rfl, next, hlookup, -⟩ := segment_append.mp h
    have hx : x.1 ∉ addresses l := by
      rw [addresses, List.map_append, List.nodup_append] at hnodup
      intro hmem
      exact hnodup.2.2 _ hmem _ (List.mem_singleton_self _) rfl
    refine ⟨{ s with heap := s.heap.insert x.1 ⟨x.2, q'⟩ }, ?_, ?_, ?_, ?_⟩
    · rw [lastLink_concat, Store.write, hlookup]
      rfl
    · refine segment_append.mpr ⟨some x.1, ?_, rfl, q', AList.lookup_insert _, rfl⟩
      apply hl.congr
      intro a ha
      exact AList.lookup_insert_ne (fun heq => hx (heq ▸ ha))
    · intro b hb
      apply AList.lookup_insert_ne
      rintro rfl
      exact hb (List.mem_map_of_mem (List.mem_append_right l (List.mem_singleton_self x)))
    · intro b
      by_cases hb : b = x.1
      · rw [hb, AList.lookup_insert, hlookup]
        rfl
      · rw [AList.lookup_insert_ne hb]

/-- The step of the walk that finds its cell: the link to it is set to what follows it. -/
theorem unlink_found {x : A × V} {l' : List (A × V)} (h : s.Holds (l ++ x :: l')) (fuel : ℕ) :
    ∃ s', unlink (some x.1) (fuel+1) (lastLink l) s = some s' ∧
      s'.Holds (l ++ without (some x.1) (x :: l')) ∧
      ∀ b, (s'.heap.lookup b).isSome = (s.heap.lookup b).isSome := by
  obtain ⟨r, hl, rfl, next, hlookup, hrest⟩ := segment_append.mp h.segment
  have hnodup := h.nodup
  rw [addresses, List.map_append, List.map_cons, List.nodup_append, List.nodup_cons] at hnodup
  obtain ⟨hnodupl, ⟨hx', hnodupl'⟩, hdisjoint⟩ := hnodup
  obtain ⟨s', hwrite, hsegment, hother, hsame⟩ := hl.write hnodupl next
  -- no later link leads to the cell again
  have hfilter : without (some x.1) (x :: l') = l' := by
    rw [without, List.filter_cons_of_neg (by simp)]
    apply List.filter_eq_self.mpr
    intro y hy
    apply decide_eq_true
    intro heq
    exact hx' (Option.some.inj heq ▸ List.mem_map_of_mem hy)
  refine ⟨s', ?_, ?_, hsame⟩
  · rw [unlink, hl.read, Option.bind_some]
    dsimp only
    rw [if_pos rfl, hlookup, Option.bind_some, hwrite]
  · rw [hfilter]
    refine ⟨segment_append.mpr ⟨next, hsegment, hrest.congr ?_⟩, ?_⟩
    · intro b hb
      apply hother
      intro hmem
      exact hdisjoint b hmem b (List.mem_cons_of_mem _ hb) rfl
    · rw [addresses, List.map_append, List.nodup_append]
      exact ⟨hnodupl, hnodupl', fun a ha b hb => hdisjoint a ha b (List.mem_cons_of_mem _ hb)⟩

/-- The walk from the end of `l` on takes the cell of `p` out of what follows. -/
theorem unlink_spec (h : s.Holds (l ++ l')) (hp : ∀ a ∈ addresses l, some a ≠ p) {fuel : ℕ}
    (hfuel : l'.length < fuel) :
    ∃ s', unlink p fuel (lastLink l) s = some s' ∧
      s'.Holds (l ++ without p l') ∧
      ∀ b, (s'.heap.lookup b).isSome = (s.heap.lookup b).isSome := by
  induction l' generalizing l fuel with
  | nil =>
    obtain ⟨fuel, rfl⟩ := Nat.exists_eq_succ_of_ne_zero (Nat.ne_zero_of_lt hfuel)
    have hread : s.read (lastLink l) = some none := by
      have hsegment := h.segment
      rw [List.append_nil] at hsegment
      exact hsegment.read
    refine ⟨s, ?_, h, fun _ => rfl⟩
    rw [unlink, hread]
    rfl
  | cons x l' ih =>
    obtain ⟨fuel, rfl⟩ := Nat.exists_eq_succ_of_ne_zero (Nat.ne_zero_of_lt hfuel)
    have hfuel : l'.length < fuel := Nat.lt_of_succ_lt_succ hfuel
    by_cases hx : some x.1 = p
    · rw [← hx]
      exact unlink_found h fuel
    · -- the walk goes on behind this cell
      obtain ⟨r, hl, rfl, next, hlookup, hrest⟩ := segment_append.mp h.segment
      have hread := hl.read
      have hstep : l ++ x :: l' = (l ++ [x]) ++ l' := by
        rw [List.append_assoc, List.singleton_append]
      have hp' : ∀ a ∈ addresses (l ++ [x]), some a ≠ p := by
        intro a ha
        rw [addresses, List.map_append, List.mem_append] at ha
        rcases ha with ha | ha
        · exact hp a ha
        · rw [List.mem_singleton.mp ha]
          exact hx
      rw [hstep] at h
      obtain ⟨s', hunlink, hholds, hsame⟩ := ih h hp' hfuel
      refine ⟨s', ?_, ?_, hsame⟩
      · rw [unlink, hread, Option.bind_some]
        dsimp only
        rw [if_neg hx, ← lastLink_concat l x, hunlink]
      · rw [without, List.filter_cons_of_pos (by simp [hx]), ← without]
        rw [List.append_assoc, List.singleton_append] at hholds
        exact hholds

/-- The walk from the head on, with enough fuel for the whole heap. -/
theorem Store.Holds.unlink (h : s.Holds l) (p : Option A) :
    ∃ s', unlink p (s.heap.keys.length+1) .head s = some s' ∧
      s'.Holds (without p l) ∧
      ∀ b, (s'.heap.lookup b).isSome = (s.heap.lookup b).isSome :=
  unlink_spec (l := []) h (List.forall_mem_nil _)
    (Nat.lt_succ_of_le (h.segment.length_le h.nodup))

end LinkedList
