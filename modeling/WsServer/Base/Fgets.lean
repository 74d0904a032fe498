import WsServer.Base.Lines

/-! Reading a text by calls that stop behind a newline or when a buffer is full, and what
such calls make of the lines of the text. -/
namespace Fgets
variable {α : Type} [DecidableEq α]

/-- What one call reads with room for so many characters, and what it leaves. -/
def fgets (newline : α) : ℕ → List α → List α × List α
  | 0, text => ([], text)
  | _+1, [] => ([], [])
  | n+1, c :: cs =>
    if c = newline then ([c], cs)
    else
      let x := fgets newline n cs
      (c :: x.1, x.2)

/-- Calls until one of them reads nothing. -/
def reads (newline : α) (n : ℕ) : ℕ → List α → List (List α)
  | 0, _ => []
  | fuel+1, text =>
    match fgets newline n text with
    | ([], _) => []
    | (c :: cs, rest) => (c :: cs) :: reads newline n fuel rest

/-- All that is read of a text, call by call; each call but the last reads a character. -/
def chunks (newline : α) (n : ℕ) (text : List α) : List (List α) :=
  reads newline n text.length text

variable {newline : α} {n : ℕ} {line : List α}

theorem fgets_append (newline : α) (n : ℕ) (text : List α) :
    (fgets newline n text).1 ++ (fgets newline n text).2 = text := by
  induction n generalizing text with
  | zero => rfl
  | succ n ih =>
    cases text with
    | nil => rfl
    | cons c cs =>
      unfold fgets
      split_ifs with hc
      · rfl
      · simp only [List.cons_append, ih]

/-- A line for which there is room is read with its newline. -/
theorem fgets_short (hline : newline ∉ line) (hn : line.length < n) (rest : List α) :
    fgets newline n (line ++ newline :: rest) = (line ++ [newline], rest) := by
  induction line generalizing n with
  | nil =>
    obtain ⟨m, rfl⟩ : ∃ m, n = m+1 := ⟨n-1, by omega⟩
    exact if_pos rfl
  | cons c line ih =>
    obtain ⟨hc, htail⟩ := not_or.mp (mt List.mem_cons.mpr hline)
    rw [List.length_cons] at hn
    obtain ⟨m, rfl⟩ : ∃ m, n = m+1 := ⟨n-1, by omega⟩
    have hrest := ih (n := m) htail (by omega)
    rw [List.cons_append, fgets, if_neg (Ne.symm hc), hrest]
    rfl

/-- Of a longer line as much is read as there is room for. -/
theorem fgets_long (hline : newline ∉ line) (hn : n ≤ line.length) (rest : List α) :
    fgets newline n (line ++ rest) = (line.take n, line.drop n ++ rest) := by
  induction line generalizing n with
  | nil =>
    have hzero : n = 0 := Nat.le_zero.mp hn
    rw [hzero]
    rfl
  | cons c line ih =>
    obtain ⟨hc, htail⟩ := not_or.mp (mt List.mem_cons.mpr hline)
    cases n with
    | zero => rfl
    | succ n =>
      have hrest := ih (n := n) htail (Nat.le_of_succ_le_succ hn)
      rw [List.cons_append, fgets, if_neg (Ne.symm hc), hrest]
      rfl

theorem fgets_last (hline : newline ∉ line) (hn : line.length ≤ n) :
    fgets newline n line = (line, []) := by
  induction line generalizing n with
  | nil => cases n <;> rfl
  | cons c line ih =>
    obtain ⟨hc, htail⟩ := not_or.mp (mt List.mem_cons.mpr hline)
    rw [List.length_cons] at hn
    obtain ⟨m, rfl⟩ : ∃ m, n = m+1 := ⟨n-1, by omega⟩
    have hrest := ih (n := m) htail (by omega)
    rw [fgets, if_neg (Ne.symm hc), hrest]

theorem reads_of_le (hn : 0 < n) {fuel : ℕ} {text : List α} (hfuel : text.length ≤ fuel) :
    reads newline n fuel text = chunks newline n text := by
  -- both read the same first chunk, and the rest of the text is shorter
  have hall (fuel : ℕ) : ∀ (fuel' : ℕ) (text : List α), text.length ≤ fuel →
      text.length ≤ fuel' → reads newline n fuel text = reads newline n fuel' text := by
    induction fuel with
    | zero =>
      intro fuel' text hfuel hfuel'
      have hnil : text = [] := List.length_eq_zero_iff.mp (Nat.le_zero.mp hfuel)
      obtain ⟨m, rfl⟩ : ∃ m, n = m+1 := ⟨n-1, by omega⟩
      rw [hnil]
      cases fuel' <;> rfl
    | succ fuel ih =>
      intro fuel' text hfuel hfuel'
      cases fuel' with
      | zero =>
        have hnil : text = [] := List.length_eq_zero_iff.mp (Nat.le_zero.mp hfuel')
        obtain ⟨m, rfl⟩ : ∃ m, n = m+1 := ⟨n-1, by omega⟩
        rw [hnil]
        rfl
      | succ fuel' =>
        unfold reads
        have happend := congrArg List.length (fgets_append newline n text)
        rw [List.length_append] at happend
        split
        · rfl
        · rename_i c cs rest heq
          rw [heq] at happend
          simp only [List.length_cons] at happend
          rw [ih fuel' rest (by omega) (by omega)]
  exact hall fuel text.length text hfuel (Nat.le_refl _)

theorem chunks_nil : chunks newline n [] = [] := rfl

/-- The first chunk, and the chunks of the rest. -/
theorem chunks_cons (hn : 0 < n) {text chunk rest : List α} (hchunk : chunk ≠ [])
    (h : fgets newline n text = (chunk, rest)) :
    chunks newline n text = chunk :: chunks newline n rest := by
  have happend := congrArg List.length (fgets_append newline n text)
  rw [h, List.length_append] at happend
  simp only at happend
  have hpos : 0 < chunk.length := List.length_pos_iff.mpr hchunk
  obtain ⟨m, hm⟩ : ∃ m, text.length = m+1 := ⟨text.length-1, by omega⟩
  obtain ⟨c, cs, rfl⟩ := List.exists_cons_of_ne_nil hchunk
  have hrest : rest.length ≤ m := by
    rw [List.length_cons] at hpos happend
    omega
  rw [chunks, hm, reads]
  simp only [h]
  rw [reads_of_le hn hrest]

theorem chunks_short (hline : newline ∉ line) (hn : line.length < n) (rest : List α) :
    chunks newline n (line ++ newline :: rest) =
      (line ++ [newline]) :: chunks newline n rest :=
  chunks_cons (by omega) (List.append_ne_nil_of_right_ne_nil line (List.cons_ne_nil _ _))
    (fgets_short hline hn rest)

theorem chunks_long (hline : newline ∉ line) (hpos : 0 < n) (hn : n ≤ line.length)
    (rest : List α) :
    chunks newline n (line ++ rest) = line.take n :: chunks newline n (line.drop n ++ rest) := by
  apply chunks_cons hpos _ (fgets_long hline hn rest)
  intro hnil
  have hlength := congrArg List.length hnil
  rw [List.length_take, List.length_nil] at hlength
  omega

theorem chunks_last (hline : newline ∉ line) (hne : line ≠ []) (hn : line.length ≤ n) :
    chunks newline n line = [line] := by
  have hpos : 0 < line.length := List.length_pos_iff.mpr hne
  rw [chunks_cons (by omega) hne (fgets_last hline hn), chunks_nil]

theorem flatten_chunks (newline : α) (hn : 0 < n) (text : List α) : (chunks newline n text).flatten = text := by
  induction hlength : text.length using Nat.strongRecOn generalizing text with
  | _ k ih =>
    cases text with
    | nil => rfl
    | cons c cs =>
      -- the first call reads a character at least
      obtain ⟨m, rfl⟩ : ∃ m, n = m+1 := ⟨n-1, by omega⟩
      have happend := fgets_append newline (m+1) (c :: cs)
      have hne : (fgets newline (m+1) (c :: cs)).1 ≠ [] := by
        unfold fgets
        split_ifs
        · exact List.cons_ne_nil _ _
        · exact List.cons_ne_nil _ _
      have hpos := List.length_pos_iff.mpr hne
      have hlen := congrArg List.length happend
      rw [List.length_append, hlength] at hlen
      rw [chunks_cons hn hne rfl, List.flatten_cons, ih _ (by omega) _ rfl, happend]

/-! ### Lines that lie in one block -/

/-- Everything in a line that is not blank lies in one block of `n` characters; the line is
given by which of its characters are blank. -/
def OneBlock (n : ℕ) (blanks : List Bool) : Prop :=
  ∀ j k, blanks[j]? = some false → blanks[k]? = some false → j / n = k / n

/-- What is carried out for a line, where blanks around it make no difference. -/
structure Trimmed {σ : Type} (blank : α → Bool) (act : σ → List α → σ) : Prop where
  nil : ∀ s, act s [] = s
  front : ∀ s a l, (∀ c ∈ a, blank c = true) → act s (a ++ l) = act s l
  back : ∀ s l b, (∀ c ∈ b, blank c = true) → act s (l ++ b) = act s l

variable {σ : Type} {blank : α → Bool} {act : σ → List α → σ} {closing : List α}

omit [DecidableEq α] in
theorem Trimmed.of_blank (h : Trimmed blank act) (s : σ) {a : List α}
    (ha : ∀ c ∈ a, blank c = true) : act s a = s := by
  rw [← List.append_nil a, h.front s a [] ha, h.nil]

theorem OneBlock.drop {blanks : List Bool} (h : OneBlock n blanks) (hn : 0 < n) :
    OneBlock n (blanks.drop n) := by
  intro j k hj hk
  rw [List.getElem?_drop] at hj hk
  have hblock := h (n+j) (n+k) hj hk
  rw [Nat.add_div_left j hn, Nat.add_div_left k hn] at hblock
  exact Nat.succ.inj hblock

omit [DecidableEq α] in
/-- The first block and the rest of a line are as good as the line, one of them being blank. -/
theorem Trimmed.split (h : Trimmed blank act) (hone : OneBlock n (line.map blank)) (hn : 0 < n)
    (s : σ) : act (act s (line.take n)) (line.drop n) = act s line := by
  by_cases hfront : ∀ c ∈ line.take n, blank c = true
  · have hline : act s line = act s (line.drop n) := by
      conv_lhs => rw [← List.take_append_drop n line]
      exact h.front s _ _ hfront
    rw [h.of_blank s hfront, hline]
  · have hback : ∀ c ∈ line.drop n, blank c = true := by
      intro c hc
      by_contra hnot
      -- there would be something in the first block and behind it
      obtain ⟨d, hd⟩ := not_forall.mp hfront
      obtain ⟨hd, hdnot⟩ := Classical.not_imp.mp hd
      obtain ⟨j, hj⟩ := List.mem_iff_getElem?.mp hd
      obtain ⟨k, hk⟩ := List.mem_iff_getElem?.mp hc
      rw [List.getElem?_drop] at hk
      have hjn : j < n := by
        by_contra hle
        rw [List.getElem?_take_eq_none (Nat.le_of_not_lt hle)] at hj
        cases hj
      rw [List.getElem?_take_of_lt hjn] at hj
      have hblock := hone j (n+k)
        (by rw [List.getElem?_map, hj, Option.map_some, Bool.not_eq_true _ |>.mp hdnot])
        (by rw [List.getElem?_map, hk, Option.map_some, Bool.not_eq_true _ |>.mp hnot])
      rw [Nat.div_eq_of_lt hjn, Nat.add_div_left k hn] at hblock
      cases hblock
    have hline : act s line = act s (line.take n) := by
      conv_lhs => rw [← List.take_append_drop n line]
      exact h.back s _ _ hback
    rw [h.of_blank _ hback, hline]

/-- A line and what is read behind it, where the line ends the text or ends in a newline. -/
theorem foldl_chunks_line (h : Trimmed blank act) (hblank : blank newline = true) (hn : 0 < n)
    (hline : newline ∉ line) (hone : OneBlock n (line.map blank))
    (hclosing : closing = [] ∨ ∃ rest, closing = newline :: rest) (s : σ) :
    (chunks newline n (line ++ closing)).foldl act s =
      (chunks newline n closing.tail).foldl act (act s line) := by
  induction hlength : line.length using Nat.strongRecOn generalizing line s with
  | _ k ih =>
    by_cases hshort : line.length < n
    · obtain rfl | ⟨rest, rfl⟩ := hclosing
      · rw [List.append_nil, List.tail_nil]
        by_cases hnil : line = []
        · rw [hnil, h.nil]
        · rw [chunks_last hline hnil (by omega), chunks_nil]
          rfl
      · have hback : ∀ c ∈ [newline], blank c = true := by
          intro c hc
          rw [List.mem_singleton.mp hc, hblank]
        rw [chunks_short hline hshort, List.foldl_cons, h.back s line _ hback, List.tail_cons]
    · have hlong : n ≤ line.length := Nat.le_of_not_lt hshort
      have hdrop : newline ∉ line.drop n := fun hmem => hline (List.mem_of_mem_drop hmem)
      have honeDrop : OneBlock n ((line.drop n).map blank) := by
        rw [List.map_drop]
        exact hone.drop hn
      have hless : (line.drop n).length < k := by
        rw [List.length_drop]
        omega
      rw [chunks_long hline hn hlong, List.foldl_cons,
        ih _ hless hdrop honeDrop (act s (line.take n)) rfl, h.split hone hn]

/-- Reading by calls is reading by lines, where each line lies in one block. -/
theorem foldl_chunks_eq (h : Trimmed blank act) (hblank : blank newline = true) (hn : 0 < n)
    {text : List α} (hone : ∀ line ∈ text.splitOn newline, OneBlock n (line.map blank)) (s : σ) :
    (chunks newline n text).foldl act s = (text.splitOn newline).foldl act s := by
  induction hlength : text.length using Nat.strongRecOn generalizing text s with
  | _ k ih =>
    by_cases hmem : newline ∈ text
    · obtain ⟨line, rest, htext, hline⟩ := List.eq_append_cons_of_mem hmem
      subst htext
      rw [List.splitOn_append_cons_self_of_not_mem hline] at hone ⊢
      obtain ⟨hfirst, hrest⟩ := List.forall_mem_cons.mp hone
      have hless : rest.length < k := by
        rw [← hlength, List.length_append, List.length_cons]
        omega
      rw [foldl_chunks_line h hblank hn hline hfirst (Or.inr ⟨rest, rfl⟩), List.tail_cons,
        ih _ hless hrest _ rfl, List.foldl_cons]
    · rw [List.splitOn_eq_singleton hmem] at hone ⊢
      have hline := foldl_chunks_line h hblank hn hmem (hone text (List.mem_singleton_self text))
        (Or.inl rfl) s
      rw [List.append_nil] at hline
      rw [hline, List.tail_nil, chunks_nil]
      rfl

/-! ### Where a piece of a text begins a chunk -/

theorem chunks_behind_line (hn : 0 < n) (hline : newline ∉ line) (t : List α) :
    chunks newline n (line ++ newline :: t) =
      chunks newline n (line ++ [newline]) ++ chunks newline n t := by
  induction hlength : line.length using Nat.strongRecOn generalizing line with
  | _ k ih =>
    by_cases hshort : line.length < n
    · rw [chunks_short hline hshort, chunks_short hline hshort, chunks_nil]
      rfl
    · have hlong : n ≤ line.length := Nat.le_of_not_lt hshort
      have hdrop : newline ∉ line.drop n := fun hmem => hline (List.mem_of_mem_drop hmem)
      have hless : (line.drop n).length < k := by
        rw [List.length_drop]
        omega
      rw [chunks_long hline hn hlong, chunks_long hline hn hlong, ih _ hless hdrop rfl,
        List.cons_append]

/-- What stands behind a newline begins a chunk. -/
theorem chunks_behind_newline (hn : 0 < n) (a t : List α) :
    chunks newline n (a ++ newline :: t) =
      chunks newline n (a ++ [newline]) ++ chunks newline n t := by
  induction hlength : a.length using Nat.strongRecOn generalizing a with
  | _ k ih =>
    by_cases hmem : newline ∈ a
    · obtain ⟨line, rest, rfl, hline⟩ := List.eq_append_cons_of_mem hmem
      have hless : rest.length < k := by
        rw [← hlength, List.length_append, List.length_cons]
        omega
      rw [List.append_assoc, List.cons_append, chunks_behind_line hn hline,
        ih _ hless rest rfl, List.append_assoc line, List.cons_append,
        chunks_behind_line hn hline (rest ++ [newline]), List.append_assoc]
    · exact chunks_behind_line hn hmem t

/-- What stands behind whole blocks of a line begins a chunk. -/
theorem chunks_behind_blocks (hn : 0 < n) (hline : newline ∉ line) (q : ℕ)
    (hq : q*n ≤ line.length) (t : List α) :
    ∃ cs, chunks newline n (line ++ t) = cs ++ chunks newline n (line.drop (q*n) ++ t) := by
  induction q generalizing line with
  | zero =>
    rw [Nat.zero_mul, List.drop_zero]
    exact ⟨[], rfl⟩
  | succ q ih =>
    rw [Nat.succ_mul] at hq ⊢
    have hdrop : newline ∉ line.drop n := fun hmem => hline (List.mem_of_mem_drop hmem)
    obtain ⟨cs, hcs⟩ := ih hdrop (by rw [List.length_drop]; omega)
    refine ⟨line.take n :: cs, ?_⟩
    rw [chunks_long hline hn (by omega), hcs, List.drop_drop, List.cons_append, Nat.add_comm n]

/-- The first character of a line that is not blank is the first one of a chunk. -/
theorem exists_chunk_find? (blank : α → Bool) (hn : 0 < n) (hline : newline ∉ line)
    (hclosing : closing = [] ∨ ∃ rest, closing = newline :: rest) {c : α}
    (hc : line.find? (fun c => !blank c) = some c) :
    ∃ chunk ∈ chunks newline n (line ++ closing), chunk.find? (fun c => !blank c) = some c := by
  induction hlength : line.length using Nat.strongRecOn generalizing line with
  | _ k ih =>
    have hne : line ≠ [] := by
      rintro rfl
      cases hc
    by_cases hshort : line.length < n
    · obtain rfl | ⟨rest, rfl⟩ := hclosing
      · refine ⟨line, ?_, hc⟩
        rw [List.append_nil, chunks_last hline hne (by omega)]
        exact List.mem_singleton_self line
      · refine ⟨line ++ [newline], ?_, ?_⟩
        · rw [chunks_short hline hshort]
          exact List.mem_cons_self
        · rw [List.find?_append, hc, Option.some_or]
    · have hlong : n ≤ line.length := Nat.le_of_not_lt hshort
      have hdrop : newline ∉ line.drop n := fun hmem => hline (List.mem_of_mem_drop hmem)
      have hless : (line.drop n).length < k := by
        rw [List.length_drop]
        omega
      rw [chunks_long hline hn hlong]
      have hsplit := hc
      rw [← List.take_append_drop n line, List.find?_append] at hsplit
      cases htake : (line.take n).find? (fun c => !blank c) with
      | some d =>
        rw [htake, Option.some_or] at hsplit
        exact ⟨line.take n, List.mem_cons_self, htake.trans hsplit⟩
      | none =>
        rw [htake, Option.none_or] at hsplit
        obtain ⟨chunk, hmem, hchunk⟩ := ih _ hless hdrop hsplit rfl
        exact ⟨chunk, List.mem_cons_of_mem _ hmem, hchunk⟩

/-- The first character of a later block of a line is the first of some chunk, wherever the
line stands. -/
theorem exists_chunk_of_block (blank : α → Bool) (hn : 0 < n) {a : List α}
    (ha : a = [] ∨ ∃ a', a = a' ++ [newline]) (hline : newline ∉ line)
    (hclosing : closing = [] ∨ ∃ rest, closing = newline :: rest) {q : ℕ}
    (hq : q*n ≤ line.length) {c : α}
    (hc : (line.drop (q*n)).find? (fun c => !blank c) = some c) :
    ∃ chunk ∈ chunks newline n (a ++ (line ++ closing)),
      chunk.find? (fun c => !blank c) = some c := by
  -- the line begins a chunk, and so does each of its blocks
  have hbegin : ∃ cs, chunks newline n (a ++ (line ++ closing)) =
      cs ++ chunks newline n (line ++ closing) := by
    obtain rfl | ⟨a', rfl⟩ := ha
    · exact ⟨[], rfl⟩
    · rw [List.append_assoc]
      exact ⟨_, chunks_behind_newline hn a' _⟩
  obtain ⟨cs, hcs⟩ := hbegin
  obtain ⟨ds, hds⟩ := chunks_behind_blocks hn hline q hq closing
  have hrest : newline ∉ line.drop (q*n) := fun hmem => hline (List.mem_of_mem_drop hmem)
  obtain ⟨chunk, hchunk, hfirst⟩ := exists_chunk_find? blank hn hrest hclosing hc
  refine ⟨chunk, ?_, hfirst⟩
  rw [hcs, hds]
  exact List.mem_append_right cs (List.mem_append_right ds hchunk)

end Fgets
