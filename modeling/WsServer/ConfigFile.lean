import WsServer.Base.CBuffer
import WsServer.Config

/-! Config files against their description: lines, of which the blank ones and the comments are
passed over and each other one is a setting. -/
namespace WsServer

/-- A blank line or a comment. -/
def SaysNothing (line : CText) : Prop :=
  line.find? (fun c => !Scanf.isSpace c) = none ∨
    line.find? (fun c => !Scanf.isSpace c) = some '#' ∨
    line.find? (fun c => !Scanf.isSpace c) = some ';'

instance (line : CText) : Decidable (SaysNothing line) := inferInstanceAs (Decidable (_ ∨ _ ∨ _))

def keyValue (line : CText) : Option (CText × CText) :=
  (Lines.field '=' line).map fun x => (trimWhitespace x.1, unquoted (trimWhitespace x.2))

/-- The settings of these lines in order, until one of them fails. -/
def applySettings : List CText → AppConfigT → AppConfigT × Bool
  | [], cfg => (cfg, true)
  | line :: rest, cfg =>
    match keyValue line with
    | none => (cfg, false)
    | some (key, value) =>
      match applyConfigKv cfg key value [] 0 with
      | .error _ => (cfg, false)
      | .ok cfg => applySettings rest cfg

/-- What a file of this content means for a configuration, and whether it is well formed. -/
def loadByLines (content : CText) (cfg : AppConfigT) : AppConfigT × Bool :=
  applySettings ((content.splitOn '\n').filter (fun line => ¬ SaysNothing line)) cfg

/-- A file of this content is loaded with the result that its lines have. -/
def LoadsByLines (content : CText) : Prop :=
  ∀ (fopen : FileSystem) (cfg : AppConfigT) (configPath : CText) (readError : Bool),
    fopen configPath = .file content readError →
      ((appConfigLoadFile fopen cfg configPath).1,
          (appConfigLoadFile fopen cfg configPath).2.isNone) =
        ((loadByLines content cfg).1, (loadByLines content cfg).2 && !readError)

/-- Where a content is blank, line by line. -/
def blankPattern (content : CText) : List (List Bool) :=
  (content.splitOn '\n').map (List.map Scanf.isSpace)

/-! ### What a line does -/

/-- A line behind others, of which one may have failed. -/
def lineAct (s : AppConfigT × Bool) (line : CText) : AppConfigT × Bool :=
  if s.2 then
    match (applyConfigLine [] 0 line s.1).toOption with
    | none => (s.1, false)
    | some cfg => (cfg, true)
  else s

variable {cfg : AppConfigT} {line content : CText}

/-- Where a setting stands makes no difference but for what is printed. -/
theorem applyConfigKv_toOption (cfg : AppConfigT) (key value configPath : CText) (lineNo : ℕ) :
    (applyConfigKv cfg key value configPath lineNo).toOption =
      (ConfigKey.ofText key).bind fun setting => setting.apply cfg value := by
  unfold applyConfigKv
  cases ConfigKey.ofText key with
  | none => rfl
  | some setting =>
    simp only [Option.bind_some]
    cases setting.apply cfg value with
    | none => rfl
    | some cfg' => rfl

theorem applyConfigLine_toOption (configPath : CText) (lineNo : ℕ) (line : CText)
    (cfg : AppConfigT) :
    (applyConfigLine configPath lineNo line cfg).toOption =
      (applyConfigLine [] 0 line cfg).toOption := by
  unfold applyConfigLine
  simp only
  split_ifs
  · rfl
  · cases Lines.field '=' (trimWhitespace line) with
    | none => rfl
    | some x =>
      calc
        (applyConfigKv cfg (trimWhitespace x.1) (unquoted (trimWhitespace x.2)) configPath
            lineNo).toOption
        _ = (ConfigKey.ofText (trimWhitespace x.1)).bind fun setting =>
              setting.apply cfg (unquoted (trimWhitespace x.2)) :=
          applyConfigKv_toOption ..
        _ = (applyConfigKv cfg (trimWhitespace x.1) (unquoted (trimWhitespace x.2)) []
              0).toOption :=
          (applyConfigKv_toOption ..).symm

theorem foldl_lineAct_failed (ls : List CText) (cfg : AppConfigT) :
    ls.foldl lineAct (cfg, false) = (cfg, false) := by
  induction ls with
  | nil => rfl
  | cons line ls ih => exact ih

theorem applyConfigLines_eq (configPath : CText) (lineNo : ℕ) (ls : List CText)
    (cfg : AppConfigT) :
    ((applyConfigLines configPath lineNo ls cfg).1,
        (applyConfigLines configPath lineNo ls cfg).2.isNone) = ls.foldl lineAct (cfg, true) := by
  induction ls generalizing lineNo cfg with
  | nil => rfl
  | cons line ls ih =>
    have hline := applyConfigLine_toOption configPath (lineNo+1) line cfg
    rw [List.foldl_cons, applyConfigLines]
    cases hresult : applyConfigLine configPath (lineNo+1) line cfg with
    | error message =>
      have hact : lineAct (cfg, true) line = (cfg, false) := by
        rw [lineAct, if_pos rfl, ← hline, hresult]
        rfl
      rw [hact, foldl_lineAct_failed]
      rfl
    | ok cfg' =>
      have hact : lineAct (cfg, true) line = (cfg', true) := by
        rw [lineAct, if_pos rfl, ← hline, hresult]
        rfl
      rw [hact]
      exact ih (lineNo+1) cfg'

theorem lineAct_trimmed : Fgets.Trimmed Scanf.isSpace lineAct := by
  -- a line is looked at only when it is trimmed
  have htrim {l l' : CText} (h : trimWhitespace l = trimWhitespace l') (s : AppConfigT × Bool) :
      lineAct s l = lineAct s l' := by
    unfold lineAct applyConfigLine
    rw [h]
  constructor
  · intro s
    unfold lineAct
    split_ifs with hs
    · rw [show (applyConfigLine [] 0 [] s.1).toOption = some s.1 from rfl]
      simp only [← hs]
    · rfl
  · intro s a l ha
    exact htrim (Trim.trim_blank_append ha l) s
  · intro s l b hb
    exact htrim (Trim.trim_append_blank hb l) s

theorem trimmed_saysNothing (line : CText) :
    (trimWhitespace line = [] ∨ (trimWhitespace line).head? = some '#' ∨
      (trimWhitespace line).head? = some ';') ↔ SaysNothing line := by
  unfold trimWhitespace SaysNothing
  rw [Trim.head?_trim, Trim.trim_eq_nil_iff]

theorem lineAct_nothing (h : SaysNothing line) (cfg : AppConfigT) :
    lineAct (cfg, true) line = (cfg, true) := by
  have hline : (applyConfigLine [] 0 line cfg).toOption = some cfg := by
    unfold applyConfigLine
    simp only [if_pos ((trimmed_saysNothing line).mpr h)]
    rfl
  rw [lineAct, if_pos rfl, hline]

theorem applyConfigLine_setting (h : ¬ SaysNothing line) (cfg : AppConfigT) :
    (applyConfigLine [] 0 line cfg).toOption =
      (keyValue line).bind fun x => (applyConfigKv cfg x.1 x.2 [] 0).toOption := by
  have hfields := congrArg (Option.map fun x : CText × CText => (x.1, unquoted x.2))
    (Trim.field_trim Scanf.isSpace (show Scanf.isSpace '=' = false by decide) line)
  rw [Option.map_map, Option.map_map] at hfields
  have hkeyValue : keyValue line = (Lines.field '=' (trimWhitespace line)).map
      fun x => (trimWhitespace x.1, unquoted (trimWhitespace x.2)) := hfields.symm
  rw [hkeyValue]
  unfold applyConfigLine
  simp only [if_neg (mt (trimmed_saysNothing line).mp h)]
  cases Lines.field '=' (trimWhitespace line) with
  | none => rfl
  | some x => rfl

theorem foldl_lineAct_eq (ls : List CText) (cfg : AppConfigT) :
    ls.foldl lineAct (cfg, true) =
      applySettings (ls.filter (fun line => ¬ SaysNothing line)) cfg := by
  induction ls generalizing cfg with
  | nil => rfl
  | cons line ls ih =>
    rw [List.foldl_cons]
    by_cases hline : SaysNothing line
    · rw [lineAct_nothing hline, List.filter_cons_of_neg (by simpa using hline), ih]
    · rw [List.filter_cons_of_pos (by simpa using hline), applySettings, lineAct, if_pos rfl,
        applyConfigLine_setting hline]
      cases keyValue line with
      | none => exact foldl_lineAct_failed ls cfg
      | some x =>
        cases hkv : applyConfigKv cfg x.1 x.2 [] 0 with
        | error message =>
          simp only [Option.bind_some, hkv]
          exact foldl_lineAct_failed ls cfg
        | ok cfg' =>
          simp only [Option.bind_some, hkv]
          exact ih cfg'

/-- A file is loaded by the calls that read it. -/
theorem loadFile_eq {fopen : FileSystem} {configPath : CText} {readError : Bool}
    (h : fopen configPath = .file content readError) (cfg : AppConfigT) :
    ((appConfigLoadFile fopen cfg configPath).1,
        (appConfigLoadFile fopen cfg configPath).2.isNone) =
      (((Fgets.chunks '\n' (configLineSize-1) content).foldl lineAct (cfg, true)).1,
        ((Fgets.chunks '\n' (configLineSize-1) content).foldl lineAct (cfg, true)).2 &&
          !readError) := by
  rw [← applyConfigLines_eq configPath 0]
  unfold appConfigLoadFile
  rw [h]
  simp only
  rcases applyConfigLines configPath 0 (Fgets.chunks '\n' (configLineSize-1) content) cfg with
    ⟨cfg', none | message⟩
  · cases readError <;> rfl
  · rfl

theorem loadByLines_eq (content : CText) (cfg : AppConfigT) :
    loadByLines content cfg = (content.splitOn '\n').foldl lineAct (cfg, true) :=
  (foldl_lineAct_eq _ cfg).symm

/-- A file whose lines lie in one block each is loaded by lines. -/
theorem loadsByLines_of_oneBlock
    (h : ∀ line ∈ blankPattern content, Fgets.OneBlock (configLineSize-1) line) :
    LoadsByLines content := by
  intro fopen cfg configPath readError hopen
  have hone : ∀ line ∈ content.splitOn '\n',
      Fgets.OneBlock (configLineSize-1) (line.map Scanf.isSpace) := fun line hline =>
    h _ (List.mem_map_of_mem hline)
  have hchunks := Fgets.foldl_chunks_eq lineAct_trimmed
    (show Scanf.isSpace '\n' = true by decide) (show 0 < configLineSize-1 by decide) hone (cfg, true)
  rw [loadFile_eq hopen, hchunks, loadByLines_eq]

/-! ### A line in two blocks -/

/-- Characters that are not blank, all made the same. -/
def masked (mark c : Char) : Char := if Scanf.isSpace c then c else mark

/-- A comment up to this place, with a text behind it that is no setting. -/
def commentThenText (m : ℕ) (line : CText) : CText :=
  (line.take m).map (masked '#') ++ (line.drop m).map (masked 'x')

theorem map_isSpace_masked {mark : Char} (hmark : Scanf.isSpace mark = false) (line : CText) :
    (line.map (masked mark)).map Scanf.isSpace = line.map Scanf.isSpace := by
  rw [List.map_map]
  apply List.map_congr_left
  intro c _
  simp only [Function.comp_apply, masked]
  split_ifs with hc
  · rfl
  · rw [hmark, Bool.not_eq_true _ |>.mp hc]

theorem map_isSpace_commentThenText (m : ℕ) (line : CText) :
    (commentThenText m line).map Scanf.isSpace = line.map Scanf.isSpace := by
  unfold commentThenText
  rw [List.map_append, map_isSpace_masked (by decide), map_isSpace_masked (by decide),
    ← List.map_append, List.take_append_drop]

/-- A line in which only one character is not blank, however often, begins with that one. -/
theorem find?_masked {mark : Char} (hmark : Scanf.isSpace mark = false) (line : CText) :
    (line.map (masked mark)).find? (fun c => !Scanf.isSpace c) =
      (line.find? (fun c => !Scanf.isSpace c)).map fun _ => mark := by
  induction line with
  | nil => rfl
  | cons c line ih =>
    rw [List.map_cons, masked]
    split_ifs with hc
    · rw [List.find?_cons_of_neg (by rw [hc]; decide), List.find?_cons_of_neg (by rw [hc]; decide),
        ih]
    · rw [List.find?_cons_of_pos (by rw [hmark]; decide),
        List.find?_cons_of_pos (by rw [Bool.not_eq_true _ |>.mp hc]; decide)]
      rfl

theorem masked_saysNothing (line : CText) : SaysNothing (line.map (masked '#')) := by
  unfold SaysNothing
  rw [find?_masked (by decide)]
  cases line.find? (fun c => !Scanf.isSpace c) with
  | none => exact Or.inl rfl
  | some c => exact Or.inr (Or.inl rfl)

/-- The line in two blocks is a comment as a whole. -/
theorem commentThenText_saysNothing {m : ℕ} {c : Char}
    (hc : (line.take m).find? (fun c => !Scanf.isSpace c) = some c) :
    SaysNothing (commentThenText m line) := by
  unfold SaysNothing commentThenText
  rw [List.find?_append, find?_masked (by decide), hc]
  exact Or.inr (Or.inl rfl)

theorem masked_cases {mark : Char} (hmark : mark = '#' ∨ mark = 'x') (line : CText) :
    ∀ c ∈ line.map (masked mark), Scanf.isSpace c = true ∨ c = '#' ∨ c = 'x' := by
  intro c hc
  obtain ⟨d, -, rfl⟩ := List.mem_map.mp hc
  unfold masked
  split_ifs with hd
  · exact Or.inl hd
  · exact Or.inr hmark

theorem foldl_nothing {ls : List CText} (h : ∀ line ∈ ls, SaysNothing line) (cfg : AppConfigT) :
    ls.foldl lineAct (cfg, true) = (cfg, true) := by
  induction ls with
  | nil => rfl
  | cons line ls ih =>
    obtain ⟨hline, hls⟩ := List.forall_mem_cons.mp h
    rw [List.foldl_cons, lineAct_nothing hline, ih hls]

/-- A line that is neither passed over nor a setting makes loading fail. -/
theorem foldl_fails {ls : List CText} (hmem : line ∈ ls) (hheard : ¬ SaysNothing line)
    (hfield : '=' ∉ line) (s : AppConfigT × Bool) : (ls.foldl lineAct s).2 = false := by
  have hact (cfg : AppConfigT) : lineAct (cfg, true) line = (cfg, false) := by
    rw [lineAct, if_pos rfl, applyConfigLine_setting hheard, keyValue,
      Trim.field_eq_none_iff.mpr hfield]
    rfl
  induction ls generalizing s with
  | nil => cases hmem
  | cons first ls ih =>
    obtain ⟨cfg, ok⟩ := s
    rw [List.foldl_cons]
    cases ok with
    | false =>
      rw [show lineAct (cfg, false) first = (cfg, false) from rfl, foldl_lineAct_failed]
    | true =>
      rcases List.mem_cons.mp hmem with rfl | hrest
      · rw [hact, foldl_lineAct_failed]
      · exact ih hrest _

/-- Where a line does not lie in one block, there is something in its blocks up to some place
and something behind it. -/
theorem exists_block_of_not_oneBlock {n : ℕ} (hn : 0 < n)
    (h : ¬ Fgets.OneBlock n (line.map Scanf.isSpace)) :
    ∃ q, q*n ≤ line.length ∧ ((line.take (q*n)).find? (fun c => !Scanf.isSpace c)).isSome ∧
      ((line.drop (q*n)).find? (fun c => !Scanf.isSpace c)).isSome := by
  have hless : ∃ j k, (line.map Scanf.isSpace)[j]? = some false ∧
      (line.map Scanf.isSpace)[k]? = some false ∧ j/n < k/n := by
    unfold Fgets.OneBlock at h
    push Not at h
    obtain ⟨j, k, hj, hk, hne⟩ := h
    rcases Nat.lt_or_gt_of_ne hne with hlt | hgt
    · exact ⟨j, k, hj, hk, hlt⟩
    · exact ⟨k, j, hk, hj, hgt⟩
  obtain ⟨j, k, hj, hk, hlt⟩ := hless
  have hfound {l : CText} {i : ℕ} (hi : (l.map Scanf.isSpace)[i]? = some false) :
      (l.find? (fun c => !Scanf.isSpace c)).isSome := by
    rw [List.getElem?_map] at hi
    obtain ⟨c, hc, hspace⟩ := Option.map_eq_some_iff.mp hi
    rw [List.find?_isSome]
    exact ⟨c, List.mem_of_getElem? hc, by rw [hspace]; rfl⟩
  -- the block of the later one begins behind the earlier one
  have hkq : k/n*n ≤ k := Nat.div_mul_le_self k n
  have hjq : j < k/n*n := by
    have hsucc : (j/n+1)*n ≤ k/n*n := Nat.mul_le_mul_right n hlt
    have hj' := Nat.lt_div_mul_add hn (a := j)
    rw [Nat.succ_mul] at hsucc
    omega
  have hklen : k < line.length := by
    have hlen := (List.getElem?_eq_some_iff.mp hk).1
    rwa [List.length_map] at hlen
  refine ⟨k/n, by omega, ?_, ?_⟩
  · apply hfound (i := j)
    rw [List.map_take, List.getElem?_take_of_lt hjq]
    exact hj
  · apply hfound (i := k-k/n*n)
    rw [List.map_drop, List.getElem?_drop, Nat.add_sub_cancel' hkq]
    exact hk

/-- The content with a line in two blocks, made comments but for what stands in its later
blocks. -/
def commentedOut (m : ℕ) (ls₁ : List CText) (line : CText) (ls₂ : List CText) : CText :=
  ['\n'].intercalate
    (ls₁.map (List.map (masked '#')) ++ commentThenText m line :: ls₂.map (List.map (masked '#')))

theorem commentedOut_cases (m : ℕ) (ls₁ : List CText) (line : CText) (ls₂ : List CText) :
    ∀ c ∈ commentedOut m ls₁ line ls₂, Scanf.isSpace c = true ∨ c = '#' ∨ c = 'x' := by
  have hmasked (ls : List CText) : ∀ l ∈ ls.map (List.map (masked '#')), ∀ c ∈ l,
      Scanf.isSpace c = true ∨ c = '#' ∨ c = 'x' := by
    intro l hl
    obtain ⟨l', -, rfl⟩ := List.mem_map.mp hl
    exact masked_cases (Or.inl rfl) l'
  unfold commentedOut
  apply Lines.forall_mem_intercalate (P := fun c => Scanf.isSpace c = true ∨ c = '#' ∨ c = 'x')
    (Or.inl (by decide))
  refine List.forall_mem_append.mpr ⟨hmasked ls₁, List.forall_mem_cons.mpr ⟨?_, hmasked ls₂⟩⟩
  exact List.forall_mem_append.mpr ⟨masked_cases (Or.inl rfl) _, masked_cases (Or.inr rfl) _⟩

theorem splitOn_commentedOut (m : ℕ) {ls₁ ls₂ : List CText}
    (h : content.splitOn '\n' = ls₁ ++ line :: ls₂) :
    (commentedOut m ls₁ line ls₂).splitOn '\n' =
      ls₁.map (List.map (masked '#')) ++ commentThenText m line ::
        ls₂.map (List.map (masked '#')) := by
  have hmasked {mark : Char} (hmark : '\n' ≠ mark) {l : CText} (hl : '\n' ∉ l) :
      '\n' ∉ l.map (masked mark) := by
    intro hmem
    obtain ⟨c, hc, heq⟩ := List.mem_map.mp hmem
    unfold masked at heq
    split_ifs at heq
    · exact hl (heq ▸ hc)
    · exact hmark heq.symm
  have hlines {l : CText} (hl : l ∈ ls₁ ++ line :: ls₂) : '\n' ∉ l := by
    rw [← h] at hl
    exact Lines.notMem_of_mem_splitOn hl
  have hall {ls : List CText} (hls : ∀ l ∈ ls, '\n' ∉ l) :
      ∀ l ∈ ls.map (List.map (masked '#')), '\n' ∉ l := by
    intro l hl
    obtain ⟨l', hl', rfl⟩ := List.mem_map.mp hl
    exact hmasked (by decide) (hls l' hl')
  apply List.splitOn_intercalate
  · refine List.forall_mem_append.mpr ⟨hall ?_, List.forall_mem_cons.mpr ⟨?_, hall ?_⟩⟩
    · intro l hl
      exact hlines (List.mem_append_left _ hl)
    · have hline := hlines (List.mem_append_right ls₁ List.mem_cons_self)
      unfold commentThenText
      rw [List.mem_append]
      refine not_or.mpr ⟨hmasked (by decide) ?_, hmasked (by decide) ?_⟩
      · exact fun hmem => hline (List.mem_of_mem_take hmem)
      · exact fun hmem => hline (List.mem_of_mem_drop hmem)
    · intro l hl
      exact hlines (List.mem_append_right ls₁ (List.mem_cons_of_mem line hl))
  · exact List.append_ne_nil_of_right_ne_nil _ (List.cons_ne_nil _ _)

theorem blankPattern_commentedOut (m : ℕ) {ls₁ ls₂ : List CText}
    (h : content.splitOn '\n' = ls₁ ++ line :: ls₂) :
    blankPattern (commentedOut m ls₁ line ls₂) = blankPattern content := by
  have hmasked (ls : List CText) :
      (ls.map (List.map (masked '#'))).map (List.map Scanf.isSpace) =
        ls.map (List.map Scanf.isSpace) := by
    rw [List.map_map]
    apply List.map_congr_left
    intro l _
    exact map_isSpace_masked (by decide) l
  unfold blankPattern
  rw [splitOn_commentedOut m h, h, List.map_append, List.map_cons, hmasked, hmasked,
    map_isSpace_commentThenText, List.map_append, List.map_cons]

/-- By its lines it sets nothing, and it is well formed. -/
theorem loadByLines_commentedOut {m : ℕ} {ls₁ ls₂ : List CText}
    (h : content.splitOn '\n' = ls₁ ++ line :: ls₂)
    (hfront : ((line.take m).find? (fun c => !Scanf.isSpace c)).isSome) (cfg : AppConfigT) :
    loadByLines (commentedOut m ls₁ line ls₂) cfg = (cfg, true) := by
  obtain ⟨c, hc⟩ := Option.isSome_iff_exists.mp hfront
  have hmasked (ls : List CText) : ∀ l ∈ ls.map (List.map (masked '#')), SaysNothing l := by
    intro l hl
    obtain ⟨l', -, rfl⟩ := List.mem_map.mp hl
    exact masked_saysNothing l'
  rw [loadByLines_eq, splitOn_commentedOut m h]
  apply foldl_nothing
  exact List.forall_mem_append.mpr
    ⟨hmasked ls₁, List.forall_mem_cons.mpr ⟨commentThenText_saysNothing hc, hmasked ls₂⟩⟩

theorem length_commentThenText (m : ℕ) (line : CText) :
    (commentThenText m line).length = line.length := by
  unfold commentThenText
  rw [List.length_append, List.length_map, List.length_map, ← List.length_append,
    List.take_append_drop]

theorem drop_commentThenText {m : ℕ} (hm : m ≤ line.length) :
    (commentThenText m line).drop m = (line.drop m).map (masked 'x') := by
  unfold commentThenText
  rw [List.drop_left']
  rw [List.length_map, List.length_take, Nat.min_eq_left hm]

/-- Read by calls, it is not well formed: what stands in the later blocks of the line begins a
line of its own. -/
theorem chunks_commentedOut_fails {q : ℕ} {ls₁ ls₂ : List CText}
    (h : content.splitOn '\n' = ls₁ ++ line :: ls₂) (hq : q*(configLineSize-1) ≤ line.length)
    (hback : ((line.drop (q*(configLineSize-1))).find? (fun c => !Scanf.isSpace c)).isSome)
    (s : AppConfigT × Bool) :
    ((Fgets.chunks '\n' (configLineSize-1)
      (commentedOut (q*(configLineSize-1)) ls₁ line ls₂)).foldl lineAct s).2 = false := by
  have hn : 0 < configLineSize-1 := by decide
  obtain ⟨c, hc⟩ := Option.isSome_iff_exists.mp hback
  have hline : '\n' ∉ commentThenText (q*(configLineSize-1)) line := by
    apply Lines.notMem_of_mem_splitOn
    rw [splitOn_commentedOut (q*(configLineSize-1)) h]
    exact List.mem_append_right _ List.mem_cons_self
  have hx : ((commentThenText (q*(configLineSize-1)) line).drop (q*(configLineSize-1))).find?
      (fun c => !Scanf.isSpace c) = some 'x' := by
    rw [drop_commentThenText hq, find?_masked (by decide), hc]
    rfl
  obtain ⟨a, b, ha, hb, hab⟩ := Lines.intercalate_split '\n'
    (ls₁.map (List.map (masked '#'))) (commentThenText (q*(configLineSize-1)) line)
    (ls₂.map (List.map (masked '#')))
  have hwhole : commentedOut (q*(configLineSize-1)) ls₁ line ls₂ =
      a ++ (commentThenText (q*(configLineSize-1)) line ++ b) := by
    rw [← List.append_assoc]
    exact hab
  have hlength : q*(configLineSize-1) ≤ (commentThenText (q*(configLineSize-1)) line).length := by
    rw [length_commentThenText]
    exact hq
  obtain ⟨chunk, hmem, hfirst⟩ :=
    Fgets.exists_chunk_of_block Scanf.isSpace hn ha hline hb hlength hx
  rw [← hwhole] at hmem
  apply foldl_fails hmem
  · unfold SaysNothing
    rw [hfirst]
    decide
  · -- the masked text has no `=`, so no chunk of it is a setting
    intro hfield
    have hcontent : '=' ∈ commentedOut (q*(configLineSize-1)) ls₁ line ls₂ := by
      rw [← Fgets.flatten_chunks '\n' hn
        (commentedOut (q*(configLineSize-1)) ls₁ line ls₂)]
      exact List.mem_flatten.mpr ⟨chunk, hmem, hfield⟩
    have hcases := commentedOut_cases _ _ _ _ _ hcontent
    revert hcases
    decide

/-- A comment of 511 characters, with the text of a setting behind them. -/
def longComment : CText := ('#' :: List.replicate 510 'x') ++ "read_only=false".toList

def longCommentFile : CText := "read_only=true".toList ++ '\n' :: (longComment ++ ['\n'])

end WsServer
