import WsServer.ConfigFile

/-! The layers of the configuration: the defaults, one file, the options of the command line. -/
namespace WsServer

/-- The words of a command line as options, each with its operand; the text is empty where an
option has none. -/
def optionsOf : List CText → Option (List (CliOption × CText))
  | [] => some []
  | word :: rest =>
    match CliOption.ofWord word with
    | none => none
    | some option =>
      if option.takesOperand then
        match rest with
        | [] => none
        | operand :: rest => (optionsOf rest).map ((option, operand) :: ·)
      else (optionsOf rest).map ((option, []) :: ·)

/-- The operand of the last `--config`. -/
def lastConfig (opts : List (CliOption × CText)) : Option CText :=
  ((opts.filter (fun x => x.1 = .config)).getLast?).map Prod.snd

/-- The defaults, the file and the options, one over the other. -/
def layered (fopen : FileSystem) (words : List CText) : Option AppConfigT :=
  (optionsOf words).map fun opts =>
    opts.foldl (fun cfg x => x.1.apply cfg x.2)
      (appConfigLoadFile fopen appConfigInitDefaults
        ((lastConfig opts).getD appDefaultConfigPath)).1

/-- The places where the first loop takes a word for the option `--config`. -/
def firstConfigAt : ℕ → List CText → List ℕ
  | _, [] => []
  | i, word :: rest =>
    if word = "--config".toList then
      match rest with
      | [] => [i]
      | _ :: rest => i :: firstConfigAt (i+2) rest
    else firstConfigAt (i+1) rest

/-- The places of `--config` among the words of these options. -/
def configAt : ℕ → List (CliOption × CText) → List ℕ
  | _, [] => []
  | i, x :: opts =>
    (if x.1 = .config then [i] else []) ++ configAt (i+(if x.1.takesOperand then 2 else 1)) opts

/-- The places where the second loop takes a word for the option `--config`. -/
def secondConfigAt (i : ℕ) (words : List CText) : List ℕ :=
  ((optionsOf words).map (configAt i)).getD []

/-- No operand of another option is the word `--config`. -/
def OperandsClear (words : List CText) : Prop :=
  ∀ opts, optionsOf words = some opts →
    ∀ x ∈ opts, x.1 = .config ∨ x.2 ≠ "--config".toList

/-- The words of a command line and its options, read from left to right. -/
inductive CommandLine : List CText → List (CliOption × CText) → Prop
  | done : CommandLine [] []
  | flag {word : CText} {option : CliOption} {words : List CText} {opts : List (CliOption × CText)}
    (hword : CliOption.ofWord word = some option) (hflag : option.takesOperand = false)
    (rest : CommandLine words opts) : CommandLine (word :: words) ((option, []) :: opts)
  | operand {word operand : CText} {option : CliOption} {words : List CText}
    {opts : List (CliOption × CText)} (hword : CliOption.ofWord word = some option)
    (htakes : option.takesOperand = true) (rest : CommandLine words opts) :
    CommandLine (word :: operand :: words) ((option, operand) :: opts)

variable {words : List CText} {opts : List (CliOption × CText)} {word : CText}
  {option : CliOption}

theorem commandLine_of_optionsOf (h : optionsOf words = some opts) : CommandLine words opts := by
  induction hlength : words.length using Nat.strongRecOn generalizing words opts with
  | _ k ih =>
    cases words with
    | nil =>
      rw [← Option.some.inj h]
      exact .done
    | cons word rest =>
      unfold optionsOf at h
      cases hword : CliOption.ofWord word with
      | none =>
        simp only [hword] at h
        cases h
      | some option =>
        simp only [hword] at h
        rw [List.length_cons] at hlength
        split_ifs at h with htakes
        · cases rest with
          | nil => cases h
          | cons operand rest =>
            obtain ⟨opts', hrest, rfl⟩ := Option.map_eq_some_iff.mp h
            rw [List.length_cons] at hlength
            exact .operand hword htakes (ih _ (by omega) hrest rfl)
        · obtain ⟨opts', hrest, rfl⟩ := Option.map_eq_some_iff.mp h
          exact .flag hword (Bool.not_eq_true _ |>.mp htakes) (ih _ (by omega) hrest rfl)

/-- The second loop carries out the options of the command line. -/
theorem applyOptions_eq (words : List CText) (cfg : AppConfigT) :
    applyOptions words cfg =
      (optionsOf words).map fun opts => opts.foldl (fun cfg x => x.1.apply cfg x.2) cfg := by
  induction hlength : words.length using Nat.strongRecOn generalizing words cfg with
  | _ k ih =>
    cases words with
    | nil => rfl
    | cons word rest =>
      unfold applyOptions optionsOf
      cases CliOption.ofWord word with
      | none => rfl
      | some option =>
        rw [List.length_cons] at hlength
        simp only
        split_ifs with htakes
        · cases rest with
          | nil => rfl
          | cons operand rest =>
            rw [List.length_cons] at hlength
            simp only
            rw [ih _ (by omega) rest _ rfl, Option.map_map]
            rfl
        · rw [ih _ (by omega) rest _ rfl, Option.map_map]
          rfl

theorem ofWord_eq_config_iff : CliOption.ofWord word = some .config ↔ word = "--config".toList := by
  constructor
  · intro h
    by_contra hne
    rw [CliOption.ofWord, if_neg hne] at h
    -- each other word is an option of its own
    repeat
      split at h
      · cases h
    cases h
  · intro h
    rw [CliOption.ofWord, if_pos h]

theorem configAt_ge (i : ℕ) (opts : List (CliOption × CText)) : ∀ j ∈ configAt i opts, i ≤ j := by
  induction opts generalizing i with
  | nil => exact List.forall_mem_nil _
  | cons x opts ih =>
    intro j hj
    rcases List.mem_append.mp hj with hhere | hrest
    · split_ifs at hhere
      · exact Nat.le_of_eq (List.mem_singleton.mp hhere).symm
      · cases hhere
    · have hle := ih _ j hrest
      split_ifs at hle <;> omega

theorem lastConfig_cons_config (operand : CText) (opts : List (CliOption × CText)) :
    lastConfig ((.config, operand) :: opts) = some ((lastConfig opts).getD operand) := by
  have hfilter : ((CliOption.config, operand) :: opts).filter (fun x => x.1 = .config) =
      (.config, operand) :: opts.filter (fun x => x.1 = .config) := rfl
  unfold lastConfig
  rw [hfilter, List.getLast?_cons]
  cases (opts.filter (fun x => x.1 = .config)).getLast? <;> rfl

theorem lastConfig_cons_other {option : CliOption} (h : option ≠ .config) (operand : CText)
    (opts : List (CliOption × CText)) : lastConfig ((option, operand) :: opts) = lastConfig opts := by
  unfold lastConfig
  rw [List.filter_cons_of_neg (by simpa using h)]

theorem word_ne_config (hword : CliOption.ofWord word = some option) (h : option ≠ .config) :
    word ≠ "--config".toList := by
  intro heq
  rw [ofWord_eq_config_iff.mpr heq] at hword
  exact h (Option.some.inj hword).symm

theorem first_config (operand : CText) (words : List CText) (i : ℕ) (path : Option CText) :
    firstConfigAt i ("--config".toList :: operand :: words) = i :: firstConfigAt (i+2) words ∧
      scanConfigPath ("--config".toList :: operand :: words) path =
        scanConfigPath words (some operand) :=
  ⟨if_pos rfl, if_pos rfl⟩

theorem first_other (h : word ≠ "--config".toList) (words : List CText) (i : ℕ)
    (path : Option CText) :
    firstConfigAt i (word :: words) = firstConfigAt (i+1) words ∧
      scanConfigPath (word :: words) path = scanConfigPath words path := by
  constructor
  · rw [firstConfigAt.eq_def]
    exact if_neg h
  · rw [scanConfigPath.eq_def]
    exact if_neg h

theorem configAt_config (operand : CText) (i : ℕ) :
    configAt i ((.config, operand) :: opts) = i :: configAt (i+2) opts := rfl

theorem configAt_flag (h : option.takesOperand = false) (operand : CText) (i : ℕ) :
    configAt i ((option, operand) :: opts) = configAt (i+1) opts := by
  have hconfig : option ≠ .config := by
    rintro rfl
    cases h
  rw [configAt, if_neg hconfig, h]
  rfl

theorem configAt_operand (h : option.takesOperand = true) (hconfig : option ≠ .config)
    (operand : CText) (i : ℕ) :
    configAt i ((option, operand) :: opts) = configAt (i+2) opts := by
  rw [configAt, if_neg hconfig, h]
  rfl

theorem flag_ne_config (h : option.takesOperand = false) : option ≠ .config := by
  rintro rfl
  cases h

/-- Where the operands are clear, the first loop sees the same options as the second. -/
theorem scan_of_clear (h : CommandLine words opts)
    (hclear : ∀ x ∈ opts, x.1 = .config ∨ x.2 ≠ "--config".toList) (i : ℕ) (path : Option CText) :
    firstConfigAt i words = configAt i opts ∧
      scanConfigPath words path = some ((lastConfig opts).or path) := by
  induction h generalizing i path with
  | done => exact ⟨rfl, rfl⟩
  | @flag word option words opts hword hflag rest ih =>
    have hconfig := flag_ne_config hflag
    obtain ⟨hfirst, hscan⟩ := first_other (word_ne_config hword hconfig) words i path
    obtain ⟨hplaces, hpath⟩ := ih (List.forall_mem_cons.mp hclear).2 (i+1) path
    rw [hfirst, hscan, hplaces, hpath, configAt_flag hflag, lastConfig_cons_other hconfig]
    exact ⟨rfl, rfl⟩
  | @operand word operand option words opts hword htakes rest ih =>
    obtain ⟨hoperand, hrest⟩ := List.forall_mem_cons.mp hclear
    by_cases hconfig : option = .config
    · subst hconfig
      obtain ⟨hfirst, hscan⟩ := first_config operand words i path
      obtain ⟨hplaces, hpath⟩ := ih hrest (i+2) (some operand)
      rw [ofWord_eq_config_iff.mp hword, hfirst, hscan, hplaces, hpath, configAt_config,
        lastConfig_cons_config]
      refine ⟨rfl, ?_⟩
      cases lastConfig opts <;> rfl
    · obtain ⟨hfirst, hscan⟩ := first_other (word_ne_config hword hconfig) (operand :: words) i path
      obtain ⟨hfirst', hscan'⟩ := first_other (hoperand.resolve_left hconfig) words (i+1) path
      obtain ⟨hplaces, hpath⟩ := ih hrest (i+2) path
      rw [hfirst, hscan, hfirst', hscan', hplaces, hpath, configAt_operand htakes hconfig,
        lastConfig_cons_other hconfig]
      exact ⟨rfl, rfl⟩

/-- Where both loops see the option at the same places, the operands are clear. -/
theorem clear_of_places (h : CommandLine words opts) {i : ℕ}
    (hplaces : firstConfigAt i words = configAt i opts) :
    ∀ x ∈ opts, x.1 = .config ∨ x.2 ≠ "--config".toList := by
  induction h generalizing i with
  | done => exact List.forall_mem_nil _
  | @flag word option words opts hword hflag rest ih =>
    have hne := word_ne_config hword (flag_ne_config hflag)
    rw [configAt_flag hflag, (first_other hne words i none).1] at hplaces
    have hempty : ([] : CText) ≠ "--config".toList := by decide
    exact List.forall_mem_cons.mpr ⟨Or.inr hempty, ih hplaces⟩
  | @operand word operand option words opts hword htakes rest ih =>
    by_cases hconfig : option = .config
    · subst hconfig
      rw [ofWord_eq_config_iff.mp hword, configAt_config,
        (first_config operand words i none).1] at hplaces
      exact List.forall_mem_cons.mpr ⟨Or.inl rfl, ih (List.cons.inj hplaces).2⟩
    · have hne := word_ne_config hword hconfig
      rw [configAt_operand htakes hconfig, (first_other hne _ i none).1] at hplaces
      by_cases hoperand : operand = "--config".toList
      · -- the first loop would see an option here, the second one only behind it
        have hmem : i+1 ∈ configAt (i+2) opts := by
          rw [← hplaces, firstConfigAt.eq_def]
          simp only [if_pos hoperand]
          split
          · exact List.mem_cons_self
          · exact List.mem_cons_self
        have hge := configAt_ge (i+2) opts (i+1) hmem
        omega
      · rw [(first_other hoperand words (i+1) none).1] at hplaces
        exact List.forall_mem_cons.mpr ⟨Or.inr hoperand, ih hplaces⟩

/-! ### A successful start -/

/-- What is behind a configuration with which the server goes on. -/
theorem parse_success {fopen : FileSystem} {cfg₀ cfg : AppConfigT} {argv : List CText}
    {printed : List Diagnostic}
    (h : appConfigParse fopen cfg₀ argv = .returned 0 cfg printed) :
    ∃ path, scanConfigPath argv.tail none = some path ∧
      applyOptions argv.tail
        (appConfigLoadFile fopen cfg₀ (path.getD appDefaultConfigPath)).1 = some cfg := by
  unfold appConfigParse at h
  cases hscan : scanConfigPath argv.tail none with
  | none =>
    simp only [hscan] at h
    cases h
  | some path =>
    refine ⟨path, rfl, ?_⟩
    simp only [hscan] at h
    split at h
    · cases h
    · split at h
      · cases h
      · rename_i happly
        split_ifs at h
        · cases h
        · rw [happly]
          injection h with _ hcfg
          rw [hcfg]

/-- Both loops see the same options and the layers lie one over the other, exactly where the
operands are clear. -/
theorem precedence_iff {fopen : FileSystem} {argv : List CText} {cfg : AppConfigT}
    {printed : List Diagnostic}
    (h : appConfigParse fopen appConfigInitDefaults argv = .returned 0 cfg printed) :
    (firstConfigAt 1 argv.tail = secondConfigAt 1 argv.tail ∧
        layered fopen argv.tail = some cfg) ↔ OperandsClear argv.tail := by
  obtain ⟨path, hscan, happly⟩ := parse_success h
  rw [applyOptions_eq] at happly
  obtain ⟨opts, hopts, hcfg⟩ := Option.map_eq_some_iff.mp happly
  have hline := commandLine_of_optionsOf hopts
  have hsecond : secondConfigAt 1 argv.tail = configAt 1 opts := by
    rw [secondConfigAt, hopts]
    rfl
  constructor
  · rintro ⟨hplaces, -⟩ opts' hopts'
    rw [hopts] at hopts'
    rw [← Option.some.inj hopts']
    exact clear_of_places hline (hplaces.trans hsecond)
  · intro hclear
    obtain ⟨hplaces, hpath⟩ := scan_of_clear hline (hclear opts hopts) 1 none
    rw [hscan, Option.or_none] at hpath
    refine ⟨hplaces.trans hsecond.symm, ?_⟩
    rw [layered, hopts, Option.map_some, ← Option.some.inj hpath, hcfg]

/-- The layer of the file is that of its lines, where they lie in one block each. -/
theorem layered_by_lines {fopen : FileSystem} {content : CText} {readError : Bool}
    (hopts : optionsOf words = some opts)
    (hopen : fopen ((lastConfig opts).getD appDefaultConfigPath) = .file content readError)
    (hone : ∀ line ∈ blankPattern content, Fgets.OneBlock (configLineSize-1) line) :
    layered fopen words =
      some (opts.foldl (fun cfg x => x.1.apply cfg x.2)
        (loadByLines content appConfigInitDefaults).1) := by
  have hload := loadsByLines_of_oneBlock hone fopen appConfigInitDefaults _ readError hopen
  rw [layered, hopts, Option.map_some, (Prod.mk.inj hload).1]

/-- A file for the tests of the layers. -/
def testFiles : FileSystem := fun path =>
  if path = "--testing".toList then .file "read_only=true\n".toList false else .failed .enoent

theorem precedence_iff_two_layers :
    (firstConfigAt 1 ["--config".toList, "--testing".toList, "--port".toList, "81".toList] =
        secondConfigAt 1 ["--config".toList, "--testing".toList, "--port".toList, "81".toList] ∧
      layered testFiles
          ["--config".toList, "--testing".toList, "--port".toList, "81".toList] =
        some { appConfigInitDefaults with readOnly := true, wsPort := 81 }) ↔
      OperandsClear ["--config".toList, "--testing".toList, "--port".toList, "81".toList] :=
  precedence_iff (show appConfigParse testFiles appConfigInitDefaults
    ["ws_server".toList, "--config".toList, "--testing".toList, "--port".toList, "81".toList] =
      .returned 0 { appConfigInitDefaults with readOnly := true, wsPort := 81 } [] by
    decide +kernel)

/-- A log directory that is called like an option. -/
theorem operand_taken_for_option :
    ∃ cfg, appConfigParse testFiles appConfigInitDefaults
        ["ws_server".toList, "--log-dir".toList, "--config".toList, "--testing".toList] =
          .returned 0 cfg [] ∧
      layered testFiles ["--log-dir".toList, "--config".toList, "--testing".toList] ≠ some cfg :=
  ⟨{ appConfigInitDefaults with
      readOnly := true, testingMode := true, logDir := "--config".toList },
    by decide +kernel, by decide +kernel⟩

end WsServer
