import WsServer.CommandOutcome

/-! Testing mode and real mode agree: what the one reports as parsed the other carries out
where the state admits it, and what the one refuses the other does not carry out. -/
namespace WsServer
open Interaction Program

/-- How a report begins: with the kind of its command. -/
def Command.heading : Command → String
  | .abort => "TESTING parsed ABORT command"
  | .state _ => "TESTING parsed STATE command: "
  | .setValve _ _ => "TESTING parsed SET_VALVE: "
  | .wiggleStop _ => "TESTING parsed WIGGLE_STOP: "
  | .wiggle _ => "TESTING parsed WIGGLE: "
  | .drown => "TESTING parsed DROWN command"
  | .fire _ => "TESTING parsed FIRE: "
  | .rawCan _ => "TESTING parsed RAW CAN: id=0x"

/-- The replies of testing mode that report no command. -/
def testingRefusals : List String :=
  ["TESTING parse error: unknown STATE value", "TESTING parse error: SET_VALVE format",
    "TESTING parse error: valve CAN id out of range", "TESTING parse error: valve angle out of range",
    "TESTING parse error: unknown SET_VALVE field", "TESTING parse error: WIGGLE_STOP format",
    "TESTING parse error: WIGGLE format", "TESTING parse error: FIRE format",
    "TESTING parse error: CAN id out of range", "TESTING invalid command",
    "Server error: out of memory", "Write-only mode enabled", "Write-only mode disabled"]

/-- The reply fits the command that there is in the text, or that there is none. -/
def Replied (found : Option Command) (msg : String) : Prop :=
  (∃ c, found = some c ∧ msg = c.report) ∨ (found = none ∧ msg ∈ testingRefusals)

variable {client : Client} {p : Process} {found : Option Command}

theorem replied_some (c : Command) : Replied (some c) c.report := Or.inl ⟨c, rfl, rfl⟩

theorem replied_none {msg : String} (h : msg ∈ testingRefusals) : Replied none msg :=
  Or.inr ⟨rfl, h⟩

/-! ### The handlers of testing mode -/

theorem handleTestingState_replied {text : CText} (h : hasPrefix "STATE#" text = true) :
    ∃ msg, handleTestingState text = some msg ∧ Replied (commandOf text) msg := by
  have habort : text ≠ "ABORT#8765".toList := ne_of_hasPrefix h (by decide)
  unfold handleTestingState commandOf
  rw [h, Bool.not_true, if_neg Bool.false_ne_true, if_neg habort, if_pos rfl]
  split_ifs
  · exact ⟨_, rfl, replied_some _⟩
  · exact ⟨_, rfl, replied_some _⟩
  · exact ⟨_, rfl, replied_none (by decide)⟩

/-- The name is that of an id, that of an angle, or none. -/
theorem valveFieldOf_cases (name : CText) :
    ((name = "LOX_MAIN".toList ∨ name = "LOX_VENT".toList) ∧
      ∃ field : ValveField, name = field.word.toList ∧ valveFieldOf name = some (field, 0x7FF)) ∨
    (¬ (name = "LOX_MAIN".toList ∨ name = "LOX_VENT".toList) ∧
      (name = "LOX_MAIN_ANGLE_OPEN".toList ∨ name = "LOX_VENT_ANGLE_CLOSE".toList) ∧
      ∃ field : ValveField, name = field.word.toList ∧ valveFieldOf name = some (field, 0x0B4)) ∨
    (¬ (name = "LOX_MAIN".toList ∨ name = "LOX_VENT".toList) ∧
      ¬ (name = "LOX_MAIN_ANGLE_OPEN".toList ∨ name = "LOX_VENT_ANGLE_CLOSE".toList) ∧
      valveFieldOf name = none) := by
  by_cases hid : name = "LOX_MAIN".toList ∨ name = "LOX_VENT".toList
  · left
    refine ⟨hid, ?_⟩
    rcases hid with rfl | rfl
    · exact ⟨.loxMain, rfl, rfl⟩
    · exact ⟨.loxVent, rfl, rfl⟩
  right
  by_cases hangle : name = "LOX_MAIN_ANGLE_OPEN".toList ∨ name = "LOX_VENT_ANGLE_CLOSE".toList
  · left
    refine ⟨hid, hangle, ?_⟩
    rcases hangle with rfl | rfl
    · exact ⟨.loxMainAngleOpen, rfl, rfl⟩
    · exact ⟨.loxVentAngleClose, rfl, rfl⟩
  · right
    refine ⟨hid, hangle, ?_⟩
    obtain ⟨hmain, hvent⟩ := not_or.mp hid
    obtain ⟨hopen, hclose⟩ := not_or.mp hangle
    rw [valveFieldOf, if_neg hmain, if_neg hvent, if_neg hopen, if_neg hclose]

/-- A value in range is reported, another is refused. -/
theorem replied_setValve {name : CText} {field : ValveField} {value bound : UInt32} {msg : String}
    (hname : name = field.word.toList) (hmsg : msg ∈ testingRefusals) :
    Replied (if value > bound then none else some (.setValve field value))
      (if value > bound then msg else Printf.truncated 512 ("TESTING parsed SET_VALVE: " ++
        String.ofList name ++ "=0x" ++ Printf.hexPadded 3 value.toNat)) := by
  split_ifs
  · exact replied_none hmsg
  · rw [hname, String.ofList_toList]
    exact replied_some (.setValve field value)

theorem handleTestingSetValve_replied {text : CText} (h : hasPrefix "SET_VALVE" text = true) :
    ∃ msg, handleTestingSetValve text = some msg ∧ Replied (commandOf text) msg := by
  have habort : text ≠ "ABORT#8765".toList := ne_of_hasPrefix h (by decide)
  have hstate : hasPrefix "STATE#" text = false := hasPrefix_other h (by decide)
  unfold handleTestingSetValve commandOf
  rw [h, hstate, Bool.not_true, if_neg Bool.false_ne_true, if_neg habort,
    if_neg Bool.false_ne_true, if_pos rfl]
  cases scanSetValve text with
  | none => exact ⟨_, rfl, replied_none (by decide)⟩
  | some scanned =>
    obtain ⟨name, value⟩ := scanned
    dsimp only [Option.bind_eq_bind, Option.bind_some]
    rcases valveFieldOf_cases name with ⟨hid, field, hname, hfield⟩ |
      ⟨hid, hangle, field, hname, hfield⟩ | ⟨hid, hangle, hfield⟩
    · rw [if_pos hid, hfield, ← apply_ite some]
      exact ⟨_, rfl, replied_setValve hname (by decide)⟩
    · rw [if_neg hid, if_pos hangle, hfield, ← apply_ite some]
      exact ⟨_, rfl, replied_setValve hname (by decide)⟩
    · rw [if_neg hid, if_neg hangle, hfield]
      exact ⟨_, rfl, replied_none (by decide)⟩

/-- The loops of testing mode count what real mode collects. -/
theorem testingStopEntries_eq (entries : List CText) (n : ℕ) :
    testingStopEntries entries n =
      (entries.mapM scanWiggleStop).map (fun ids => n + ids.length) := by
  induction entries generalizing n with
  | nil => rfl
  | cons token entries ih =>
    unfold testingStopEntries
    rw [List.mapM_cons]
    cases scanWiggleStop token with
    | none => rfl
    | some id =>
      dsimp only
      rw [ih]
      cases entries.mapM scanWiggleStop with
      | none => rfl
      | some ids =>
        change some (n+1+ids.length) = some (n+(ids.length+1))
        rw [Nat.add_right_comm, Nat.add_assoc]

theorem scanStartable_none {token : CText}
    (h : ∀ r, scanWiggle token = some r → r.Refused) : scanStartable token = none := by
  rw [Option.eq_none_iff_forall_ne_some]
  intro r hr
  obtain ⟨hscan, hgood⟩ := scanStartable_eq_some.mp hr
  exact hgood (h r hscan)

theorem testingWiggleEntries_eq (entries : List CText) (n : ℕ) :
    testingWiggleEntries entries n =
      (entries.mapM scanStartable).map (fun requests => n + requests.length) := by
  induction entries generalizing n with
  | nil => rfl
  | cons token entries ih =>
    unfold testingWiggleEntries
    rw [List.mapM_cons]
    rcases entry_cases token with hrefused | ⟨r, hscan, hgood⟩
    · rw [scanStartable_none hrefused]
      cases hscan : scanWiggle token with
      | none => rfl
      | some r => exact if_pos (hrefused r hscan).symm
    · have hrange : ¬ (r.id > 0x7FF ∨ r.periodMs = 0) := fun hbad => hgood hbad.symm
      rw [hscan, scanStartable_eq_some.mpr ⟨hscan, hgood⟩]
      dsimp only
      rw [if_neg hrange, ih]
      cases entries.mapM scanStartable with
      | none => rfl
      | some requests =>
        change some (n+1+requests.length) = some (n+(requests.length+1))
        rw [Nat.add_right_comm, Nat.add_assoc]

/-- A handler behind its loop: it reports how many entries there are. -/
theorem replied_listed {α : Type} {scan : CText → Option α} {command : List α → Command}
    {entries : List CText} {error : String} {report : ℕ → String}
    (herror : error ∈ testingRefusals) (hreport : ∀ as, (command as).report = report as.length) :
    ∃ msg, (match (entries.mapM scan).map (fun as => 0 + as.length) with
        | none => some error
        | some n => if n = 0 then some error else some (report n)) = some msg ∧
      Replied (listed scan command entries) msg := by
  unfold listed
  cases hall : entries.mapM scan with
  | none =>
    dsimp only [Option.map_none]
    rw [ite_self]
    exact ⟨error, rfl, replied_none herror⟩
  | some as =>
    dsimp only [Option.map_some]
    rw [Nat.zero_add]
    obtain ⟨hsome, rfl⟩ := (mapM_eq_some_iff scan entries as).mp hall
    by_cases hnil : entries = []
    · rw [if_pos hnil, hnil]
      exact ⟨error, rfl, replied_none herror⟩
    · have hpos : (entries.filterMap scan).length ≠ 0 := by
        rw [Ne, List.length_eq_zero_iff]
        exact filterMap_ne_nil hnil hsome
      rw [if_neg hnil, if_neg hpos, ← hreport]
      exact ⟨_, rfl, replied_some _⟩

theorem handleTestingWiggleStop_replied {text : CText} (h : hasPrefix "WIGGLE_STOP" text = true) :
    ∃ msg, handleTestingWiggleStop text = some msg ∧ Replied (commandOf text) msg := by
  have habort : text ≠ "ABORT#8765".toList := ne_of_hasPrefix h (by decide)
  have hstate : hasPrefix "STATE#" text = false := hasPrefix_other h (by decide)
  have hset : hasPrefix "SET_VALVE" text = false := hasPrefix_other h (by decide)
  unfold handleTestingWiggleStop commandOf
  rw [h, hstate, hset, Bool.not_true, if_neg Bool.false_ne_true, if_neg habort,
    if_neg Bool.false_ne_true, if_neg Bool.false_ne_true, if_pos rfl, testingStopEntries_eq]
  exact replied_listed (by decide) (fun _ => rfl)

theorem handleTestingWiggle_replied {text : CText} (h : hasPrefix "WIGGLE" text = true)
    (hstop : hasPrefix "WIGGLE_STOP" text = false) :
    ∃ msg, handleTestingWiggle text = some msg ∧ Replied (commandOf text) msg := by
  have habort : text ≠ "ABORT#8765".toList := ne_of_hasPrefix h (by decide)
  have hstate : hasPrefix "STATE#" text = false := hasPrefix_other h (by decide)
  have hset : hasPrefix "SET_VALVE" text = false := hasPrefix_other h (by decide)
  unfold handleTestingWiggle commandOf
  rw [h, hstop, hstate, hset, Bool.not_true, Bool.or_false, if_neg Bool.false_ne_true,
    if_neg habort, if_neg Bool.false_ne_true, if_neg Bool.false_ne_true,
    if_neg Bool.false_ne_true, if_pos rfl, testingWiggleEntries_eq]
  exact replied_listed (by decide) (fun _ => rfl)

theorem handleTestingFire_replied {text : CText} (h : hasPrefix "FIRE#8765" text = true) :
    ∃ msg, handleTestingFire true text = some msg ∧ Replied (commandBehindGate text) msg := by
  have hdrown : text ≠ "DROWN#8765".toList := ne_of_hasPrefix h (by decide)
  unfold handleTestingFire commandBehindGate
  rw [h, Bool.not_true, if_neg Bool.false_ne_true, if_neg hdrown, if_pos rfl]
  cases firingSequenceParse true text with
  | none => exact ⟨_, rfl, replied_none (by decide)⟩
  | some config => exact ⟨_, rfl, replied_some (.fire config)⟩

theorem handleTestingRawCan_replied {text : CText} (hdrown : text ≠ "DROWN#8765".toList)
    (hfire : hasPrefix "FIRE#8765" text = false) :
    Replied (commandBehindGate text)
      ((handleTestingRawCan text).getD "TESTING invalid command") := by
  unfold handleTestingRawCan commandBehindGate
  rw [if_neg hdrown, hfire, if_neg Bool.false_ne_true]
  cases parseRawCanFields text with
  | none => exact replied_none (by decide)
  | some f =>
    dsimp only [Option.bind_some]
    by_cases hid : f.id > 0x7FF
    · rw [if_pos hid, if_pos hid]
      exact replied_none (by decide)
    have hreport : (Command.rawCan f).report = if f.hasDuration then
          Printf.truncated 512 ("TESTING parsed RAW CAN: id=0x" ++ Printf.hexPadded 3 f.id.toNat ++
            " value=0x" ++ Printf.hexPadded 4 f.value.toNat ++ " duration=" ++
            toString f.durationMs.toNat)
        else Printf.truncated 512 ("TESTING parsed RAW CAN: id=0x" ++
          Printf.hexPadded 3 f.id.toNat ++ " value=0x" ++ Printf.hexPadded 4 f.value.toNat) :=
      apply_ite (Printf.truncated 512) _ _ _
    rw [if_neg hid, if_neg hid, ← apply_ite some, Option.getD_some, ← hreport]
    exact replied_some _

/-! ### The dispatcher of testing mode -/

/-- One reply, which fits the text unless memory has failed. -/
def TestingReply (client : Client) (found : Option Command) (tr : List (Process × Env × Act)) :
    Prop :=
  ∃ msg, repliesTo client tr = [msg] ∧ (Replied found msg ∨
    (msg ∈ testingRefusals ∧ ∃ x ∈ tr, x.2.1.alloc = false))

theorem TestingReply.skip {tr : List (Process × Env × Act)} {x : Process × Env × Act}
    (h : TestingReply client found tr) (hreply : repliesTo client [x] = []) :
    TestingReply client found (x :: tr) := by
  obtain ⟨msg, hmsg, hfits⟩ := h
  refine ⟨msg, ?_, ?_⟩
  · rw [← List.singleton_append, repliesTo_append, hreply, hmsg]
    rfl
  · refine hfits.imp_right ?_
    rintro ⟨hmem, y, hy, halloc⟩
    exact ⟨hmem, y, List.mem_cons_of_mem x hy, halloc⟩

/-- A handler that has taken the text replies for it. -/
theorem testing_taken {msg : String} (h : Replied found msg) :
    AlwaysEnds p (sendReply client msg) (fun tr _ _ => TestingReply client found tr) :=
  fun env _ => ⟨msg, repliesTo_sendText client p env msg, Or.inl h⟩

/-- Without memory there is a refusal, whatever the text. -/
theorem testing_outOfMemory {q : Process} {env : Env} {msg : String}
    (hmsg : msg ∈ testingRefusals) (halloc : env.alloc = false) :
    AlwaysEnds p (sendReply client msg)
      (fun tr _ _ => TestingReply client found ((q, env, .allocate) :: tr)) :=
  fun env' _ => ⟨msg, repliesTo_sendText client p env' msg,
    Or.inr ⟨hmsg, _, List.mem_cons_self, halloc⟩⟩

theorem handleTestingState_other {text : CText} (h : hasPrefix "STATE#" text = false) :
    handleTestingState text = none := by
  rw [handleTestingState, h]
  rfl

theorem handleTestingSetValve_other {text : CText} (h : hasPrefix "SET_VALVE" text = false) :
    handleTestingSetValve text = none := by
  rw [handleTestingSetValve, h]
  rfl

theorem handleTestingWiggleStop_other {text : CText} (h : hasPrefix "WIGGLE_STOP" text = false) :
    handleTestingWiggleStop text = none := by
  rw [handleTestingWiggleStop, h]
  rfl

theorem handleTestingWiggle_other {text : CText} (h : hasPrefix "WIGGLE" text = false) :
    handleTestingWiggle text = none := by
  rw [handleTestingWiggle, h]
  rfl

theorem handleTestingFire_other {text : CText} (h : hasPrefix "FIRE#8765" text = false)
    (strdupOk : Bool) : handleTestingFire strdupOk text = none := by
  rw [handleTestingFire, h]
  rfl

theorem testing_behindCopy (text : CText) :
    AlwaysEnds p (match handleTestingDrown text with
      | some msg => sendReply client msg
      | none => act .allocate >>= fun strdupOk =>
        sendReply client (((handleTestingFire strdupOk text).or
          (handleTestingRawCan text)).getD "TESTING invalid command"))
      (fun tr _ _ => TestingReply client (commandBehindGate text) tr) := by
  by_cases hdrown : text = "DROWN#8765".toList
  · have hreply : handleTestingDrown text = some "TESTING parsed DROWN command" :=
      if_neg (not_not.mpr hdrown)
    have hfound : commandBehindGate text = some .drown := if_pos hdrown
    rw [hreply, hfound]
    exact testing_taken (replied_some .drown)
  have hother : handleTestingDrown text = none := if_pos hdrown
  rw [hother]
  intro env _
  change AlwaysEnds p (sendReply client (((handleTestingFire env.alloc text).or _).getD _)) _
  cases hfire : hasPrefix "FIRE#8765" text with
  | false =>
    rw [handleTestingFire_other hfire, Option.none_or]
    refine (testing_taken (handleTestingRawCan_replied hdrown hfire)).mono ?_
    intro tr v p' hrest
    exact hrest.skip rfl
  | true =>
    obtain ⟨msg, hmsg, hfits⟩ := handleTestingFire_replied hfire
    cases halloc : env.alloc with
    | true =>
      rw [hmsg, Option.some_or, Option.getD_some]
      refine (testing_taken hfits).mono ?_
      intro tr v p' hrest
      exact hrest.skip rfl
    | false =>
      -- the failed copy of the payload is reported as a malformed command
      have hnone : handleTestingFire false text = some "TESTING parse error: FIRE format" := by
        rw [handleTestingFire, hfire, firingSequenceParse_false]
        rfl
      rw [hnone, Option.some_or, Option.getD_some]
      exact testing_outOfMemory (by decide) halloc

/-- The handlers behind the first copy of the text. -/
theorem testing_copied {text : CText} (habort : text ≠ "ABORT#8765".toList)
    (hstate : hasPrefix "STATE#" text = false) (hset : hasPrefix "SET_VALVE" text = false) :
    AlwaysEnds p (match (handleTestingWiggleStop text).or (handleTestingWiggle text) with
      | some msg => sendReply client msg
      | none =>
        match handleTestingDrown text with
        | some msg => sendReply client msg
        | none => act .allocate >>= fun strdupOk =>
          sendReply client (((handleTestingFire strdupOk text).or
            (handleTestingRawCan text)).getD "TESTING invalid command"))
      (fun tr _ _ => TestingReply client (commandOf text) tr) := by
  cases hstop : hasPrefix "WIGGLE_STOP" text with
  | true =>
    obtain ⟨msg, hmsg, hfits⟩ := handleTestingWiggleStop_replied hstop
    rw [hmsg, Option.some_or]
    exact testing_taken hfits
  | false =>
    rw [handleTestingWiggleStop_other hstop, Option.none_or]
    cases hwiggle : hasPrefix "WIGGLE" text with
    | true =>
      obtain ⟨msg, hmsg, hfits⟩ := handleTestingWiggle_replied hwiggle hstop
      rw [hmsg]
      exact testing_taken hfits
    | false =>
      have hfound : commandOf text = commandBehindGate text := by
        rw [commandOf, if_neg habort, hstate, if_neg Bool.false_ne_true, hset,
          if_neg Bool.false_ne_true, hstop, if_neg Bool.false_ne_true, hwiggle,
          if_neg Bool.false_ne_true]
      rw [handleTestingWiggle_other hwiggle, hfound]
      exact testing_behindCopy text

theorem testing_command (text : CText) :
    AlwaysEnds p (handleTestingCommand client text)
      (fun tr _ _ => TestingReply client (commandOf text) tr) := by
  unfold handleTestingCommand
  -- the parsers in their order, each for the texts that the ones before leave
  by_cases habort : text = "ABORT#8765".toList
  · have hreply : handleTestingAbort text = some "TESTING parsed ABORT command" :=
      if_neg (not_not.mpr habort)
    have hfound : commandOf text = some .abort := if_pos habort
    rw [hreply, hfound]
    exact testing_taken (replied_some .abort)
  have hother : handleTestingAbort text = none := if_pos habort
  rw [hother, Option.none_or]
  cases hstate : hasPrefix "STATE#" text with
  | true =>
    obtain ⟨msg, hmsg, hfits⟩ := handleTestingState_replied hstate
    rw [hmsg, Option.some_or]
    exact testing_taken hfits
  | false =>
    rw [handleTestingState_other hstate, Option.none_or]
    cases hset : hasPrefix "SET_VALVE" text with
    | true =>
      obtain ⟨msg, hmsg, hfits⟩ := handleTestingSetValve_replied hset
      rw [hmsg]
      exact testing_taken hfits
    | false =>
      rw [handleTestingSetValve_other hset]
      intro env _
      change AlwaysEnds p (if !env.alloc then _ else _) _
      cases halloc : env.alloc with
      | false => exact testing_outOfMemory (by decide) halloc
      | true =>
        rw [Bool.not_true, if_neg Bool.false_ne_true]
        refine (testing_copied habort hstate hset).mono ?_
        intro tr v p' hrest
        exact hrest.skip rfl

/-- In every state and environment testing mode replies once, and what it replies fits the
command of the text unless memory has failed. -/
theorem testing_replies (readOnly : Bool) (client : Client) (text : CText) (p : Process) :
    AlwaysEnds p (commandHandleText ⟨readOnly, true⟩ client text)
      (fun tr _ _ => TestingReply client (commandOf (stripCanPrefix text)) tr) := by
  by_cases htoggle : IsReadToggle text
  · apply always_readToggle htoggle
    · intro env env₁ env₂ b q p'
      have hmem : toggleReply text ∈ testingRefusals := by
        rcases htoggle with rfl | rfl <;> decide
      have hnone := commandOf_readToggle htoggle
      refine TestingReply.skip (TestingReply.skip ?_ rfl) rfl
      exact ⟨_, repliesTo_sendText client q env₂ _, Or.inl (Or.inr ⟨hnone, hmem⟩)⟩
    · intro env
      refine (testing_command (stripCanPrefix text)).mono ?_
      intro tr v p' hrest
      exact hrest.skip rfl
  · rw [commandHandleText_other _ client htoggle]
    intro env _
    refine (testing_command (stripCanPrefix text)).mono ?_
    intro tr v p' hrest
    exact hrest.skip rfl

/-! ### Reports -/

theorem prefix_append {word : CText} {s : String} (h : word <+: s.toList) (rest : String) :
    word <+: (s ++ rest).toList := by
  rw [String.toList_append]
  exact h.trans (List.prefix_append _ _)

/-- A short beginning is not cut off. -/
theorem prefix_truncated {word : CText} {s : String} {size : ℕ} (h : word <+: s.toList)
    (hlength : word.length ≤ size-1) : word <+: (Printf.truncated size s).toList := by
  rw [List.prefix_iff_eq_take, take_truncated _ hlength]
  exact List.prefix_iff_eq_take.mp h

theorem appendBlocks_begins {word : CText} (size : ℕ) (opening : String)
    (config : FiringSequenceConfig) (blocks : List ℕ) {x : String × ℕ} (h : word <+: x.1.toList) :
    word <+: (appendBlocks size opening config blocks x).1.toList := by
  induction blocks generalizing x with
  | nil => exact h
  | cons i blocks ih =>
    obtain ⟨buffer, len⟩ := x
    unfold appendBlocks
    by_cases hroom : len > 0 ∧ len < size
    · rw [if_pos hroom]
      exact ih (prefix_append h _)
    · rw [if_neg hroom]
      exact h

theorem heading_length (c : Command) : c.heading.toList.length ≤ 512-1 := by
  cases c <;> dsimp only [Command.heading] <;> decide

/-- A report begins with its heading, also where it is cut off. -/
theorem report_heading (c : Command) : c.heading.toList <+: c.report.toList := by
  cases c with
  | abort => exact List.prefix_rfl
  | state requested => exact prefix_append List.prefix_rfl _
  | setValve field value =>
    have hword := prefix_append (List.prefix_refl "TESTING parsed SET_VALVE: ".toList) field.word
    exact prefix_truncated (prefix_append (prefix_append hword _) _) (heading_length _)
  | wiggleStop ids =>
    have hword := prefix_append (List.prefix_refl "TESTING parsed WIGGLE_STOP: ".toList)
      (toString ids.length)
    exact prefix_truncated (prefix_append hword _) (heading_length _)
  | wiggle requests =>
    have hword := prefix_append (List.prefix_refl "TESTING parsed WIGGLE: ".toList)
      (toString requests.length)
    exact prefix_truncated (prefix_append hword _) (heading_length _)
  | drown => exact List.prefix_rfl
  | fire config =>
    -- the blocks and the bracket are written behind the number of blocks
    have hword := prefix_append (List.prefix_refl "TESTING parsed FIRE: ".toList)
      (toString config.numBlocks)
    have hhead : "TESTING parsed FIRE: ".toList <+: (Printf.truncated 512
        ("TESTING parsed FIRE: " ++ toString config.numBlocks ++ " block(s)")).toList :=
      prefix_truncated (prefix_append hword _) (by decide)
    have hblocks := appendBlocks_begins 512 " (" config (List.range config.numBlocks)
      (x := (_, ("TESTING parsed FIRE: " ++ toString config.numBlocks ++ " block(s)").length)) hhead
    change _ <+: (testingFireMessage config).toList
    unfold testingFireMessage
    dsimp only
    split_ifs
    · exact prefix_append hblocks _
    · exact hblocks
  | rawCan f =>
    have hword := prefix_append (List.prefix_refl "TESTING parsed RAW CAN: id=0x".toList)
      (Printf.hexPadded 3 f.id.toNat)
    have hvalue := prefix_append (prefix_append hword " value=0x")
      (Printf.hexPadded 4 f.value.toNat)
    refine prefix_truncated ?_ (heading_length _)
    split_ifs
    · exact prefix_append (prefix_append hvalue _) _
    · exact hvalue

/-- Reports of different kinds differ. -/
theorem heading_of_report {c c' : Command} (h : c.report = c'.report) : c.heading = c'.heading := by
  have hcases := List.prefix_or_prefix_of_prefix (report_heading c)
    (h.symm ▸ report_heading c')
  revert hcases
  cases c <;> cases c' <;> dsimp only [Command.heading] <;> first
    | exact fun _ => rfl
    | exact fun hcases => absurd hcases (by decide)

theorem report_ne_refusal (c : Command) : c.report ∉ testingRefusals := by
  have hheading : "TESTING parsed".toList <+: c.heading.toList := by
    cases c <;> dsimp only [Command.heading] <;> decide
  have hrefusal : ∀ msg ∈ testingRefusals, ¬ "TESTING parsed".toList <+: msg.toList := by decide
  intro hmem
  exact hrefusal _ hmem (hheading.trans (report_heading c))

/-! ### Agreement -/

/-- A run of the dispatcher on a text, with nobody else about. -/
abbrev RunsText (config : AppConfig) (client : Client) (text : CText) (p : Process)
    (tr : List (Process × Env × Act)) (p' : Process) : Prop :=
  Runs (S := serverSig) perform (commandHandleText config client text) p tr () p'

/-- The two modes agree on a text. What testing mode reports, real mode carries out where
the state admits it and nothing fails, and it never carries out another command. What real
mode carries out in some state, testing mode reports, and what testing mode refuses, real
mode carries out in no state. -/
structure ModesAgree (readOnly : Bool) (client : Client) (text : CText) : Prop where
  reported : ∀ p tr p', RunsText ⟨readOnly, true⟩ client text p tr p' →
    ∀ c : Command, c.report ∈ repliesTo client tr → ∃ c', c'.report = c.report ∧
      ∀ q tr' q', RunsText realMode client text q tr' q' →
        (Admits q c' → (∀ x ∈ tr', Lucky x.2.1) → CarriesOut client tr' c') ∧
        ∀ c'', CarriesOut client tr' c'' → c'' = c'
  carried : ∀ q tr' q', RunsText realMode client text q tr' q' →
    ∀ c, CarriesOut client tr' c → ∀ p tr p', RunsText ⟨readOnly, true⟩ client text p tr p' →
      (∀ x ∈ tr, x.2.1.alloc = true) → repliesTo client tr = [c.report]
  refused : ∀ p tr p', RunsText ⟨readOnly, true⟩ client text p tr p' →
    (∀ x ∈ tr, x.2.1.alloc = true) → ∀ msg ∈ repliesTo client tr, msg ∈ testingRefusals →
      ∀ q tr' q' c, RunsText realMode client text q tr' q' → ¬ CarriesOut client tr' c

theorem testingReply_of_run {readOnly : Bool} {text : CText} {tr : List (Process × Env × Act)}
    {p' : Process} (h : RunsText ⟨readOnly, true⟩ client text p tr p') :
    TestingReply client (commandOf (stripCanPrefix text)) tr :=
  always_iff.mp (testing_replies readOnly client text p) tr () p' h (fun _ _ => trivial)

theorem outcome_of_run {text : CText} {tr : List (Process × Env × Act)} {p' : Process}
    (h : RunsText realMode client text p tr p') :
    Outcome client p tr (commandOf (stripCanPrefix text)) :=
  always_iff.mp (outcome_command client text p) tr () p' h (fun _ _ => trivial)

/-- With memory the reply of testing mode fits the command. -/
theorem TestingReply.with_memory {tr : List (Process × Env × Act)}
    (h : TestingReply client found tr) (halloc : ∀ x ∈ tr, x.2.1.alloc = true) :
    ∃ msg, repliesTo client tr = [msg] ∧ Replied found msg := by
  obtain ⟨msg, hmsg, hfits | ⟨-, x, hx, hfail⟩⟩ := h
  · exact ⟨msg, hmsg, hfits⟩
  · cases (halloc x hx).symm.trans hfail

/-- For every text, testing mode and real mode agree: they read the same command in it. -/
theorem testing_mode_agrees (readOnly : Bool) (client : Client) (text : CText) :
    ModesAgree readOnly client text := by
  refine ⟨?_, ?_, ?_⟩
  · intro p tr p' hrun c hc
    obtain ⟨msg, hmsg, hfits⟩ := testingReply_of_run hrun
    have hreply : c.report = msg := by
      rw [hmsg] at hc
      exact List.mem_singleton.mp hc
    have hreport : msg ∉ testingRefusals := hreply ▸ report_ne_refusal c
    rcases hfits with (⟨c', hfound, hc'⟩ | ⟨-, hmem⟩) | ⟨hmem, -⟩
    · refine ⟨c', hc'.symm.trans hreply.symm, ?_⟩
      intro q tr' q' hreal
      have houtcome := outcome_of_run hreal
      rw [hfound] at houtcome
      refine ⟨houtcome.done c' rfl, ?_⟩
      intro c'' hc''
      exact (Option.some.inj (houtcome.only c'' hc'')).symm
    · exact absurd hmem hreport
    · exact absurd hmem hreport
  · intro q tr' q' hreal c hc p tr p' hrun halloc
    have hfound := (outcome_of_run hreal).only c hc
    obtain ⟨msg, hmsg, ⟨c', hc', rfl⟩ | ⟨hnone, -⟩⟩ := (testingReply_of_run hrun).with_memory halloc
    · rw [hmsg, Option.some.inj (hfound.symm.trans hc')]
    · cases hfound.symm.trans hnone
  · intro p tr p' hrun halloc msg hmem hrefused q tr' q' c hreal hc
    have hfound := (outcome_of_run hreal).only c hc
    obtain ⟨msg', hmsg, ⟨c', -, rfl⟩ | ⟨hnone, -⟩⟩ := (testingReply_of_run hrun).with_memory halloc
    · rw [hmsg] at hmem
      rw [List.mem_singleton.mp hmem] at hrefused
      exact report_ne_refusal c' hrefused
    · cases hfound.symm.trans hnone

end WsServer
