import WsServer.BlockParse
import WsServer.CommandMeaning

/-! What real mode does with the command that a text asks for: it carries it out where the
state admits it and nothing fails, and it carries out nothing else. -/
namespace WsServer
open Interaction Program

/-- What a run of a real handler has to do with the command that its text asks for. -/
structure Outcome (client : Client) (p : Process) (tr : List (Process × Env × Act))
    (found : Option Command) : Prop where
  only : ∀ c, CarriesOut client tr c → found = some c
  done : ∀ c, found = some c → Admits p c → (∀ x ∈ tr, Lucky x.2.1) → CarriesOut client tr c

variable {client : Client} {p : Process} {tr : List (Process × Env × Act)}
  {found : Option Command}

theorem effects_append (tr tr' : List (Process × Env × Act)) :
    effects (tr ++ tr') = effects tr ++ effects tr' := List.filterMap_append

theorem repliesTo_append (client : Client) (tr tr' : List (Process × Env × Act)) :
    repliesTo client (tr ++ tr') = repliesTo client tr ++ repliesTo client tr' :=
  List.filterMap_append

@[simp] theorem replyOf_sendText (client : Client) (q : Process) (env : Env) (msg : String) :
    replyOf client (q, env, .sendText client msg) = some msg := if_pos rfl

theorem repliesTo_sendText (client : Client) (q : Process) (env : Env) (msg : String) :
    repliesTo client [(q, env, .sendText client msg)] = [msg] := by
  rw [repliesTo, List.filterMap_cons_some (replyOf_sendText client q env msg), List.filterMap_nil]

/-- A run without an effect carries out nothing. -/
theorem outcome_of_nothing (heffects : effects tr = [])
    (h : ∀ c, found = some c → Admits p c → ¬ ∀ x ∈ tr, Lucky x.2.1) :
    Outcome client p tr found where
  only _ hc := absurd heffects (effects_ne_nil hc.1)
  done c hc hadmits hlucky := absurd hlucky (h c hc hadmits)

/-- A run that has done all of one command has done no other. -/
theorem outcome_of_effects {c : Command} (heffects : c.Effects (effects tr))
    (hreplies : ∀ msg ∈ repliesTo client tr, msg ∉ wiggleFailures) :
    Outcome client p tr (some c) where
  only _ hc' := congrArg some (effects_unique heffects hc'.1)
  done _ hc' _ _ := Option.some.inj hc' ▸ ⟨heffects, hreplies⟩

/-- A run that has answered with a failure carries out nothing. -/
theorem outcome_of_failure {msg : String} (hmsg : msg ∈ wiggleFailures)
    (hmem : msg ∈ repliesTo client tr)
    (h : ∀ c, found = some c → ¬ Admits p c) : Outcome client p tr found where
  only _ hc := absurd hmsg (hc.2 msg hmem)
  done c hc hadmits _ := absurd hadmits (h c hc)

/-- More steps do not matter that change nothing of what is carried out. -/
theorem Outcome.congr {tr' : List (Process × Env × Act)} (h : Outcome client p tr found)
    (hsame : ∀ c, CarriesOut client tr' c ↔ CarriesOut client tr c)
    (hsub : ∀ x ∈ tr, x ∈ tr') : Outcome client p tr' found where
  only c hc := h.only c ((hsame c).mp hc)
  done c hc hadmits hlucky :=
    (hsame c).mpr (h.done c hc hadmits (fun x hx => hlucky x (hsub x hx)))

/-- A step that contributes nothing. -/
theorem Outcome.skip {x : Process × Env × Act} (h : Outcome client p tr found)
    (heffect : effectOf x = none) (hreply : repliesTo client [x] = []) :
    Outcome client p (x :: tr) found := by
  have heffects : effects (x :: tr) = effects tr := List.filterMap_cons_none heffect
  have hreplies : repliesTo client (x :: tr) = repliesTo client tr := by
    rw [← List.singleton_append, repliesTo_append, hreply, List.nil_append]
  apply h.congr
  · intro c
    rw [CarriesOut, CarriesOut, heffects, hreplies]
  · intro y hy
    exact List.mem_cons_of_mem x hy

/-- An answer behind a run that is no failure. -/
theorem Outcome.answered (h : Outcome client p tr found) {msg : String}
    (hmsg : msg ∉ wiggleFailures) (q : Process) (env : Env) :
    Outcome client p (tr ++ [(q, env, .sendText client msg)]) found := by
  have heffects : effects (tr ++ [(q, env, .sendText client msg)]) = effects tr := by
    rw [effects_append]
    exact List.append_nil _
  apply h.congr
  · intro c
    rw [CarriesOut, CarriesOut, heffects, repliesTo_append, repliesTo_sendText,
      List.forall_mem_append, List.forall_mem_singleton, and_iff_left hmsg]
  · intro x hx
    exact List.mem_append_left _ hx

/-- The handler has taken the text, with this outcome. -/
abbrev TakesWith (client : Client) (p : Process) (handler : Server Bool)
    (found : Option Command) : Prop :=
  AlwaysEnds p handler (fun tr v _ => v = true ∧ Outcome client p tr found)

theorem taken_outcome {handler : Server Bool} (rest : Server Unit)
    (h : TakesWith client p handler found) :
    AlwaysEnds p (handler >>= fun taken => if taken then pure () else rest)
      (fun tr _ _ => Outcome client p tr found) := by
  refine always_bind.mpr (h.mono ?_)
  rintro tr v p' ⟨rfl, houtcome⟩
  change Outcome client p (tr ++ []) found
  rw [List.append_nil]
  exact houtcome

/-- A handler that only replies. -/
theorem takes_reply (msg : String) (h : found = none) :
    TakesWith client p (sendReply client msg >>= fun _ => pure true) found := by
  intro env _
  refine ⟨rfl, outcome_of_nothing rfl ?_⟩
  intro c hc
  cases h.symm.trans hc

/-- A handler that does its work and then replies. -/
theorem takes_replied {α : Type} {doing : Server α} {r : α → String}
    (h : AlwaysEnds p doing (fun tr v _ => (r v ∉ wiggleFailures ∧ Outcome client p tr found) ∨
      (r v ∈ wiggleFailures ∧ ∀ c, found = some c → ¬ Admits p c))) :
    TakesWith client p (doing >>= fun v => sendReply client (r v) >>= fun _ => pure true)
      found := by
  refine always_bind.mpr (h.mono ?_)
  rintro tr v p' (⟨hreply, houtcome⟩ | ⟨hreply, hnot⟩) env _
  · exact ⟨rfl, houtcome.answered hreply p' env⟩
  · refine ⟨rfl, outcome_of_failure hreply ?_ hnot⟩
    rw [repliesTo_append, repliesTo_sendText]
    exact List.mem_append_right _ (List.mem_singleton_self _)

/-- A handler that does all of its command and then replies. -/
theorem takes_done {α : Type} {doing : Server α} {r : α → String} {c : Command}
    (h : AlwaysEnds p doing (fun tr _ _ => c.Effects (effects tr) ∧ repliesTo client tr = []))
    (hreply : ∀ v, r v ∉ wiggleFailures) :
    TakesWith client p (doing >>= fun v => sendReply client (r v) >>= fun _ => pure true)
      (some c) := by
  refine takes_replied (h.mono ?_)
  rintro tr v p' ⟨heffects, hnone⟩
  refine Or.inl ⟨hreply v, outcome_of_effects heffects ?_⟩
  rw [hnone]
  exact nofun

theorem wiggleStopAll_effects (client : Client) (p : Process) :
    AlwaysEnds p (wiggleStopAll true)
      (fun tr _ _ => effects tr = [.stopAll] ∧ repliesTo client tr = []) := by
  intro env _
  change AlwaysEnds _ (if _ > 0 then act (.broadcast _) else pure ()) _
  split_ifs
  · intro env' _
    exact ⟨rfl, rfl⟩
  · exact ⟨rfl, rfl⟩

theorem takes_handleAbort {text : CText} (h : text = "ABORT#8765".toList) :
    TakesWith client p (handleAbort client text) (some .abort) := by
  unfold handleAbort
  rw [if_neg (not_not.mpr h)]
  have hdoing : AlwaysEnds p (firingSequenceRequestAbort >>= fun _ => wiggleStopAll true)
      (fun tr _ _ => Command.abort.Effects (effects tr) ∧ repliesTo client tr = []) := by
    intro env _
    refine (wiggleStopAll_effects client _).mono ?_
    rintro tr v p' ⟨heffects, hnone⟩
    exact ⟨congrArg (Effect.requestAbort :: ·) heffects, hnone⟩
  exact takes_done (r := fun _ => "Abort requested") hdoing (by decide)

/-- `app_state_set` stores the state and stops what it does not allow. -/
theorem appStateSet_effects (client : Client) (p : Process) (requested : AppState) :
    AlwaysEnds p (appStateSet requested) (fun tr _ _ =>
      (Command.state requested).Effects (effects tr) ∧ repliesTo client tr = []) := by
  intro env _
  cases requested with
  | prechilling =>
    intro env₁ _ env₂ _
    exact ⟨rfl, rfl⟩
  | hotfire =>
    change AlwaysEnds _ (wiggleStopAll true >>= fun _ =>
      (do appStateBroadcast; pure (p.app.storeState .hotfire).2 : Server Bool)) _
    refine always_bind.mpr ((wiggleStopAll_effects client _).mono ?_)
    rintro tr v p' ⟨heffects, hnone⟩ env₁ _ env₂ _
    refine ⟨?_, ?_⟩
    · change Effect.storeState .hotfire :: effects (tr ++ _) = _
      rw [effects_append, heffects]
      rfl
    · change repliesTo client (tr ++ _) = _
      rw [repliesTo_append, hnone]
      rfl

theorem takes_handleStateCommand {text : CText} (h : hasPrefix "STATE#" text = true) :
    TakesWith client p (handleStateCommand client text) (commandOf text) := by
  have habort : text ≠ "ABORT#8765".toList := ne_of_hasPrefix h (by decide)
  unfold handleStateCommand commandOf
  rw [h, Bool.not_true, if_neg Bool.false_ne_true, if_neg habort, if_pos rfl]
  split_ifs
  · exact takes_done (r := fun changed => if changed then "State set to PRECHILLING"
      else "State set to PRECHILLING (unchanged)") (appStateSet_effects client p _)
      (by decide)
  · exact takes_done (r := fun changed => if changed then "State set to HOTFIRE"
      else "State set to HOTFIRE (unchanged)") (appStateSet_effects client p _) (by decide)
  · exact takes_reply _ rfl

theorem takes_handleSetValve {text : CText} (h : hasPrefix "SET_VALVE" text = true) :
    TakesWith client p (handleSetValve client text) (commandOf text) := by
  have habort : text ≠ "ABORT#8765".toList := ne_of_hasPrefix h (by decide)
  have hstate : hasPrefix "STATE#" text = false := hasPrefix_other h (by decide)
  unfold handleSetValve commandOf
  rw [h, hstate, Bool.not_true, if_neg Bool.false_ne_true, if_neg habort,
    if_neg Bool.false_ne_true, if_pos rfl]
  cases scanSetValve text with
  | none => exact takes_reply _ rfl
  | some scanned =>
    obtain ⟨name, value⟩ := scanned
    dsimp only [Option.bind_eq_bind, Option.bind_some]
    cases valveFieldOf name with
    | none => exact takes_reply _ rfl
    | some found =>
      obtain ⟨field, bound⟩ := found
      dsimp only [Option.bind_some]
      split_ifs
      · exact takes_reply _ rfl
      · have hdoing : AlwaysEnds p (act (.setValve field value)) (fun tr _ _ =>
            (Command.setValve field value).Effects (effects tr) ∧ repliesTo client tr = []) :=
          fun env _ => ⟨rfl, rfl⟩
        exact takes_done (r := fun _ => "Valve set successfully") hdoing (by decide)

/-! ### The loops -/

theorem replyOf_of_kind {x : Process × Env × Act} (h : x.2.2.kind ∈ [ActKind.start, .stop]) :
    replyOf client x = none := by
  obtain ⟨q, env, a⟩ := x
  cases a with
  | sendText client' msg => simp [Act.kind] at h
  | _ => rfl

/-- The loops answer nobody. -/
theorem kinds_no_reply {β : Type} {q : Server β} (h : Kinds [.start, .stop] q) :
    AlwaysEnds p q (fun tr _ _ => repliesTo client tr = []) := by
  refine (kinds_always h).mono ?_
  intro tr v p' hkind
  exact List.filterMap_eq_nil_iff.mpr (fun x hx => replyOf_of_kind (hkind x hx))

/-- A loop that meets no malformed entry has tried to stop every id. -/
theorem stopEntries_effects (entries : List CText) (stopped : ℕ) (p : Process) :
    AlwaysEnds p (stopEntries entries stopped) (fun tr v _ =>
      v.2 = false → effects tr = (entries.filterMap scanWiggleStop).map .stop) := by
  induction entries generalizing stopped p with
  | nil => exact fun _ => rfl
  | cons token entries ih =>
    unfold stopEntries
    cases hscan : scanWiggleStop token with
    | none => exact fun hfalse => absurd hfalse.symm Bool.false_ne_true
    | some id =>
      intro env _
      refine (ih _ _).mono ?_
      intro tr v p' hv hfalse
      rw [List.filterMap_cons_some hscan, List.map_cons, ← hv hfalse]
      rfl

/-- A loop that meets no failure has started every entry. -/
theorem startEntries_effects (entries : List CText) (started : ℕ) (p : Process) :
    AlwaysEnds p (startEntries entries started) (fun tr v _ =>
      v.2 = false → effects tr = (entries.filterMap scanWiggle).map .start) := by
  induction entries generalizing started p with
  | nil => exact fun _ => rfl
  | cons token entries ih =>
    rcases entry_cases token with hrefused | ⟨r, hscan, hgood⟩
    · rw [startEntries_refused entries started hrefused]
      exact nofun
    · rw [startEntries_tried entries started hscan hgood]
      intro env _
      change AlwaysEnds _ (if (wiggleStartLocked p.app env r).2.1 ≠ 0 then _ else _) _
      by_cases hrc : (wiggleStartLocked p.app env r).2.1 = 0
      · rw [if_neg (not_not.mpr hrc)]
        refine (ih _ _).mono ?_
        intro tr v p' hv hfalse
        have hstep : effectOf (p, env, .wiggleStart r) = some (.start r) := if_pos hrc
        have htrace : effects ((p, env, .wiggleStart r) :: tr) = .start r :: effects tr :=
          List.filterMap_cons_some hstep
        rw [htrace, List.filterMap_cons_some hscan, List.map_cons, hv hfalse]
      · rw [if_pos hrc]
        exact nofun

theorem takes_stopEntries (entries : List CText) :
    TakesWith client p (stopEntries entries 0 >>= fun v =>
        sendReply client (wiggleStopReply v) >>= fun _ => pure true)
      (listed scanWiggleStop .wiggleStop entries) := by
  have hkinds : Kinds [.start, .stop] (stopEntries entries 0) :=
    (kinds_stopEntries entries 0).mono (by decide)
  apply takes_replied
  refine always_iff.mpr ?_
  intro tr v p' hrun hE
  have hsilent := always_iff.mp (@kinds_no_reply client p _ _ hkinds) tr v p' hrun hE
  have hv := always_iff.mp (stopEntries_result entries 0 p) tr v p' hrun hE
  have heffects := always_iff.mp (stopEntries_effects entries 0 p) tr v p' hrun hE
  rw [wiggleStopReply_failure]
  cases hfail : v.2 with
  | true =>
    refine Or.inr ⟨rfl, ?_⟩
    intro c hc _
    have hfalse := hv.mpr (listed_eq_some.mp hc).1.2
    rw [hfail] at hfalse
    cases hfalse
  | false =>
    refine Or.inl ⟨Bool.false_ne_true, ?_⟩
    have hall := hv.mp hfail
    by_cases hnil : entries = []
    · refine outcome_of_nothing ?_ ?_
      · rw [heffects hfail, hnil]
        rfl
      · intro c hc
        exact absurd hnil (listed_eq_some.mp hc).1.1
    · rw [listed_eq_some.mpr ⟨⟨hnil, hall⟩, rfl⟩]
      apply outcome_of_effects
      · exact ⟨filterMap_ne_nil hnil hall, heffects hfail⟩
      · rw [hsilent]
        exact nofun

theorem takes_handleWiggleStop {text : CText} (h : hasPrefix "WIGGLE_STOP" text = true) :
    TakesWith client p (handleWiggleStop client text) (commandOf text) := by
  have habort : text ≠ "ABORT#8765".toList := ne_of_hasPrefix h (by decide)
  have hstate : hasPrefix "STATE#" text = false := hasPrefix_other h (by decide)
  have hset : hasPrefix "SET_VALVE" text = false := hasPrefix_other h (by decide)
  unfold commandOf
  rw [handleWiggleStop_eq client h, if_neg habort, hstate, if_neg Bool.false_ne_true, hset,
    if_neg Bool.false_ne_true, h, if_pos rfl]
  exact takes_stopEntries _

/-- Every entry is started, or there is no list of startable entries with enough room. -/
theorem takes_startEntries (entries : List CText) :
    TakesWith client p (startEntries entries 0 >>= fun v =>
        sendReply client (wiggleReply v) >>= fun _ => pure true)
      (listed scanStartable .wiggle entries) := by
  have hkinds : Kinds [.start, .stop] (startEntries entries 0) :=
    (kinds_startEntries entries 0).mono (by decide)
  apply takes_replied
  refine always_iff.mpr ?_
  intro tr v p' hrun hE
  have hsilent := always_iff.mp (@kinds_no_reply client p _ _ hkinds) tr v p' hrun hE
  have hv := always_iff.mp (startEntries_result entries 0 p) tr v p' hrun hE
  have heffects := always_iff.mp (startEntries_effects entries 0 p) tr v p' hrun hE
  rw [wiggleReply_failure]
  by_cases hfail : v.2 = true ∨ v.1 = 0
  · refine Or.inr ⟨hfail, ?_⟩
    intro c hc hadmits
    obtain ⟨⟨hne, hall⟩, rfl⟩ := listed_eq_some.mp hc
    have hroom := hadmits.2
    rw [filterMap_scanStartable hall] at hroom
    have hfalse := hv.1.mpr ⟨fun token htoken => isSome_scanStartable.mp (hall token htoken), hroom⟩
    have hcount := hv.2 hfalse
    have hlength := List.length_pos_of_ne_nil hne
    rcases hfail with hfail | hfail
    · rw [hfalse] at hfail
      cases hfail
    · omega
  · obtain ⟨htrue, hcount⟩ := not_or.mp hfail
    refine Or.inl ⟨hfail, ?_⟩
    have hfalse := (Bool.not_eq_true _).mp htrue
    have hstarts := hv.1.mp hfalse
    have hall : ∀ token ∈ entries, (scanStartable token).isSome :=
      fun token htoken => isSome_scanStartable.mpr (hstarts.valid token htoken)
    have hne : entries ≠ [] := by
      rintro rfl
      exact hcount (hv.2 hfalse)
    rw [listed_eq_some.mpr ⟨⟨hne, hall⟩, rfl⟩]
    apply outcome_of_effects
    · refine ⟨filterMap_ne_nil hne hall, ?_⟩
      rw [filterMap_scanStartable hall]
      exact heffects hfalse
    · rw [hsilent]
      exact nofun

theorem takes_handleWiggle {text : CText} (h : hasPrefix "WIGGLE" text = true)
    (hstop : hasPrefix "WIGGLE_STOP" text = false) :
    TakesWith client p (handleWiggle client text) (commandOf text) := by
  have habort : text ≠ "ABORT#8765".toList := ne_of_hasPrefix h (by decide)
  have hstate : hasPrefix "STATE#" text = false := hasPrefix_other h (by decide)
  have hset : hasPrefix "SET_VALVE" text = false := hasPrefix_other h (by decide)
  unfold commandOf
  rw [handleWiggle_eq client h hstop, if_neg habort, hstate, if_neg Bool.false_ne_true, hset,
    if_neg Bool.false_ne_true, hstop, if_neg Bool.false_ne_true, h, if_pos rfl]
  intro env _
  change AlwaysEnds p (if p.app.state ≠ .prechilling then _ else _) _
  split_ifs with hmode
  · -- the gate refuses every command
    intro env' _
    refine ⟨rfl, outcome_of_nothing rfl ?_⟩
    intro c hc hadmits
    obtain ⟨-, rfl⟩ := listed_eq_some.mp hc
    exact absurd hadmits.1 hmode
  · refine (takes_startEntries _).mono ?_
    rintro tr v p' ⟨hv, hrest⟩
    exact ⟨hv, hrest.skip rfl rfl⟩

/-! ### Sequences -/

/-- What a run that starts a sequence does: all, or nothing for a reason. -/
def Starts (client : Client) (p : Process) (c : Command) (tr : List (Process × Env × Act))
    (rc : Int) : Prop :=
  repliesTo client tr = [] ∧ ((rc = 0 ∧ c.Effects (effects tr)) ∨
    (rc ≠ 0 ∧ effects tr = [] ∧ (Admits p c → ¬ ∀ x ∈ tr, Lucky x.2.1)))

theorem Starts.skip {c : Command} {rc : Int} {x : Process × Env × Act}
    (h : Starts client p c tr rc) (heffect : effectOf x = none)
    (hreply : repliesTo client [x] = []) : Starts client p c (x :: tr) rc := by
  have heffects : effects (x :: tr) = effects tr := List.filterMap_cons_none heffect
  obtain ⟨hnone, hrest⟩ := h
  refine ⟨?_, ?_⟩
  · rw [← List.singleton_append, repliesTo_append, hreply, hnone]
    rfl
  · rw [heffects]
    refine hrest.imp_right ?_
    rintro ⟨hrc, hempty, hnot⟩
    refine ⟨hrc, hempty, ?_⟩
    intro hadmits hlucky
    exact hnot hadmits (fun y hy => hlucky y (List.mem_cons_of_mem x hy))

/-- A run that fails because of what an input of it says. -/
theorem starts_failed {c : Command} {x : Process × Env × Act} (hx : x ∈ tr) (hbad : ¬ Lucky x.2.1)
    (hreplies : repliesTo client tr = []) (heffects : effects tr = []) :
    Starts client p c tr (-1) :=
  ⟨hreplies, Or.inr ⟨by decide, heffects, fun _ hlucky => hbad (hlucky x hx)⟩⟩

theorem firingSequenceStart_starts (client : Client) {config : FiringSequenceConfig}
    (hblocks : config.numBlocks ≠ 0) (started completed failed : Option String) {c : Command}
    (heffects : c.Effects [.sequence config])
    (hadmits : Admits p c → p.app.sequenceActive = false) :
    AlwaysEnds p (firingSequenceStart client config started completed failed)
      (fun tr rc _ => Starts client p c tr rc) := by
  unfold firingSequenceStart
  rw [if_neg hblocks]
  intro env _
  change AlwaysEnds _ (if !p.app.claimSequence.2 then _ else _) _
  cases hactive : p.app.sequenceActive with
  | true =>
    have hclaim : p.app.claimSequence.2 = false := by rw [App.claimSequence, if_pos hactive]
    rw [hclaim, Bool.not_false, if_pos rfl]
    refine ⟨rfl, Or.inr ⟨by decide, rfl, ?_⟩⟩
    intro hc
    rw [hadmits hc] at hactive
    cases hactive
  | false =>
    have hclaim : p.app.claimSequence.2 = true := by
      rw [App.claimSequence, if_neg (by rw [hactive]; exact Bool.false_ne_true)]
    rw [hclaim, Bool.not_true, if_neg Bool.false_ne_true]
    intro env₁ _
    change AlwaysEnds _ (if !env₁.alloc then _ else _) _
    cases halloc : env₁.alloc with
    | false =>
      -- without memory the flag is given back
      intro env₂ _
      refine starts_failed (List.mem_cons_of_mem _ List.mem_cons_self) ?_ rfl rfl
      intro hlucky
      cases hlucky.1.symm.trans halloc
    | true =>
      rw [Bool.not_true, if_neg Bool.false_ne_true]
      intro env₂ _
      cases hthread : env₂.thread with
      | false =>
        simp only [perform, hthread, Bool.false_eq_true, if_false]
        intro env₃ _
        refine starts_failed
          (List.mem_cons_of_mem _ (List.mem_cons_of_mem _ List.mem_cons_self)) ?_ rfl ?_
        · intro hlucky
          cases hlucky.2.1.symm.trans hthread
        · simp only [effects, List.filterMap, effectOf, hthread, Bool.false_eq_true, if_false]
      | true =>
        simp only [perform, hthread, if_true]
        refine ⟨rfl, Or.inl ⟨rfl, ?_⟩⟩
        simp only [effects, List.filterMap, effectOf, hthread, if_true]
        exact heffects

/-- A handler that answers only where it could not start a sequence. -/
theorem takes_started {starting : Server Int} {msg : String} {c : Command}
    (hmsg : msg ∉ wiggleFailures)
    (h : AlwaysEnds p starting (fun tr rc _ => Starts client p c tr rc)) :
    TakesWith client p (starting >>= fun rc =>
      if rc ≠ 0 then sendReply client msg >>= fun _ => pure true else pure true) (some c) := by
  refine always_bind.mpr (h.mono ?_)
  rintro tr rc p' ⟨hnone, ⟨rfl, heffects⟩ | ⟨hrc, hempty, hnot⟩⟩
  · change true = true ∧ Outcome client p (tr ++ []) (some c)
    rw [List.append_nil]
    refine ⟨rfl, outcome_of_effects heffects ?_⟩
    rw [hnone]
    exact nofun
  · rw [if_pos hrc]
    intro env _
    have hnothing : Outcome client p tr (some c) := by
      apply outcome_of_nothing hempty
      intro c' hc'
      rw [← Option.some.inj hc']
      exact hnot
    exact ⟨rfl, hnothing.answered hmsg p' env⟩

theorem takes_handleDrown {text : CText} (h : text = "DROWN#8765".toList) :
    TakesWith client p (handleDrown client text) (some .drown) := by
  unfold handleDrown
  rw [if_neg (not_not.mpr h)]
  have hmsg : "Error drowning injector" ∉ wiggleFailures := by decide
  refine takes_started hmsg ?_
  intro env _
  change AlwaysEnds p (if p.app.valveProfile.loxMainValveId = 0 ∨
    p.app.valveProfile.loxVentValveId = 0 then _ else _) _
  split_ifs with hids
  · refine ⟨rfl, Or.inr ⟨by decide, rfl, ?_⟩⟩
    rintro ⟨-, -, hmain, hvent⟩
    rcases hids with hid | hid
    · exact absurd hid hmain
    · exact absurd hid hvent
  · intro env' _
    change AlwaysEnds p (firingSequenceStart client (drownConfig p.app.valveProfile) _ _ _) _
    have hblocks : (drownConfig p.app.valveProfile).numBlocks ≠ 0 := by
      change 2 ≠ 0
      decide
    have hstarts := firingSequenceStart_starts client (p := p) (c := .drown) hblocks
      (some (Printf.truncated 160 (drownStartedMessage p.app.valveProfile)))
      (some "Injector drowned successfully") (some "Error drowning injector")
      ⟨p.app.valveProfile, rfl⟩ (fun hadmits => hadmits.2.1)
    refine hstarts.mono ?_
    intro tr rc p' hrest
    exact (hrest.skip rfl rfl).skip rfl rfl

theorem takes_handleFire {text : CText} (h : hasPrefix "FIRE#8765" text = true) :
    TakesWith client p (handleFire client text)
      ((firingSequenceParse true text).map .fire) := by
  unfold handleFire
  rw [h, Bool.not_true, if_neg Bool.false_ne_true]
  intro env _
  dsimp only [perform, Program.bind]
  cases hparse : firingSequenceParse env.alloc text with
  | none =>
    intro env' _
    refine ⟨rfl, outcome_of_nothing rfl ?_⟩
    rintro c hc - hlucky
    have halloc : env.alloc = true := (hlucky _ List.mem_cons_self).1
    rw [halloc] at hparse
    rw [hparse] at hc
    cases hc
  | some config =>
    rw [firingSequenceParse_true hparse]
    have hstarts := firingSequenceStart_starts client (p := p) (c := .fire config)
      (numBlocks_of_parse hparse) (some (fireStartedMessage config))
      (some "Firing sequence completed") (some "Firing sequence failed to start")
      ⟨(firingSequenceParse_reads hparse).1, rfl⟩ (fun hadmits => hadmits.2)
    have hmsg : "A firing sequence is already running" ∉ wiggleFailures := by decide
    refine (takes_started hmsg hstarts).mono ?_
    rintro tr v p' ⟨hv, hrest⟩
    exact ⟨hv, hrest.skip rfl rfl⟩

/-! ### Single frames -/

theorem canBusSendCommand_sent {fd : Int} {command : CanCommand} {write : Option String}
    (h : canBusSendCommand fd command write = .sent) : ¬ command.id > 0x7FF := by
  intro hid
  unfold canBusSendCommand at h
  rw [if_pos (Or.inr hid)] at h
  cases h

/-- A frame is sent on an open socket if its id is in range and the write succeeds. -/
theorem canBusSendCommand_lucky {fd : Int} {command : CanCommand} (hfd : 0 ≤ fd)
    (hid : ¬ command.id > 0x7FF) : canBusSendCommand fd command none = .sent := by
  have hgood : ¬ (fd < 0 ∨ command.id > 0x7FF) := by
    rintro (hneg | hbad)
    · omega
    · exact hid hbad
  unfold canBusSendCommand
  rw [if_neg hgood]

theorem takes_handleRawCan {text : CText} {f : RawCanFields} (h : parseRawCanFields text = some f) :
    TakesWith client p (handleRawCan client text)
      (if f.id > 0x7FF then none else some (.rawCan f)) := by
  unfold handleRawCan
  rw [h]
  intro env _
  have hperform (result : SendResult)
      (hsend : canBusSendCommand p.app.canFd ⟨f.id, f.value, f.durationMs⟩ (env.write 0) = result) :
      perform p env (.canSend ⟨f.id, f.value, f.durationMs⟩) =
        (p, result, [.canTx .rawCommand ⟨f.id, f.value, f.durationMs⟩ result]) := by
    rw [← hsend]
    rfl
  cases hsend : canBusSendCommand p.app.canFd ⟨f.id, f.value, f.durationMs⟩ (env.write 0) with
  | sent =>
    rw [if_neg (canBusSendCommand_sent hsend), hperform _ hsend]
    intro env₁ _ env₂ _
    refine ⟨rfl, outcome_of_effects ?_ ?_⟩
    · simp only [effects, List.filterMap, effectOf, hsend, if_true]
      rfl
    · intro msg hmsg
      have hreply : msg = "Message sent" := by
        simpa only [repliesTo, List.filterMap, replyOf, if_true, List.mem_singleton] using hmsg
      rw [hreply]
      decide
  | refused error =>
    rw [hperform _ hsend]
    intro env₁ _
    refine ⟨rfl, outcome_of_nothing ?_ ?_⟩
    · simp only [effects, List.filterMap, effectOf, hsend, reduceCtorEq, if_false]
    · -- a send is refused only for a bad id or by the bus, and neither is so where the command is
      -- admitted
      intro c hc hadmits hlucky
      split_ifs at hc with hid
      rw [← Option.some.inj hc] at hadmits
      have hwrite : env.write 0 = none := (hlucky _ List.mem_cons_self).2.2 0
      rw [hwrite, canBusSendCommand_lucky hadmits.2 hid] at hsend
      cases hsend

/-! ### The dispatcher -/

/-- A handler behind which nothing is done. -/
theorem takes_nothing (msg : String) (h : ∀ c, found = some c → ¬ Admits p c) :
    AlwaysEnds p (sendReply client msg) (fun tr _ _ => Outcome client p tr found) :=
  fun _ _ => outcome_of_nothing rfl (fun c hc hadmits => absurd hadmits (h c hc))

theorem hotfire_of_admits {text : CText} {c : Command} (h : commandBehindGate text = some c)
    (hadmits : Admits p c) : p.app.state = .hotfire := by
  unfold commandBehindGate at h
  split_ifs at h
  · rw [← Option.some.inj h] at hadmits
    exact hadmits.1
  · obtain ⟨config, -, rfl⟩ := Option.map_eq_some_iff.mp h
    exact hadmits.1
  · obtain ⟨f, -, hf⟩ := Option.bind_eq_some_iff.mp h
    split_ifs at hf
    rw [← Option.some.inj hf] at hadmits
    exact hadmits.1

theorem outcome_hotfireHandlers (text : CText) :
    AlwaysEnds p (hotfireHandlers client text)
      (fun tr _ _ => Outcome client p tr (commandBehindGate text)) := by
  intro env _
  change AlwaysEnds p (if p.app.state = .prechilling then _ else _) _
  split_ifs with hmode
  · intro env' _
    apply outcome_of_nothing rfl
    intro c hc hadmits
    rw [hotfire_of_admits hc hadmits] at hmode
    cases hmode
  -- the handlers in their order: each that does not take the text leaves it to the next
  have hhandlers : AlwaysEnds p (handleDrown client text >>= fun drown =>
      if drown then pure () else handleFire client text >>= fun fire =>
        if fire then pure () else handleRawCan client text >>= fun raw =>
          if raw then pure () else sendReply client "Invalid command")
      (fun tr _ _ => Outcome client p tr (commandBehindGate text)) := by
    unfold commandBehindGate
    by_cases hdrown : text = "DROWN#8765".toList
    · rw [if_pos hdrown]
      exact taken_outcome _ (takes_handleDrown hdrown)
    rw [if_neg hdrown, handleDrown_other client hdrown, Program.pure_eq, Program.ret_bind,
      if_neg Bool.false_ne_true]
    cases hfire : hasPrefix "FIRE#8765" text with
    | true =>
      rw [if_pos rfl]
      exact taken_outcome _ (takes_handleFire hfire)
    | false =>
      rw [if_neg Bool.false_ne_true, handleFire_other client hfire, Program.pure_eq,
        Program.ret_bind, if_neg Bool.false_ne_true]
      cases hparse : parseRawCanFields text with
      | none =>
        have hraw : handleRawCan client text = pure false := by
          unfold handleRawCan
          rw [hparse]
        rw [hraw, Program.pure_eq, Program.ret_bind, if_neg Bool.false_ne_true]
        exact takes_nothing _ nofun
      | some f => exact taken_outcome _ (takes_handleRawCan hparse)
  refine hhandlers.mono ?_
  intro tr v p' hrest
  exact hrest.skip rfl rfl

theorem outcome_copyHandlers {text : CText} (habort : text ≠ "ABORT#8765".toList)
    (hstate : hasPrefix "STATE#" text = false) (hset : hasPrefix "SET_VALVE" text = false) :
    AlwaysEnds p (copyHandlers client text)
      (fun tr _ _ => Outcome client p tr (commandOf text)) := by
  intro env _
  change AlwaysEnds p (if !env.alloc then _ else _) _
  cases halloc : env.alloc with
  | false =>
    intro env' _
    apply outcome_of_nothing rfl
    intro c _ _ hlucky
    cases (hlucky _ List.mem_cons_self).1.symm.trans halloc
  | true =>
    rw [Bool.not_true, if_neg Bool.false_ne_true]
    have hhandlers : AlwaysEnds p (handleWiggleStop client text >>= fun wiggleStop =>
        if wiggleStop then pure () else handleWiggle client text >>= fun wiggle =>
          if wiggle then pure () else hotfireHandlers client text)
        (fun tr _ _ => Outcome client p tr (commandOf text)) := by
      cases hstop : hasPrefix "WIGGLE_STOP" text with
      | true => exact taken_outcome _ (takes_handleWiggleStop hstop)
      | false =>
        rw [handleWiggleStop_other client hstop, Program.pure_eq, Program.ret_bind,
          if_neg Bool.false_ne_true]
        cases hwiggle : hasPrefix "WIGGLE" text with
        | true => exact taken_outcome _ (takes_handleWiggle hwiggle hstop)
        | false =>
          rw [handleWiggle_other client hwiggle, Program.pure_eq, Program.ret_bind,
            if_neg Bool.false_ne_true, commandOf, if_neg habort, hstate,
            if_neg Bool.false_ne_true, hset, if_neg Bool.false_ne_true, hstop,
            if_neg Bool.false_ne_true, hwiggle, if_neg Bool.false_ne_true]
          exact outcome_hotfireHandlers text
    refine hhandlers.mono ?_
    intro tr v p' hrest
    exact hrest.skip rfl rfl

theorem outcome_dispatch (text : CText) :
    AlwaysEnds p (dispatch realMode client text)
      (fun tr _ _ => Outcome client p tr (commandOf text)) := by
  by_cases habort : text = "ABORT#8765".toList
  · rw [show commandOf text = some .abort from if_pos habort]
    exact taken_outcome _ (takes_handleAbort habort)
  change AlwaysEnds p (handleAbort client text >>= _) _
  rw [handleAbort_other client habort, Program.pure_eq, Program.ret_bind,
    if_neg Bool.false_ne_true]
  cases hstate : hasPrefix "STATE#" text with
  | true => exact taken_outcome _ (takes_handleStateCommand hstate)
  | false =>
    rw [handleStateCommand_other client hstate, Program.pure_eq, Program.ret_bind,
      if_neg Bool.false_ne_true]
    cases hset : hasPrefix "SET_VALVE" text with
    | true => exact taken_outcome _ (takes_handleSetValve hset)
    | false =>
      rw [handleSetValve_other client hset, Program.pure_eq, Program.ret_bind,
        if_neg Bool.false_ne_true]
      exact outcome_copyHandlers habort hstate hset

/-- A read toggle is answered at once, or the client is not known and the text goes on. -/
theorem always_readToggle {config : AppConfig} {text : CText} (h : IsReadToggle text)
    {Q : List (Process × Env × Act) → Unit → Process → Prop}
    (hreply : ∀ env env₁ env₂ b q p', Q [(p, env, .clientContext client),
      (p, env₁, .setWriteOnly client b), (q, env₂, .sendText client (toggleReply text))] () p')
    (hrest : ∀ env, AlwaysEnds p (dispatch config client (stripCanPrefix text))
      (fun tr => Q ((p, env, .clientContext client) :: tr))) :
    AlwaysEnds p (commandHandleText config client text) Q := by
  intro env _
  change AlwaysEnds p ((if !(p.app.clients.any (fun c => c.client == client)) then pure false
    else _) >>= fun toggled => if toggled then pure () else _) _
  cases p.app.clients.any (fun c => c.client == client) with
  | false => exact hrest env
  | true =>
    rcases h with rfl | rfl
    · intro env₁ _ env₂ _
      exact hreply env env₁ env₂ true _ _
    · intro env₁ _ env₂ _
      exact hreply env env₁ env₂ false _ _

theorem commandOf_readToggle {text : CText} (h : IsReadToggle text) :
    commandOf (stripCanPrefix text) = none := by
  rcases h with rfl | rfl <;> rfl

/-- In every state and environment real mode carries out the command of the text, if it
can, and no other. -/
theorem outcome_command (client : Client) (text : CText) (p : Process) :
    AlwaysEnds p (commandHandleText realMode client text)
      (fun tr _ _ => Outcome client p tr (commandOf (stripCanPrefix text))) := by
  by_cases htoggle : IsReadToggle text
  · apply always_readToggle htoggle
    · intro env env₁ env₂ b q p'
      apply outcome_of_nothing rfl
      intro c hc
      cases (commandOf_readToggle htoggle).symm.trans hc
    · intro env
      refine (outcome_dispatch _).mono ?_
      intro tr v p' hrest
      exact hrest.skip rfl rfl
  · rw [commandHandleText_other realMode client htoggle]
    intro env _
    refine (outcome_dispatch _).mono ?_
    intro tr v p' hrest
    exact hrest.skip rfl rfl

end WsServer
