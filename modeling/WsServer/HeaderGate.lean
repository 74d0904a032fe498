import WsServer.BlockParse
import WsServer.Dispatch
import WsServer.FaceValue
import WsServer.HandlerActions

/-! Whether the word and the safety code at the head of a command gate what it does. -/
namespace WsServer
open Interaction Program

/-- The part of a command before its first `'|'`, without the optional prefix. -/
def headerOf (text : CText) : CText := (stripCanPrefix text).takeWhile (· != '|')

/-- The headers that may start a sequence, request an abort or start a wiggle. -/
def Act.HeadedBy (header : CText) : Act → Prop
  | .createWorker _ => header = "FIRE#8765".toList ∨ header = "DROWN#8765".toList
  | .requestAbort => header = "ABORT#8765".toList
  | .wiggleStart _ => header = "WIGGLE".toList
  | _ => True

/-- The action does what its header is asked for. -/
def Effective (p : Process) (env : Env) : Act → Prop
  | .requestAbort => True
  | a => TakesEffect p env a

/-- Every step of a run that starts a sequence, requests an abort or starts a wiggle has
its header. -/
def HeaderGated (text : CText) (tr : List (Process × Env × Act)) : Prop :=
  ∀ x ∈ tr, Effective x.1 x.2.1 x.2.2 → x.2.2.HeadedBy (headerOf text)

/-- The first entry of a `WIGGLE` command is one that `wiggle_start` may accept. -/
def FirstEntryStartable (text : CText) : Prop :=
  ∃ r, (Strtok.tokens '|' text).tail.head?.bind scanWiggle = some r ∧
    ¬ (r.periodMs = 0 ∨ r.id > 0x7FF)

instance (text : CText) : Decidable (FirstEntryStartable text) :=
  match h : (Strtok.tokens '|' text).tail.head?.bind scanWiggle with
  | none => isFalse (fun ⟨_, hr, _⟩ => nomatch h.symm.trans hr)
  | some r => decidable_of_iff (¬ (r.periodMs = 0 ∨ r.id > 0x7FF))
      ⟨fun hr => ⟨r, h, hr⟩, fun ⟨_, hr', hok⟩ => Option.some.inj (h.symm.trans hr') ▸ hok⟩

/-- Where a word of a command goes on behind its end, nothing else of the command could
be carried out. -/
structure HeaderComplete (text : CText) : Prop where
  fire : hasPrefix "FIRE#8765" (stripCanPrefix text) = true →
    headerOf text = "FIRE#8765".toList ∨ firingSequenceParse true (stripCanPrefix text) = none
  wiggle : hasPrefix "WIGGLE" (stripCanPrefix text) = true →
    hasPrefix "WIGGLE_STOP" (stripCanPrefix text) = false →
    headerOf text = "WIGGLE".toList ∨ ¬ FirstEntryStartable (stripCanPrefix text)

/-! ### Complete headers gate -/

variable {β : Type} {header : CText}

theorem headedBy_of_kind {a : Act} (h : a.kind ∉ [ActKind.sequence, .abort, .start]) :
    a.HeadedBy header := by
  revert h
  fun_cases Act.kind a <;> first | exact fun _ => trivial | exact fun h => absurd (by decide) h

theorem Kinds.headedBy {ks : List ActKind} {p : Server β} (h : Kinds ks p)
    (hks : ∀ k ∈ ks, k ∉ [ActKind.sequence, .abort, .start]) :
    Performs (Act.HeadedBy header) p :=
  Performs.mono h (fun a ha => headedBy_of_kind (hks a.kind ha))

theorem headed_sendReply (client : Client) (msg : String) :
    Performs (Act.HeadedBy header) (sendReply client msg) := performs_single trivial

/-- With the header of a sequence, everything that the kinds allow is headed. -/
theorem Kinds.headedBy_sequence {ks : List ActKind} {p : Server β} (h : Kinds ks p)
    (hks : ∀ k ∈ ks, k ∉ [ActKind.abort, .start])
    (hheader : header = "FIRE#8765".toList ∨ header = "DROWN#8765".toList) :
    Performs (Act.HeadedBy header) p := by
  refine Performs.mono h ?_
  intro a ha
  have hkind := hks a.kind ha
  revert hkind
  fun_cases Act.kind a <;>
    first | exact fun _ => trivial | exact fun _ => hheader | exact fun h => absurd (by decide) h

theorem headed_handleAbort (client : Client) (text : CText) :
    Performs (Act.HeadedBy (text.takeWhile (· != '|'))) (handleAbort client text) := by
  by_cases h : text = "ABORT#8765".toList
  · have hheader : text.takeWhile (· != '|') = "ABORT#8765".toList := by
      rw [h]
      decide
    refine Performs.mono (kinds_handleAbort client text) ?_
    intro a ha
    revert ha
    fun_cases Act.kind a <;>
      first | exact fun _ => trivial | exact fun _ => hheader | exact fun h => absurd h (by decide)
  · rw [handleAbort_other client h]
    trivial

theorem headed_handleDrown (client : Client) (text : CText) :
    Performs (Act.HeadedBy (text.takeWhile (· != '|'))) (handleDrown client text) := by
  by_cases h : text = "DROWN#8765".toList
  · have hheader : text.takeWhile (· != '|') = "DROWN#8765".toList := by
      rw [h]
      decide
    exact (kinds_handleDrown client text).headedBy_sequence (by decide) (Or.inr hheader)
  · rw [handleDrown_other client h]
    trivial

theorem headed_handleFire (client : Client) {text : CText}
    (h : hasPrefix "FIRE#8765" text = true → text.takeWhile (· != '|') = "FIRE#8765".toList ∨
      firingSequenceParse true text = none) :
    Performs (Act.HeadedBy (text.takeWhile (· != '|'))) (handleFire client text) := by
  cases hfire : hasPrefix "FIRE#8765" text with
  | false =>
    rw [handleFire_other client hfire]
    trivial
  | true =>
    rcases h hfire with hheader | hparse
    · exact (kinds_handleFire client text).headedBy_sequence (by decide) (Or.inl hheader)
    · -- nothing is parsed, so that the handler only replies
      unfold handleFire
      rw [hfire, Bool.not_true, if_neg Bool.false_ne_true]
      refine performs_then trivial (fun strdupOk => ?_)
      cases hsome : firingSequenceParse strdupOk text with
      | none => exact (headed_sendReply client _).bind (fun _ => trivial)
      | some config => cases hparse.symm.trans (firingSequenceParse_true hsome)

theorem headed_handleWiggle (client : Client) {text : CText}
    (h : hasPrefix "WIGGLE" text = true → hasPrefix "WIGGLE_STOP" text = false →
      text.takeWhile (· != '|') = "WIGGLE".toList ∨ ¬ FirstEntryStartable text) :
    Performs (Act.HeadedBy (text.takeWhile (· != '|'))) (handleWiggle client text) := by
  cases hwiggle : hasPrefix "WIGGLE" text with
  | false =>
    rw [handleWiggle_other client hwiggle]
    trivial
  | true =>
    cases hstop : hasPrefix "WIGGLE_STOP" text with
    | true =>
      unfold handleWiggle
      rw [hwiggle, hstop]
      trivial
    | false =>
      rcases h hwiggle hstop with hheader | hfirst
      · refine Performs.mono (kinds_handleWiggle client text) ?_
        intro a ha
        revert ha
        fun_cases Act.kind a <;>
          first
          | exact fun _ => trivial
          | exact fun _ => hheader
          | exact fun h => absurd h (by decide)
      · have hreply (msg : String) : Performs (Act.HeadedBy (text.takeWhile (· != '|')))
            (do sendReply client msg; pure true : Server Bool) :=
          (headed_sendReply client msg).bind (fun _ => trivial)
        unfold handleWiggle
        rw [hwiggle, hstop, Bool.not_true, Bool.or_false, if_neg Bool.false_ne_true]
        refine performs_then trivial (fun state => ?_)
        split_ifs
        · exact hreply _
        -- the loop ends at the first entry, before it gets to the table
        refine Performs.bind (?_ : Performs _ (startEntries _ 0)) ?_
        · cases htokens : (Strtok.tokens '|' text).tail with
          | nil => trivial
          | cons token rest =>
            unfold startEntries
            cases hscan : scanWiggle token with
            | none => trivial
            | some r =>
              have hbad : r.periodMs = 0 ∨ r.id > 0x7FF := by
                by_contra hgood
                refine hfirst ⟨r, ?_, hgood⟩
                rw [htokens]
                exact hscan
              dsimp only
              rw [wiggleStart, if_pos hbad]
              trivial
        · rintro ⟨started, parseError⟩
          dsimp only
          split_ifs <;> exact hreply _

theorem headed_hotfireHandlers (client : Client) {text : CText}
    (h : hasPrefix "FIRE#8765" text = true → text.takeWhile (· != '|') = "FIRE#8765".toList ∨
      firingSequenceParse true text = none) :
    Performs (Act.HeadedBy (text.takeWhile (· != '|'))) (hotfireHandlers client text) := by
  refine performs_then trivial (fun state => ?_)
  split_ifs
  · exact headed_sendReply client _
  refine (headed_handleDrown client text).bind (fun drown => ?_)
  split_ifs
  · trivial
  refine (headed_handleFire client h).bind (fun fire => ?_)
  split_ifs
  · trivial
  refine ((kinds_handleRawCan client text).headedBy (by decide)).bind (fun raw => ?_)
  split_ifs
  · trivial
  · exact headed_sendReply client _

theorem headed_dispatch (config : AppConfig) (client : Client) {text : CText}
    (hfire : hasPrefix "FIRE#8765" text = true →
      text.takeWhile (· != '|') = "FIRE#8765".toList ∨ firingSequenceParse true text = none)
    (hwiggle : hasPrefix "WIGGLE" text = true → hasPrefix "WIGGLE_STOP" text = false →
      text.takeWhile (· != '|') = "WIGGLE".toList ∨ ¬ FirstEntryStartable text) :
    Performs (Act.HeadedBy (text.takeWhile (· != '|'))) (dispatch config client text) := by
  unfold dispatch
  split_ifs
  · exact (kinds_handleTestingCommand client text).headedBy (by decide)
  · exact headed_sendReply client _
  refine (headed_handleAbort client text).bind (fun abort => ?_)
  split_ifs
  · trivial
  refine ((kinds_handleStateCommand client text).headedBy (by decide)).bind (fun state => ?_)
  split_ifs
  · trivial
  refine ((kinds_handleSetValve client text).headedBy (by decide)).bind (fun setValve => ?_)
  split_ifs
  · trivial
  refine performs_then trivial (fun copied => ?_)
  split_ifs
  · exact headed_sendReply client _
  refine ((kinds_handleWiggleStop client text).headedBy (by decide)).bind (fun stop => ?_)
  split_ifs
  · trivial
  refine (headed_handleWiggle client hwiggle).bind (fun wiggle => ?_)
  split_ifs
  · trivial
  · exact headed_hotfireHandlers client hfire

theorem headed_commandHandleText (config : AppConfig) (client : Client) {text : CText}
    (h : HeaderComplete text) :
    Performs (Act.HeadedBy (headerOf text)) (commandHandleText config client text) := by
  rw [commandHandleText_eq]
  refine ((kinds_handleReadToggle client text).headedBy (by decide)).bind (fun toggled => ?_)
  split_ifs
  · trivial
  · exact headed_dispatch config client h.fire h.wiggle

/-! ### Other headers do not -/

/-- With nobody else about, the program gets to an action of `P`. -/
abbrev GetsTo (p : Process) (P : Act → Prop) {β : Type} (q : Server β) : Prop :=
  Reaches (S := serverSig) perform p luckyEnv P q

/-- An action that creates a worker. -/
def Act.IsCreate : Act → Prop
  | .createWorker _ => True
  | _ => False

theorem reaches_firingSequenceStart (client : Client) {config : FiringSequenceConfig}
    (hblocks : config.numBlocks ≠ 0) (started completed failed : Option String) :
    GetsTo (idleProcess .hotfire) Act.IsCreate
      (firingSequenceStart client config started completed failed) := by
  unfold firingSequenceStart
  rw [if_neg hblocks]
  -- the flag and the memory are obtained
  exact Or.inr (Or.inr (Or.inl trivial))

/-- In `HOTFIRE` a firing command with blocks creates a worker. -/
theorem reaches_fire (client : Client) {text : CText} {config : FiringSequenceConfig}
    (hfire : hasPrefix "FIRE#8765" (stripCanPrefix text) = true)
    (hparse : firingSequenceParse true (stripCanPrefix text) = some config) :
    GetsTo (idleProcess .hotfire) Act.IsCreate
      (commandHandleText realMode client text) := by
  have hother (word : String) (hword : ¬ "FIRE#8765".toList <+: word.toList ∧
      ¬ word.toList <+: "FIRE#8765".toList) : hasPrefix word (stripCanPrefix text) = false :=
    hasPrefix_other hfire hword
  have hhandle : GetsTo (idleProcess .hotfire) Act.IsCreate
      (handleFire client (stripCanPrefix text)) := by
    unfold handleFire
    rw [hfire, Bool.not_true, if_neg Bool.false_ne_true]
    refine Or.inr ?_
    dsimp only [perform, luckyEnv, Program.bind]
    rw [hparse]
    exact (reaches_firingSequenceStart client (numBlocks_of_parse hparse) _ _ _).bind _
  rw [commandHandleText_other realMode client (not_readToggle_of_word hfire (by decide)),
    dispatch_copyHandlers client (ne_of_hasPrefix hfire (by decide)) (hother _ (by decide))
      (hother _ (by decide)), copyHandlers_hotfire client (hother _ (by decide))]
  refine Or.inr (Or.inr (Or.inr ?_))
  change GetsTo _ _ (handleDrown client (stripCanPrefix text) >>= _)
  rw [handleDrown_other client (ne_of_hasPrefix hfire (by decide)), Program.pure_eq,
    Program.ret_bind, if_neg Bool.false_ne_true]
  exact hhandle.bind _

/-- In `PRECHILLING` a `WIGGLE` command with a first entry in order gets to the table. -/
theorem reaches_wiggle (client : Client) {text : CText}
    (hwiggle : hasPrefix "WIGGLE" (stripCanPrefix text) = true)
    (hstop : hasPrefix "WIGGLE_STOP" (stripCanPrefix text) = false)
    (hfirst : FirstEntryStartable (stripCanPrefix text)) :
    GetsTo (idleProcess .prechilling) Act.IsWiggleStart
      (commandHandleText realMode client text) := by
  have hother (word : String) (hword : ¬ "WIGGLE".toList <+: word.toList ∧
      ¬ word.toList <+: "WIGGLE".toList) : hasPrefix word (stripCanPrefix text) = false :=
    hasPrefix_other hwiggle hword
  obtain ⟨r, hr, hgood⟩ := hfirst
  -- the first entry is a good request, so the loop comes to its start
  have hentries : GetsTo (idleProcess .prechilling) Act.IsWiggleStart
      (startEntries (Strtok.tokens '|' (stripCanPrefix text)).tail 0) := by
    cases htokens : (Strtok.tokens '|' (stripCanPrefix text)).tail with
    | nil =>
      rw [htokens] at hr
      cases hr
    | cons token rest =>
      rw [htokens] at hr
      have hscan : scanWiggle token = some r := hr
      unfold startEntries
      rw [hscan]
      dsimp only
      rw [wiggleStart, if_neg hgood]
      exact Or.inl trivial
  have hhandle : GetsTo (idleProcess .prechilling) Act.IsWiggleStart
      (handleWiggle client (stripCanPrefix text)) := by
    unfold handleWiggle
    rw [hwiggle, hstop, Bool.not_true, Bool.or_false, if_neg Bool.false_ne_true]
    refine Or.inr ?_
    exact hentries.bind _
  rw [commandHandleText_other realMode client (not_readToggle_of_word hwiggle (by decide)),
    dispatch_copyHandlers client (ne_of_hasPrefix hwiggle (by decide)) (hother _ (by decide))
      (hother _ (by decide))]
  refine Or.inr (Or.inr ?_)
  change GetsTo _ _ (handleWiggleStop client (stripCanPrefix text) >>= _)
  rw [handleWiggleStop_other client hstop, Program.pure_eq, Program.ret_bind,
    if_neg Bool.false_ne_true]
  exact hhandle.bind _

/-- On an empty table every request finds a slot. -/
theorem wiggleStart_idle (state : AppState) (r : WiggleRequest) :
    (wiggleStartLocked (idleProcess state).app luckyEnv r).2.1 = 0 := by
  have hfind : findSlot (idleProcess state).app.wiggles r.id = none :=
    findSlot_quiet (fun _ => rfl) r.id
  have halloc : allocSlot (idleProcess state).app.wiggles = some ⟨0, by decide⟩ := by
    cases state <;> decide
  rw [wiggleStartLocked, hfind, halloc]
  rfl

/-- A header stands at the beginning of its text. -/
theorem hasPrefix_of_header {word : String} {text : CText}
    (h : headerOf text = word.toList) : hasPrefix word (stripCanPrefix text) = true := by
  rw [hasPrefix_iff, ← h]
  exact List.takeWhile_prefix _

/-- Without real mode nothing is carried out. -/
theorem headed_guarded {config : AppConfig} (h : config.testingMode = true ∨ config.readOnly = true)
    (client : Client) (text : CText) :
    Performs (Act.HeadedBy header) (commandHandleText config client text) := by
  rw [commandHandleText_eq]
  refine ((kinds_handleReadToggle client text).headedBy (by decide)).bind (fun toggled => ?_)
  split_ifs
  · trivial
  unfold dispatch
  split_ifs with htesting hread
  · exact (kinds_handleTestingCommand client _).headedBy (by decide)
  · exact headed_sendReply client _
  · exact absurd h (not_or.mpr ⟨htesting, hread⟩)

/-- A run of the command shows an effect without its header. -/
theorem not_gated {text : CText} {client : Client} {p : Process} {P : Act → Prop}
    (hreach : GetsTo p P (commandHandleText realMode client text))
    (hbad : ∀ a, P a → Effective p luckyEnv a ∧ ¬ a.HeadedBy (headerOf text)) :
    ∃ tr, Among perform (fun _ => True) (commandHandleText realMode client text) tr ∧
      ¬ HeaderGated text tr := by
  obtain ⟨tr, htr, a, ha, hmem⟩ := Reaches.among (C := fun _ => True) trivial hreach
  obtain ⟨heffect, hheader⟩ := hbad a ha
  exact ⟨tr, htr, fun hgated => hheader (hgated _ hmem heffect)⟩

/-- A longer word than `FIRE#8765` is no header of a sequence. -/
theorem create_not_headed {text : CText} {p : Process}
    (hfire : hasPrefix "FIRE#8765" (stripCanPrefix text) = true)
    (hheader : headerOf text ≠ "FIRE#8765".toList) {a : Act} (ha : a.IsCreate) :
    Effective p luckyEnv a ∧ ¬ a.HeadedBy (headerOf text) := by
  cases a with
  | createWorker args =>
    refine ⟨rfl, ?_⟩
    rintro (h | h)
    · exact hheader h
    · have hdrown := hasPrefix_of_header h
      rw [hasPrefix_other hfire (by decide)] at hdrown
      cases hdrown
  | _ => exact ha.elim

theorem start_not_headed {text : CText} {state : AppState}
    (hheader : headerOf text ≠ "WIGGLE".toList) {a : Act} (ha : a.IsWiggleStart) :
    Effective (idleProcess state) luckyEnv a ∧ ¬ a.HeadedBy (headerOf text) := by
  cases a with
  | wiggleStart r => exact ⟨wiggleStart_idle state r, hheader⟩
  | _ => exact ha.elim

/-- The safety code gates a command exactly when nothing that could be carried out stands
behind a header that goes on behind its word: `handle_fire` and `handle_wiggle` compare the
beginning of the text only. This is so in every state and whatever the others do. -/
theorem safety_code_gates (config : AppConfig) (client : Client) (text : CText) :
    (∀ tr, Among perform (fun _ => True) (commandHandleText config client text) tr →
      HeaderGated text tr) ↔
    config.testingMode = true ∨ config.readOnly = true ∨ HeaderComplete text := by
  constructor
  · intro h
    by_contra hcond
    -- in real mode a text without its header gets to the action all the same
    obtain ⟨htesting, hcond⟩ := not_or.mp hcond
    obtain ⟨hread, hcomplete⟩ := not_or.mp hcond
    have hreal : config = realMode := by
      obtain ⟨readOnly, testingMode⟩ := config
      obtain rfl : testingMode = false := (Bool.not_eq_true _).mp htesting
      obtain rfl : readOnly = false := (Bool.not_eq_true _).mp hread
      rfl
    rw [hreal] at h
    refine hcomplete ⟨?_, ?_⟩
    · intro hfire
      by_contra hbad
      obtain ⟨hheader, hparse⟩ := not_or.mp hbad
      obtain ⟨blocks, hparse⟩ := Option.ne_none_iff_exists'.mp hparse
      obtain ⟨tr, htr, hgated⟩ := not_gated (reaches_fire client hfire hparse)
        (fun a ha => create_not_headed hfire hheader ha)
      exact hgated (h tr htr)
    · intro hwiggle hstop
      by_contra hbad
      obtain ⟨hheader, hfirst⟩ := not_or.mp hbad
      obtain ⟨tr, htr, hgated⟩ := not_gated
        (reaches_wiggle client hwiggle hstop (not_not.mp hfirst))
        (fun a ha => start_not_headed hheader ha)
      exact hgated (h tr htr)
  · intro hcond tr htr x hx _
    have hheaded : Performs (Act.HeadedBy (headerOf text))
        (commandHandleText config client text) := by
      rcases hcond with htesting | hread | hcomplete
      · exact headed_guarded (Or.inl htesting) client text
      · exact headed_guarded (Or.inr hread) client text
      · exact headed_commandHandleText config client hcomplete
    exact (hheaded.among htr x hx).2

/-- A longer word starts a wiggle, and a longer code starts a sequence. -/
theorem longer_headers_act :
    headerOf "WIGGLEX|101#1#2#3#5".toList = "WIGGLEX".toList ∧
    (∃ tr, Among perform (fun _ => True)
      (commandHandleText realMode 0 "WIGGLEX|101#1#2#3#5".toList) tr ∧
      ¬ HeaderGated "WIGGLEX|101#1#2#3#5".toList tr) ∧
    headerOf "FIRE#87651|101#1#1".toList = "FIRE#87651".toList ∧
    (∃ tr, Among perform (fun _ => True)
      (commandHandleText realMode 0 "FIRE#87651|101#1#1".toList) tr ∧
      ¬ HeaderGated "FIRE#87651|101#1#1".toList tr) := by
  refine ⟨by decide, ?_, by decide, ?_⟩
  · exact not_gated (reaches_wiggle 0 (by decide) (by decide) (by decide))
      (fun a ha => start_not_headed (by decide) ha)
  · have hparse : (firingSequenceParse true
        (stripCanPrefix "FIRE#87651|101#1#1".toList)).isSome = true := by decide
    obtain ⟨blocks, hparse⟩ := Option.isSome_iff_exists.mp hparse
    exact not_gated (reaches_fire 0 (by decide) hparse)
      (fun a ha => create_not_headed (by decide) (by decide) ha)

end WsServer
