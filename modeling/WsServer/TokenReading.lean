import WsServer.Dispatch
import WsServer.Numerals

/-! The tokens that a command is worked through by, and the actions that its handler reads
from them one by one, whatever the others do in between. -/
namespace WsServer
open Interaction Program

/-- Whose format a token has. -/
inductive TokenKind where
  | setValve
  | wiggleStop
  | wiggle
  | fire
  | rawCan
  deriving DecidableEq, Repr

abbrev Token := TokenKind × CText

def commandTokens (text : CText) : List Token :=
  if hasPrefix "SET_VALVE" text then [(.setValve, text)]
  else if hasPrefix "WIGGLE_STOP" text then
    (Strtok.tokens '|' text).tail.map (TokenKind.wiggleStop, ·)
  else if hasPrefix "WIGGLE" text then (Strtok.tokens '|' text).tail.map (TokenKind.wiggle, ·)
  else if hasPrefix "FIRE#8765" text then [(.fire, text)]
  else [(.rawCan, text)]

/-- The handler of the token has read the action from it. -/
def ReadFrom (a : Act) : Token → Prop
  | (.setValve, text) => ∃ name value field bound, scanSetValve text = some (name, value) ∧
      valveFieldOf name = some (field, bound) ∧ value ≤ bound ∧ a = .setValve field value
  | (.wiggleStop, token) => ∃ id, scanWiggleStop token = some id ∧ a = .wiggleStop id
  | (.wiggle, token) => ∃ r, scanWiggle token = some r ∧ ¬ (r.periodMs = 0 ∨ r.id > 0x7FF) ∧
      a = .wiggleStart r
  | (.fire, text) => ∃ strdupOk args, firingSequenceParse strdupOk text = some args.config ∧
      a = .createWorker args
  | (.rawCan, text) => ∃ f, parseRawCanFields text = some f ∧
      a = .canSend ⟨f.id, f.value, f.durationMs⟩

/-! ### The handlers work through the tokens -/

/-- The numeric actions of a program use up the tokens one by one. -/
abbrev Reading {β : Type} (tokens : List Token) (p : Server β)
    (post : β → List Token → Prop) : Prop :=
  Follows (consuming Act.Numeric ReadFrom) tokens p post

variable {β : Type} {tokens : List Token} {post : β → List Token → Prop}

theorem unnumbered_stateTalk {a : Act} (h : a.StateTalk) : ¬ a.Numeric := by
  cases a <;> first | exact h.elim | exact id

theorem reading_stateTalk {β' : Type} {p : Server β'} {f : β' → Server β}
    (h : Performs Act.StateTalk p) (hf : ∀ v, Reading tokens (f v) post) :
    Reading tokens (p >>= f) post := by
  refine Follows.bind (follows_unmarked (h.mono (fun _ => unnumbered_stateTalk)) tokens) ?_
  intro v g hg
  rw [hg]
  exact hf v

theorem reading_talk {β' : Type} {p : Server β'} {f : β' → Server β}
    (h : Performs Act.Talk p) (hf : ∀ v, Reading tokens (f v) post) :
    Reading tokens (p >>= f) post :=
  reading_stateTalk (h.mono (fun _ => stateTalk_of_talk)) hf

theorem reading_reply (client : Client) (msg : String) {v : β} (h : post v tokens) :
    Reading tokens (do sendReply client msg; pure v) post :=
  reading_talk (talk_sendReply client msg) (fun _ => h)

theorem reading_sendReply (tokens : List Token) (client : Client) (msg : String) :
    Reading tokens (sendReply client msg) (fun _ _ => True) :=
  ⟨fun h => absurd h id, fun _ _ _ => trivial⟩

theorem reading_handleSetValve (client : Client) {text : CText}
    (h : hasPrefix "SET_VALVE" text = true) :
    Reading [(.setValve, text)] (handleSetValve client text) (fun v _ => v = true) := by
  unfold handleSetValve
  rw [h, Bool.not_true, if_neg Bool.false_ne_true]
  cases hscan : scanSetValve text with
  | none => exact reading_reply client _ rfl
  | some scanned =>
    obtain ⟨name, value⟩ := scanned
    dsimp only
    cases hname : valveFieldOf name with
    | none => exact reading_reply client _ rfl
    | some found =>
      obtain ⟨field, bound⟩ := found
      dsimp only
      split_ifs with hbad
      · exact reading_reply client _ rfl
      · have hread : ReadFrom (.setValve field value) (.setValve, text) :=
          ⟨name, value, field, bound, hscan, hname, UInt32.not_lt.mp hbad, rfl⟩
        exact follows_marked trivial hread (fun _ => reading_reply client _ rfl)

theorem reading_stopEntries (entries : List CText) (stopped : ℕ) :
    Reading (entries.map (TokenKind.wiggleStop, ·)) (stopEntries entries stopped) (fun _ _ => True) := by
  induction entries generalizing stopped with
  | nil => trivial
  | cons token rest ih =>
    unfold stopEntries
    cases hscan : scanWiggleStop token with
    | none => trivial
    | some id =>
      have hread : ReadFrom (.wiggleStop id) (.wiggleStop, token) := ⟨id, hscan, rfl⟩
      exact follows_marked trivial hread (fun _ => ih _)

theorem reading_handleWiggleStop (client : Client) {text : CText}
    (h : hasPrefix "WIGGLE_STOP" text = true) :
    Reading ((Strtok.tokens '|' text).tail.map (TokenKind.wiggleStop, ·))
      (handleWiggleStop client text) (fun v _ => v = true) := by
  unfold handleWiggleStop
  rw [h, Bool.not_true, if_neg Bool.false_ne_true]
  refine Follows.bind (reading_stopEntries _ 0) ?_
  rintro ⟨stopped, parseError⟩ g _
  dsimp only
  split_ifs <;> exact reading_reply client _ rfl

theorem reading_startEntries (entries : List CText) (started : ℕ) :
    Reading (entries.map (TokenKind.wiggle, ·)) (startEntries entries started) (fun _ _ => True) := by
  induction entries generalizing started with
  | nil => trivial
  | cons token rest ih =>
    unfold startEntries
    cases hscan : scanWiggle token with
    | none => trivial
    | some r =>
      dsimp only
      unfold wiggleStart
      split_ifs with hbad
      · -- refused before the table is looked at, and the loop ends
        exact trivial
      · have hread : ReadFrom (.wiggleStart r) (.wiggle, token) := ⟨r, hscan, hbad, rfl⟩
        refine follows_marked trivial hread (fun rc => ?_)
        split_ifs
        · trivial
        · exact ih _

theorem reading_handleWiggle (client : Client) {text : CText}
    (h : hasPrefix "WIGGLE" text = true) (hstop : hasPrefix "WIGGLE_STOP" text = false) :
    Reading ((Strtok.tokens '|' text).tail.map (TokenKind.wiggle, ·)) (handleWiggle client text)
      (fun v _ => v = true) := by
  unfold handleWiggle
  rw [h, hstop, Bool.not_true, Bool.or_false, if_neg Bool.false_ne_true]
  refine follows_skip id (fun state => ?_)
  split_ifs
  · exact reading_reply client _ rfl
  refine Follows.bind (reading_startEntries _ 0) ?_
  rintro ⟨started, parseError⟩ g _
  dsimp only
  split_ifs <;> exact reading_reply client _ rfl

/-- A sequence is started with the configuration that it is given. -/
theorem reading_firingSequenceStart (client : Client) (config : FiringSequenceConfig)
    (started completed failed : Option String)
    (h : ∀ args : SequenceWorkerArgs, args.config = config →
      (consuming (S := serverSig) Act.Numeric ReadFrom).allowed tokens (.createWorker args)) :
    Reading tokens (firingSequenceStart client config started completed failed)
      (fun _ _ => True) := by
  have hrelease (tokens : List Token) :
      Reading tokens (do act .finishSequence; pure (-1) : Server Int) (fun _ _ => True) :=
    follows_skip id (fun _ => trivial)
  unfold firingSequenceStart
  split_ifs
  · trivial
  refine follows_skip id (fun claimed => ?_)
  split_ifs
  · trivial
  refine follows_skip id (fun allocated => ?_)
  split_ifs
  · exact hrelease tokens
  refine ⟨h _ rfl, ?_⟩
  intro created g _
  cases created with
  | false => exact hrelease g
  | true => trivial

theorem reading_handleFire (client : Client) {text : CText}
    (h : hasPrefix "FIRE#8765" text = true) :
    Reading [(.fire, text)] (handleFire client text) (fun v _ => v = true) := by
  unfold handleFire
  rw [h, Bool.not_true, if_neg Bool.false_ne_true]
  refine follows_skip id (fun strdupOk => ?_)
  cases hparse : firingSequenceParse strdupOk text with
  | none => exact reading_reply client _ rfl
  | some config =>
    refine Follows.bind (reading_firingSequenceStart client config _ _ _ ?_) ?_
    · intro args hargs _
      exact ⟨_, [], rfl, strdupOk, args, hargs ▸ hparse, rfl⟩
    · intro rc g _
      split_ifs
      · exact reading_reply client _ rfl
      · rfl

theorem reading_handleDrown (client : Client) (text : CText) :
    Reading tokens (handleDrown client text) (fun v g => v = true ∨ g = tokens) := by
  unfold handleDrown
  split_ifs
  · exact Or.inr rfl
  have hstart : Reading tokens (firingSequenceStartDrown client) (fun _ _ => True) := by
    refine follows_skip id (fun checked => ?_)
    split_ifs
    · trivial
    refine follows_skip id (fun profile => ?_)
    refine reading_firingSequenceStart client _ _ _ _ ?_
    intro args hargs hnumeric
    have hdrown : args.config.drownInjector = true := hargs ▸ rfl
    cases hdrown.symm.trans hnumeric
  refine Follows.bind hstart ?_
  intro rc g _
  split_ifs
  · exact reading_reply client _ (Or.inl rfl)
  · exact Or.inl rfl

theorem reading_handleRawCan (client : Client) (text : CText) :
    Reading [(.rawCan, text)] (handleRawCan client text) (fun _ _ => True) := by
  unfold handleRawCan
  cases hparse : parseRawCanFields text with
  | none => trivial
  | some f =>
    have hread : ReadFrom (.canSend ⟨f.id, f.value, f.durationMs⟩) (.rawCan, text) :=
      ⟨f, hparse, rfl⟩
    refine follows_marked trivial hread (fun result => ?_)
    cases result with
    | sent => exact follows_skip id (fun _ => reading_reply client _ trivial)
    | refused error => exact reading_reply client _ trivial

/-! ### The dispatcher -/

theorem reading_hotfireHandlers (client : Client) {text : CText}
    (hset : hasPrefix "SET_VALVE" text = false) (hwiggle : hasPrefix "WIGGLE" text = false) :
    Reading (commandTokens text) (hotfireHandlers client text) (fun _ _ => True) := by
  -- a text that begins with the longer word begins with the shorter one
  have hstop : hasPrefix "WIGGLE_STOP" text = false := by
    by_contra hstop
    rw [hasPrefix_wiggle ((Bool.not_eq_false _).mp hstop)] at hwiggle
    cases hwiggle
  refine follows_skip id (fun state => ?_)
  split_ifs
  · exact reading_sendReply _ client _
  refine Follows.bind (reading_handleDrown client text) ?_
  intro drown g hg
  cases drown with
  | true => trivial
  | false =>
    obtain rfl := hg.resolve_left Bool.false_ne_true
    rw [if_neg Bool.false_ne_true]
    cases hfire : hasPrefix "FIRE#8765" text with
    | true =>
      have htokens : commandTokens text = [(.fire, text)] := by
        simp only [commandTokens, hset, hstop, hwiggle, hfire, Bool.false_eq_true, if_false, if_true]
      rw [htokens]
      refine Follows.bind (reading_handleFire client hfire) ?_
      rintro fire g rfl
      trivial
    | false =>
      have htokens : commandTokens text = [(.rawCan, text)] := by
        simp only [commandTokens, hset, hstop, hwiggle, hfire, Bool.false_eq_true, if_false]
      rw [htokens, handleFire_other client hfire]
      change Reading [(.rawCan, text)] (do
        let raw ← handleRawCan client text
        if raw then pure () else sendReply client "Invalid command") (fun _ _ => True)
      refine Follows.bind (reading_handleRawCan client text) ?_
      intro raw g _
      cases raw with
      | true => trivial
      | false => exact reading_sendReply g client _

theorem reading_copyHandlers (client : Client) {text : CText}
    (hset : hasPrefix "SET_VALVE" text = false) :
    Reading (commandTokens text) (copyHandlers client text) (fun _ _ => True) := by
  refine follows_skip id (fun copied => ?_)
  split_ifs
  · exact reading_sendReply _ client _
  cases hstop : hasPrefix "WIGGLE_STOP" text with
  | true =>
    have htokens : commandTokens text =
        (Strtok.tokens '|' text).tail.map (TokenKind.wiggleStop, ·) := by
      simp only [commandTokens, hset, hstop, Bool.false_eq_true, if_false, if_true]
    rw [htokens]
    refine Follows.bind (reading_handleWiggleStop client hstop) ?_
    rintro stopped g rfl
    trivial
  | false =>
    rw [handleWiggleStop_other client hstop, Program.pure_eq, Program.ret_bind,
      if_neg Bool.false_ne_true]
    cases hwiggle : hasPrefix "WIGGLE" text with
    | true =>
      have htokens : commandTokens text =
          (Strtok.tokens '|' text).tail.map (TokenKind.wiggle, ·) := by
        simp only [commandTokens, hset, hstop, hwiggle, Bool.false_eq_true, if_false, if_true]
      rw [htokens]
      refine Follows.bind (reading_handleWiggle client hwiggle hstop) ?_
      rintro started g rfl
      trivial
    | false =>
      rw [handleWiggle_other client hwiggle, Program.pure_eq, Program.ret_bind,
        if_neg Bool.false_ne_true]
      exact reading_hotfireHandlers client hset hwiggle

/-- A command is worked through token by token, and its numeric actions are the ones that
are read from the tokens. -/
theorem reading_commandHandleText (config : AppConfig) (client : Client) (text : CText) :
    Reading (commandTokens (stripCanPrefix text)) (commandHandleText config client text)
      (fun _ _ => True) := by
  refine reading_talk (talk_handleReadToggle client text) (fun toggled => ?_)
  dsimp only
  split_ifs
  · trivial
  · exact (follows_unmarked ((talk_handleTestingCommand client _).mono
      (fun _ ha => unnumbered_stateTalk (stateTalk_of_talk ha))) _).mono (fun _ _ _ => trivial)
  · exact reading_sendReply _ client _
  refine reading_talk (talk_handleAbort client _) (fun abort => ?_)
  split_ifs
  · trivial
  refine reading_stateTalk (stateTalk_handleStateCommand client _) (fun state => ?_)
  split_ifs
  · trivial
  cases hset : hasPrefix "SET_VALVE" (stripCanPrefix text) with
  | true =>
    have htokens : commandTokens (stripCanPrefix text) =
        [(.setValve, stripCanPrefix text)] := by
      simp only [commandTokens, hset, if_true]
    rw [htokens]
    refine Follows.bind (reading_handleSetValve client hset) ?_
    rintro setValve g rfl
    trivial
  | false =>
    rw [handleSetValve_other client hset, Program.pure_eq, Program.ret_bind,
      if_neg Bool.false_ne_true]
    exact reading_copyHandlers client hset

end WsServer
