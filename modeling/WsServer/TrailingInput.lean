import WsServer.Base.ScanfMatch
import WsServer.CommandOutcome
import WsServer.HeaderGate

/-! Whether a token is consumed to its end where it takes effect. Acceptance goes by the
count of items that `sscanf` returns, and what stands behind the last of them is ignored. -/
namespace WsServer
open Interaction Program Scanf

/-- The documented formats of a token. -/
def TokenKind.formats : TokenKind → List (List Directive)
  | .setValve => [[.lit '#', .notIn 31 '#', .lit '#', .num 16 .int]]
  | .wiggleStop => [[.num 16 .int]]
  | .wiggle => [[.num 16 .int, .lit '#', .num 16 .short, .lit '#', .num 16 .short, .lit '#',
        .num 16 .short, .lit '#', .num 10 .int],
      [.num 16 .int, .lit '#', .num 16 .short, .lit '#', .num 16 .short, .lit '#',
        .num 16 .short, .lit '#', .num 10 .int, .lit '#', .num 10 .int]]
  | .fire => []
  | .rawCan => [[.num 16 .int, .lit '#', .num 16 .short],
      [.num 16 .int, .lit '#', .num 16 .short, .lit '#', .num 10 .short]]

/-- The part of a token that its format describes. -/
def Token.body : Token → CText
  | (.setValve, text) => text.drop 9
  | (_, text) => text

/-- A format of the token matches it to its last character. -/
def Token.Consumed (token : Token) : Prop :=
  ∃ fs ∈ token.1.formats, ∃ items, scanAll fs token.body = some (items, [])

/-- A frame is sent, a wiggle is started or stopped, or a valve field is set. -/
def Act.FromToken : Act → Prop
  | .canSend _ | .wiggleStart _ | .wiggleStop _ | .setValve _ _ => True
  | _ => False

/-- What takes effect in a run has consumed its token to the end. -/
def NothingIgnored (text : CText) (tr : List (Process × Env × Act)) : Prop :=
  (markedSteps (S := serverSig) Act.Numeric tr).length ≤ (commandTokens text).length ∧
    ∀ x ∈ (markedSteps (S := serverSig) Act.Numeric tr).zip (commandTokens text),
      x.1.2.2.FromToken → TakesEffect x.1.1 x.1.2.1 x.1.2.2 → x.2.Consumed

/-- The token is read, with an id that can have an effect. -/
def Token.Usable (token : Token) : Prop :=
  ∃ a : Act, a.FromToken ∧ a.IdInRange ∧ ReadFrom a token

/-- No token in the text that its handler gets to and can use has something behind its
last field. -/
def NoLeftovers (text : CText) : Prop :=
  ∀ before token behind, commandTokens text = before ++ token :: behind →
    (∀ t ∈ before, ∃ a, ReadFrom a t) → token.Usable → token.Consumed

/-! ### Nothing is ignored where nothing is left over -/

theorem mem_zip_iff_getElem {α β : Type} {l : List α} {l' : List β} {x : α × β} :
    x ∈ l.zip l' ↔ ∃ i, ∃ (hi : i < l.length) (hi' : i < l'.length), x = (l[i], l'[i]) := by
  rw [List.mem_iff_getElem]
  refine exists_congr (fun i => ?_)
  constructor
  · rintro ⟨hi, rfl⟩
    rw [List.length_zip, lt_min_iff] at hi
    exact ⟨hi.1, hi.2, List.getElem_zip⟩
  · rintro ⟨hi, hi', rfl⟩
    refine ⟨?_, List.getElem_zip⟩
    rw [List.length_zip, lt_min_iff]
    exact ⟨hi, hi'⟩

theorem nothingIgnored_of_noLeftovers {config : AppConfig} {client : Client} {text : CText}
    (h : NoLeftovers (stripCanPrefix text)) {tr : List (Process × Env × Act)}
    (htr : Among perform (fun p => p.app.wiggles.ValidIds) (commandHandleText config client text)
      tr) : NothingIgnored (stripCanPrefix text) tr := by
  obtain ⟨hlength, hzip⟩ := (reading_commandHandleText config client text).consumed htr
  refine ⟨hlength, ?_⟩
  intro x hx htoken heffect
  obtain ⟨hids, hread⟩ := hzip x hx
  obtain ⟨i, hi, hi', rfl⟩ := mem_zip_iff_getElem.mp hx
  have husable : Token.Usable (commandTokens (stripCanPrefix text))[i] :=
    ⟨_, htoken, idInRange_of_effect hids heffect, hread⟩
  refine h ((commandTokens (stripCanPrefix text)).take i) _
    ((commandTokens (stripCanPrefix text)).drop (i+1)) ?_ ?_ husable
  · rw [← List.drop_eq_getElem_cons hi', List.take_append_drop]
  · -- the steps before this one have read the tokens before it
    intro t ht
    obtain ⟨j, hj, rfl⟩ := List.mem_take_iff_getElem.mp ht
    rw [lt_min_iff] at hj
    exact ⟨_, (hzip _ (mem_zip_iff_getElem.mpr ⟨j, hj.1.trans hi, hj.2, rfl⟩)).2⟩

theorem chat_not_fromToken {a : Act} (h : a.kind ∈ [ActKind.chat]) : ¬ a.FromToken := by
  revert h
  fun_cases Act.kind a <;> first | exact fun _ => id | exact fun h => absurd h (by decide)

/-- Without real mode nothing is acted on. -/
theorem nothingIgnored_guarded {config : AppConfig}
    (h : config.testingMode = true ∨ config.readOnly = true) {client : Client} {text : CText}
    {tr : List (Process × Env × Act)} {C : Process → Prop}
    (htr : Among perform C (commandHandleText config client text) tr) :
    NothingIgnored (stripCanPrefix text) tr := by
  have hlength := ((reading_commandHandleText config client text).consumed htr).1
  have hchat := (kinds_guarded h client text).among htr
  refine ⟨hlength, ?_⟩
  intro x hx htoken _
  have hmem := List.mem_of_mem_filter (List.of_mem_zip hx).1
  exact absurd htoken (chat_not_fromToken (hchat _ hmem).2)

/-! ### What is left over is ignored -/

/-- With every action answered from one state, the program performs more than `n` actions
that take their numbers from tokens. -/
abbrev Works (p : Process) (n : ℕ) {β : Type} (q : Server β) : Prop :=
  Exceeds (S := serverSig) Act.Numeric perform p luckyEnv n q

theorem works_stopEntries (p : Process) {before : List CText} {token : CText}
    (behind : List CText) (stopped : ℕ) (hbefore : ∀ t ∈ before, (scanWiggleStop t).isSome)
    (htoken : (scanWiggleStop token).isSome) :
    Works p before.length (stopEntries (before ++ token :: behind) stopped) := by
  induction before generalizing stopped with
  | nil =>
    obtain ⟨id, hid⟩ := Option.isSome_iff_exists.mp htoken
    rw [List.nil_append, stopEntries, hid]
    exact exceeds_zero trivial
  | cons t before ih =>
    obtain ⟨ht, hbefore⟩ := List.forall_mem_cons.mp hbefore
    obtain ⟨id, hid⟩ := Option.isSome_iff_exists.mp ht
    rw [List.cons_append, stopEntries, hid]
    exact exceeds_succ trivial (ih _ hbefore)

theorem works_startEntries {before : List CText} {token : CText} (behind : List CText)
    (started : ℕ) (hbefore : ∀ t ∈ before, (scanStartable t).isSome)
    (htoken : (scanStartable token).isSome) :
    Works (idleProcess .prechilling) before.length
      (startEntries (before ++ token :: behind) started) := by
  induction before generalizing started with
  | nil =>
    obtain ⟨r, hscan, hgood⟩ := isSome_scanStartable.mp htoken
    rw [List.nil_append, startEntries_tried _ _ hscan hgood]
    exact exceeds_zero trivial
  | cons t before ih =>
    obtain ⟨ht, hbefore⟩ := List.forall_mem_cons.mp hbefore
    obtain ⟨r, hscan, hgood⟩ := isSome_scanStartable.mp ht
    rw [List.cons_append, startEntries_tried _ _ hscan hgood]
    refine exceeds_succ trivial ?_
    -- on the idle table the entry is accepted, so that the loop goes on
    change Works _ _ (if (wiggleStartLocked _ luckyEnv r).2.1 ≠ 0 then _ else _)
    rw [if_neg (not_not.mpr (wiggleStart_idle .prechilling r))]
    exact ih _ hbefore

theorem works_copied {p : Process} {n : ℕ} {handler : Server Bool} (client : Client)
    (rest : Server Unit) (h : Works p n handler) : Works p n (copied client handler rest) :=
  exceeds_skip (exceeds_skip (h.bind _))

theorem works_handleWiggleStop (client : Client) {text : CText} {p : Process} {n : ℕ}
    (hstop : hasPrefix "WIGGLE_STOP" (stripCanPrefix text) = true)
    (h : Works p n (stopEntries (Strtok.tokens '|' (stripCanPrefix text)).tail 0)) :
    Works p n (commandHandleText realMode client text) := by
  obtain ⟨rest, hcommand⟩ := wiggle_command client (hasPrefix_wiggle hstop)
  rw [hcommand, if_pos hstop, handleWiggleStop_eq client hstop]
  exact works_copied client rest (h.bind _)

theorem works_handleWiggle (client : Client) {text : CText} {n : ℕ}
    (hwiggle : hasPrefix "WIGGLE" (stripCanPrefix text) = true)
    (hstop : hasPrefix "WIGGLE_STOP" (stripCanPrefix text) = false)
    (h : Works (idleProcess .prechilling) n
      (startEntries (Strtok.tokens '|' (stripCanPrefix text)).tail 0)) :
    Works (idleProcess .prechilling) n (commandHandleText realMode client text) := by
  obtain ⟨rest, hcommand⟩ := wiggle_command client hwiggle
  rw [hcommand, hstop, if_neg Bool.false_ne_true, handleWiggle_eq client hwiggle hstop]
  exact works_copied client rest (exceeds_skip (h.bind _))

theorem works_handleSetValve (client : Client) {text : CText} (p : Process)
    (hset : hasPrefix "SET_VALVE" (stripCanPrefix text) = true) {a : Act}
    (hread : ReadFrom a (.setValve, stripCanPrefix text)) :
    Works p 0 (commandHandleText realMode client text) := by
  obtain ⟨name, value, field, bound, hscan, hname, hvalue, -⟩ := hread
  have hhandler : Works p 0 (handleSetValve client (stripCanPrefix text)) := by
    unfold handleSetValve
    rw [hset, Bool.not_true, if_neg Bool.false_ne_true, hscan]
    dsimp only
    rw [hname]
    dsimp only
    rw [if_neg (UInt32.not_lt.mpr hvalue)]
    exact exceeds_zero trivial
  have hstate : hasPrefix "STATE#" (stripCanPrefix text) = false :=
    hasPrefix_other hset (by decide)
  rw [commandHandleText_other realMode client (not_readToggle_of_word hset (by decide))]
  refine exceeds_skip ?_
  change Works p 0 (handleAbort client (stripCanPrefix text) >>= _)
  rw [handleAbort_other client (ne_of_hasPrefix hset (by decide)), Program.pure_eq,
    Program.ret_bind, if_neg Bool.false_ne_true, handleStateCommand_other client hstate,
    Program.pure_eq, Program.ret_bind, if_neg Bool.false_ne_true]
  exact hhandler.bind _

/-- What is read as a raw command is no command with a word. -/
theorem parseRawCanFields_other {text : CText} {f : RawCanFields}
    (h : parseRawCanFields text = some f) :
    text ≠ "ABORT#8765".toList ∧ text ≠ "DROWN#8765".toList ∧ hasPrefix "STATE#" text = false := by
  have hother {word : CText} (hword : parseRawCanFields word = none) : text ≠ word := by
    rintro rfl
    cases hword.symm.trans h
  refine ⟨hother (by decide), hother (by decide), ?_⟩
  rw [← Bool.not_eq_true, hasPrefix_iff]
  rintro ⟨rest, rfl⟩
  have hnone : parseRawCanFields ("STATE#".toList ++ rest) = none := rfl
  cases hnone.symm.trans h

theorem works_handleRawCan (client : Client) {text : CText}
    (hset : hasPrefix "SET_VALVE" (stripCanPrefix text) = false)
    (hwiggle : hasPrefix "WIGGLE" (stripCanPrefix text) = false)
    (hfire : hasPrefix "FIRE#8765" (stripCanPrefix text) = false) {f : RawCanFields}
    (hparse : parseRawCanFields (stripCanPrefix text) = some f) :
    Works (idleProcess .hotfire) 0 (commandHandleText realMode client text) := by
  obtain ⟨habort, hdrown, hstate⟩ := parseRawCanFields_other hparse
  have htoggle : ¬ IsReadToggle text := by
    rintro (rfl | rfl)
    · cases hparse
    · cases hparse
  have hhandler : Works (idleProcess .hotfire) 0 (handleRawCan client (stripCanPrefix text)) := by
    unfold handleRawCan
    rw [hparse]
    exact exceeds_zero trivial
  rw [commandHandleText_other realMode client htoggle,
    dispatch_copyHandlers client habort hstate hset, copyHandlers_hotfire client hwiggle]
  refine exceeds_skip (exceeds_skip (exceeds_skip ?_))
  change Works _ 0 (handleDrown client (stripCanPrefix text) >>= _)
  rw [handleDrown_other client hdrown, Program.pure_eq, Program.ret_bind,
    if_neg Bool.false_ne_true, handleFire_other client hfire, Program.pure_eq,
    Program.ret_bind, if_neg Bool.false_ne_true]
  exact hhandler.bind _

/-- A process in `PRECHILLING` with one wiggle, on the id. -/
def wigglingProcess (id : UInt32) : Process :=
  (idleProcess .prechilling).setApp { (idleProcess .prechilling).app with
    wiggles := fun _ => { WiggleCommand.zero with id := id, active := true } }

theorem wigglingProcess_validIds {id : UInt32} (h : id ≤ 0x7FF) :
    (wigglingProcess id).app.wiggles.ValidIds := fun _ _ => h

theorem idleProcess_validIds (state : AppState) : (idleProcess state).app.wiggles.ValidIds :=
  fun _ hactive => absurd hactive Bool.false_ne_true

/-- In some process the handler gets to the token behind `n` others, and what it reads from
it takes effect. -/
def ActedOn (client : Client) (text : CText) (n : ℕ) (token : Token) : Prop :=
  ∃ p : Process, p.app.wiggles.ValidIds ∧ Works p n (commandHandleText realMode client text) ∧
    ∀ a, ReadFrom a token → a.FromToken ∧ TakesEffect p luckyEnv a

/-- A token of a list of entries, and the entries before it. -/
theorem entries_split {kind : TokenKind} {entries : List CText} {before behind : List Token}
    {token : Token} (h : entries.map (kind, ·) = before ++ token :: behind) :
    ∃ before' entry behind', entries = before' ++ entry :: behind' ∧
      before = before'.map (kind, ·) ∧ token = (kind, entry) := by
  obtain ⟨before', rest, rfl, rfl, hrest⟩ := List.map_eq_append_iff.mp h
  obtain ⟨entry, behind', rfl, rfl, -⟩ := List.map_eq_cons_iff.mp hrest
  exact ⟨before', entry, behind', rfl, rfl, rfl⟩

theorem singleton_split {token' token : Token} {before behind : List Token}
    (h : [token'] = before ++ token :: behind) : before = [] ∧ token = token' := by
  cases before with
  | nil => exact ⟨rfl, (List.cons.inj h).1.symm⟩
  | cons t before =>
    have hnil := (List.cons.inj h).2
    cases (List.append_eq_nil_iff.mp hnil.symm).2

theorem actedOn_setValve (client : Client) {text : CText}
    (hset : hasPrefix "SET_VALVE" (stripCanPrefix text) = true)
    (husable : Token.Usable (.setValve, stripCanPrefix text)) :
    ActedOn client text 0 (.setValve, stripCanPrefix text) := by
  obtain ⟨a₀, -, -, hread⟩ := husable
  refine ⟨idleProcess .prechilling, idleProcess_validIds _,
    works_handleSetValve client _ hset hread, ?_⟩
  rintro a ⟨name, value, field, bound, -, -, -, rfl⟩
  exact ⟨trivial, trivial⟩

theorem actedOn_wiggleStop (client : Client) {text : CText}
    (hstop : hasPrefix "WIGGLE_STOP" (stripCanPrefix text) = true)
    {before behind : List CText} {entry : CText}
    (hentries : (Strtok.tokens '|' (stripCanPrefix text)).tail = before ++ entry :: behind)
    (hbefore : ∀ t ∈ before, ∃ a, ReadFrom a (.wiggleStop, t))
    (husable : Token.Usable (.wiggleStop, entry)) :
    ActedOn client text before.length (.wiggleStop, entry) := by
  obtain ⟨a₀, -, hrange, id, hscan, rfl⟩ := husable
  have hsome : (scanWiggleStop entry).isSome := Option.isSome_iff_exists.mpr ⟨id, hscan⟩
  have hall : ∀ t ∈ before, (scanWiggleStop t).isSome := by
    intro t ht
    obtain ⟨-, id', hscan', -⟩ := hbefore t ht
    exact Option.isSome_iff_exists.mpr ⟨id', hscan'⟩
  refine ⟨wigglingProcess id, wigglingProcess_validIds hrange,
    works_handleWiggleStop client hstop ?_, ?_⟩
  · rw [hentries]
    exact works_stopEntries _ behind 0 hall hsome
  · rintro a ⟨id', hscan', rfl⟩
    obtain rfl := Option.some.inj (hscan.symm.trans hscan')
    refine ⟨trivial, ?_⟩
    rcases wiggleStopLocked_cases (wigglingProcess id).app luckyEnv id with ⟨hnot, -⟩ | ⟨-, hfound, -⟩
    · exact absurd ⟨⟨0, by decide⟩, rfl, rfl⟩ hnot
    · exact hfound

theorem actedOn_wiggle (client : Client) {text : CText}
    (hwiggle : hasPrefix "WIGGLE" (stripCanPrefix text) = true)
    (hstop : hasPrefix "WIGGLE_STOP" (stripCanPrefix text) = false)
    {before behind : List CText} {entry : CText}
    (hentries : (Strtok.tokens '|' (stripCanPrefix text)).tail = before ++ entry :: behind)
    (hbefore : ∀ t ∈ before, ∃ a, ReadFrom a (.wiggle, t))
    (husable : Token.Usable (.wiggle, entry)) :
    ActedOn client text before.length (.wiggle, entry) := by
  have hsome {t : CText} {a : Act} (h : ReadFrom a (.wiggle, t)) : (scanStartable t).isSome := by
    obtain ⟨r, hscan, hgood, -⟩ := h
    exact isSome_scanStartable.mpr ⟨r, hscan, hgood⟩
  obtain ⟨a₀, -, -, hread⟩ := husable
  refine ⟨idleProcess .prechilling, idleProcess_validIds _,
    works_handleWiggle client hwiggle hstop ?_, ?_⟩
  · rw [hentries]
    refine works_startEntries behind 0 ?_ (hsome hread)
    intro t ht
    obtain ⟨a, ha⟩ := hbefore t ht
    exact hsome ha
  · rintro a ⟨r, -, -, rfl⟩
    exact ⟨trivial, wiggleStart_idle .prechilling r⟩

theorem actedOn_rawCan (client : Client) {text : CText}
    (hset : hasPrefix "SET_VALVE" (stripCanPrefix text) = false)
    (hwiggle : hasPrefix "WIGGLE" (stripCanPrefix text) = false)
    (hfire : hasPrefix "FIRE#8765" (stripCanPrefix text) = false)
    (husable : Token.Usable (.rawCan, stripCanPrefix text)) :
    ActedOn client text 0 (.rawCan, stripCanPrefix text) := by
  obtain ⟨a₀, -, hrange, f, hparse, rfl⟩ := husable
  refine ⟨idleProcess .hotfire, idleProcess_validIds _,
    works_handleRawCan client hset hwiggle hfire hparse, ?_⟩
  rintro a ⟨f', hparse', rfl⟩
  obtain rfl := Option.some.inj (hparse.symm.trans hparse')
  exact ⟨trivial, canBusSendCommand_lucky (by decide) (UInt32.not_lt.mpr hrange)⟩

/-- Every usable token that the handler gets to is acted on. -/
theorem actedOn_of_usable (client : Client) {text : CText} {before behind : List Token}
    {token : Token} (htokens : commandTokens (stripCanPrefix text) = before ++ token :: behind)
    (hbefore : ∀ t ∈ before, ∃ a, ReadFrom a t) (husable : token.Usable) :
    ActedOn client text before.length token := by
  unfold commandTokens at htokens
  cases hset : hasPrefix "SET_VALVE" (stripCanPrefix text) with
  | true =>
    rw [if_pos hset] at htokens
    obtain ⟨rfl, rfl⟩ := singleton_split htokens
    exact actedOn_setValve client hset husable
  | false =>
    rw [hset, if_neg Bool.false_ne_true] at htokens
    cases hstop : hasPrefix "WIGGLE_STOP" (stripCanPrefix text) with
    | true =>
      rw [if_pos hstop] at htokens
      obtain ⟨before', entry, behind', hentries, rfl, rfl⟩ := entries_split htokens
      rw [List.length_map]
      exact actedOn_wiggleStop client hstop hentries
        (fun t ht => hbefore _ (List.mem_map_of_mem ht)) husable
    | false =>
      rw [hstop, if_neg Bool.false_ne_true] at htokens
      cases hwiggle : hasPrefix "WIGGLE" (stripCanPrefix text) with
      | true =>
        rw [if_pos hwiggle] at htokens
        obtain ⟨before', entry, behind', hentries, rfl, rfl⟩ := entries_split htokens
        rw [List.length_map]
        exact actedOn_wiggle client hwiggle hstop hentries
          (fun t ht => hbefore _ (List.mem_map_of_mem ht)) husable
      | false =>
        rw [hwiggle, if_neg Bool.false_ne_true] at htokens
        cases hfire : hasPrefix "FIRE#8765" (stripCanPrefix text) with
        | true =>
          -- the blocks of a sequence are no tokens of this kind
          rw [if_pos hfire] at htokens
          obtain ⟨rfl, rfl⟩ := singleton_split htokens
          obtain ⟨a, hfrom, -, strdupOk, args, -, rfl⟩ := husable
          exact hfrom.elim
        | false =>
          rw [hfire, if_neg Bool.false_ne_true] at htokens
          obtain ⟨rfl, rfl⟩ := singleton_split htokens
          exact actedOn_rawCan client hset hwiggle hfire husable

/-- What is left over behind a usable token is ignored in some run. -/
theorem leftovers_ignored (client : Client) {text : CText}
    (h : ¬ NoLeftovers (stripCanPrefix text)) :
    ∃ tr, Among perform (fun p : Process => p.app.wiggles.ValidIds)
      (commandHandleText realMode client text) tr ∧ ¬ NothingIgnored (stripCanPrefix text) tr := by
  unfold NoLeftovers at h
  push Not at h
  obtain ⟨before, token, behind, htokens, hbefore, husable, hleft⟩ := h
  obtain ⟨p, hids, hwork, heffect⟩ := actedOn_of_usable client htokens hbefore husable
  let tr := answered (S := serverSig) perform p luckyEnv (commandHandleText realMode client text)
  have htr : Among perform (fun p : Process => p.app.wiggles.ValidIds)
      (commandHandleText realMode client text) tr :=
    among_answered (C := fun p : Process => p.app.wiggles.ValidIds) hids _
  obtain ⟨-, hzip⟩ := (reading_commandHandleText realMode client text).consumed htr
  refine ⟨tr, htr, ?_⟩
  intro hnothing
  have hi : before.length < (commandTokens (stripCanPrefix text)).length := by
    rw [htokens, List.length_append, List.length_cons]
    omega
  have htoken : (commandTokens (stripCanPrefix text))[before.length] = token := by
    simp only [htokens, List.getElem_append_right (le_refl before.length), Nat.sub_self,
      List.getElem_cons_zero]
  have hstep : before.length < (markedSteps (S := serverSig) Act.Numeric tr).length := hwork
  have hx := mem_zip_iff_getElem.mpr ⟨before.length, hstep, hi, rfl⟩
  have hread := (hzip _ hx).2
  obtain ⟨hstate, henv⟩ := state_of_answered (List.mem_of_mem_filter (List.getElem_mem hstep))
  rw [htoken] at hread
  obtain ⟨hfrom, htakes⟩ := heffect _ hread
  rw [← hstate, ← henv] at htakes
  refine hleft ?_
  rw [← htoken]
  exact hnothing.2 _ hx hfrom htakes

/-- Malformed trailing input is never ignored exactly when there is none behind a token that
is used: the handlers count the items that are read and do not look at the rest. -/
theorem trailing_input_refused (config : AppConfig) (client : Client) (text : CText) :
    (∀ tr, Among perform (fun p : Process => p.app.wiggles.ValidIds)
        (commandHandleText config client text) tr → NothingIgnored (stripCanPrefix text) tr) ↔
      config.testingMode = true ∨ config.readOnly = true ∨ NoLeftovers (stripCanPrefix text) := by
  by_cases hguard : config.testingMode = true ∨ config.readOnly = true
  · refine iff_of_true (fun tr htr => nothingIgnored_guarded hguard htr) ?_
    exact hguard.elim Or.inl (fun h => Or.inr (Or.inl h))
  obtain ⟨htesting, hread⟩ := not_or.mp hguard
  rw [or_iff_right htesting, or_iff_right hread]
  obtain ⟨readOnly, testingMode⟩ := config
  obtain rfl : testingMode = false := (Bool.not_eq_true _).mp htesting
  obtain rfl : readOnly = false := (Bool.not_eq_true _).mp hread
  constructor
  · intro h
    by_contra hleft
    obtain ⟨tr, htr, hignored⟩ := leftovers_ignored client hleft
    exact hignored (h tr htr)
  · intro h tr htr
    exact nothingIgnored_of_noLeftovers h htr

/-- A sixth field that is no numeral counts as left out, and the wiggle runs without end. -/
theorem mistyped_total_ignored :
    ∃ tr, Among perform (fun p : Process => p.app.wiggles.ValidIds)
      (commandHandleText realMode 0 "WIGGLE|101#1#2#3#5#abc".toList) tr ∧
        ¬ NothingIgnored "WIGGLE|101#1#2#3#5#abc".toList tr := by
  have hscan : scanWiggle "101#1#2#3#5#abc".toList = some ⟨0x101, 1, 2, 3, 5, 0⟩ := by decide
  have htokens : commandTokens "WIGGLE|101#1#2#3#5#abc".toList =
      [(.wiggle, "101#1#2#3#5#abc".toList)] := by decide
  have hgood : ¬ ((5 : UInt32) = 0 ∨ (0x101 : UInt32) > 0x7FF) := by decide
  have hrest : ∀ fs ∈ TokenKind.wiggle.formats,
      (scanAll fs "101#1#2#3#5#abc".toList).map Prod.snd ≠ some [] := by decide
  refine @leftovers_ignored 0 "WIGGLE|101#1#2#3#5#abc".toList ?_
  intro hnone
  obtain ⟨fs, hfs, items, hall⟩ := hnone [] _ [] htokens nofun
    ⟨.wiggleStart ⟨0x101, 1, 2, 3, 5, 0⟩, trivial, trivial, _, hscan, hgood, rfl⟩
  refine hrest fs hfs ?_
  rw [show scanAll fs "101#1#2#3#5#abc".toList = some (items, []) from hall]
  rfl

end WsServer
