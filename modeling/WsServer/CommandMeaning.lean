import WsServer.AllOrNothing

/-! What a command text asks for, whichever mode the server is in: the commands, how
testing mode reports each of them, and what it takes to carry one out. -/
namespace WsServer
open Interaction Program

/-- A command with the values of its fields. -/
inductive Command where
  | abort
  | state (requested : AppState)
  | setValve (field : ValveField) (value : UInt32)
  | wiggleStop (ids : List UInt32)
  | wiggle (requests : List WiggleRequest)
  | drown
  | fire (config : FiringSequenceConfig)
  | rawCan (fields : RawCanFields)

def ValveField.word : ValveField → String
  | .loxMain => "LOX_MAIN"
  | .loxVent => "LOX_VENT"
  | .loxMainAngleOpen => "LOX_MAIN_ANGLE_OPEN"
  | .loxVentAngleClose => "LOX_VENT_ANGLE_CLOSE"

/-- The reply of testing mode that reports the command as parsed. -/
def Command.report : Command → String
  | .abort => "TESTING parsed ABORT command"
  | .state requested => "TESTING parsed STATE command: " ++ appStateLabel requested
  | .setValve field value => Printf.truncated 512
      ("TESTING parsed SET_VALVE: " ++ field.word ++ "=0x" ++ Printf.hexPadded 3 value.toNat)
  | .wiggleStop ids => Printf.truncated 512
      ("TESTING parsed WIGGLE_STOP: " ++ toString ids.length ++ " id(s)")
  | .wiggle requests => Printf.truncated 512
      ("TESTING parsed WIGGLE: " ++ toString requests.length ++ " block(s)")
  | .drown => "TESTING parsed DROWN command"
  | .fire config => testingFireMessage config
  | .rawCan f =>
    let parsed := "TESTING parsed RAW CAN: id=0x" ++ Printf.hexPadded 3 f.id.toNat ++
      " value=0x" ++ Printf.hexPadded 4 f.value.toNat
    Printf.truncated 512
      (if f.hasDuration then parsed ++ " duration=" ++ toString f.durationMs.toNat else parsed)

/-- The parts of which commands are carried out. -/
inductive Effect where
  | requestAbort
  | stopAll
  | storeState (state : AppState)
  | setValve (field : ValveField) (value : UInt32)
  | stop (id : UInt32)
  | start (request : WiggleRequest)
  | sequence (config : FiringSequenceConfig)
  | frame (command : CanCommand)
  | log (kind text : String)

/-- What a step of a run contributes: stopping is attempted, the others are done. -/
def effectOf : Process × Env × Act → Option Effect
  | (_, _, .requestAbort) => some .requestAbort
  | (_, _, .wiggleStopAll true) => some .stopAll
  | (_, _, .storeState state) => some (.storeState state)
  | (_, _, .setValve field value) => some (.setValve field value)
  | (_, _, .wiggleStop id) => some (.stop id)
  | (p, env, .wiggleStart r) =>
    if (wiggleStartLocked p.app env r).2.1 = 0 then some (.start r) else none
  | (_, env, .createWorker args) => if env.thread then some (.sequence args.config) else none
  | (p, env, .canSend c) =>
    if canBusSendCommand p.app.canFd c (env.write 0) = .sent then some (.frame c) else none
  | (_, _, .log kind text) => some (.log kind text)
  | _ => none

def effects (tr : List (Process × Env × Act)) : List Effect := tr.filterMap effectOf

/-- The text that a step sends to a client. -/
def replyOf (client : Client) : Process × Env × Act → Option String
  | (_, _, .sendText client' msg) => if client' = client then some msg else none
  | _ => none

def repliesTo (client : Client) (tr : List (Process × Env × Act)) : List String :=
  tr.filterMap (replyOf client)

/-- What is done where a command is carried out in full. -/
def Command.Effects : Command → List Effect → Prop
  | .abort, es => es = [.requestAbort, .stopAll]
  | .state .prechilling, es => es = [.storeState .prechilling]
  | .state .hotfire, es => es = [.storeState .hotfire, .stopAll]
  | .setValve field value, es => es = [.setValve field value]
  | .wiggleStop ids, es => ids ≠ [] ∧ es = ids.map .stop
  | .wiggle requests, es => requests ≠ [] ∧ es = requests.map .start
  | .drown, es => ∃ profile, es = [.sequence (drownConfig profile)]
  | .fire config, es => config.drownInjector = false ∧ es = [.sequence config]
  | .rawCan f, es => es = [.frame ⟨f.id, f.value, f.durationMs⟩, .log "CAN_TX"
      (if f.hasDuration then formatCanCommand ⟨f.id, f.value, f.durationMs⟩
        else formatIdValue f.id f.value)]

/-- A run carries out the command: all of it, and it does not answer with a failure. -/
def CarriesOut (client : Client) (tr : List (Process × Env × Act)) (c : Command) : Prop :=
  c.Effects (effects tr) ∧ ∀ msg ∈ repliesTo client tr, msg ∉ wiggleFailures

/-- The states from which the command can be carried out. -/
def Admits (p : Process) : Command → Prop
  | .abort | .state _ | .setValve _ _ | .wiggleStop _ => True
  | .wiggle requests => p.app.state = .prechilling ∧
      Room p.app.wiggles (requests.map WiggleRequest.id)
  | .drown => p.app.state = .hotfire ∧ p.app.sequenceActive = false ∧
      p.app.valveProfile.loxMainValveId ≠ 0 ∧ p.app.valveProfile.loxVentValveId ≠ 0
  | .fire _ => p.app.state = .hotfire ∧ p.app.sequenceActive = false
  | .rawCan _ => p.app.state = .hotfire ∧ 0 ≤ p.app.canFd

/-- Allocation, thread creation and writes on the bus succeed. -/
def Lucky (env : Env) : Prop :=
  env.alloc = true ∧ env.thread = true ∧ ∀ n, env.write n = none

/-- The entry is one that `wiggle_start` does not refuse at once. -/
def scanStartable (token : CText) : Option WiggleRequest :=
  (scanWiggle token).filter (fun r => !decide r.Refused)

/-- The command of a list of entries: all of them are read, and there is one at least. -/
def listed {α : Type} (scan : CText → Option α) (command : List α → Command)
    (entries : List CText) : Option Command :=
  if entries = [] then none else (entries.mapM scan).map command

/-- The commands of `HOTFIRE`. -/
def commandBehindGate (text : CText) : Option Command :=
  if text = "DROWN#8765".toList then some .drown
  else if hasPrefix "FIRE#8765" text then (firingSequenceParse true text).map .fire
  else (parseRawCanFields text).bind
    (fun f => if f.id > 0x7FF then none else some (.rawCan f))

/-- The command that a text asks for. -/
def commandOf (text : CText) : Option Command :=
  if text = "ABORT#8765".toList then some .abort
  else if hasPrefix "STATE#" text then
    if text.drop 6 = "PRECHILLING".toList then some (.state .prechilling)
    else if text.drop 6 = "HOTFIRE".toList then some (.state .hotfire)
    else none
  else if hasPrefix "SET_VALVE" text then do
    let (name, value) ← scanSetValve text
    let (field, bound) ← valveFieldOf name
    if value > bound then none else some (.setValve field value)
  else if hasPrefix "WIGGLE_STOP" text then
    listed scanWiggleStop .wiggleStop (Strtok.tokens '|' text).tail
  else if hasPrefix "WIGGLE" text then
    listed scanStartable .wiggle (Strtok.tokens '|' text).tail
  else commandBehindGate text

/-! ### Commands and what they do determine each other -/

theorem effects_ne_nil {c : Command} {es : List Effect} (h : c.Effects es) : es ≠ [] := by
  rintro rfl
  cases c with
  | abort => cases h
  | state requested => cases requested <;> cases h
  | setValve field value => cases h
  | wiggleStop ids => exact h.1 (List.map_eq_nil_iff.mp h.2.symm)
  | wiggle requests => exact h.1 (List.map_eq_nil_iff.mp h.2.symm)
  | drown =>
    obtain ⟨profile, h⟩ := h
    cases h
  | fire config => cases h.2
  | rawCan f => cases h

theorem formatIdValue_ne (c : CanCommand) : formatCanCommand c ≠ formatIdValue c.id c.value := by
  intro h
  have hlength := congrArg (fun s => s.toList.length) h
  simp only [formatCanCommand, String.toList_append, List.length_append] at hlength
  have hone : "#".toList.length = 1 := rfl
  omega

def Effect.stopId : Effect → Option UInt32
  | .stop id => some id
  | _ => none

def Effect.startRequest : Effect → Option WiggleRequest
  | .start r => some r
  | _ => none

/-- The command that has these effects, if there is one. -/
def Command.ofEffects : List Effect → Option Command
  | .requestAbort :: _ => some .abort
  | .storeState requested :: _ => some (.state requested)
  | .setValve field value :: _ => some (.setValve field value)
  | .stop id :: es => some (.wiggleStop (id :: es.filterMap Effect.stopId))
  | .start r :: es => some (.wiggle (r :: es.filterMap Effect.startRequest))
  | .sequence config :: _ => some (if config.drownInjector then .drown else .fire config)
  | .frame c :: .log _ text :: _ =>
    some (.rawCan ⟨c.id, c.value, c.durationMs, text == formatCanCommand c⟩)
  | _ => none

theorem ofEffects_eq {c : Command} {es : List Effect} (h : c.Effects es) :
    Command.ofEffects es = some c := by
  cases c with
  | abort =>
    rw [show es = _ from h]
    rfl
  | state requested => cases requested <;> rw [show es = _ from h] <;> rfl
  | setValve field value =>
    rw [show es = _ from h]
    rfl
  | wiggleStop ids =>
    obtain ⟨hne, rfl⟩ := h
    obtain ⟨id, ids, rfl⟩ := List.exists_cons_of_ne_nil hne
    have hrest : (ids.map Effect.stop).filterMap Effect.stopId = ids := by
      rw [List.filterMap_map]
      exact List.filterMap_some
    rw [List.map_cons, Command.ofEffects, hrest]
  | wiggle requests =>
    obtain ⟨hne, rfl⟩ := h
    obtain ⟨r, requests, rfl⟩ := List.exists_cons_of_ne_nil hne
    have hrest : (requests.map Effect.start).filterMap Effect.startRequest = requests := by
      rw [List.filterMap_map]
      exact List.filterMap_some
    rw [List.map_cons, Command.ofEffects, hrest]
  | drown =>
    obtain ⟨profile, rfl⟩ := h
    rfl
  | fire config =>
    obtain ⟨hdrown, rfl⟩ := h
    rw [Command.ofEffects, hdrown]
    rfl
  | rawCan f =>
    obtain ⟨id, value, durationMs, hasDuration⟩ := f
    rw [show es = _ from h]
    cases hasDuration with
    | true =>
      rw [if_pos rfl, Command.ofEffects, beq_self_eq_true]
    | false =>
      -- the log line of a command without a duration is shorter, so it is told from the other
      have hne : (formatIdValue id value == formatCanCommand ⟨id, value, durationMs⟩) = false :=
        beq_eq_false_iff_ne.mpr (formatIdValue_ne ⟨id, value, durationMs⟩).symm
      rw [if_neg Bool.false_ne_true, Command.ofEffects, hne]

/-- No two commands are carried out by the same effects. -/
theorem effects_unique {c c' : Command} {es : List Effect} (h : c.Effects es)
    (h' : c'.Effects es) : c = c' :=
  Option.some.inj ((ofEffects_eq h).symm.trans (ofEffects_eq h'))

/-! ### Lists of entries -/

/-- All entries are read, or there is no list. -/
theorem mapM_eq_some_iff {α β : Type} (f : α → Option β) (l : List α) (bs : List β) :
    l.mapM f = some bs ↔ (∀ a ∈ l, (f a).isSome) ∧ bs = l.filterMap f := by
  induction l generalizing bs with
  | nil =>
    rw [List.mapM_nil, List.filterMap_nil]
    constructor
    · intro h
      exact ⟨nofun, (Option.some.inj h).symm⟩
    · rintro ⟨-, rfl⟩
      rfl
  | cons a l ih =>
    rw [List.mapM_cons, List.forall_mem_cons]
    cases ha : f a with
    | none =>
      refine iff_of_false nofun ?_
      rintro ⟨⟨h, -⟩, -⟩
      cases h
    | some b =>
      rw [List.filterMap_cons_some ha]
      cases hl : l.mapM f with
      | none =>
        refine iff_of_false nofun ?_
        rintro ⟨⟨-, hall⟩, -⟩
        cases hl.symm.trans ((ih _).mpr ⟨hall, rfl⟩)
      | some bs' =>
        obtain ⟨hall, rfl⟩ := (ih bs').mp hl
        constructor
        · intro h
          exact ⟨⟨rfl, hall⟩, (Option.some.inj h).symm⟩
        · rintro ⟨-, rfl⟩
          rfl

theorem listed_eq_some {α : Type} {scan : CText → Option α} {command : List α → Command}
    {entries : List CText} {c : Command} : listed scan command entries = some c ↔
      (entries ≠ [] ∧ ∀ token ∈ entries, (scan token).isSome) ∧
        c = command (entries.filterMap scan) := by
  unfold listed
  split_ifs with hnil
  · exact iff_of_false nofun (fun h => h.1.1 hnil)
  rw [Option.map_eq_some_iff]
  constructor
  · rintro ⟨as, has, rfl⟩
    obtain ⟨hall, rfl⟩ := (mapM_eq_some_iff scan entries as).mp has
    exact ⟨⟨hnil, hall⟩, rfl⟩
  · rintro ⟨⟨-, hall⟩, rfl⟩
    exact ⟨_, (mapM_eq_some_iff scan entries _).mpr ⟨hall, rfl⟩, rfl⟩

theorem filterMap_ne_nil {α : Type} {scan : CText → Option α} {entries : List CText}
    (hne : entries ≠ []) (hall : ∀ token ∈ entries, (scan token).isSome) :
    entries.filterMap scan ≠ [] := by
  obtain ⟨token, rest, rfl⟩ := List.exists_cons_of_ne_nil hne
  obtain ⟨a, ha⟩ := Option.isSome_iff_exists.mp (hall token List.mem_cons_self)
  rw [List.filterMap_cons_some ha]
  exact List.cons_ne_nil _ _

theorem scanStartable_eq_some {token : CText} {r : WiggleRequest} :
    scanStartable token = some r ↔ scanWiggle token = some r ∧ ¬ r.Refused := by
  rw [scanStartable, Option.filter_eq_some_iff, Bool.not_eq_true', decide_eq_false_iff_not]

theorem isSome_scanStartable {token : CText} :
    (scanStartable token).isSome ↔ ∃ r, scanWiggle token = some r ∧ ¬ r.Refused := by
  rw [Option.isSome_iff_exists]
  exact exists_congr (fun r => scanStartable_eq_some)

theorem filterMap_scanStartable {entries : List CText}
    (h : ∀ token ∈ entries, (scanStartable token).isSome) :
    entries.filterMap scanStartable = entries.filterMap scanWiggle := by
  apply List.filterMap_congr
  intro token htoken
  obtain ⟨r, hscan, hgood⟩ := isSome_scanStartable.mp (h token htoken)
  rw [hscan, scanStartable_eq_some.mpr ⟨hscan, hgood⟩]

end WsServer
