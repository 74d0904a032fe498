import Mathlib.Algebra.BigOperators.Group.Finset.Basic
import Mathlib.Algebra.Order.Group.Multiset
import Mathlib.Data.List.ReduceOption
import WsServer.StateNews
import WsServer.WiggleMap

/-! What the server is for, in its own terms: a controller that has a state, a finite map of
wiggles, at most one firing sequence, a valve profile and a set of clients, and that reacts to
requests one at a time. It knows neither texts nor slots nor locks. -/
namespace WsServer
open SlotTable

/-- The firing sequence, as far as the controller depends on it. -/
inductive Firing where
  | idle
  | running (aborted : Bool)
  deriving DecidableEq

/-- An abort is noticed by the sequence that runs, and by no later one. -/
def Firing.abort : Firing → Firing
  | .idle => .idle
  | .running _ => .running true

structure Controller where
  wiggling : Wiggling
  firing : Firing
  profile : ValveProfile
  /-- Whether a client gets no broadcasts, for each client that is connected. -/
  writeOnly : Client → Option Bool

/-- What others notice of a call: the texts for one client, those for all, the frames of the
wiggles, the raw frames with what became of them, and the firing sequences that are launched. -/
structure Reaction where
  replies : List (Client × String) := []
  announced : List String := []
  wiggled : Multiset CanCommand := 0
  raw : List (CanCommand × SendResult) := []
  launched : List SequenceWorkerArgs := []

/-- What the system grants to a call: the copies of texts that it makes, one after the other,
memory and a thread for a firing sequence, the write of a raw frame, and the readings of the
clock where wiggles are started. -/
structure Luck where
  copies : ℕ → Bool
  memory : Bool
  thread : Bool
  written : SendResult
  clock : ℕ → UInt64

/-- Behind the first copy. -/
def Luck.behindCopy (luck : Luck) : Luck := { luck with copies := fun n => luck.copies (n+1) }

/-! ### Requests -/

/-- What a text asks for. A field that cannot be read is `none`. -/
inductive Request where
  | writeOnly (enabled : Bool)
  | abort
  | state (requested : Option AppState)
  | setValve (setting : Except String (ValveField × UInt32))
  | wiggleStop (entries : List (Option UInt32))
  | wiggle (entries : List (Option WiggleRequest))
  | drown
  | fire (config : Option FiringSequenceConfig)
  | rawCan (fields : RawCanFields)
  | unknown

/-- The requests for which the server needs a copy of the text. -/
def Request.IsCopied : Request → Prop
  | .wiggleStop _ | .wiggle _ | .drown | .fire _ | .rawCan _ | .unknown => True
  | _ => False

/-- The requests that are ignored in `PRECHILLING`. -/
def Request.IsGated : Request → Prop
  | .drown | .fire _ | .rawCan _ | .unknown => True
  | _ => False

instance : DecidablePred Request.IsCopied
  | .wiggleStop _ | .wiggle _ | .drown | .fire _ | .rawCan _ | .unknown => isTrue trivial
  | .writeOnly _ | .abort | .state _ | .setValve _ => isFalse id

instance : DecidablePred Request.IsGated
  | .drown | .fire _ | .rawCan _ | .unknown => isTrue trivial
  | .writeOnly _ | .abort | .state _ | .setValve _ | .wiggleStop _ | .wiggle _ => isFalse id

/-- The setting that a `SET_VALVE` text asks for, or why it is none. -/
def settingOf (text : CText) : Except String (ValveField × UInt32) :=
  match scanSetValve text with
  | none => .error "Error setting valve id"
  | some (name, value) =>
    match (valveFieldOf name).filter (fun x => value ≤ x.2) with
    | none => .error "Invalid valve id or value"
    | some (field, _) => .ok (field, value)

/-- The state that a `STATE#` text names. -/
def stateOf (name : CText) : Option AppState :=
  if name = "PRECHILLING".toList then some .prechilling
  else if name = "HOTFIRE".toList then some .hotfire
  else none

/-- The request of a text that no handler in front of the gate takes. -/
def gatedRequest (text : CText) : Request :=
  if text = "DROWN#8765".toList then .drown
  else if hasPrefix "FIRE#8765" text then .fire (firingSequenceParse true text)
  else (parseRawCanFields text).elim .unknown .rawCan

/-- The request of a text that is no read toggle of a client. -/
def commandRequest (text : CText) : Request :=
  if text = "ABORT#8765".toList then .abort
  else if hasPrefix "STATE#" text then .state (stateOf (text.drop 6))
  else if hasPrefix "SET_VALVE" text then .setValve (settingOf text)
  else if hasPrefix "WIGGLE_STOP" text then
    .wiggleStop ((Strtok.tokens '|' text).tail.map scanWiggleStop)
  else if hasPrefix "WIGGLE" text then .wiggle ((Strtok.tokens '|' text).tail.map scanWiggle)
  else gatedRequest text

/-- The request of a text: a client that is connected can toggle its reading. -/
def requestOf (connected : Bool) (text : CText) : Request :=
  if connected ∧ text = "READ-DISABLE".toList then .writeOnly true
  else if connected ∧ text = "READ-ENABLE".toList then .writeOnly false
  else commandRequest (stripCanPrefix text)

/-! ### The wiggles -/

/-- What the wiggle of an id sends when it is stopped: nothing if there is none. -/
def WiggleMap.exitOf (m : WiggleMap) (id : UInt32) : Multiset CanCommand :=
  (m.lookup id).elim 0 (fun p => {⟨id, p.exitValue, 0⟩})

/-- The map without some ids. -/
def WiggleMap.without (m : WiggleMap) (ids : List UInt32) : WiggleMap :=
  mapFilter (fun id p => if id ∈ ids then none else some p) m

/-- The ids of a list that there are wiggles for. -/
def WiggleMap.running (m : WiggleMap) (ids : List UInt32) : Finset UInt32 :=
  ids.toFinset.filter (· ∈ m)

/-- The entries that are started: those up to the first that cannot be read or that the map
does not take, each with the time of its start. -/
def Wiggling.started (w : Wiggling) : List (Option WiggleRequest) → (ℕ → UInt64) →
    List (WiggleRequest × UInt64)
  | some r :: entries, clock =>
    if (w.call (clock 0) (.start r)).2.answer = 0 then
      (r, clock 0) :: (w.call (clock 0) (.start r)).1.started entries (fun n => clock (n+1))
    else []
  | _, _ => []

/-- The map behind some starts. -/
def WiggleMap.startAll (m : WiggleMap) (started : List (WiggleRequest × UInt64)) : WiggleMap :=
  started.foldl (fun m x => m.insert x.1.id (x.1.params x.2)) m

/-- The announcement of how many wiggles have been stopped together. -/
def WiggleMap.stopNews (m : WiggleMap) : List String :=
  if 0 < m.keys.card then ["Stopped " ++ toString m.keys.card ++ " active wiggle(s)"] else []

/-! ### What the controller does -/

/-- A call that only replies. -/
def Controller.reply (k : Controller) (client : Client) (msg : String) : Controller × Reaction :=
  (k, { replies := [(client, msg)] })

/-- A sequence is launched if none runs and there is memory and a thread for it. Its worker
replies; without one the client gets the refusal. -/
def Controller.launch (k : Controller) (luck : Luck) (args : SequenceWorkerArgs)
    (refusal : String) : Controller × Reaction :=
  if k.firing = .idle ∧ luck.memory ∧ luck.thread then
    ({ k with firing := .running false }, { launched := [args] })
  else k.reply args.client refusal

/-- What the worker of a client is given. -/
def sequenceArgs (client : Client) (config : FiringSequenceConfig)
    (startedMessage completedMessage failedMessage : String) : SequenceWorkerArgs where
  client := client
  config := config
  startedMessage := Printf.truncated 160 startedMessage
  completedMessage := Printf.truncated 128 completedMessage
  failedMessage := Printf.truncated 128 failedMessage

def drownWorkerArgs (client : Client) (profile : ValveProfile) : SequenceWorkerArgs :=
  sequenceArgs client (drownConfig profile) (Printf.truncated 160 (drownStartedMessage profile))
    "Injector drowned successfully" "Error drowning injector"

def fireWorkerArgs (client : Client) (config : FiringSequenceConfig) : SequenceWorkerArgs :=
  sequenceArgs client config (fireStartedMessage config) "Firing sequence completed"
    "Firing sequence failed to start"

/-- A new state is announced, and `HOTFIRE` stops all wiggles. -/
def Controller.enter (k : Controller) : AppState → Controller × Reaction
  | .prechilling =>
    ({ k with wiggling := { k.wiggling with state := .prechilling } },
      { announced := [stateNews .prechilling] })
  | .hotfire =>
    ({ k with wiggling := ⟨∅, .hotfire⟩ },
      { announced := k.wiggling.map.stopNews ++ [stateNews .hotfire]
        wiggled := k.wiggling.map.exits true })

/-- `STATE#`: the reply tells whether the state is another one. -/
def Controller.enterState (k : Controller) (client : Client) (state : AppState) :
    Controller × Reaction :=
  let reply := "State set to " ++ appStateLabel state ++
    (if k.wiggling.state ≠ state then "" else " (unchanged)")
  ((k.enter state).1, { (k.enter state).2 with replies := [(client, reply)] })

/-- `WIGGLE_STOP`: the ids in front of the first entry that cannot be read are stopped, those
that run, whatever is answered. -/
def Controller.stopWiggles (k : Controller) (client : Client) (entries : List (Option UInt32)) :
    Controller × Reaction :=
  let ids := (entries.takeWhile Option.isSome).reduceOption
  let stopped := k.wiggling.map.running ids
  let reply :=
    if none ∈ entries then "WIGGLE_STOP failed: invalid format"
    else if stopped.card = 0 then "WIGGLE_STOP: no active wiggles for requested IDs"
    else Printf.truncated 96 ("Stopped wiggle for " ++ toString stopped.card ++ " sensor(s)")
  ({ k with wiggling := { k.wiggling with map := k.wiggling.map.without ids } },
    { replies := [(client, reply)], wiggled := ∑ id ∈ stopped, k.wiggling.map.exitOf id })

/-- `WIGGLE`: the entries are started up to the first that cannot be, and the reply tells
whether these are all. -/
def Controller.startWiggles (k : Controller) (luck : Luck) (client : Client)
    (entries : List (Option WiggleRequest)) : Controller × Reaction :=
  if k.wiggling.state ≠ .prechilling then
    k.reply client "WIGGLE rejected: system not in PRECHILLING"
  else
    let started := k.wiggling.started entries luck.clock
    let reply :=
      if started.length < entries.length ∨ entries = [] then
        "WIGGLE failed: invalid format or no available slots"
      else Printf.truncated 96 ("WIGGLE started for " ++ toString entries.length ++ " sensor(s)")
    ({ k with wiggling := { k.wiggling with map := k.wiggling.map.startAll started } },
      { replies := [(client, reply)]
        wiggled := started.map (fun x => (⟨x.1.id, x.1.startValue, 0⟩ : CanCommand)) })

/-- A raw frame is sent as it is. -/
def Controller.sendRaw (k : Controller) (luck : Luck) (client : Client) (f : RawCanFields) :
    Controller × Reaction :=
  let reply := match luck.written with
    | .sent => "Message sent"
    | .refused error => Printf.truncated 128 ("Error sending message: " ++ error)
  (k, { replies := [(client, reply)], raw := [(⟨f.id, f.value, f.durationMs⟩, luck.written)] })

/-- The request is neither short of memory nor ignored. -/
def Controller.carryOut (k : Controller) (luck : Luck) (client : Client) :
    Request → Controller × Reaction
  | .writeOnly enabled =>
    ({ k with writeOnly := Function.update k.writeOnly client (some enabled) },
      { replies := [(client,
          if enabled then "Write-only mode enabled" else "Write-only mode disabled")] })
  | .abort =>
    ({ k with firing := k.firing.abort, wiggling := { k.wiggling with map := ∅ } },
      { replies := [(client, "Abort requested")]
        announced := k.wiggling.map.stopNews
        wiggled := k.wiggling.map.exits true })
  | .state none => k.reply client "Unknown state requested"
  | .state (some state) => k.enterState client state
  | .setValve (.error msg) => k.reply client msg
  | .setValve (.ok (field, value)) =>
    ({ k with profile := k.profile.set field value },
      { replies := [(client, "Valve set successfully")] })
  | .wiggleStop entries => k.stopWiggles client entries
  | .wiggle entries => k.startWiggles luck client entries
  | .drown =>
    if k.profile.loxMainValveId = 0 ∨ k.profile.loxVentValveId = 0 then
      k.reply client "Error drowning injector"
    else k.launch luck (drownWorkerArgs client k.profile) "Error drowning injector"
  | .fire none => k.reply client "Error parsing command"
  | .fire (some config) =>
    if luck.copies 0 then
      k.launch luck (fireWorkerArgs client config) "A firing sequence is already running"
    else k.reply client "Error parsing command"
  | .rawCan f => k.sendRaw luck client f
  | .unknown => k.reply client "Invalid command"

/-- In `PRECHILLING` the requests of `HOTFIRE` are ignored. -/
def Controller.atGate (k : Controller) (luck : Luck) (client : Client) (request : Request) :
    Controller × Reaction :=
  if request.IsGated ∧ k.wiggling.state = .prechilling then
    k.reply client "System is in PRE-HOTFIRE state; command ignored."
  else k.carryOut luck client request

/-- A request, with what can be in its way. -/
def Controller.execute (k : Controller) (luck : Luck) (client : Client) (request : Request) :
    Controller × Reaction :=
  if request.IsCopied then
    if luck.copies 0 then k.atGate luck.behindCopy client request
    else k.reply client "Server error: out of memory"
  else k.carryOut luck client request

/-- What happens to the controller: a call of a client, a tick of the wiggles, the end of the
firing sequence, or something that is no matter of its own. -/
inductive ControllerStep where
  | call (c : ClientCall) (luck : Luck)
  | tick (now : UInt64)
  | finished
  | other

def Controller.call (k : Controller) (luck : Luck) : ClientCall → Controller × Reaction
  | .connect client =>
    if luck.copies 0 then
      ({ k with writeOnly := Function.update k.writeOnly client (some false) },
        { replies := [(client, "Hello from server"), (client, stateNews k.wiggling.state)] })
    else (k, {})
  | .disconnect client => ({ k with writeOnly := Function.update k.writeOnly client none }, {})
  | .message client payload =>
    if luck.copies 0 then k.execute luck.behindCopy client (requestOf (k.writeOnly client).isSome
      (payload.takeWhile (· != Char.ofNat 0)))
    else k.reply client "Server error: out of memory"

def Controller.step (k : Controller) : ControllerStep → Controller × Reaction
  | .call c luck => k.call luck c
  | .tick now =>
    let x := k.wiggling.call now .process
    ({ k with wiggling := x.1 }, { wiggled := x.2.sent })
  | .finished => ({ k with firing := .idle }, {})
  | .other => (k, {})

/-- The controller as a machine that can take every step. -/
def controller : Interaction.Machine Controller ControllerStep Reaction where
  step k l := some ((k.step l).1, [(k.step l).2])

def Controller.initial : Controller where
  wiggling := .initial
  firing := .idle
  profile :=
    { loxMainValveId := 0x709
      loxMainAngleOpen := 0x0099
      loxVentValveId := 0x702
      loxVentAngleClose := 0x0074 }
  writeOnly := fun _ => none

theorem isGated_gatedRequest (text : CText) : (gatedRequest text).IsGated := by
  unfold gatedRequest
  split_ifs
  · trivial
  · trivial
  · cases parseRawCanFields text <;> trivial

theorem Request.IsGated.isCopied {request : Request} (h : request.IsGated) :
    request.IsCopied := by
  cases request with
  | drown => trivial
  | fire config => trivial
  | rawCan fields => trivial
  | unknown => trivial
  | _ => exact h.elim

/-! ### Stopping one id after the other -/

theorem call_stop (w : Wiggling) (now : UInt64) (id : UInt32) :
    w.call now (.stop id) = ({ w with map := w.map.erase id },
      ⟨if id ∈ w.map then 1 else 0, w.map.exitOf id⟩) := by
  cases hlookup : w.map.lookup id with
  | some p =>
    rw [if_pos (Finmap.mem_of_lookup_eq_some hlookup)]
    simp only [Wiggling.call, WiggleMap.exitOf, hlookup, Option.elim_some]
  | none =>
    have hnot : id ∉ w.map := Finmap.lookup_eq_none.mp hlookup
    have herase : w.map.erase id = w.map := by
      apply Finmap.ext_lookup
      intro j
      by_cases hj : j = id
      · rw [hj, Finmap.lookup_erase, hlookup]
      · exact Finmap.lookup_erase_ne hj
    rw [if_neg hnot, herase]
    simp only [Wiggling.call, WiggleMap.exitOf, hlookup, Option.elim_none]

theorem without_nil (m : WiggleMap) : m.without [] = m := by
  apply Finmap.ext_lookup
  intro j
  rw [WiggleMap.without, lookup_mapFilter]
  simp only [List.not_mem_nil, if_false, Option.bind_fun_some]

theorem without_cons (m : WiggleMap) (id : UInt32) (ids : List UInt32) :
    m.without (id :: ids) = WiggleMap.without (m.erase id) ids := by
  apply Finmap.ext_lookup
  intro j
  simp only [WiggleMap.without, lookup_mapFilter]
  by_cases hj : j = id
  · rw [hj, Finmap.lookup_erase, Option.bind_none]
    simp only [List.mem_cons_self, if_true, Option.bind_fun_none]
  · simp only [List.mem_cons, hj, false_or, Finmap.lookup_erase_ne hj]

/-- The ids of a longer list: the first one, if it runs, and what still runs without it. -/
theorem running_cons (m : WiggleMap) (id : UInt32) (ids : List UInt32) :
    m.running (id :: ids) = if id ∈ m then insert id (WiggleMap.running (m.erase id) ids)
      else WiggleMap.running (m.erase id) ids := by
  ext j
  have herase : j ∈ m.erase id ↔ j ≠ id ∧ j ∈ m := Finmap.mem_erase
  split_ifs with hid
  · simp only [WiggleMap.running, Finset.mem_insert, Finset.mem_filter, List.mem_toFinset,
      List.mem_cons, herase]
    by_cases hj : j = id
    · simp only [hj, hid, true_or, and_self]
    · simp only [hj, false_or, ne_eq, not_false_eq_true, true_and]
  · simp only [WiggleMap.running, Finset.mem_filter, List.mem_toFinset, List.mem_cons, herase]
    by_cases hj : j = id
    · simp only [hj, hid, and_false]
    · simp only [hj, false_or, ne_eq, not_false_eq_true, true_and]

theorem notMem_running_erase (m : WiggleMap) (id : UInt32) (ids : List UInt32) :
    id ∉ WiggleMap.running (m.erase id) ids := by
  intro h
  exact (Finmap.mem_erase.mp (Finset.mem_filter.mp h).2).1 rfl

theorem card_running_cons (m : WiggleMap) (id : UInt32) (ids : List UInt32) :
    (m.running (id :: ids)).card =
      (if id ∈ m then 1 else 0) + (WiggleMap.running (m.erase id) ids).card := by
  rw [running_cons]
  split_ifs
  · rw [Finset.card_insert_of_notMem (notMem_running_erase m id ids), Nat.add_comm]
  · rw [Nat.zero_add]

theorem exitOf_of_notMem {m : WiggleMap} {id : UInt32} (h : id ∉ m) : m.exitOf id = 0 := by
  rw [WiggleMap.exitOf, Finmap.lookup_eq_none.mpr h]
  rfl

theorem sum_exitOf_cons (m : WiggleMap) (id : UInt32) (ids : List UInt32) :
    ∑ j ∈ m.running (id :: ids), m.exitOf j = m.exitOf id +
      ∑ j ∈ WiggleMap.running (m.erase id) ids, WiggleMap.exitOf (m.erase id) j := by
  have hrest : ∑ j ∈ WiggleMap.running (m.erase id) ids, m.exitOf j =
      ∑ j ∈ WiggleMap.running (m.erase id) ids, WiggleMap.exitOf (m.erase id) j := by
    apply Finset.sum_congr rfl
    intro j hj
    have hne : j ≠ id := (Finmap.mem_erase.mp (Finset.mem_filter.mp hj).2).1
    rw [WiggleMap.exitOf, WiggleMap.exitOf, Finmap.lookup_erase_ne hne]
  rw [running_cons]
  split_ifs with hid
  · rw [Finset.sum_insert (notMem_running_erase m id ids), hrest]
  · rw [hrest, exitOf_of_notMem hid, zero_add]

/-! ### Starting one entry after the other -/

/-- A start puts the wiggle into the map, or does nothing. -/
theorem call_start_cases (w : Wiggling) (now : UInt64) (r : WiggleRequest) :
    w.call now (.start r) = ({ w with map := w.map.insert r.id (r.params now) },
        ⟨0, {⟨r.id, r.startValue, 0⟩}⟩) ∨
      w.call now (.start r) = (w, ⟨-1, 0⟩) := by
  by_cases hbad : r.periodMs = 0 ∨ r.id > 0x7FF ∨
      (r.id ∉ w.map ∧ w.map.keys.card = appMaxWiggles)
  · exact Or.inr (if_pos hbad)
  · exact Or.inl (if_neg hbad)

theorem started_cons (w : Wiggling) (clock : ℕ → UInt64) {r : WiggleRequest}
    (entries : List (Option WiggleRequest))
    (h : w.call (clock 0) (.start r) = ({ w with map := w.map.insert r.id (r.params (clock 0)) },
      ⟨0, {⟨r.id, r.startValue, 0⟩}⟩)) :
    w.started (some r :: entries) clock = (r, clock 0) ::
      Wiggling.started { w with map := w.map.insert r.id (r.params (clock 0)) } entries
        (fun n => clock (n+1)) := by
  rw [Wiggling.started, h, if_pos rfl]

theorem started_refused (w : Wiggling) (clock : ℕ → UInt64) {r : WiggleRequest}
    (entries : List (Option WiggleRequest)) (h : w.call (clock 0) (.start r) = (w, ⟨-1, 0⟩)) :
    w.started (some r :: entries) clock = [] := by
  rw [Wiggling.started, h, if_neg (show ¬ (-1 : Int) = 0 by decide)]

theorem length_started_le (w : Wiggling) (entries : List (Option WiggleRequest))
    (clock : ℕ → UInt64) : (w.started entries clock).length ≤ entries.length := by
  induction entries generalizing w clock with
  | nil => exact Nat.le_refl 0
  | cons entry entries ih =>
    cases entry with
    | none => exact Nat.zero_le _
    | some r =>
      unfold Wiggling.started
      split_ifs
      · exact Nat.succ_le_succ (ih _ _)
      · exact Nat.zero_le _

/-- No request is started that is out of range. -/
theorem call_start_refused (w : Wiggling) (now : UInt64) {r : WiggleRequest} (h : r.Refused) :
    w.call now (.start r) = (w, ⟨-1, 0⟩) := if_pos (h.imp_right Or.inl)

end WsServer
