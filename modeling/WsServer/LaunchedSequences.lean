import WsServer.BlockParse
import WsServer.CommandOutcome
import WsServer.Numerals
import WsServer.SerialRun
import WsServer.TestingMode

/-! What the worker may rely on: every sequence that is launched has blocks, fits in its
table and has ids that may be sent, whether it was parsed or taken from the valve profile. -/
namespace WsServer
open Interaction Program

/-! ### The valve profile -/

structure ValveProfile.InRange (p : ValveProfile) : Prop where
  mainId : p.loxMainValveId ≤ 0x7FF
  ventId : p.loxVentValveId ≤ 0x7FF
  openAngle : p.loxMainAngleOpen ≤ 0xB4
  closeAngle : p.loxVentAngleClose ≤ 0xB4

/-- What `firing_sequence_start_drown` asks of the profile. -/
structure ValveProfile.HasIds (p : ValveProfile) : Prop where
  mainId : p.loxMainValveId ≠ 0
  ventId : p.loxVentValveId ≠ 0

instance (p : ValveProfile) : Decidable p.InRange :=
  decidable_of_iff ((p.loxMainValveId ≤ 0x7FF ∧ p.loxVentValveId ≤ 0x7FF) ∧
      p.loxMainAngleOpen ≤ 0xB4 ∧ p.loxVentAngleClose ≤ 0xB4)
    ⟨fun h => ⟨h.1.1, h.1.2, h.2.1, h.2.2⟩,
      fun h => ⟨⟨h.mainId, h.ventId⟩, h.openAngle, h.closeAngle⟩⟩

instance (p : ValveProfile) : Decidable p.HasIds :=
  decidable_of_iff (p.loxMainValveId ≠ 0 ∧ p.loxVentValveId ≠ 0)
    ⟨fun h => ⟨h.1, h.2⟩, fun h => ⟨h.mainId, h.ventId⟩⟩

/-- The largest value that `SET_VALVE` stores in a field. -/
def ValveField.bound : ValveField → UInt32
  | .loxMain | .loxVent => 0x7FF
  | .loxMainAngleOpen | .loxVentAngleClose => 0xB4

theorem bound_of_valveFieldOf {name : CText} {field : ValveField} {bound : UInt32}
    (h : valveFieldOf name = some (field, bound)) : bound = field.bound := by
  unfold valveFieldOf at h
  split_ifs at h <;> obtain ⟨rfl, rfl⟩ := Prod.mk.inj (Option.some.inj h) <;> rfl

/-- A value in range keeps its value in the 16 bits of an angle. -/
theorem angle_toNat {value : UInt32} (h : value ≤ 0xB4) : value.toUInt16.toNat = value.toNat := by
  have hle : value.toNat ≤ 180 := UInt32.le_iff_toNat_le.mp h
  rw [UInt32.toNat_toUInt16]
  omega

theorem ValveProfile.InRange.set {p : ValveProfile} (h : p.InRange) {field : ValveField}
    {value : UInt32} (hvalue : value ≤ field.bound) : (p.set field value).InRange := by
  have hangle : value ≤ 0xB4 → value.toUInt16 ≤ 0xB4 := by
    intro hle
    rw [UInt16.le_iff_toNat_le, angle_toNat hle]
    exact UInt32.le_iff_toNat_le.mp hle
  cases field with
  | loxMain => exact ⟨hvalue, h.ventId, h.openAngle, h.closeAngle⟩
  | loxVent => exact ⟨h.mainId, hvalue, h.openAngle, h.closeAngle⟩
  | loxMainAngleOpen => exact ⟨h.mainId, h.ventId, hangle hvalue, h.closeAngle⟩
  | loxVentAngleClose => exact ⟨h.mainId, h.ventId, h.openAngle, hangle hvalue⟩

/-- `SET_VALVE` stores the value in the field that it names, and leaves the others alone. -/
theorem read_set (p : ValveProfile) {field : ValveField} {value : UInt32}
    (hvalue : value ≤ field.bound) (other : ValveField) :
    (p.set field value).read other = if other = field then value.toNat else p.read other := by
  cases field <;> cases other <;> first | rfl | exact angle_toNat hvalue

theorem inRange_initial (config : AppConfig) (canFd : Int) :
    (appContextInit config canFd).valveProfile.InRange := by
  have hprofile : (appContextInit config canFd).valveProfile = ⟨0x709, 0x99, 0x702, 0x74⟩ := rfl
  rw [hprofile]
  decide

/-- The sequence that is built from a profile in range, with ids in it. -/
theorem wellFormed_drownConfig {p : ValveProfile} (h : p.InRange) (hids : p.HasIds) :
    (drownConfig p).WellFormed := by
  constructor
  · constructor
    · exact (by decide : 2 ≤ appMaxFiringBlocks)
    · intro k hk
      have hk2 : k < 2 := hk
      have hmain : readAt 0 (drownConfig p).ids 0 = p.loxMainValveId := rfl
      have hvent : readAt 0 (drownConfig p).ids 1 = p.loxVentValveId := rfl
      rcases (by omega : k = 0 ∨ k = 1) with rfl | rfl
      · rw [hmain]
        exact ⟨one_le_of_ne_zero hids.mainId, h.mainId⟩
      · rw [hvent]
        exact ⟨one_le_of_ne_zero hids.ventId, h.ventId⟩
  · exact (by decide : 1 ≤ 2)

/-! ### What the handlers know of the profile -/

/-- A value is stored in its range, and a worker gets a well-formed sequence. -/
def Act.WellFormed : Act → Prop
  | .setValve field value => value ≤ field.bound
  | .createWorker args => args.config.WellFormed
  | _ => True

/-- The ghost state is whether the profile has been seen to have its ids. A profile is
always read in range, and with its ids where that has been seen. -/
def launchGate : Protocol serverSig Bool where
  allowed _ a := a.WellFormed
  after seen
    | .readProfile, profile =>
      if profile.InRange ∧ (seen = true → profile.HasIds) then some (decide profile.HasIds)
      else none
    | .setValve _ _, _ => some false
    | _, _ => some seen

/-- The program follows the gate, whatever has been seen before. -/
abbrev Launches {β : Type} (p : Server β) : Prop :=
  ∀ seen, Follows launchGate seen p (fun _ _ => True)

variable {β β' : Type}

theorem launches_pure (v : β) : Launches (pure v : Server β) := fun _ => trivial

theorem Launches.bind {p : Server β} {f : β → Server β'} (hp : Launches p)
    (hf : ∀ v, Launches (f v)) : Launches (p >>= f) :=
  fun seen => Follows.bind (hp seen) (fun v g' _ => hf v g')

theorem launches_then {a : Act} {f : a.Answer → Server β} (ha : a.WellFormed)
    (hf : ∀ r, Launches (f r)) : Launches (act a >>= f) :=
  fun _ => ⟨ha, fun r g' _ => hf r g'⟩

theorem launches_of_performs {p : Server β} (h : Performs Act.WellFormed p) : Launches p :=
  h.follows_any launchGate (fun _ _ ha => ha)

/-- Handlers that neither set a valve nor create a worker. -/
theorem Kinds.launches {ks : List ActKind} {p : Server β} (h : Kinds ks p)
    (hks : ∀ k ∈ ks, k ∉ [ActKind.valve, .sequence]) : Launches p := by
  apply launches_of_performs
  apply Performs.mono h
  intro a ha
  cases a with
  | setValve field value =>
    exact absurd (by decide : ActKind.valve ∈ [ActKind.valve, .sequence]) (hks _ ha)
  | createWorker args =>
    exact absurd (by decide : ActKind.sequence ∈ [ActKind.valve, .sequence]) (hks _ ha)
  | _ => trivial

/-- A worker gets the configuration that `firing_sequence_start` is called with. -/
theorem performs_firingSequenceStart (client : Client) {config : FiringSequenceConfig}
    (h : config.WellFormed) (started completed failed : Option String) :
    Performs Act.WellFormed (firingSequenceStart client config started completed failed) := by
  have hcreates := createsOnly_firingSequenceStart client config started completed failed
    (W := fun args => args.config.WellFormed) h
  have hkinds := kinds_firingSequenceStart client config started completed failed
  apply Performs.mono (hcreates.and hkinds)
  rintro a ⟨ha, hkind⟩
  cases a with
  | setValve field value =>
    exact absurd hkind (by decide : ActKind.valve ∉ [ActKind.sequence])
  | createWorker args => exact ha
  | _ => trivial

/-- Between its check of the profile and its use of it nothing moves the profile. -/
theorem launches_firingSequenceStartDrown (client : Client) :
    Launches (firingSequenceStartDrown client) := by
  intro seen
  refine ⟨trivial, ?_⟩
  intro checked g' hafter
  have hread : (if checked.InRange ∧ (seen = true → checked.HasIds) then
      some (decide checked.HasIds) else none) = some g' := hafter
  split_ifs at hread
  obtain rfl := Option.some.inj hread
  change Follows launchGate _ (if checked.loxMainValveId = 0 ∨ checked.loxVentValveId = 0 then
    pure (-1) else _) _
  split_ifs with hzero
  · exact launches_pure (-1) _
  · rw [not_or] at hzero
    have hids : checked.HasIds := ⟨hzero.1, hzero.2⟩
    rw [decide_eq_true hids]
    refine ⟨trivial, ?_⟩
    intro profile g'' hafter'
    have hread' : (if profile.InRange ∧ (true = true → profile.HasIds) then
        some (decide profile.HasIds) else none) = some g'' := hafter'
    split_ifs at hread' with hprofile
    have hconfig := wellFormed_drownConfig hprofile.1 (hprofile.2 rfl)
    exact launches_of_performs (performs_firingSequenceStart client hconfig _ _ _) g''

/-! ### The handlers -/

theorem launches_sendReply (client : Client) (msg : String) : Launches (sendReply client msg) :=
  launches_of_performs (performs_single trivial)

theorem launches_reply_then (client : Client) (msg : String) (v : β) :
    Launches (do sendReply client msg; pure v : Server β) :=
  (launches_sendReply client msg).bind (fun _ => launches_pure v)

theorem launches_handleSetValve (client : Client) (text : CText) :
    Launches (handleSetValve client text) := by
  unfold handleSetValve
  split_ifs
  · exact launches_pure false
  · cases scanSetValve text with
    | none => exact launches_reply_then client _ true
    | some scanned =>
      obtain ⟨name, value⟩ := scanned
      dsimp only
      cases hfield : valveFieldOf name with
      | none => exact launches_reply_then client _ true
      | some found =>
        obtain ⟨field, bound⟩ := found
        dsimp only
        split_ifs with hvalue
        · exact launches_reply_then client _ true
        · rw [bound_of_valveFieldOf hfield] at hvalue
          have hstore : Launches (act (.setValve field value)) :=
            launches_of_performs (performs_single (UInt32.not_lt.mp hvalue))
          exact hstore.bind (fun _ => launches_reply_then client _ true)

theorem launches_handleDrown (client : Client) (text : CText) :
    Launches (handleDrown client text) := by
  unfold handleDrown
  split_ifs
  · exact launches_pure false
  · apply (launches_firingSequenceStartDrown client).bind
    intro rc
    split_ifs
    · exact launches_reply_then client _ true
    · exact launches_pure true

theorem launches_handleFire (client : Client) (text : CText) :
    Launches (handleFire client text) := by
  unfold handleFire
  split_ifs
  · exact launches_pure false
  · refine launches_then trivial (fun strdupOk => ?_)
    cases hparse : firingSequenceParse strdupOk text with
    | none => exact launches_reply_then client _ true
    | some config =>
      have hstart := performs_firingSequenceStart client (wellFormed_of_parse hparse)
        (some (fireStartedMessage config)) (some "Firing sequence completed")
        (some "Firing sequence failed to start")
      apply (launches_of_performs hstart).bind
      intro rc
      split_ifs
      · exact launches_reply_then client _ true
      · exact launches_pure true

/-- A handler that may take the text, before the ones behind it. -/
theorem Launches.handler {handler : Server Bool} (h : Launches handler) {rest : Server Unit}
    (hrest : Launches rest) :
    Launches (handler >>= fun taken => if taken then pure () else rest) := by
  apply h.bind
  intro taken
  split_ifs
  · exact launches_pure ()
  · exact hrest

theorem launches_hotfireHandlers (client : Client) (normalized : CText) :
    Launches (hotfireHandlers client normalized) := by
  refine launches_then trivial (fun state => ?_)
  split_ifs
  · exact launches_sendReply client _
  · apply (launches_handleDrown client normalized).handler
    apply (launches_handleFire client normalized).handler
    exact ((kinds_handleRawCan client normalized).launches (by decide)).handler
      (launches_sendReply client _)

theorem launches_commandHandleText (config : AppConfig) (client : Client) (text : CText) :
    Launches (commandHandleText config client text) := by
  apply ((kinds_handleReadToggle client text).launches (by decide)).handler
  dsimp only
  split_ifs
  · exact (kinds_handleTestingCommand client _).launches (by decide)
  · exact launches_sendReply client _
  · apply ((kinds_handleAbort client _).launches (by decide)).handler
    apply ((kinds_handleStateCommand client _).launches (by decide)).handler
    apply (launches_handleSetValve client _).handler
    refine launches_then trivial (fun copied => ?_)
    split_ifs
    · exact launches_sendReply client _
    · apply ((kinds_handleWiggleStop client _).launches (by decide)).handler
      apply ((kinds_handleWiggle client _).launches (by decide)).handler
      exact launches_hotfireHandlers client _

theorem launches_call (config : AppConfig) (c : Call) (hc : c.FromClient) :
    Launches (c.program config) := by
  have hzero {p : Server Unit} (h : Launches p) : Launches (do p; pure 0 : Server Int) :=
    h.bind (fun _ => launches_pure 0)
  cases c with
  | connect client => exact hzero ((kinds_onConnect client).launches (by decide))
  | disconnect client => exact hzero (launches_of_performs (performs_single trivial))
  | message client payload =>
    apply hzero
    refine launches_then trivial (fun copied => ?_)
    split_ifs
    · exact launches_of_performs (performs_single trivial)
    · exact launches_then trivial (fun _ => launches_commandHandleText config client _)
  | _ => exact hc.elim

/-! ### Runs of the server -/

/-- The profile is in range, and every worker has got a well-formed sequence. -/
structure LaunchState (seen : Bool) (p : Process) : Prop where
  profile : p.app.valveProfile.InRange
  ids : seen = true → p.app.valveProfile.HasIds
  workers : ∀ w ∈ p.workers, w.args.config.WellFormed

theorem LaunchState.congr {seen : Bool} {p p' : Process} (h : LaunchState seen p)
    (hprofile : p'.app.valveProfile = p.app.valveProfile) (hworkers : p'.workers = p.workers) :
    LaunchState seen p' := by
  constructor
  · rw [hprofile]
    exact h.profile
  · rw [hprofile]
    exact h.ids
  · rw [hworkers]
    exact h.workers

/-- An action that neither stores in the profile nor creates a worker. -/
theorem LaunchState.perform {seen : Bool} {p : Process} (h : LaunchState seen p) (env : Env)
    {a : Act} (hvalve : ∀ field value, a ≠ .setValve field value)
    (hworker : ∀ args, a ≠ .createWorker args) : LaunchState seen (WsServer.perform p env a).1 := by
  apply h.congr (perform_valveProfile p env a hvalve)
  rcases perform_workers_cases p env a with ⟨args, ha, -⟩ | ⟨-, hsame⟩
  · exact absurd ha (hworker args)
  · exact hsame

theorem launchState_own {seen : Bool} {p : Process} (env : Env) {a : Act}
    (h : LaunchState seen p) (ha : a.WellFormed) :
    ∃ seen', launchGate.after seen a (perform p env a).2.1 = some seen' ∧
      LaunchState seen' (perform p env a).1 := by
  cases a with
  | setValve field value =>
    exact ⟨false, rfl, h.profile.set ha, fun hfalse => Bool.noConfusion hfalse, h.workers⟩
  | readProfile =>
    refine ⟨decide p.app.valveProfile.HasIds, if_pos ⟨h.profile, h.ids⟩, h.profile, ?_, h.workers⟩
    intro hseen
    exact of_decide_eq_true hseen
  | createWorker args =>
    have hprofile := perform_valveProfile p env (.createWorker args)
      (fun _ _ => Act.noConfusion)
    refine ⟨seen, rfl, hprofile.symm ▸ h.profile, hprofile.symm ▸ h.ids, ?_⟩
    rcases perform_workers_cases p env (.createWorker args) with ⟨args', hargs, -, hnew⟩ | ⟨-, hsame⟩
    · obtain rfl := Act.createWorker.inj hargs
      rw [hnew, List.forall_mem_append]
      exact ⟨h.workers, fun w hw => by rw [List.mem_singleton.mp hw]; exact ha⟩
    · rw [hsame]
      exact h.workers
  | _ => exact ⟨seen, rfl, h.perform env (fun _ _ => Act.noConfusion) (fun _ => Act.noConfusion)⟩

/-- A worker keeps the arguments that it was created with. -/
theorem LaunchState.worker {seen : Bool} {p : Process} (h : LaunchState seen p) {k : ℕ}
    {args : SequenceWorkerArgs} {pc : WorkerPc} (hw : p.workers[k]? = some ⟨args, pc⟩)
    (mid : WorkerPc) (e : WorkerEvent) :
    LaunchState seen ⟨p.app.afterWorker e, p.workers.set k ⟨args, mid⟩⟩ := by
  have hprofile : (p.app.afterWorker e).valveProfile = p.app.valveProfile := by cases e <;> rfl
  refine ⟨hprofile.symm ▸ h.profile, hprofile.symm ▸ h.ids, ?_⟩
  intro w hmem
  rcases List.mem_or_eq_of_mem_set hmem with hold | rfl
  · exact h.workers w hold
  · exact h.workers ⟨args, pc⟩ (List.mem_of_getElem? hw)

theorem serialRule_launchGate : SerialRule launchGate (fun _ => True) LaunchState where
  call g config c _ hc := launches_call config c hc g
  own _ _ env _ h ha := launchState_own env h ha
  tick _ _ env h := h.perform env (fun _ _ => Act.noConfusion) (fun _ => Act.noConfusion)
  worker _ _ _ _ _ mid e h hw := h.worker hw mid e
  signal _ _ h := h.congr rfl rfl

theorem launchState_run {config : AppConfig} {canFd : Int} {ls : List Label} {s : System}
    {os : List Output}
    (hserial : server.Along (fun _ l => Serial l.actor) (System.initial config canFd) ls)
    (hrun : server.run (System.initial config canFd) ls = some (s, os)) :
    ∃ seen, LaunchState seen s.process := by
  have hinitial : LaunchState false (System.initial config canFd).process :=
    ⟨inRange_initial config canFd, fun h => Bool.noConfusion h, List.forall_mem_nil _⟩
  obtain ⟨seen, hs⟩ := serially_run serialRule_launchGate
    (serially_initial config canFd trivial hinitial) hrun hserial
  exact ⟨seen, hs.holds⟩

/-- A block of a well-formed sequence is not refused for its id: it goes to the socket. -/
theorem canBusSendCommand_of_wellFormed {config : FiringSequenceConfig} (h : config.WellFormed)
    {i : ℕ} (hi : i < config.numBlocks) {fd : Int} (hfd : 0 ≤ fd) :
    canBusSendCommand fd (config.command i) none = .sent := by
  have hid : (config.command i).id ≤ 0x7FF := (h.ids i hi).2
  apply if_neg
  rw [not_or]
  exact ⟨by omega, UInt32.not_lt.mpr hid⟩

/-! ### SET_VALVE -/

/-- What a run of the handlers on a `SET_VALVE` text comes to: behind any answer but that of
success the profile is as it was, and behind that one it differs in the named field only. -/
structure SetValveOutcome (client : Client) (text : CText) (p : Process)
    (tr : List (Process × Env × Act)) (p' : Process) : Prop where
  refused : ∀ msg, .sendText client msg ∈ outputs (S := serverSig) perform tr →
    msg ≠ "Valve set successfully" → p'.app.valveProfile = p.app.valveProfile
  accepted : .sendText client "Valve set successfully" ∈ outputs (S := serverSig) perform tr →
    ∃ name value field, scanSetValve text = some (name, value) ∧
      valveFieldOf name = some (field, field.bound) ∧
      ∀ other, p'.app.valveProfile.read other =
        if other = field then value.toNat else p.app.valveProfile.read other

theorem SetValveOutcome.skip {client : Client} {text : CText} {p p' : Process}
    {tr : List (Process × Env × Act)} (h : SetValveOutcome client text p tr p') (env : Env) :
    SetValveOutcome client text p ((p, env, .clientContext client) :: tr) p' := by
  constructor
  · rw [outputs_cons]
    exact h.refused
  · rw [outputs_cons]
    exact h.accepted

/-- An answer that is not that of success, and nothing else. -/
theorem setValveOutcome_reply (client : Client) (text : CText) (p : Process) {msg : String}
    (hmsg : msg ≠ "Valve set successfully") (env : Env) :
    SetValveOutcome client text p [(p, env, .sendText client msg)] p := by
  refine ⟨fun _ _ _ => rfl, ?_⟩
  intro hmem
  have heq : Event.sendText client "Valve set successfully" = .sendText client msg :=
    List.mem_singleton.mp hmem
  exact absurd (Event.sendText.inj heq).2.symm hmsg

theorem setValve_reply (client : Client) (text : CText) (p : Process) {msg : String}
    (hmsg : msg ≠ "Valve set successfully") : AlwaysEnds p (sendReply client msg)
      (fun tr _ p' => SetValveOutcome client text p tr p') :=
  fun env _ => setValveOutcome_reply client text p hmsg env

theorem setValve_handler (client : Client) {text : CText} (h : hasPrefix "SET_VALVE" text = true)
    (p : Process) : AlwaysEnds p (handleSetValve client text)
      (fun tr taken p' => taken = true ∧ SetValveOutcome client text p tr p') := by
  have hreply : ∀ msg, msg ≠ "Valve set successfully" →
      AlwaysEnds p (do sendReply client msg; pure true : Server Bool)
        (fun tr taken p' => taken = true ∧ SetValveOutcome client text p tr p') :=
    fun msg hmsg env _ => ⟨rfl, setValveOutcome_reply client text p hmsg env⟩
  unfold handleSetValve
  rw [h, Bool.not_true, if_neg Bool.false_ne_true]
  cases hscan : scanSetValve text with
  | none => exact hreply _ (by decide)
  | some scanned =>
    obtain ⟨name, value⟩ := scanned
    dsimp only
    cases hfield : valveFieldOf name with
    | none => exact hreply _ (by decide)
    | some found =>
      obtain ⟨field, bound⟩ := found
      obtain rfl := bound_of_valveFieldOf hfield
      dsimp only
      split_ifs with hvalue
      · exact hreply _ (by decide)
      · intro env _ env' _
        refine ⟨rfl, ?_, ?_⟩
        · intro msg hmem hmsg
          have heq : Event.sendText client msg = .sendText client "Valve set successfully" :=
            List.mem_singleton.mp hmem
          exact absurd (Event.sendText.inj heq).2 hmsg
        · intro _
          exact ⟨name, value, field, hscan, hfield,
            read_set p.app.valveProfile (UInt32.not_lt.mp hvalue)⟩

/-- Testing mode answers a `SET_VALVE` text, but never with success. -/
theorem handleTestingSetValve_reply {text : CText} (h : hasPrefix "SET_VALVE" text = true) :
    ∃ msg, handleTestingSetValve text = some msg ∧ msg ≠ "Valve set successfully" := by
  have hbegins : ∀ msg, "TESTING parsed SET_VALVE: ".toList <+: msg.toList →
      msg ≠ "Valve set successfully" := by
    rintro msg hbegins rfl
    revert hbegins
    decide
  have hparsed : ∀ (name : CText) (value : UInt32), Printf.truncated 512
      ("TESTING parsed SET_VALVE: " ++ String.ofList name ++ "=0x" ++
        Printf.hexPadded 3 value.toNat) ≠ "Valve set successfully" := by
    intro name value
    apply hbegins
    apply prefix_truncated _ (by decide)
    exact prefix_append (prefix_append (prefix_append List.prefix_rfl _) _) _
  unfold handleTestingSetValve
  rw [h, Bool.not_true, if_neg Bool.false_ne_true]
  cases scanSetValve text with
  | none => exact ⟨_, rfl, by decide⟩
  | some scanned =>
    dsimp only
    split_ifs
    · exact ⟨_, rfl, by decide⟩
    · exact ⟨_, rfl, hparsed _ _⟩
    · exact ⟨_, rfl, by decide⟩
    · exact ⟨_, rfl, hparsed _ _⟩
    · exact ⟨_, rfl, by decide⟩

theorem setValve_dispatch (config : AppConfig) (client : Client) {text : CText}
    (h : hasPrefix "SET_VALVE" text = true) (p : Process) :
    AlwaysEnds p (dispatch config client text)
      (fun tr _ p' => SetValveOutcome client text p tr p') := by
  have habort : text ≠ "ABORT#8765".toList := ne_of_hasPrefix h (by decide)
  have hstate : hasPrefix "STATE#" text = false := hasPrefix_other h (by decide)
  unfold dispatch
  split_ifs
  · obtain ⟨msg, hreply, hmsg⟩ := handleTestingSetValve_reply h
    have habort' : handleTestingAbort text = none := if_pos habort
    have hstate' : handleTestingState text = none := by rw [handleTestingState, hstate]; rfl
    rw [handleTestingCommand, habort', hstate', hreply]
    exact setValve_reply client text p hmsg
  · exact setValve_reply client text p (by decide)
  · rw [handleAbort_other client habort, Program.pure_eq, Program.ret_bind,
      if_neg Bool.false_ne_true, handleStateCommand_other client hstate, Program.pure_eq,
      Program.ret_bind, if_neg Bool.false_ne_true]
    apply always_bind.mpr
    apply (setValve_handler client h p).mono
    rintro tr taken p' ⟨rfl, houtcome⟩
    change SetValveOutcome client text p (tr ++ []) p'
    rw [List.append_nil]
    exact houtcome

/-- Every run of the handlers on a `SET_VALVE` text, in any configuration and from any
process. -/
theorem setValve_outcome (config : AppConfig) (client : Client) {text : CText}
    (h : hasPrefix "SET_VALVE" (stripCanPrefix text) = true) (p : Process) :
    AlwaysEnds p (commandHandleText config client text)
      (fun tr _ p' => SetValveOutcome client (stripCanPrefix text) p tr p') := by
  have htoggle : ¬ IsReadToggle text := not_readToggle_of_word h (by decide)
  rw [commandHandleText_other config client htoggle]
  intro env _
  apply (setValve_dispatch config client h p).mono
  intro tr _ p' houtcome
  exact houtcome.skip env

/-! ### The law -/

/-- What holds in every state that a run of command texts comes to. -/
structure SequencesWellFormed (s : System) : Prop where
  profile : s.app.valveProfile.InRange
  setValve : ∀ client text, hasPrefix "SET_VALVE" (stripCanPrefix text) = true →
    AlwaysEnds s.process (commandHandleText s.app.config client text)
      (fun tr _ p' => SetValveOutcome client (stripCanPrefix text) s.process tr p')
  launched : ∀ w ∈ s.process.workers, w.args.config.WellFormed
  sendable : ∀ w ∈ s.process.workers, ∀ i, i < w.args.config.numBlocks → ∀ fd, 0 ≤ fd →
    canBusSendCommand fd (w.args.config.command i) none = .sent

/-- Every sequence that runs is well formed, in whatever order the texts come and wherever
the ticks, the workers and the stop signal come in between. -/
theorem launched_sequences_well_formed (config : AppConfig) (canFd : Int) (ls : List Label)
    (s : System) (os : List Output)
    (hserial : server.Along (fun _ l => Serial l.actor) (System.initial config canFd) ls)
    (hrun : server.run (System.initial config canFd) ls = some (s, os)) :
    SequencesWellFormed s := by
  obtain ⟨seen, h⟩ := launchState_run hserial hrun
  constructor
  · exact h.profile
  · intro client text htext
    exact setValve_outcome s.app.config client htext s.process
  · exact h.workers
  · intro w hw i hi fd hfd
    exact canBusSendCommand_of_wellFormed (h.workers w hw) hi hfd

/-- A drowning sequence with a valve that has been set before. -/
theorem launched_sequences_well_formed_drown :
    let env : Env := ⟨0, fun _ => none, true, true⟩
    let say (text : String) : Label := ⟨.call (.handler 0) (.message 0 text.toList), env⟩
    let own : Label := ⟨.thread (.handler 0), env⟩
    ∃ s os, server.run (System.initial ⟨false, false⟩ 3)
        (say "STATE#HOTFIRE" :: List.replicate 8 own ++
          say "SET_VALVE#LOX_MAIN#70A" :: List.replicate 5 own ++
          say "DROWN#8765" :: List.replicate 10 own) = some (s, os) ∧
      s.process.workers.map (fun w => w.args.config.command 0) = [⟨0x70A, 0x0099, 0⟩] ∧
      SequencesWellFormed s := by
  intro env say own
  have hfacts : (server.run (System.initial ⟨false, false⟩ 3)
      (say "STATE#HOTFIRE" :: List.replicate 8 own ++
        say "SET_VALVE#LOX_MAIN#70A" :: List.replicate 5 own ++
        say "DROWN#8765" :: List.replicate 10 own)).map
          (fun r => r.1.process.workers.map (fun w => w.args.config.command 0)) =
      some [⟨0x70A, 0x0099, 0⟩] := by decide
  obtain ⟨⟨s, os⟩, hrun, hworkers⟩ := Option.map_eq_some_iff.mp hfacts
  exact ⟨s, os, hrun, hworkers,
    launched_sequences_well_formed ⟨false, false⟩ 3 _ s os (by decide) hrun⟩

end WsServer
