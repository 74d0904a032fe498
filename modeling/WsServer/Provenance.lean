import WsServer.ActOrigin
import WsServer.LaunchedSequences
import WsServer.Base.Part

/-! Where the frames and the texts of the server come from: every frame that it tries to send
has its numbers from a command that a client has sent before, whatever threads, workers and
ticks do in between, and what is sent to one client is about a call of that client. -/
namespace WsServer
open Interaction Program

/-! ### The calls so far -/

def Label.callOf (t : Thread) (l : Label) : Option Call :=
  match l.actor with
  | .call t' c => if t' = t then some c else none
  | _ => none

def Label.call (l : Label) : Option Call :=
  match l.actor with
  | .call _ c => some c
  | _ => none

/-- The calls of a schedule, in order. -/
def callsMade (ls : List Label) : List Call := ls.filterMap Label.call

/-- The call that a thread has made last: it is at work on it, or done. -/
def lastCall (t : Thread) (ls : List Label) : Option Call :=
  (ls.filterMap (Label.callOf t)).getLast?

/-! ### What the calls ask for -/

/-- As `app_context_init` fills it. -/
def profileDefaults : ValveProfile := ⟨0x709, 0x99, 0x702, 0x74⟩

/-- Every field has its default, or a value that a `SET_VALVE` has asked for. -/
def ProfileFrom (config : AppConfig) (cs : List Call) (p : ValveProfile) : Prop :=
  ∀ field, p.read field = profileDefaults.read field ∨
    ∃ c ∈ cs, ∃ token ∈ c.tokens config, ∃ value, ReadFrom (.setValve field value) token ∧
      p.read field = value.toNat

/-- A `WIGGLE` has asked for the wiggle. -/
def WiggleRequest.AskedFor (config : AppConfig) (cs : List Call) (r : WiggleRequest) : Prop :=
  ∃ c ∈ cs, ∃ token ∈ c.tokens config, ReadFrom (.wiggleStart r) token

/-- The worker was created for a call of its client, with the blocks that this asks for. -/
def SequenceWorkerArgs.AskedFor (config : AppConfig) (cs : List Call)
    (args : SequenceWorkerArgs) : Prop :=
  ∃ c ∈ cs, c.AsksBlocks config (ProfileFrom config cs) args ∧ c.client = some args.client

/-- The frame of a raw command, of a wiggle or of a block, with the numbers that calls have
asked for. -/
inductive FrameAskedFor (config : AppConfig) (cs : List Call) (cmd : CanCommand) : Prop where
  | raw (c : Call) (hc : c ∈ cs) (token : Token) (htoken : token ∈ c.tokens config)
      (hread : ReadFrom (.canSend cmd) token)
  | wiggle (r : WiggleRequest) (hr : r.AskedFor config cs) (hid : cmd.id = r.id)
      (hvalue : cmd.value ∈ [r.startValue, r.endValue, r.exitValue]) (hduration : cmd.durationMs = 0)
  | block (args : SequenceWorkerArgs) (hargs : args.AskedFor config cs) (i : ℕ)
      (hi : i < args.config.numBlocks) (hcmd : cmd = args.config.command i)

variable {config : AppConfig} {cs cs' : List Call}

theorem ProfileFrom.mono {p : ValveProfile} (h : ProfileFrom config cs p) (hsub : cs ⊆ cs') :
    ProfileFrom config cs' p := by
  intro field
  rcases h field with hdefault | ⟨c, hc, hset⟩
  · exact Or.inl hdefault
  · exact Or.inr ⟨c, hsub hc, hset⟩

theorem Call.AsksBlocks.mono {J K : ValveProfile → Prop} {c : Call} {args : SequenceWorkerArgs}
    (h : c.AsksBlocks config J args) (hJK : ∀ p, J p → K p) : c.AsksBlocks config K args := by
  rcases h with htoken | ⟨hasks, profile, hprofile, hargs⟩ | hdirect
  · exact Or.inl htoken
  · exact Or.inr (Or.inl ⟨hasks, profile, hJK profile hprofile, hargs⟩)
  · exact Or.inr (Or.inr hdirect)

theorem WiggleRequest.AskedFor.mono {r : WiggleRequest} (h : r.AskedFor config cs)
    (hsub : cs ⊆ cs') : r.AskedFor config cs' := by
  obtain ⟨c, hc, hr⟩ := h
  exact ⟨c, hsub hc, hr⟩

theorem SequenceWorkerArgs.AskedFor.mono {args : SequenceWorkerArgs}
    (h : args.AskedFor config cs) (hsub : cs ⊆ cs') : args.AskedFor config cs' := by
  obtain ⟨c, hc, hblocks, hclient⟩ := h
  exact ⟨c, hsub hc, hblocks.mono (fun _ hp => hp.mono hsub), hclient⟩

/-! ### The slots -/

/-- The slot is of the wiggle that the request asks for. -/
structure WiggleCommand.Serves (slot : WiggleCommand) (r : WiggleRequest) : Prop where
  id : slot.id = r.id
  startValue : slot.startValue = r.startValue
  endValue : slot.endValue = r.endValue
  exitValue : slot.exitValue = r.exitValue

/-- An active slot is of a wiggle that was asked for. -/
def WiggleCommand.AskedFor (config : AppConfig) (cs : List Call) (slot : WiggleCommand) : Prop :=
  slot.active = true → ∃ r : WiggleRequest, r.AskedFor config cs ∧ slot.Serves r

theorem askedFor_deactivateSlot {slot : WiggleCommand} (h : slot.AskedFor config cs) (fd : Int)
    (sendExitValue : Bool) (write : Option String) :
    (deactivateSlot fd slot sendExitValue write).1.AskedFor config cs := by
  cases hactive : slot.active with
  | false =>
    rw [deactivateSlot_inactive fd slot sendExitValue write hactive]
    exact h
  | true =>
    rw [(deactivateSlot_active fd slot sendExitValue write hactive).1]
    exact fun hzero => nomatch hzero

theorem askedFor_processSlot {slot : WiggleCommand} (h : slot.AskedFor config cs) (fd : Int)
    (now : UInt64) (write : Option String) :
    (processSlot fd now slot write).1.AskedFor config cs := by
  unfold processSlot
  split_ifs
  · exact h
  · exact askedFor_deactivateSlot h fd true write
  · exact h
  · intro hactive
    obtain ⟨r, hr, hserves⟩ := h hactive
    exact ⟨r, hr, hserves.id, hserves.startValue, hserves.endValue, hserves.exitValue⟩
  · intro hactive
    obtain ⟨r, hr, hserves⟩ := h hactive
    exact ⟨r, hr, hserves.id, hserves.startValue, hserves.endValue, hserves.exitValue⟩

/-- Every action keeps the slots to wiggles that were asked for, if a start has been. -/
theorem perform_slots_askedFor {p : Process}
    (h : ∀ i, (p.app.wiggles i).AskedFor config cs) (env : Env) (a : Act)
    (ha : ∀ r, a = .wiggleStart r → r.AskedFor config cs) (i : Fin appMaxWiggles) :
    ((perform p env a).1.app.wiggles i).AskedFor config cs := by
  cases a with
  | wiggleStart r =>
    simp only [perform, wiggleStartLocked]
    split
    · exact h i
    · rename_i j _
      by_cases hij : i = j
      · subst hij
        simp only [Process.setApp, Function.update_self]
        exact fun _ => ⟨r, ha r rfl, rfl, rfl, rfl, rfl⟩
      · simp only [Process.setApp, Function.update_of_ne hij]
        exact h i
  | wiggleStop id =>
    simp only [perform, wiggleStopLocked]
    split
    · exact h i
    · rename_i j _
      by_cases hij : i = j
      · subst hij
        simp only [Process.setApp, Function.update_self]
        exact askedFor_deactivateSlot (h i) _ _ _
      · simp only [Process.setApp, Function.update_of_ne hij]
        exact h i
  | wiggleStopAll sendExitValue => exact askedFor_deactivateSlot (h i) _ _ _
  | wiggleProcess =>
    simp only [perform, wiggleProcess]
    split_ifs
    · exact h i
    · exact askedFor_processSlot (h i) _ _ _
  | claimSequence =>
    simp only [perform, App.claimSequence]
    split_ifs <;> exact h i
  | createWorker args =>
    simp only [perform]
    split_ifs <;> exact h i
  | _ => exact h i

/-! ### The frames of an action -/

/-- The frame has a value of the wiggle in the slot. -/
def WiggleCommand.Sends (slot : WiggleCommand) (cmd : CanCommand) : Prop :=
  ∃ value ∈ [slot.startValue, slot.endValue, slot.exitValue], cmd = slot.tx value

theorem canTx_sendValue {fd : Int} {slot : WiggleCommand} {value : UInt16}
    {write : Option String} {site : CanSite} {cmd : CanCommand} {result : SendResult}
    (h : .canTx site cmd result ∈ (sendValue fd slot value write).2) : cmd = slot.tx value := by
  simp only [sendValue] at h
  split at h
  · simp only [List.mem_cons, Event.canTx.injEq, List.not_mem_nil, or_false, reduceCtorEq] at h
    exact h.2.1
  · simp only [List.mem_cons, Event.canTx.injEq, List.not_mem_nil, or_false] at h
    exact h.2.1

theorem canTx_deactivateSlot {fd : Int} {slot : WiggleCommand} {sendExitValue : Bool}
    {write : Option String} {site : CanSite} {cmd : CanCommand} {result : SendResult}
    (h : .canTx site cmd result ∈ (deactivateSlot fd slot sendExitValue write).2) :
    slot.active = true ∧ slot.Sends cmd := by
  unfold deactivateSlot at h
  split_ifs at h with hactive hsend
  · cases h
  · refine ⟨?_, slot.exitValue, by simp, canTx_sendValue h⟩
    simpa using hactive
  · cases h

theorem canTx_processSlot {fd : Int} {now : UInt64} {slot : WiggleCommand}
    {write : Option String} {site : CanSite} {cmd : CanCommand} {result : SendResult}
    (h : .canTx site cmd result ∈ (processSlot fd now slot write).2) :
    slot.active = true ∧ slot.Sends cmd := by
  unfold processSlot at h
  split_ifs at h with hactive hexpired hearly hvalue
  · cases h
  · exact canTx_deactivateSlot h
  · cases h
  · exact ⟨by simpa using hactive, slot.endValue, by simp, canTx_sendValue h⟩
  · exact ⟨by simpa using hactive, slot.startValue, by simp, canTx_sendValue h⟩

/-- A frame is the one of a raw command, the first of a wiggle that is started, or one of a
wiggle that is in the table. -/
theorem canTx_perform {p : Process} {env : Env} {a : Act} {site : CanSite} {cmd : CanCommand}
    {result : SendResult} (h : .canTx site cmd result ∈ (perform p env a).2.2) :
    a = .canSend cmd ∨ (∃ r, a = .wiggleStart r ∧ cmd = ⟨r.id, r.startValue, 0⟩) ∨
      ∃ i, (p.app.wiggles i).active = true ∧ (p.app.wiggles i).Sends cmd := by
  cases a with
  | canSend c =>
    simp only [perform, List.mem_singleton, Event.canTx.injEq] at h
    exact Or.inl (congrArg Act.canSend h.2.1.symm)
  | wiggleStart r =>
    simp only [perform, wiggleStartLocked] at h
    split at h
    · cases h
    · exact Or.inr (Or.inl ⟨r, rfl, canTx_sendValue h⟩)
  | wiggleStop id =>
    simp only [perform, wiggleStopLocked] at h
    split at h
    · cases h
    · exact Or.inr (Or.inr ⟨_, canTx_deactivateSlot h⟩)
  | wiggleStopAll sendExitValue =>
    obtain ⟨i, -, hi⟩ := List.mem_flatMap.mp h
    exact Or.inr (Or.inr ⟨i, canTx_deactivateSlot hi⟩)
  | wiggleProcess =>
    simp only [perform, wiggleProcess] at h
    split_ifs at h
    · cases h
    · obtain ⟨i, -, hi⟩ := List.mem_flatMap.mp h
      exact Or.inr (Or.inr ⟨i, canTx_processSlot hi⟩)
  | claimSequence =>
    simp only [perform] at h
    cases h
  | createWorker args =>
    simp only [perform] at h
    split_ifs at h <;> cases h
  | log kind text => cases List.mem_singleton.mp h
  | sendText client text => cases List.mem_singleton.mp h
  | broadcast text => cases List.mem_singleton.mp h
  | _ => cases h

theorem WiggleCommand.AskedFor.frame {slot : WiggleCommand} {cmd : CanCommand}
    (h : slot.AskedFor config cs) (hactive : slot.active = true) (hsends : slot.Sends cmd) :
    FrameAskedFor config cs cmd := by
  obtain ⟨r, hr, hserves⟩ := h hactive
  obtain ⟨value, hvalue, rfl⟩ := hsends
  rw [hserves.startValue, hserves.endValue, hserves.exitValue] at hvalue
  exact .wiggle r hr hserves.id hvalue rfl

/-! ### The invariant -/

/-- What an action may have to do with the calls so far: the thread is at work on a call of
its own, and does nothing that this does not ask for. -/
def Act.OnBehalf (config : AppConfig) (cs : List Call) (own : Option Call) (a : Act) : Prop :=
  ∃ c ∈ cs, own = some c ∧ c.Asks config (ProfileFrom config cs) a ∧ a.Within c.client

/-- Everything in the server that becomes a frame or a text was asked for. -/
structure Traced (config : AppConfig) (ls : List Label) (s : System) : Prop where
  mode : s.app.config = config
  -- the profile that a thread is still to read may be one that later calls have set
  threads : ∀ cs, callsMade ls ⊆ cs → ∀ t,
    Guided (ProfileAnswers (ProfileFrom config cs)) (Act.OnBehalf config cs (lastCall t ls))
      (s.threads t)
  profile : ProfileFrom config (callsMade ls) s.app.valveProfile
  slots : ∀ i, (s.app.wiggles i).AskedFor config (callsMade ls)
  workers : ∀ w ∈ s.process.workers, w.args.AskedFor config (callsMade ls) ∧
    w.pc.InRange w.args.config.numBlocks

theorem traced_initial (config : AppConfig) (canFd : Int) :
    Traced config [] (System.initial config canFd) where
  mode := rfl
  threads _ _ _ := trivial
  profile _ := Or.inl rfl
  slots _ := fun h => nomatch h
  workers _ hw := nomatch hw

theorem profileFrom_set {p : ValveProfile} (h : ProfileFrom config cs p) {field : ValveField}
    {value : UInt32} {c : Call} (hc : c ∈ cs)
    (hasks : ∃ token ∈ c.tokens config, ReadFrom (.setValve field value) token) :
    ProfileFrom config cs (p.set field value) := by
  obtain ⟨⟨kind, text⟩, htoken, hread⟩ := hasks
  have hbound : value ≤ field.bound := by
    cases kind with
    | setValve =>
      obtain ⟨name, v, f, bound, -, hname, hle, heq⟩ := hread
      obtain ⟨rfl, rfl⟩ := Act.setValve.inj heq
      exact bound_of_valveFieldOf hname ▸ hle
    | wiggleStop =>
      obtain ⟨id, -, heq⟩ := hread
      cases heq
    | wiggle =>
      obtain ⟨r, -, -, heq⟩ := hread
      cases heq
    | fire =>
      obtain ⟨ok, args, -, heq⟩ := hread
      cases heq
    | rawCan =>
      obtain ⟨f, -, heq⟩ := hread
      cases heq
  intro other
  rw [read_set p hbound]
  split_ifs with hother
  · subst hother
    exact Or.inr ⟨c, hc, _, htoken, value, hread, rfl⟩
  · exact h other

/-! ### One step -/

theorem lastCall_mem {t : Thread} {ls : List Label} {c : Call}
    (hlast : lastCall t ls = some c) : c ∈ callsMade ls := by
  obtain ⟨l, hl, hcall⟩ := List.mem_filterMap.mp (List.mem_of_getLast? hlast)
  refine List.mem_filterMap.mpr ⟨l, hl, ?_⟩
  unfold Label.callOf at hcall
  unfold Label.call
  cases hactor : l.actor with
  | call t' c' =>
    simp only [hactor] at hcall ⊢
    split_ifs at hcall
    exact hcall
  | _ => simp only [hactor, reduceCtorEq] at hcall

theorem callsMade_append (ls : List Label) (l : Label) :
    callsMade (ls ++ [l]) = callsMade ls ++ l.call.toList := by
  rw [callsMade, List.filterMap_append, callsMade]
  cases hcall : l.call <;> simp [hcall]

theorem lastCall_append (t : Thread) (ls : List Label) (l : Label) :
    lastCall t (ls ++ [l]) = (l.callOf t).or (lastCall t ls) := by
  rw [lastCall, List.filterMap_append, List.getLast?_append, lastCall]
  cases hcall : l.callOf t <;> simp [hcall]

/-- A step that is no call leaves the calls as they are. -/
theorem traced_threads {ls : List Label} {threads : Thread → Server Int} {l : Label}
    (hcall : l.call = none) (hown : ∀ t, l.callOf t = none)
    (hthreads : ∀ cs, callsMade ls ⊆ cs → ∀ t,
      Guided (ProfileAnswers (ProfileFrom config cs)) (Act.OnBehalf config cs (lastCall t ls))
        (threads t)) :
    callsMade (ls ++ [l]) = callsMade ls ∧ ∀ cs, callsMade (ls ++ [l]) ⊆ cs → ∀ t,
      Guided (ProfileAnswers (ProfileFrom config cs))
        (Act.OnBehalf config cs (lastCall t (ls ++ [l]))) (threads t) := by
  have hcalls : callsMade (ls ++ [l]) = callsMade ls := by
    rw [callsMade_append, hcall, Option.toList_none, List.append_nil]
  refine ⟨hcalls, ?_⟩
  intro cs hcs t
  rw [lastCall_append, hown, Option.none_or]
  exact hthreads cs (hcalls ▸ hcs) t

theorem traced_call {ls : List Label} {s : System} (hs : Traced config ls s) (t : Thread)
    (c : Call) (env : Env) :
    Traced config (ls ++ [⟨.call t c, env⟩])
      { s with threads := Function.update s.threads t (c.program s.app.config) } := by
  have hcalls : callsMade (ls ++ [⟨.call t c, env⟩]) = callsMade ls ++ [c] :=
    callsMade_append ls _
  have hsub : callsMade ls ⊆ callsMade (ls ++ [⟨.call t c, env⟩]) := by
    rw [hcalls]
    exact List.subset_append_left _ _
  constructor
  case mode => exact hs.mode
  case threads =>
    intro cs hcs u
    have hc : c ∈ cs := hcs (hcalls ▸ List.mem_append_right _ (List.mem_singleton_self c))
    rw [lastCall_append]
    dsimp only
    by_cases hu : u = t
    · subst hu
      have hown : Label.callOf u ⟨.call u c, env⟩ = some c := if_pos rfl
      rw [Function.update_self, hown, Option.some_or, hs.mode]
      refine ((asks_call config (ProfileFrom config cs) c).and (within_call config c)).mono
        (fun _ _ hr => hr) ?_
      intro a ha
      exact ⟨c, hc, rfl, ha⟩
    · have hown : Label.callOf u ⟨.call t c, env⟩ = none := if_neg (Ne.symm hu)
      rw [Function.update_of_ne hu, hown, Option.none_or]
      exact hs.threads cs (fun d hd => hcs (hsub hd)) u
  case profile => exact hs.profile.mono hsub
  case slots =>
    intro i hactive
    obtain ⟨r, hr, hserves⟩ := hs.slots i hactive
    exact ⟨r, hr.mono hsub, hserves⟩
  case workers =>
    intro w hw
    obtain ⟨hargs, hpc⟩ := hs.workers w hw
    exact ⟨hargs.mono hsub, hpc⟩

/-- What a thread performs is what its own call asks for. -/
theorem Traced.action {ls : List Label} {s : System} (hs : Traced config ls s) {t : Thread}
    {a : Act} {k : a.Answer → Server Int} (hk : s.threads t = Program.act (S := serverSig) a k) :
    a.OnBehalf config (callsMade ls) (lastCall t ls) := by
  have hthread := hs.threads _ (List.Subset.refl _) t
  rw [hk] at hthread
  exact hthread.1

theorem traced_thread {ls : List Label} {s : System} (hs : Traced config ls s) (t : Thread)
    (env : Env) {a : Act} {k : a.Answer → Server Int}
    (hk : s.threads t = Program.act (S := serverSig) a k) :
    Traced config (ls ++ [⟨.thread t, env⟩]) (s.afterAct t env a k) := by
  obtain ⟨c, hc, -, hasks, hwithin⟩ := hs.action hk
  have hthreads : ∀ cs, callsMade ls ⊆ cs → ∀ u,
      Guided (ProfileAnswers (ProfileFrom config cs)) (Act.OnBehalf config cs (lastCall u ls))
        ((s.afterAct t env a k).threads u) := by
    intro cs hcs u
    by_cases hu : u = t
    · subst hu
      have hthread := hs.threads cs hcs u
      rw [hk] at hthread
      simp only [System.afterAct, Function.update_self]
      refine hthread.2 _ ?_
      cases a with
      | readProfile => exact hs.profile.mono hcs
      | _ => trivial
    · simp only [System.afterAct, Function.update_of_ne hu]
      exact hs.threads cs hcs u
  obtain ⟨hcalls, hthreads⟩ := traced_threads (l := ⟨.thread t, env⟩) rfl
    (fun _ => rfl) hthreads
  constructor
  case mode => exact (perform_setup s.process env a).1.trans hs.mode
  case threads => exact hthreads
  case profile =>
    rw [hcalls]
    by_cases hset : ∃ field value, a = .setValve field value
    · obtain ⟨field, value, rfl⟩ := hset
      exact profileFrom_set hs.profile hc hasks
    · have hsame : (s.afterAct t env a k).app.valveProfile = s.app.valveProfile :=
        perform_valveProfile s.process env a (fun field value heq => hset ⟨field, value, heq⟩)
      rw [hsame]
      exact hs.profile
  case slots =>
    rw [hcalls]
    refine perform_slots_askedFor hs.slots env a ?_
    rintro r rfl
    exact ⟨c, hc, hasks⟩
  case workers =>
    rw [hcalls]
    rcases perform_workers_cases s.process env a with ⟨args, rfl, -, hworkers⟩ | ⟨-, hworkers⟩
    · have hmem : ∀ w ∈ (s.afterAct t env (.createWorker args) k).process.workers,
          w ∈ s.process.workers ++ [⟨args, .sendStarted⟩] := fun w hw => hworkers ▸ hw
      intro w hw
      rcases List.mem_append.mp (hmem w hw) with hold | hnew
      · exact hs.workers w hold
      · rw [List.mem_singleton.mp hnew]
        exact ⟨⟨c, hc, hasks, hwithin⟩, trivial⟩
    · have hsame : (s.afterAct t env a k).process.workers = s.process.workers := hworkers
      rw [hsame]
      exact hs.workers

theorem traced_worker {ls : List Label} {s : System} (hs : Traced config ls s) {k : ℕ}
    (env : Env) {args : SequenceWorkerArgs} {pc mid : WorkerPc} {e : WorkerEvent}
    (hw : s.process.workers[k]? = some ⟨args, pc⟩)
    (hm : WorkerMove args (workerInput s.app env) pc mid e) :
    Traced config (ls ++ [⟨.worker k, env⟩]) (s.afterWorker k args mid e) := by
  obtain ⟨hcalls, hthreads⟩ := traced_threads (l := ⟨.worker k, env⟩) rfl
    (fun _ => rfl) hs.threads
  have hsame : ∃ active abort, s.app.afterWorker e =
      { s.app with sequenceActive := active, sequenceAbort := abort } := by
    cases e <;> exact ⟨_, _, rfl⟩
  obtain ⟨active, abort, happ⟩ := hsame
  have happ' : (s.afterWorker k args mid e).app =
      { s.app with sequenceActive := active, sequenceAbort := abort } := happ
  obtain ⟨hargs, hpc⟩ := hs.workers _ (List.mem_of_getElem? hw)
  constructor
  case mode => rw [happ']; exact hs.mode
  case threads => exact hthreads
  case profile => rw [hcalls, happ']; exact hs.profile
  case slots => rw [hcalls, happ']; exact hs.slots
  case workers =>
    rw [hcalls]
    intro w hmem
    rcases List.mem_or_eq_of_mem_set hmem with hold | rfl
    · exact hs.workers w hold
    · exact ⟨hargs, hm.inRange hpc⟩

theorem traced_step {ls : List Label} {s : System} {l : Label} {x : System × List Output}
    (hs : Traced config ls s) (hstep : server.step s l = some x) :
    Traced config (ls ++ [l]) x.1 := by
  obtain ⟨s', os⟩ := x
  obtain ⟨actor, env⟩ := l
  have hmove := system_move hstep
  cases hmove with
  | call t c v hidle => exact traced_call hs t c env
  | thread t a k hk => exact traced_thread hs t env hk
  | worker k args pc mid e hw hm => exact traced_worker hs env hw hm
  | signal =>
    obtain ⟨hcalls, hthreads⟩ := traced_threads (l := ⟨.signal, env⟩) rfl
      (fun _ => rfl) hs.threads
    exact ⟨hs.mode, hthreads, hcalls ▸ hs.profile, hcalls ▸ hs.slots, hcalls ▸ hs.workers⟩

/-! ### Runs -/

/-- A frame that is tried has been asked for, and a text that is sent to one client is sent in
answer to that client: by the thread that is at work on a call of it, or by a worker that was
created for one. All other texts are the two announcements. -/
structure AnsweredFor (config : AppConfig) (ls : List Label) (s : System) (os : List Output) :
    Prop where
  frame : ∀ t site cmd result, .event t (.canTx site cmd result) ∈ os →
    FrameAskedFor config (callsMade ls) cmd
  attempt : ∀ k i cmd result, .worker k (.attempt i cmd result) ∈ os →
    FrameAskedFor config (callsMade ls) cmd
  reply : ∀ t client text, .event t (.sendText client text) ∈ os →
    ∃ c, lastCall t ls = some c ∧ c.client = some client
  message : ∀ k m, .worker k (.send m) ∈ os → ∃ w, s.process.workers[k]? = some w ∧
    w.args.AskedFor config (callsMade ls)
  announced : ∀ t text, .event t (.broadcast text) ∈ os → IsAnnouncement text

/-- The attempts to send a frame and their records in the log. -/
def Event.IsBus : Event → Prop
  | .canTx _ _ _ => True
  | .log kind _ => kind = "CAN_TX"
  | _ => False

/-- The text that an action hands on. -/
def Act.utterance : Act → Option Event
  | .log kind text => some (.log kind text)
  | .sendText client text => some (.sendText client text)
  | .broadcast text => some (.broadcast text)
  | _ => none

theorem isBus_sendValue {fd : Int} {slot : WiggleCommand} {value : UInt16}
    {write : Option String} {e : Event} (h : e ∈ (sendValue fd slot value write).2) : e.IsBus := by
  simp only [sendValue] at h
  rcases List.mem_cons.mp h with rfl | hlog
  · trivial
  · split at hlog
    · rw [List.mem_singleton.mp hlog]
      exact rfl
    · cases hlog

theorem isBus_deactivateSlot {fd : Int} {slot : WiggleCommand} {sendExitValue : Bool}
    {write : Option String} {e : Event}
    (h : e ∈ (deactivateSlot fd slot sendExitValue write).2) : e.IsBus := by
  unfold deactivateSlot at h
  split_ifs at h
  · cases h
  · exact isBus_sendValue h
  · cases h

theorem isBus_processSlot {fd : Int} {now : UInt64} {slot : WiggleCommand}
    {write : Option String} {e : Event} (h : e ∈ (processSlot fd now slot write).2) :
    e.IsBus := by
  unfold processSlot at h
  split_ifs at h
  · cases h
  · exact isBus_deactivateSlot h
  · cases h
  · exact isBus_sendValue h
  · exact isBus_sendValue h

/-- An action puts out its own text, or what has to do with frames. -/
theorem event_perform {p : Process} {env : Env} {a : Act} {e : Event}
    (h : e ∈ (perform p env a).2.2) : e.IsBus ∨ a.utterance = some e := by
  cases a with
  | canSend c =>
    rw [List.mem_singleton.mp h]
    exact Or.inl trivial
  | wiggleStart r =>
    simp only [perform, wiggleStartLocked] at h
    split at h
    · cases h
    · exact Or.inl (isBus_sendValue h)
  | wiggleStop id =>
    simp only [perform, wiggleStopLocked] at h
    split at h
    · cases h
    · exact Or.inl (isBus_deactivateSlot h)
  | wiggleStopAll sendExitValue =>
    obtain ⟨i, -, hi⟩ := List.mem_flatMap.mp h
    exact Or.inl (isBus_deactivateSlot hi)
  | wiggleProcess =>
    simp only [perform, wiggleProcess] at h
    split_ifs at h
    · cases h
    · obtain ⟨i, -, hi⟩ := List.mem_flatMap.mp h
      exact Or.inl (isBus_processSlot hi)
  | log kind text => exact Or.inr (congrArg some (List.mem_singleton.mp h).symm)
  | sendText client text => exact Or.inr (congrArg some (List.mem_singleton.mp h).symm)
  | broadcast text => exact Or.inr (congrArg some (List.mem_singleton.mp h).symm)
  | createWorker args =>
    simp only [perform] at h
    split_ifs at h <;> cases h
  | _ => cases h

/-- What a thread utters in a step is the text of its action. -/
theorem utterance_of_event {p : Process} {env : Env} {a : Act} {t t' : Thread} {e : Event}
    (h : Output.event t e ∈ (perform p env a).2.2.map (Output.event t')) (he : ¬ e.IsBus) :
    t' = t ∧ a.utterance = some e := by
  obtain ⟨e', he', heq⟩ := List.mem_map.mp h
  obtain ⟨rfl, rfl⟩ := Output.event.inj heq
  exact ⟨rfl, (event_perform he').resolve_left he⟩

theorem Traced.accounted_thread {ls : List Label} {s : System} (hs : Traced config ls s)
    (t : Thread) (env : Env) {a : Act} {k : a.Answer → Server Int}
    (hk : s.threads t = Program.act (S := serverSig) a k) :
    AnsweredFor config ls s ((perform s.process env a).2.2.map (.event t)) := by
  obtain ⟨c, hc, hown, hasks, hwithin⟩ := hs.action hk
  constructor
  case frame =>
    intro t' site cmd result hmem
    obtain ⟨e, he, heq⟩ := List.mem_map.mp hmem
    obtain ⟨rfl, rfl⟩ := Output.event.inj heq
    rcases canTx_perform he with rfl | ⟨r, rfl, rfl⟩ | ⟨i, hactive, hsends⟩
    · obtain ⟨token, htoken, hread⟩ := hasks
      exact .raw c hc token htoken hread
    · exact .wiggle r ⟨c, hc, hasks⟩ rfl (by simp) rfl
    · exact (hs.slots i).frame hactive hsends
  case attempt =>
    intro j i cmd result hmem
    obtain ⟨e, -, heq⟩ := List.mem_map.mp hmem
    cases heq
  case reply =>
    intro t' client text hmem
    obtain ⟨rfl, hutters⟩ := utterance_of_event hmem id
    refine ⟨c, hown, ?_⟩
    cases a with
    | sendText client' text' =>
      obtain ⟨rfl, rfl⟩ := Event.sendText.inj (Option.some.inj hutters)
      exact hwithin
    | _ => cases hutters
  case message =>
    intro j m hmem
    obtain ⟨e, -, heq⟩ := List.mem_map.mp hmem
    cases heq
  case announced =>
    intro t' text hmem
    obtain ⟨rfl, hutters⟩ := utterance_of_event hmem id
    cases a with
    | broadcast text' =>
      obtain rfl := Event.broadcast.inj (Option.some.inj hutters)
      exact hwithin
    | _ => cases hutters

theorem Traced.accounted_worker {ls : List Label} {s : System} (hs : Traced config ls s)
    {k : ℕ} (env : Env) {args : SequenceWorkerArgs} {pc mid : WorkerPc} {e : WorkerEvent}
    (hw : s.process.workers[k]? = some ⟨args, pc⟩)
    (hm : WorkerMove args (workerInput s.app env) pc mid e) :
    AnsweredFor config ls s [.worker k e] := by
  obtain ⟨hargs, hpc⟩ := hs.workers _ (List.mem_of_getElem? hw)
  constructor
  case attempt =>
    intro j i cmd result hmem
    obtain ⟨rfl, rfl⟩ := Output.worker.inj (List.mem_singleton.mp hmem)
    -- an attempt is made from the block that the worker is at
    cases hm with
    | sent i a hsent => exact .block args hargs i hpc.1 rfl
    | retry i a error hsent ha => exact .block args hargs i hpc.1 rfl
    | giveUp i a error hsent ha => exact .block args hargs i hpc.1 rfl
  case message =>
    intro j m hmem
    obtain ⟨rfl, rfl⟩ := Output.worker.inj (List.mem_singleton.mp hmem)
    exact ⟨_, hw, hargs⟩
  case frame => exact fun _ _ _ _ hmem => nomatch List.mem_singleton.mp hmem
  case reply => exact fun _ _ _ hmem => nomatch List.mem_singleton.mp hmem
  case announced => exact fun _ _ hmem => nomatch List.mem_singleton.mp hmem

theorem Traced.accounted {ls : List Label} {s s' : System} {l : Label} {os : List Output}
    (hs : Traced config ls s) (hstep : server.step s l = some (s', os)) :
    AnsweredFor config ls s os := by
  obtain ⟨actor, env⟩ := l
  have hsilent : AnsweredFor config ls s [] := by
    constructor
    case frame => exact fun _ _ _ _ hmem => nomatch hmem
    case attempt => exact fun _ _ _ _ hmem => nomatch hmem
    case reply => exact fun _ _ _ hmem => nomatch hmem
    case message => exact fun _ _ hmem => nomatch hmem
    case announced => exact fun _ _ hmem => nomatch hmem
  have hmove := system_move hstep
  cases hmove with
  | call t c v hidle => exact hsilent
  | thread t a k hk => exact hs.accounted_thread t env hk
  | worker k args pc mid e hw hm => exact hs.accounted_worker env hw hm
  | signal => exact hsilent

theorem traced_run {canFd : Int} {ls : List Label} {s : System} {os : List Output}
    (h : server.run (System.initial config canFd) ls = some (s, os)) : Traced config ls s :=
  Machine.schedule_invariant (I := Traced config) (fun _ _ _ _ hs hstep => traced_step hs hstep)
    (traced_initial config canFd) h

/-- In every run, whatever its interleaving, each frame that is tried has the numbers of a
command that was sent before: of a raw command, of a `WIGGLE` entry, of a `FIRE` block, or of
the valve profile as defaults and `SET_VALVE` have made it. -/
theorem frames_asked_for (config : AppConfig) (canFd : Int) {ls : List Label} {s s' : System}
    {l : Label} {os os' : List Output}
    (hrun : server.run (System.initial config canFd) ls = some (s, os))
    (hstep : server.step s l = some (s', os')) :
    (∀ t site cmd result, .event t (.canTx site cmd result) ∈ os' →
      FrameAskedFor config (callsMade ls) cmd) ∧
    (∀ k i cmd result, .worker k (.attempt i cmd result) ∈ os' →
      FrameAskedFor config (callsMade ls) cmd) :=
  have h := (traced_run hrun).accounted hstep
  ⟨h.frame, h.attempt⟩

/-- Two commands of client 0 on one thread, and what is left of the second one: the state is
changed, and a frame is asked for. -/
def rawCommandRun : List Label :=
  ⟨.call (.handler 0) (.message 0 "STATE#HOTFIRE".toList), luckyEnv⟩ ::
    List.replicate 8 ⟨.thread (.handler 0), luckyEnv⟩ ++
  ⟨.call (.handler 0) (.message 0 "101#2a".toList), luckyEnv⟩ ::
    List.replicate 5 ⟨.thread (.handler 0), luckyEnv⟩

theorem frames_asked_for_raw : ∃ s os s' os',
    server.run (System.initial realMode 3) rawCommandRun = some (s, os) ∧
    server.step s ⟨.thread (.handler 0), luckyEnv⟩ = some (s', os') ∧
    .event (.handler 0) (.canTx .rawCommand ⟨0x101, 0x2a, 0⟩ .sent) ∈ os' ∧
    FrameAskedFor realMode (callsMade rawCommandRun) ⟨0x101, 0x2a, 0⟩ := by
  have hfacts : ((server.run (System.initial realMode 3) rawCommandRun).bind (fun r =>
      (server.step r.1 ⟨.thread (.handler 0), luckyEnv⟩).map Prod.snd)) =
      some [.event (.handler 0) (.canTx .rawCommand ⟨0x101, 0x2a, 0⟩ .sent)] := by decide
  obtain ⟨⟨s, os⟩, hrun, hmap⟩ := Option.bind_eq_some_iff.mp hfacts
  obtain ⟨⟨s', os'⟩, hstep, hos⟩ := Option.map_eq_some_iff.mp hmap
  have hmem : Output.event (.handler 0) (.canTx .rawCommand ⟨0x101, 0x2a, 0⟩ .sent) ∈ os' := by
    rw [show os' = _ from hos]
    exact List.mem_singleton.mpr rfl
  exact ⟨s, os, s', os', hrun, hstep, hmem, (frames_asked_for realMode 3 hrun hstep).1 _ _ _ _ hmem⟩

end WsServer
