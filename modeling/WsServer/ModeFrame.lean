import WsServer.CommandOutcome

/-! What a command cannot touch. In testing mode and read only nothing behind the toggles
gets to the bus or to the context; in `PRECHILLING` the only frames are those of the wiggles. -/
namespace WsServer
open Interaction Program

/-- No frame has been attempted, and all but the client flags is as it was. -/
structure Untouched (p : Process) (tr : List (Process × Env × Act)) (p' : Process) : Prop where
  silent : ∀ site c result, Event.canTx site c result ∉ outputs (S := serverSig) perform tr
  state : p'.app.state = p.app.state
  wiggles : p'.app.wiggles = p.app.wiggles
  valveProfile : p'.app.valveProfile = p.app.valveProfile
  sequenceActive : p'.app.sequenceActive = p.app.sequenceActive
  sequenceAbort : p'.app.sequenceAbort = p.app.sequenceAbort

/-- The command is the start value of the wiggle that the step starts. -/
def StartsWith (x : Process × Env × Act) (c : CanCommand) : Prop :=
  ∃ r, x.2.2 = .wiggleStart r ∧ (wiggleStartLocked x.1.app x.2.1 r).2.1 = 0 ∧
    c = ⟨r.id, r.startValue, 0⟩

/-- The command is the exit value of a wiggle that is active in the table. -/
def ExitOf (t : WiggleTable) (c : CanCommand) : Prop :=
  ∃ i, (t i).active = true ∧ c = (t i).tx (t i).exitValue

/-- No sequence has been started, and all frames are start values of wiggles that the call
has started or exit values of wiggles that were active before it. -/
structure WigglesOnly (p : Process) (tr : List (Process × Env × Act)) (p' : Process) : Prop where
  noSequence : ∀ x ∈ tr, x.2.2.NoSequence
  sequenceActive : p'.app.sequenceActive = p.app.sequenceActive
  workers : p'.workers = p.workers
  frames : ∀ site c result, Event.canTx site c result ∈ outputs (S := serverSig) perform tr →
    (∃ x ∈ tr, StartsWith x c) ∨ ExitOf p.app.wiggles c

variable {client : Client} {p : Process} {tr : List (Process × Env × Act)} {p' : Process}

/-! ### Nothing gets through -/

theorem chat_untouched {a : Act} (h : a.kind ∈ [ActKind.chat]) (p : Process) (env : Env) :
    Untouched p [(p, env, a)] (perform p env a).1 := by
  constructor
  case silent =>
    intro site c result hmem
    rw [outputs_cons, outputs_nil, List.append_nil] at hmem
    revert h hmem
    fun_cases Act.kind a <;>
      first | exact fun h => absurd h (by decide) | simp [perform]
  all_goals
    revert h
    fun_cases Act.kind a <;> first | exact fun _ => rfl | exact fun h => absurd h (by decide)

theorem Untouched.trans {tr' : List (Process × Env × Act)} {p'' : Process}
    (h : Untouched p tr p') (h' : Untouched p' tr' p'') : Untouched p (tr ++ tr') p'' where
  silent site c result hmem := by
    rw [outputs_append] at hmem
    exact (List.mem_append.mp hmem).elim (h.silent site c result) (h'.silent site c result)
  state := h'.state.trans h.state
  wiggles := h'.wiggles.trans h.wiggles
  valveProfile := h'.valveProfile.trans h.valveProfile
  sequenceActive := h'.sequenceActive.trans h.sequenceActive
  sequenceAbort := h'.sequenceAbort.trans h.sequenceAbort

theorem kinds_untouched {β : Type} {q : Server β} (h : Kinds [.chat] q) (p : Process) :
    AlwaysEnds p q (fun tr _ p' => Untouched p tr p') := by
  induction q generalizing p with
  | ret v => exact ⟨fun _ _ _ => List.not_mem_nil, rfl, rfl, rfl, rfl, rfl⟩
  | act a k ih =>
    intro env _
    refine (ih _ (h.2 _) _).mono ?_
    intro tr v p' hrest
    exact (chat_untouched h.1 p env).trans hrest

/-! ### Only wiggles get through -/

/-- A table in which some wiggles of the first one have been stopped. -/
def Fewer (t t' : WiggleTable) : Prop := ∀ i, (t' i).active = true → t' i = t i

/-- The kinds of action that neither touch the table nor send a frame. -/
def silentKinds : List ActKind := [.chat, .abort, .getState, .storeState, .valve]

/-- A step of a call that `PRECHILLING` admits. -/
structure Admitted (t : WiggleTable) (x : Process × Env × Act) : Prop where
  noSequence : x.2.2.NoSequence
  frames : ∀ site c result, Event.canTx site c result ∈ (perform x.1 x.2.1 x.2.2).2.2 →
    StartsWith x c ∨ ExitOf t c

theorem tx_of_sendValue {fd : Int} {slot : WiggleCommand} {value : UInt16} {write : Option String}
    {site : CanSite} {c : CanCommand} {result : SendResult}
    (h : Event.canTx site c result ∈ (sendValue fd slot value write).2) : c = slot.tx value := by
  simp only [sendValue] at h
  rcases List.mem_cons.mp h with heq | hlog
  · injection heq
  · cases hsent : canBusSendCommand fd ⟨slot.id, value, 0⟩ write with
    | sent =>
      rw [hsent] at hlog
      cases List.mem_singleton.mp hlog
    | refused error =>
      rw [hsent] at hlog
      cases hlog

theorem tx_of_deactivateSlot {fd : Int} {slot : WiggleCommand} {sendExitValue : Bool}
    {write : Option String} {site : CanSite} {c : CanCommand} {result : SendResult}
    (h : Event.canTx site c result ∈ (deactivateSlot fd slot sendExitValue write).2) :
    slot.active = true ∧ c = slot.tx slot.exitValue := by
  cases hactive : slot.active with
  | false =>
    rw [deactivateSlot_inactive _ _ _ _ hactive] at h
    cases h
  | true =>
    refine ⟨rfl, ?_⟩
    unfold deactivateSlot at h
    rw [hactive, Bool.not_true, if_neg Bool.false_ne_true] at h
    cases sendExitValue with
    | false => cases h
    | true => exact tx_of_sendValue h

/-- What is sent for a slot that is still as it was is its exit value. -/
theorem Fewer.exitOf {t t' : WiggleTable} (h : Fewer t t') {i : Fin appMaxWiggles}
    (hactive : (t' i).active = true) : ExitOf t ((t' i).tx (t' i).exitValue) := by
  have hsame := h i hactive
  rw [hsame]
  exact ⟨i, hsame ▸ hactive, rfl⟩

theorem silent_of_chat {a : Act} (h : a.kind = .chat) : a.kind ∈ silentKinds := by
  rw [h]
  decide

theorem silentKind_step {a : Act} (ha : a.kind ∈ silentKinds) (q : Process) (env : Env) :
    (perform q env a).1.app.wiggles = q.app.wiggles ∧
      ∀ t, Admitted t (q, env, a) := by
  have hno : a.NoSequence := by
    apply noSequence_of_kind
    intro hkind
    rw [hkind] at ha
    exact absurd ha (by decide)
  have hsilent (hnone : ∀ site c result, Event.canTx site c result ∉ (perform q env a).2.2) :
      ∀ t, Admitted t (q, env, a) :=
    fun t => ⟨hno, fun site c result hmem => absurd hmem (hnone site c result)⟩
  revert ha hsilent
  fun_cases Act.kind a <;>
    first
    | exact fun ha => absurd ha (by decide)
    | exact fun _ hsilent => ⟨rfl, hsilent (by simp [perform])⟩

theorem wiggleStop_step {t : WiggleTable} {q : Process} (env : Env) (id : UInt32)
    (hq : Fewer t q.app.wiggles) :
    Fewer t (perform q env (.wiggleStop id)).1.app.wiggles ∧
      Admitted t (q, env, .wiggleStop id) := by
  cases hfind : findSlot q.app.wiggles id with
  | none =>
    refine ⟨?_, not_false, ?_⟩
    · simp only [perform, wiggleStopLocked, hfind, Process.setApp]
      exact hq
    · intro site c result hmem
      simp only [perform, wiggleStopLocked, hfind] at hmem
      cases hmem
  | some i =>
    refine ⟨?_, not_false, ?_⟩
    · intro j hj
      simp only [perform, wiggleStopLocked, hfind, Process.setApp] at hj ⊢
      by_cases hij : j = i
      · rw [hij, Function.update_self, deactivateSlot_active_false] at hj
        cases hj
      · rw [Function.update_of_ne hij] at hj ⊢
        exact hq j hj
    · intro site c result hmem
      simp only [perform, wiggleStopLocked, hfind] at hmem
      obtain ⟨hactive, rfl⟩ := tx_of_deactivateSlot hmem
      exact Or.inr (hq.exitOf hactive)

theorem wiggleStopAll_step {t : WiggleTable} {q : Process} (env : Env) (sendExitValue : Bool)
    (hq : Fewer t q.app.wiggles) :
    Fewer t (perform q env (.wiggleStopAll sendExitValue)).1.app.wiggles ∧
      Admitted t (q, env, .wiggleStopAll sendExitValue) := by
  refine ⟨?_, not_false, ?_⟩
  · intro i hi
    have hfree : ((perform q env (.wiggleStopAll sendExitValue)).1.app.wiggles i).active = false :=
      quiet_wiggleStopAllLocked q.app env sendExitValue i
    rw [hfree] at hi
    cases hi
  · intro site c result hmem
    obtain ⟨i, -, hmem⟩ := List.mem_flatMap.mp hmem
    obtain ⟨hactive, rfl⟩ := tx_of_deactivateSlot hmem
    exact Or.inr (hq.exitOf hactive)

/-- A start sends the start value of its request, if it finds a slot. -/
theorem wiggleStart_step (t : WiggleTable) (q : Process) (env : Env) (r : WiggleRequest) :
    Admitted t (q, env, .wiggleStart r) where
  noSequence := not_false
  frames site c result hmem := by
    left
    refine ⟨r, rfl, ?_⟩
    simp only [perform, wiggleStartLocked] at hmem ⊢
    split at hmem
    · cases hmem
    · exact ⟨rfl, tx_of_sendValue hmem⟩

/-! ### The handlers -/

/-- All steps of every run are admitted. -/
abbrev AllAdmitted {β : Type} (p : Process) (q : Server β) : Prop :=
  AlwaysEnds p q (fun tr _ _ => ∀ x ∈ tr, Admitted p.app.wiggles x)

/-- The kinds of action of the handlers that stop wiggles. -/
def calmKinds : List ActKind := [.stop, .stopAll] ++ silentKinds

theorem calmKind_step {t : WiggleTable} {q : Process} {a : Act} (ha : a.kind ∈ calmKinds) (env : Env)
    (hq : Fewer t q.app.wiggles) :
    Fewer t (perform q env a).1.app.wiggles ∧ Admitted t (q, env, a) := by
  by_cases hsilent : a.kind ∈ silentKinds
  · have hstep := silentKind_step hsilent q env
    exact ⟨hstep.1 ▸ hq, hstep.2 t⟩
  · revert ha hsilent
    fun_cases Act.kind a <;>
      first
      | exact fun ha => absurd ha (by decide)
      | exact fun _ hsilent => absurd (by decide) hsilent
      | exact fun _ _ => wiggleStop_step env _ hq
      | exact fun _ _ => wiggleStopAll_step env _ hq

theorem calm_admitted {β : Type} {q : Server β} {ks : List ActKind} (h : Kinds ks q)
    (hks : ∀ k ∈ ks, k ∈ calmKinds) : AllAdmitted p q := by
  refine (Performs.always (h.mono hks) (I := fun q => Fewer p.app.wiggles q.app.wiggles)
    (fun s env a ha hs => (calmKind_step ha env hs).1) (fun _ _ => rfl)).mono ?_
  intro tr v p' hall x hx
  exact (calmKind_step (hall.2 x hx).1 x.2.1 (hall.2 x hx).2).2

theorem handleWiggle_admitted (text : CText) : AllAdmitted p (handleWiggle client text) := by
  refine (kinds_always (kinds_handleWiggle client text)).mono ?_
  intro tr v p' hkinds x hx
  obtain ⟨q, env, a⟩ := x
  by_cases hsilent : a.kind ∈ silentKinds
  · exact (silentKind_step hsilent q env).2 _
  · have hkind : a.kind ∈ [ActKind.start] := by
      have hmem := hkinds _ hx
      revert hmem hsilent
      cases a.kind <;> decide
    obtain ⟨r, rfl⟩ := start_of_kind hkind
    exact wiggleStart_step _ q env r

/-- A handler that takes the text ends the chain. -/
theorem taken_admitted {handler : Server Bool} (rest : Server Unit) {found : Option Command}
    (htakes : TakesWith client p handler found) (h : AllAdmitted p handler) :
    AllAdmitted p (handler >>= fun taken => if taken then pure () else rest) := by
  refine always_bind.mpr ((htakes.and h).mono ?_)
  rintro tr v p' ⟨⟨rfl, -⟩, hall⟩
  change ∀ x ∈ tr ++ [], Admitted p.app.wiggles x
  rw [List.append_nil]
  exact hall

/-- A step in front that keeps the table. -/
theorem silent_admitted {β : Type} {a : Act} {f : a.Answer → Server β}
    (ha : a.kind ∈ silentKinds)
    (h : ∀ env, AllAdmitted (perform p env a).1 (f (perform p env a).2.1)) :
    AllAdmitted p (act a >>= f) := by
  intro env _
  refine (h env).mono ?_
  intro tr v p' hall
  obtain ⟨htable, hstep⟩ := silentKind_step ha p env
  rw [htable] at hall
  exact List.forall_mem_cons.mpr ⟨hstep _, hall⟩

theorem reply_admitted (msg : String) : AllAdmitted p (sendReply client msg) :=
  silent_admitted (f := pure) (silent_of_chat rfl) (fun _ => List.forall_mem_nil _)

/-- `PRECHILLING` ends every call that gets to the gate. -/
theorem hotfireHandlers_admitted (hstate : p.app.state = .prechilling) (text : CText) :
    AllAdmitted p (hotfireHandlers client text) := by
  apply silent_admitted (by decide)
  intro env
  change AllAdmitted p (if p.app.state = .prechilling then _ else _)
  rw [if_pos hstate]
  exact reply_admitted _

theorem copyHandlers_admitted (hstate : p.app.state = .prechilling) (text : CText) :
    AllAdmitted p (copyHandlers client text) := by
  apply silent_admitted (by decide)
  intro env
  change AllAdmitted p (if !env.alloc then _ else _)
  split_ifs
  · exact reply_admitted _
  cases hstop : hasPrefix "WIGGLE_STOP" text with
  | true =>
    exact taken_admitted _ (takes_handleWiggleStop hstop)
      (calm_admitted (kinds_handleWiggleStop client text) (by decide))
  | false =>
    rw [handleWiggleStop_other client hstop, Program.pure_eq, Program.ret_bind,
      if_neg Bool.false_ne_true]
    cases hwiggle : hasPrefix "WIGGLE" text with
    | true => exact taken_admitted _ (takes_handleWiggle hwiggle hstop) (handleWiggle_admitted text)
    | false =>
      rw [handleWiggle_other client hwiggle, Program.pure_eq, Program.ret_bind,
        if_neg Bool.false_ne_true]
      exact hotfireHandlers_admitted hstate text

theorem dispatch_admitted (hstate : p.app.state = .prechilling) (text : CText) :
    AllAdmitted p (dispatch realMode client text) := by
  change AllAdmitted p (handleAbort client text >>= _)
  by_cases habort : text = "ABORT#8765".toList
  · exact taken_admitted _ (takes_handleAbort habort)
      (calm_admitted (kinds_handleAbort client text) (by decide))
  rw [handleAbort_other client habort, Program.pure_eq, Program.ret_bind,
    if_neg Bool.false_ne_true]
  cases hstateCommand : hasPrefix "STATE#" text with
  | true =>
    -- this handler may leave `PRECHILLING`, but it takes the text and ends the call
    exact taken_admitted _ (takes_handleStateCommand hstateCommand)
      (calm_admitted (kinds_handleStateCommand client text) (by decide))
  | false =>
    rw [handleStateCommand_other client hstateCommand, Program.pure_eq, Program.ret_bind,
      if_neg Bool.false_ne_true]
    cases hset : hasPrefix "SET_VALVE" text with
    | true =>
      exact taken_admitted _ (takes_handleSetValve hset)
        (calm_admitted (kinds_handleSetValve client text) (by decide))
    | false =>
      rw [handleSetValve_other client hset, Program.pure_eq, Program.ret_bind,
        if_neg Bool.false_ne_true]
      exact copyHandlers_admitted hstate text

theorem command_admitted (client : Client) (text : CText) (hstate : p.app.state = .prechilling) :
    AllAdmitted p (commandHandleText realMode client text) := by
  by_cases htoggle : IsReadToggle text
  · apply always_readToggle htoggle
    · intro env env₁ env₂ b q p' x hx
      have hkind : x.2.2.kind = .chat := by
        simp only [List.mem_cons, List.not_mem_nil, or_false] at hx
        rcases hx with rfl | rfl | rfl <;> rfl
      exact (silentKind_step (silent_of_chat hkind) x.1 x.2.1).2 _
    · intro env
      refine (dispatch_admitted hstate _).mono ?_
      intro tr v p' hall
      exact List.forall_mem_cons.mpr ⟨(silentKind_step (silent_of_chat rfl) p env).2 _, hall⟩
  · rw [commandHandleText_other realMode client htoggle]
    exact silent_admitted (silent_of_chat rfl) (fun _ => dispatch_admitted hstate _)

/-! ### The law -/

/-- A run without the start of a sequence keeps the flag and the workers. -/
theorem sameSequence_of_runs {β : Type} {q : Server β} {v : β}
    (h : Runs (S := serverSig) perform q p tr v p') (hno : ∀ x ∈ tr, x.2.2.NoSequence) :
    SameSequence p p' := by
  induction q generalizing p tr with
  | ret w =>
    obtain ⟨-, -, rfl⟩ := h
    exact ⟨rfl, rfl, rfl, rfl, rfl⟩
  | act a k ih =>
    obtain ⟨env, rest, rfl, hrest⟩ := h
    obtain ⟨ha, hno⟩ := List.forall_mem_cons.mp hno
    have hfirst := perform_sameSequence p env a ha
    have hlast := ih _ hrest hno
    exact ⟨hlast.active.trans hfirst.active, hlast.stop.trans hfirst.stop,
      hlast.canFd.trans hfirst.canFd, hlast.config.trans hfirst.config,
      hlast.workers.trans hfirst.workers⟩

theorem wigglesOnly_of_admitted {β : Type} {q : Server β} (h : AllAdmitted p q) :
    AlwaysEnds p q (fun tr _ p' => WigglesOnly p tr p') := by
  apply always_iff.mpr
  intro tr v p' hrun hE
  have hall := always_iff.mp h tr v p' hrun hE
  have hsame := sameSequence_of_runs hrun (fun x hx => (hall x hx).noSequence)
  refine ⟨fun x hx => (hall x hx).noSequence, hsame.active, hsame.workers, ?_⟩
  intro site c result hmem
  obtain ⟨x, hx, hmem⟩ := List.mem_flatMap.mp hmem
  rcases (hall x hx).frames site c result hmem with hstart | hexit
  · exact Or.inl ⟨x, hx, hstart⟩
  · exact Or.inr hexit

/-- For every text, client and context: in testing mode and read only a call is without
effect; in `PRECHILLING` it starts no sequence, and all its frames are those of wiggles that
it starts or that were active. -/
theorem mode_frame (client : Client) (text : CText) (p : Process) :
    AlwaysEnds p (commandHandleText p.app.config client text) (fun tr _ p' =>
      (p.app.config.testingMode = true ∨ p.app.config.readOnly = true → Untouched p tr p') ∧
      (p.app.config.testingMode = false → p.app.config.readOnly = false →
        p.app.state = .prechilling → WigglesOnly p tr p')) := by
  by_cases hguarded : p.app.config.testingMode = true ∨ p.app.config.readOnly = true
  · refine (kinds_untouched (kinds_guarded hguarded client text) p).mono ?_
    intro tr v p' huntouched
    refine ⟨fun _ => huntouched, fun htesting hread => ?_⟩
    rw [htesting, hread] at hguarded
    exact absurd hguarded (by decide)
  · obtain ⟨htesting, hread⟩ := not_or.mp hguarded
    have hconfig : p.app.config = realMode :=
      congrArg₂ AppConfig.mk (eq_false_of_ne_true hread) (eq_false_of_ne_true htesting)
    by_cases hstate : p.app.state = .prechilling
    · rw [hconfig]
      refine (wigglesOnly_of_admitted (command_admitted client text hstate)).mono ?_
      intro tr v p' hwiggles
      exact ⟨fun h => absurd h (by decide), fun _ _ _ => hwiggles⟩
    · apply always_iff.mpr
      intro tr v p' hrun hE
      exact ⟨fun h => absurd h hguarded, fun _ _ h => absurd h hstate⟩

end WsServer
