import WsServer.LockedServer

/-! What each critical section comes to, with the lock in hand all the time: the action that
`perform` takes in one step. -/
namespace WsServer
open Interaction Sections

section
variable {logging : Bool} {c : Control} {t : Thread} {held : Mutex → Prop}
  {old new : ∀ m, GuardedData m} {os : List Output} {fd : Int}

/-- Thread `t` in its section comes to a result that its step could have had at once. -/
abbrev InSection (logging : Bool) (c : Control) (t : Thread) (held : Mutex → Prop)
    (old new : ∀ m, GuardedData m) (os : List Output) (p : Pieces Unit) : Prop :=
  (lockedSections logging).Carries server c (.thread t) held old new os p

/-! ### One access -/

/-- The data with another slot. -/
def setSlot (new : ∀ m, GuardedData m) (i : Fin appMaxWiggles) (slot : WiggleCommand) :
    ∀ m, GuardedData m :=
  Function.update new .state
    ({ new .state with wiggles := Function.update (new .state).wiggles i slot } : ModeTable)

theorem setSlot_wiggles (i : Fin appMaxWiggles) (slot : WiggleCommand) :
    (setSlot new i slot .state).wiggles = Function.update (new .state).wiggles i slot := rfl

theorem setSlot_same (i : Fin appMaxWiggles) : setSlot new i ((new .state).wiggles i) = new := by
  unfold setSlot
  rw [Function.update_eq_self]
  exact Function.update_eq_self _ _

theorem setSlot_setSlot (i : Fin appMaxWiggles) (slot slot' : WiggleCommand) :
    setSlot (setSlot new i slot) i slot' = setSlot new i slot' := by
  unfold setSlot
  rw [Function.update_idem]
  simp only [Function.update_self, Function.update_idem]

theorem carries_readMode {k : AppState → Pieces Unit} (hheld : held .state)
    (h : InSection logging c t held old new os (k (new .state).mode)) :
    InSection logging c t held old new os (Locked.stateAccess .readMode >>= k) := by
  refine ⟨hheld, ?_⟩
  change InSection logging c t held old (Function.update new .state (new .state)) os _
  rw [Function.update_eq_self]
  exact h

theorem carries_readSlot {i : Fin appMaxWiggles} {slot : WiggleCommand}
    {k : WiggleCommand → Pieces Unit} (hheld : held .state)
    (hslot : (new .state).wiggles i = slot)
    (h : InSection logging c t held old new os (k slot)) :
    InSection logging c t held old new os (Locked.stateAccess (.readSlot i) >>= k) := by
  subst hslot
  refine ⟨hheld, ?_⟩
  change InSection logging c t held old (Function.update new .state (new .state)) os _
  rw [Function.update_eq_self]
  exact h

theorem carries_assign {i : Fin appMaxWiggles} {change : WiggleCommand → WiggleCommand}
    {k : Unit → Pieces Unit} (hheld : held .state)
    (h : InSection logging c t held old (setSlot new i (change ((new .state).wiggles i))) os
      (k ())) :
    InSection logging c t held old new os (Locked.stateAccess (.assign i change) >>= k) :=
  ⟨hheld, h⟩

theorem carries_monotonicMs {k : UInt64 → Pieces Unit}
    (h : ∀ now, InSection logging c t held old new os (k now)) :
    InSection logging c t held old new os (Locked.io .monotonicMs >>= k) := by
  intro e
  change InSection logging c t held old new (os ++ []) (k e.env.now)
  rw [List.append_nil]
  exact h e.env.now

theorem carries_log {kind text : String} {k : Unit → Pieces Unit} (hlogger : ¬ held .logger)
    (h : InSection logging c t held old new (os ++ [.event t (.log kind text)]) (k ())) :
    InSection logging c t held old new os (Locked.loggerPrintf logging kind text >>= k) := by
  unfold Locked.loggerPrintf
  split_ifs
  · exact Carries.aside hlogger (fun _ => h)
  · exact fun _ => h

/-! ### The functions of wiggle.c -/

/-- What `send_value` does to its slot, for some answer of the socket. -/
theorem carries_sendValue {i : Fin appMaxWiggles} {value : UInt16} {k : Unit → Pieces Unit}
    (hheld : held .state) (hlogger : ¬ held .logger)
    (h : ∀ write, InSection logging c t held old
      (setSlot new i (sendValue fd ((new .state).wiggles i) value write).1)
      (os ++ (sendValue fd ((new .state).wiggles i) value write).2.map (.event t)) (k ())) :
    InSection logging c t held old new os (Locked.sendValue logging fd i value >>= k) := by
  rw [Locked.sendValue, Program.bind_assoc]
  refine carries_assign hheld ?_
  rw [Program.bind_assoc]
  refine carries_readSlot hheld (Function.update_self _ _ _) ?_
  intro e
  have hnow := h (e.env.write 0)
  simp only [sendValue, List.map_cons] at hnow
  cases hresult : canBusSendCommand fd ⟨((new .state).wiggles i).id, value, 0⟩ (e.env.write 0) with
  | sent =>
    simp only [hresult, List.map_cons, List.map_nil] at hnow
    simp only [Party.ask, Party.puts, hresult]
    refine carries_log hlogger ?_
    rw [List.append_assoc]
    exact hnow
  | refused error =>
    simp only [hresult, List.map_nil] at hnow
    simp only [Party.ask, Party.puts, hresult]
    exact hnow

theorem carries_deactivateSlot {i : Fin appMaxWiggles} {sendExitValue : Bool}
    {k : Unit → Pieces Unit} (hheld : held .state) (hlogger : ¬ held .logger)
    (h : ∀ write, InSection logging c t held old
      (setSlot new i (deactivateSlot fd ((new .state).wiggles i) sendExitValue write).1)
      (os ++ (deactivateSlot fd ((new .state).wiggles i) sendExitValue write).2.map (.event t))
      (k ())) :
    InSection logging c t held old new os
      (Locked.deactivateSlot logging fd i sendExitValue >>= k) := by
  rw [Locked.deactivateSlot, Program.bind_assoc]
  refine carries_readSlot hheld rfl ?_
  cases hactive : ((new .state).wiggles i).active with
  | false =>
    have hnow := h none
    simp only [deactivateSlot, hactive, Bool.not_false, if_true, List.map_nil, List.append_nil,
      setSlot_same] at hnow
    exact hnow
  | true =>
    simp only [deactivateSlot, hactive, Bool.not_true, Bool.false_eq_true, if_false] at h ⊢
    rw [Program.bind_assoc]
    cases sendExitValue with
    | false =>
      refine carries_assign hheld ?_
      have hnow := h none
      simp only [Bool.false_eq_true, if_false, List.map_nil, List.append_nil] at hnow
      exact hnow
    | true =>
      simp only [if_true] at h ⊢
      refine carries_sendValue hheld hlogger (fun write => ?_)
      refine carries_assign hheld ?_
      rw [setSlot_setSlot]
      exact h write

theorem carries_processSlot {now : UInt64} {i : Fin appMaxWiggles} {k : Unit → Pieces Unit}
    (hheld : held .state) (hlogger : ¬ held .logger)
    (h : ∀ write, InSection logging c t held old
      (setSlot new i (processSlot fd now ((new .state).wiggles i) write).1)
      (os ++ (processSlot fd now ((new .state).wiggles i) write).2.map (.event t)) (k ())) :
    InSection logging c t held old new os (Locked.processSlot logging fd now i >>= k) := by
  rw [Locked.processSlot, Program.bind_assoc]
  refine carries_readSlot hheld rfl ?_
  have hskip (hno : ∀ write, processSlot fd now ((new .state).wiggles i) write =
      ((new .state).wiggles i, [])) : InSection logging c t held old new os (k ()) := by
    have hnow := h none
    rw [hno none, setSlot_same, List.map_nil, List.append_nil] at hnow
    exact hnow
  cases hactive : ((new .state).wiggles i).active with
  | false => exact hskip (fun write => by simp only [processSlot, hactive, Bool.not_false, if_true])
  | true =>
    simp only [Bool.not_true, Bool.false_eq_true, if_false]
    by_cases hover : ((new .state).wiggles i).totalDurationMs > 0 ∧
        ((new .state).wiggles i).stopTimeMs > 0 ∧ now ≥ ((new .state).wiggles i).stopTimeMs
    · rw [if_pos hover]
      simp only [processSlot, hactive, Bool.not_true, Bool.false_eq_true, if_false, if_pos hover] at h
      exact carries_deactivateSlot hheld hlogger h
    · rw [if_neg hover]
      by_cases hearly : now < ((new .state).wiggles i).nextToggleMs
      · rw [if_pos hearly]
        exact hskip (fun write => by
          simp only [processSlot, hactive, Bool.not_true, Bool.false_eq_true, if_false,
            if_neg hover, if_pos hearly])
      · rw [if_neg hearly, Program.bind_assoc]
        simp only [processSlot, hactive, Bool.not_true, Bool.false_eq_true, if_false,
          if_neg hover, if_neg hearly] at h
        refine carries_sendValue hheld hlogger (fun write => ?_)
        refine carries_assign hheld ?_
        rw [setSlot_setSlot, setSlot_wiggles, Function.update_self]
        exact h write

/-- The slot that `wiggle_start` fills, before it sends the first value. -/
def filledSlot (r : WiggleRequest) (now : UInt64) (slot : WiggleCommand) : WiggleCommand where
  id := r.id
  startValue := r.startValue
  endValue := r.endValue
  currentValue := slot.currentValue
  exitValue := r.exitValue
  periodMs := r.periodMs
  totalDurationMs := r.totalDurationMs
  nextToggleMs := slot.nextToggleMs
  stopTimeMs := if r.totalDurationMs ≠ 0 then now + r.totalDurationMs.toUInt64 else 0
  active := true

theorem carries_fillSlot {i : Fin appMaxWiggles} {now : UInt64} {r : WiggleRequest}
    {k : Unit → Pieces Unit} (hheld : held .state)
    (h : InSection logging c t held old
      (setSlot new i (filledSlot r now ((new .state).wiggles i))) os (k ())) :
    InSection logging c t held old new os (Locked.fillSlot i now r >>= k) := by
  rw [Locked.fillSlot]
  simp only [Program.bind_assoc]
  refine carries_assign hheld (carries_assign hheld (carries_assign hheld (carries_assign hheld ?_)))
  refine carries_assign hheld (carries_assign hheld (carries_assign hheld (carries_assign hheld ?_)))
  simp only [setSlot_setSlot, setSlot_wiggles, Function.update_self]
  exact h

theorem carries_findSlot {id : UInt32} {slots : List (Fin appMaxWiggles)}
    {k : Option (Fin appMaxWiggles) → Pieces Unit} (hheld : held .state)
    (h : InSection logging c t held old new os (k (slots.find? (fun i =>
      ((new .state).wiggles i).active && ((new .state).wiggles i).id == id)))) :
    InSection logging c t held old new os (Locked.findSlot id slots >>= k) := by
  induction slots with
  | nil => exact h
  | cons i rest ih =>
    rw [Locked.findSlot, Program.bind_assoc]
    refine carries_readSlot hheld rfl ?_
    rw [List.find?_cons] at h
    cases hfound : ((new .state).wiggles i).active && ((new .state).wiggles i).id == id with
    | true =>
      rw [hfound] at h
      exact h
    | false =>
      rw [hfound] at h
      exact ih h

theorem carries_allocSlot {slots : List (Fin appMaxWiggles)}
    {k : Option (Fin appMaxWiggles) → Pieces Unit} (hheld : held .state)
    (h : InSection logging c t held old new os (k (slots.find? (fun i =>
      !((new .state).wiggles i).active)))) :
    InSection logging c t held old new os (Locked.allocSlot slots >>= k) := by
  induction slots with
  | nil => exact h
  | cons i rest ih =>
    rw [Locked.allocSlot, Program.bind_assoc]
    refine carries_readSlot hheld rfl ?_
    rw [List.find?_cons] at h
    cases hfound : !((new .state).wiggles i).active with
    | true =>
      rw [hfound] at h
      exact h
    | false =>
      rw [hfound] at h
      exact ih h

/-! ### The loops over the slots -/

/-- The data with these slots changed, each by itself. -/
def setSlots (new : ∀ m, GuardedData m) (slots : List (Fin appMaxWiggles))
    (f : Fin appMaxWiggles → WiggleCommand) : ∀ m, GuardedData m :=
  Function.update new .state
    ({ new .state with
      wiggles := fun i => if i ∈ slots then f i else (new .state).wiggles i } : ModeTable)

theorem setSlots_nil (f : Fin appMaxWiggles → WiggleCommand) : setSlots new [] f = new := by
  simp only [setSlots, List.not_mem_nil, if_false]
  exact Function.update_eq_self _ _

/-- One slot after the other. -/
theorem setSlots_cons {i : Fin appMaxWiggles} {rest : List (Fin appMaxWiggles)} (hi : i ∉ rest)
    (f : Fin appMaxWiggles → WiggleCommand) :
    setSlots (setSlot new i (f i)) rest f = setSlots new (i :: rest) f := by
  unfold setSlots setSlot
  rw [Function.update_idem]
  refine congrArg (Function.update new Mutex.state) ?_
  simp only [Function.update_self, ModeTable.mk.injEq, true_and]
  funext j
  by_cases hj : j = i
  · subst hj
    rw [if_neg hi, Function.update_self, if_pos List.mem_cons_self]
  · simp only [Function.update_of_ne hj, List.mem_cons, hj, false_or]

theorem setSlots_congr {slots : List (Fin appMaxWiggles)} {f g : Fin appMaxWiggles → WiggleCommand}
    (h : ∀ i ∈ slots, f i = g i) : setSlots new slots f = setSlots new slots g := by
  have hsame : (fun i => if i ∈ slots then f i else (new .state).wiggles i) =
      fun i => if i ∈ slots then g i else (new .state).wiggles i := by
    funext i
    split_ifs with hi
    · exact h i hi
    · rfl
  rw [setSlots, setSlots, hsame]

/-- What a loop does that handles each slot by itself. -/
abbrev AfterSlots (logging : Bool) (c : Control) (t : Thread) (held : Mutex → Prop)
    (old new : ∀ m, GuardedData m) (os : List Output) (slots : List (Fin appMaxWiggles))
    (body : WiggleCommand → Option String → WiggleCommand × List Event) (p : Pieces Unit) : Prop :=
  ∀ write : ℕ → Option String, InSection logging c t held old
    (setSlots new slots (fun i => (body ((new .state).wiggles i) (write i)).1))
    (os ++ (slots.flatMap (fun i => (body ((new .state).wiggles i) (write i)).2)).map (.event t)) p

/-- Behind the first slot the loop goes on with the others, which are as they were. -/
theorem AfterSlots.cons {i : Fin appMaxWiggles} {rest : List (Fin appMaxWiggles)}
    {body : WiggleCommand → Option String → WiggleCommand × List Event} {p : Pieces Unit}
    (h : AfterSlots logging c t held old new os (i :: rest) body p) (hi : i ∉ rest)
    (write : Option String) :
    AfterSlots logging c t held old (setSlot new i (body ((new .state).wiggles i) write).1)
      (os ++ (body ((new .state).wiggles i) write).2.map (.event t)) rest body p := by
  intro others
  let all : ℕ → Option String := Function.update others i write
  have hself : all i = write := Function.update_self _ _ _
  have hrest (j : ℕ) (hj : j ≠ i) : all j = others j := Function.update_of_ne hj _ _
  have hother (j : Fin appMaxWiggles) (hj : j ∈ rest) : body
      ((setSlot new i (body ((new .state).wiggles i) write).1 .state).wiggles j) (others j) =
        body ((new .state).wiggles j) (all j) := by
    have hji : j ≠ i := fun hji => hi (hji ▸ hj)
    have hval : (j : ℕ) ≠ i := fun hval => hji (Fin.ext hval)
    rw [setSlot_wiggles, Function.update_of_ne hji, hrest j hval]
  have hnow := h all
  rw [← setSlots_cons hi, List.flatMap_cons, List.map_append, hself, ← List.append_assoc] at hnow
  rw [setSlots_congr (fun j hj => congrArg Prod.fst (hother j hj)),
    List.flatMap_congr (fun j hj => congrArg Prod.snd (hother j hj))]
  exact hnow

theorem carries_processSlots {now : UInt64} {slots : List (Fin appMaxWiggles)}
    {k : Unit → Pieces Unit} (hheld : held .state) (hlogger : ¬ held .logger)
    (hnodup : slots.Nodup)
    (h : AfterSlots logging c t held old new os slots (processSlot fd now) (k ())) :
    InSection logging c t held old new os
      (slots.forM (Locked.processSlot logging fd now) >>= k) := by
  induction slots generalizing new os with
  | nil =>
    have hnow := h (fun _ => none)
    rw [setSlots_nil, List.flatMap_nil, List.map_nil, List.append_nil] at hnow
    exact hnow
  | cons i rest ih =>
    obtain ⟨hi, hrest⟩ := List.nodup_cons.mp hnodup
    rw [List.forM_eq_forM, List.forM_cons, Program.bind_assoc]
    refine carries_processSlot hheld hlogger (fun write => ?_)
    exact ih hrest (h.cons hi write)

theorem carries_stopSlots {sendExitValue : Bool} {slots : List (Fin appMaxWiggles)} {n : ℕ}
    {k : ℕ → Pieces Unit} (hheld : held .state) (hlogger : ¬ held .logger) (hnodup : slots.Nodup)
    (h : AfterSlots logging c t held old new os slots
      (fun slot write => deactivateSlot fd slot sendExitValue write)
      (k (n + slots.countP (fun i => ((new .state).wiggles i).active)))) :
    InSection logging c t held old new os
      (Locked.stopSlots logging fd sendExitValue slots n >>= k) := by
  induction slots generalizing new os n with
  | nil =>
    have hnow := h (fun _ => none)
    rw [setSlots_nil, List.flatMap_nil, List.map_nil, List.append_nil] at hnow
    exact hnow
  | cons i rest ih =>
    obtain ⟨hi, hrest⟩ := List.nodup_cons.mp hnodup
    -- the slots that are left are as they were
    have hcount (slot : WiggleCommand) :
        rest.countP (fun j => ((setSlot new i slot .state).wiggles j).active) =
          rest.countP (fun j => ((new .state).wiggles j).active) := by
      refine List.countP_congr (fun j hj => ?_)
      have hji : j ≠ i := fun hji => hi (hji ▸ hj)
      rw [setSlot_wiggles, Function.update_of_ne hji]
    rw [Locked.stopSlots, Program.bind_assoc]
    refine carries_readSlot hheld rfl ?_
    cases hactive : ((new .state).wiggles i).active with
    | true =>
      simp only [if_true]
      rw [Program.bind_assoc]
      refine carries_deactivateSlot hheld hlogger (fun write => ih hrest ?_)
      have hall := List.countP_cons_of_pos (p := fun j => ((new .state).wiggles j).active)
        (l := rest) hactive
      have hnow := h.cons hi write
      rw [hall] at hnow
      rw [hcount, Nat.add_right_comm, Nat.add_assoc]
      exact hnow
    | false =>
      simp only [Bool.false_eq_true, if_false]
      apply ih hrest
      have hsame : deactivateSlot fd ((new .state).wiggles i) sendExitValue none =
          ((new .state).wiggles i, []) := by
        simp only [deactivateSlot, hactive, Bool.not_false, if_true]
      have hall := List.countP_cons_of_neg (p := fun j => ((new .state).wiggles j).active)
        (l := rest) (by rw [hactive]; exact Bool.false_ne_true)
      have hnow := h.cons hi none
      rw [hsame, setSlot_same, List.map_nil, List.append_nil, hall] at hnow
      exact hnow

end

/-! ### Whole sections -/

section
variable {logging : Bool} {t : Thread} {fd : Int} {a : Act} {k : a.Answer → Server Int}

/-- With the table as it is, the action comes to this answer, this table and these events. -/
def Comes (fd : Int) (a : Act) (table : ModeTable) (r : a.Answer) (table' : ModeTable)
    (events : List Event) : Prop :=
  ∀ p : Process, p.app.canFd = fd → p.app.state = table.mode → p.app.wiggles = table.wiggles →
    ∃ env, perform p env a =
      (p.setApp (p.app.setGuarded table' ⟨p.app.sequenceActive, p.app.sequenceAbort⟩), r, events)

/-- The locks in a section of one lock. -/
def only (m : Mutex) : Mutex → Prop := fun n => n = m ∨ False

theorem thread_of_control {s : System} (h : s.control (.thread t) = some (.acting t a k fd)) :
    s.threads t = .act a k ∧ s.app.canFd = fd := by
  unfold System.control at h
  cases hprogram : s.threads t with
  | ret v =>
    simp only [hprogram] at h
    cases h
  | act b k' =>
    simp only [hprogram] at h
    cases h
    exact ⟨rfl, rfl⟩

/-- The result of a section is one that the action could have had. -/
theorem commits_section {m : Mutex} {old new : ∀ n, GuardedData n} {r : a.Answer}
    {w : List Event} {rest : Pieces Unit}
    (hrest : Unwinds (X := lockedSections logging) (only m) rest)
    (h : ∀ (s : System) (d : ∀ n, GuardedData n), s.app.canFd = fd → s.guarded m = old m →
      d m = new m → (∀ n, n ≠ m → d n = s.guarded n) →
      ∃ env, perform s.process env a = ((s.setGuarded d).process, r, w)) :
    (lockedSections logging).Carries server (.acting t a k fd) (.thread t) (only m) old new
      (w.map (.event t)) (Locked.commit (Locked.answer t (k r)) [] >>= fun _ => rest) := by
  refine ⟨fun _ _ => rfl, hrest, ?_⟩
  intro s d hcontrol hheld hfree
  obtain ⟨hprogram, hfd⟩ := thread_of_control hcontrol
  obtain ⟨hold, hnew⟩ := hheld m (Or.inl rfl)
  have hothers : ∀ n, n ≠ m → d n = s.guarded n := by
    intro n hn
    exact hfree n (fun hnm => hn (hnm.resolve_right id))
  obtain ⟨env, hperform⟩ := h s d hfd hold hnew hothers
  refine ⟨⟨.tick, env⟩, ?_⟩
  simp only [server, System.step, Control.label, hprogram, hperform, List.append_nil]
  rfl

theorem unwinds_release (m : Mutex) :
    Unwinds (X := lockedSections logging) (only m) (Locked.release m >>= fun _ => .ret ()) := by
  refine ⟨Or.inl rfl, ?_⟩
  rintro n ⟨hn, hnm⟩
  exact hn (hnm.resolve_right id)

/-- An action of `state_lock` is carried out by a body that comes to its results. -/
theorem carries_under_state {body : Pieces a.Answer}
    (hbody : ∀ (old new : ∀ m, GuardedData m) (rest : a.Answer → Pieces Unit),
      (∀ r table events, Comes fd a (new .state) r table events →
        InSection logging (.acting t a k fd) t (only .state) old
          (Function.update new .state table) (events.map (.event t)) (rest r)) →
      InSection logging (.acting t a k fd) t (only .state) old new [] (body >>= rest))
    (old new : ∀ m, GuardedData m) :
    InSection logging (.acting t a k fd) t (fun _ => False) old new []
      (Locked.under .state t body k) := by
  intro d
  refine hbody _ _ _ (fun r table events hcomes => ?_)
  refine commits_section (unwinds_release .state) (fun s d' hfd hold hnew hothers => ?_)
  rw [Function.update_self] at hold hnew hcomes
  have hmode : s.app.state = (d : ModeTable).mode := congrArg ModeTable.mode hold
  have hwiggles : s.app.wiggles = (d : ModeTable).wiggles := congrArg ModeTable.wiggles hold
  obtain ⟨env, hperform⟩ := hcomes s.process hfd hmode hwiggles
  refine ⟨env, hperform.trans ?_⟩
  rw [System.setGuarded, hnew, hothers .sequence (by decide)]
  rfl

theorem notLogger : ¬ only .state .logger := by
  rintro (h | h)
  · cases h
  · exact h

/-- An action that leaves the table as it is. -/
theorem setGuarded_same {app : App} {table : ModeTable} (hmode : app.state = table.mode)
    (hwiggles : app.wiggles = table.wiggles) :
    app.setGuarded table ⟨app.sequenceActive, app.sequenceAbort⟩ = app := by
  rw [App.setGuarded, ← hmode, ← hwiggles]

/-- What the environment answers in a section that hears of the clock and of the socket. -/
def sectionEnv (now : UInt64) (write : ℕ → Option String) : Env := ⟨now, write, true, true⟩

theorem carries_getState {k : AppState → Server Int} (old new : ∀ m, GuardedData m) :
    InSection logging (.acting t .getState k fd) t (fun _ => False) old new []
      (Locked.under .state t (Locked.stateAccess .readMode) k) := by
  refine carries_under_state (fun old new rest h => ?_) old new
  refine carries_readMode (Or.inl rfl) ?_
  have hnow := h (new .state).mode (new .state) []
  rw [Function.update_eq_self] at hnow
  refine hnow (fun p hfd hmode hwiggles => ⟨sectionEnv 0 (fun _ => none), ?_⟩)
  rw [setGuarded_same hmode hwiggles]
  simp only [perform, ← hmode]
  rfl

theorem carries_storeState {state : AppState} {k : Bool → Server Int}
    (old new : ∀ m, GuardedData m) :
    InSection logging (.acting t (.storeState state) k fd) t (fun _ => False) old new []
      (Locked.under .state t (Locked.storeState state) k) := by
  refine carries_under_state (fun old new rest h => ?_) old new
  rw [Locked.storeState, Program.bind_assoc]
  refine carries_readMode (Or.inl rfl) ⟨Or.inl rfl, ?_⟩
  refine h ((new .state).mode != state) { new .state with mode := state } [] ?_
  intro p hfd hmode hwiggles
  refine ⟨sectionEnv 0 (fun _ => none), ?_⟩
  simp only [perform, App.storeState, App.setGuarded, ← hmode, ← hwiggles]

/-- A table of which one slot has been changed. -/
def ModeTable.setSlot (table : ModeTable) (i : Fin appMaxWiggles) (slot : WiggleCommand) :
    ModeTable := { table with wiggles := Function.update table.wiggles i slot }

theorem carries_wiggleStop {id : UInt32} {k : Bool → Server Int} (old new : ∀ m, GuardedData m) :
    InSection logging (.acting t (.wiggleStop id) k fd) t (fun _ => False) old new []
      (Locked.under .state t (Locked.wiggleStop logging fd id) k) := by
  refine carries_under_state (fun old new rest h => ?_) old new
  rw [Locked.wiggleStop, Program.bind_assoc]
  refine carries_findSlot (Or.inl rfl) ?_
  cases hfound : findSlot (new .state).wiggles id with
  | none =>
    have hnow := h false (new .state) []
    rw [Function.update_eq_self] at hnow
    have hloop := hfound
    unfold findSlot at hloop
    rw [hloop]
    refine hnow (fun p hfd hmode hwiggles => ⟨sectionEnv 0 (fun _ => none), ?_⟩)
    rw [setGuarded_same hmode hwiggles]
    simp only [perform, wiggleStopLocked, hwiggles, hfound]
  | some i =>
    have hloop := hfound
    unfold findSlot at hloop
    rw [hloop]
    change InSection logging _ t _ old new [] ((_ >>= _) >>= rest)
    rw [Program.bind_assoc]
    refine carries_deactivateSlot (Or.inl rfl) notLogger (fun write => ?_)
    refine h true ((new .state).setSlot i _) _ ?_
    intro p hfd hmode hwiggles
    refine ⟨sectionEnv 0 (fun _ => write), ?_⟩
    simp only [perform, wiggleStopLocked, hwiggles, hfound, hfd, App.setGuarded, ModeTable.setSlot,
      sectionEnv, ← hmode]

theorem carries_wiggleStart {r : WiggleRequest} {k : Int → Server Int}
    (old new : ∀ m, GuardedData m) :
    InSection logging (.acting t (.wiggleStart r) k fd) t (fun _ => False) old new []
      (Locked.under .state t (Locked.wiggleStart logging fd r) k) := by
  refine carries_under_state (fun old new rest h => ?_) old new
  rw [Locked.wiggleStart, Program.bind_assoc]
  refine carries_findSlot (Or.inl rfl) ?_
  rw [Program.bind_assoc]
  -- both searches are those of the action
  have hsearch {k' : Option (Fin appMaxWiggles) → Pieces Unit}
      (hk : InSection logging (.acting t (.wiggleStart r) k fd) t (only .state) old new []
        (k' ((findSlot (new .state).wiggles r.id).or (allocSlot (new .state).wiggles)))) :
      InSection logging (.acting t (.wiggleStart r) k fd) t (only .state) old new []
        ((if (findSlot (new .state).wiggles r.id).isSome then
            pure (findSlot (new .state).wiggles r.id)
          else Locked.allocSlot (List.finRange appMaxWiggles) :
          Pieces (Option (Fin appMaxWiggles))) >>= k') := by
    cases hfound : findSlot (new .state).wiggles r.id with
    | some i =>
      rw [hfound] at hk
      exact hk
    | none =>
      rw [hfound] at hk
      exact carries_allocSlot (Or.inl rfl) hk
  refine hsearch ?_
  cases hslot : (findSlot (new .state).wiggles r.id).or (allocSlot (new .state).wiggles) with
  | none =>
    have hnow := h (-1) (new .state) []
    rw [Function.update_eq_self] at hnow
    refine hnow (fun p hfd hmode hwiggles => ⟨sectionEnv 0 (fun _ => none), ?_⟩)
    rw [setGuarded_same hmode hwiggles]
    simp only [perform, wiggleStartLocked, hwiggles, hslot]
  | some i =>
    change InSection logging _ t _ old new [] ((_ >>= _) >>= rest)
    rw [Program.bind_assoc]
    refine carries_monotonicMs (fun now => ?_)
    rw [Program.bind_assoc]
    refine carries_fillSlot (Or.inl rfl) ?_
    rw [Program.bind_assoc]
    refine carries_sendValue (Or.inl rfl) notLogger (fun write => ?_)
    rw [Program.bind_assoc]
    refine carries_assign (Or.inl rfl) ?_
    simp only [setSlot_setSlot, setSlot_wiggles, Function.update_self]
    refine h 0 ((new .state).setSlot i _) _ ?_
    intro p hfd hmode hwiggles
    refine ⟨sectionEnv now (fun _ => write), ?_⟩
    simp only [perform, wiggleStartLocked, hwiggles, hslot, hfd, App.setGuarded, ModeTable.setSlot,
      sectionEnv, ← hmode]
    rfl

theorem carries_wiggleStopAll {sendExitValue : Bool} {k : ℕ → Server Int}
    (old new : ∀ m, GuardedData m) :
    InSection logging (.acting t (.wiggleStopAll sendExitValue) k fd) t (fun _ => False) old new []
      (Locked.under .state t
        (Locked.stopSlots logging fd sendExitValue (List.finRange appMaxWiggles) 0) k) := by
  refine carries_under_state (fun old new rest h => ?_) old new
  refine carries_stopSlots (Or.inl rfl) notLogger (List.nodup_finRange _) (fun write => ?_)
  rw [Nat.zero_add]
  refine h _ { new .state with wiggles := _ } _ ?_
  intro p hfd hmode hwiggles
  refine ⟨sectionEnv 0 write, ?_⟩
  simp only [perform, wiggleStopAllLocked, overSlots, hwiggles, hfd, App.setGuarded, sectionEnv,
    List.mem_finRange, if_true, ← hmode]

theorem carries_wiggleProcess {k : Unit → Server Int} (old new : ∀ m, GuardedData m) :
    InSection logging (.acting t .wiggleProcess k fd) t (fun _ => False) old new []
      (Locked.under .state t (Locked.wiggleProcess logging fd) k) := by
  refine carries_under_state (fun old new rest h => ?_) old new
  rw [Locked.wiggleProcess, Program.bind_assoc]
  refine carries_readMode (Or.inl rfl) ?_
  by_cases hother : (new .state).mode ≠ .prechilling
  · rw [if_pos hother]
    have hnow := h () (new .state) []
    rw [Function.update_eq_self] at hnow
    refine hnow (fun p hfd hmode hwiggles => ⟨sectionEnv 0 (fun _ => none), ?_⟩)
    rw [setGuarded_same hmode hwiggles]
    simp only [perform, wiggleProcess, hmode, if_pos hother]
  · rw [if_neg hother, Program.bind_assoc]
    refine carries_monotonicMs (fun now => ?_)
    refine carries_processSlots (Or.inl rfl) notLogger (List.nodup_finRange _) (fun write => ?_)
    refine h () { new .state with wiggles := _ } _ ?_
    intro p hfd hmode hwiggles
    subst hfd
    refine ⟨sectionEnv now write, ?_⟩
    simp only [perform, wiggleProcess, overSlots, hmode, if_neg hother, hwiggles, App.setGuarded,
      sectionEnv, List.mem_finRange, if_true]

/-! ### The sections of firing_sequence.c -/

/-- A look at one of the flags. -/
theorem carries_readFlag {c : Control} {i : Party} {held : Mutex → Prop}
    {old new : ∀ m, GuardedData m} {os : List Output} {f : FlagAccess} {r : f.Answer}
    {k : f.Answer → Pieces Unit} (hread : ∀ d : SequenceFlags, (d.access f).1 = d)
    (hheld : held .sequence) (hr : ((new .sequence).access f).2 = r)
    (h : (lockedSections logging).Carries server c i held old new os (k r)) :
    (lockedSections logging).Carries server c i held old new os (Locked.flagAccess f >>= k) := by
  subst hr
  refine ⟨hheld, ?_⟩
  change (lockedSections logging).Carries server c i held old
    (Function.update new .sequence ((new .sequence).access f).1) os _
  rw [hread, Function.update_eq_self]
  exact h

/-- An action of `sequence_lock` is carried out by a body that comes to its flags. -/
theorem carries_under_sequence {body : Pieces a.Answer}
    (hbody : ∀ (old new : ∀ m, GuardedData m) (rest : a.Answer → Pieces Unit),
      (∀ r (flags : SequenceFlags), (∀ p : Process,
          p.app.sequenceActive = (new .sequence).active →
          p.app.sequenceAbort = (new .sequence).abort → ∃ env, perform p env a =
            (p.setApp (p.app.setGuarded ⟨p.app.state, p.app.wiggles⟩ flags), r, [])) →
        InSection logging (.acting t a k fd) t (only .sequence) old
          (Function.update new .sequence flags) [] (rest r)) →
      InSection logging (.acting t a k fd) t (only .sequence) old new [] (body >>= rest))
    (old new : ∀ m, GuardedData m) :
    InSection logging (.acting t a k fd) t (fun _ => False) old new []
      (Locked.under .sequence t body k) := by
  intro d
  refine hbody _ _ _ (fun r flags hcomes => ?_)
  refine commits_section (w := []) (unwinds_release .sequence)
    (fun s d' hfd hold hnew hothers => ?_)
  rw [Function.update_self] at hold hnew hcomes
  obtain ⟨env, hperform⟩ := hcomes s.process (congrArg SequenceFlags.active hold)
    (congrArg SequenceFlags.abort hold)
  refine ⟨env, hperform.trans ?_⟩
  rw [System.setGuarded, hnew, hothers .state (by decide)]
  rfl

theorem carries_claimSequence {k : Bool → Server Int} (old new : ∀ m, GuardedData m) :
    InSection logging (.acting t .claimSequence k fd) t (fun _ => False) old new []
      (Locked.under .sequence t Locked.claimSequence k) := by
  refine carries_under_sequence (fun old new rest h => ?_) old new
  rw [Locked.claimSequence, Program.bind_assoc]
  refine carries_readFlag (r := (new .sequence).active) (fun _ => rfl) (Or.inl rfl) rfl ?_
  cases hactive : (new .sequence).active with
  | true =>
    have hnow := h false (new .sequence)
    rw [Function.update_eq_self] at hnow
    refine hnow (fun p hpactive hpabort => ⟨sectionEnv 0 (fun _ => none), ?_⟩)
    have hclaimed : p.app.sequenceActive = true := hpactive.trans hactive
    rw [App.setGuarded, ← hpactive, ← hpabort]
    simp only [perform, App.claimSequence, hclaimed, if_true]
    rw [← hclaimed]
  | false =>
    refine ⟨Or.inl rfl, Or.inl rfl, ?_⟩
    simp only [Function.update_idem]
    refine h true ⟨true, false⟩ (fun p hpactive _ => ⟨sectionEnv 0 (fun _ => none), ?_⟩)
    simp only [perform, App.claimSequence, hpactive, hactive, Bool.false_eq_true, if_false,
      App.setGuarded]

theorem carries_finishSequence {k : Unit → Server Int} (old new : ∀ m, GuardedData m) :
    InSection logging (.acting t .finishSequence k fd) t (fun _ => False) old new []
      (Locked.under .sequence t Locked.finishSequence k) := by
  refine carries_under_sequence (fun old new rest h => ?_) old new
  refine ⟨Or.inl rfl, Or.inl rfl, ?_⟩
  simp only [Function.update_idem]
  exact h () ⟨false, false⟩ (fun p _ _ => ⟨sectionEnv 0 (fun _ => none), rfl⟩)

theorem carries_requestAbort {k : Unit → Server Int} (old new : ∀ m, GuardedData m) :
    InSection logging (.acting t .requestAbort k fd) t (fun _ => False) old new []
      (Locked.under .sequence t (Locked.flagAccess (.writeAbort true)) k) := by
  refine carries_under_sequence (fun old new rest h => ?_) old new
  refine ⟨Or.inl rfl, ?_⟩
  refine h () ⟨(new .sequence).active, true⟩ (fun p hpactive _ => ?_)
  refine ⟨sectionEnv 0 (fun _ => none), ?_⟩
  simp only [perform, App.setGuarded, ← hpactive]

end
end WsServer
