import WsServer.Base.Runs
import WsServer.Dispatch
import WsServer.FaceValue
import WsServer.HandlerActions
import WsServer.WiggleRoom

/-! The entries of a `WIGGLE` or `WIGGLE_STOP` command are applied one by one as they are
read. When a command that is answered with a failure has had no effect. -/
namespace WsServer
open Interaction Program

/-- The replies that tell the client of a failed command. -/
def wiggleFailures : List String :=
  ["WIGGLE failed: invalid format or no available slots", "WIGGLE_STOP failed: invalid format"]

/-- Whatever the environment does, a failed command leaves the table as it was, and no
frame of it has gone out. -/
def AllOrNothing (config : AppConfig) (client : Client) (text : CText) (p : Process) : Prop :=
  ∀ tr p', Runs (S := serverSig) perform (commandHandleText config client text) p tr () p' →
    ∀ msg ∈ wiggleFailures, .sendText client msg ∈ outputs (S := serverSig) perform tr →
      p'.app.wiggles = p.app.wiggles ∧ sentCommands (outputs (S := serverSig) perform tr) = []

/-- `wiggle_start` refuses the request before it looks at the table. -/
def WiggleRequest.Refused (r : WiggleRequest) : Prop := r.periodMs = 0 ∨ r.id > 0x7FF

instance (r : WiggleRequest) : Decidable r.Refused := inferInstanceAs (Decidable (_ ∨ _))

/-- All entries are well formed and in range, and there is room for their ids. -/
structure StartsAll (t : WiggleTable) (entries : List CText) : Prop where
  valid : ∀ token ∈ entries, ∃ r, scanWiggle token = some r ∧ ¬ r.Refused
  room : Room t ((entries.filterMap scanWiggle).map WiggleRequest.id)

/-- There is no first entry, or it is malformed, out of range or without a slot. -/
def StartsNone (t : WiggleTable) (entries : List CText) : Prop :=
  ∀ token ∈ entries.head?, ∀ r, scanWiggle token = some r → r.Refused ∨ ¬ Room t [r.id]

/-- All entries are well formed. -/
def StopsAll (entries : List CText) : Prop := ∀ token ∈ entries, (scanWiggleStop token).isSome

/-- No entry before the first malformed one is the id of a running wiggle. -/
def StopsNone (t : WiggleTable) (entries : List CText) : Prop :=
  ∀ token ∈ entries.takeWhile (fun token => (scanWiggleStop token).isSome),
    ∀ id ∈ scanWiggleStop token, ¬ Running t id

/-- The command is carried out as a whole, or its first entry already fails. -/
def DecidedAtOnce (p : Process) (text : CText) : Prop :=
  if hasPrefix "WIGGLE_STOP" text then
    StopsAll (Strtok.tokens '|' text).tail ∨
      StopsNone p.app.wiggles (Strtok.tokens '|' text).tail
  else p.app.state ≠ .prechilling ∨ StartsNone p.app.wiggles (Strtok.tokens '|' text).tail ∨
    StartsAll p.app.wiggles (Strtok.tokens '|' text).tail

/-- What holds after every solo run on the process. -/
abbrev AlwaysEnds {β : Type} (p : Process) (q : Server β)
    (Q : List (Process × Env × Act) → β → Process → Prop) : Prop :=
  Always (S := serverSig) perform (fun _ => True) q p Q

/-- What holds after some solo run on the process. -/
abbrev SometimesEnds {β : Type} (p : Process) (q : Server β)
    (Q : List (Process × Env × Act) → β → Process → Prop) : Prop :=
  Sometimes (S := serverSig) perform (fun _ => True) q p Q

/-! ### The loop that starts -/

theorem startsAll_nil (t : WiggleTable) : StartsAll t [] where
  valid := nofun
  room := Nat.zero_le _

/-- The loop goes on behind an accepted entry with the table that this leaves. -/
theorem startsAll_cons {app app' : App} {env : Env} {r : WiggleRequest} {i : Fin appMaxWiggles}
    {token : CText} {entries : List CText} (hscan : scanWiggle token = some r)
    (hgood : ¬ r.Refused) (h : StartedAt app env r i app') :
    StartsAll app'.wiggles entries ↔ StartsAll app.wiggles (token :: entries) := by
  have hids : ((token :: entries).filterMap scanWiggle).map WiggleRequest.id =
      r.id :: (entries.filterMap scanWiggle).map WiggleRequest.id := by
    rw [List.filterMap_cons_some hscan, List.map_cons]
  constructor
  · intro hall
    refine ⟨List.forall_mem_cons.mpr ⟨⟨r, hscan, hgood⟩, hall.valid⟩, ?_⟩
    rw [hids, ← h.room]
    exact hall.room
  · intro hall
    refine ⟨(List.forall_mem_cons.mp hall.valid).2, ?_⟩
    rw [h.room, ← hids]
    exact hall.room

theorem wiggleStart_refused {r : WiggleRequest} (h : r.Refused) : wiggleStart r = pure (-1) :=
  if_pos h

theorem wiggleStart_accepted {r : WiggleRequest} (h : ¬ r.Refused) :
    wiggleStart r = act (.wiggleStart r) := if_neg h

/-- An entry that cannot be read or is refused ends the loop. -/
theorem startEntries_refused {token : CText} (entries : List CText) (started : ℕ)
    (h : ∀ r, scanWiggle token = some r → r.Refused) :
    startEntries (token :: entries) started = pure (started, true) := by
  unfold startEntries
  cases hscan : scanWiggle token with
  | none => rfl
  | some r =>
    dsimp only
    rw [wiggleStart_refused (h r hscan)]
    rfl

/-- Another entry gets to the table. -/
theorem startEntries_tried {token : CText} {r : WiggleRequest} (entries : List CText)
    (started : ℕ) (hscan : scanWiggle token = some r) (h : ¬ r.Refused) :
    startEntries (token :: entries) started = act (.wiggleStart r) >>= fun rc =>
      if rc ≠ 0 then pure (started, true) else startEntries entries (started+1) := by
  conv_lhs => unfold startEntries
  rw [hscan]
  dsimp only
  rw [wiggleStart_accepted h]

/-- The first entry of a list ends the loop, or it gets to the table. -/
theorem entry_cases (token : CText) :
    (∀ r, scanWiggle token = some r → r.Refused) ∨
      ∃ r, scanWiggle token = some r ∧ ¬ r.Refused := by
  by_contra h
  obtain ⟨hsome, hnone⟩ := not_or.mp h
  apply hsome
  intro r hr
  by_contra hgood
  exact hnone ⟨r, hr, hgood⟩

/-- The loop meets no failure exactly when all entries can be started. -/
theorem startEntries_result (entries : List CText) (started : ℕ) (p : Process) :
    AlwaysEnds p (startEntries entries started)
      (fun _ v _ => (v.2 = false ↔ StartsAll p.app.wiggles entries) ∧
        (v.2 = false → v.1 = started + entries.length)) := by
  induction entries generalizing started p with
  | nil => exact ⟨iff_of_true rfl (startsAll_nil _), fun _ => rfl⟩
  | cons token entries ih =>
    -- the loop has failed for good at this entry, whatever was started before
    have hfail (h : ¬ StartsAll p.app.wiggles (token :: entries)) :
        ((true = false) ↔ StartsAll p.app.wiggles (token :: entries)) ∧
          ((true = false) → started = started + (token :: entries).length) :=
      ⟨iff_of_false nofun h, nofun⟩
    rcases entry_cases token with hrefused | ⟨r, hscan, hgood⟩
    · rw [startEntries_refused entries started hrefused]
      apply hfail
      intro hall
      obtain ⟨r, hr, hgood⟩ := hall.valid token List.mem_cons_self
      exact hgood (hrefused r hr)
    · rw [startEntries_tried entries started hscan hgood]
      intro env _
      -- a good request fails only for want of a slot
      rcases wiggleStartLocked_accepted p.app env r with
        ⟨-, hzero, i, hstarted⟩ | ⟨hroom, hrc, -⟩
      · have hrest := ih (started+1) (perform p env (.wiggleStart r)).1
        change AlwaysEnds _ (if (wiggleStartLocked p.app env r).2.1 ≠ 0 then _ else _) _
        rw [if_neg (not_not.mpr hzero)]
        refine hrest.mono ?_
        intro tr v p' hv
        rw [← startsAll_cons hscan hgood hstarted]
        refine ⟨hv.1, ?_⟩
        intro hfalse
        rw [hv.2 hfalse, List.length_cons]
        omega
      · change AlwaysEnds _ (if (wiggleStartLocked p.app env r).2.1 ≠ 0 then _ else _) _
        rw [if_pos hrc]
        apply hfail
        intro hall
        have hids := hall.room
        rw [List.filterMap_cons_some hscan, List.map_cons] at hids
        exact hroom hids.of_cons

/-- Where the first entry fails, nothing has been done. -/
theorem startEntries_none {entries : List CText} (started : ℕ) {p : Process}
    (h : StartsNone p.app.wiggles entries) :
    AlwaysEnds p (startEntries entries started)
      (fun tr _ p' => p' = p ∧ outputs (S := serverSig) perform tr = []) := by
  cases entries with
  | nil => exact ⟨rfl, rfl⟩
  | cons token entries =>
    rcases entry_cases token with hrefused | ⟨r, hscan, hgood⟩
    · rw [startEntries_refused entries started hrefused]
      exact ⟨rfl, rfl⟩
    · rw [startEntries_tried entries started hscan hgood]
      intro env _
      have hroom := (h token rfl r hscan).resolve_left hgood
      rcases wiggleStartLocked_accepted p.app env r with ⟨hroom', -⟩ | ⟨-, hrc, hsame⟩
      · exact absurd hroom' hroom
      · have hperform : perform p env (.wiggleStart r) = (p, -1, []) := by
          simp only [perform, hsame]
          rfl
        change AlwaysEnds _ (if (wiggleStartLocked p.app env r).2.1 ≠ 0 then _ else _) _
        rw [if_pos hrc, hperform]
        refine ⟨rfl, ?_⟩
        rw [outputs_cons, hperform]
        rfl

/-- A slot that a start of this command has filled, with a time that it has chosen. -/
def Touched (p : Process) (i : Fin appMaxWiggles) (time : UInt64) : Prop :=
  (p.app.wiggles i).active = true ∧ (p.app.wiggles i).nextToggleMs = time

/-- A clock reading from which the next toggle of a request is at the given time. -/
def clockFor (time : UInt64) (r : WiggleRequest) : Env :=
  { luckyEnv with now := time - r.periodMs.toUInt64 }

theorem StartedAt.touched {app app' : App} {time : UInt64} {r : WiggleRequest}
    {i : Fin appMaxWiggles} (h : StartedAt app (clockFor time r) r i app')
    (workers : List Worker) : Touched ⟨app', workers⟩ i time := by
  obtain ⟨slot, rfl, hactive, -, htime⟩ := h.table
  refine ⟨?_, ?_⟩
  · simp only [Function.update_self, hactive]
  · simp only [Function.update_self, htime, clockFor, UInt64.sub_add_cancel]

/-- Later starts of the command fill other slots, or the same one with the same time. -/
theorem StartedAt.still_touched {app app' : App} {time : UInt64} {r : WiggleRequest}
    {i j : Fin appMaxWiggles} (h : StartedAt app (clockFor time r) r j app')
    {workers : List Worker} (hi : Touched ⟨app, workers⟩ i time) :
    Touched ⟨app', workers⟩ i time := by
  by_cases hij : i = j
  · rw [hij]
    exact h.touched workers
  · obtain ⟨slot, rfl, -⟩ := h.table
    simp only [Touched, Function.update_of_ne hij]
    exact hi

theorem startEntries_touched {time : UInt64} {i : Fin appMaxWiggles} (entries : List CText)
    (started : ℕ) {p : Process} (hi : Touched p i time) :
    SometimesEnds p (startEntries entries started) (fun _ _ p' => Touched p' i time) := by
  induction entries generalizing started p with
  | nil => exact hi
  | cons token entries ih =>
    rcases entry_cases token with hrefused | ⟨r, hscan, hgood⟩
    · rw [startEntries_refused entries started hrefused]
      exact hi
    · rw [startEntries_tried entries started hscan hgood]
      refine ⟨clockFor time r, trivial, ?_⟩
      rcases wiggleStartLocked_accepted p.app (clockFor time r) r with
        ⟨-, hzero, j, hstarted⟩ | ⟨-, hrc, hsame⟩
      · have htouched : Touched (perform p (clockFor time r) (.wiggleStart r)).1 i time :=
          hstarted.still_touched hi
        have hrest := ih (started+1) htouched
        change SometimesEnds _
          (if (wiggleStartLocked p.app (clockFor time r) r).2.1 ≠ 0 then _ else _) _
        rw [if_neg (not_not.mpr hzero)]
        exact hrest
      · change SometimesEnds _
          (if (wiggleStartLocked p.app (clockFor time r) r).2.1 ≠ 0 then _ else _) _
        rw [if_pos hrc]
        change Touched ⟨(wiggleStartLocked p.app (clockFor time r) r).1, p.workers⟩ i time
        rw [hsame]
        exact hi

/-- A command whose first entry is accepted and that fails at a later one has changed the
table. -/
theorem startEntries_begun {entries : List CText} {p : Process}
    (hnone : ¬ StartsNone p.app.wiggles entries) (hall : ¬ StartsAll p.app.wiggles entries) :
    SometimesEnds p (startEntries entries 0)
      (fun _ v p' => v.2 = true ∧ p'.app.wiggles ≠ p.app.wiggles) := by
  cases entries with
  | nil => exact absurd nofun hnone
  | cons token entries =>
    rcases entry_cases token with hrefused | ⟨r, hscan, hgood⟩
    · refine absurd ?_ hnone
      intro token' htoken r hr
      obtain rfl : token = token' := Option.some.inj htoken
      exact Or.inl (hrefused r hr)
    · have hroom : Room p.app.wiggles [r.id] := by
        by_contra hfull
        refine hnone ?_
        intro token' htoken r' hr'
        obtain rfl : token = token' := Option.some.inj htoken
        obtain rfl := Option.some.inj (hscan.symm.trans hr')
        exact Or.inr hfull
      have hresult := startEntries_result (token :: entries) 0 p
      -- which slot is filled does not depend on the clock
      obtain ⟨i, hi⟩ : ∃ i, (findSlot p.app.wiggles r.id).or (allocSlot p.app.wiggles) =
          some i := by
        rcases wiggleStartLocked_accepted p.app luckyEnv r with ⟨-, -, i, hstarted⟩ | ⟨hfull, -⟩
        · exact ⟨i, hstarted.found⟩
        · exact absurd hroom hfull
      let time := (p.app.wiggles i).nextToggleMs + 1
      have htouched : SometimesEnds p (startEntries (token :: entries) 0)
          (fun _ _ p' => Touched p' i time) := by
        rw [startEntries_tried entries 0 hscan hgood]
        refine ⟨clockFor time r, trivial, ?_⟩
        rcases wiggleStartLocked_accepted p.app (clockFor time r) r with
          ⟨-, hzero, j, hstarted⟩ | ⟨hfull, -⟩
        · obtain rfl := Option.some.inj (hi.symm.trans hstarted.found)
          have hfirst : Touched (perform p (clockFor time r) (.wiggleStart r)).1 i time :=
            hstarted.touched p.workers
          change SometimesEnds _
            (if (wiggleStartLocked p.app (clockFor time r) r).2.1 ≠ 0 then _ else _) _
          rw [if_neg (not_not.mpr hzero)]
          exact startEntries_touched entries 1 hfirst
        · exact absurd hroom hfull
      refine (htouched.and_always hresult).mono ?_
      rintro tr v p' ⟨⟨-, htime⟩, hv, -⟩
      refine ⟨?_, ?_⟩
      · rw [← Bool.not_eq_false]
        exact fun hfalse => hall (hv.mp hfalse)
      · intro hsame
        rw [hsame] at htime
        exact absurd (UInt64.left_eq_add.mp htime) (by decide)

/-! ### The loop that stops -/

theorem wiggleStopLocked_cases (app : App) (env : Env) (id : UInt32) :
    (¬ Running app.wiggles id ∧ wiggleStopLocked app env id = (app, false, [])) ∨
    (Running app.wiggles id ∧ (wiggleStopLocked app env id).2.1 = true ∧
      ∃ i, (app.wiggles i).active = true ∧
        (wiggleStopLocked app env id).1.wiggles = Function.update app.wiggles i .zero) := by
  cases hfind : findSlot app.wiggles id with
  | none =>
    left
    simp only [wiggleStopLocked, hfind]
    exact ⟨findSlot_eq_none.mp hfind, trivial⟩
  | some i =>
    have hi := findSlot_running hfind
    right
    simp only [wiggleStopLocked, hfind]
    refine ⟨⟨i, hi⟩, trivial, i, hi.1, ?_⟩
    rw [(deactivateSlot_active _ _ _ _ hi.1).1]

/-- The loop meets a malformed entry exactly when there is one. -/
theorem stopEntries_result (entries : List CText) (stopped : ℕ) (p : Process) :
    AlwaysEnds p (stopEntries entries stopped) (fun _ v _ => v.2 = false ↔ StopsAll entries) := by
  induction entries generalizing stopped p with
  | nil => exact iff_of_true rfl (List.forall_mem_nil _)
  | cons token entries ih =>
    unfold stopEntries
    cases hscan : scanWiggleStop token with
    | none =>
      apply iff_of_false Bool.false_ne_true.symm
      intro hall
      have htoken := hall token List.mem_cons_self
      rw [hscan] at htoken
      cases htoken
    | some id =>
      intro env _
      refine (ih _ _).mono ?_
      intro tr v p' hv
      have htoken : (scanWiggleStop token).isSome = true := by rw [hscan]; rfl
      refine hv.trans ?_
      rw [StopsAll, StopsAll, List.forall_mem_cons, and_iff_right htoken]

/-- Ids that no wiggle runs on stop nothing. -/
theorem stopEntries_none {entries : List CText} (stopped : ℕ) {p : Process}
    (h : StopsNone p.app.wiggles entries) :
    AlwaysEnds p (stopEntries entries stopped)
      (fun tr _ p' => p' = p ∧ outputs (S := serverSig) perform tr = []) := by
  induction entries generalizing stopped with
  | nil => exact ⟨rfl, rfl⟩
  | cons token entries ih =>
    unfold stopEntries
    cases hscan : scanWiggleStop token with
    | none => exact ⟨rfl, rfl⟩
    | some id =>
      have htoken : (scanWiggleStop token).isSome = true := by rw [hscan]; rfl
      rw [StopsNone, List.takeWhile_cons_of_pos
        (p := fun token => (scanWiggleStop token).isSome) htoken, List.forall_mem_cons] at h
      intro env _
      rcases wiggleStopLocked_cases p.app env id with ⟨-, hsame⟩ | ⟨hrunning, -⟩
      · have hperform : perform p env (.wiggleStop id) = (p, false, []) := by
          simp only [perform, hsame]
          rfl
        have hrest := ih stopped h.2
        rw [hperform]
        refine hrest.mono ?_
        intro tr v p' hv
        refine ⟨hv.1, ?_⟩
        rw [outputs_cons, hperform, hv.2]
        rfl
      · exact absurd hrunning (h.1 id hscan)

theorem stop_of_kind {a : Act} (h : a.kind ∈ [ActKind.stop]) : ∃ id, a = .wiggleStop id := by
  revert h
  fun_cases Act.kind a <;> first | exact fun _ => ⟨_, rfl⟩ | exact fun h => absurd h (by decide)

theorem start_of_kind {a : Act} (h : a.kind ∈ [ActKind.start]) : ∃ r, a = .wiggleStart r := by
  revert h
  fun_cases Act.kind a <;> first | exact fun _ => ⟨_, rfl⟩ | exact fun h => absurd h (by decide)

/-- A slot that has been freed stays so. -/
theorem stopEntries_freed {i : Fin appMaxWiggles} (entries : List CText) (stopped : ℕ)
    {p : Process} (hi : (p.app.wiggles i).active = false) :
    AlwaysEnds p (stopEntries entries stopped)
      (fun _ _ p' => (p'.app.wiggles i).active = false) := by
  refine (Performs.always (kinds_stopEntries entries stopped)
    (I := fun p => (p.app.wiggles i).active = false) ?_ hi).mono (fun tr v p' h => h.1)
  intro p env a ha hfree
  obtain ⟨id, rfl⟩ := stop_of_kind ha
  change ((wiggleStopLocked p.app env id).1.wiggles i).active = false
  rcases wiggleStopLocked_cases p.app env id with ⟨-, hsame⟩ | ⟨-, -, j, -, htable⟩
  · rw [hsame]
    exact hfree
  · rw [htable, Function.update_apply]
    split_ifs
    · rfl
    · exact hfree

/-- A command that stops a wiggle and fails at a later entry has changed the table. -/
theorem stopEntries_begun {entries : List CText} (stopped : ℕ) {p : Process}
    (hnone : ¬ StopsNone p.app.wiggles entries) :
    AlwaysEnds p (stopEntries entries stopped)
      (fun _ _ p' => p'.app.wiggles ≠ p.app.wiggles) := by
  induction entries generalizing stopped with
  | nil => exact absurd (List.forall_mem_nil _) hnone
  | cons token entries ih =>
    unfold stopEntries
    cases hscan : scanWiggleStop token with
    | none =>
      -- the loop ends here, and nothing in front of this entry was active
      refine absurd ?_ hnone
      rw [StopsNone, List.takeWhile_cons_of_neg (p := fun token => (scanWiggleStop token).isSome)
        (by rw [hscan]; exact Bool.false_ne_true)]
      exact List.forall_mem_nil _
    | some id =>
      have htoken : (scanWiggleStop token).isSome = true := by rw [hscan]; rfl
      intro env _
      rcases wiggleStopLocked_cases p.app env id with ⟨hnot, hsame⟩ | ⟨-, -, i, hactive, htable⟩
      · -- this id was not active, so the table is as it was, and a later entry has to do it
        have hperform : perform p env (.wiggleStop id) = (p, false, []) := by
          simp only [perform, hsame]
          rfl
        rw [hperform]
        refine ih stopped ?_
        intro hrest
        refine hnone ?_
        rw [StopsNone, List.takeWhile_cons_of_pos
          (p := fun token => (scanWiggleStop token).isSome) htoken, List.forall_mem_cons]
        refine ⟨?_, hrest⟩
        intro id' hid'
        obtain rfl := Option.some.inj (hscan.symm.trans hid')
        exact hnot
      · -- this slot is freed, and no later entry takes it again
        have hfree : ((perform p env (.wiggleStop id)).1.app.wiggles i).active = false := by
          change ((wiggleStopLocked p.app env id).1.wiggles i).active = false
          rw [htable, Function.update_self]
          rfl
        refine (stopEntries_freed entries _ hfree).mono ?_
        intro tr v p' hi hsame
        rw [hsame, hactive] at hi
        cases hi

/-! ### Replies -/

/-- What a handler answers behind its loop. -/
def wiggleReply (v : ℕ × Bool) : String :=
  if v.2 || v.1 = 0 then "WIGGLE failed: invalid format or no available slots"
  else Printf.truncated 96 ("WIGGLE started for " ++ toString v.1 ++ " sensor(s)")

def wiggleStopReply (v : ℕ × Bool) : String :=
  if v.2 then "WIGGLE_STOP failed: invalid format"
  else if v.1 = 0 then "WIGGLE_STOP: no active wiggles for requested IDs"
  else Printf.truncated 96 ("Stopped wiggle for " ++ toString v.1 ++ " sensor(s)")

theorem handleWiggleStop_eq (client : Client) {text : CText}
    (h : hasPrefix "WIGGLE_STOP" text = true) : handleWiggleStop client text =
      stopEntries (Strtok.tokens '|' text).tail 0 >>= fun v =>
        sendReply client (wiggleStopReply v) >>= fun _ => pure true := by
  unfold handleWiggleStop
  rw [h, Bool.not_true, if_neg Bool.false_ne_true]
  refine congrArg (fun f => stopEntries _ 0 >>= f) (funext (fun v => ?_))
  obtain ⟨stopped, parseError⟩ := v
  dsimp only [wiggleStopReply]
  split_ifs <;> rfl

theorem handleWiggle_eq (client : Client) {text : CText}
    (h : hasPrefix "WIGGLE" text = true) (hstop : hasPrefix "WIGGLE_STOP" text = false) :
    handleWiggle client text = act .getState >>= fun state =>
      if state ≠ .prechilling then
        sendReply client "WIGGLE rejected: system not in PRECHILLING" >>= fun _ => pure true
      else startEntries (Strtok.tokens '|' text).tail 0 >>= fun v =>
        sendReply client (wiggleReply v) >>= fun _ => pure true := by
  unfold handleWiggle
  rw [h, hstop, Bool.not_true, Bool.or_false, if_neg Bool.false_ne_true]
  refine congrArg (fun f => act .getState >>= f) (funext (fun state => ?_))
  split_ifs
  · rfl
  refine congrArg (fun f => startEntries _ 0 >>= f) (funext (fun v => ?_))
  obtain ⟨started, parseError⟩ := v
  dsimp only [wiggleReply]
  split_ifs <;> rfl

/-- A text keeps its beginning when it is cut to a longer one. -/
theorem take_truncated {size n : ℕ} (s : String) (h : n ≤ size-1) :
    (Printf.truncated size s).toList.take n = s.toList.take n := by
  rw [Printf.truncated, String.toList_ofList, List.take_take, Nat.min_eq_left h]

theorem take_append (word rest : String) :
    (word ++ rest).toList.take word.toList.length = word.toList := by
  rw [String.toList_append, List.take_left']
  rfl

/-- What begins otherwise than both of the failures is none of them. -/
theorem not_failure_of_take {n : ℕ} {word : CText} {s : String} (h : s.toList.take n = word)
    (hword : ∀ msg ∈ wiggleFailures, msg.toList.take n ≠ word) : s ∉ wiggleFailures := by
  intro hs
  exact hword s hs h

theorem wiggleReply_failure (v : ℕ × Bool) :
    wiggleReply v ∈ wiggleFailures ↔ v.2 = true ∨ v.1 = 0 := by
  unfold wiggleReply
  by_cases h : v.2 = true ∨ v.1 = 0
  · rw [if_pos (by simpa using h)]
    exact iff_of_true (by decide) h
  · rw [if_neg (by simpa using h)]
    refine iff_of_false ?_ h
    have hword := take_append "WIGGLE started for " (toString v.1 ++ " sensor(s)")
    rw [← String.append_assoc] at hword
    refine not_failure_of_take (n := 19) ((take_truncated _ (by decide)).trans hword) (by decide)

theorem wiggleStopReply_failure (v : ℕ × Bool) :
    wiggleStopReply v ∈ wiggleFailures ↔ v.2 = true := by
  unfold wiggleStopReply
  by_cases h : v.2 = true
  · rw [if_pos h]
    exact iff_of_true (by decide) h
  · rw [if_neg h]
    refine iff_of_false ?_ h
    split_ifs
    · decide
    · have hword := take_append "Stopped wiggle for " (toString v.1 ++ " sensor(s)")
      rw [← String.append_assoc] at hword
      exact not_failure_of_take (n := 19) ((take_truncated _ (by decide)).trans hword) (by decide)

/-! ### Whole commands -/

/-- A run that has answered with a failure has had no effect. -/
def Settled (client : Client) (p : Process) (tr : List (Process × Env × Act)) (p' : Process) :
    Prop :=
  ∀ msg ∈ wiggleFailures, .sendText client msg ∈ outputs (S := serverSig) perform tr →
    p'.app.wiggles = p.app.wiggles ∧ sentCommands (outputs (S := serverSig) perform tr) = []

/-- A run has answered with a failure and changed the table. -/
def Spoilt (client : Client) (p : Process) (tr : List (Process × Env × Act)) (p' : Process) :
    Prop :=
  ∃ msg ∈ wiggleFailures, .sendText client msg ∈ outputs (S := serverSig) perform tr ∧
    p'.app.wiggles ≠ p.app.wiggles

variable {client : Client} {p : Process}

theorem settled_of_no_reply {tr : List (Process × Env × Act)} {p' : Process}
    (h : ∀ msg ∈ wiggleFailures, .sendText client msg ∉ outputs (S := serverSig) perform tr) :
    Settled client p tr p' := fun msg hmsg hmem => absurd hmem (h msg hmsg)

/-- The loops send no text. -/
theorem no_reply_of_kind {tr : List (Process × Env × Act)}
    (h : ∀ x ∈ tr, x.2.2.kind ∈ [ActKind.start, .stop]) (msg : String) :
    .sendText client msg ∉ outputs (S := serverSig) perform tr := by
  have hsend (fd : Int) (slot : WiggleCommand) (value : UInt16) (write : Option String) :
      .sendText client msg ∉ (sendValue fd slot value write).2 := by
    dsimp only [sendValue]
    cases canBusSendCommand fd ⟨slot.id, value, 0⟩ write <;> simp
  intro hmem
  obtain ⟨⟨q, env, a⟩, hx, hevent⟩ := List.mem_flatMap.mp hmem
  have ha := h _ hx
  rcases List.mem_cons.mp ha with ha | ha
  · obtain ⟨r, rfl⟩ := start_of_kind (List.mem_singleton.mpr ha)
    simp only [perform, wiggleStartLocked] at hevent
    split at hevent
    · cases hevent
    · exact hsend _ _ _ _ hevent
  · obtain ⟨id, rfl⟩ := stop_of_kind ha
    simp only [perform, wiggleStopLocked] at hevent
    split at hevent
    · cases hevent
    · simp only [deactivateSlot] at hevent
      split_ifs at hevent
      · cases hevent
      · exact hsend _ _ _ _ hevent

theorem kinds_always {ks : List ActKind} {β : Type} {q : Server β} (h : Kinds ks q) :
    AlwaysEnds p q (fun tr _ _ => ∀ x ∈ tr, x.2.2.kind ∈ ks) :=
  (Performs.always h (I := fun _ => True) (fun _ _ _ _ _ => trivial) trivial).mono
    (fun _ _ _ hall x hx => (hall.2 x hx).1)

/-- A loop behind which the handler answers: what the loop says of its answer. -/
theorem replied_settled {loop : Server (ℕ × Bool)} {reply : ℕ × Bool → String}
    (hkinds : Kinds [.start, .stop] loop)
    (h : AlwaysEnds p loop (fun tr v p' => reply v ∈ wiggleFailures →
      p' = p ∧ outputs (S := serverSig) perform tr = [])) :
    AlwaysEnds p (loop >>= fun v => sendReply client (reply v) >>= fun _ => pure true)
      (fun tr v p' => v = true ∧ Settled client p tr p') := by
  have hboth := always_iff.mp (kinds_always (p := p) hkinds)
  refine always_bind.mpr (always_iff.mpr ?_)
  intro tr v p' hrun hE
  have hloop := always_iff.mp h tr v p' hrun hE
  have hno : ∀ msg, .sendText client msg ∉ outputs (S := serverSig) perform tr :=
    no_reply_of_kind (hboth tr v p' hrun hE)
  intro env _
  refine ⟨rfl, ?_⟩
  intro msg hmsg hmem
  rw [outputs_append, List.mem_append] at hmem
  have hlast : reply v = msg := by
    have hmem := hmem.resolve_left (hno msg)
    exact (Event.sendText.inj (List.mem_singleton.mp hmem)).2.symm
  obtain ⟨rfl, hnone⟩ := hloop (hlast ▸ hmsg)
  refine ⟨rfl, ?_⟩
  rw [outputs_append, hnone]
  rfl

theorem replied_spoilt {loop : Server (ℕ × Bool)} {reply : ℕ × Bool → String}
    (h : SometimesEnds p loop
      (fun _ v p' => reply v ∈ wiggleFailures ∧ p'.app.wiggles ≠ p.app.wiggles)) :
    SometimesEnds p (loop >>= fun v => sendReply client (reply v) >>= fun _ => pure true)
      (fun tr v p' => v = true ∧ Spoilt client p tr p') := by
  refine sometimes_bind.mpr (h.mono ?_)
  intro tr v p' hv
  refine ⟨luckyEnv, trivial, rfl, reply v, hv.1, ?_, hv.2⟩
  rw [outputs_append]
  exact List.mem_append_right _ (List.mem_singleton_self _)

/-- A step that only asks. -/
theorem settled_ask {q : Process} {env : Env} {a : Act} {tr : List (Process × Env × Act)}
    {p' : Process} (h : (perform q env a).2.2 = []) :
    Settled client p ((q, env, a) :: tr) p' ↔ Settled client p tr p' := by
  unfold Settled
  rw [outputs_cons, h, List.nil_append]

theorem spoilt_ask {q : Process} {env : Env} {a : Act} {tr : List (Process × Env × Act)}
    {p' : Process} (h : (perform q env a).2.2 = []) :
    Spoilt client p ((q, env, a) :: tr) p' ↔ Spoilt client p tr p' := by
  unfold Spoilt
  rw [outputs_cons, h, List.nil_append]

/-- The way of a command to the handler that takes its copy. -/
def copied (client : Client) (handler : Server Bool) (rest : Server Unit) : Server Unit :=
  act (.clientContext client) >>= fun _ => act .allocate >>= fun copied =>
    if !copied then sendReply client "Server error: out of memory"
    else handler >>= fun taken => if taken then pure () else rest

theorem copied_settled {handler : Server Bool} (rest : Server Unit)
    (h : AlwaysEnds p handler (fun tr v p' => v = true ∧ Settled client p tr p')) :
    AlwaysEnds p (copied client handler rest) (fun tr _ p' => Settled client p tr p') := by
  intro env _ env' _
  change AlwaysEnds p (if !env'.alloc then _ else _) _
  split_ifs
  · intro env'' _
    apply settled_of_no_reply
    intro msg hmsg hmem
    have heq : msg = "Server error: out of memory" :=
      (Event.sendText.inj (List.mem_singleton.mp hmem)).2
    rw [heq] at hmsg
    exact absurd hmsg (by decide)
  · refine always_bind.mpr (h.mono ?_)
    rintro tr v p' ⟨rfl, hsettled⟩
    change Settled client p (_ :: _ :: (tr ++ [])) p'
    rw [List.append_nil, settled_ask rfl, settled_ask rfl]
    exact hsettled

theorem copied_spoilt {handler : Server Bool} (rest : Server Unit)
    (h : SometimesEnds p handler (fun tr v p' => v = true ∧ Spoilt client p tr p')) :
    SometimesEnds p (copied client handler rest) (fun tr _ p' => Spoilt client p tr p') := by
  refine ⟨luckyEnv, trivial, luckyEnv, trivial, ?_⟩
  change SometimesEnds p (handler >>= fun taken => if taken then pure () else rest) _
  refine sometimes_bind.mpr (h.mono ?_)
  rintro tr v p' ⟨rfl, hspoilt⟩
  change Spoilt client p (_ :: _ :: (tr ++ [])) p'
  rw [List.append_nil, spoilt_ask rfl, spoilt_ask rfl]
  exact hspoilt

/-- A `WIGGLE` or `WIGGLE_STOP` text gets to its handler. -/
theorem wiggle_command (client : Client) {text : CText}
    (h : hasPrefix "WIGGLE" (stripCanPrefix text) = true) :
    ∃ rest, commandHandleText realMode client text =
      copied client (if hasPrefix "WIGGLE_STOP" (stripCanPrefix text) = true then
        handleWiggleStop client (stripCanPrefix text)
      else handleWiggle client (stripCanPrefix text)) rest := by
  have hother (word : String) (hword : ¬ "WIGGLE".toList <+: word.toList ∧
      ¬ word.toList <+: "WIGGLE".toList) : hasPrefix word (stripCanPrefix text) = false :=
    hasPrefix_other h hword
  rw [commandHandleText_other realMode client (not_readToggle_of_word h (by decide)),
    dispatch_copyHandlers client (ne_of_hasPrefix h (by decide)) (hother _ (by decide))
      (hother _ (by decide))]
  unfold copied copyHandlers
  cases hstop : hasPrefix "WIGGLE_STOP" (stripCanPrefix text) with
  | true =>
    rw [if_pos rfl]
    exact ⟨_, rfl⟩
  | false =>
    rw [if_neg Bool.false_ne_true, handleWiggleStop_other client hstop, Program.pure_eq,
      Program.ret_bind, if_neg Bool.false_ne_true]
    exact ⟨_, rfl⟩

theorem allOrNothing_iff {config : AppConfig} {text : CText} :
    AllOrNothing config client text p ↔ AlwaysEnds p (commandHandleText config client text)
      (fun tr _ p' => Settled client p tr p') := by
  rw [AlwaysEnds, always_iff]
  constructor
  · intro h tr v p' hrun _
    exact h tr p' hrun
  · intro h tr p' hrun
    exact h tr () p' hrun (fun _ _ => trivial)

/-- Talk changes no table and sends no frame. -/
theorem perform_chat {q : Process} {env : Env} {a : Act} (h : a.kind ∈ [ActKind.chat]) :
    (perform q env a).1.app.wiggles = q.app.wiggles ∧
      sentCommands (perform q env a).2.2 = [] := by
  revert h
  fun_cases Act.kind a <;> first | exact fun _ => ⟨rfl, rfl⟩ | exact fun h => absurd h (by decide)

theorem sentCommands_append (es fs : List Event) :
    sentCommands (es ++ fs) = sentCommands es ++ sentCommands fs := List.filterMap_append

theorem sentCommands_outputs {tr : List (Process × Env × Act)}
    (h : ∀ x ∈ tr, sentCommands (perform x.1 x.2.1 x.2.2).2.2 = []) :
    sentCommands (outputs (S := serverSig) perform tr) = [] := by
  induction tr with
  | nil => rfl
  | cons x tr ih =>
    obtain ⟨hx, hrest⟩ := List.forall_mem_cons.mp h
    obtain ⟨q, env, a⟩ := x
    rw [outputs_cons, sentCommands_append, hx, ih hrest]
    rfl

theorem chat_settled {q : Server Unit} (h : Kinds [.chat] q) :
    AlwaysEnds p q (fun tr _ p' => Settled client p tr p') := by
  refine (Performs.always h (I := fun p' => p'.app.wiggles = p.app.wiggles) ?_ rfl).mono ?_
  · intro q env a ha hq
    exact (perform_chat ha).1.trans hq
  · rintro tr v p' ⟨htable, htr⟩ msg _ _
    exact ⟨htable, sentCommands_outputs (fun x hx => (perform_chat (htr x hx).1).2)⟩

theorem kinds_guarded {config : AppConfig} (h : config.testingMode = true ∨ config.readOnly = true)
    (client : Client) (text : CText) : Kinds [.chat] (commandHandleText config client text) := by
  rw [commandHandleText_eq]
  refine (kinds_handleReadToggle client text).bind (fun toggled => ?_)
  split_ifs
  · exact kinds_pure ()
  unfold dispatch
  split_ifs with htesting hread
  · exact kinds_handleTestingCommand client _
  · exact kinds_sendReply (by decide) client _
  · exact absurd h (not_or.mpr ⟨htesting, hread⟩)

theorem handleWiggleStop_settled {text : CText} (hstop : hasPrefix "WIGGLE_STOP" text = true)
    (h : StopsAll (Strtok.tokens '|' text).tail ∨
      StopsNone p.app.wiggles (Strtok.tokens '|' text).tail) :
    AlwaysEnds p (handleWiggleStop client text)
      (fun tr v p' => v = true ∧ Settled client p tr p') := by
  rw [handleWiggleStop_eq client hstop]
  refine replied_settled ((kinds_stopEntries _ 0).mono (by decide)) ?_
  rcases h with hall | hnone
  · refine (stopEntries_result _ 0 p).mono ?_
    intro tr v p' hv hfailure
    -- no entry is malformed, so that the answer is no failure
    rw [wiggleStopReply_failure, hv.mpr hall] at hfailure
    cases hfailure
  · exact (stopEntries_none 0 hnone).mono (fun tr v p' hv _ => hv)

theorem handleWiggleStop_spoilt {text : CText} (hstop : hasPrefix "WIGGLE_STOP" text = true)
    (hall : ¬ StopsAll (Strtok.tokens '|' text).tail)
    (hnone : ¬ StopsNone p.app.wiggles (Strtok.tokens '|' text).tail) :
    SometimesEnds p (handleWiggleStop client text)
      (fun tr v p' => v = true ∧ Spoilt client p tr p') := by
  rw [handleWiggleStop_eq client hstop]
  refine replied_spoilt ?_
  have hchanged := (stopEntries_begun 0 hnone).sometimes ⟨luckyEnv, trivial⟩
  refine (hchanged.and_always (stopEntries_result _ 0 p)).mono ?_
  rintro tr v p' ⟨htable, hv⟩
  refine ⟨?_, htable⟩
  rw [wiggleStopReply_failure, ← Bool.not_eq_false]
  exact fun hfalse => hall (hv.mp hfalse)

theorem handleWiggle_settled {text : CText} (hwiggle : hasPrefix "WIGGLE" text = true)
    (hstop : hasPrefix "WIGGLE_STOP" text = false)
    (h : p.app.state ≠ .prechilling ∨ StartsNone p.app.wiggles (Strtok.tokens '|' text).tail ∨
      StartsAll p.app.wiggles (Strtok.tokens '|' text).tail) :
    AlwaysEnds p (handleWiggle client text)
      (fun tr v p' => v = true ∧ Settled client p tr p') := by
  rw [handleWiggle_eq client hwiggle hstop]
  intro env _
  have hask : (perform p env .getState).2.2 = [] := rfl
  simp only [settled_ask hask]
  change AlwaysEnds p (if p.app.state ≠ .prechilling then _ else _) _
  split_ifs with hstate
  · intro env' _
    refine ⟨rfl, ?_⟩
    apply settled_of_no_reply
    intro msg hmsg hmem
    have heq : msg = "WIGGLE rejected: system not in PRECHILLING" :=
      (Event.sendText.inj (List.mem_singleton.mp hmem)).2
    rw [heq] at hmsg
    exact absurd hmsg (by decide)
  refine replied_settled ((kinds_startEntries _ 0).mono (by decide)) ?_
  rcases h with hother | hnone | hall
  · exact absurd hother hstate
  · exact (startEntries_none 0 hnone).mono (fun tr v p' hv _ => hv)
  · cases hentries : (Strtok.tokens '|' text).tail with
    | nil => exact fun _ => ⟨rfl, rfl⟩
    | cons token entries =>
      rw [hentries] at hall
      refine (startEntries_result _ 0 p).mono ?_
      rintro tr v p' ⟨hv, hcount⟩ hfailure
      -- all entries are started, and there is one at least
      have hfalse := hv.mpr hall
      have hlength := hcount hfalse
      rw [wiggleReply_failure, hfalse, hlength, List.length_cons] at hfailure
      rcases hfailure with hfailure | hfailure
      · cases hfailure
      · omega

theorem handleWiggle_spoilt {text : CText} (hwiggle : hasPrefix "WIGGLE" text = true)
    (hstop : hasPrefix "WIGGLE_STOP" text = false) (hstate : p.app.state = .prechilling)
    (hnone : ¬ StartsNone p.app.wiggles (Strtok.tokens '|' text).tail)
    (hall : ¬ StartsAll p.app.wiggles (Strtok.tokens '|' text).tail) :
    SometimesEnds p (handleWiggle client text)
      (fun tr v p' => v = true ∧ Spoilt client p tr p') := by
  rw [handleWiggle_eq client hwiggle hstop]
  refine ⟨luckyEnv, trivial, ?_⟩
  have hask : (perform p luckyEnv .getState).2.2 = [] := rfl
  simp only [spoilt_ask hask]
  change SometimesEnds p (if p.app.state ≠ .prechilling then _ else _) _
  rw [if_neg (not_not.mpr hstate)]
  refine replied_spoilt ((startEntries_begun hnone hall).mono ?_)
  rintro tr v p' ⟨hv, htable⟩
  exact ⟨(wiggleReply_failure v).mpr (Or.inl hv), htable⟩

theorem spoilt_not_settled {q : Server Unit}
    (h : SometimesEnds p q (fun tr _ p' => Spoilt client p tr p')) :
    ¬ AlwaysEnds p q (fun tr _ p' => Settled client p tr p') := by
  intro hall
  obtain ⟨tr, v, p', -, -, ⟨msg, hmsg, hmem, htable⟩, hsettled⟩ :=
    sometimes_iff.mp (h.and_always hall)
  exact htable (hsettled msg hmsg hmem).1

theorem allOrNothing_of_decided {text : CText}
    (h : hasPrefix "WIGGLE" (stripCanPrefix text) = true)
    (hcond : DecidedAtOnce p (stripCanPrefix text)) : AllOrNothing realMode client text p := by
  obtain ⟨rest, hcommand⟩ := wiggle_command client h
  rw [allOrNothing_iff, hcommand]
  unfold DecidedAtOnce at hcond
  cases hstop : hasPrefix "WIGGLE_STOP" (stripCanPrefix text) with
  | true =>
    rw [hstop, if_pos rfl] at hcond
    rw [if_pos rfl]
    exact copied_settled rest (handleWiggleStop_settled hstop hcond)
  | false =>
    rw [hstop, if_neg Bool.false_ne_true] at hcond
    rw [if_neg Bool.false_ne_true]
    exact copied_settled rest (handleWiggle_settled h hstop hcond)

theorem not_allOrNothing {text : CText} (h : hasPrefix "WIGGLE" (stripCanPrefix text) = true)
    (hcond : ¬ DecidedAtOnce p (stripCanPrefix text)) :
    ¬ AllOrNothing realMode client text p := by
  obtain ⟨rest, hcommand⟩ := wiggle_command client h
  rw [allOrNothing_iff, hcommand]
  unfold DecidedAtOnce at hcond
  cases hstop : hasPrefix "WIGGLE_STOP" (stripCanPrefix text) with
  | true =>
    rw [hstop, if_pos rfl] at hcond
    rw [if_pos rfl]
    obtain ⟨hall, hnone⟩ := not_or.mp hcond
    exact spoilt_not_settled (copied_spoilt rest (handleWiggleStop_spoilt hstop hall hnone))
  | false =>
    rw [hstop, if_neg Bool.false_ne_true] at hcond
    rw [if_neg Bool.false_ne_true]
    obtain ⟨hstate, hcond⟩ := not_or.mp hcond
    obtain ⟨hnone, hall⟩ := not_or.mp hcond
    exact spoilt_not_settled
      (copied_spoilt rest (handleWiggle_spoilt h hstop (not_not.mp hstate) hnone hall))

/-- A failed command has had no effect exactly when it is decided at its first entry, or
not at all: the entries are applied one by one, and nothing takes them back. -/
theorem failed_commands_have_no_effect (config : AppConfig) (client : Client) (text : CText)
    (p : Process) (h : hasPrefix "WIGGLE" (stripCanPrefix text) = true) :
    AllOrNothing config client text p ↔
      config.testingMode = true ∨ config.readOnly = true ∨
        DecidedAtOnce p (stripCanPrefix text) := by
  by_cases hguard : config.testingMode = true ∨ config.readOnly = true
  · have hsettled : AlwaysEnds p (commandHandleText config client text)
        (fun tr _ p' => Settled client p tr p') := chat_settled (kinds_guarded hguard client text)
    refine iff_of_true (allOrNothing_iff.mpr hsettled) ?_
    rcases hguard with hguard | hguard
    · exact Or.inl hguard
    · exact Or.inr (Or.inl hguard)
  obtain ⟨htesting, hread⟩ := not_or.mp hguard
  rw [or_iff_right htesting, or_iff_right hread]
  obtain ⟨readOnly, testingMode⟩ := config
  obtain rfl : testingMode = false := (Bool.not_eq_true _).mp htesting
  obtain rfl : readOnly = false := (Bool.not_eq_true _).mp hread
  constructor
  · intro hsettled
    by_contra hcond
    exact not_allOrNothing h hcond hsettled
  · exact allOrNothing_of_decided h

/-- Every entry of the command is well formed. -/
theorem failed_commands_have_no_effect_stop :
    AllOrNothing realMode 0 "WIGGLE_STOP|101|102".toList (idleProcess .prechilling) :=
  (failed_commands_have_no_effect realMode 0 "WIGGLE_STOP|101|102".toList
    (idleProcess .prechilling) (by decide)).mpr (Or.inr (Or.inr (Or.inl (by
      have hentries : (Strtok.tokens '|' "WIGGLE_STOP|101|102".toList).tail =
        ["101".toList, "102".toList] := by decide
      unfold StopsAll
      change ∀ token ∈ (Strtok.tokens '|' "WIGGLE_STOP|101|102".toList).tail, _
      rw [hentries]
      decide))))

/-- A malformed second entry leaves the first one running. -/
theorem failed_wiggle_leaves_first_running :
    ¬ AllOrNothing realMode 0 "WIGGLE|101#1#2#3#5|zzz".toList (idleProcess .prechilling) := by
  have hentries : (Strtok.tokens '|' (stripCanPrefix "WIGGLE|101#1#2#3#5|zzz".toList)).tail =
      ["101#1#2#3#5".toList, "zzz".toList] := by decide
  have hfirst : scanWiggle "101#1#2#3#5".toList = some ⟨0x101, 1, 2, 3, 5, 0⟩ := by decide
  have hroom : Room (idleProcess .prechilling).app.wiggles [0x101] := by decide
  apply not_allOrNothing (by decide)
  unfold DecidedAtOnce
  rw [if_neg (by decide), hentries]
  rintro (hstate | hnone | hall)
  · exact hstate rfl
  · rcases hnone _ rfl _ hfirst with hrefused | hfull
    · exact absurd hrefused (by decide)
    · exact hfull hroom
  · obtain ⟨r, hr, -⟩ := hall.valid "zzz".toList (by decide)
    have hsecond : scanWiggle "zzz".toList = none := by decide
    cases hsecond.symm.trans hr

end WsServer
