import WsServer.AllOrNothing
import WsServer.Controller
import WsServer.WiggleLedger

/-! The code does what the controller does: each handler, run alone on a process that stands for
a controller, leaves one that stands for the controller behind the request, with the same
reaction, whatever slots, flags and texts are behind it. -/
namespace WsServer
open Interaction Program SlotTable

/-! ### What stands for what -/

def App.firing (app : App) : Firing :=
  if app.sequenceActive then .running app.sequenceAbort else .idle

/-- What the first context of a client says of its reading. -/
def writeOnlyIn (ctxs : List AppClientCtx) (client : Client) : Option Bool :=
  (ctxs.find? (fun c => c.client == client)).map AppClientCtx.writeOnly

/-- The process stands for the controller. An abort flag without a sequence, what is left in a
slot that is free, and the order of slots and contexts stand for nothing. -/
structure Implements (p : Process) (k : Controller) : Prop where
  wiggling : Refines p.app k.wiggling
  firing : p.app.firing = k.firing
  profile : p.app.valveProfile = k.profile
  writeOnly : writeOnlyIn p.app.clients = k.writeOnly
  nodup : (p.app.clients.map AppClientCtx.client).Nodup

def Event.reply : Event → Option (Client × String)
  | .sendText client text => some (client, text)
  | _ => none

def Event.announcement : Event → Option String
  | .broadcast text => some text
  | _ => none

def Event.raw : Event → Option (CanCommand × SendResult)
  | .canTx .rawCommand c result => some (c, result)
  | _ => none

/-- The events of a run, and the workers that it has created, are the reaction. -/
structure Reacted (p p' : Process) (es : List Event) (r : Reaction) : Prop where
  replies : es.filterMap Event.reply = r.replies
  announced : es.filterMap Event.announcement = r.announced
  wiggled : (attempted es : Multiset CanCommand) = r.wiggled
  raw : es.filterMap Event.raw = r.raw
  launched : p'.workers = p.workers ++ r.launched.map (fun args => ⟨args, .sendStarted⟩)

/-! ### What a run was granted -/

def copyMade : Process × Env × Act → Option Bool
  | (_, env, .allocate) => some env.alloc
  | _ => none

def memoryGranted : Process × Env × Act → Bool
  | (_, env, .callocArgs) => env.alloc
  | _ => true

def threadGranted : Process × Env × Act → Bool
  | (_, env, .createWorker _) => env.thread
  | _ => true

def rawWritten : Process × Env × Act → Option SendResult
  | (p, env, .canSend c) => some (canBusSendCommand p.app.canFd c (env.write 0))
  | _ => none

def clockRead : Process × Env × Act → Option UInt64
  | (_, env, .wiggleStart _) => some env.now
  | _ => none

/-- The luck of a run. -/
def luckOf (tr : List (Process × Env × Act)) : Luck where
  copies n := (tr.filterMap copyMade).getD n true
  memory := tr.all memoryGranted
  thread := tr.all threadGranted
  written := (tr.filterMap rawWritten).headD .sent
  clock n := (tr.filterMap clockRead).getD n 0

/-- The run does what the controller does with the luck of the run. -/
structure Done (p p' : Process) (tr : List (Process × Env × Act))
    (f : Luck → Controller × Reaction) : Prop where
  implements : Implements p' (f (luckOf tr)).1
  reacted : Reacted p p' (outputs (S := serverSig) perform tr) (f (luckOf tr)).2

variable {p p' : Process} {k : Controller} {client : Client}

theorem done_of_eq {tr : List (Process × Env × Act)} {f : Luck → Controller × Reaction}
    {y : Controller × Reaction} (hf : f (luckOf tr) = y) (himplements : Implements p' y.1)
    (hreacted : Reacted p p' (outputs (S := serverSig) perform tr) y.2) : Done p p' tr f := by
  subst hf
  exact ⟨himplements, hreacted⟩

/-- The first copy of a run is the one that is made first. -/
theorem copies_zero (p : Process) (env : Env) (tr : List (Process × Env × Act)) :
    (luckOf ((p, env, .allocate) :: tr)).copies 0 = env.alloc := rfl

/-- Behind the copy of the text. -/
theorem Done.copied {tr : List (Process × Env × Act)} {f : Luck → Controller × Reaction}
    (h : Done p p' tr f) {env : Env} {g : Luck → Controller × Reaction}
    (hg : g (luckOf ((p, env, .allocate) :: tr)) = f (luckOf tr)) :
    Done p p' ((p, env, .allocate) :: tr) g := done_of_eq hg h.implements h.reacted

/-! ### Sections on the wiggles -/

/-- The events of a section that moves wiggles. -/
def Event.OfWiggle : Event → Prop
  | .canTx .wiggle _ _ | .log _ _ => True
  | _ => False

theorem ofWiggle_sendValue {fd : Int} {slot : WiggleCommand} {value : UInt16}
    {write : Option String} : ∀ e ∈ (sendValue fd slot value write).2, e.OfWiggle := by
  intro e he
  rcases List.mem_cons.mp he with rfl | hlog
  · trivial
  · split at hlog
    · rw [List.mem_singleton.mp hlog]
      trivial
    · cases hlog

theorem ofWiggle_deactivateSlot {fd : Int} {slot : WiggleCommand} {sendExitValue : Bool}
    {write : Option String} :
    ∀ e ∈ (deactivateSlot fd slot sendExitValue write).2, e.OfWiggle := by
  intro e he
  unfold deactivateSlot at he
  split_ifs at he
  · cases he
  · exact ofWiggle_sendValue e he
  · cases he

theorem ofWiggle_processSlot {fd : Int} {now : UInt64} {slot : WiggleCommand}
    {write : Option String} : ∀ e ∈ (processSlot fd now slot write).2, e.OfWiggle := by
  intro e he
  unfold processSlot at he
  split_ifs at he
  · cases he
  · exact ofWiggle_deactivateSlot e he
  · cases he
  · exact ofWiggle_sendValue e he
  · exact ofWiggle_sendValue e he

/-- A part of a run that only moves wiggles. -/
structure Moved (p : Process) (k : Controller) (p' : Process) (es : List Event) (w : Wiggling)
    (sent : Multiset CanCommand) : Prop where
  implements : Implements p' { k with wiggling := w }
  workers : p'.workers = p.workers
  sent : (attempted es : Multiset CanCommand) = sent
  own : ∀ e ∈ es, e.OfWiggle

theorem filterMap_ofWiggle {α : Type} {f : Event → Option α} {es : List Event}
    (hf : ∀ e, e.OfWiggle → f e = none) (h : ∀ e ∈ es, e.OfWiggle) : es.filterMap f = [] :=
  List.filterMap_eq_nil_iff.mpr (fun e he => hf e (h e he))

theorem Moved.reacted {es : List Event} {w : Wiggling} {sent : Multiset CanCommand}
    (h : Moved p k p' es w sent) : Reacted p p' es { wiggled := sent } where
  replies := filterMap_ofWiggle (by rintro (_ | _ | _ | _) he <;> first | rfl | cases he) h.own
  announced := filterMap_ofWiggle (by rintro (_ | _ | _ | _) he <;> first | rfl | cases he) h.own
  wiggled := h.sent
  raw := filterMap_ofWiggle (by rintro (⟨⟨⟩, _, _⟩ | _ | _ | _) he <;> first | rfl | cases he) h.own
  launched := h.workers.trans (List.append_nil _).symm

theorem Implements.setWiggles (h : Implements p k) {t : WiggleTable} {w : Wiggling}
    (ht : Refines { p.app with wiggles := t } w) :
    Implements (p.setApp { p.app with wiggles := t }) { k with wiggling := w } where
  wiggling := ht
  firing := h.firing
  profile := h.profile
  writeOnly := h.writeOnly
  nodup := h.nodup

/-- A section that only writes the table moves wiggles. -/
theorem Implements.moved (h : Implements p k) {app : App} {es : List Event} {w : Wiggling}
    {sent : Multiset CanCommand} (hframe : ∃ t, app = { p.app with wiggles := t })
    (happ : Refines app w) (hsent : (attempted es : Multiset CanCommand) = sent)
    (hown : ∀ e ∈ es, e.OfWiggle) : Moved p k (p.setApp app) es w sent := by
  obtain ⟨t, rfl⟩ := hframe
  exact ⟨h.setWiggles happ, rfl, hsent, hown⟩

theorem moved_start (h : Implements p k) (env : Env) {r : WiggleRequest} (hr : ¬ r.Refused) :
    Moved p k (perform p env (.wiggleStart r)).1 (perform p env (.wiggleStart r)).2.2
        (k.wiggling.call env.now (.start r)).1 (k.wiggling.call env.now (.start r)).2.sent ∧
      (perform p env (.wiggleStart r)).2.1 = (k.wiggling.call env.now (.start r)).2.answer := by
  have hcall := callRefines_start h.wiggling env r
  rw [run_start p.app env hr] at hcall
  refine ⟨h.moved (wiggleStartLocked_frame p.app env r) hcall.refines hcall.sent ?_, hcall.answer⟩
  intro e he
  simp only [perform, wiggleStartLocked] at he
  split at he
  · cases he
  · exact ofWiggle_sendValue e he

theorem moved_stop (h : Implements p k) (env : Env) (id : UInt32) :
    Moved p k (perform p env (.wiggleStop id)).1 (perform p env (.wiggleStop id)).2.2
        (k.wiggling.call env.now (.stop id)).1 (k.wiggling.call env.now (.stop id)).2.sent ∧
      (perform p env (.wiggleStop id)).2.1 = decide (id ∈ k.wiggling.map) := by
  have hcall := callRefines_stop h.wiggling env id
  rw [run_stop] at hcall
  refine ⟨h.moved (wiggleStopLocked_frame p.app env id) hcall.refines hcall.sent ?_, ?_⟩
  · intro e he
    simp only [perform, wiggleStopLocked] at he
    split at he
    · cases he
    · exact ofWiggle_deactivateSlot e he
  · have hanswer := call_stop_answer k.wiggling env.now id
    rw [← hcall.answer] at hanswer
    apply Bool.eq_iff_iff.mpr
    rw [decide_eq_true_iff, ← hanswer]
    change (wiggleStopLocked p.app env id).2.1 = true ↔
      (if (wiggleStopLocked p.app env id).2.1 = true then (1 : Int) else 0) = 1
    cases (wiggleStopLocked p.app env id).2.1
    · exact iff_of_false Bool.false_ne_true (by decide)
    · exact iff_of_true rfl rfl

theorem moved_stopAll (h : Implements p k) (env : Env) (sendExitValue : Bool) :
    Moved p k (perform p env (.wiggleStopAll sendExitValue)).1
        (perform p env (.wiggleStopAll sendExitValue)).2.2 { k.wiggling with map := ∅ }
        (k.wiggling.map.exits sendExitValue) ∧
      (perform p env (.wiggleStopAll sendExitValue)).2.1 = k.wiggling.map.keys.card := by
  obtain ⟨hleft, hsent⟩ := stopAllLocked_refines h.wiggling env sendExitValue
  refine ⟨h.moved ⟨_, rfl⟩ hleft hsent ?_, ?_⟩
  · intro e he
    obtain ⟨i, -, hi⟩ := List.mem_flatMap.mp he
    exact ofWiggle_deactivateSlot e hi
  · rw [h.wiggling.table.card_keys]
    apply List.countP_congr
    intro i _
    cases hactive : (p.app.wiggles i).active with
    | true => simp only [slotsOf, entry_active hactive, Option.isSome_some]
    | false => simp only [slotsOf, entry_inactive hactive, Option.isSome_none]

theorem moved_process (h : Implements p k) (env : Env) :
    Moved p k (perform p env .wiggleProcess).1 (perform p env .wiggleProcess).2.2
      (k.wiggling.call env.now .process).1 (k.wiggling.call env.now .process).2.sent := by
  have hcall := callRefines_process h.wiggling env
  rw [run_process] at hcall
  refine h.moved (wiggleProcess_frame p.app env) hcall.refines hcall.sent ?_
  intro e he
  simp only [perform, wiggleProcess] at he
  split_ifs at he
  · cases he
  · obtain ⟨i, -, hi⟩ := List.mem_flatMap.mp he
    exact ofWiggle_processSlot e hi

/-! ### Loops over the entries -/

theorem outputs_single (p : Process) (env : Env) (a : Act) :
    outputs (S := serverSig) perform [(p, env, a)] = (perform p env a).2.2 := List.append_nil _

theorem Moved.trans {q : Process} {es es' : List Event} {w w' : Wiggling}
    {sent sent' : Multiset CanCommand} (h : Moved p k q es w sent)
    (h' : Moved q { k with wiggling := w } p' es' w' sent') :
    Moved p k p' (es ++ es') w' (sent + sent') where
  implements := h'.implements
  workers := h'.workers.trans h.workers
  sent := by
    rw [attempted_append, ← Multiset.coe_add, h.sent, h'.sent]
  own e he := (List.mem_append.mp he).elim (h.own e) (h'.own e)

theorem Implements.stays (h : Implements p k) : Moved p k p [] k.wiggling 0 where
  implements := h
  workers := rfl
  sent := rfl
  own := nofun

/-- The loop of `WIGGLE_STOP`: the ids in front of the first entry that cannot be read. -/
theorem stopEntries_moved (entries : List CText) (stopped : ℕ) (h : Implements p k) :
    AlwaysEnds p (stopEntries entries stopped) (fun tr v p' =>
      let ids := ((entries.map scanWiggleStop).takeWhile Option.isSome).reduceOption
      Moved p k p' (outputs (S := serverSig) perform tr)
          { k.wiggling with map := k.wiggling.map.without ids }
          (∑ id ∈ k.wiggling.map.running ids, k.wiggling.map.exitOf id) ∧
        v = (stopped + (k.wiggling.map.running ids).card,
          decide (none ∈ entries.map scanWiggleStop))) := by
  -- where the loop ends, nothing has been stopped in it
  have hend (p : Process) (k : Controller) (h : Implements p k) :
      Moved p k p (outputs (S := serverSig) perform [])
        { k.wiggling with map := k.wiggling.map.without [] }
        (∑ id ∈ k.wiggling.map.running [], k.wiggling.map.exitOf id) := by
    rw [without_nil]
    exact h.stays
  -- the rest of the entries finds the map without the id of the first one
  induction entries generalizing stopped p k with
  | nil => exact ⟨hend p k h, rfl⟩
  | cons token entries ih =>
    unfold stopEntries
    cases hscan : scanWiggleStop token with
    | none =>
      simp only [List.map_cons, hscan, List.takeWhile_cons, Option.isSome_none,
        Bool.false_eq_true, if_false, List.mem_cons_self, decide_true]
      exact ⟨hend p k h, rfl⟩
    | some id =>
      intro env _
      obtain ⟨hmoved, hanswer⟩ := moved_stop h env id
      rw [call_stop] at hmoved
      apply (ih _ hmoved.implements).mono
      intro tr v p' hrest
      obtain ⟨hmoved', hv⟩ := hrest
      simp only [List.map_cons, hscan, List.takeWhile_cons, Option.isSome_some, if_true,
        List.reduceOption_cons_of_some, List.mem_cons, reduceCtorEq, false_or]
      refine ⟨?_, ?_⟩
      · rw [without_cons, sum_exitOf_cons]
        exact hmoved.trans hmoved'
      · rw [hv, card_running_cons, hanswer, ← Nat.add_assoc]
        by_cases hid : id ∈ k.wiggling.map
        · simp only [hid, decide_true, if_true]
        · simp only [hid, decide_false, Bool.false_eq_true, if_false, Nat.add_zero]

/-- What an entry list starts, with the clock of the run, and the frames of it. -/
def Wiggling.startFrames (started : List (WiggleRequest × UInt64)) : Multiset CanCommand :=
  started.map (fun x => (⟨x.1.id, x.1.startValue, 0⟩ : CanCommand))

/-- The loop of `WIGGLE`: the entries in front of the first that cannot be started. -/
theorem startEntries_moved (entries : List CText) (n : ℕ) (h : Implements p k) :
    AlwaysEnds p (startEntries entries n) (fun tr v p' =>
      let started := k.wiggling.started (entries.map scanWiggle) (luckOf tr).clock
      Moved p k p' (outputs (S := serverSig) perform tr)
          { k.wiggling with map := k.wiggling.map.startAll started }
          (Wiggling.startFrames started) ∧
        v = (n + started.length, decide (started.length < entries.length))) := by
  induction entries generalizing n p k with
  | nil => exact ⟨h.stays, rfl⟩
  | cons token entries ih =>
    rcases entry_cases token with hrefused | ⟨r, hscan, hgood⟩
    · rw [startEntries_refused entries n hrefused]
      have hnone (clock : ℕ → UInt64) :
          k.wiggling.started ((token :: entries).map scanWiggle) clock = [] := by
        rw [List.map_cons]
        cases hscan : scanWiggle token with
        | none => rfl
        | some r =>
          exact started_refused _ _ _ (call_start_refused _ _ (hrefused r hscan))
      refine ⟨?_, ?_⟩
      · simp only [hnone]
        exact h.stays
      · simp only [hnone]
        rfl
    · rw [startEntries_tried entries n hscan hgood]
      intro env _
      obtain ⟨hmoved, hanswer⟩ := moved_start h env hgood
      simp only [List.map_cons, hscan]
      -- the clock of the run is the one of this start, and then the one of the rest
      change AlwaysEnds _ (if (perform p env (.wiggleStart r)).2.1 ≠ 0 then _ else _) _
      rcases call_start_cases k.wiggling env.now r with hcall | hcall
      · rw [hcall] at hmoved hanswer
        rw [if_neg (not_not.mpr hanswer)]
        apply (ih (n+1) hmoved.implements).mono
        intro tr v p' hrest
        obtain ⟨hmoved', hv⟩ := hrest
        have hstarted := started_cons k.wiggling (luckOf ((p, env, .wiggleStart r) :: tr)).clock
          (entries.map scanWiggle) hcall
        simp only [hstarted, hv, List.length_cons]
        refine ⟨hmoved.trans hmoved', ?_⟩
        rw [Nat.add_assoc, Nat.add_comm 1]
        simp only [Nat.add_lt_add_iff_right]
        rfl
      · rw [hcall] at hmoved hanswer
        have hfailed : (perform p env (.wiggleStart r)).2.1 ≠ 0 := by
          rw [hanswer]
          exact show (-1 : Int) ≠ 0 by decide
        rw [if_pos hfailed]
        have hstarted := started_refused k.wiggling (luckOf [(p, env, .wiggleStart r)]).clock
          (entries.map scanWiggle) hcall
        change Moved _ _ _ (outputs (S := serverSig) perform [(p, env, .wiggleStart r)]) _ _ ∧ _
        rw [outputs_single]
        simp only [hstarted]
        exact ⟨hmoved, rfl⟩

/-! ### Handlers -/

/-- The handler takes the text and does what the controller does. -/
abbrev TakesRequest (p : Process) (handler : Server Bool)
    (f : Luck → Controller × Reaction) : Prop :=
  AlwaysEnds p handler (fun tr v p' => v = true ∧ Done p p' tr f)

theorem Reacted.reply {es : List Event} {r : Reaction} (h : Reacted p p' es r) (msg : String) :
    Reacted p p' (es ++ [.sendText client msg])
      { r with replies := r.replies ++ [(client, msg)] } where
  replies := by
    rw [List.filterMap_append, h.replies]
    rfl
  announced := by
    rw [List.filterMap_append, h.announced]
    exact List.append_nil _
  wiggled := by
    rw [attempted_append, ← h.wiggled]
    exact congrArg _ (List.append_nil _)
  raw := by
    rw [List.filterMap_append, h.raw]
    exact List.append_nil _
  launched := h.launched

theorem Reacted.announce {es : List Event} {r : Reaction} (h : Reacted p p' es r)
    (text : String) :
    Reacted p p' (es ++ [.broadcast text]) { r with announced := r.announced ++ [text] } where
  replies := by
    rw [List.filterMap_append, h.replies]
    exact List.append_nil _
  announced := by
    rw [List.filterMap_append, h.announced]
    rfl
  wiggled := by
    rw [attempted_append, ← h.wiggled]
    exact congrArg _ (List.append_nil _)
  raw := by
    rw [List.filterMap_append, h.raw]
    exact List.append_nil _
  launched := h.launched

/-- Only the workers of the process before count. -/
theorem Reacted.behind {q : Process} {es : List Event} {r : Reaction} (h : Reacted q p' es r)
    (hworkers : q.workers = p.workers) : Reacted p p' es r where
  replies := h.replies
  announced := h.announced
  wiggled := h.wiggled
  raw := h.raw
  launched := hworkers ▸ h.launched

/-- A part of a run that has done nothing but for its reply. -/
theorem Implements.replied (h : Implements p k) (msg : String) :
    Reacted p p [.sendText client msg] { replies := [(client, msg)] } :=
  h.stays.reacted.reply msg

theorem takes_reply_only (h : Implements p k) (msg : String) :
    TakesRequest p (sendReply client msg >>= fun _ => pure true) (fun _ => k.reply client msg) :=
  fun _ _ => ⟨rfl, h, h.replied msg⟩

/-- A reply is no matter of luck. -/
theorem luckOf_reply (tr : List (Process × Env × Act)) (q : Process) (env : Env) (msg : String) :
    luckOf (tr ++ [(q, env, Act.sendText client msg)]) = luckOf tr := by
  have hnone {α : Type} {f : Process × Env × Act → Option α}
      (hf : f (q, env, Act.sendText client msg) = none) :
      (tr ++ [(q, env, Act.sendText client msg)]).filterMap f = tr.filterMap f := by
    rw [List.filterMap_append, List.filterMap_cons_none hf]
    exact List.append_nil _
  have hall {f : Process × Env × Act → Bool} (hf : f (q, env, Act.sendText client msg) = true) :
      (tr ++ [(q, env, Act.sendText client msg)]).all f = tr.all f := by
    rw [List.all_append, List.all_cons, hf]
    exact Bool.and_true _
  unfold luckOf
  rw [hnone rfl, hall rfl, hall rfl, hnone rfl, hnone rfl]

/-- A handler that does its work, and then replies. -/
theorem takes_then_reply {α : Type} {doing : Server α} {reply : α → String}
    {f : Luck → Controller × Reaction}
    (h : AlwaysEnds p doing (fun tr v p' => Implements p' (f (luckOf tr)).1 ∧
      ∃ r, Reacted p p' (outputs (S := serverSig) perform tr) r ∧
        (f (luckOf tr)).2 = { r with replies := r.replies ++ [(client, reply v)] })) :
    TakesRequest p (doing >>= fun v => sendReply client (reply v) >>= fun _ => pure true) f := by
  apply always_bind.mpr
  apply h.mono
  intro tr v p' hdone env _
  obtain ⟨himplements, r, hreacted, hreaction⟩ := hdone
  have houtputs : outputs (S := serverSig) perform (tr ++ [(p', env, .sendText client (reply v))]) =
      outputs (S := serverSig) perform tr ++ [.sendText client (reply v)] := by
    rw [outputs_append]
    rfl
  refine ⟨rfl, ?_, ?_⟩
  · rw [luckOf_reply]
    exact himplements
  · rw [luckOf_reply, houtputs, hreaction]
    exact hreacted.reply (reply v)

/-- `wiggle_stop_all` tells all clients how many it has stopped. -/
theorem wiggleStopAll_done (h : Implements p k) :
    AlwaysEnds p (wiggleStopAll true) (fun tr _ p' =>
      Implements p' { k with wiggling := { k.wiggling with map := ∅ } } ∧
      Reacted p p' (outputs (S := serverSig) perform tr)
        { announced := k.wiggling.map.stopNews, wiggled := k.wiggling.map.exits true }) := by
  intro env _
  obtain ⟨hmoved, hcount⟩ := moved_stopAll h env true
  change AlwaysEnds _ (if (perform p env (.wiggleStopAll true)).2.1 > 0 then
    act (.broadcast _) else pure ()) _
  rw [hcount]
  split_ifs with hsome
  · intro env' _
    refine ⟨hmoved.implements, ?_⟩
    have hannounced := hmoved.reacted.announce
      ("Stopped " ++ toString k.wiggling.map.keys.card ++ " active wiggle(s)")
    rw [WiggleMap.stopNews, if_pos hsome]
    exact hannounced
  · refine ⟨hmoved.implements, ?_⟩
    rw [outputs_single, WiggleMap.stopNews, if_neg hsome]
    exact hmoved.reacted

theorem request_abort {text : CText} (h : Implements p k) (htext : text = "ABORT#8765".toList) :
    TakesRequest p (handleAbort client text) (fun luck => k.carryOut luck client .abort) := by
  unfold handleAbort
  rw [if_neg (not_not.mpr htext)]
  intro env _
  -- without a sequence the flag is set too, but stands for nothing
  have hflag : (perform p env .requestAbort).1.app.firing = k.firing.abort := by
    rw [← h.firing]
    change (if p.app.sequenceActive then Firing.running true else .idle) = p.app.firing.abort
    unfold App.firing
    split_ifs <;> rfl
  have habort : Implements (perform p env .requestAbort).1 { k with firing := k.firing.abort } :=
    ⟨h.wiggling.congr rfl rfl, hflag, h.profile, h.writeOnly, h.nodup⟩
  have hdone : TakesRequest (perform p env .requestAbort).1 (wiggleStopAll true >>= fun _ =>
      sendReply client "Abort requested" >>= fun _ => (pure true : Server Bool))
      (fun luck => k.carryOut luck client .abort) := by
    apply takes_then_reply
    apply (wiggleStopAll_done habort).mono
    intro tr v p' hstopped
    exact ⟨hstopped.1, _, hstopped.2, rfl⟩
  apply hdone.mono
  intro tr v p' hrest
  exact ⟨hrest.1, hrest.2.implements, hrest.2.reacted.behind rfl⟩

theorem appStateSet_done (h : Implements p k) (state : AppState) :
    AlwaysEnds p (appStateSet state) (fun tr v p' => v = (p.app.state != state) ∧
      Implements p' (k.enter state).1 ∧
      Reacted p p' (outputs (S := serverSig) perform tr) (k.enter state).2) := by
  have hstored : Implements (p.setApp { p.app with state := state })
      { k with wiggling := { k.wiggling with state := state } } :=
    ⟨⟨h.wiggling.table, rfl, h.wiggling.valid⟩, h.firing, h.profile, h.writeOnly, h.nodup⟩
  intro env _
  cases state with
  | prechilling =>
    intro env₁ _ env₂ _
    exact ⟨rfl, hstored, (hstored.stays.reacted.announce (stateNews .prechilling)).behind rfl⟩
  | hotfire =>
    -- the state is stored already where the wiggles are stopped, and announced behind that
    change AlwaysEnds _ (wiggleStopAll true >>= fun _ =>
      (do appStateBroadcast; pure (p.app.storeState .hotfire).2 : Server Bool)) _
    apply always_bind.mpr
    apply (wiggleStopAll_done hstored).mono
    intro tr v p' hstopped env₁ _ env₂ _
    refine ⟨rfl, hstopped.1, ?_⟩
    have hnews : "State has been set to " ++ appStateLabel p'.app.state = stateNews .hotfire := by
      rw [hstopped.1.wiggling.state]
      rfl
    rw [outputs_cons, outputs_append]
    change Reacted p p' (outputs (S := serverSig) perform tr ++ [.broadcast
      ("State has been set to " ++ appStateLabel p'.app.state)]) _
    rw [hnews]
    exact (hstopped.2.announce _).behind rfl

/-- What `app_state_set` does and tells, and what the handler replies. -/
theorem request_state (h : Implements p k) (state : AppState) {msg : Bool → String}
    (hmsg : ∀ changed, msg changed = "State set to " ++ appStateLabel state ++
      (if changed then "" else " (unchanged)")) :
    TakesRequest p (appStateSet state >>= fun changed => sendReply client (msg changed) >>=
      fun _ => pure true) (fun luck => k.carryOut luck client (.state (some state))) := by
  apply takes_then_reply
  apply (appStateSet_done h state).mono
  intro tr v p' hset
  obtain ⟨hv, himplements, hreacted⟩ := hset
  refine ⟨himplements, _, hreacted, ?_⟩
  have hreply : msg v = "State set to " ++ appStateLabel state ++
      (if k.wiggling.state ≠ state then "" else " (unchanged)") := by
    rw [hmsg, hv, h.wiggling.state]
    simp only [bne_iff_ne]
  have hnone : (k.enter state).2.replies = [] := by cases state <;> rfl
  rw [hnone, hreply]
  rfl

theorem request_stateCommand (h : Implements p k) {text : CText}
    (htext : hasPrefix "STATE#" text = true) : TakesRequest p (handleStateCommand client text)
      (fun luck => k.carryOut luck client (.state (stateOf (text.drop 6)))) := by
  unfold handleStateCommand stateOf
  rw [htext, Bool.not_true, if_neg Bool.false_ne_true]
  split_ifs
  · exact request_state h .prechilling (by decide)
  · exact request_state h .hotfire (by decide)
  · exact takes_reply_only h _

theorem request_setValve (h : Implements p k) {text : CText}
    (htext : hasPrefix "SET_VALVE" text = true) : TakesRequest p (handleSetValve client text)
      (fun luck => k.carryOut luck client (.setValve (settingOf text))) := by
  unfold handleSetValve settingOf
  rw [htext, Bool.not_true, if_neg Bool.false_ne_true]
  cases scanSetValve text with
  | none => exact takes_reply_only h _
  | some scanned =>
    obtain ⟨name, value⟩ := scanned
    dsimp only
    cases valveFieldOf name with
    | none => exact takes_reply_only h _
    | some found =>
      obtain ⟨field, bound⟩ := found
      dsimp only
      by_cases hvalue : value > bound
      · rw [if_pos hvalue, Option.filter_some, if_neg]
        · exact takes_reply_only h _
        · rw [decide_eq_true_iff]
          exact UInt32.not_le.mpr hvalue
      · rw [if_neg hvalue, Option.filter_some, if_pos (decide_eq_true (UInt32.not_lt.mp hvalue))]
        intro env _ env' _
        have hset : Implements (p.setApp { p.app with
            valveProfile := p.app.valveProfile.set field value })
            { k with profile := k.profile.set field value } :=
          ⟨h.wiggling.congr rfl rfl, h.firing, congrArg (ValveProfile.set · field value) h.profile,
            h.writeOnly, h.nodup⟩
        exact ⟨rfl, hset, (hset.replied "Valve set successfully").behind rfl⟩

theorem request_wiggleStop (h : Implements p k) {text : CText}
    (htext : hasPrefix "WIGGLE_STOP" text = true) :
    TakesRequest p (handleWiggleStop client text) (fun luck => k.carryOut luck client
      (.wiggleStop ((Strtok.tokens '|' text).tail.map scanWiggleStop))) := by
  rw [handleWiggleStop_eq client htext]
  apply takes_then_reply
  apply (stopEntries_moved _ 0 h).mono
  intro tr v p' hstopped
  obtain ⟨hmoved, rfl⟩ := hstopped
  refine ⟨hmoved.implements, _, hmoved.reacted, ?_⟩
  simp only [Controller.carryOut, Controller.stopWiggles, wiggleStopReply, Nat.zero_add,
    decide_eq_true_iff, List.nil_append]

/-- A look at the process that asks for no luck. -/
theorem Done.skip {tr : List (Process × Env × Act)} {f : Luck → Controller × Reaction}
    (h : Done p p' tr f) {env : Env} {a : Act} (hluck : luckOf ((p, env, a) :: tr) = luckOf tr)
    (houtputs : (perform p env a).2.2 = []) : Done p p' ((p, env, a) :: tr) f where
  implements := by
    rw [hluck]
    exact h.implements
  reacted := by
    rw [hluck, outputs_cons, houtputs]
    exact h.reacted

/-- The reply counts all entries, or it is the failure. -/
theorem wiggleReply_of_le {n m : ℕ} (h : n ≤ m) : wiggleReply (n, decide (n < m)) =
    if n < m ∨ m = 0 then "WIGGLE failed: invalid format or no available slots"
    else Printf.truncated 96 ("WIGGLE started for " ++ toString m ++ " sensor(s)") := by
  unfold wiggleReply
  by_cases hlt : n < m
  · simp only [hlt, decide_true, Bool.true_or, true_or, if_true]
  · have heq : n = m := by omega
    subst heq
    simp only [hlt, decide_false, Bool.false_or, decide_eq_true_iff, false_or]

theorem request_wiggle (h : Implements p k) {text : CText}
    (htext : hasPrefix "WIGGLE" text = true) (hstop : hasPrefix "WIGGLE_STOP" text = false) :
    TakesRequest p (handleWiggle client text) (fun luck => k.carryOut luck client
      (.wiggle ((Strtok.tokens '|' text).tail.map scanWiggle))) := by
  rw [handleWiggle_eq client htext hstop]
  intro env _
  change AlwaysEnds p (if p.app.state ≠ .prechilling then _ else _) _
  have hrest : TakesRequest p (if p.app.state ≠ .prechilling then
      sendReply client "WIGGLE rejected: system not in PRECHILLING" >>= fun _ => pure true
      else startEntries (Strtok.tokens '|' text).tail 0 >>= fun v =>
        sendReply client (wiggleReply v) >>= fun _ => pure true)
      (fun luck => k.carryOut luck client
        (.wiggle ((Strtok.tokens '|' text).tail.map scanWiggle))) := by
    simp only [Controller.carryOut, Controller.startWiggles]
    rw [h.wiggling.state]
    split_ifs
    · exact takes_reply_only h _
    · apply takes_then_reply
      apply (startEntries_moved _ 0 h).mono
      intro tr v p' hstarted
      obtain ⟨hmoved, rfl⟩ := hstarted
      refine ⟨hmoved.implements, _, hmoved.reacted, ?_⟩
      have hlength := length_started_le k.wiggling ((Strtok.tokens '|' text).tail.map scanWiggle)
        (luckOf tr).clock
      rw [List.length_map] at hlength
      rw [Nat.zero_add, wiggleReply_of_le hlength]
      simp only [List.length_map, List.map_eq_nil_iff, List.length_eq_zero_iff, List.nil_append,
        Wiggling.startFrames]
  apply hrest.mono
  intro tr v p' hdone
  exact ⟨hdone.1, hdone.2.skip rfl rfl⟩

/-! ### Sequences -/

/-- A start with some luck: the sequence is launched, or nothing has happened. -/
def LaunchesWith (p : Process) (k : Controller) (args : SequenceWorkerArgs)
    (tr : List (Process × Env × Act)) (rc : Int) (p' : Process) : Prop :=
  if k.firing = .idle ∧ (luckOf tr).memory ∧ (luckOf tr).thread then
    rc = 0 ∧ Implements p' { k with firing := .running false } ∧
      Reacted p p' (outputs (S := serverSig) perform tr) { launched := [args] }
  else rc ≠ 0 ∧ Implements p' k ∧ Reacted p p' (outputs (S := serverSig) perform tr) {}

theorem Implements.idle_iff (h : Implements p k) :
    k.firing = .idle ↔ p.app.sequenceActive = false := by
  rw [← h.firing, App.firing]
  cases p.app.sequenceActive with
  | false => exact iff_of_true rfl rfl
  | true => exact iff_of_false Firing.noConfusion Bool.noConfusion

/-- The flags of the sequence stand for the firing of the controller. -/
theorem Implements.setFlags (h : Implements p k) {active aborted : Bool} {firing : Firing}
    (hfiring : (if active then Firing.running aborted else .idle) = firing)
    (workers : List Worker) :
    Implements ⟨{ p.app with sequenceActive := active, sequenceAbort := aborted }, workers⟩
      { k with firing := firing } :=
  ⟨h.wiggling.congr rfl rfl, hfiring, h.profile, h.writeOnly, h.nodup⟩

theorem reacted_nothing (h : p'.workers = p.workers) : Reacted p p' [] {} where
  replies := rfl
  announced := rfl
  wiggled := rfl
  raw := rfl
  launched := h.trans (List.append_nil _).symm

theorem launchesWith_refused {args : SequenceWorkerArgs} {tr : List (Process × Env × Act)}
    {rc : Int}
    (hnot : ¬ (k.firing = .idle ∧ (luckOf tr).memory = true ∧ (luckOf tr).thread = true))
    (hrc : rc ≠ 0) (h : Implements p' k) (houtputs : outputs (S := serverSig) perform tr = [])
    (hworkers : p'.workers = p.workers) : LaunchesWith p k args tr rc p' := by
  unfold LaunchesWith
  rw [if_neg hnot, houtputs]
  exact ⟨hrc, h, reacted_nothing hworkers⟩

/-- The start in `firing_sequence_start`: a claim of the flag, memory, a thread. -/
theorem firingSequenceStart_done (h : Implements p k) (client : Client)
    {config : FiringSequenceConfig} (hblocks : config.numBlocks ≠ 0)
    (started completed failed : String) :
    AlwaysEnds p (firingSequenceStart client config (some started) (some completed) (some failed))
      (LaunchesWith p k (sequenceArgs client config started completed failed)) := by
  have hrc : (-1 : Int) ≠ 0 := by decide
  unfold firingSequenceStart
  rw [if_neg hblocks]
  intro env _
  change AlwaysEnds _ (if !p.app.claimSequence.2 then _ else _) _
  cases hactive : p.app.sequenceActive with
  | true =>
    have hclaim : p.app.claimSequence = (p.app, false) := by rw [App.claimSequence, if_pos hactive]
    have hbusy : ¬ k.firing = .idle := by
      rw [h.idle_iff, hactive]
      exact Bool.noConfusion
    simp only [perform, hclaim, Bool.not_false, if_true]
    exact launchesWith_refused (fun hidle => hbusy hidle.1) hrc h rfl rfl
  | false =>
    have hclaim : p.app.claimSequence =
        ({ p.app with sequenceActive := true, sequenceAbort := false }, true) := by
      rw [App.claimSequence, if_neg (by rw [hactive]; exact Bool.false_ne_true)]
    have hidle := h.idle_iff.mpr hactive
    -- whatever is wrong behind the claim, the flags are given back
    have hback (workers : List Worker) : Implements
        ⟨{ p.app with sequenceActive := false, sequenceAbort := false }, workers⟩ k := by
      have hfree : Implements
          ⟨{ p.app with sequenceActive := false, sequenceAbort := false }, workers⟩
          { k with firing := .idle } := h.setFlags rfl workers
      rw [← hidle] at hfree
      exact hfree
    simp only [perform, hclaim, Bool.not_true, Bool.false_eq_true, if_false]
    intro env₁ _
    change AlwaysEnds _ (if !env₁.alloc then _ else _) _
    cases halloc : env₁.alloc with
    | false =>
      intro env₂ _
      change LaunchesWith p k _ [(p, env, .claimSequence), (_, env₁, .callocArgs),
        (_, env₂, .finishSequence)] (-1) _
      apply launchesWith_refused _ hrc
      · exact hback p.workers
      · rfl
      · rfl
      · intro hgranted
        have hmemory := hgranted.2.1
        simp only [luckOf, List.all_cons, memoryGranted, halloc, Bool.false_and, Bool.and_false,
          Bool.false_eq_true] at hmemory
    | true =>
      rw [Bool.not_true, if_neg Bool.false_ne_true]
      intro env₂ _
      cases hthread : env₂.thread with
      | false =>
        simp only [perform, hthread, Bool.false_eq_true, if_false]
        intro env₃ _
        change LaunchesWith p k _ [(p, env, .claimSequence), (_, env₁, .callocArgs),
          (_, env₂, .createWorker _), (_, env₃, .finishSequence)] (-1) _
        apply launchesWith_refused _ hrc
        · exact hback p.workers
        · simp only [outputs, List.flatMap_cons, perform, hthread, Bool.false_eq_true, if_false]
          rfl
        · rfl
        · intro hgranted
          have hcreated := hgranted.2.2
          simp only [luckOf, List.all_cons, threadGranted, hthread, Bool.false_and, Bool.and_false,
            Bool.false_eq_true] at hcreated
      | true =>
        simp only [perform, hthread, if_true]
        change LaunchesWith p k _ [(p, env, .claimSequence), (_, env₁, .callocArgs),
          (_, env₂, .createWorker _)] 0 _
        unfold LaunchesWith
        rw [if_pos]
        · refine ⟨rfl, h.setFlags rfl _, ?_⟩
          simp only [outputs, List.flatMap_cons, perform, hthread, if_true]
          exact ⟨rfl, rfl, rfl, rfl, rfl⟩
        · refine ⟨hidle, ?_, ?_⟩
          · simp only [luckOf, List.all_cons, memoryGranted, halloc, Bool.true_and, List.all_nil]
          · simp only [luckOf, List.all_cons, threadGranted, hthread, Bool.true_and, List.all_nil]

/-- A handler that answers only where it could not launch a sequence. -/
theorem takes_launch {starting : Server Int} {msg : String} {args : SequenceWorkerArgs}
    (hclient : args.client = client) (h : AlwaysEnds p starting (LaunchesWith p k args)) :
    TakesRequest p (starting >>= fun rc =>
      if rc ≠ 0 then sendReply client msg >>= fun _ => pure true else pure true)
      (fun luck => k.launch luck args msg) := by
  apply always_bind.mpr
  apply h.mono
  intro tr rc p' hstarts
  unfold LaunchesWith at hstarts
  split_ifs at hstarts with hluck
  · obtain ⟨rfl, himplements, hreacted⟩ := hstarts
    change true = true ∧ Done p p' (tr ++ []) _
    rw [List.append_nil]
    exact ⟨rfl, done_of_eq (if_pos hluck) himplements hreacted⟩
  · obtain ⟨hrc, himplements, hreacted⟩ := hstarts
    rw [if_pos hrc]
    intro env _
    rw [← hclient]
    have hreply : Reacted p p' (outputs (S := serverSig) perform tr ++ [.sendText args.client msg])
        { replies := [(args.client, msg)] } := hreacted.reply msg
    have hrefused : k.launch (luckOf (tr ++ [(p', env, .sendText args.client msg)])) args msg =
        k.reply args.client msg := by
      rw [luckOf_reply]
      exact if_neg hluck
    refine ⟨rfl, done_of_eq hrefused himplements ?_⟩
    rw [outputs_append]
    exact hreply

theorem LaunchesWith.skip {args : SequenceWorkerArgs} {tr : List (Process × Env × Act)} {rc : Int}
    (h : LaunchesWith p k args tr rc p') {env : Env} {a : Act}
    (hluck : luckOf ((p, env, a) :: tr) = luckOf tr)
    (houtputs : (perform p env a).2.2 = []) : LaunchesWith p k args ((p, env, a) :: tr) rc p' := by
  unfold LaunchesWith at h ⊢
  rw [hluck, outputs_cons, houtputs]
  exact h

theorem request_drown (h : Implements p k) {text : CText} (htext : text = "DROWN#8765".toList) :
    TakesRequest p (handleDrown client text) (fun luck => k.carryOut luck client .drown) := by
  unfold handleDrown Controller.carryOut
  rw [if_neg (not_not.mpr htext), ← h.profile]
  by_cases hids : p.app.valveProfile.loxMainValveId = 0 ∨ p.app.valveProfile.loxVentValveId = 0
  · intro env _
    change AlwaysEnds p ((if p.app.valveProfile.loxMainValveId = 0 ∨
      p.app.valveProfile.loxVentValveId = 0 then pure (-1) else _) >>= _) _
    rw [if_pos hids]
    intro env' _
    simp only [if_pos hids]
    exact ⟨rfl, h, h.replied "Error drowning injector"⟩
  · simp only [if_neg hids]
    apply takes_launch
    · rfl
    · intro env _
      change AlwaysEnds p (if p.app.valveProfile.loxMainValveId = 0 ∨
        p.app.valveProfile.loxVentValveId = 0 then _ else _) _
      rw [if_neg hids]
      intro env' _
      change AlwaysEnds p (firingSequenceStart client (drownConfig p.app.valveProfile) _ _ _) _
      have hblocks : (drownConfig p.app.valveProfile).numBlocks ≠ 0 := show 2 ≠ 0 by decide
      apply (firingSequenceStart_done h client hblocks _ _ _).mono
      intro tr rc p' hstarts
      exact (hstarts.skip rfl rfl).skip rfl rfl

theorem request_fire (h : Implements p k) {text : CText}
    (htext : hasPrefix "FIRE#8765" text = true) : TakesRequest p (handleFire client text)
      (fun luck => k.carryOut luck client (.fire (firingSequenceParse true text))) := by
  unfold handleFire
  rw [htext, Bool.not_true, if_neg Bool.false_ne_true]
  intro env _
  dsimp only [perform, Program.bind]
  -- the copy that the parser makes is the first of the handler
  cases hparse : firingSequenceParse env.alloc text with
  | none =>
    intro env' _
    have hrefused (tr : List (Process × Env × Act)) :
        k.carryOut (luckOf ((p, env, .allocate) :: tr)) client
          (.fire (firingSequenceParse true text)) = k.reply client "Error parsing command" := by
      cases halloc : env.alloc with
      | true =>
        rw [halloc] at hparse
        rw [hparse]
        rfl
      | false =>
        cases firingSequenceParse true text with
        | none => rfl
        | some config =>
          unfold Controller.carryOut
          rw [copies_zero, halloc]
          rfl
    exact ⟨rfl, done_of_eq (hrefused _) h (h.replied "Error parsing command")⟩
  | some config =>
    have halloc : env.alloc = true := by
      by_contra hno
      rw [(Bool.not_eq_true _).mp hno, firingSequenceParse_false] at hparse
      cases hparse
    rw [firingSequenceParse_true hparse]
    have hlaunch : TakesRequest p (firingSequenceStart client config
        (some (fireStartedMessage config)) (some "Firing sequence completed")
        (some "Firing sequence failed to start") >>= fun rc => if rc ≠ 0 then
          sendReply client "A firing sequence is already running" >>= fun _ => pure true
          else pure true)
        (fun luck => k.launch luck (fireWorkerArgs client config)
          "A firing sequence is already running") := by
      apply takes_launch
      · rfl
      · exact firingSequenceStart_done h client (numBlocks_of_parse hparse) _ _ _
    apply hlaunch.mono
    intro tr v p' hdone
    have hlucky : k.carryOut (luckOf ((p, env, .allocate) :: tr)) client (.fire (some config)) =
        k.launch (luckOf tr) (fireWorkerArgs client config)
          "A firing sequence is already running" := by
      unfold Controller.carryOut
      rw [copies_zero, halloc]
      rfl
    exact ⟨hdone.1, hdone.2.copied hlucky⟩

theorem request_rawCan (h : Implements p k) {text : CText} {f : RawCanFields}
    (hparse : parseRawCanFields text = some f) : TakesRequest p (handleRawCan client text)
      (fun luck => k.carryOut luck client (.rawCan f)) := by
  unfold handleRawCan
  rw [hparse]
  intro env _
  have hperform (result : SendResult)
      (hsend : canBusSendCommand p.app.canFd ⟨f.id, f.value, f.durationMs⟩ (env.write 0) = result) :
      perform p env (.canSend ⟨f.id, f.value, f.durationMs⟩) =
        (p, result, [.canTx .rawCommand ⟨f.id, f.value, f.durationMs⟩ result]) := by
    rw [← hsend]
    rfl
  have hwritten (tr : List (Process × Env × Act)) :
      (luckOf ((p, env, .canSend ⟨f.id, f.value, f.durationMs⟩) :: tr)).written =
        canBusSendCommand p.app.canFd ⟨f.id, f.value, f.durationMs⟩ (env.write 0) := rfl
  cases hsend : canBusSendCommand p.app.canFd ⟨f.id, f.value, f.durationMs⟩ (env.write 0) with
  | sent =>
    rw [hperform _ hsend]
    intro env₁ _ env₂ _
    refine ⟨rfl, h, ?_⟩
    simp only [Controller.carryOut, Controller.sendRaw, hwritten, hsend]
    rw [outputs_cons, hperform _ hsend]
    exact ⟨rfl, rfl, rfl, rfl, (List.append_nil _).symm⟩
  | refused error =>
    rw [hperform _ hsend]
    intro env₁ _
    refine ⟨rfl, h, ?_⟩
    simp only [Controller.carryOut, Controller.sendRaw, hwritten, hsend]
    rw [outputs_cons, hperform _ hsend]
    exact ⟨rfl, rfl, rfl, rfl, (List.append_nil _).symm⟩

/-! ### The dispatcher -/

/-- The program does what the controller does. -/
abbrev Serves {β : Type} (p : Process) (q : Server β) (f : Luck → Controller × Reaction) : Prop :=
  AlwaysEnds p q (fun tr _ p' => Done p p' tr f)

theorem serves_taken {handler : Server Bool} (rest : Server Unit)
    {f : Luck → Controller × Reaction} (h : TakesRequest p handler f) :
    Serves p (handler >>= fun taken => if taken then pure () else rest) f := by
  apply always_bind.mpr
  apply h.mono
  rintro tr v p' ⟨rfl, hdone⟩
  change Done p p' (tr ++ []) f
  rw [List.append_nil]
  exact hdone

theorem serves_reply (h : Implements p k) (msg : String) :
    Serves p (sendReply client msg) (fun _ => k.reply client msg) :=
  fun _ _ => ⟨h, h.replied msg⟩

/-- The handlers in their order: each that does not take the text leaves it to the next. -/
theorem serves_gated (h : Implements p k) (text : CText) :
    Serves p (handleDrown client text >>= fun drown =>
      if drown then pure () else handleFire client text >>= fun fire =>
        if fire then pure () else handleRawCan client text >>= fun raw =>
          if raw then pure () else sendReply client "Invalid command")
      (fun luck => k.carryOut luck client (gatedRequest text)) := by
  unfold gatedRequest
  by_cases hdrown : text = "DROWN#8765".toList
  · rw [if_pos hdrown]
    exact serves_taken _ (request_drown h hdrown)
  rw [if_neg hdrown, handleDrown_other client hdrown, Program.pure_eq, Program.ret_bind,
    if_neg Bool.false_ne_true]
  cases hfire : hasPrefix "FIRE#8765" text with
  | true =>
    rw [if_pos rfl]
    exact serves_taken _ (request_fire h hfire)
  | false =>
    rw [if_neg Bool.false_ne_true, handleFire_other client hfire, Program.pure_eq,
      Program.ret_bind, if_neg Bool.false_ne_true]
    cases hparse : parseRawCanFields text with
    | some f => exact serves_taken _ (request_rawCan h hparse)
    | none =>
      have hraw : handleRawCan client text = pure false := by
        unfold handleRawCan
        rw [hparse]
      rw [hraw, Program.pure_eq, Program.ret_bind, if_neg Bool.false_ne_true]
      exact serves_reply h "Invalid command"

theorem serves_hotfireHandlers (h : Implements p k) (text : CText) :
    Serves p (hotfireHandlers client text) (fun luck =>
      if k.wiggling.state = .prechilling then
        k.reply client "System is in PRE-HOTFIRE state; command ignored."
      else k.carryOut luck client (gatedRequest text)) := by
  intro env _
  change AlwaysEnds p (if p.app.state = .prechilling then _ else _) _
  rw [h.wiggling.state]
  split_ifs
  · apply (serves_reply h "System is in PRE-HOTFIRE state; command ignored.").mono
    intro tr v p' hdone
    exact hdone.skip rfl rfl
  · apply (serves_gated h text).mono
    intro tr v p' hdone
    exact hdone.skip rfl rfl

theorem serves_wiggles {request : Request} {handler : Server Bool} (rest : Server Unit)
    (hgated : ¬ request.IsGated)
    (htakes : TakesRequest p handler (fun luck => k.carryOut luck client request)) :
    Serves p (handler >>= fun taken => if taken then pure () else rest)
      (fun luck => k.atGate luck client request) := by
  have hcarry : (fun luck => k.atGate luck client request) =
      fun luck => k.carryOut luck client request :=
    funext (fun luck => if_neg (fun hboth => hgated hboth.1))
  rw [hcarry]
  exact serves_taken rest htakes

theorem serves_copyHandlers (h : Implements p k) {text : CText}
    (habort : text ≠ "ABORT#8765".toList) (hstate : hasPrefix "STATE#" text = false)
    (hset : hasPrefix "SET_VALVE" text = false) :
    Serves p (copyHandlers client text)
      (fun luck => k.execute luck client (commandRequest text)) := by
  -- all that is left needs the copy, also what the gate then ignores
  have hcopied : (commandRequest text).IsCopied := by
    unfold commandRequest
    rw [if_neg habort, hstate, if_neg Bool.false_ne_true, hset, if_neg Bool.false_ne_true]
    split_ifs
    · trivial
    · trivial
    · exact (isGated_gatedRequest text).isCopied
  have hhandlers : Serves p (handleWiggleStop client text >>= fun wiggleStop =>
      if wiggleStop then pure () else handleWiggle client text >>= fun wiggle =>
        if wiggle then pure () else hotfireHandlers client text)
      (fun luck => k.atGate luck client (commandRequest text)) := by
    unfold commandRequest
    rw [if_neg habort, hstate, if_neg Bool.false_ne_true, hset, if_neg Bool.false_ne_true]
    cases hstop : hasPrefix "WIGGLE_STOP" text with
    | true =>
      rw [if_pos rfl]
      exact serves_wiggles _ id (request_wiggleStop h hstop)
    | false =>
      rw [handleWiggleStop_other client hstop, Program.pure_eq, Program.ret_bind,
        if_neg Bool.false_ne_true, if_neg Bool.false_ne_true]
      cases hwiggle : hasPrefix "WIGGLE" text with
      | true =>
        rw [if_pos rfl]
        exact serves_wiggles _ id (request_wiggle h hwiggle hstop)
      | false =>
        rw [handleWiggle_other client hwiggle, Program.pure_eq, Program.ret_bind,
          if_neg Bool.false_ne_true, if_neg Bool.false_ne_true]
        simp only [Controller.atGate, isGated_gatedRequest text, true_and]
        exact serves_hotfireHandlers h text
  intro env _
  change AlwaysEnds p (if !env.alloc then _ else _) _
  cases halloc : env.alloc with
  | false =>
    intro env' _
    have hmemory (tr : List (Process × Env × Act)) :
        k.execute (luckOf ((p, env, .allocate) :: tr)) client (commandRequest text) =
          k.reply client "Server error: out of memory" := by
      unfold Controller.execute
      rw [if_pos hcopied, copies_zero, halloc]
      rfl
    exact done_of_eq (hmemory _) h (h.replied "Server error: out of memory")
  | true =>
    rw [Bool.not_true, if_neg Bool.false_ne_true]
    apply hhandlers.mono
    intro tr v p' hdone
    apply hdone.copied
    unfold Controller.execute
    rw [if_pos hcopied, copies_zero, halloc]
    rfl

/-- A request that needs no copy. -/
theorem execute_uncopied (luck : Luck) {request : Request} (h : ¬ request.IsCopied) :
    k.execute luck client request = k.carryOut luck client request := if_neg h

theorem serves_dispatch (h : Implements p k) (text : CText) :
    Serves p (dispatch realMode client text)
      (fun luck => k.execute luck client (commandRequest text)) := by
  by_cases habort : text = "ABORT#8765".toList
  · rw [show commandRequest text = .abort from if_pos habort]
    simp only [execute_uncopied _ (show ¬ Request.abort.IsCopied from id)]
    exact serves_taken _ (request_abort h habort)
  change AlwaysEnds p (handleAbort client text >>= _) _
  rw [handleAbort_other client habort, Program.pure_eq, Program.ret_bind,
    if_neg Bool.false_ne_true]
  cases hstate : hasPrefix "STATE#" text with
  | true =>
    have hrequest : commandRequest text = .state (stateOf (text.drop 6)) := by
      unfold commandRequest
      rw [if_neg habort, hstate, if_pos rfl]
    rw [hrequest]
    simp only [execute_uncopied _ (show ¬ (Request.state (stateOf (text.drop 6))).IsCopied from id)]
    exact serves_taken _ (request_stateCommand h hstate)
  | false =>
    rw [handleStateCommand_other client hstate, Program.pure_eq, Program.ret_bind,
      if_neg Bool.false_ne_true]
    cases hset : hasPrefix "SET_VALVE" text with
    | true =>
      have hrequest : commandRequest text = .setValve (settingOf text) := by
        unfold commandRequest
        rw [if_neg habort, hstate, if_neg Bool.false_ne_true, hset, if_pos rfl]
      rw [hrequest]
      simp only [execute_uncopied _ (show ¬ (Request.setValve (settingOf text)).IsCopied from id)]
      exact serves_taken _ (request_setValve h hset)
    | false =>
      rw [handleSetValve_other client hset, Program.pure_eq, Program.ret_bind,
        if_neg Bool.false_ne_true]
      exact serves_copyHandlers h habort hstate hset

end WsServer
