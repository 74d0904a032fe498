import WsServer.LockedRuns

/-! The order in which the server takes its locks: whatever its parties are in the middle of,
one of them can go on. -/
namespace WsServer
open Interaction Sections

section
variable {logging : Bool}

/-- Only the lock of the logger is taken with another one in hand. -/
def lockRank : Mutex → ℕ
  | .logger => 1
  | _ => 0

/-- A part of a section that gives back the locks that it takes. -/
def GivesBack (logging : Bool) {α : Type} (held : Mutex → Prop) (p : Pieces α) : Prop :=
  Program.Follows ((lockedSections logging).lockOrder lockRank) held p (fun _ held' => held' = held)

variable {held : Mutex → Prop}

theorem GivesBack.bind {α β : Type} {p : Pieces α} {f : α → Pieces β}
    (hp : GivesBack logging held p) (hf : ∀ v, GivesBack logging held (f v)) :
    GivesBack logging held (p >>= f) :=
  Program.Follows.bind hp (fun v held' hheld => by rw [hheld]; exact hf v)

theorem givesBack_pure {α : Type} (v : α) : GivesBack logging held (pure v) := rfl

theorem givesBack_stateAccess (f : StateAccess) : GivesBack logging held (Locked.stateAccess f) :=
  ⟨trivial, fun _ _ h => (Option.some.inj h).symm⟩

theorem givesBack_flagAccess (f : FlagAccess) : GivesBack logging held (Locked.flagAccess f) :=
  ⟨trivial, fun _ _ h => (Option.some.inj h).symm⟩

theorem givesBack_io (a : SectionIo) : GivesBack logging held (Locked.io a) :=
  ⟨trivial, fun _ _ h => (Option.some.inj h).symm⟩

/-- A lock that is taken over all others, and given back. -/
theorem givesBack_bracket {m : Mutex} {p : Pieces Unit}
    (hm : ∀ n, held n → lockRank n < lockRank m)
    (hp : GivesBack logging (fun n => n = m ∨ held n) p) :
    GivesBack logging held (Locked.acquire m >>= fun _ => p >>= fun _ => Locked.release m) := by
  refine ⟨hm, fun _ held₁ h => ?_⟩
  obtain rfl := Option.some.inj h
  change Program.Follows _ _ (p >>= fun _ => Locked.release m) _
  refine Program.Follows.bind hp (fun _ held₂ hheld => ?_)
  subst hheld
  refine ⟨Or.inl rfl, fun _ held₃ h => ?_⟩
  obtain rfl := Option.some.inj h
  funext n
  refine propext ⟨fun hn => hn.2.resolve_left hn.1, fun hn => ⟨?_, Or.inr hn⟩⟩
  rintro rfl
  exact Nat.lt_irrefl _ (hm n hn)

/-- Among these locks the one of the logger is none. -/
abbrev BelowLogger (held : Mutex → Prop) : Prop := ∀ n, held n → lockRank n < lockRank .logger

theorem givesBack_loggerPrintf (hheld : BelowLogger held) (kind text : String) :
    GivesBack logging held (Locked.loggerPrintf logging kind text) := by
  unfold Locked.loggerPrintf
  split_ifs
  · exact givesBack_bracket hheld (givesBack_io _)
  · exact givesBack_io _

theorem givesBack_sendValue (hheld : BelowLogger held) (fd : Int) (i : Fin appMaxWiggles)
    (value : UInt16) : GivesBack logging held (Locked.sendValue logging fd i value) := by
  refine (givesBack_stateAccess _).bind (fun _ => ?_)
  refine (givesBack_stateAccess _).bind (fun slot => ?_)
  refine (givesBack_io _).bind (fun result => ?_)
  split_ifs
  · exact givesBack_loggerPrintf hheld _ _
  · exact givesBack_pure _

theorem givesBack_deactivateSlot (hheld : BelowLogger held) (fd : Int) (i : Fin appMaxWiggles)
    (sendExitValue : Bool) :
    GivesBack logging held (Locked.deactivateSlot logging fd i sendExitValue) := by
  refine (givesBack_stateAccess _).bind (fun slot => ?_)
  split_ifs
  · exact givesBack_pure _
  · exact (givesBack_sendValue hheld _ _ _).bind (fun _ => givesBack_stateAccess _)
  · exact (givesBack_pure ()).bind (fun _ => givesBack_stateAccess _)

theorem givesBack_processSlot (hheld : BelowLogger held) (fd : Int) (now : UInt64)
    (i : Fin appMaxWiggles) : GivesBack logging held (Locked.processSlot logging fd now i) := by
  refine (givesBack_stateAccess _).bind (fun slot => ?_)
  split_ifs
  · exact givesBack_pure _
  · exact givesBack_deactivateSlot hheld _ _ _
  · exact givesBack_pure _
  · exact (givesBack_sendValue hheld _ _ _).bind (fun _ => givesBack_stateAccess _)
  · exact (givesBack_sendValue hheld _ _ _).bind (fun _ => givesBack_stateAccess _)

theorem givesBack_findSlot (id : UInt32) (slots : List (Fin appMaxWiggles)) :
    GivesBack logging held (Locked.findSlot id slots) := by
  induction slots with
  | nil => exact givesBack_pure _
  | cons i rest ih =>
    refine (givesBack_stateAccess _).bind (fun slot => ?_)
    split_ifs
    · exact givesBack_pure _
    · exact ih

theorem givesBack_allocSlot (slots : List (Fin appMaxWiggles)) :
    GivesBack logging held (Locked.allocSlot slots) := by
  induction slots with
  | nil => exact givesBack_pure _
  | cons i rest ih =>
    refine (givesBack_stateAccess _).bind (fun slot => ?_)
    split_ifs
    · exact givesBack_pure _
    · exact ih

theorem givesBack_stopSlots (hheld : BelowLogger held) (fd : Int) (sendExitValue : Bool)
    (slots : List (Fin appMaxWiggles)) (n : ℕ) :
    GivesBack logging held (Locked.stopSlots logging fd sendExitValue slots n) := by
  induction slots generalizing n with
  | nil => exact givesBack_pure _
  | cons i rest ih =>
    refine (givesBack_stateAccess _).bind (fun slot => ?_)
    split_ifs
    · exact (givesBack_deactivateSlot hheld _ _ _).bind (fun _ => ih _)
    · exact ih _

theorem givesBack_processSlots (hheld : BelowLogger held) (fd : Int) (now : UInt64)
    (slots : List (Fin appMaxWiggles)) :
    GivesBack logging held (slots.forM (Locked.processSlot logging fd now)) := by
  induction slots with
  | nil => exact givesBack_pure _
  | cons i rest ih => exact (givesBack_processSlot hheld _ _ _).bind (fun _ => ih)

theorem givesBack_wiggleStart (hheld : BelowLogger held) (fd : Int) (r : WiggleRequest) :
    GivesBack logging held (Locked.wiggleStart logging fd r) := by
  refine (givesBack_findSlot _ _).bind (fun found => ?_)
  have hslot : GivesBack logging held (if found.isSome then pure found
      else Locked.allocSlot (List.finRange appMaxWiggles) :
      Pieces (Option (Fin appMaxWiggles))) := by
    split_ifs
    · exact givesBack_pure _
    · exact givesBack_allocSlot _
  refine hslot.bind (fun slot => ?_)
  cases slot with
  | none => exact givesBack_pure _
  | some i =>
    refine (givesBack_io _).bind (fun now => ?_)
    have hfill : GivesBack logging held (Locked.fillSlot i now r) := by
      iterate 7 refine (givesBack_stateAccess _).bind (fun _ => ?_)
      exact givesBack_stateAccess _
    refine hfill.bind (fun _ => (givesBack_sendValue hheld _ _ _).bind (fun _ => ?_))
    exact (givesBack_stateAccess _).bind (fun _ => givesBack_pure _)

theorem givesBack_wiggleStop (hheld : BelowLogger held) (fd : Int) (id : UInt32) :
    GivesBack logging held (Locked.wiggleStop logging fd id) := by
  refine (givesBack_findSlot _ _).bind (fun found => ?_)
  cases found with
  | none => exact givesBack_pure _
  | some i =>
    exact (givesBack_deactivateSlot hheld _ _ _).bind (fun _ => givesBack_pure _)

theorem givesBack_wiggleProcess (hheld : BelowLogger held) (fd : Int) :
    GivesBack logging held (Locked.wiggleProcess logging fd) := by
  refine (givesBack_stateAccess _).bind (fun mode => ?_)
  split_ifs
  · exact givesBack_pure _
  · exact (givesBack_io _).bind (fun now => givesBack_processSlots hheld _ _ _)

/-- These pieces keep the order of the locks. -/
abbrev InOrder (logging : Bool) (p : Pieces Unit) : Prop :=
  (lockedSections logging).Ordered lockRank (fun _ => False) p

theorem GivesBack.inOrder {p : Pieces Unit} (h : GivesBack logging (fun _ => False) p) :
    InOrder logging p :=
  Program.Follows.mono h (fun _ held hheld m hm => by rw [hheld] at hm; exact hm)

theorem belowLogger_only {m : Mutex} (hm : m ≠ .logger) : BelowLogger (only m) := by
  intro n hn
  obtain rfl := hn.resolve_right id
  cases n with
  | logger => exact absurd rfl hm
  | _ => exact Nat.zero_lt_one

theorem inOrder_under {α : Type} {m : Mutex} {t : Thread} {body : Pieces α}
    {k : α → Server Int} (hbody : GivesBack logging (only m) body) :
    InOrder logging (Locked.under m t body k) := by
  refine ⟨fun n hn => hn.elim, fun _ held₁ h => ?_⟩
  obtain rfl := Option.some.inj h
  change Program.Follows _ _ (body >>= fun r =>
    Locked.commit (Locked.answer t (k r)) [] >>= fun _ => Locked.release m) _
  refine Program.Follows.bind hbody (fun r held₂ hheld => ?_)
  subst hheld
  refine ⟨trivial, fun _ held₃ h => ?_⟩
  obtain rfl := Option.some.inj h
  refine ⟨Or.inl rfl, fun _ held₄ h => ?_⟩
  obtain rfl := Option.some.inj h
  rintro n ⟨hn, hnm⟩
  exact hn (hnm.resolve_right id)

theorem givesBack_whole : GivesBack logging held Locked.whole :=
  ⟨trivial, fun _ _ h => (Option.some.inj h).symm⟩

theorem givesBack_around (m : Mutex) : GivesBack logging (fun _ => False) (Locked.around m) :=
  givesBack_bracket (fun _ hn => hn.elim) givesBack_whole

theorem givesBack_logged : GivesBack logging (fun _ => False) (Locked.logged logging) := by
  unfold Locked.logged
  split_ifs
  · exact givesBack_around _
  · exact givesBack_whole

theorem inOrder_act (fd : Int) (t : Thread) (a : Act) (k : a.Answer → Server Int) :
    InOrder logging (Locked.actCode logging fd t a k) := by
  have hstate : BelowLogger (only .state) := belowLogger_only Mutex.noConfusion
  cases a with
  | getState => exact inOrder_under (givesBack_stateAccess _)
  | storeState state =>
    refine inOrder_under ((givesBack_stateAccess _).bind (fun _ => ?_))
    exact (givesBack_stateAccess _).bind (fun _ => givesBack_pure _)
  | wiggleStart r => exact inOrder_under (givesBack_wiggleStart hstate fd r)
  | wiggleStop id => exact inOrder_under (givesBack_wiggleStop hstate fd id)
  | wiggleStopAll sendExitValue => exact inOrder_under (givesBack_stopSlots hstate fd _ _ _)
  | wiggleProcess => exact inOrder_under (givesBack_wiggleProcess hstate fd)
  | claimSequence =>
    refine inOrder_under ((givesBack_flagAccess _).bind (fun active => ?_))
    split_ifs
    · exact givesBack_pure _
    · refine (givesBack_flagAccess _).bind (fun _ => ?_)
      exact (givesBack_flagAccess _).bind (fun _ => givesBack_pure _)
  | finishSequence =>
    exact inOrder_under ((givesBack_flagAccess _).bind (fun _ => givesBack_flagAccess _))
  | requestAbort => exact inOrder_under (givesBack_flagAccess _)
  | registerClient client => exact (givesBack_around _).inOrder
  | unregisterClient client => exact (givesBack_around _).inOrder
  | log kind text => exact givesBack_logged.inOrder
  | broadcast text =>
    have hlog : GivesBack logging (fun _ => False) (Locked.beforeBroadcast logging) := by
      unfold Locked.beforeBroadcast
      split_ifs
      · exact givesBack_bracket (fun _ hn => hn.elim) (givesBack_pure ())
      · exact givesBack_pure ()
    exact (hlog.bind (fun _ => givesBack_around _)).inOrder
  | _ => exact givesBack_whole.inOrder

theorem inOrder_worker (k : ℕ) (args : SequenceWorkerArgs) (pc : WorkerPc) :
    InOrder logging (Locked.workerCode logging k args pc) := by
  have hbracket {p : Pieces Unit} (hp : GivesBack logging (only .sequence) p) :
      InOrder logging (Locked.acquire .sequence >>= fun _ => p >>= fun _ =>
        Locked.release .sequence) :=
    (givesBack_bracket (fun _ hn => hn.elim) hp).inOrder
  have hcommit (g : System → System) (os : List Output) :
      GivesBack logging (only .sequence) (Locked.commit g os) :=
    ⟨trivial, fun _ _ h => (Option.some.inj h).symm⟩
  cases pc with
  | checkAbort i deadline =>
    exact hbracket ((givesBack_flagAccess .readAbort).bind (fun requested => hcommit _ _))
  | finish =>
    exact hbracket ((givesBack_flagAccess _).bind (fun _ =>
      (givesBack_flagAccess _).bind (fun _ => hcommit _ _)))
  | logBlock i => exact givesBack_logged.inOrder
  | _ => exact givesBack_whole.inOrder

theorem inOrder_code {s : System} {i : Party} {c : Control} (h : s.control i = some c) :
    InOrder logging (c.code logging) := by
  cases c with
  | idle t => exact givesBack_whole.inOrder
  | acting t a k fd => exact inOrder_act fd t a k
  | worker k args pc => exact inOrder_worker k args pc
  | signal => exact givesBack_whole.inOrder

theorem lockRank_lt (m : Mutex) : lockRank m < 2 := by
  cases m <;> decide

/-- In every run some party that is in the middle of a step can take its next piece, whatever it
is answered: the locks do not keep each other waiting. -/
theorem locked_server_goes_on {config : AppConfig} {canFd : Int}
    {ls : List (Party × PartyInput)} {x : (lockedSections logging).State} {os : List Output}
    (h : (lockedServer logging).run (lockedInitial logging config canFd) ls = some (x, os))
    {i : Party} (hi : x.rest i ≠ .ret ()) :
    ∃ j, x.rest j ≠ .ret () ∧ ∀ e, ((lockedServer logging).step x (j, e)).isSome := by
  have hlawful : (lockedSections logging).Lawful server := lockedSections_lawful
  obtain ⟨ks, s', os', underway, pending, -, hahead, -⟩ :=
    (Ahead.atRest hlawful (.initial config canFd)).run hlawful h
  have hordered : State.Ordered lockRank x := by
    refine Machine.run_invariant (I := State.Ordered lockRank) (C := fun _ _ => True) ?_
      (ordered_atRest lockRank _) (Machine.along_true _ _) h
    rintro y ⟨j, e⟩ ⟨y', out⟩ hy - hstep
    exact hy.step (fun s c i e hc => inOrder_code hc) hstep
  cases hrest : x.rest i with
  | ret v => exact absurd hrest hi
  | act a k =>
    obtain ⟨j, ⟨b, k', hj⟩, hgo⟩ :=
      somebody_goes_on hlawful (N := 2) lockRank_lt hahead hordered hrest
    refine ⟨j, ?_, hgo⟩
    rw [hj]
    intro hret
    cases hret

end

/-- The main thread with a lock in hand. -/
theorem locked_server_goes_on_abort :
    ∃ x os, (lockedServer true).run (lockedInitial true realMode 3)
        (List.replicate 4 (.thread .main, abortInput)) = some (x, os) ∧
      ∃ j, x.rest j ≠ .ret () ∧ ∀ e, ((lockedServer true).step x (j, e)).isSome := by
  have hrun : (lockedServer true).run (lockedInitial true realMode 3)
      (List.replicate 4 (.thread .main, abortInput)) = some (_, _) := rfl
  refine ⟨_, _, hrun, locked_server_goes_on hrun (i := .thread .main) ?_⟩
  intro hret
  cases hret

end WsServer
