import WsServer.WiggleIds
import WsServer.WiggleRoom
import WsServer.WiggleTrace

/-! An account of the wiggles started and of what was sent for them: what an atomic action
adds to it, seen from one CAN id, and when it is settled. -/
namespace WsServer
open Interaction SlotTable

/-! ### An action, seen from one id -/

/-- The wiggle that the action starts, where the table has room for its id. -/
def Act.starts (t : WiggleTable) : Act → Option WiggleRequest
  | .wiggleStart r => if Room t [r.id] then some r else none
  | _ => none

/-- The action stops the wiggle of the id, if there is one. -/
def Act.stops (id : UInt32) : Act → Bool
  | .wiggleStop id' => id' == id
  | .wiggleStopAll _ => true
  | _ => false

theorem starts_of_stops {id : UInt32} {t : WiggleTable} {a : Act} (h : a.stops id = true) :
    a.starts t = none := by
  cases a <;> first | rfl | cases h

/-- What an action does for one id: the values it sends there, and the wiggle of the id
before it and behind it. -/
inductive KeyStep (id : UInt32) (t : WiggleTable) (a : Act) :
    List UInt16 → Option WiggleParams → Option WiggleParams → Prop where
  | started (r : WiggleRequest) (now : UInt64) (o : Option WiggleParams)
      (h : a.starts t = some r) (hid : r.id = id) :
      KeyStep id t a [r.startValue] o (some (r.params now))
  | kept (o : Option WiggleParams) (hstart : ∀ r, a.starts t = some r → r.id ≠ id)
      (hstop : a.stops id = true → o = none) : KeyStep id t a [] o o
  | ticked (vs : List UInt16) (p p' : WiggleParams) (h : a = .wiggleProcess)
      (hexit : p'.exitValue = p.exitValue) : KeyStep id t a vs (some p) (some p')
  | ended (p : WiggleParams) (h : a.stops id = true ∨ a = .wiggleProcess) :
      KeyStep id t a [p.exitValue] (some p) none

theorem tick_exitValue {now : UInt64} {p p' : WiggleParams} (h : (p.tick now).1 = some p') :
    p'.exitValue = p.exitValue := by
  unfold WiggleParams.tick at h
  split_ifs at h <;> cases h <;> rfl

/-- Stopping an id sends the exit value of its wiggle, if there is one. -/
theorem keyStep_stopped {id : UInt32} {t : WiggleTable} {a : Act} (h : a.stops id = true)
    (hstart : a.starts t = none) (o : Option WiggleParams) :
    KeyStep id t a (exitValues o) o none := by
  cases o with
  | none =>
    refine .kept none ?_ (fun _ => rfl)
    intro r hr
    cases hstart.symm.trans hr
  | some p => exact .ended p (Or.inl h)

/-- An action that leaves the table alone. -/
theorem keyStep_other {id : UInt32} {t : WiggleTable} {a : Act} (hstart : a.starts t = none)
    (hstop : a.stops id = false) (o : Option WiggleParams) : KeyStep id t a [] o o := by
  refine .kept o ?_ (fun h => absurd (hstop.symm.trans h) Bool.false_ne_true)
  intro r hr
  cases hstart.symm.trans hr

theorem Refines.congr {app app' : App} {w : Wiggling} (hs : Refines app w)
    (hwiggles : app'.wiggles = app.wiggles) (hstate : app'.state = app.state) :
    Refines app' w where
  table := hwiggles ▸ hs.table
  state := hstate.trans hs.state
  valid := hs.valid

variable {p : Process} {w : Wiggling}

/-- What an action leaves of the map, and what it does for every id. -/
def AtKeys (p : Process) (w : Wiggling) (env : Env) (a : Act) : Prop :=
  ∃ w', Refines (perform p env a).1.app w' ∧ ∀ id,
    KeyStep id p.app.wiggles a (valuesFor id (attempted (perform p env a).2.2))
      (w.map.lookup id) (w'.map.lookup id)

/-- An action that a call of the table makes, from what the call is for every id. -/
theorem atKeys_of_call (hs : Refines p.app w) {env : Env} {a : Act} (c : TableCall)
    (happ : (c.run p.app env).2.1 = (perform p env a).1.app)
    (hsent : attempted (c.run p.app env).2.2 = attempted (perform p env a).2.2)
    (hkey : ∀ id x, KeyCase id w env.now (c.run p.app env).1 c x →
      KeyStep id p.app.wiggles a x.2 (w.map.lookup id) x.1) : AtKeys p w env a := by
  refine ⟨(w.call env.now c).1, ?_, ?_⟩
  · rw [← happ]
    exact (callRefines hs env c).refines
  · intro id
    obtain ⟨hlookup, hvalues⟩ := run_at_key hs env c id
    rw [hlookup, ← hsent, hvalues]
    exact hkey id _ (keyCall_cases id w env.now _ c)

theorem atKeys_start (hs : Refines p.app w) (env : Env) (r : WiggleRequest)
    (hr : r.periodMs ≠ 0 ∧ r.id ≤ 0x7FF) : AtKeys p w env (.wiggleStart r) := by
  have hgood : ¬ (r.periodMs = 0 ∨ r.id > 0x7FF) :=
    not_or.mpr ⟨hr.1, UInt32.not_lt.mpr hr.2⟩
  have hrun := run_start p.app env hgood
  have haccepted := wiggleStartLocked_accepted p.app env r
  apply atKeys_of_call hs (.start r)
  · rw [hrun]
    rfl
  · rw [hrun]
    rfl
  · intro id x hx
    rw [hrun] at hx
    cases hx with
    | started r hid hzero =>
      rcases haccepted with ⟨hroom, -, -⟩ | ⟨-, hfails, -⟩
      · exact .started r env.now _ (if_pos hroom) hid
      · exact absurd hzero hfails
    | kept c hkept hstop hprocess =>
      -- the request is refused, or it is for another id
      refine .kept _ ?_ (fun hstop => absurd hstop Bool.false_ne_true)
      intro r' hr' hid
      rcases haccepted with ⟨hroom, hzero, -⟩ | ⟨hroom, -, -⟩
      · have hsame : some r = some r' := (if_pos hroom).symm.trans hr'
        cases hsame
        exact hkept r rfl hid hzero
      · cases (if_neg hroom).symm.trans hr'
    | stopped c hstop => exact hstop.elim

theorem atKeys_stop (hs : Refines p.app w) (env : Env) (id' : UInt32) :
    AtKeys p w env (.wiggleStop id') := by
  have hrun := run_stop p.app env id'
  apply atKeys_of_call hs (.stop id')
  · rw [hrun]
    rfl
  · rw [hrun]
    rfl
  · intro id x hx
    cases hx with
    | kept c hstart hstop hprocess =>
      have hstops : Act.stops id (.wiggleStop id') = false := beq_eq_false_iff_ne.mpr hstop
      exact keyStep_other rfl hstops _
    | stopped c hstop =>
      have hstops : Act.stops id (.wiggleStop id') = true := beq_iff_eq.mpr hstop
      exact keyStep_stopped hstops rfl _

theorem atKeys_stopAll (hs : Refines p.app w) (env : Env) :
    AtKeys p w env (.wiggleStopAll true) := by
  obtain ⟨-, happ, hattempted⟩ := run_stopAll p.app env true
  apply atKeys_of_call hs (.stopAll true) happ hattempted
  intro id x hx
  cases hx with
  | kept c hstart hstop hprocess => exact absurd trivial hstop
  | stopped c hstop => exact keyStep_stopped rfl rfl _

theorem atKeys_process (hs : Refines p.app w) (env : Env) : AtKeys p w env .wiggleProcess := by
  have hrun := run_process p.app env
  apply atKeys_of_call hs .process
  · rw [hrun]
    rfl
  · rw [hrun]
    rfl
  · intro id x hx
    cases hx with
    | kept c hstart hstop hprocess => exact keyStep_other rfl rfl _
    | stopped c hstop => exact hstop.elim
    | ticked hstate =>
      cases w.map.lookup id with
      | none => exact keyStep_other rfl rfl none
      | some q =>
        simp only [Option.bind_some, Option.elim_some]
        cases htick : (q.tick env.now).1 with
        | none =>
          rw [tick_exit htick]
          exact .ended q (Or.inr rfl)
        | some q' => exact .ticked _ q q' rfl (tick_exitValue htick)

/-- Every action of a handler, and the tick, at every id. -/
theorem atKeys_perform (hs : Refines p.app w) (env : Env) (a : Act)
    (ha : a.Served ∨ a = .wiggleProcess) : AtKeys p w env a := by
  have hother (hwiggles : (perform p env a).1.app.wiggles = p.app.wiggles)
      (hstate : (perform p env a).1.app.state = p.app.state)
      (hsent : attempted (perform p env a).2.2 = []) (hstart : a.starts p.app.wiggles = none)
      (hstop : ∀ id, a.stops id = false) : AtKeys p w env a := by
    refine ⟨w, hs.congr hwiggles hstate, ?_⟩
    intro id
    rw [hsent]
    exact keyStep_other hstart (hstop id) _
  cases a with
  | wiggleStart r => exact atKeys_start hs env r (ha.resolve_right nofun)
  | wiggleStop id => exact atKeys_stop hs env id
  | wiggleStopAll sendExitValue =>
    obtain rfl : sendExitValue = true := ha.resolve_right nofun
    exact atKeys_stopAll hs env
  | wiggleProcess => exact atKeys_process hs env
  | storeState state =>
    exact ⟨{ w with state := state }, ⟨hs.table, rfl, hs.valid⟩, fun _ => keyStep_other rfl rfl _⟩
  | claimSequence =>
    have hframe : (perform p env .claimSequence).1.app.wiggles = p.app.wiggles ∧
        (perform p env .claimSequence).1.app.state = p.app.state := by
      simp only [perform, App.claimSequence, Process.setApp]
      split_ifs <;> exact ⟨rfl, rfl⟩
    exact hother hframe.1 hframe.2 rfl rfl (fun _ => rfl)
  | createWorker args =>
    have hframe : (perform p env (.createWorker args)).1.app = p.app ∧
        attempted (perform p env (.createWorker args)).2.2 = [] := by
      simp only [perform]
      split_ifs <;> exact ⟨rfl, rfl⟩
    exact hother (congrArg App.wiggles hframe.1) (congrArg App.state hframe.1) hframe.2 rfl
      (fun _ => rfl)
  | _ => exact hother rfl rfl rfl rfl (fun _ => rfl)

/-- A handler's action starts a wiggle of the id, or leaves the one there is, unless it
stops it. -/
theorem wiggles_of_keyStep {app app' : App} {w' : Wiggling} {id : UInt32} {a : Act}
    {vs : List UInt16} (hs : Refines app w) (hs' : Refines app' w') (ha : a.Served)
    (h : KeyStep id app.wiggles a vs (w.map.lookup id) (w'.map.lookup id)) :
    app'.Wiggles id ↔
      (∃ r, a.starts app.wiggles = some r ∧ r.id = id) ∨ (app.Wiggles id ∧ a.stops id = false) := by
  rw [hs.wiggles_iff, hs'.wiggles_iff]
  generalize w.map.lookup id = o at h
  generalize w'.map.lookup id = o' at h
  cases h with
  | started r now o hstart hid => exact iff_of_true ⟨_, rfl⟩ (Or.inl ⟨r, hstart, hid⟩)
  | kept o hstart hstop =>
    constructor
    · rintro ⟨q, rfl⟩
      refine Or.inr ⟨⟨q, rfl⟩, ?_⟩
      by_contra hstops
      cases hstop (Bool.eq_true_of_not_eq_false hstops)
    · rintro (⟨r, hr, hid⟩ | ⟨hwiggles, -⟩)
      · exact absurd hid (hstart r hr)
      · exact hwiggles
  | ticked vs q q' hprocess hexit =>
    rw [hprocess] at ha
    exact ha.elim
  | ended q hended =>
    refine iff_of_false (fun h => nomatch h) ?_
    rcases hended with hstops | hprocess
    · rintro (⟨r, hr, -⟩ | ⟨-, hno⟩)
      · cases (starts_of_stops hstops).symm.trans hr
      · cases hno.symm.trans hstops
    · rw [hprocess] at ha
      exact ha.elim

/-! ### The account -/

/-- A wiggle started, or a command sent for one. -/
inductive WiggleNote where
  | started (r : WiggleRequest)
  | sent (c : CanCommand)
  deriving DecidableEq, Repr

/-- What an action adds to the account: a start comes before what it sends. -/
def notesOf (started : Option WiggleRequest) (cs : List CanCommand) : List WiggleNote :=
  (started.map .started).toList ++ cs.map .sent

/-- The values sent to an id up to the next start there. -/
def ownValues (id : UInt32) : List WiggleNote → List UInt16
  | [] => []
  | .started r :: rest => if r.id = id then [] else ownValues id rest
  | .sent c :: rest => if c.id = id then c.value :: ownValues id rest else ownValues id rest

/-- Of what was sent for the wiggle the last is its exit value. -/
def ExitSent (r : WiggleRequest) (after : List WiggleNote) : Prop :=
  (ownValues r.id after).getLast? = some r.exitValue

/-- Every wiggle started has had its exit value sent last, or one that was started on its
id later has. -/
def AccountSettled (notes : List WiggleNote) : Prop :=
  ∀ before r after, notes = before ++ .started r :: after → ExitSent r after ∨
    ∃ between r' rest, after = between ++ .started r' :: rest ∧ r'.id = r.id ∧ ExitSent r' rest

/-- The exit value of the last wiggle started on an id, and the values sent there since. -/
abbrev Trail := Option (UInt16 × List UInt16)

def Trail.add (id : UInt32) : Trail → WiggleNote → Trail
  | t, .started r => if r.id = id then some (r.exitValue, []) else t
  | t, .sent c => if c.id = id then t.map (fun x => (x.1, x.2 ++ [c.value])) else t

def trailOf (id : UInt32) (notes : List WiggleNote) : Trail := notes.foldl (Trail.add id) none

/-- What is known of the trail of an id from the wiggle there. -/
def Accounts : Option WiggleParams → Trail → Prop
  | some p, t => ∃ vs, t = some (p.exitValue, vs)
  | none, t => ∀ exitValue vs, t = some (exitValue, vs) → vs.getLast? = some exitValue

theorem trail_sent (id : UInt32) (cs : List CanCommand) (t : Trail) :
    (cs.map WiggleNote.sent).foldl (Trail.add id) t =
      t.map (fun x => (x.1, x.2 ++ valuesFor id cs)) := by
  induction cs generalizing t with
  | nil =>
    cases t with
    | none => rfl
    | some x => simp only [List.map_nil, List.foldl_nil, valuesFor, List.filter_nil,
        List.append_nil, Option.map_some]
  | cons c cs ih =>
    rw [List.map_cons, List.foldl_cons, ih]
    cases t with
    | none => simp only [Trail.add, Option.map_none, ite_self]
    | some x =>
      by_cases hid : c.id = id
      · simp only [Trail.add, Option.map_some, valuesFor, List.filter_cons, hid, decide_true,
          if_true, List.map_cons, List.append_assoc, List.singleton_append]
      · simp only [Trail.add, Option.map_some, valuesFor, List.filter_cons, hid, decide_false,
          Bool.false_eq_true, if_false]

/-- The account keeps up with the table. -/
theorem accounts_step {id : UInt32} {table : WiggleTable} {a : Act} {cs : List CanCommand}
    {o o' : Option WiggleParams} {t : Trail}
    (h : KeyStep id table a (valuesFor id cs) o o') (ht : Accounts o t) :
    Accounts o' ((notesOf (a.starts table) cs).foldl (Trail.add id) t) := by
  rw [notesOf, List.foldl_append, trail_sent]
  generalize hvalues : valuesFor id cs = vs at h ⊢
  have hnone (hstart : a.starts table = none) :
      ((a.starts table).map WiggleNote.started).toList.foldl (Trail.add id) t = t := by
    rw [hstart]
    rfl
  cases h with
  | started r now o hstart hid =>
    rw [hstart]
    simp only [Option.map_some, Option.toList_some, List.foldl_cons, List.foldl_nil, Trail.add,
      if_pos hid]
    exact ⟨_, rfl⟩
  -- neither started nor sent for this id, so its trail is as it was
  | kept o hstart hstop =>
    have hsame : ((a.starts table).map WiggleNote.started).toList.foldl (Trail.add id) t = t := by
      cases hstarts : a.starts table with
      | none => rfl
      | some r => exact if_neg (hstart r hstarts)
    have hmap : t.map (fun x => (x.1, x.2 ++ ([] : List UInt16))) = t := by
      simp only [List.append_nil, Prod.mk.eta, Option.map_id']
    rw [hsame, hmap]
    exact ht
  | ticked vs p p' hprocess hexit =>
    obtain ⟨ws, rfl⟩ := ht
    rw [hnone (by rw [hprocess]; rfl)]
    exact ⟨_, by rw [hexit]; rfl⟩
  -- an end is no start, and the exit value is the last that was sent
  | ended p hended =>
    obtain ⟨ws, rfl⟩ := ht
    have hstart : a.starts table = none := by
      rcases hended with hstops | hprocess
      · exact starts_of_stops hstops
      · rw [hprocess]
        rfl
    rw [hnone hstart]
    intro exitValue vs hvs
    obtain ⟨rfl, rfl⟩ := Prod.mk.inj (Option.some.inj hvs)
    exact List.getLast?_concat

/-- What a trail of a wiggle ends as: its own values, or those of a later one of its id. -/
theorem trail_after (id : UInt32) (after : List WiggleNote) (exitValue : UInt16)
    (vs : List UInt16) :
    after.foldl (Trail.add id) (some (exitValue, vs)) =
      some (exitValue, vs ++ ownValues id after) ∨
    ∃ between r rest, after = between ++ .started r :: rest ∧ r.id = id ∧
      after.foldl (Trail.add id) (some (exitValue, vs)) =
        some (r.exitValue, ownValues id rest) := by
  induction after generalizing exitValue vs with
  | nil => exact Or.inl (by rw [ownValues, List.append_nil]; rfl)
  | cons note after ih =>
    -- a later start ends the trail, and a note in front of the rest does not change that
    have hlater {t : Trail} (hfold : Trail.add id (some (exitValue, vs)) note = t)
        (h : ∃ between r rest, after = between ++ .started r :: rest ∧ r.id = id ∧
          after.foldl (Trail.add id) t = some (r.exitValue, ownValues id rest)) :
        ∃ between r rest, note :: after = between ++ .started r :: rest ∧ r.id = id ∧
          (note :: after).foldl (Trail.add id) (some (exitValue, vs)) =
            some (r.exitValue, ownValues id rest) := by
      obtain ⟨between, r, rest, rfl, hid, hrest⟩ := h
      refine ⟨note :: between, r, rest, rfl, hid, ?_⟩
      rw [List.foldl_cons, hfold]
      exact hrest
    cases note with
    | started r =>
      by_cases hid : r.id = id
      · have hadd : Trail.add id (some (exitValue, vs)) (.started r) = some (r.exitValue, []) :=
          if_pos hid
        rcases ih r.exitValue [] with hown | hother
        · refine Or.inr ⟨[], r, after, rfl, hid, ?_⟩
          rw [List.foldl_cons, hadd, hown, List.nil_append]
        · exact Or.inr (hlater hadd hother)
      · have hadd : Trail.add id (some (exitValue, vs)) (.started r) = some (exitValue, vs) :=
          if_neg hid
        rcases ih exitValue vs with hown | hother
        · refine Or.inl ?_
          rw [List.foldl_cons, hadd, hown, ownValues, if_neg hid]
        · exact Or.inr (hlater hadd hother)
    | sent c =>
      by_cases hid : c.id = id
      · have hadd : Trail.add id (some (exitValue, vs)) (.sent c) =
            some (exitValue, vs ++ [c.value]) := if_pos hid
        rcases ih exitValue (vs ++ [c.value]) with hown | hother
        · refine Or.inl ?_
          rw [List.foldl_cons, hadd, hown, ownValues, if_pos hid, List.append_assoc,
            List.singleton_append]
        · exact Or.inr (hlater hadd hother)
      · have hadd : Trail.add id (some (exitValue, vs)) (.sent c) = some (exitValue, vs) :=
          if_neg hid
        rcases ih exitValue vs with hown | hother
        · refine Or.inl ?_
          rw [List.foldl_cons, hadd, hown, ownValues, if_neg hid]
        · exact Or.inr (hlater hadd hother)

/-- Where no wiggle runs the account is settled. -/
theorem accountSettled_of_accounts {notes : List WiggleNote}
    (h : ∀ id, Accounts none (trailOf id notes)) : AccountSettled notes := by
  intro before r after hnotes
  have htrail : trailOf r.id notes =
      after.foldl (Trail.add r.id) (some (r.exitValue, [])) := by
    rw [trailOf, hnotes, List.foldl_append, List.foldl_cons]
    exact congrArg (fun t => after.foldl (Trail.add r.id) t) (if_pos rfl)
  have haccounts := h r.id
  rw [htrail] at haccounts
  rcases trail_after r.id after r.exitValue [] with hown | ⟨between, r', rest, hafter, hid, hlast⟩
  · exact Or.inl (haccounts _ _ hown)
  · refine Or.inr ⟨between, r', rest, hafter, hid, ?_⟩
    rw [ExitSent, hid]
    exact haccounts _ _ hlast

end WsServer
