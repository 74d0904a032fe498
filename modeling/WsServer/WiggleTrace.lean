import Mathlib.Data.List.Chain
import WsServer.WiggleMap

/-! What one CAN id sees of a sequence of calls. From the start of a wiggle until it is
replaced, stopped or expires, the values sent to its id are the start and the end value
in turn, at least a period apart; what ends it sends the exit value, but for a new start. -/
namespace WsServer
open Interaction SlotTable

/-! ### A call, seen from one id -/

/-- The values that commands carry to an id. -/
def valuesFor (id : UInt32) (cs : List CanCommand) : List UInt16 :=
  (cs.filter (fun c => c.id = id)).map CanCommand.value

def exitValues (p : Option WiggleParams) : List UInt16 := (p.map WiggleParams.exitValue).toList

/-- What a call makes of the wiggle of an id, and the values it sends there; the answer
is that of the call. -/
def keyCall (id : UInt32) (w : Wiggling) (now : UInt64) (answer : Int) :
    TableCall → Option WiggleParams × List UInt16
  | .start r =>
    if r.id = id ∧ answer = 0 then (some (r.params now), [r.startValue])
    else (w.map.lookup id, [])
  | .stop id' =>
    if id' = id then (none, exitValues (w.map.lookup id)) else (w.map.lookup id, [])
  | .stopAll sendExitValue => (none, if sendExitValue then exitValues (w.map.lookup id) else [])
  | .process =>
    if w.state ≠ .prechilling then (w.map.lookup id, [])
    else ((w.map.lookup id).bind (fun p => (p.tick now).1),
      (w.map.lookup id).elim [] (fun p => (p.tick now).2.toList))
  | .setState .prechilling => (w.map.lookup id, [])
  | .setState .hotfire => (none, exitValues (w.map.lookup id))

/-- The call takes the wiggle of the id away, whatever it is. -/
def TableCall.StopsKey (id : UInt32) : TableCall → Prop
  | .stop id' => id' = id
  | .stopAll _ | .setState .hotfire => True
  | _ => False

/-- Everything a call can be for one id. -/
inductive KeyCase (id : UInt32) (w : Wiggling) (now : UInt64) (answer : Int) :
    TableCall → Option WiggleParams × List UInt16 → Prop where
  | started (r : WiggleRequest) (hid : r.id = id) (hzero : answer = 0) :
      KeyCase id w now answer (.start r) (some (r.params now), [r.startValue])
  | kept (c : TableCall) (hstart : ∀ r, c = .start r → r.id = id → answer ≠ 0)
      (hstop : ¬ c.StopsKey id) (hprocess : c = .process → w.state ≠ .prechilling) :
      KeyCase id w now answer c (w.map.lookup id, [])
  | stopped (c : TableCall) (hstop : c.StopsKey id) :
      KeyCase id w now answer c (none, exitValues (w.map.lookup id))
  | dropped : KeyCase id w now answer (.stopAll false) (none, [])
  | ticked (hstate : w.state = .prechilling) :
      KeyCase id w now answer .process
        ((w.map.lookup id).bind (fun p => (p.tick now).1),
          (w.map.lookup id).elim [] (fun p => (p.tick now).2.toList))

theorem keyCall_cases (id : UInt32) (w : Wiggling) (now : UInt64) (answer : Int) (c : TableCall) :
    KeyCase id w now answer c (keyCall id w now answer c) := by
  have hkept (c : TableCall) (hstart : ∀ r, c ≠ .start r) (hstop : ¬ c.StopsKey id)
      (hprocess : c = .process → w.state ≠ .prechilling) :
      KeyCase id w now answer c (w.map.lookup id, []) :=
    .kept c (fun r hr => absurd hr (hstart r)) hstop hprocess
  cases c with
  | start r =>
    by_cases hnew : r.id = id ∧ answer = 0
    · rw [keyCall, if_pos hnew]
      exact .started r hnew.1 hnew.2
    · rw [keyCall, if_neg hnew]
      refine .kept _ ?_ not_false TableCall.noConfusion
      intro r' hr' hid hzero
      cases hr'
      exact hnew ⟨hid, hzero⟩
  | stop id' =>
    by_cases hid : id' = id
    · rw [keyCall, if_pos hid]
      exact .stopped _ hid
    · rw [keyCall, if_neg hid]
      exact hkept _ (fun _ => TableCall.noConfusion) hid TableCall.noConfusion
  | stopAll sendExitValue =>
    cases sendExitValue with
    | false => exact .dropped
    | true => exact .stopped _ trivial
  | process =>
    by_cases hstate : w.state ≠ .prechilling
    · rw [keyCall, if_pos hstate]
      exact hkept _ (fun _ => TableCall.noConfusion) not_false (fun _ => hstate)
    · rw [keyCall, if_neg hstate]
      exact .ticked (not_not.mp hstate)
  | setState state =>
    cases state with
    | prechilling =>
      exact hkept _ (fun _ => TableCall.noConfusion) not_false TableCall.noConfusion
    | hotfire => exact .stopped _ trivial

/-- The part of a bag of commands that goes to one id. -/
def bagFor (id : UInt32) (sent : Multiset CanCommand) : Multiset UInt16 :=
  (sent.filter (fun c => c.id = id)).map CanCommand.value

theorem bagFor_coe (id : UInt32) (cs : List CanCommand) :
    bagFor id (cs : Multiset CanCommand) = (valuesFor id cs : Multiset UInt16) := by
  simp only [bagFor, valuesFor, Multiset.filter_coe, Multiset.map_coe]

theorem bagFor_bind (id : UInt32) (m : WiggleMap) (f : UInt32 → WiggleParams → List CanCommand)
    (hf : ∀ k p c, c ∈ f k p → c.id = k) :
    bagFor id (m.entries.bind (fun e => (f e.1 e.2 : Multiset CanCommand))) =
      (((m.lookup id).elim [] (f id)).map CanCommand.value : List UInt16) := by
  rw [bagFor, output_at_key m f CanCommand.id hf id, Multiset.map_coe]

theorem bagFor_singleton (id : UInt32) (c : CanCommand) :
    bagFor id {c} = if c.id = id then {c.value} else 0 := by
  unfold bagFor
  split_ifs with h
  · rw [Multiset.filter_singleton, if_pos h, Multiset.map_singleton]
  · rw [Multiset.filter_singleton, if_neg h]
    rfl

theorem bagFor_exits (id : UInt32) (m : WiggleMap) (sendExitValue : Bool) :
    bagFor id (m.exits sendExitValue) =
      ((if sendExitValue then exitValues (m.lookup id) else [] : List UInt16) :
        Multiset UInt16) := by
  have hkey : ∀ k p c, c ∈ exitSent sendExitValue k p → c.id = k := by
    intro k p c hc
    cases sendExitValue with
    | false => cases hc
    | true => rw [List.mem_singleton.mp hc]
  rw [WiggleMap.exits, bagFor_bind id m _ hkey]
  cases sendExitValue with
  | false => cases m.lookup id <;> rfl
  | true => cases m.lookup id <;> rfl

theorem bagFor_ticks (id : UInt32) (m : WiggleMap) (now : UInt64) :
    bagFor id (m.entries.bind (fun e => (tickSent now e.1 e.2 : Multiset CanCommand))) =
      ((m.lookup id).elim [] (fun p => (p.tick now).2.toList) : List UInt16) := by
  have hkey : ∀ k p c, c ∈ tickSent now k p → c.id = k := by
    intro k p c hc
    obtain ⟨v, -, rfl⟩ := Option.map_eq_some_iff.mp (Option.mem_toList.mp hc)
    rfl
  rw [bagFor_bind id m _ hkey]
  cases m.lookup id with
  | none => rfl
  | some p =>
    simp only [Option.elim_some, tickSent]
    cases (p.tick now).2 <;> rfl

theorem start_at_key (w : Wiggling) (now : UInt64) (r : WiggleRequest) (id : UInt32) :
    (w.call now (.start r)).1.map.lookup id =
        (keyCall id w now (w.call now (.start r)).2.answer (.start r)).1 ∧
      bagFor id (w.call now (.start r)).2.sent =
        (keyCall id w now (w.call now (.start r)).2.answer (.start r)).2 := by
  by_cases hbad : r.periodMs = 0 ∨ r.id > 0x7FF ∨
      (r.id ∉ w.map ∧ w.map.keys.card = appMaxWiggles)
  · have hcall : w.call now (.start r) = (w, ⟨-1, 0⟩) := if_pos hbad
    have hkey : keyCall id w now (-1) (.start r) = (w.map.lookup id, []) :=
      if_neg (fun h => absurd h.2 (by decide))
    rw [hcall, hkey]
    exact ⟨rfl, rfl⟩
  · have hcall : w.call now (.start r) =
        ({ w with map := w.map.insert r.id (r.params now) },
          ⟨0, {⟨r.id, r.startValue, 0⟩}⟩) := if_neg hbad
    rw [hcall, bagFor_singleton]
    by_cases hid : r.id = id
    · have hkey : keyCall id w now 0 (.start r) = (some (r.params now), [r.startValue]) :=
        if_pos ⟨hid, rfl⟩
      rw [hkey, if_pos hid, ← hid]
      exact ⟨Finmap.lookup_insert w.map, rfl⟩
    · have hkey : keyCall id w now 0 (.start r) = (w.map.lookup id, []) :=
        if_neg (fun h => hid h.1)
      rw [hkey, if_neg hid]
      exact ⟨Finmap.lookup_insert_of_ne w.map (fun h => hid h.symm), rfl⟩

theorem stop_at_key (w : Wiggling) (now : UInt64) (id' id : UInt32) :
    (w.call now (.stop id')).1.map.lookup id =
        (keyCall id w now (w.call now (.stop id')).2.answer (.stop id')).1 ∧
      bagFor id (w.call now (.stop id')).2.sent =
        (keyCall id w now (w.call now (.stop id')).2.answer (.stop id')).2 := by
  cases hlookup : w.map.lookup id' with
  | none =>
    have hcall : w.call now (.stop id') = (w, ⟨0, 0⟩) := by simp only [Wiggling.call, hlookup]
    rw [hcall]
    by_cases hid : id' = id
    · subst hid
      simp only [keyCall, if_true, hlookup]
      exact ⟨trivial, rfl⟩
    · simp only [keyCall, if_neg hid]
      exact ⟨trivial, rfl⟩
  | some p =>
    have hcall : w.call now (.stop id') =
        ({ w with map := w.map.erase id' }, ⟨1, {⟨id', p.exitValue, 0⟩}⟩) := by
      simp only [Wiggling.call, hlookup]
    rw [hcall, bagFor_singleton]
    by_cases hid : id' = id
    · subst hid
      simp only [keyCall, if_true, hlookup]
      exact ⟨Finmap.lookup_erase id' w.map, rfl⟩
    · simp only [keyCall, if_neg hid]
      exact ⟨Finmap.lookup_erase_ne (fun h => hid h.symm), rfl⟩

/-- The operations of the map, seen from one id. -/
theorem call_at_key (w : Wiggling) (now : UInt64) (c : TableCall) (id : UInt32) :
    (w.call now c).1.map.lookup id = (keyCall id w now (w.call now c).2.answer c).1 ∧
    bagFor id (w.call now c).2.sent = (keyCall id w now (w.call now c).2.answer c).2 := by
  cases c with
  | start r => exact start_at_key w now r id
  | stop id' => exact stop_at_key w now id' id
  | stopAll sendExitValue =>
    exact ⟨Finmap.lookup_empty id, bagFor_exits id w.map sendExitValue⟩
  | process =>
    by_cases hstate : w.state ≠ .prechilling
    · simp only [Wiggling.call, keyCall, if_pos hstate]
      exact ⟨trivial, rfl⟩
    · simp only [Wiggling.call, keyCall, if_neg hstate]
      exact ⟨lookup_mapFilter _ w.map id, bagFor_ticks id w.map now⟩
  | setState state =>
    cases state with
    | prechilling => exact ⟨rfl, rfl⟩
    | hotfire => exact ⟨Finmap.lookup_empty id, bagFor_exits id w.map true⟩

/-- A tick that leaves no wiggle sends its exit value. -/
theorem tick_exit {now : UInt64} {p : WiggleParams} (h : (p.tick now).1 = none) :
    (p.tick now).2 = some p.exitValue := by
  unfold WiggleParams.tick at h ⊢
  split_ifs at h ⊢
  · rfl

/-- A call that leaves no wiggle of the id sends the exit value there, if it may. -/
theorem keyCall_exit {id : UInt32} {w : Wiggling} {now : UInt64} {answer : Int} {c : TableCall}
    {p : WiggleParams} (hp : w.map.lookup id = some p)
    (hnone : (keyCall id w now answer c).1 = none) (hsends : c ≠ .stopAll false) :
    (keyCall id w now answer c).2 = [p.exitValue] := by
  have hcase := keyCall_cases id w now answer c
  generalize keyCall id w now answer c = x at hcase hnone ⊢
  cases hcase with
  | started r hid hzero => cases hnone
  | kept c hstart hstop hprocess => cases hp.symm.trans hnone
  | stopped c hstop =>
    rw [hp]
    rfl
  | dropped => exact absurd rfl hsends
  | ticked hstate =>
    rw [hp] at hnone ⊢
    dsimp only [Option.elim_some]
    rw [tick_exit hnone]
    rfl

theorem length_keyCall (id : UInt32) (w : Wiggling) (now : UInt64) (answer : Int)
    (c : TableCall) : (keyCall id w now answer c).2.length ≤ 1 := by
  have hoption : ∀ o : Option UInt16, o.toList.length ≤ 1 := by
    intro o
    cases o with
    | none => exact Nat.zero_le 1
    | some v => exact Nat.le_refl 1
  have hcase := keyCall_cases id w now answer c
  generalize keyCall id w now answer c = x at hcase ⊢
  cases hcase with
  | started r hid hzero => exact Nat.le_refl 1
  | kept c hstart hstop hprocess => exact Nat.zero_le 1
  | stopped c hstop => exact hoption _
  | dropped => exact Nat.zero_le 1
  | ticked hstate =>
    cases w.map.lookup id with
    | none => exact Nat.zero_le 1
    | some p => exact hoption (p.tick now).2

theorem eq_of_coe_eq {α : Type} {l l' : List α} (h : (l : Multiset α) = l')
    (hlength : l'.length ≤ 1) : l = l' := by
  have hperm := Multiset.coe_eq_coe.mp h
  match l' with
  | [] => exact hperm.eq_nil
  | [a] => exact List.perm_singleton.mp hperm
  | _ :: _ :: _ => exact absurd hlength (by rw [List.length_cons, List.length_cons]; omega)

/-- The calls of the code, seen from one id. -/
theorem run_at_key {app : App} {w : Wiggling} (hs : Refines app w) (env : Env) (c : TableCall)
    (id : UInt32) :
    (w.call env.now c).1.map.lookup id = (keyCall id w env.now (c.run app env).1 c).1 ∧
    valuesFor id (attempted (c.run app env).2.2) =
      (keyCall id w env.now (c.run app env).1 c).2 := by
  have href := callRefines hs env c
  obtain ⟨hlookup, hbag⟩ := call_at_key w env.now c id
  rw [href.answer]
  refine ⟨hlookup, eq_of_coe_eq ?_ (length_keyCall _ _ _ _ _)⟩
  rw [← hbag, ← href.sent, bagFor_coe]

/-! ### Episodes -/

/-- An active slot holds the id. -/
def App.Wiggles (app : App) (id : UInt32) : Prop :=
  ∃ i, (app.wiggles i).active = true ∧ (app.wiggles i).id = id

theorem Refines.wiggles_iff {app : App} {w : Wiggling} (hs : Refines app w) {id : UInt32} :
    app.Wiggles id ↔ ∃ p, w.map.lookup id = some p := by
  constructor
  · rintro ⟨i, hactive, hid⟩
    exact ⟨_, hs.table.lookup_eq (entry_eq_some.mpr ⟨hactive, hid, rfl⟩)⟩
  · rintro ⟨p, hp⟩
    obtain ⟨i, hi⟩ := (hs.table.lookup_iff id p).mp hp
    obtain ⟨hactive, hid, -⟩ := entry_eq_some.mp hi
    exact ⟨i, hactive, hid⟩

/-- The call leaves a wiggle of the id where it leaves one in the map. -/
theorem wiggles_run_iff {app : App} {w : Wiggling} (hs : Refines app w) (env : Env) (c : TableCall)
    (id : UInt32) : (c.run app env).2.1.Wiggles id ↔
      (keyCall id w env.now (c.run app env).1 c).1 ≠ none := by
  rw [(callRefines hs env c).refines.wiggles_iff, (run_at_key hs env c id).1,
    Option.ne_none_iff_exists']

/-- The call puts a new wiggle in the place of the one of the id, or leaves none. -/
def EndsEpisode (id : UInt32) (app : App) (c : TableCall) (env : Env) : Prop :=
  (∃ r, c = .start r ∧ r.id = id ∧ (c.run app env).1 = 0) ∨ ¬ (c.run app env).2.1.Wiggles id

instance (app : App) (id : UInt32) : Decidable (app.Wiggles id) :=
  inferInstanceAs (Decidable (∃ _ : Fin appMaxWiggles, _ ∧ _))

instance (id : UInt32) (app : App) (c : TableCall) (env : Env) :
    Decidable (EndsEpisode id app c env) :=
  match c with
  | .start r => decidable_of_iff
      ((r.id = id ∧ ((TableCall.start r).run app env).1 = 0) ∨
        ¬ ((TableCall.start r).run app env).2.1.Wiggles id)
      (or_congr_left ⟨fun h => ⟨r, rfl, h⟩, fun ⟨_, hr, h⟩ => TableCall.start.inj hr ▸ h⟩)
  | .stop id' => decidable_of_iff (¬ ((TableCall.stop id').run app env).2.1.Wiggles id)
      ⟨Or.inr, fun h => h.resolve_left nofun⟩
  | .stopAll b => decidable_of_iff (¬ ((TableCall.stopAll b).run app env).2.1.Wiggles id)
      ⟨Or.inr, fun h => h.resolve_left nofun⟩
  | .process => decidable_of_iff (¬ (TableCall.process.run app env).2.1.Wiggles id)
      ⟨Or.inr, fun h => h.resolve_left nofun⟩
  | .setState state => decidable_of_iff (¬ ((TableCall.setState state).run app env).2.1.Wiggles id)
      ⟨Or.inr, fun h => h.resolve_left nofun⟩

/-- No call ends the episode of the id. -/
def Uninterrupted (id : UInt32) : App → List (TableCall × Env) → Prop
  | _, [] => True
  | app, (c, env) :: calls =>
    ¬ EndsEpisode id app c env ∧ Uninterrupted id (c.run app env).2.1 calls

instance decidableUninterrupted (id : UInt32) :
    ∀ app calls, Decidable (Uninterrupted id app calls)
  | _, [] => isTrue trivial
  | app, (c, env) :: calls =>
    have := decidableUninterrupted id (c.run app env).2.1 calls
    inferInstanceAs (Decidable (¬ EndsEpisode id app c env ∧ _))

/-- The values that calls send to an id, each with the time of its call. -/
def sendsTo (id : UInt32) : App → List (TableCall × Env) → List (UInt64 × UInt16)
  | _, [] => []
  | app, (c, env) :: calls =>
    (valuesFor id (attempted (c.run app env).2.2)).map (fun v => (env.now, v)) ++
      sendsTo id (c.run app env).2.1 calls

/-- Two values in turn. -/
def alternation (a b : UInt16) (n : ℕ) : List UInt16 :=
  (List.range n).map (fun i => if i % 2 = 0 then a else b)

theorem alternation_succ (a b : UInt16) (n : ℕ) :
    alternation a b (n+1) = alternation a b n ++ [if n % 2 = 0 then a else b] := by
  rw [alternation, List.range_succ, List.map_append, List.map_singleton]
  rfl

/-- What is sent in an episode: the start and the end value in turn, at least a period
apart, and all of it before the total duration has passed. -/
structure EpisodeLaw (r : WiggleRequest) (start : UInt64) (sends : List (UInt64 × UInt16)) :
    Prop where
  values : sends.map Prod.snd = alternation r.startValue r.endValue sends.length
  spaced : sends.IsChain (fun a b => a.1.toNat+r.periodMs.toNat ≤ b.1.toNat)
  early : 0 < r.totalDurationMs →
    ∀ s ∈ sends, s.1.toNat < start.toNat+r.totalDurationMs.toNat

/-- The wiggle as it was started, with what it sent last and when it sends next. -/
def WiggleRequest.toggledParams (r : WiggleRequest) (start last : UInt64) (v : UInt16) :
    WiggleParams :=
  { r.params start with
    currentValue := v
    nextToggleMs := last+r.periodMs.toUInt64 }

/-- The invariant of an episode: its law, and the wiggle that its last send has left. -/
structure Episode (r : WiggleRequest) (start : UInt64) (sends : List (UInt64 × UInt16))
    (p : WiggleParams) : Prop where
  law : EpisodeLaw r start sends
  last : ∃ before t v, sends = before ++ [(t, v)] ∧ p = r.toggledParams start t v ∧
    t.toNat+r.periodMs.toNat < UInt64.size

/-- The sums that the code makes of clock readings do not wrap. -/
structure NoWrap (r : WiggleRequest) (start : UInt64) (times : List UInt64) : Prop where
  stop : start.toNat+r.totalDurationMs.toNat < UInt64.size
  toggles : ∀ t ∈ times, t.toNat+r.periodMs.toNat < UInt64.size

theorem add_toNat {t : UInt64} {d : UInt32} (h : t.toNat+d.toNat < UInt64.size) :
    (t+d.toUInt64).toNat = t.toNat+d.toNat := by
  rw [UInt64.toNat_add, UInt32.toNat_toUInt64, Nat.mod_eq_of_lt h]

/-- The total duration of a wiggle has passed. -/
def Expired (r : WiggleRequest) (start now : UInt64) : Prop :=
  0 < r.totalDurationMs ∧ start.toNat+r.totalDurationMs.toNat ≤ now.toNat

theorem expired_iff {r : WiggleRequest} {start : UInt64} (last : UInt64) (v : UInt16)
    (now : UInt64) (hwrap : start.toNat+r.totalDurationMs.toNat < UInt64.size) :
    let p := r.toggledParams start last v
    (p.totalDurationMs > 0 ∧ p.stopTimeMs > 0 ∧ now ≥ p.stopTimeMs) ↔ Expired r start now := by
  intro p
  have hstop : p.stopTimeMs =
      if r.totalDurationMs ≠ 0 then start+r.totalDurationMs.toUInt64 else 0 := rfl
  have htotal : p.totalDurationMs = r.totalDurationMs := rfl
  unfold Expired
  rw [htotal, hstop]
  by_cases hzero : r.totalDurationMs = 0
  · rw [hzero]
    exact ⟨fun h => absurd h.1 (by decide), fun h => absurd h.1 (by decide)⟩
  · have hpos : 0 < r.totalDurationMs := UInt32.pos_iff_ne_zero.mpr hzero
    have hpos' : 0 < r.totalDurationMs.toNat := UInt32.lt_iff_toNat_lt.mp hpos
    rw [if_pos hzero, gt_iff_lt, gt_iff_lt, ge_iff_le, UInt64.lt_iff_toNat_lt,
      UInt64.le_iff_toNat_le, add_toNat hwrap]
    constructor
    · rintro ⟨-, -, h⟩
      exact ⟨hpos, h⟩
    · rintro ⟨-, h⟩
      refine ⟨hpos, ?_, h⟩
      exact Nat.lt_of_lt_of_le hpos' (Nat.le_add_left _ _)

section Ticks
variable {r : WiggleRequest} {start last now : UInt64} {v : UInt16}

/-- The value that follows another one. -/
def WiggleRequest.nextValue (r : WiggleRequest) (v : UInt16) : UInt16 :=
  if v = r.startValue then r.endValue else r.startValue

theorem tick_expired (hstop : start.toNat+r.totalDurationMs.toNat < UInt64.size)
    (h : Expired r start now) :
    (r.toggledParams start last v).tick now = (none, some r.exitValue) :=
  if_pos ((expired_iff last v now hstop).mpr h)

theorem tick_early (hstop : start.toNat+r.totalDurationMs.toNat < UInt64.size)
    (h : ¬ Expired r start now) (hlast : last.toNat+r.periodMs.toNat < UInt64.size)
    (hearly : now.toNat < last.toNat+r.periodMs.toNat) :
    (r.toggledParams start last v).tick now = (some (r.toggledParams start last v), none) := by
  have hnext : now < last+r.periodMs.toUInt64 := by
    rw [UInt64.lt_iff_toNat_lt, add_toNat hlast]
    exact hearly
  exact (if_neg (fun hp => h ((expired_iff last v now hstop).mp hp))).trans (if_pos hnext)

theorem tick_due (hstop : start.toNat+r.totalDurationMs.toNat < UInt64.size)
    (h : ¬ Expired r start now) (hlast : last.toNat+r.periodMs.toNat < UInt64.size)
    (hdue : last.toNat+r.periodMs.toNat ≤ now.toNat) :
    (r.toggledParams start last v).tick now =
      (some (r.toggledParams start now (r.nextValue v)), some (r.nextValue v)) := by
  have hnext : ¬ now < last+r.periodMs.toUInt64 := by
    rw [UInt64.lt_iff_toNat_lt, add_toNat hlast]
    exact Nat.not_lt.mpr hdue
  exact (if_neg (fun hp => h ((expired_iff last v now hstop).mp hp))).trans (if_neg hnext)

end Ticks

theorem episode_start {r : WiggleRequest} {start : UInt64}
    (hperiod : start.toNat+r.periodMs.toNat < UInt64.size) :
    Episode r start [(start, r.startValue)] (r.params start) where
  law :=
    { values := rfl
      spaced := List.isChain_singleton _
      early := by
        intro htotal s hs
        rw [List.mem_singleton.mp hs]
        exact Nat.lt_add_of_pos_right (UInt32.lt_iff_toNat_lt.mp htotal) }
  last := ⟨[], start, r.startValue, rfl, rfl, hperiod⟩

/-- A toggle carries the law on: whichever value was sent last, the inferred next value
is the other one in turn, also when the two are equal. -/
theorem Episode.toggle {r : WiggleRequest} {start last now : UInt64} {v : UInt16}
    {before : List (UInt64 × UInt16)} (h : EpisodeLaw r start (before ++ [(last, v)]))
    (hnow : ¬ Expired r start now) (hdue : last.toNat+r.periodMs.toNat ≤ now.toNat)
    (hperiod : now.toNat+r.periodMs.toNat < UInt64.size) :
    Episode r start (before ++ [(last, v)] ++ [(now, r.nextValue v)])
      (r.toggledParams start now (r.nextValue v)) := by
  have hlength : (before ++ [(last, v)]).length = before.length+1 := by
    rw [List.length_append, List.length_singleton]
  have hvalues := h.values
  rw [List.map_append, List.map_singleton, hlength, alternation_succ] at hvalues
  obtain ⟨-, hv⟩ := List.append_inj' hvalues rfl
  have hv : v = if before.length % 2 = 0 then r.startValue else r.endValue :=
    List.singleton_inj.mp hv
  have hnext : r.nextValue v =
      if (before.length+1) % 2 = 0 then r.startValue else r.endValue := by
    rcases Nat.mod_two_eq_zero_or_one before.length with heven | hodd
    · have hodd' : ¬ (before.length+1) % 2 = 0 := by omega
      rw [hv, if_pos heven, if_neg hodd']
      exact if_pos rfl
    · have heven' : (before.length+1) % 2 = 0 := by omega
      have hne : ¬ before.length % 2 = 0 := by omega
      rw [hv, if_neg hne, if_pos heven']
      unfold WiggleRequest.nextValue
      split_ifs with heq
      · exact heq
      · rfl
  refine ⟨⟨?_, ?_, ?_⟩, ⟨_, now, r.nextValue v, rfl, rfl, hperiod⟩⟩
  · have hlength' : (before ++ [(last, v)] ++ [(now, r.nextValue v)]).length =
        before.length+1+1 := by
      simp only [List.length_append, List.length_singleton]
    rw [hlength', List.map_append, h.values, hlength, List.map_singleton,
      alternation_succ _ _ (before.length+1), hnext]
  · refine List.isChain_append.mpr ⟨h.spaced, List.isChain_singleton _, ?_⟩
    intro a ha b hb
    rw [List.getLast?_append, List.getLast?_singleton, Option.some_or, Option.mem_some_iff] at ha
    rw [List.head?_cons, Option.mem_some_iff] at hb
    rw [← ha, ← hb]
    exact hdue
  · intro htotal s hs
    rcases List.mem_append.mp hs with hold | hnew
    · exact h.early htotal s hold
    · rw [List.mem_singleton.mp hnew]
      exact Nat.lt_of_not_le (fun hle => hnow ⟨htotal, hle⟩)

/-! ### Runs -/

/-- The map that the context refines has the wiggle of the episode. -/
def InEpisode (r : WiggleRequest) (start : UInt64) (sends : List (UInt64 × UInt16))
    (app : App) : Prop :=
  ∃ w p, Refines app w ∧ w.map.lookup r.id = some p ∧ Episode r start sends p

/-- A start that succeeds begins an episode. -/
theorem inEpisode_start {app : App} {w : Wiggling} (hs : Refines app w) (r : WiggleRequest)
    (env : Env) (hstart : ((TableCall.start r).run app env).1 = 0)
    (hperiod : env.now.toNat+r.periodMs.toNat < UInt64.size) :
    InEpisode r env.now [(env.now, r.startValue)] ((TableCall.start r).run app env).2.1 ∧
      valuesFor r.id (attempted ((TableCall.start r).run app env).2.2) = [r.startValue] := by
  obtain ⟨hlookup, hvalues⟩ := run_at_key hs env (.start r) r.id
  have hkey : keyCall r.id w env.now ((TableCall.start r).run app env).1 (.start r) =
      (some (r.params env.now), [r.startValue]) := if_pos ⟨rfl, hstart⟩
  rw [hkey] at hlookup hvalues
  exact ⟨⟨_, _, (callRefines hs env _).refines, hlookup, episode_start hperiod⟩, hvalues⟩

/-- The step of an episode: a call that does not end it carries it on. -/
theorem inEpisode_step {r : WiggleRequest} {start : UInt64} {sends : List (UInt64 × UInt16)}
    {app : App} (h : InEpisode r start sends app) (c : TableCall) (env : Env)
    (hgoes : ¬ EndsEpisode r.id app c env)
    (hstop : start.toNat+r.totalDurationMs.toNat < UInt64.size)
    (hperiod : env.now.toNat+r.periodMs.toNat < UInt64.size) :
    InEpisode r start
      (sends ++ (valuesFor r.id (attempted (c.run app env).2.2)).map (fun v => (env.now, v)))
      (c.run app env).2.1 := by
  obtain ⟨w, p, hs, hp, hepisode⟩ := h
  obtain ⟨hlookup, hvalues⟩ := run_at_key hs env c r.id
  have hs' := (callRefines hs env c).refines
  obtain ⟨hreplaced, hheld⟩ := not_or.mp hgoes
  have hgone := (wiggles_run_iff hs env c r.id).mp (not_not.mp hheld)
  have hcase := keyCall_cases r.id w env.now (c.run app env).1 c
  generalize keyCall r.id w env.now (c.run app env).1 c = x at hcase hlookup hvalues hgone
  -- a call that leaves the entry alone and sends nothing adds nothing to the episode
  have hkept : x = (some p, []) → InEpisode r start
      (sends ++ (valuesFor r.id (attempted (c.run app env).2.2)).map (fun v => (env.now, v)))
      (c.run app env).2.1 := by
    intro hkey
    rw [hkey] at hlookup hvalues
    rw [hvalues, List.map_nil, List.append_nil]
    exact ⟨_, p, hs', hlookup, hepisode⟩
  cases hcase with
  | started r' hid hzero => exact absurd ⟨r', rfl, hid, hzero⟩ hreplaced
  | kept c hstart hstopped hprocess => exact hkept (by rw [hp])
  | stopped c hstopped => exact absurd rfl hgone
  | dropped => exact absurd rfl hgone
  | ticked hstate =>
    rw [hp] at hlookup hvalues hgone hkept
    obtain ⟨before, last, v, hsends, rfl, hlast⟩ := hepisode.last
    by_cases hexpired : Expired r start env.now
    · refine absurd ?_ hgone
      exact congrArg Prod.fst (tick_expired hstop hexpired)
    · -- before its time the entry is left as it is; then it is toggled, and the episode grows by
      -- one value
      rcases Nat.lt_or_ge env.now.toNat (last.toNat+r.periodMs.toNat) with hearly | hdue
      · apply hkept
        rw [Option.bind_some, Option.elim_some, tick_early hstop hexpired hlast hearly]
        rfl
      · rw [Option.bind_some, tick_due hstop hexpired hlast hdue] at hlookup
        rw [Option.elim_some, tick_due hstop hexpired hlast hdue] at hvalues
        rw [hvalues]
        refine ⟨_, _, hs', hlookup, ?_⟩
        rw [hsends]
        exact Episode.toggle (hsends ▸ hepisode.law) hexpired hdue hperiod

/-- The run of an episode. -/
theorem inEpisode_run {r : WiggleRequest} {start : UInt64} {sends : List (UInt64 × UInt16)}
    {app : App} (h : InEpisode r start sends app) (calls : List (TableCall × Env))
    (hgoes : Uninterrupted r.id app calls)
    (hwrap : NoWrap r start (calls.map (fun x => x.2.now))) :
    InEpisode r start (sends ++ sendsTo r.id app calls) (app.afterCalls calls) := by
  induction calls generalizing sends app with
  | nil =>
    rw [sendsTo, List.append_nil]
    exact h
  | cons x calls ih =>
    obtain ⟨c, env⟩ := x
    have hstep := inEpisode_step h c env hgoes.1 hwrap.stop
      (hwrap.toggles env.now List.mem_cons_self)
    have hrest := ih hstep hgoes.2
      ⟨hwrap.stop, fun t ht => hwrap.toggles t (List.mem_cons_of_mem env.now ht)⟩
    rw [List.append_assoc] at hrest
    exact hrest

/-- What a call behind an episode does to it: a tick that is due sends one value and no
more than that, a tick behind the total duration ends it, as stopping does; the exit value
is sent when it ends, unless another start takes its place. -/
structure NextCall (r : WiggleRequest) (start : UInt64) (app : App) (c : TableCall) (env : Env) :
    Prop where
  toggles : c = .process → app.state = .prechilling → ¬ Expired r start env.now →
    ∀ i, (app.wiggles i).active = true → (app.wiggles i).id = r.id →
      (app.wiggles i).nextToggleMs ≤ env.now →
        (valuesFor r.id (attempted (c.run app env).2.2)).length = 1 ∧
          ¬ EndsEpisode r.id app c env
  expires : c = .process → app.state = .prechilling → Expired r start env.now →
    ¬ (c.run app env).2.1.Wiggles r.id
  stopped : c = .stop r.id ∨ (∃ b, c = .stopAll b) ∨ c = .setState .hotfire →
    ¬ (c.run app env).2.1.Wiggles r.id
  exits : ¬ (c.run app env).2.1.Wiggles r.id → c ≠ .stopAll false →
    valuesFor r.id (attempted (c.run app env).2.2) = [r.exitValue]
  replaced : ∀ r', c = .start r' → r'.id = r.id → (c.run app env).1 = 0 →
    valuesFor r.id (attempted (c.run app env).2.2) = [r'.startValue]

theorem nextCall {r : WiggleRequest} {start : UInt64} {sends : List (UInt64 × UInt16)}
    {app : App} (h : InEpisode r start sends app)
    (hstop : start.toNat+r.totalDurationMs.toNat < UInt64.size) (c : TableCall) (env : Env) :
    NextCall r start app c env := by
  obtain ⟨w, p, hs, hp, hepisode⟩ := h
  obtain ⟨hlookup, hvalues⟩ := run_at_key hs env c r.id
  have hwiggles := wiggles_run_iff hs env c r.id
  obtain ⟨before, last, v, -, rfl, hlast⟩ := hepisode.last
  have hgone : (keyCall r.id w env.now (c.run app env).1 c).1 = none →
      ¬ (c.run app env).2.1.Wiggles r.id :=
    fun hnone hleft => hwiggles.mp hleft hnone
  -- while prechilling the tick meets the wiggle of the id as it was toggled last
  have htick : c = .process → app.state = .prechilling →
      keyCall r.id w env.now (c.run app env).1 c =
        (((r.toggledParams start last v).tick env.now).1,
          ((r.toggledParams start last v).tick env.now).2.toList) := by
    intro hc hstate
    rw [hc]
    refine (if_neg (not_not.mpr (hs.state.symm.trans hstate))).trans ?_
    rw [hp]
    rfl
  constructor
  · intro hc hstate hnow i hactive hid hdue
    have hi := hs.table.lookup_eq (entry_eq_some.mpr ⟨hactive, hid, rfl⟩)
    have hnext : (app.wiggles i).nextToggleMs = last+r.periodMs.toUInt64 :=
      congrArg WiggleParams.nextToggleMs (Option.some.inj (hi.symm.trans hp))
    rw [hnext, UInt64.le_iff_toNat_le, add_toNat hlast] at hdue
    rw [htick hc hstate, tick_due hstop hnow hlast hdue] at hvalues hwiggles
    refine ⟨by rw [hvalues]; rfl, ?_⟩
    rintro (⟨r', hr', -⟩ | hends)
    · exact TableCall.noConfusion (hc.symm.trans hr')
    · exact hends (hwiggles.mpr (Option.some_ne_none _))
  · intro hc hstate hnow
    exact hgone (by rw [htick hc hstate, tick_expired hstop hnow])
  · rintro (rfl | ⟨b, rfl⟩ | rfl)
    · exact hgone (congrArg Prod.fst (if_pos rfl))
    · exact hgone rfl
    · exact hgone rfl
  · intro hends hsends
    have hnone : (keyCall r.id w env.now (c.run app env).1 c).1 = none :=
      not_not.mp (mt hwiggles.mpr hends)
    rw [hvalues]
    exact keyCall_exit hp hnone hsends
  · rintro r' rfl hid hzero
    rw [hvalues]
    exact congrArg Prod.snd (if_pos ⟨hid, hzero⟩)

/-- The context after some calls on an initial one. -/
def App.Reached (app : App) : Prop :=
  ∃ config canFd calls, app = (appContextInit config canFd).afterCalls calls

/-- The trace law of a wiggle. An episode of an id begins with a start that succeeds, in any
context that calls can reach, and goes on while no call ends it. What it sends follows
the law of episodes, and `NextCall` says what any next call does to it. The order of
the clock readings is not needed, only that the sums made of them do not wrap. -/
theorem wiggle_trace_law {app : App} (happ : app.Reached) (r : WiggleRequest) (env : Env)
    (calls : List (TableCall × Env)) (hstart : ((TableCall.start r).run app env).1 = 0)
    (hgoes : Uninterrupted r.id ((TableCall.start r).run app env).2.1 calls)
    (hwrap : NoWrap r env.now (((TableCall.start r, env) :: calls).map (fun x => x.2.now))) :
    EpisodeLaw r env.now (sendsTo r.id app ((.start r, env) :: calls)) ∧
      ∀ c next, NextCall r env.now (app.afterCalls ((.start r, env) :: calls)) c next := by
  obtain ⟨config, canFd, history, rfl⟩ := happ
  have hs := refines_afterCalls (refines_initial config canFd) history
  obtain ⟨hbegun, hsent⟩ := inEpisode_start hs r env hstart
    (hwrap.toggles env.now List.mem_cons_self)
  have hrun := inEpisode_run hbegun calls hgoes
    ⟨hwrap.stop, fun t ht => hwrap.toggles t (List.mem_cons_of_mem env.now ht)⟩
  have hsends : sendsTo r.id ((appContextInit config canFd).afterCalls history)
      ((.start r, env) :: calls) = [(env.now, r.startValue)] ++ sendsTo r.id
        ((TableCall.start r).run ((appContextInit config canFd).afterCalls history) env).2.1
        calls := by
    rw [sendsTo, hsent, List.map_singleton]
  refine ⟨?_, fun c next => nextCall hrun hwrap.stop c next⟩
  rw [hsends]
  obtain ⟨w, p, -, -, hepisode⟩ := hrun
  exact hepisode.law

/-- A wiggle of 100 ms that toggles every 10 ms: a tick behind its time ends it. -/
theorem wiggle_trace_law_expiry :
    let clock (now : UInt64) : Env := ⟨now, fun _ => none, true, true⟩
    let app := appContextInit ⟨false, false⟩ 3
    let r : WiggleRequest := ⟨0x123, 5, 6, 7, 10, 100⟩
    let calls := [(TableCall.start r, clock 1000), (.process, clock 1010),
      (.process, clock 1015), (.process, clock 1030)]
    EpisodeLaw r 1000 (sendsTo r.id app calls) ∧
      ¬ (TableCall.process.run (app.afterCalls calls) (clock 1100)).2.1.Wiggles r.id := by
  intro clock app r calls
  have hwrap : NoWrap r 1000 [1000, 1010, 1015, 1030] := by
    refine ⟨by decide, ?_⟩
    intro t ht
    simp only [List.mem_cons, List.not_mem_nil, or_false] at ht
    rcases ht with rfl | rfl | rfl | rfl <;> decide
  have happ : app.Reached := ⟨_, _, [], rfl⟩
  obtain ⟨hlaw, hnext⟩ :=
    wiggle_trace_law happ r (clock 1000) calls.tail (by decide) (by decide) hwrap
  exact ⟨hlaw, (hnext .process (clock 1100)).expires rfl (by decide) ⟨by decide, by decide⟩⟩

end WsServer
