import WsServer.TokenReading
import WsServer.WiggleIds

/-! Whether the numerals of a command are taken at face value. The range checks of the
handlers look at what the conversions have stored; where a numeral does not fit its
object, that is not what is written. -/
namespace WsServer
open Interaction Program

/-! ### The numerals of the tokens -/

def Token.numerals : Token → List Numeral
  | (.setValve, text) => setValveNumerals text
  | (.wiggleStop, token) => wiggleStopNumerals token
  | (.wiggle, token) => wiggleNumerals token
  | (.fire, text) => fireNumerals text
  | (.rawCan, text) => rawNumerals text

theorem writtenItems_eq (text : CText) :
    writtenItems text = (commandTokens text).map Token.numerals := by
  unfold writtenItems commandTokens
  split_ifs <;> simp only [List.map_map, List.map_cons, List.map_nil] <;> rfl

/-- An action has the numbers that the conversions made of the numerals of its token. -/
theorem reads_of_readFrom {a : Act} {token : Token} (h : ReadFrom a token) :
    Reads a token.numerals := by
  obtain ⟨kind, text⟩ := token
  cases kind with
  | setValve =>
    obtain ⟨name, value, field, bound, hscan, hname, hvalue, rfl⟩ := h
    exact scanSetValve_reads hscan hname hvalue
  | wiggleStop =>
    obtain ⟨id, hscan, rfl⟩ := h
    exact scanWiggleStop_reads hscan
  | wiggle =>
    obtain ⟨r, hscan, hgood, rfl⟩ := h
    exact scanWiggle_reads hscan (UInt32.not_lt.mp (not_or.mp hgood).2)
  | fire =>
    obtain ⟨strdupOk, args, hparse, rfl⟩ := h
    obtain ⟨-, hfields, hrange⟩ := firingSequenceParse_reads hparse
    exact ⟨hfields, fun _ => hrange⟩
  | rawCan =>
    obtain ⟨f, hparse, rfl⟩ := h
    exact parseRawCanFields_reads hparse

/-- The numeric steps of a run and the items agree one by one. -/
theorem reads_items {config : AppConfig} {client : Client} {text : CText} {C : Process → Prop}
    {tr : List (Process × Env × Act)}
    (htr : Among perform C (commandHandleText config client text) tr) :
    (markedSteps (S := serverSig) Act.Numeric tr).length ≤
        (writtenItems (stripCanPrefix text)).length ∧
      ∀ x ∈ (markedSteps (S := serverSig) Act.Numeric tr).zip (writtenItems (stripCanPrefix text)),
        C x.1.1 ∧ Reads x.1.2.2 x.2 := by
  obtain ⟨hlength, hzip⟩ := (reading_commandHandleText config client text).consumed htr
  rw [writtenItems_eq, List.length_map, List.zip_map_right]
  refine ⟨hlength, ?_⟩
  intro x hx
  obtain ⟨y, hy, rfl⟩ := List.mem_map.mp hx
  obtain ⟨hC, hread⟩ := hzip y hy
  exact ⟨hC, reads_of_readFrom hread⟩

/-! ### Effects -/

/-- The action has an effect: a frame goes out, a slot or the profile is written, or a
worker is created. -/
def TakesEffect (p : Process) (env : Env) : Act → Prop
  | .canSend c => canBusSendCommand p.app.canFd c (env.write 0) = .sent
  | .wiggleStart r => (wiggleStartLocked p.app env r).2.1 = 0
  | .wiggleStop id => (wiggleStopLocked p.app env id).2.1 = true
  | .setValve _ _ => True
  | .createWorker _ => env.thread = true
  | _ => False

/-- The commands that went out on the bus. -/
def sentCommands (es : List Event) : List CanCommand :=
  es.filterMap fun
    | .canTx _ c .sent => some c
    | _ => none

theorem perform_without_effect {p : Process} {env : Env} {a : Act} (ha : a.Numeric)
    (h : ¬ TakesEffect p env a) :
    (perform p env a).1 = p ∧ sentCommands (perform p env a).2.2 = [] := by
  cases a with
  | canSend c =>
    refine ⟨rfl, ?_⟩
    have hrefused : canBusSendCommand p.app.canFd c (env.write 0) ≠ .sent := h
    simp only [perform, sentCommands]
    cases hresult : canBusSendCommand p.app.canFd c (env.write 0) with
    | sent => exact absurd hresult hrefused
    | refused error => rfl
  | wiggleStart r =>
    simp only [TakesEffect, wiggleStartLocked] at h
    simp only [perform, wiggleStartLocked]
    split at h
    · exact ⟨rfl, rfl⟩
    · exact absurd rfl h
  | wiggleStop id =>
    simp only [TakesEffect, wiggleStopLocked] at h
    simp only [perform, wiggleStopLocked]
    split at h
    · exact ⟨rfl, rfl⟩
    · exact absurd rfl h
  | setValve field value => exact absurd trivial h
  | createWorker args =>
    have hthread : env.thread = false := (Bool.not_eq_true _).mp h
    simp only [perform, hthread, Bool.false_eq_true, if_false]
    exact ⟨trivial, rfl⟩
  | _ => exact absurd ha id

/-- The ids that the handlers do not look at are in range where they have an effect:
the bus refuses another id, and the table holds none. -/
theorem idInRange_of_effect {p : Process} {env : Env} {a : Act}
    (hids : p.app.wiggles.ValidIds) (h : TakesEffect p env a) : a.IdInRange := by
  cases a with
  | canSend c =>
    have hsent : canBusSendCommand p.app.canFd c (env.write 0) = .sent := h
    unfold canBusSendCommand at hsent
    split_ifs at hsent with hbad
    exact UInt32.not_lt.mp (not_or.mp hbad).2
  | wiggleStop id =>
    simp only [TakesEffect, wiggleStopLocked] at h
    split at h
    · cases h
    · rename_i i hfind
      have hi := List.find?_some hfind
      rw [Bool.and_eq_true, beq_iff_eq] at hi
      exact hi.2 ▸ hids i hi.1
  | _ => trivial

/-! ### Face values -/

/-- The numeral is one that its field takes. -/
def Numeral.InRange (n : Numeral) : Prop := 0 ≤ n.written ∧ n.written ≤ n.bound

/-- The numerals of an item are taken at face value or refused: what takes effect has
the numbers that are written, and a numeral that is out of range sends no frame and
changes nothing. -/
structure AtFaceValue (p : Process) (env : Env) (a : Act) (item : List Numeral) : Prop where
  face : TakesEffect p env a → a.fields.map Int.ofNat = item.map Numeral.written
  refused : (∃ n ∈ item, ¬ n.InRange) →
    (perform p env a).1 = p ∧ sentCommands (perform p env a).2.2 = []

/-- Every numeric step of a run has its item, and takes it at face value. -/
def FaceValue (text : CText) (tr : List (Process × Env × Act)) : Prop :=
  (markedSteps (S := serverSig) Act.Numeric tr).length ≤ (writtenItems text).length ∧
    ∀ x ∈ (markedSteps (S := serverSig) Act.Numeric tr).zip (writtenItems text),
      AtFaceValue x.1.1 x.1.2.1 x.1.2.2 x.2

/-- The numerals of each item that takes effect fit the objects they are stored in. -/
def NumeralsFit (text : CText) (tr : List (Process × Env × Act)) : Prop :=
  ∀ x ∈ (markedSteps (S := serverSig) Act.Numeric tr).zip (writtenItems text),
    TakesEffect x.1.1 x.1.2.1 x.1.2.2 → ∀ n ∈ x.2, n.Fits

/-- What is stored has the values that are written exactly when all of them fit. -/
theorem stored_eq_written_iff (item : List Numeral) :
    (item.map Numeral.stored).map Int.ofNat = item.map Numeral.written ↔
      ∀ n ∈ item, n.Fits := by
  rw [List.map_map, List.map_inj_left]
  exact forall₂_congr (fun n _ => n.stored_eq_iff)

theorem Numeral.inRange_of_fits {n : Numeral} (hfits : n.Fits) (hstored : n.stored ≤ n.bound) :
    n.InRange := by
  have hwritten := n.stored_eq_iff.mpr hfits
  unfold Numeral.InRange
  omega

theorem atFaceValue_iff {p : Process} {env : Env} {a : Act} {item : List Numeral}
    (ha : a.Numeric) (hreads : Reads a item) (hids : p.app.wiggles.ValidIds) :
    AtFaceValue p env a item ↔ (TakesEffect p env a → ∀ n ∈ item, n.Fits) := by
  constructor
  · intro h heffect
    have hface := h.face heffect
    rw [hreads.fields] at hface
    exact (stored_eq_written_iff item).mp hface
  · intro hfits
    refine ⟨?_, ?_⟩
    · intro heffect
      rw [hreads.fields]
      exact (stored_eq_written_iff item).mpr (hfits heffect)
    · rintro ⟨n, hn, hout⟩
      refine perform_without_effect ha ?_
      intro heffect
      have hrange := hreads.inRange (idInRange_of_effect hids heffect) n hn
      exact hout (Numeral.inRange_of_fits (hfits heffect n hn) hrange)

/-- The process of a server that may be in the middle of anything. -/
def Served (config : AppConfig) (canFd : Int) (p : Process) : Prop :=
  ∃ s, server.Reachable (System.initial config canFd) s ∧ s.process = p

theorem Served.validIds {config : AppConfig} {canFd : Int} {p : Process}
    (h : Served config canFd p) : p.app.wiggles.ValidIds := by
  obtain ⟨s, hs, rfl⟩ := h
  exact validIds_reachable hs

/-- A command takes its numerals at face value or refuses them exactly when those that
take effect fit their conversions, whatever the other threads, the workers and the tick
do between its actions; and so does the parser of the block list. -/
theorem numerals_at_face_value (config : AppConfig) (canFd : Int) (client : Client)
    (text : CText) (tr : List (Process × Env × Act))
    (htr : Among perform (Served config canFd) (commandHandleText config client text) tr) :
    (FaceValue (stripCanPrefix text) tr ↔ NumeralsFit (stripCanPrefix text) tr) ∧
    ∀ strdupOk blocks, firingSequenceParse strdupOk (stripCanPrefix text) = some blocks →
      ((blocks.fields.map Int.ofNat = (fireNumerals (stripCanPrefix text)).map Numeral.written ∧
          ∀ n ∈ fireNumerals (stripCanPrefix text), n.InRange) ↔
        ∀ n ∈ fireNumerals (stripCanPrefix text), n.Fits) := by
  refine ⟨?_, ?_⟩
  · obtain ⟨hlength, hzip⟩ := reads_items htr
    unfold FaceValue NumeralsFit
    rw [and_iff_right hlength]
    refine forall₂_congr (fun x hx => ?_)
    obtain ⟨hserved, hreads⟩ := hzip x hx
    have hmarked := (List.mem_filter.mp (List.of_mem_zip hx).1).2
    exact atFaceValue_iff (of_decide_eq_true hmarked) hreads hserved.validIds
  · intro strdupOk blocks hparse
    obtain ⟨-, hfields, hrange⟩ := firingSequenceParse_reads hparse
    rw [hfields, stored_eq_written_iff]
    exact and_iff_left_of_imp
      (fun hfits n hn => Numeral.inRange_of_fits (hfits n hn) (hrange n hn))

/-- A server in `HOTFIRE` with no client. -/
theorem served_hotfire : ∃ config stop wiggles active abort profile workers,
    Served ⟨false, false⟩ 3
      ⟨⟨config, stop, 3, [], .hotfire, wiggles, active, abort, profile⟩, workers⟩ := by
  let env : Env := ⟨0, fun _ => none, true, true⟩
  let own : Label := ⟨.thread (.handler 0), env⟩
  have hfacts : (server.run (System.initial ⟨false, false⟩ 3)
      (⟨.call (.handler 0) (.message 0 "STATE#HOTFIRE".toList), env⟩ ::
        List.replicate 4 own)).map (fun r => (r.1.app.state, r.1.app.clients, r.1.app.canFd)) =
      some (.hotfire, [], 3) := by decide
  obtain ⟨⟨⟨⟨app, workers⟩, threads⟩, os⟩, hrun, hs⟩ := Option.map_eq_some_iff.mp hfacts
  obtain ⟨config, stop, canFd, clients, state, wiggles, active, abort, profile⟩ := app
  obtain ⟨rfl, hs⟩ := Prod.mk.inj hs
  obtain ⟨rfl, rfl⟩ := Prod.mk.inj hs
  exact ⟨config, stop, wiggles, active, abort, profile, workers, _, ⟨_, _, hrun⟩, rfl⟩

/-- A raw command whose numerals fit. -/
theorem numerals_at_face_value_raw :
    ∃ tr, Among perform (Served ⟨false, false⟩ 3)
        (commandHandleText ⟨false, false⟩ 0 "101#2a".toList) tr ∧
      tr.length = 4 ∧ FaceValue "101#2a".toList tr := by
  obtain ⟨config, stop, wiggles, active, abort, profile, workers, hp⟩ := served_hotfire
  let p : Process := ⟨⟨config, stop, 3, [], .hotfire, wiggles, active, abort, profile⟩, workers⟩
  let env : Env := ⟨0, fun _ => none, true, true⟩
  let send : Process × Env × Act := (p, env, .canSend ⟨0x101, 0x2a, 0⟩)
  let tr : List (Process × Env × Act) :=
    [(p, env, .clientContext 0), (p, env, .allocate), (p, env, .getState), send]
  have htr : Among perform (Served ⟨false, false⟩ 3)
      (commandHandleText ⟨false, false⟩ 0 "101#2a".toList) tr := by
    refine Or.inr ⟨p, env, _, rfl, hp, ?_⟩
    refine Or.inr ⟨p, env, _, rfl, hp, ?_⟩
    refine Or.inr ⟨p, env, _, rfl, hp, ?_⟩
    exact Or.inr ⟨p, env, [], rfl, hp, Or.inl rfl⟩
  have hitems : writtenItems "101#2a".toList =
      [[idNumeral 0x101, shortNumeral 0x2a, shortNumeral 0]] := by decide
  have hfit : NumeralsFit "101#2a".toList tr := by
    intro x hx _
    have hx : x ∈ [send].zip [[idNumeral 0x101, shortNumeral 0x2a, shortNumeral 0]] := hitems ▸ hx
    rw [List.mem_singleton.mp hx]
    exact (by decide : ∀ n ∈ [idNumeral 0x101, shortNumeral 0x2a, shortNumeral 0], n.Fits)
  exact ⟨tr, htr, rfl,
    (numerals_at_face_value ⟨false, false⟩ 3 0 "101#2a".toList tr htr).1.mpr hfit⟩

/-- The id `100000101` is converted to `0x101`, and the frame goes out with that. -/
theorem huge_id_aliases :
    ∃ tr, Among perform (Served ⟨false, false⟩ 3)
        (commandHandleText ⟨false, false⟩ 0 "100000101#2a".toList) tr ∧
      ¬ FaceValue "100000101#2a".toList tr := by
  obtain ⟨config, stop, wiggles, active, abort, profile, workers, hp⟩ := served_hotfire
  let p : Process := ⟨⟨config, stop, 3, [], .hotfire, wiggles, active, abort, profile⟩, workers⟩
  let env : Env := ⟨0, fun _ => none, true, true⟩
  let send : Process × Env × Act := (p, env, .canSend ⟨0x101, 0x2a, 0⟩)
  refine ⟨[(p, env, .clientContext 0), (p, env, .allocate), (p, env, .getState), send], ?_, ?_⟩
  · refine Or.inr ⟨p, env, _, rfl, hp, ?_⟩
    refine Or.inr ⟨p, env, _, rfl, hp, ?_⟩
    refine Or.inr ⟨p, env, _, rfl, hp, ?_⟩
    exact Or.inr ⟨p, env, [], rfl, hp, Or.inl rfl⟩
  · intro h
    have hitems : writtenItems "100000101#2a".toList =
        [[idNumeral 0x100000101, shortNumeral 0x2a, shortNumeral 0]] := by decide
    have hface : ([0x101, 0x2a, 0] : List ℕ).map Int.ofNat = [0x100000101, 0x2a, 0] :=
      (h.2 (send, [idNumeral 0x100000101, shortNumeral 0x2a, shortNumeral 0])
        (hitems ▸ List.mem_singleton.mpr rfl)).face rfl
    exact absurd hface (by decide)

end WsServer
