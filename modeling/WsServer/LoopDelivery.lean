import WsServer.LogCalls
import WsServer.MainLoop
import WsServer.Provenance

/-! What the bus reports reaches the clients, through the whole loop of `main`: the values go
out behind a time, among the announcements of other threads, and in pieces that the buffer of
`flush_can_updates` sets, and a client who reads finds them all the same. -/
namespace WsServer
open Interaction Program Printf

/-- The only broadcasts of a program are the two announcements. -/
def Act.Announces : Act → Prop
  | .broadcast text => IsAnnouncement text
  | _ => True

/-- The text that a step hands to every client who reads. -/
def LoopOutput.broadcast : LoopOutput → Option String
  | .event (.broadcast text) => some text
  | .server (.event _ (.broadcast text)) => some text
  | _ => none

/-- The entries that a client finds who reads all broadcasts. -/
def broadcastEntries (os : List LoopOutput) : List (ℕ × ℕ) :=
  (os.filterMap LoopOutput.broadcast).flatMap (fun text => readUpdate text.toList)

/-- The values that the loop takes from the bus. -/
def busValues (xs : List LoopTaken) : List (ℕ × ℕ) :=
  (xs.flatMap canCallsOf).filterMap CanCall.accepted

/-! ### Texts without a value -/

theorem hash_of_readEntry {s : CText} {entry : ℕ × ℕ} (h : readEntry s = some entry) :
    '#' ∈ s := by
  unfold readEntry at h
  split at h
  · rename_i size id size' value hscan
    obtain ⟨lead, tail, v, items, rfl, -⟩ :=
      (Scanf.scanAll_field_iff (by decide) (by decide)).mp hscan
    exact List.mem_append_right _ List.mem_cons_self
  · cases h

/-- An entry has a `'#'`, so a text without one tells a client of no value. -/
theorem readUpdate_of_notMem_hash {s : CText} (h : '#' ∉ s) : readUpdate s = [] := by
  apply List.filterMap_eq_nil_iff.mpr
  intro token htoken
  by_contra hread
  obtain ⟨entry, hentry⟩ := Option.ne_none_iff_exists'.mp hread
  exact h (Strtok.mem_of_mem_tokens htoken (hash_of_readEntry hentry))

theorem hash_notMem_announcement {text : String} (h : IsAnnouncement text) :
    '#' ∉ text.toList := by
  rcases h with ⟨state, rfl⟩ | ⟨stopped, rfl⟩
  · cases state <;> decide
  · simp only [String.toList_append, List.mem_append, not_or]
    refine ⟨⟨by decide, ?_⟩, by decide⟩
    intro hdigit
    rw [Nat.toString_eq_repr, Nat.toList_repr] at hdigit
    exact absurd (Nat.isDigit_of_mem_toDigits (by decide) (by decide) hdigit) (by decide)

theorem readUpdate_append (s t : CText) :
    readUpdate (s ++ '|' :: t) = readUpdate s ++ readUpdate t := by
  rw [readUpdate, Strtok.tokens_append, List.filterMap_append, readUpdate, readUpdate]

theorem length_time_le (time : UInt64) : (toString time.toNat).toList.length ≤ 20 := by
  rw [Nat.toString_eq_repr, Nat.toList_repr]
  apply (Nat.length_toDigits_le_iff (by decide) (by decide)).mpr
  exact lt_of_lt_of_le time.toNat_lt (by decide)

/-- The buffer for the time has room for the longest one, and the time is no entry: a client
finds what the text has, whether or not there was memory for the time. -/
theorem readUpdate_broadcastPayload (time : UInt64) (malloc : Bool) (s : CText) :
    readUpdate (broadcastPayload true time malloc (String.ofList s)).toList = readUpdate s := by
  have htime : readUpdate (toString time.toNat).toList = [] := by
    apply readUpdate_of_notMem_hash
    intro hdigit
    exact absurd (isDigit_of_mem_time hdigit) (by decide)
  have hwhole : (toString time.toNat ++ "|" ++ String.ofList s).toList =
      (toString time.toNat).toList ++ '|' :: s := by
    simp only [String.toList_append, String.toList_ofList, List.append_assoc]
    rfl
  have hfits : ((toString time.toNat).toList ++ '|' :: s).length ≤
      (String.ofList s).length + 32 - 1 := by
    have hdigits := length_time_le time
    rw [List.length_append, List.length_cons, String.length_ofList]
    omega
  rw [broadcastPayload, if_pos rfl]
  dsimp only
  split_ifs
  · rw [truncated, String.toList_ofList, hwhole, List.take_of_length_le hfits, readUpdate_append,
      htime, List.nil_append]
  · rw [String.toList_ofList]

/-! ### The order of the values -/

/-- The entries for an id. -/
def entriesFor (id : Fin appCanIdCount) (es : List (ℕ × ℕ)) : List (ℕ × ℕ) :=
  es.filter (fun e => e.1 = id.val)

/-- What an update says of an id. -/
def CanTable.entry (t : CanTable) (id : Fin appCanIdCount) : ℕ × ℕ :=
  (id.val, (UInt16.ofNat (t.canValues id).toNat).toNat)

/-- What is still to be sent for an id. -/
def CanTable.unsent (t : CanTable) (id : Fin appCanIdCount) : List (ℕ × ℕ) :=
  if t.canDirty id then [t.entry id] else []

theorem entriesFor_append (id : Fin appCanIdCount) (es es' : List (ℕ × ℕ)) :
    entriesFor id (es ++ es') = entriesFor id es ++ entriesFor id es' :=
  List.filter_append es es'

theorem entriesFor_map (t : CanTable) (id : Fin appCanIdCount)
    {ids : List (Fin appCanIdCount)} (hids : ids.Nodup) :
    entriesFor id (ids.map t.entry) = if id ∈ ids then [t.entry id] else [] := by
  induction ids with
  | nil => rfl
  | cons id' ids ih =>
    obtain ⟨hid', hrest⟩ := List.nodup_cons.mp hids
    rw [List.map_cons, entriesFor]
    by_cases hsame : id' = id
    · subst hsame
      have hnone := ih hrest
      rw [if_neg hid', entriesFor] at hnone
      rw [List.filter_cons_of_pos (by simp [CanTable.entry]), hnone, if_pos List.mem_cons_self]
    · have hval : id'.val ≠ id.val := fun heq => hsame (Fin.ext heq)
      have hnext := ih hrest
      rw [entriesFor] at hnext
      rw [List.filter_cons_of_neg (by simpa [CanTable.entry] using hval), hnext]
      simp [Ne.symm hsame]

/-- A frame is behind all values of its id, and only the last of those that came since the
last update is still to be sent. -/
theorem sublist_storeRx {t : CanTable} {sent received : List (ℕ × ℕ)} {id : Fin appCanIdCount}
    (h : (sent ++ t.unsent id).Sublist (entriesFor id received)) (frame : CanFrame) :
    (sent ++ (canBusStoreRx t frame).1.unsent id).Sublist
      (entriesFor id (received ++ (CanCall.storeRx frame).accepted.toList)) := by
  rw [entriesFor_append]
  cases hflag : frame.flagged with
  | true =>
    rw [canBusStoreRx_flagged hflag]
    exact h.trans (List.sublist_append_left _ _)
  | false =>
    have hstore : (canBusStoreRx t frame).1 =
        ⟨writeAt t.canValues frame.rxId.toNat frame.rxValue.toNat,
          writeAt t.canDirty frame.rxId.toNat true⟩ := by
      rw [canBusStoreRx, hflag, if_neg Bool.false_ne_true]
    have haccepted : (CanCall.storeRx frame).accepted.toList =
        [(frame.rxId.toNat, frame.rxValue.toNat)] := by
      simp only [CanCall.accepted, hflag, Bool.false_eq_true, if_false, Option.toList_some]
    rw [hstore, haccepted]
    by_cases hid : id.val = frame.rxId.toNat
    · have hnew : entriesFor id [(frame.rxId.toNat, frame.rxValue.toNat)] =
          [(id.val, frame.rxValue.toNat)] := by
        simp [entriesFor, hid]
      have hunsent : CanTable.unsent
          ⟨writeAt t.canValues frame.rxId.toNat frame.rxValue.toNat,
            writeAt t.canDirty frame.rxId.toNat true⟩ id = [(id.val, frame.rxValue.toNat)] := by
        simp [CanTable.unsent, CanTable.entry, writeAt, hid]
      rw [hnew, hunsent]
      exact ((List.sublist_append_left _ _).trans h).append_right _
    · have hold : CanTable.unsent
          ⟨writeAt t.canValues frame.rxId.toNat frame.rxValue.toNat,
            writeAt t.canDirty frame.rxId.toNat true⟩ id = t.unsent id := by
        simp [CanTable.unsent, CanTable.entry, writeAt, hid]
      rw [hold]
      exact h.trans (List.sublist_append_left _ _)

/-- A call of the formatter sends what was to be sent, for the ids that it has room for. -/
theorem unsent_formatDirty (t : CanTable) (buffer : ℕ → Char) {capacity : ℕ}
    (hcapacity : 10 ≤ capacity) (id : Fin appCanIdCount) :
    entriesFor id (readUpdate (cString capacity (canBusFormatDirty t buffer capacity).2.1)) ++
      (canBusFormatDirty t buffer capacity).1.unsent id = t.unsent id := by
  obtain ⟨hvalues, hdirty, htext, -⟩ := canBusFormatDirty_returns t buffer hcapacity
  generalize (canBusFormatDirty t buffer capacity).1 = t' at hvalues hdirty htext ⊢
  have hnodup : (clearedIds t t').Nodup := (List.nodup_finRange appCanIdCount).filter _
  have hentry : t'.entry id = t.entry id := by rw [CanTable.entry, CanTable.entry, hvalues]
  have hsent := entriesFor_map t id hnodup
  have hread : readUpdate (joinedEntries t.canValues (clearedIds t t')) =
      (clearedIds t t').map t.entry := readUpdate_joinedEntries t.canValues (clearedIds t t')
  rw [htext, hread]
  simp only [CanTable.unsent, hentry, hdirty id]
  by_cases hid : id ∈ clearedIds t t'
  · have hset : t.canDirty id = true := (Bool.and_eq_true_iff.mp (List.mem_filter.mp hid).2).1
    rw [if_pos hid] at hsent
    simpa [hid, hset] using hsent
  · rw [if_neg hid] at hsent
    simpa [hid] using hsent

/-- The values that the updates carry for an id are ones that came in for it, in their order. -/
theorem updates_in_order {t : CanTable} {calls : List CanCall} {us : List CanUpdate}
    (hroom : ∀ c ∈ calls, c.HasRoom) (hrun : canCalls.run .init calls = some (t, us))
    (id : Fin appCanIdCount) :
    (entriesFor id (us.flatMap (fun u => readUpdate u.text)) ++ t.unsent id).Sublist
      (entriesFor id (calls.filterMap CanCall.accepted)) := by
  induction calls using List.reverseRecOn generalizing t us with
  | nil =>
    obtain ⟨rfl, rfl⟩ := Prod.mk.inj (Option.some.inj hrun)
    exact List.Sublist.refl _
  | append_singleton calls call ih =>
    obtain ⟨u, us', o, hfirst, hlast, rfl⟩ := Machine.run_append_eq_some.mp hrun
    have hinv := ih (fun c hc => hroom c (List.mem_append_left _ hc)) hfirst
    have hcall := hroom call (List.mem_append_right _ (List.mem_singleton_self call))
    have hstep := Machine.run_single_eq_some.mp hlast
    rw [List.filterMap_append]
    cases call with
    | storeRx frame =>
      obtain ⟨rfl, rfl⟩ := Prod.mk.inj (Option.some.inj hstep)
      have hone : [CanCall.storeRx frame].filterMap CanCall.accepted =
          (CanCall.storeRx frame).accepted.toList := by
        cases haccepted : (CanCall.storeRx frame).accepted <;> simp [haccepted]
      rw [List.append_nil, hone]
      exact sublist_storeRx hinv frame
    | formatDirty buffer capacity =>
      obtain ⟨rfl, rfl⟩ := Prod.mk.inj (Option.some.inj hstep)
      rw [List.flatMap_append, entriesFor_append, List.append_assoc, List.flatMap_singleton,
        unsent_formatDirty u buffer hcall id]
      exact hinv.trans (by simp [entriesFor, CanCall.accepted])

/-! ### One step -/

theorem announces_call (config : AppConfig) (c : Call) :
    Performs Act.Announces (c.program config) := by
  apply Guided.performs
  refine (within_call config c).mono (fun _ _ h => h) ?_
  intro a ha
  cases a with
  | broadcast text => exact ha
  | _ => trivial

/-- What holds of the loop in all its states: its socket is the one that it began with, and
its threads announce nothing else. -/
structure Announcing (fd : Int) (s : MainLoop) : Prop where
  canFd : s.app.canFd = fd
  threads : ∀ t, Performs Act.Announces (s.system.threads t)

theorem announcing_initial (config : AppConfig) (canFd : Int) (start : UInt64) :
    Announcing canFd (.initial config canFd start) where
  canFd := rfl
  threads _ := trivial

/-- A text that the server hands to all readers is an announcement. -/
theorem server_announces {s s' : System} {l : Label} {os : List Output}
    (hs : ∀ t, Performs Act.Announces (s.threads t)) (h : server.step s l = some (s', os)) :
    (∀ t, Performs Act.Announces (s'.threads t)) ∧
      ∀ t text, .event t (.broadcast text) ∈ os → IsAnnouncement text := by
  obtain ⟨actor, env⟩ := l
  have hmove := system_move h
  refine ⟨hmove.threads (P := fun _ => Performs Act.Announces) hs
    (fun _ c _ => announces_call _ c) (fun _ _ _ hp => hp.2 _), ?_⟩
  intro t text hmem
  cases hmove with
  | call t' c v hidle => cases hmem
  | thread t' a k hk =>
    have hown := hs t'
    rw [hk] at hown
    have hutters := (utterance_of_event hmem id).2
    cases a with
    | broadcast text' =>
      obtain rfl := Event.broadcast.inj (Option.some.inj hutters)
      exact hown.1
    | _ => cases hutters
  | worker k args pc mid e hw hm => cases List.mem_singleton.mp hmem
  | signal => cases hmem

theorem server_run_announces {s s' : System} {ls : List Label} {os : List Output}
    (hs : ∀ t, Performs Act.Announces (s.threads t)) (h : server.run s ls = some (s', os)) :
    (∀ t, Performs Act.Announces (s'.threads t)) ∧
      ∀ t text, .event t (.broadcast text) ∈ os → IsAnnouncement text := by
  induction ls generalizing s os with
  | nil =>
    obtain ⟨rfl, rfl⟩ := Prod.mk.inj (Option.some.inj h)
    exact ⟨hs, fun _ _ hmem => nomatch hmem⟩
  | cons l ls ih =>
    obtain ⟨t, o, os', hstep, hrest, rfl⟩ := Machine.run_cons_eq_some.mp h
    obtain ⟨hthreads, hfirst⟩ := server_announces hs hstep
    obtain ⟨hlast, hbehind⟩ := ih hthreads hrest
    refine ⟨hlast, fun t text hmem => ?_⟩
    rcases List.mem_append.mp hmem with hmem | hmem
    · exact hfirst t text hmem
    · exact hbehind t text hmem

theorem broadcastEntries_append (os os' : List LoopOutput) :
    broadcastEntries (os ++ os') = broadcastEntries os ++ broadcastEntries os' := by
  rw [broadcastEntries, List.filterMap_append, List.flatMap_append, broadcastEntries,
    broadcastEntries]

theorem broadcastEntries_server {os : List Output}
    (h : ∀ t text, .event t (.broadcast text) ∈ os → IsAnnouncement text) :
    broadcastEntries (os.map .server) = [] := by
  apply List.flatMap_eq_nil_iff.mpr
  intro text htext
  obtain ⟨o, ho, hbroadcast⟩ := List.mem_filterMap.mp htext
  obtain ⟨o', ho', rfl⟩ := List.mem_map.mp ho
  cases o' with
  | worker k e => cases hbroadcast
  | event t e =>
    cases e with
    | broadcast text' =>
      obtain rfl := Option.some.inj hbroadcast
      exact readUpdate_of_notMem_hash (hash_notMem_announcement (h t _ ho'))
    | _ => cases hbroadcast

theorem length_flushedUpdate (t : CanTable) (buffer : ℕ → Char) :
    (flushedUpdate t buffer).length = (flushedUpdate t buffer).text.length := by
  simp only [flushedUpdate]
  exact (canBusFormatDirty_returns t buffer (by decide : 10 ≤ flushCapacity)).2.2.2

/-- The flush hands on what it got of the table. -/
theorem broadcastEntries_flush (input : LoopInput) (t : CanTable) :
    broadcastEntries ((flushPayload input (flushedUpdate t input.buffer)).toList.flatMap
      fun payload => [.event (.log "WS_TX" payload), .event (.broadcast payload)]) =
      readUpdate (flushedUpdate t input.buffer).text := by
  unfold flushPayload
  split_ifs with hpos
  · exact (List.append_nil _).trans (readUpdate_broadcastPayload _ _ _)
  · have hnil : (flushedUpdate t input.buffer).text = [] := by
      apply List.length_eq_zero_iff.mp
      rw [← length_flushedUpdate]
      exact Nat.eq_zero_of_not_pos hpos
    rw [hnil]
    rfl

/-- A step keeps to its announcements, and only a flush tells a client of values: of those
that it got of the table. -/
theorem announcing_step {fuel : ℕ} {fd : Int} {s s' : MainLoop} {l : LoopLabel}
    {os : List LoopOutput} (hs : Announcing fd s) (h : (mainLoop fuel).step s l = some (s', os)) :
    Announcing fd s' ∧
      broadcastEntries os = (flushesOf ⟨s, l, os⟩).flatMap (fun x => readUpdate x.2.text) := by
  have hfd := loop_canFd s l (s', os) hs.canFd h
  cases loop_move h with
  | other l t os' hmover hstep =>
    obtain ⟨hthreads, hannounced⟩ := server_announces hs.threads hstep
    exact ⟨⟨hfd, hthreads⟩, broadcastEntries_server hannounced⟩
  | wiggles input rest t os' hpc hrun =>
    obtain ⟨hthreads, hannounced⟩ := server_run_announces hs.threads hrun
    refine ⟨⟨hfd, hthreads⟩, ?_⟩
    simp only [flushesOf, hpc, List.flatMap_nil]
    exact broadcastEntries_server hannounced
  | flush input rest hpc =>
    refine ⟨⟨hfd, hs.threads⟩, ?_⟩
    simp only [flushesOf, hpc, List.flatMap_singleton]
    exact broadcastEntries_flush input s.table
  | frame input rest frame hpc hread =>
    refine ⟨⟨hfd, hs.threads⟩, ?_⟩
    simp only [flushesOf, hpc, List.flatMap_nil]
    rw [canBusStoreRx]
    split_ifs <;> rfl
  | _ =>
    refine ⟨⟨hfd, hs.threads⟩, ?_⟩
    simp [flushesOf, *, broadcastEntries, List.filterMap_map, Function.comp_def,
      LoopOutput.broadcast]

/-! ### Runs -/

theorem hasRoom_of_mem_canCallsOf {x : LoopTaken} {c : CanCall} (h : c ∈ canCallsOf x) :
    c.HasRoom := by
  unfold canCallsOf at h
  split at h
  · split at h
    · rw [List.mem_singleton.mp h]
      trivial
    · cases h
  · rw [List.mem_singleton.mp h]
    exact (by decide : 10 ≤ flushCapacity)
  · cases h

/-- In a run clients are told what the table's part of it puts out. -/
theorem announcing_run {fuel : ℕ} {fd : Int} {s s' : MainLoop} {ls : List LoopLabel}
    {os : List LoopOutput} (hs : Announcing fd s)
    (h : (mainLoop fuel).run s ls = some (s', os)) :
    Announcing fd s' ∧ broadcastEntries os = (((mainLoop fuel).history s ls).flatMap
      (canPart fuel fd).outputs).flatMap (fun u => readUpdate u.text) := by
  induction ls generalizing s os with
  | nil =>
    obtain ⟨rfl, rfl⟩ := Prod.mk.inj (Option.some.inj h)
    exact ⟨hs, rfl⟩
  | cons l ls ih =>
    obtain ⟨t, o, os', hstep, hrest, rfl⟩ := Machine.run_cons_eq_some.mp h
    obtain ⟨ht, hfirst⟩ := announcing_step hs hstep
    obtain ⟨hlast, hbehind⟩ := ih ht hrest
    have hone : (flushesOf ⟨s, l, o⟩).flatMap (fun x => readUpdate x.2.text) =
        ((canPart fuel fd).outputs ⟨s, l, o⟩).flatMap (fun u => readUpdate u.text) := by
      rw [canPart, List.flatMap_map]
    rw [broadcastEntries_append, Machine.history_cons hstep, List.flatMap_cons,
      List.flatMap_append, hfirst, hbehind, hone]
    exact ⟨hlast, rfl⟩

/-- The calls on the table in a run of the loop, with what they put out. -/
theorem canPart_run {fuel : ℕ} {fd : Int} {s s' : MainLoop} {ls : List LoopLabel}
    {os : List LoopOutput} (hs : Announcing fd s)
    (h : (mainLoop fuel).run s ls = some (s', os)) :
    ∃ us, canCalls.run s.table (((mainLoop fuel).history s ls).flatMap canCallsOf) =
        some (s'.table, us) ∧
      broadcastEntries os = us.flatMap (fun u => readUpdate u.text) :=
  ⟨_, (canPart fuel fd).run loop_canFd hs.canFd h, (announcing_run hs h).2⟩

theorem hasRoom_history {fuel : ℕ} {s : MainLoop} {ls : List LoopLabel} :
    ∀ c ∈ ((mainLoop fuel).history s ls).flatMap canCallsOf, c.HasRoom := by
  intro c hc
  obtain ⟨x, -, hx⟩ := List.mem_flatMap.mp hc
  exact hasRoom_of_mem_canCallsOf hx

/-- Whatever the threads, the workers and the timer do in between, and whatever else is
announced: what a client who reads finds for an id are values that came in for it, in their
order, and for an id that is not pending the last of them. -/
theorem bus_reaches_readers {fuel : ℕ} {config : AppConfig} {canFd : Int} {start : UInt64}
    {ls : List LoopLabel} {s : MainLoop} {os : List LoopOutput}
    (hrun : (mainLoop fuel).run (.initial config canFd start) ls = some (s, os))
    (id : Fin appCanIdCount) :
    let received := busValues ((mainLoop fuel).history (.initial config canFd start) ls)
    (entriesFor id (broadcastEntries os)).Sublist (entriesFor id received) ∧
      s.table.cell id = latest received id.val ∧
      (s.table.canDirty id = false →
        latest (broadcastEntries os) id.val = latest received id.val) ∧
      (s.table.canDirty id = true → latest received id.val ≠ none) := by
  intro received
  obtain ⟨us, hpart, htold⟩ := canPart_run (announcing_initial config canFd start) hrun
  have hinv := canInvariant_run hasRoom_history hpart
  have horder := updates_in_order hasRoom_history hpart id
  rw [← htold] at horder
  refine ⟨(List.sublist_append_left _ _).trans horder, hinv.values id, ?_, ?_⟩
  · intro hclean
    have hview := hinv.clean id hclean
    rw [canView, ← htold] at hview
    exact hview.trans (hinv.values id)
  · intro hdirty
    have hsome := hinv.dirty id hdirty
    rw [hinv.values id] at hsome
    exact hsome

/-- What the system gives to each step of a short run. -/
def quietInput (epoll : EpollResult) (read : CanRead) : LoopInput where
  env := luckyEnv
  epoll := epoll
  read := read
  timer := ⟨some ⟨0, 0⟩, none⟩
  buffer _ := nul
  realtimeNs := 7
  malloc := true

/-- A wait, a frame and no other, and the tick behind it. -/
def oneFrameLabels : List LoopLabel :=
  let idle := LoopLabel.main (quietInput (.ready []) (.failed wouldBlock))
  [.main (quietInput (.ready [.canSocket, .timer]) (.failed wouldBlock)),
    .main (quietInput (.ready []) (.whole oneFrame)), idle, idle, idle, idle]

/-- The one frame is handed on by the one call behind it. -/
theorem oneFrame_sent {capacity : ℕ} (hcapacity : 10 ≤ capacity) {t : CanTable}
    {us : List CanUpdate} (h : canCalls.run .init
      [.storeRx oneFrame, .formatDirty (fun _ => nul) capacity] = some (t, us)) :
    t.canDirty ⟨0x101, by decide⟩ = false := by
  have hdirty : ((canBusStoreRx .init oneFrame).1).dirtyIds = [⟨0x101, by decide⟩] := by
    decide +kernel
  have hstored : ((canBusStoreRx .init oneFrame).1).Stored := by
    intro id hid
    rw [← mem_dirtyIds, hdirty, List.mem_singleton] at hid
    rw [hid]
    decide
  have hrest := (canBusFormatDirty_handsOn hstored (fun _ => nul) hcapacity).rest
  have hroom : 0 < entryRoom capacity := Nat.div_pos (by omega) (by decide)
  rw [hdirty, List.drop_eq_nil_of_le (Nat.succ_le_of_lt hroom)] at hrest
  obtain ⟨rfl, -⟩ := Prod.mk.inj (Option.some.inj h)
  by_contra hset
  have hmem := mem_dirtyIds.mpr ((Bool.not_eq_false _).mp hset)
  rw [hrest] at hmem
  cases hmem

theorem bus_reaches_readers_one_frame : ∃ s os,
    (mainLoop 1).run (.initial ⟨false, false⟩ 3 0) oneFrameLabels = some (s, os) ∧
      latest (broadcastEntries os) 0x101 = some 0x2a := by
  have hruns : ((mainLoop 1).run (.initial ⟨false, false⟩ 3 0) oneFrameLabels).isSome = true := by
    decide
  have hreceived : busValues ((mainLoop 1).history (.initial ⟨false, false⟩ 3 0) oneFrameLabels) =
      [(0x101, 0x2a)] := by decide
  obtain ⟨⟨s, os⟩, hrun⟩ := Option.isSome_iff_exists.mp hruns
  have hsent : s.table.canDirty ⟨0x101, by decide⟩ = false :=
    oneFrame_sent (by decide) ((canPart 1 3).run loop_canFd rfl hrun)
  have htold := (bus_reaches_readers hrun ⟨0x101, by decide⟩).2.2.1 hsent
  rw [hreceived] at htold
  exact ⟨s, os, hrun, htold⟩

end WsServer
