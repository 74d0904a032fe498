import WsServer.SystemStep

/-! The mode gate: what a command handler knows of the state when it starts a wiggle or
a firing sequence, and what it owes behind the store of a state. -/
namespace WsServer
open Interaction Program

/-- What the handler knows: nothing, the state it has read or stored, or that it has
stored `HOTFIRE` and has still to stop the wiggles. -/
inductive Gate where
  | unknown
  | prechilling
  | hotfire
  | stopping
  deriving DecidableEq, Repr

def Gate.ofState : AppState → Gate
  | .prechilling => .prechilling
  | .hotfire => .hotfire

/-- Wiggles are started in `PRECHILLING` and sequences in `HOTFIRE`, and behind a store
of `HOTFIRE` nothing comes before the wiggles are stopped. -/
def modeGate : Protocol serverSig Gate where
  allowed g
    | .wiggleStart _ => g = .prechilling
    | .claimSequence => g = .hotfire
    | .wiggleStopAll sendExitValue => g = .stopping → sendExitValue = true
    | _ => g ≠ .stopping
  after g
    | .getState, state => some (.ofState state)
    | .storeState .prechilling, _ => some .prechilling
    | .storeState .hotfire, _ => some .stopping
    | .wiggleStopAll _, _ => some (if g = .stopping then .hotfire else g)
    | _, _ => some g

/-- From wherever nothing is owed, the program follows the gate and owes nothing. -/
abbrev Gated {β : Type} (p : Server β) : Prop :=
  ∀ g, g ≠ .stopping → Follows modeGate g p (fun _ g' => g' ≠ .stopping)

variable {β β' : Type}

theorem gated_pure (v : β) : Gated (pure v : Server β) := fun _ hg => hg

theorem Gated.bind {p : Server β} {f : β → Server β'} (hp : Gated p) (hf : ∀ v, Gated (f v)) :
    Gated (p >>= f) := by
  intro g hg
  exact Follows.bind (hp g hg) (fun v g' hg' => hf v g' hg')

theorem gated_plain {p : Server β} (h : Performs Act.Plain p) : Gated p := by
  intro g hg
  refine (h.follows modeGate g ?_).mono (fun _ g' hg' => hg' ▸ hg)
  intro a ha
  cases a with
  | getState => exact absurd trivial ha.2
  | storeState state => exact absurd trivial ha.2
  | wiggleStart r => exact absurd trivial ha.2
  | claimSequence => exact absurd trivial ha.1
  | wiggleStopAll sendExitValue =>
    refine ⟨fun h => absurd h hg, ?_⟩
    intro r g' hg'
    exact (Option.some.inj hg').symm.trans (if_neg hg)
  | _ => exact ⟨hg, fun _ _ hg' => (Option.some.inj hg').symm⟩

/-- In `HOTFIRE` whatever neither reads nor stores the state nor starts a wiggle may be
done. -/
theorem follows_hotfire {p : Server β} (h : Performs Act.NoMode p) :
    Follows modeGate .hotfire p (fun _ g => g = .hotfire) := by
  refine h.follows modeGate .hotfire ?_
  intro a ha
  cases a with
  | getState => exact absurd trivial ha
  | storeState state => exact absurd trivial ha
  | wiggleStart r => exact absurd trivial ha
  | claimSequence => exact ⟨rfl, fun _ _ hg' => (Option.some.inj hg').symm⟩
  | wiggleStopAll sendExitValue =>
    refine ⟨fun h => Gate.noConfusion h, ?_⟩
    intro r g' hg'
    exact (Option.some.inj hg').symm
  | _ => exact ⟨Gate.noConfusion, fun _ _ hg' => (Option.some.inj hg').symm⟩

theorem follows_prechilling {p : Server β} (h : Performs Act.IsWiggleStart p) :
    Follows modeGate .prechilling p (fun _ g => g = .prechilling) := by
  refine h.follows modeGate .prechilling ?_
  intro a ha
  cases a with
  | wiggleStart r => exact ⟨rfl, fun _ _ hg' => (Option.some.inj hg').symm⟩
  | _ => exact ha.elim

theorem gated_getState {f : AppState → Server β}
    (hpre : Follows modeGate .prechilling (f .prechilling) (fun _ g => g ≠ .stopping))
    (hhot : Follows modeGate .hotfire (f .hotfire) (fun _ g => g ≠ .stopping)) :
    Gated (act .getState >>= f) := by
  intro g hg
  refine ⟨hg, ?_⟩
  intro state g' hg'
  obtain rfl := Option.some.inj hg'
  cases state
  · exact hpre
  · exact hhot

/-! ### The handlers -/

theorem gated_appStateBroadcast : Gated appStateBroadcast := by
  have hsend (text : String) : Gated (act (.broadcast text)) :=
    gated_plain (performs_single ⟨id, id⟩)
  exact gated_getState (hsend _ .prechilling (by decide)) (hsend _ .hotfire (by decide))

theorem gated_appStateSet (state : AppState) : Gated (appStateSet state) := by
  intro g hg
  refine ⟨hg, ?_⟩
  intro changed g' hg'
  have hrest : Gated (do appStateBroadcast; pure changed : Server Bool) :=
    gated_appStateBroadcast.bind (fun _ => gated_pure changed)
  cases state with
  | prechilling =>
    obtain rfl := Option.some.inj hg'
    exact hrest .prechilling (by decide)
  | hotfire =>
    -- the store leaves the wiggles to be stopped, and that is what comes next
    obtain rfl := Option.some.inj hg'
    refine ⟨fun _ => rfl, ?_⟩
    intro stopped g'' hg''
    obtain rfl := Option.some.inj hg''
    have hlog : Performs Act.Plain (if stopped > 0 then
        act (.broadcast ("Stopped " ++ toString stopped ++ " active wiggle(s)"))
      else pure () : Server Unit) := by
      split_ifs
      · exact performs_single ⟨id, id⟩
      · trivial
    exact Follows.bind (gated_plain hlog .hotfire (by decide)) (fun _ g hg => hrest g hg)

theorem gated_handleStateCommand (client : Client) (text : CText) :
    Gated (handleStateCommand client text) := by
  have hreply (msg : String) : Gated (do sendReply client msg; pure true : Server Bool) :=
    gated_plain (performs_reply_then client msg true)
  unfold handleStateCommand
  split_ifs
  · exact gated_pure false
  · exact (gated_appStateSet _).bind (fun _ => hreply _)
  · exact (gated_appStateSet _).bind (fun _ => hreply _)
  · exact hreply _

theorem gated_handleWiggle (client : Client) (command : CText) :
    Gated (handleWiggle client command) := by
  have hreply (msg : String) : Gated (do sendReply client msg; pure true : Server Bool) :=
    gated_plain (performs_reply_then client msg true)
  unfold handleWiggle
  split_ifs
  · exact gated_pure false
  refine gated_getState ?_ ?_
  · refine Follows.bind (follows_prechilling (performs_startEntries _ 0)) ?_
    rintro ⟨started, parseError⟩ g rfl
    dsimp only
    split_ifs
    · exact hreply _ .prechilling (by decide)
    · exact hreply _ .prechilling (by decide)
  · exact hreply _ .hotfire (by decide)

theorem gated_hotfireHandlers (client : Client) (normalized : CText) :
    Gated (hotfireHandlers client normalized) := by
  refine gated_getState ?_ ?_
  · exact gated_plain (performs_sendReply client _) .prechilling (by decide)
  -- behind the gate the state is `HOTFIRE`, and no handler reads or stores it again
  have hdrop {p : Server Bool} (h : Follows modeGate .hotfire p (fun _ g => g = .hotfire))
      (f : Bool → Server Unit)
      (hf : Follows modeGate .hotfire (f false) (fun _ g => g ≠ .stopping))
      (htrue : f true = pure ()) :
      Follows modeGate .hotfire (p >>= f) (fun _ g => g ≠ .stopping) := by
    refine Follows.bind h ?_
    intro taken g hg
    subst hg
    cases taken
    · exact hf
    · rw [htrue]
      exact gated_pure () .hotfire (by decide)
  refine hdrop (follows_hotfire (performs_handleDrown client normalized)) _ ?_ rfl
  refine hdrop (follows_hotfire (performs_handleFire client normalized)) _ ?_ rfl
  refine hdrop (follows_hotfire ((performs_handleRawCan client normalized).mono
    (fun _ h => h.2))) _ ?_ rfl
  exact gated_plain (performs_sendReply client _) .hotfire (by decide)

theorem gated_copyHandlers (client : Client) (normalized : CText) :
    Gated (copyHandlers client normalized) := by
  refine Gated.bind (gated_plain (performs_single ⟨id, id⟩)) (fun copied => ?_)
  split_ifs
  · exact gated_plain (performs_sendReply client _)
  refine (gated_plain (performs_handleWiggleStop client normalized)).bind (fun stopped => ?_)
  split_ifs
  · exact gated_pure ()
  refine (gated_handleWiggle client normalized).bind (fun wiggle => ?_)
  split_ifs
  · exact gated_pure ()
  · exact gated_hotfireHandlers client normalized

theorem gated_commandHandleText (config : AppConfig) (client : Client) (text : CText) :
    Gated (commandHandleText config client text) := by
  refine (gated_plain (performs_handleReadToggle client text)).bind (fun toggled => ?_)
  dsimp only
  split_ifs
  · exact gated_pure ()
  · exact gated_plain (performs_handleTestingCommand client _)
  · exact gated_plain (performs_sendReply client _)
  refine (gated_plain (performs_handleAbort client _)).bind (fun abort => ?_)
  split_ifs
  · exact gated_pure ()
  refine (gated_handleStateCommand client _).bind (fun state => ?_)
  split_ifs
  · exact gated_pure ()
  refine (gated_plain (performs_handleSetValve client _)).bind (fun setValve => ?_)
  split_ifs
  · exact gated_pure ()
  · exact gated_copyHandlers client _

theorem gated_onConnect (client : Client) : Gated (onConnect client) := by
  refine Gated.bind (gated_plain (performs_single ⟨id, id⟩)) (fun allocated => ?_)
  split_ifs
  · exact gated_pure ()
  refine Gated.bind (gated_plain (performs_single ⟨id, id⟩)) (fun _ => ?_)
  refine Gated.bind (gated_plain (performs_single ⟨id, id⟩)) (fun _ => ?_)
  have hsend (text : String) : Gated (act (.sendText client text)) :=
    gated_plain (performs_single ⟨id, id⟩)
  exact gated_getState (hsend _ .prechilling (by decide)) (hsend _ .hotfire (by decide))

/-- The calls that a client makes through the WebSocket library. -/
def Call.FromClient : Call → Prop
  | .connect _ | .disconnect _ | .message _ _ => True
  | _ => False

instance : DecidablePred Call.FromClient
  | .connect _ | .disconnect _ | .message _ _ => isTrue trivial
  | .startSequence .. | .startDrown _ | .requestAbort | .tick => isFalse id

theorem gated_call (config : AppConfig) (c : Call) (hc : c.FromClient) :
    Gated (c.program config) := by
  have hzero {p : Server Unit} (h : Gated p) : Gated (do p; pure 0 : Server Int) :=
    h.bind (fun _ => gated_pure 0)
  cases c with
  | connect client => exact hzero (gated_onConnect client)
  | disconnect client => exact hzero (gated_plain (performs_single ⟨id, id⟩))
  | message client payload =>
    refine hzero (Gated.bind (gated_plain (performs_single ⟨id, id⟩)) (fun copied => ?_))
    split_ifs
    · exact gated_plain (performs_single ⟨id, id⟩)
    · exact Gated.bind (gated_plain (performs_single ⟨id, id⟩))
        (fun _ => gated_commandHandleText config client _)
  | _ => exact hc.elim

end WsServer
