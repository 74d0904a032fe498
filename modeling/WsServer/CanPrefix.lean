import WsServer.Process
import WsServer.Command

/-! The optional prefix `CAN1|`: the same command with it and without it. -/
namespace WsServer
open Interaction

/-- The client has the context that `on_connect` made for it. -/
def Process.connected (p : Process) (client : Client) : Bool :=
  p.app.clients.any (fun c => c.client == client)

def canPrefix : CText := "CAN1|".toList

/-- The commands that `handle_read_toggle` takes. -/
def IsReadToggle (text : CText) : Prop :=
  text = "READ-DISABLE".toList ∨ text = "READ-ENABLE".toList

instance : DecidablePred IsReadToggle := fun _ => inferInstanceAs (Decidable (_ ∨ _))

/-- From a state, the prefixed text does what the bare one does: the same replies and
frames and the same state behind it, whatever the environment. -/
def Transparent (config : AppConfig) (client : Client) (t : CText) (p : Process) : Prop :=
  ∀ e : ℕ → Env,
    Program.solo (S := serverSig) perform (commandHandleText config client (canPrefix ++ t)) p e =
      Program.solo (S := serverSig) perform (commandHandleText config client t) p e

theorem stripCanPrefix_prefixed (t : CText) : stripCanPrefix (canPrefix ++ t) = t := by
  have hprefix : hasPrefix "CAN1|" (canPrefix ++ t) = true := by
    rw [hasPrefix, List.isPrefixOf_iff_prefix]
    exact List.prefix_append _ _
  rw [stripCanPrefix, if_pos hprefix]
  exact List.drop_left' rfl

theorem stripCanPrefix_bare {t : CText} (ht : hasPrefix "CAN1|" t = false) :
    stripCanPrefix t = t := by
  rw [stripCanPrefix, ht, if_neg Bool.false_ne_true]

theorem not_readToggle_prefixed (t : CText) : ¬ IsReadToggle (canPrefix ++ t) := by
  have hhead : ∀ word : CText, (word.head? ≠ some 'C') → canPrefix ++ t ≠ word := by
    rintro word hword rfl
    exact hword rfl
  rintro (h | h)
  · exact hhead _ (by decide) h
  · exact hhead _ (by decide) h

/-- A text that is no read toggle is only looked at. -/
theorem handleReadToggle_other (client : Client) {text : CText} (h : ¬ IsReadToggle text) :
    handleReadToggle client text = act (.clientContext client) >>= fun _ => pure false := by
  obtain ⟨hdisable, henable⟩ := not_or.mp h
  unfold handleReadToggle
  refine congrArg (fun f => act (.clientContext client) >>= f) (funext (fun ctx => ?_))
  rw [if_neg hdisable, if_neg henable, ite_self]

/-- What `command_handle_text` does behind `handle_read_toggle`. -/
def dispatch (config : AppConfig) (client : Client) (normalized : CText) : Server Unit :=
  if config.testingMode then handleTestingCommand client normalized
  else if config.readOnly then
    sendReply client "The client is not allowed to execute commands"
  else do
    let abort ← handleAbort client normalized
    if abort then pure ()
    else do
      let stateCommand ← handleStateCommand client normalized
      if stateCommand then pure ()
      else do
        let setValve ← handleSetValve client normalized
        if setValve then pure () else copyHandlers client normalized

theorem commandHandleText_eq (config : AppConfig) (client : Client) (text : CText) :
    commandHandleText config client text = (do
      let toggled ← handleReadToggle client text
      if toggled then pure () else dispatch config client (stripCanPrefix text)) := rfl

/-- Without the toggle, a command is its dispatch behind one look at the client. -/
theorem commandHandleText_other (config : AppConfig) (client : Client) {text : CText}
    (h : ¬ IsReadToggle text) :
    commandHandleText config client text =
      act (.clientContext client) >>= fun _ => dispatch config client (stripCanPrefix text) := by
  rw [commandHandleText_eq, handleReadToggle_other client h]
  rfl

/-- Outside the read toggles the two texts are one program, so that nothing can tell
them apart in any interleaving. -/
theorem prefixed_program (config : AppConfig) (client : Client) {t : CText}
    (ht : hasPrefix "CAN1|" t = false) (h : ¬ IsReadToggle t) :
    commandHandleText config client (canPrefix ++ t) = commandHandleText config client t := by
  rw [commandHandleText_other config client (not_readToggle_prefixed t),
    commandHandleText_other config client h, stripCanPrefix_prefixed, stripCanPrefix_bare ht]

/-! ### The read toggles -/

/-- The reply to a read toggle. -/
def toggleReply (text : CText) : String :=
  if text = "READ-DISABLE".toList then "Write-only mode enabled" else "Write-only mode disabled"

/-- A client without a context cannot toggle. -/
theorem solo_unconnected (config : AppConfig) (client : Client) (text : CText) {p : Process}
    (h : p.connected client = false) (e : ℕ → Env) :
    Program.solo (S := serverSig) perform (commandHandleText config client text) p e =
      Program.solo (S := serverSig) perform (dispatch config client (stripCanPrefix text)) p
        (fun n => e (n+1)) := by
  have hask : perform p (e 0) (.clientContext client) = (p, false, []) :=
    congrArg (fun r => (p, r, [])) h
  rw [commandHandleText_eq, handleReadToggle, Program.bind_assoc, solo_ask hask]
  rfl

/-- A read toggle of a connected client is answered at once. -/
theorem solo_readToggle (config : AppConfig) (client : Client) {text : CText} {p : Process}
    (htext : IsReadToggle text) (h : p.connected client = true) (e : ℕ → Env) :
    (Program.solo (S := serverSig) perform (commandHandleText config client text) p e).2.2 =
      [.sendText client (toggleReply text)] := by
  have hask : perform p (e 0) (.clientContext client) = (p, true, []) :=
    congrArg (fun r => (p, r, [])) h
  rw [commandHandleText_eq, handleReadToggle, Program.bind_assoc, solo_ask hask]
  rcases htext with rfl | rfl <;> rfl

/-- The replies to a read toggle that no handler of read toggles has taken. -/
def refusals : List String :=
  ["TESTING invalid command", "The client is not allowed to execute commands",
    "Server error: out of memory", "System is in PRE-HOTFIRE state; command ignored.",
    "Invalid command"]

/-- Behind the handler of read toggles the texts are no commands. -/
theorem solo_dispatch_readToggle (config : AppConfig) (client : Client) {text : CText}
    (htext : IsReadToggle text) (p : Process) (e : ℕ → Env) :
    ∃ reply ∈ refusals,
      (Program.solo (S := serverSig) perform (dispatch config client text) p e).2.2 =
        [.sendText client reply] := by
  have hsend (reply : String) (e : ℕ → Env) :
      (Program.solo (S := serverSig) perform (sendReply client reply) p e).2.2 =
        [.sendText client reply] := rfl
  have hcopy (e : ℕ → Env) : perform p (e 0) .allocate = (p, (e 0).alloc, []) := rfl
  obtain ⟨readOnly, testingMode⟩ := config
  cases testingMode with
  | true =>
    -- no word of a testing command begins either text, so the copy is made for nothing
    have htesting : dispatch ⟨readOnly, true⟩ client text = act .allocate >>= fun copied =>
        if !copied then sendReply client "Server error: out of memory"
        else act .allocate >>= fun _ => sendReply client "TESTING invalid command" := by
      rcases htext with rfl | rfl <;> rfl
    rw [htesting, solo_ask (hcopy e)]
    split_ifs
    · exact ⟨_, by decide, hsend _ _⟩
    · rw [solo_ask (hcopy _)]
      exact ⟨_, by decide, hsend _ _⟩
  | false =>
    cases readOnly with
    | true => exact ⟨_, by decide, hsend "The client is not allowed to execute commands" e⟩
    | false =>
      -- no handler takes either text, and what is left is the reply of the mode
      have hreal : dispatch ⟨false, false⟩ client text = act .allocate >>= fun copied =>
          if !copied then sendReply client "Server error: out of memory"
          else act .getState >>= fun state =>
            if state = .prechilling then
              sendReply client "System is in PRE-HOTFIRE state; command ignored."
            else sendReply client "Invalid command" := by
        rcases htext with rfl | rfl <;> rfl
      have hstate (e : ℕ → Env) : perform p (e 0) .getState = (p, p.app.state, []) := rfl
      rw [hreal, solo_ask (hcopy e)]
      split_ifs
      · exact ⟨_, by decide, hsend _ _⟩
      · rw [solo_ask (hstate _)]
        split_ifs
        · exact ⟨_, by decide, hsend _ _⟩
        · exact ⟨_, by decide, hsend _ _⟩

/-! ### Transparency -/

/-- The prefix is transparent exactly where the command behind it is no read toggle, or
the client has no context that could be toggled: `handle_read_toggle` looks at the text
before the prefix is taken off. -/
theorem can_prefix_transparent (config : AppConfig) (client : Client) (t : CText)
    (ht : hasPrefix "CAN1|" t = false) (p : Process) :
    Transparent config client t p ↔ ¬ IsReadToggle t ∨ p.connected client = false := by
  constructor
  · intro h
    by_contra hc
    obtain ⟨htoggle, hconnected⟩ := not_or.mp hc
    have htoggle := not_not.mp htoggle
    have hconnected := (Bool.not_eq_false _).mp hconnected
    let e : ℕ → Env := fun _ => ⟨0, fun _ => none, true, true⟩
    have hbare := solo_readToggle config client htoggle hconnected e
    obtain ⟨reply, hreply, hprefixed⟩ := solo_dispatch_readToggle config client htoggle p
      (fun n => e (n+1))
    have hother := commandHandleText_other config client (not_readToggle_prefixed t)
    have hask : perform p (e 0) (.clientContext client) = (p, p.connected client, []) := rfl
    rw [stripCanPrefix_prefixed] at hother
    rw [← h e, hother, solo_ask hask, hprefixed] at hbare
    have hsame := (Event.sendText.inj (List.cons.inj hbare).1).2
    rw [hsame] at hreply
    rcases htoggle with rfl | rfl
    · exact absurd hreply (by decide)
    · exact absurd hreply (by decide)
  · intro h e
    by_cases htoggle : IsReadToggle t
    · have hconnected := h.resolve_left (not_not.mpr htoggle)
      rw [solo_unconnected config client _ hconnected, solo_unconnected config client _ hconnected,
        stripCanPrefix_prefixed, stripCanPrefix_bare ht]
    · rw [prefixed_program config client ht htoggle]

/-- The state behind `app_context_init` and the connection of client 0. -/
def connectedProcess : Process :=
  ⟨{ appContextInit ⟨false, false⟩ 3 with clients := [⟨0, false⟩] }, []⟩

theorem can_prefix_transparent_raw :
    Transparent ⟨false, false⟩ 0 "101#2a".toList connectedProcess :=
  (can_prefix_transparent ⟨false, false⟩ 0 "101#2a".toList (by decide) connectedProcess).mpr
    (Or.inl (by decide))

/-- `CAN1|READ-DISABLE` is ignored, where `READ-DISABLE` is carried out. -/
theorem prefixed_read_disable_differs :
    hasPrefix "CAN1|" "READ-DISABLE".toList = false ∧
      ¬ Transparent ⟨false, false⟩ 0 "READ-DISABLE".toList connectedProcess := by
  refine ⟨by decide, ?_⟩
  intro h
  have hevents := congrArg (fun x => x.2.2) (h (fun _ => ⟨0, fun _ => none, true, true⟩))
  exact absurd hevents (by decide)

end WsServer
