import WsServer.Base.Part
import WsServer.ControllerRefinement
import WsServer.ModeRace

/-! Runs of the server in which its calls come one after the other, with the steps of the firing
workers in between, are runs of the controller. -/
namespace WsServer
open Interaction Program

variable {p p' : Process} {k : Controller} {client : Client}

/-! ### The registry -/

theorem Implements.connected (h : Implements p k) (client : Client) :
    p.connected client = (k.writeOnly client).isSome := by
  rw [← h.writeOnly, writeOnlyIn, Option.isSome_map]
  apply Bool.eq_iff_iff.mpr
  rw [Process.connected, List.any_eq_true, List.find?_isSome]

theorem writeOnlyIn_eq_none {ctxs : List AppClientCtx} :
    writeOnlyIn ctxs client = none ↔ client ∉ ctxs.map AppClientCtx.client := by
  rw [writeOnlyIn, Option.map_eq_none_iff, List.find?_eq_none, List.mem_map]
  constructor
  · rintro h ⟨x, hx, heq⟩
    exact h x hx (beq_iff_eq.mpr heq)
  · intro h x hx heq
    exact h ⟨x, hx, beq_iff_eq.mp heq⟩

/-- A context in a list tells of its own client, and the rest tells of the others. -/
theorem writeOnlyIn_split {before after : List AppClientCtx} {x : AppClientCtx}
    (hbefore : x.client ∉ before.map AppClientCtx.client) (c : Client) :
    writeOnlyIn (before ++ x :: after) c =
      if c = x.client then some x.writeOnly else writeOnlyIn (before ++ after) c := by
  unfold writeOnlyIn
  rw [List.find?_append, List.find?_append, List.find?_cons]
  split_ifs with hc
  · subst hc
    have hnone := writeOnlyIn_eq_none.mpr hbefore
    rw [writeOnlyIn, Option.map_eq_none_iff] at hnone
    rw [hnone, beq_self_eq_true]
    rfl
  · rw [beq_false_of_ne (Ne.symm hc)]

theorem nodup_split {before after : List AppClientCtx} {x : AppClientCtx}
    (h : ((before ++ x :: after).map AppClientCtx.client).Nodup) :
    x.client ∉ before.map AppClientCtx.client ∧
      x.client ∉ (before ++ after).map AppClientCtx.client ∧
        ((before ++ after).map AppClientCtx.client).Nodup := by
  rw [List.map_append, List.map_cons, List.nodup_middle, List.nodup_cons] at h
  rw [List.map_append]
  exact ⟨fun hmem => h.1 (List.mem_append_left _ hmem), h.1, h.2⟩

/-- Other contexts stand for another map of clients, and nothing else changes. -/
theorem Implements.setClients (h : Implements p k) {ctxs : List AppClientCtx}
    (hnodup : (ctxs.map AppClientCtx.client).Nodup) {clients : Client → Option Bool}
    (hclients : ∀ c, writeOnlyIn ctxs c = clients c) :
    Implements (p.setApp { p.app with clients := ctxs }) { k with writeOnly := clients } where
  wiggling := h.wiggling.congr rfl rfl
  firing := h.firing
  profile := h.profile
  writeOnly := funext hclients
  nodup := hnodup

/-- A toggle writes the flag of one client. -/
theorem implements_toggled (h : Implements p k) (hclient : p.connected client = true)
    (writeOnly : Bool) :
    Implements (p.setApp (p.app.setWriteOnly client writeOnly))
      { k with writeOnly := Function.update k.writeOnly client (some writeOnly) } := by
  obtain ⟨before, x, after, hctxs, rfl, hmodify⟩ := modify_first client writeOnly hclient
  have hnodup := h.nodup
  rw [hctxs] at hnodup
  have hbefore := (nodup_split hnodup).1
  unfold App.setWriteOnly
  rw [hmodify]
  apply h.setClients
  · rw [List.map_append, List.map_cons] at hnodup ⊢
    exact hnodup
  · intro c
    have hold := congrFun h.writeOnly c
    have hnew := @writeOnlyIn_split before after ⟨x.client, writeOnly⟩ hbefore c
    rw [hctxs, writeOnlyIn_split hbefore] at hold
    rw [hnew, Function.update_apply]
    split_ifs with hc
    · rfl
    · rw [if_neg hc] at hold
      exact hold

theorem implements_connected (h : Implements p k) (hclient : k.writeOnly client = none) :
    Implements (p.setApp { p.app with clients := ⟨client, false⟩ :: p.app.clients })
      { k with writeOnly := Function.update k.writeOnly client (some false) } := by
  rw [← h.writeOnly] at hclient
  apply h.setClients
  · exact List.nodup_cons.mpr ⟨writeOnlyIn_eq_none.mp hclient, h.nodup⟩
  · intro c
    have hsplit := @writeOnlyIn_split [] p.app.clients ⟨client, false⟩ List.not_mem_nil c
    rw [List.nil_append, List.nil_append, h.writeOnly] at hsplit
    rw [hsplit, Function.update_apply]

theorem implements_disconnected (h : Implements p k) (client : Client) :
    Implements (p.setApp { p.app with
        clients := p.app.clients.eraseP (fun c => c.client == client) })
      { k with writeOnly := Function.update k.writeOnly client none } := by
  -- a client without memory for its context is disconnected too
  by_cases hmem : client ∈ p.app.clients.map AppClientCtx.client
  · obtain ⟨y, hy, heq⟩ := List.mem_map.mp hmem
    obtain ⟨x, before, after, -, hx, hctxs, herase⟩ :=
      List.exists_of_eraseP (p := fun c => c.client == client) hy (beq_iff_eq.mpr heq)
    obtain rfl := beq_iff_eq.mp hx
    have hnodup := h.nodup
    rw [hctxs] at hnodup
    obtain ⟨hbefore, hnot, hrest⟩ := nodup_split hnodup
    rw [herase]
    apply h.setClients hrest
    intro c
    have hold := congrFun h.writeOnly c
    rw [hctxs, writeOnlyIn_split hbefore] at hold
    rw [Function.update_apply]
    split_ifs with hc
    · rw [hc]
      exact writeOnlyIn_eq_none.mpr hnot
    · rw [if_neg hc] at hold
      exact hold
  · have hsame : p.app.clients.eraseP (fun c => c.client == client) = p.app.clients := by
      apply List.eraseP_of_forall_not
      intro x hx heq
      exact hmem (List.mem_map.mpr ⟨x, hx, beq_iff_eq.mp heq⟩)
    rw [hsame]
    apply h.setClients h.nodup
    intro c
    rw [Function.update_apply, ← h.writeOnly]
    split_ifs with hc
    · rw [hc]
      exact writeOnlyIn_eq_none.mpr hmem
    · rfl

/-! ### The callbacks -/

theorem requestOf_other {connected : Bool} {text : CText}
    (h : ¬ (connected = true ∧ IsReadToggle text)) :
    requestOf connected text = commandRequest (stripCanPrefix text) := by
  unfold requestOf
  rw [if_neg (fun hdisable => h ⟨hdisable.1, Or.inl hdisable.2⟩),
    if_neg (fun henable => h ⟨henable.1, Or.inr henable.2⟩)]

/-- A toggle of a client that is connected is answered at once. -/
theorem serves_toggle (h : Implements p k) (hclient : p.connected client = true) {text : CText}
    (htext : IsReadToggle text) : Serves p (commandHandleText realMode client text)
      (fun luck => k.execute luck client (requestOf true text)) := by
  intro env _
  change AlwaysEnds p ((if !p.connected client then pure false else _) >>= _) _
  rw [hclient, Bool.not_true, if_neg Bool.false_ne_true]
  have hdone (writeOnly : Bool) (env₁ env₂ : Env) (msg : String) (hmsg : msg =
      if writeOnly then "Write-only mode enabled" else "Write-only mode disabled") :
      Done p (p.setApp (p.app.setWriteOnly client writeOnly))
        [(p, env, .clientContext client), (p, env₁, .setWriteOnly client writeOnly),
          (p.setApp (p.app.setWriteOnly client writeOnly), env₂, .sendText client msg)]
        (fun luck => k.execute luck client (.writeOnly writeOnly)) := by
    have htoggled := implements_toggled h hclient writeOnly
    rw [hmsg]
    exact ⟨htoggled, (htoggled.replied _).behind rfl⟩
  rcases htext with rfl | rfl
  · intro env₁ _ env₂ _
    exact hdone true env₁ env₂ _ rfl
  · intro env₁ _ env₂ _
    exact hdone false env₁ env₂ _ rfl

theorem serves_command (h : Implements p k) (text : CText) :
    Serves p (commandHandleText realMode client text)
      (fun luck => k.execute luck client (requestOf (k.writeOnly client).isSome text)) := by
  rw [← h.connected client]
  by_cases htoggle : p.connected client = true ∧ IsReadToggle text
  · rw [htoggle.1]
    exact serves_toggle h htoggle.1 htoggle.2
  · rw [requestOf_other htoggle]
    -- the look at the context comes first, and changes nothing
    have hskipped (env : Env) : AlwaysEnds p (dispatch realMode client (stripCanPrefix text))
        (fun tr _ p' => Done p p' ((p, env, .clientContext client) :: tr)
          (fun luck => k.execute luck client (commandRequest (stripCanPrefix text)))) := by
      apply (serves_dispatch h (stripCanPrefix text)).mono
      intro tr v p' hdone
      exact hdone.skip rfl rfl
    cases hclient : p.connected client with
    | false =>
      intro env _
      change AlwaysEnds p ((if !p.connected client then pure false else _) >>= fun toggled =>
        if toggled then pure () else dispatch realMode client (stripCanPrefix text)) _
      rw [hclient, Bool.not_false, if_pos rfl]
      exact hskipped env
    | true =>
      rw [commandHandleText_other realMode client (fun htext => htoggle ⟨hclient, htext⟩)]
      exact fun env _ => hskipped env

/-- A line of the log is no part of the reaction. -/
theorem Reacted.logged {es : List Event} {r : Reaction} (h : Reacted p p' es r)
    (kind text : String) : Reacted p p' (.log kind text :: es) r :=
  ⟨h.replies, h.announced, h.wiggled, h.raw, h.launched⟩

theorem serves_onMessage (h : Implements p k) (payload : CText) :
    Serves p (onMessage realMode client payload)
      (fun luck => k.call luck (.message client payload)) := by
  intro env _
  change AlwaysEnds p (if !env.alloc then _ else _) _
  cases halloc : env.alloc with
  | false =>
    have hmemory (tr : List (Process × Env × Act)) :
        k.call (luckOf ((p, env, .allocate) :: tr)) (.message client payload) =
          k.reply client "Server error: out of memory" := by
      unfold Controller.call
      rw [copies_zero, halloc]
      rfl
    intro env₁ _
    exact done_of_eq (hmemory _) h (h.replied "Server error: out of memory")
  | true =>
    intro env₁ _
    apply (serves_command h (payload.takeWhile (· != Char.ofNat 0))).mono
    intro tr v p' hdone
    have hlogged : Done p p' ((p, env₁, .log "WS_RX"
        (String.ofList (payload.takeWhile (· != Char.ofNat 0)))) :: tr)
        (fun luck => k.execute luck client (requestOf (k.writeOnly client).isSome
          (payload.takeWhile (· != Char.ofNat 0)))) :=
      ⟨hdone.implements, hdone.reacted.logged "WS_RX" _⟩
    apply hlogged.copied
    unfold Controller.call
    rw [copies_zero, halloc]
    rfl

theorem serves_onConnect (h : Implements p k) (hclient : k.writeOnly client = none) :
    Serves p (onConnect client) (fun luck => k.call luck (.connect client)) := by
  intro env _
  change AlwaysEnds p (if !env.alloc then _ else _) _
  cases halloc : env.alloc with
  | false =>
    have hmemory : k.call (luckOf [(p, env, .allocate)]) (.connect client) = (k, {}) := by
      unfold Controller.call
      rw [copies_zero, halloc]
      rfl
    exact done_of_eq hmemory h (reacted_nothing rfl)
  | true =>
    intro env₁ _ env₂ _ env₃ _ env₄ _
    have hconnected := implements_connected h hclient
    have hgreeted (tr : List (Process × Env × Act)) :
        k.call (luckOf ((p, env, .allocate) :: tr)) (.connect client) =
          ({ k with writeOnly := Function.update k.writeOnly client (some false) },
            { replies := [(client, "Hello from server"),
                (client, stateNews k.wiggling.state)] }) := by
      unfold Controller.call
      rw [copies_zero, halloc]
      rfl
    have hreplied : Reacted p (p.setApp { p.app with
        clients := ⟨client, false⟩ :: p.app.clients }) [.sendText client "Hello from server"]
        { replies := [(client, "Hello from server")] } :=
      (hconnected.replied _).behind rfl
    apply done_of_eq (hgreeted _) hconnected
    rw [← h.wiggling.state]
    exact hreplied.reply (stateNews p.app.state)

theorem serves_onDisconnect (h : Implements p k) :
    Serves p (onDisconnect client) (fun luck => k.call luck (.disconnect client)) :=
  fun _ _ => ⟨implements_disconnected h client, reacted_nothing rfl⟩

/-- The library connects a client only when it has none of its context. -/
def ClientCall.Promised (p : Process) : ClientCall → Prop
  | .connect client => p.connected client = false
  | _ => True

instance (p : Process) : DecidablePred (ClientCall.Promised p)
  | .connect client => inferInstanceAs (Decidable (p.connected client = false))
  | .disconnect _ | .message _ _ => isTrue trivial

theorem serves_returned {β : Type} {q : Server Unit} {v : β} {f : Luck → Controller × Reaction}
    (h : Serves p q f) : Serves p (q >>= fun _ => pure v) f := by
  apply always_bind.mpr
  apply h.mono
  intro tr w p' hdone
  change Done p p' (tr ++ []) f
  rw [List.append_nil]
  exact hdone

theorem serves_call (h : Implements p k) (c : ClientCall) (hc : c.Promised p) :
    Serves p (c.call.program realMode) (fun luck => k.call luck c) := by
  cases c with
  | connect client =>
    have hclient : k.writeOnly client = none := by
      rw [← Option.isNone_iff_eq_none, ← Option.not_isSome, ← h.connected client, hc]
      rfl
    exact serves_returned (serves_onConnect h hclient)
  | disconnect client => exact serves_returned (serves_onDisconnect h)
  | message client payload => exact serves_returned (serves_onMessage h payload)

/-! ### Turns -/

/-- A stretch of a run without overlaps: a whole call of a client, on some thread of the library,
a whole tick, or one step of a worker or of the stop signal. -/
inductive Turn where
  | call (n : ℕ) (c : ClientCall) (env : Env) (envs : List Env)
  | tick (env : Env)
  | worker (j : ℕ) (env : Env)
  | signal (env : Env)

/-- What is scheduled in a turn. -/
def Turn.labels : Turn → List Label
  | .call n c env envs =>
    ⟨.call (.handler n) c.call, env⟩ :: envs.map (fun env => ⟨.thread (.handler n), env⟩)
  | .tick env => [⟨.call .main .tick, env⟩, ⟨.thread .main, env⟩]
  | .worker j env => [⟨.worker j, env⟩]
  | .signal env => [⟨.signal, env⟩]

/-- The call of the turn has returned. -/
def Turn.over : Turn → System → Bool
  | .call n _ _ _, s => s.returned (.handler n)
  | _, _ => true

/-- The server, one turn after the other. -/
def turns : Machine System Turn Output where
  step s turn := (server.run s turn.labels).filter (fun x => turn.over x.1)

def Turn.Promised (s : System) : Turn → Prop
  | .call _ c _ _ => c.Promised s.process
  | _ => True

instance (s : System) : DecidablePred (Turn.Promised s)
  | .call _ c _ _ => inferInstanceAs (Decidable (c.Promised s.process))
  | .tick _ | .worker _ _ | .signal _ => isTrue trivial

abbrev TakenTurn := Machine.Taken System Turn Output

/-- The step of the controller that a turn is, with the luck of its own steps. -/
def TakenTurn.controllerStep (x : TakenTurn) : ControllerStep :=
  match x.label with
  | .call _ c _ envs => .call c (luckOf (trace (S := serverSig) perform
      (c.call.program x.state.app.config) x.state.process envs))
  | .tick env => .tick env.now
  | .worker j _ => if x.outputs = [.worker j .finishSequence] then .finished else .other
  | .signal _ => .other

def Output.fromThread : Output → Option Event
  | .event _ e => some e
  | .worker _ _ => none

/-- The outputs of the threads are the reactions. -/
structure Shown (os : List Output) (rs : List Reaction) : Prop where
  replies : (os.filterMap Output.fromThread).filterMap Event.reply = rs.flatMap Reaction.replies
  announced : (os.filterMap Output.fromThread).filterMap Event.announcement =
    rs.flatMap Reaction.announced
  wiggled : (attempted (os.filterMap Output.fromThread) : Multiset CanCommand) =
    (rs.map Reaction.wiggled).sum
  raw : (os.filterMap Output.fromThread).filterMap Event.raw = rs.flatMap Reaction.raw

/-- The turn starts where the step does, and shows its reaction. -/
structure Matches (x : TakenTurn) (y : Machine.Taken Controller ControllerStep Reaction) :
    Prop where
  state : Implements x.state.process y.state
  shown : Shown x.outputs y.outputs

/-- A thread that is alone until it returns has run its program. -/
theorem runs_of_thread {t : Thread} {v : Int} (envs : List Env) {s s' : System} {os : List Output}
    (h : server.run s (envs.map (fun env => ⟨.thread t, env⟩)) = some (s', os))
    (hv : s'.threads t = .ret v) :
    Runs (S := serverSig) perform (s.threads t) s.process
        (trace (S := serverSig) perform (s.threads t) s.process envs) v s'.process ∧
      os = (outputs (S := serverSig) perform
        (trace (S := serverSig) perform (s.threads t) s.process envs)).map (.event t) ∧
      s'.app.config = s.app.config := by
  -- over the inputs: the first one answers the action that the program begins with
  induction envs generalizing s os with
  | nil =>
    obtain ⟨rfl, rfl⟩ := Prod.mk.inj (Option.some.inj h)
    rw [hv]
    exact ⟨⟨rfl, rfl, rfl⟩, rfl, rfl⟩
  | cons env envs ih =>
    obtain ⟨u, o, os', hstep, hrest, rfl⟩ := Machine.run_cons_eq_some.mp h
    cases system_move hstep with
    | thread t a k ht =>
      have hnext : (s.afterAct t env a k).threads t = k (perform s.process env a).2.1 :=
        Function.update_self _ _ _
      obtain ⟨hruns, houtputs, hconfig⟩ := ih hrest
      rw [hnext] at hruns houtputs
      rw [ht]
      refine ⟨⟨env, _, rfl, hruns⟩, ?_, ?_⟩
      · rw [trace, outputs_cons, List.map_append]
        exact congrArg _ houtputs
      · rw [hconfig]
        exact (perform_setup s.process env a).1

theorem turns_step {s s' : System} {turn : Turn} {os : List Output}
    (h : turns.step s turn = some (s', os)) :
    server.run s turn.labels = some (s', os) ∧ turn.over s' = true :=
  Option.filter_eq_some_iff.mp h

/-- The server stands for the controller, and has created the workers that the reactions so far
have launched. -/
structure Stands (s : System) (k : Controller) (rs : List Reaction) : Prop where
  implements : Implements s.process k
  config : s.app.config = realMode
  launched : s.process.workers.map Worker.args = rs.flatMap Reaction.launched

/-- The step of the controller, its reaction, and the server behind the turn. -/
def TurnDone (x : TakenTurn) (s' : System) (k : Controller) (rs : List Reaction) : Prop :=
  ∃ k' qs, controller.step k x.controllerStep = some (k', qs) ∧ Stands s' k' (rs ++ qs) ∧
    Matches x ⟨k, x.controllerStep, qs⟩

variable {s s' : System} {rs : List Reaction}

theorem shown_reacted {es : List Event} {r : Reaction} (t : Thread) (h : Reacted p p' es r) :
    Shown (es.map (.event t)) [r] := by
  have hevents : (es.map (Output.event t)).filterMap Output.fromThread = es := by
    rw [List.filterMap_map]
    exact List.filterMap_some
  refine ⟨?_, ?_, ?_, ?_⟩
  · rw [hevents, List.flatMap_singleton, h.replies]
  · rw [hevents, List.flatMap_singleton, h.announced]
  · rw [hevents, List.map_singleton, List.sum_singleton, h.wiggled]
  · rw [hevents, List.flatMap_singleton, h.raw]

/-- Behind a reaction that has been shown. -/
theorem turnDone_reacted {x : TakenTurn} (hs : Stands x.state k rs) (t : Thread)
    {es : List Event} {y : Controller × Reaction} (hstep : k.step x.controllerStep = y)
    (houtputs : x.outputs = es.map (.event t)) (himplements : Implements s'.process y.1)
    (hreacted : Reacted x.state.process s'.process es y.2)
    (hconfig : s'.app.config = x.state.app.config) : TurnDone x s' k rs := by
  refine ⟨y.1, [y.2], ?_, ⟨himplements, hconfig.trans hs.config, ?_⟩, hs.implements, ?_⟩
  · rw [← hstep]
    rfl
  · rw [hreacted.launched, List.map_append, hs.launched, List.flatMap_append,
      List.flatMap_singleton, List.map_map]
    exact congrArg _ (List.map_id _)
  · rw [houtputs]
    exact shown_reacted t hreacted

/-- A whole call of a client. -/
theorem turnDone_call {n : ℕ} {c : ClientCall} {env : Env} {envs : List Env} {os : List Output}
    (hs : Stands s k rs) (hc : c.Promised s.process)
    (h : turns.step s (.call n c env envs) = some (s', os)) :
    TurnDone ⟨s, .call n c env envs, os⟩ s' k rs := by
  obtain ⟨hrun, hover⟩ := turns_step h
  obtain ⟨u, o, os', hcall, hrest, rfl⟩ := Machine.run_cons_eq_some.mp hrun
  obtain ⟨v, hv⟩ := returned_iff.mp hover
  cases system_move hcall with
  | call t c' w ht =>
    obtain ⟨hruns, houtputs, hconfig⟩ := runs_of_thread envs hrest hv
    have hprogram : Function.update s.threads (.handler n) (c.call.program s.app.config)
        (.handler n) = c.call.program s.app.config := Function.update_self _ _ _
    simp only [hprogram] at hruns houtputs
    have hserves := serves_call hs.implements c hc
    rw [← hs.config] at hserves
    have hdone := always_iff.mp hserves _ v _ hruns (fun _ _ => trivial)
    exact turnDone_reacted hs (.handler n) rfl houtputs hdone.implements hdone.reacted hconfig

theorem turnDone_tick {env : Env} {os : List Output} (hs : Stands s k rs)
    (h : turns.step s (.tick env) = some (s', os)) : TurnDone ⟨s, .tick env, os⟩ s' k rs := by
  obtain ⟨hrun, -⟩ := turns_step h
  obtain ⟨u, o, os', hcall, hrest, rfl⟩ := Machine.run_cons_eq_some.mp hrun
  rw [Machine.run_single_eq_some] at hrest
  cases system_move hcall with
  | call t c w ht =>
    have htick : (Function.update s.threads .main (Call.program s.app.config .tick)) .main =
        Program.act (S := serverSig) .wiggleProcess (fun _ => .ret 0) := Function.update_self _ _ _
    cases system_move hrest with
    | thread t a next ht' =>
      obtain ⟨rfl, -⟩ := Program.act.inj (ht'.symm.trans htick)
      have hmoved := moved_process hs.implements env
      exact turnDone_reacted hs .main rfl rfl hmoved.implements hmoved.reacted
        (perform_setup s.process env .wiggleProcess).1

/-- No thread of the server has done anything. -/
theorem shown_nothing (e : Option (ℕ × WorkerEvent)) :
    Shown (e.map (fun x => Output.worker x.1 x.2)).toList [{}] := by
  cases e with
  | none => exact ⟨rfl, rfl, rfl, rfl⟩
  | some x => exact ⟨rfl, rfl, rfl, rfl⟩

/-- A turn in which no thread moves. -/
theorem turnDone_quiet {x : TakenTurn} {k' : Controller} (hs : Stands x.state k rs)
    (hstep : k.step x.controllerStep = (k', {})) (e : Option (ℕ × WorkerEvent))
    (houtputs : x.outputs = (e.map (fun x => Output.worker x.1 x.2)).toList)
    (himplements : Implements s'.process k') (hconfig : s'.app.config = x.state.app.config)
    (hworkers : s'.process.workers.map Worker.args = x.state.process.workers.map Worker.args) :
    TurnDone x s' k rs := by
  refine ⟨k', [{}], ?_, ⟨himplements, hconfig.trans hs.config, ?_⟩, hs.implements, ?_⟩
  · change some ((k.step x.controllerStep).1, [(k.step x.controllerStep).2]) = _
    rw [hstep]
  · rw [hworkers, hs.launched, List.flatMap_append, List.flatMap_singleton]
    exact (List.append_nil _).symm
  · rw [houtputs]
    exact shown_nothing e

theorem turnDone_worker {j : ℕ} {env : Env} {os : List Output} (hs : Stands s k rs)
    (h : turns.step s (.worker j env) = some (s', os)) :
    TurnDone ⟨s, .worker j env, os⟩ s' k rs := by
  obtain ⟨hrun, -⟩ := turns_step h
  have hstep := Machine.run_single_eq_some.mp hrun
  cases system_move hstep with
  | worker j args pc mid e hw hm =>
    obtain ⟨hj, hget⟩ := List.getElem?_eq_some_iff.mp hw
    have hworkers : (s.process.workers.set j ⟨args, mid⟩).map Worker.args =
        s.process.workers.map Worker.args := by
      have hlt : j < (s.process.workers.map Worker.args).length := by
        rwa [List.length_map]
      have hargs : args = (s.process.workers.map Worker.args)[j] := by
        rw [List.getElem_map, hget]
      rw [List.map_set, hargs, List.set_getElem_self]
    -- the end of the sequence is all that the controller sees of a worker
    by_cases he : e = .finishSequence
    · subst he
      have hfinished : Implements ⟨s.app.finishSequence, s.process.workers.set j ⟨args, mid⟩⟩
          { k with firing := .idle } := hs.implements.setFlags rfl _
      exact turnDone_quiet hs (congrArg k.step (if_pos rfl)) (some (j, .finishSequence)) rfl
        hfinished rfl hworkers
    · have hsame : s.app.afterWorker e = s.app := by
        cases e <;> first | rfl | exact absurd rfl he
      have himplements : Implements ⟨s.app.afterWorker e, s.process.workers.set j ⟨args, mid⟩⟩
          k := by
        rw [hsame]
        exact ⟨hs.implements.wiggling, hs.implements.firing, hs.implements.profile,
          hs.implements.writeOnly, hs.implements.nodup⟩
      have hother : [Output.worker j e] ≠ [.worker j .finishSequence] := by
        intro heq
        exact he (Output.worker.inj (List.cons.inj heq).1).2
      exact turnDone_quiet hs (congrArg k.step (if_neg hother)) (some (j, e)) rfl himplements
        (congrArg App.config hsame) hworkers

theorem turnDone_signal {env : Env} {os : List Output} (hs : Stands s k rs)
    (h : turns.step s (.signal env) = some (s', os)) :
    TurnDone ⟨s, .signal env, os⟩ s' k rs := by
  obtain ⟨hrun, -⟩ := turns_step h
  have hstep := Machine.run_single_eq_some.mp hrun
  cases system_move hstep with
  | signal =>
    have hstopped : Implements (s.process.setApp { s.app with stop := true }) k :=
      ⟨hs.implements.wiggling.congr rfl rfl, hs.implements.firing, hs.implements.profile,
        hs.implements.writeOnly, hs.implements.nodup⟩
    exact turnDone_quiet hs rfl none rfl hstopped rfl rfl

/-- One turn is one step of the controller. -/
theorem turnDone {turn : Turn} {os : List Output} (hs : Stands s k rs) (hpromised : turn.Promised s)
    (h : turns.step s turn = some (s', os)) : TurnDone ⟨s, turn, os⟩ s' k rs := by
  cases turn with
  | call n c env envs => exact turnDone_call hs hpromised h
  | tick env => exact turnDone_tick hs h
  | worker j env => exact turnDone_worker hs h
  | signal env => exact turnDone_signal hs h

/-! ### Runs -/

theorem stands_initial (canFd : Int) :
    Stands (System.initial realMode canFd) Controller.initial [] where
  implements := ⟨refines_initial realMode canFd, rfl, rfl, rfl, List.nodup_nil⟩
  config := rfl
  launched := rfl

/-- The turns are steps of the server, and leave none out. -/
theorem run_of_turns {ts : List Turn} {os : List Output} (h : turns.run s ts = some (s', os)) :
    server.run s (ts.flatMap Turn.labels) = some (s', os) := by
  induction ts generalizing s os with
  | nil => exact h
  | cons turn ts ih =>
    obtain ⟨u, o, os', hturn, hrest, rfl⟩ := Machine.run_cons_eq_some.mp h
    rw [List.flatMap_cons]
    exact Machine.run_append_eq_some.mpr ⟨u, o, os', (turns_step hturn).1, ih hrest, rfl⟩

/-- A run of the server in turns is a run of the controller, with the same requests in the same
order and the luck that the environment grants: each turn shows the reaction of its step, the
workers are those that the reactions launch, and the process stands for the controller all the
time. -/
theorem server_implements_controller {canFd : Int} {ts : List Turn} {s : System}
    {os : List Output} (hrun : turns.run (System.initial realMode canFd) ts = some (s, os))
    (hpromised : turns.Along (fun s turn => turn.Promised s)
      (System.initial realMode canFd) ts) :
    server.run (System.initial realMode canFd) (ts.flatMap Turn.labels) = some (s, os) ∧
      ∃ k rs, controller.run .initial
          ((turns.history (System.initial realMode canFd) ts).map TakenTurn.controllerStep) =
            some (k, rs) ∧
        Implements s.process k ∧
        s.process.workers.map Worker.args = rs.flatMap Reaction.launched ∧
        List.Forall₂ Matches (turns.history (System.initial realMode canFd) ts)
          (controller.history .initial
            ((turns.history (System.initial realMode canFd) ts).map
              TakenTurn.controllerStep)) := by
  have hstep : ∀ s k rs turn s' os, Stands s k rs → Turn.Promised s turn →
      turns.step s turn = some (s', os) → TurnDone ⟨s, turn, os⟩ s' k rs :=
    fun _ _ _ _ _ _ hs hturn h => turnDone hs hturn h
  obtain ⟨k, rs, hcontroller, hstands, hmatches⟩ :=
    Machine.exists_run_in_step hstep (stands_initial canFd) hpromised hrun
  refine ⟨run_of_turns hrun, k, rs, hcontroller, hstands.implements, ?_, hmatches⟩
  rw [hstands.launched, List.nil_append]

/-- A client wiggles a valve, enters `HOTFIRE` and drowns the injector. -/
def drownTurns : List Turn :=
  [.call 0 (.connect 1) luckyEnv (List.replicate 5 luckyEnv),
    .call 0 (.message 1 "WIGGLE|701#10#20#0#100#0".toList) luckyEnv (List.replicate 7 luckyEnv),
    .tick { luckyEnv with now := 100 },
    .call 1 (.message 1 "STATE#HOTFIRE".toList) luckyEnv (List.replicate 9 luckyEnv),
    .call 0 (.message 1 "DROWN#8765".toList) luckyEnv (List.replicate 10 luckyEnv),
    .worker 0 luckyEnv,
    .signal luckyEnv]

theorem server_implements_controller_drown :
    ∃ s os k rs, turns.run (System.initial realMode 3) drownTurns = some (s, os) ∧
      s.process.workers.length = 1 ∧
      controller.run .initial ((turns.history (System.initial realMode 3) drownTurns).map
        TakenTurn.controllerStep) = some (k, rs) ∧
      Implements s.process k ∧
      s.process.workers.map Worker.args = rs.flatMap Reaction.launched := by
  have hworkers : ((turns.run (System.initial realMode 3) drownTurns).map
      (fun x => x.1.process.workers.length)) = some 1 := by decide +kernel
  obtain ⟨⟨s, os⟩, hrun, hone⟩ := Option.map_eq_some_iff.mp hworkers
  have hpromised : turns.Along (fun s turn => turn.Promised s) (System.initial realMode 3)
      drownTurns := by decide +kernel
  obtain ⟨-, k, rs, hcontroller, himplements, hlaunched, -⟩ :=
    server_implements_controller hrun hpromised
  exact ⟨s, os, k, rs, hrun, hone, hcontroller, himplements, hlaunched⟩

end WsServer
