import WsServer.Provenance

/-! A server that is read-only or in testing mode stays as it began, whatever its clients send
and in whatever order its threads go on: no frame, no wiggle, no sequence, no other state. -/
namespace WsServer
open Interaction Program

/-- The attempts to send a frame. -/
def Output.IsFrame : Output → Prop
  | .event _ (.canTx _ _ _) => True
  | .worker _ (.attempt _ _ _) => True
  | _ => False

/-- What the threads of such a server may be about to do. -/
def outerKinds : List ActKind := [.chat, .registry, .abort, .getState, .tick]

/-- As `app_context_init` leaves the context, but for the clients, an abort that is requested
and the stop flag; and no thread is about to change that. -/
structure Silent (config : AppConfig) (s : System) : Prop where
  mode : s.app.config = config
  quiet : Quiet s.app.wiggles
  state : s.app.state = .prechilling
  profile : s.app.valveProfile = profileDefaults
  inactive : s.app.sequenceActive = false
  workers : s.process.workers = []
  threads : ∀ t, Kinds outerKinds (s.threads t)

/-! ### The calls -/

/-- The calls that clients and `main` make. -/
def Call.Outer (c : Call) : Prop := c.FromClient ∨ c.IsTick ∨ c = .requestAbort

theorem kinds_unreal_commandHandleText {config : AppConfig} (hmode : config.real = false)
    (client : Client) (text : CText) :
    Kinds [.chat] (commandHandleText config client text) := by
  refine (kinds_handleReadToggle client text).bind (fun toggled => ?_)
  dsimp only
  split_ifs with htoggled htesting hreadOnly
  · exact kinds_pure ()
  · exact kinds_handleTestingCommand client _
  · exact kinds_sendReply (by decide) client _
  · rw [AppConfig.real, (Bool.not_eq_true _).mp htesting, (Bool.not_eq_true _).mp hreadOnly] at hmode
    cases hmode

theorem silent_call {config : AppConfig} (hmode : config.real = false) {c : Call}
    (hc : c.Outer) : Kinds outerKinds (c.program config) := by
  cases c with
  | connect client =>
    exact ((kinds_onConnect client).mono (by decide)).bind (fun _ => kinds_pure 0)
  | disconnect client => exact kinds_then .registry rfl (by decide) (fun _ => kinds_pure 0)
  | message client payload =>
    have hmessage : Kinds outerKinds (onMessage config client payload) := by
      refine kinds_then .chat rfl (by decide) (fun copied => ?_)
      split_ifs
      · exact kinds_single .chat rfl (by decide)
      · exact kinds_then .chat rfl (by decide)
          (fun _ => (kinds_unreal_commandHandleText hmode client _).mono (by decide))
    exact hmessage.bind (fun _ => kinds_pure 0)
  | startSequence client blocks started completed failed =>
    rcases hc with h | h | h
    · exact h.elim
    · exact h.elim
    · cases h
  | startDrown client =>
    rcases hc with h | h | h
    · exact h.elim
    · exact h.elim
    · cases h
  | requestAbort => exact kinds_then .abort rfl (by decide) (fun _ => kinds_pure 0)
  | tick => exact kinds_then .tick rfl (by decide) (fun _ => kinds_pure 0)

/-! ### One step -/

/-- On a table without a wiggle such an action changes nothing of that, and sends no frame. -/
theorem perform_silent {p : Process} (hquiet : Quiet p.app.wiggles) (env : Env) {a : Act}
    (ha : a.kind ∈ outerKinds) :
    Quiet (perform p env a).1.app.wiggles ∧ (perform p env a).1.app.state = p.app.state ∧
      ∀ site cmd result, .canTx site cmd result ∉ (perform p env a).2.2 := by
  have hframe (site : CanSite) (cmd : CanCommand) (result : SendResult)
      (h : .canTx site cmd result ∈ (perform p env a).2.2) : False := by
    rcases canTx_perform h with rfl | ⟨r, rfl, -⟩ | ⟨i, hactive, -⟩
    · exact absurd (show ActKind.can ∈ outerKinds from ha) (by decide)
    · exact absurd (show ActKind.start ∈ outerKinds from ha) (by decide)
    · rw [hquiet i] at hactive
      cases hactive
  have hkeeps : Quiet (perform p env a).1.app.wiggles ∧
      (perform p env a).1.app.state = p.app.state := by
    by_cases htick : a = .wiggleProcess
    · subst htick
      obtain ⟨t, ht⟩ := wiggleProcess_frame p.app env
      have hq := (quiet_wiggleProcess env hquiet).1
      simp only [perform, ht, Process.setApp] at hq ⊢
      exact ⟨hq, trivial⟩
    · revert ha htick
      fun_cases Act.kind a <;> first
        | exact fun _ _ => ⟨hquiet, rfl⟩
        | exact fun ha => absurd ha (by decide)
        | exact fun _ htick => absurd rfl htick
  exact ⟨hkeeps.1, hkeeps.2, hframe⟩

theorem silent_initial (config : AppConfig) (canFd : Int) :
    Silent config (System.initial config canFd) where
  mode := rfl
  quiet _ := rfl
  state := rfl
  profile := rfl
  inactive := rfl
  workers := rfl
  threads _ := trivial

/-- A step keeps the server as it is, and sends no frame. -/
theorem silent_step {config : AppConfig} (hmode : config.real = false) {s s' : System}
    {l : Label} {os : List Output} (hs : Silent config s) (hl : ∀ c, l.call = some c → c.Outer)
    (h : server.step s l = some (s', os)) : Silent config s' ∧ ∀ o ∈ os, ¬ o.IsFrame := by
  have hmove := system_move h
  obtain ⟨actor, env⟩ := l
  have hthreads := hmove.threads (P := fun _ => Kinds outerKinds) hs.threads
    (fun t c hactor => by
      rw [hs.mode]
      exact silent_call hmode (hl c (by rw [Label.call, hactor])))
    (fun _ _ _ hp => hp.2 _)
  cases hmove with
  | call t c v hidle =>
    exact ⟨⟨hs.mode, hs.quiet, hs.state, hs.profile, hs.inactive, hs.workers, hthreads⟩,
      fun _ ho => nomatch ho⟩
  | thread t a k hk =>
    have ha : a.kind ∈ outerKinds := by
      have hown := hs.threads t
      rw [hk] at hown
      exact hown.1
    obtain ⟨hquiet, hstate, hframe⟩ := perform_silent hs.quiet env ha
    have hsame := perform_sameSequence s.process env a
      (noSequence_of_kind (fun heq => absurd (heq ▸ ha) (by decide)))
    have hnoValve : ∀ field value, a ≠ .setValve field value := by
      rintro field value rfl
      exact absurd (show ActKind.valve ∈ outerKinds from ha) (by decide)
    have hprofile := perform_valveProfile s.process env a hnoValve
    refine ⟨⟨hsame.config.trans hs.mode, hquiet, hstate.trans hs.state,
      hprofile.trans hs.profile, hsame.active.trans hs.inactive,
      hsame.workers.trans hs.workers, hthreads⟩, ?_⟩
    intro o ho
    obtain ⟨e, he, rfl⟩ := List.mem_map.mp ho
    cases e with
    | canTx site cmd result => exact fun _ => hframe site cmd result he
    | _ => exact id
  | worker k args pc mid e hw hm =>
    rw [hs.workers] at hw
    cases hw
  | signal =>
    exact ⟨⟨hs.mode, hs.quiet, hs.state, hs.profile, hs.inactive, hs.workers, hthreads⟩,
      fun _ ho => nomatch ho⟩

/-! ### Runs -/

theorem silent_run {config : AppConfig} (hmode : config.real = false) {s s' : System}
    {ls : List Label} {os : List Output} (hs : Silent config s)
    (hcalls : ∀ c ∈ callsMade ls, c.Outer) (h : server.run s ls = some (s', os)) :
    Silent config s' ∧ ∀ o ∈ os, ¬ o.IsFrame := by
  induction ls generalizing s os with
  | nil =>
    obtain ⟨rfl, rfl⟩ := Prod.mk.inj (Option.some.inj h)
    exact ⟨hs, fun _ ho => nomatch ho⟩
  | cons l ls ih =>
    obtain ⟨t, o, os', ht, hrest, rfl⟩ := Machine.run_cons_eq_some.mp h
    have hl : ∀ c, l.call = some c → c.Outer := by
      intro c hc
      exact hcalls c (List.mem_filterMap.mpr ⟨l, List.mem_cons_self, hc⟩)
    obtain ⟨hnext, hframe⟩ := silent_step hmode hs hl ht
    have hcalls' : ∀ c ∈ callsMade ls, c.Outer := by
      intro c hc
      obtain ⟨l', hl', hcall⟩ := List.mem_filterMap.mp hc
      exact hcalls c (List.mem_filterMap.mpr ⟨l', List.mem_cons_of_mem l hl', hcall⟩)
    obtain ⟨hlast, hframes⟩ := ih hnext hcalls' hrest
    exact ⟨hlast, List.forall_mem_append.mpr ⟨hframe, hframes⟩⟩

end WsServer
