import Mathlib.Data.List.Count
import WsServer.Base.LinkedList
import WsServer.Base.Machine
import WsServer.WsBridge

/-! The list of client contexts as `ws_bridge.c` keeps it: allocated cells that callbacks of
the WebSocket library link in and out, and that a broadcast walks. What the list holds is
told by the calls of each client alone. -/
namespace WsServer
open Interaction LinkedList

abbrev Addr := ℕ

/-- `app->clients` with the heap of its contexts, the user data of the handles, whether
`app->ws` is there, and for which handles the library owes an `on_disconnect`. -/
structure ClientRegistry where
  store : Store Addr AppClientCtx
  userData : Client → Option Addr
  ws : Bool
  live : Client → Bool

/-- After `ws_bridge_start`. -/
def ClientRegistry.init : ClientRegistry := ⟨⟨∅, none⟩, fun _ => none, true, fun _ => false⟩

/-- What the callbacks do that can be seen outside the list. -/
inductive RegistryEvent where
  | allocated (ctx : Addr)
  | freed (ctx : Addr)
  | closeClient (client : Client) (reason : String)
  | sendText (client : Client) (text : String)
  | log (kind text : String)
  | serverSendText (client : Client) (payload : String)
  deriving DecidableEq, Repr

/-- `on_connect`; `calloc` is the context that it gets, `state` what it reads of the state. -/
def ClientRegistry.onConnect (r : ClientRegistry) (client : Client) (calloc : Option Addr)
    (state : AppState) : ClientRegistry × List RegistryEvent :=
  match calloc with
  | none =>
    ({ r with live := Function.update r.live client true },
      [.closeClient client "server memory error"])
  | some ctx =>
    ({ r with
        store := r.store.push ctx ⟨client, false⟩
        userData := Function.update r.userData client (some ctx)
        live := Function.update r.live client true },
      [.allocated ctx, .sendText client "Hello from server",
        .sendText client ("State has been set to " ++ appStateLabel state)])

/-- `on_disconnect` -/
def ClientRegistry.onDisconnect (r : ClientRegistry) (client : Client) :
    Option (ClientRegistry × List RegistryEvent) := do
  let ctx := r.userData client
  let store ← unlink ctx (r.store.heap.keys.length+1) .head r.store
  let r' : ClientRegistry :=
    { r with
      store := store
      userData := Function.update r.userData client none
      live := Function.update r.live client false }
  match ctx with
  -- `free(NULL)`
  | none => some (r', [])
  | some ctx => (store.free ctx).map (fun store => ({ r' with store := store }, [.freed ctx]))

def ClientRegistry.setWriteOnly (r : ClientRegistry) (ctx : Addr) (writeOnly : Bool) :
    Option ClientRegistry := do
  let cell ← r.store.heap.lookup ctx
  let store ← r.store.assign ctx { cell.value with writeOnly := writeOnly }
  some { r with store := store }

/-- `handle_read_toggle`; other texts are left to the other handlers. -/
def ClientRegistry.handleReadToggle (r : ClientRegistry) (client : Client) (text : CText) :
    Option (ClientRegistry × List RegistryEvent) :=
  match r.userData client with
  | none => some (r, [])
  | some ctx =>
    if text = "READ-DISABLE".toList then
      (r.setWriteOnly ctx true).map
        (fun r' => (r', [.sendText client "Write-only mode enabled"]))
    else if text = "READ-ENABLE".toList then
      (r.setWriteOnly ctx false).map
        (fun r' => (r', [.sendText client "Write-only mode disabled"]))
    else some (r, [])

/-- The payload of a broadcast: the text behind the time, if there is a buffer for it. -/
def broadcastPayload (prefixTimestamp : Bool) (realtimeNs : UInt64) (malloc : Bool)
    (msg : String) : String :=
  if prefixTimestamp then
    let needed := msg.length + 32
    if needed ≤ 2048 ∨ malloc = true then
      Printf.truncated needed (toString realtimeNs.toNat ++ "|" ++ msg)
    else msg
  else msg

/-- What a broadcast asks the library and the system for. -/
structure BroadcastEnv where
  connected : Client → Bool
  handshakeDone : Client → Bool
  realtimeNs : UInt64
  malloc : Bool

/-- `ws_bridge_broadcast_text` -/
def ClientRegistry.broadcastText (r : ClientRegistry) (env : BroadcastEnv) (msg : String)
    (prefixTimestamp : Bool) : Option (List RegistryEvent) :=
  let payload := broadcastPayload prefixTimestamp env.realtimeNs env.malloc msg
  (values r.store.heap (r.store.heap.keys.length+1) r.store.head).map fun ctxs =>
    .log "WS_TX" payload :: (ctxs.filter (fun ctx =>
      env.connected ctx.client && env.handshakeDone ctx.client && !ctx.writeOnly)).map
        (fun ctx => .serverSendText ctx.client payload)

/-- `ws_bridge_stop`; the handles go with the server that is destroyed first. -/
def ClientRegistry.stop (r : ClientRegistry) : Option (ClientRegistry × List RegistryEvent) :=
  if !r.ws then some (r, [])
  else
    (freeAll (r.store.heap.keys.length+1) r.store.head r.store.heap).map fun x =>
      (⟨⟨x.1, none⟩, fun _ => none, false, fun _ => false⟩, x.2.map .freed)

inductive RegistryCall where
  | onConnect (client : Client) (calloc : Option Addr) (state : AppState)
  | onDisconnect (client : Client)
  | handleReadToggle (client : Client) (text : CText)
  | broadcastText (env : BroadcastEnv) (msg : String) (prefixTimestamp : Bool)
  | stop

/-- The calls, each under `clients_lock` or alone on the thread of the server. -/
def clientRegistry : Machine ClientRegistry RegistryCall RegistryEvent where
  step r
    | .onConnect client calloc state => some (r.onConnect client calloc state)
    | .onDisconnect client => r.onDisconnect client
    | .handleReadToggle client text => r.handleReadToggle client text
    | .broadcastText env msg prefixTimestamp =>
      (r.broadcastText env msg prefixTimestamp).map (fun os => (r, os))
    | .stop => r.stop

/-- What the library and the allocator promise: callbacks only while the server is there,
`on_connect` once for a client and `on_disconnect` at most once after it, new memory. -/
def RegistryCall.Promised (r : ClientRegistry) : RegistryCall → Prop
  | .onConnect client calloc _ => r.ws = true ∧ r.live client = false ∧
      ∀ ctx ∈ calloc, r.store.heap.lookup ctx = none
  | .onDisconnect client => r.ws = true ∧ r.live client = true
  | .handleReadToggle _ _ => r.ws = true
  | .broadcastText _ _ _ => True
  | .stop => True

/-! ### What the list is for -/

/-- The flag after a text of the client. -/
def toggled (text : CText) (writeOnly : Bool) : Bool :=
  if text = "READ-DISABLE".toList then true
  else if text = "READ-ENABLE".toList then false
  else writeOnly

/-- What a call makes of the session of one client: no context, or one with its flag. -/
def sessionStep (client : Client) (session : Option Bool) : RegistryCall → Option Bool
  | .onConnect other calloc _ => if other = client ∧ calloc.isSome then some false else session
  | .onDisconnect other => if other = client then none else session
  | .handleReadToggle other text => if other = client then session.map (toggled text) else session
  | .broadcastText _ _ _ => session
  | .stop => none

/-- The session of a client after the calls: its own ones and the stop decide. -/
def session (client : Client) (calls : List RegistryCall) : Option Bool :=
  calls.foldl (sessionStep client) none

/-- The client is to get a broadcast. -/
def BroadcastEnv.Reaches (env : BroadcastEnv) (calls : List RegistryCall) (client : Client) :
    Prop :=
  session client calls = some false ∧ env.connected client = true ∧ env.handshakeDone client = true

instance (env : BroadcastEnv) (calls : List RegistryCall) (client : Client) :
    Decidable (env.Reaches calls client) := inferInstanceAs (Decidable (_ ∧ _ ∧ _))

/-! ### The contexts of the list -/

/-- The list holds these contexts; they are all that is allocated, and each handle knows
its own. -/
structure ClientRegistry.Registers (r : ClientRegistry) (l : List (Addr × AppClientCtx)) :
    Prop where
  holds : r.store.Holds l
  all : ∀ ctx, (r.store.heap.lookup ctx).isSome = true ↔ ctx ∈ addresses l
  userData : ∀ client ctx, r.userData client = some ctx ↔ ∃ w, (ctx, ⟨client, w⟩) ∈ l
  live : ∀ client, r.userData client ≠ none → r.live client = true
  stopped : r.ws = false → l = []

variable {r : ClientRegistry} {l : List (Addr × AppClientCtx)}

theorem ClientRegistry.Registers.init : ClientRegistry.init.Registers [] where
  holds := ⟨rfl, List.nodup_nil⟩
  all ctx := by simp [ClientRegistry.init]
  userData client ctx := by simp [ClientRegistry.init]
  live client h := absurd rfl h
  stopped _ := rfl

/-- `on_connect` with memory puts one context in front. -/
theorem ClientRegistry.Registers.onConnect (h : r.Registers l) {client : Client} {ctx : Addr}
    (state : AppState)
    (hpromised : RegistryCall.Promised r (.onConnect client (some ctx) state)) :
    (r.onConnect client (some ctx) state).1.Registers ((ctx, ⟨client, false⟩) :: l) := by
  obtain ⟨hws, hlive, hnew⟩ := hpromised
  have hnew := hnew ctx rfl
  have hnone : r.userData client = none := by
    by_contra hsome
    rw [h.live client hsome] at hlive
    cases hlive
  refine ⟨h.holds.push hnew _, ?_, ?_, ?_, ?_⟩
  · intro other
    simp only [ClientRegistry.onConnect, Store.push, addresses, List.map_cons, List.mem_cons]
    by_cases hother : other = ctx
    · rw [hother, AList.lookup_insert]
      exact iff_of_true rfl (Or.inl rfl)
    · rw [AList.lookup_insert_ne hother, h.all other, or_iff_right hother]
  · intro other ctx'
    simp only [ClientRegistry.onConnect, List.mem_cons, Prod.mk.injEq, AppClientCtx.mk.injEq]
    by_cases hother : other = client
    · have hfree : ¬ ∃ w, (ctx', (⟨client, w⟩ : AppClientCtx)) ∈ l := by
        rw [← h.userData client ctx', hnone]
        exact Option.some_ne_none ctx' ∘ Eq.symm
      rw [hother, Function.update_self, Option.some.injEq]
      constructor
      · rintro rfl
        exact ⟨false, Or.inl ⟨rfl, rfl, rfl⟩⟩
      · rintro ⟨w, ⟨heq, -⟩ | hmem⟩
        · exact heq.symm
        · exact absurd ⟨w, hmem⟩ hfree
    · rw [Function.update_of_ne hother, h.userData other ctx']
      simp [hother]
  · intro other hsome
    simp only [ClientRegistry.onConnect] at hsome ⊢
    by_cases hother : other = client
    · rw [hother, Function.update_self]
    · rw [Function.update_of_ne hother] at hsome ⊢
      exact h.live other hsome
  · intro hstopped
    rw [show (r.onConnect client (some ctx) state).1.ws = r.ws from rfl, hws] at hstopped
    cases hstopped

/-- Without memory the list stays as it is. -/
theorem ClientRegistry.Registers.refused (h : r.Registers l) (client : Client)
    (state : AppState) : (r.onConnect client none state).1.Registers l where
  holds := h.holds
  all := h.all
  userData := h.userData
  live other hsome := by
    simp only [ClientRegistry.onConnect] at hsome ⊢
    by_cases hother : other = client
    · rw [hother, Function.update_self]
    · rw [Function.update_of_ne hother]
      exact h.live other hsome
  stopped := h.stopped

/-- The user data of a handle point to its own context. -/
theorem ClientRegistry.Registers.owns (h : r.Registers l) {x : Addr × AppClientCtx} (hx : x ∈ l)
    (client : Client) : r.userData client = some x.1 ↔ x.2.client = client := by
  have hown : r.userData x.2.client = some x.1 := (h.userData _ _).mpr ⟨x.2.writeOnly, hx⟩
  constructor
  · intro huser
    obtain ⟨w, hmem⟩ := (h.userData client x.1).mp huser
    exact congrArg AppClientCtx.client (h.holds.unique hx hmem)
  · rintro rfl
    exact hown

theorem ClientRegistry.Registers.mem_without (h : r.Registers l) {client other : Client}
    {ctx : Addr} {w : Bool} : (ctx, ⟨other, w⟩) ∈ without (r.userData client) l ↔
      other ≠ client ∧ (ctx, ⟨other, w⟩) ∈ l := by
  rw [without, List.mem_filter, decide_eq_true_eq, and_comm]
  apply and_congr_left
  intro hmem
  rw [ne_eq, eq_comm, h.owns hmem client]

/-- `on_disconnect` takes out the context of its client, if there is one, and frees it. -/
theorem ClientRegistry.Registers.onDisconnect (h : r.Registers l) (client : Client) :
    ∃ r', r.onDisconnect client = some (r', (r.userData client).toList.map .freed) ∧
      r'.Registers (without (r.userData client) l) ∧ r'.ws = r.ws := by
  obtain ⟨store, hunlink, hholds, hsame⟩ := h.holds.unlink (r.userData client)
  have huser : ∀ other ctx, Function.update r.userData client none other = some ctx ↔
      ∃ w, (ctx, (⟨other, w⟩ : AppClientCtx)) ∈ without (r.userData client) l := by
    intro other ctx
    simp only [h.mem_without]
    by_cases hother : other = client
    · rw [hother, Function.update_self]
      simp
    · rw [Function.update_of_ne hother, h.userData other ctx]
      simp [hother]
  have hlive : ∀ other, Function.update r.userData client none other ≠ none →
      Function.update r.live client false other = true := by
    intro other hsome
    by_cases hother : other = client
    · rw [hother, Function.update_self] at hsome
      exact absurd rfl hsome
    · rw [Function.update_of_ne hother] at hsome ⊢
      exact h.live other hsome
  have hstopped : r.ws = false → without (r.userData client) l = [] := by
    intro hws
    rw [h.stopped hws]
    rfl
  simp only [ClientRegistry.onDisconnect, hunlink, Option.bind_eq_bind, Option.bind_some]
  cases hctx : r.userData client with
  -- the client has no cell, so nothing is unlinked and nothing freed
  | none =>
    rw [hctx] at hholds huser hstopped
    refine ⟨_, rfl, ⟨hholds, ?_, huser, hlive, hstopped⟩, rfl⟩
    intro ctx
    rw [hsame ctx, h.all ctx, mem_addresses_without]
    exact (and_iff_left (Option.some_ne_none ctx)).symm
  -- its cell is out of the list before it is freed
  | some ctx =>
    rw [hctx] at hholds huser hstopped
    obtain ⟨w, hmem⟩ := (h.userData client ctx).mp hctx
    have hcell : (store.heap.lookup ctx).isSome = true := by
      rw [hsame ctx, h.all ctx]
      exact List.mem_map_of_mem hmem
    have hout : ctx ∉ addresses (without (some ctx) l) := fun hin =>
      (mem_addresses_without.mp hin).2 rfl
    obtain ⟨freed, hfree, hholds, hall⟩ := hholds.free hout hcell
    simp only [hfree, Option.map_some]
    refine ⟨_, rfl, ⟨hholds, ?_, huser, hlive, hstopped⟩, rfl⟩
    intro other
    rw [hall other, hsame other, h.all other, mem_addresses_without, and_comm]
    exact and_congr_right (fun _ => (not_congr Option.some_inj).symm)

/-- The contexts behind a toggle: the flag of the client is the new one, the other contexts are
as they were. -/
theorem ClientRegistry.Registers.mem_assigned (h : r.Registers l) {client other : Client}
    {ctx ctx' : Addr} {w writeOnly : Bool} (hctx : r.userData client = some ctx) :
    (ctx', ⟨other, w⟩) ∈ assigned ctx ⟨client, writeOnly⟩ l ↔
      (other = client ∧ ctx' = ctx ∧ w = writeOnly) ∨
      (other ≠ client ∧ (ctx', ⟨other, w⟩) ∈ l) := by
  obtain ⟨w', hmem⟩ := (h.userData client ctx).mp hctx
  rw [LinkedList.mem_assigned (List.mem_map_of_mem hmem), AppClientCtx.mk.injEq]
  have hown (hin : (ctx', (⟨other, w⟩ : AppClientCtx)) ∈ l) : ctx' ≠ ctx ↔ other ≠ client := by
    have howns := h.owns hin client
    rw [hctx, Option.some_inj] at howns
    exact not_congr (eq_comm.trans howns)
  constructor
  · rintro (⟨hctx', hother, hw⟩ | ⟨hne, hin⟩)
    · exact Or.inl ⟨hother, hctx', hw⟩
    · exact Or.inr ⟨(hown hin).mp hne, hin⟩
  · rintro (⟨hother, hctx', hw⟩ | ⟨hne, hin⟩)
    · exact Or.inl ⟨hctx', hother, hw⟩
    · exact Or.inr ⟨(hown hin).mpr hne, hin⟩

/-- A toggle changes the flag in the context of its client. -/
theorem ClientRegistry.Registers.setWriteOnly (h : r.Registers l) {client : Client} {ctx : Addr}
    (hctx : r.userData client = some ctx) (writeOnly : Bool) :
    ∃ r', r.setWriteOnly ctx writeOnly = some r' ∧
      r'.Registers (assigned ctx ⟨client, writeOnly⟩ l) ∧ r'.ws = r.ws := by
  obtain ⟨w, hmem⟩ := (h.userData client ctx).mp hctx
  obtain ⟨next, hlookup⟩ := h.holds.segment.lookup hmem
  obtain ⟨store, hassign, hholds, hsame⟩ :=
    h.holds.assign (List.mem_map_of_mem hmem) ⟨client, writeOnly⟩
  refine ⟨{ r with store := store }, ?_, ⟨hholds, ?_, ?_, h.live, ?_⟩, rfl⟩
  · simp only [ClientRegistry.setWriteOnly, hlookup, Option.bind_eq_bind, Option.bind_some, hassign]
  · intro other
    rw [hsame other, h.all other, addresses_assigned]
  · intro other ctx'
    simp only [h.mem_assigned hctx]
    by_cases hother : other = client
    · rw [hother, hctx, Option.some_inj]
      simp [eq_comm]
    · rw [h.userData other ctx']
      simp [hother]
  · intro hws
    rw [h.stopped hws]
    rfl

/-- A context after a text of a client: its own flag follows its toggles. -/
def toggledCtx (client : Client) (text : CText) (c : AppClientCtx) : AppClientCtx :=
  if c.client = client then { c with writeOnly := toggled text c.writeOnly } else c

def toggledList (client : Client) (text : CText) (l : List (Addr × AppClientCtx)) :
    List (Addr × AppClientCtx) := l.map (fun x => (x.1, toggledCtx client text x.2))

/-- Nothing is toggled by another text, or of a client without a context. -/
theorem toggledList_same {client : Client} {text : CText}
    (h : ∀ x ∈ l, x.2.client = client → toggled text x.2.writeOnly = x.2.writeOnly) :
    toggledList client text l = l := by
  refine (List.map_congr_left ?_).trans (List.map_id l)
  intro x hx
  have hsame : toggledCtx client text x.2 = x.2 := by
    unfold toggledCtx
    split_ifs with hclient
    · rw [h x hx hclient]
    · rfl
  rw [hsame]
  rfl

theorem ClientRegistry.Registers.assigned_eq (h : r.Registers l) {client : Client} {ctx : Addr}
    {text : CText} {writeOnly : Bool} (hctx : r.userData client = some ctx)
    (htext : ∀ w, toggled text w = writeOnly) :
    assigned ctx ⟨client, writeOnly⟩ l = toggledList client text l := by
  apply List.map_congr_left
  intro x hx
  have hown := h.owns hx client
  rw [hctx, Option.some_inj] at hown
  by_cases hclient : x.2.client = client
  · have haddress := hown.mpr hclient
    rw [if_pos haddress.symm, toggledCtx, if_pos hclient, htext, ← haddress, hclient]
  · rw [if_neg (fun heq => hclient (hown.mp heq.symm)), toggledCtx, if_neg hclient]

theorem ClientRegistry.Registers.handleReadToggle (h : r.Registers l) (client : Client)
    (text : CText) : ∃ r' o, r.handleReadToggle client text = some (r', o) ∧
      r'.Registers (toggledList client text l) ∧ ∀ e ∈ o, ∃ msg, e = .sendText client msg := by
  unfold ClientRegistry.handleReadToggle
  cases hctx : r.userData client with
  | none =>
    have hsame : toggledList client text l = l := by
      apply toggledList_same
      intro x hx hclient
      rw [(h.owns hx client).mpr hclient] at hctx
      cases hctx
    rw [hsame]
    exact ⟨r, [], rfl, h, List.forall_mem_nil _⟩
  | some ctx =>
    dsimp only
    by_cases hdisable : text = "READ-DISABLE".toList
    · obtain ⟨r', hset, hregisters, -⟩ := h.setWriteOnly hctx true
      rw [h.assigned_eq hctx (fun w => if_pos hdisable)] at hregisters
      rw [if_pos hdisable, hset]
      exact ⟨r', _, rfl, hregisters, List.forall_mem_singleton.mpr ⟨_, rfl⟩⟩
    rw [if_neg hdisable]
    by_cases henable : text = "READ-ENABLE".toList
    · obtain ⟨r', hset, hregisters, -⟩ := h.setWriteOnly hctx false
      have htext : ∀ w, toggled text w = false := by
        intro w
        rw [toggled, if_neg hdisable, if_pos henable]
      rw [h.assigned_eq hctx htext] at hregisters
      rw [if_pos henable, hset]
      exact ⟨r', _, rfl, hregisters, List.forall_mem_singleton.mpr ⟨_, rfl⟩⟩
    · have hsame : toggledList client text l = l := by
        apply toggledList_same
        intro x _ _
        rw [toggled, if_neg hdisable, if_neg henable]
      rw [if_neg henable, hsame]
      exact ⟨r, [], rfl, h, List.forall_mem_nil _⟩

/-- The list behind `ws_bridge_stop` is empty, and all that was allocated is freed. -/
theorem ClientRegistry.Registers.stop (h : r.Registers l) :
    ∃ r', r.stop = some (r', (addresses l).map .freed) ∧ r'.Registers [] := by
  unfold ClientRegistry.stop
  cases hws : r.ws with
  | false =>
    obtain rfl := h.stopped hws
    exact ⟨r, rfl, h⟩
  | true =>
    obtain ⟨heap, hfree, hall⟩ := freeAll_segment h.holds.segment h.holds.nodup
      (Nat.lt_succ_of_le (h.holds.segment.length_le h.holds.nodup))
    rw [Bool.not_true, if_neg Bool.false_ne_true, hfree]
    refine ⟨_, rfl, ⟨rfl, List.nodup_nil⟩, ?_, ?_, fun _ hsome => absurd rfl hsome, fun _ => rfl⟩
    · intro ctx
      rw [hall ctx]
      split_ifs with hctx
      · simp
      · rw [h.all ctx]
        exact iff_of_false hctx List.not_mem_nil
    · intro client ctx
      simp

/-- A broadcast goes to the contexts in the order of the list. -/
theorem ClientRegistry.Registers.broadcastText (h : r.Registers l) (env : BroadcastEnv)
    (msg : String) (prefixTimestamp : Bool) :
    r.broadcastText env msg prefixTimestamp =
      let payload := broadcastPayload prefixTimestamp env.realtimeNs env.malloc msg
      some (.log "WS_TX" payload :: ((l.map Prod.snd).filter (fun ctx =>
        env.connected ctx.client && env.handshakeDone ctx.client && !ctx.writeOnly)).map
          (fun ctx => .serverSendText ctx.client payload)) := by
  rw [ClientRegistry.broadcastText, h.holds.values]
  rfl

/-! ### Runs -/

/-- What ties the list to the calls and to the events so far. -/
structure ClientRegistry.Follows (r : ClientRegistry) (l : List (Addr × AppClientCtx))
    (calls : List RegistryCall) (os : List RegistryEvent) : Prop where
  registers : r.Registers l
  sessions : ∀ client w, session client calls = some w ↔ ∃ ctx, (ctx, ⟨client, w⟩) ∈ l
  balance : ∀ ctx, os.count (.allocated ctx) =
    os.count (.freed ctx) + if ctx ∈ addresses l then 1 else 0

theorem session_append (client : Client) (calls : List RegistryCall) (call : RegistryCall) :
    session client (calls ++ [call]) = sessionStep client (session client calls) call := by
  rw [session, session, List.foldl_append, List.foldl_cons, List.foldl_nil]

/-- The cells that a call frees: the context of the client that goes, or all at the stop. -/
def RegistryCall.Frees (l : List (Addr × AppClientCtx)) (ctx : Addr) : RegistryCall → Prop
  | .onDisconnect client => ∃ w, (ctx, ⟨client, w⟩) ∈ l
  | .stop => ctx ∈ addresses l
  | _ => False

/-- A promised call returns, and keeps the account. -/
structure RegistryCall.Served (call : RegistryCall) (l : List (Addr × AppClientCtx))
    (calls : List RegistryCall) (os : List RegistryEvent)
    (x : ClientRegistry × List RegistryEvent) : Prop where
  follows : ∃ l', x.1.Follows l' (calls ++ [call]) (os ++ x.2)
  frees : ∀ ctx, .freed ctx ∈ x.2 ↔ call.Frees l ctx

variable {calls : List RegistryCall} {os : List RegistryEvent}

theorem ClientRegistry.Follows.onConnect (h : r.Follows l calls os) {client : Client}
    {calloc : Option Addr} {state : AppState}
    (hpromised : RegistryCall.Promised r (.onConnect client calloc state)) :
    RegistryCall.Served (.onConnect client calloc state) l calls os
      (r.onConnect client calloc state) := by
  cases calloc with
  -- without memory the connection is refused, and the list stays as it is
  | none =>
    refine ⟨⟨l, h.registers.refused client state, ?_, ?_⟩, ?_⟩
    · intro other w
      rw [session_append, sessionStep, if_neg (by simp), h.sessions]
    · intro ctx
      rw [List.count_append, List.count_append, h.balance ctx]
      rfl
    · intro ctx
      exact iff_of_false (by simp [ClientRegistry.onConnect]) not_false
  | some ctx =>
    have hnew : ctx ∉ addresses l := by
      rw [← h.registers.all ctx, hpromised.2.2 ctx rfl]
      exact Bool.false_ne_true
    -- the client is new: a cell of its own would have kept it alive
    have hnone : ∀ w ctx', (ctx', (⟨client, w⟩ : AppClientCtx)) ∉ l := by
      intro w ctx' hmem
      have huser := (h.registers.userData client ctx').mpr ⟨w, hmem⟩
      have hlive := h.registers.live client (by rw [huser]; exact Option.some_ne_none ctx')
      rw [hpromised.2.1] at hlive
      cases hlive
    refine ⟨⟨_, h.registers.onConnect state hpromised, ?_, ?_⟩, ?_⟩
    · intro other w
      rw [session_append, sessionStep]
      simp only [List.mem_cons, Prod.mk.injEq, AppClientCtx.mk.injEq]
      by_cases hother : client = other
      · rw [if_pos ⟨hother, rfl⟩, Option.some_inj]
        constructor
        · rintro rfl
          exact ⟨ctx, Or.inl ⟨rfl, hother.symm, rfl⟩⟩
        · rintro ⟨ctx', ⟨-, -, rfl⟩ | hmem⟩
          · rfl
          · exact absurd (hother ▸ hmem) (hnone w ctx')
      · have hother' : other ≠ client := fun heq => hother heq.symm
        rw [if_neg (fun hand => hother hand.1), h.sessions]
        simp [hother']
    · intro ctx'
      rw [List.count_append, List.count_append, h.balance ctx']
      by_cases hctx : ctx' = ctx
      · simp [ClientRegistry.onConnect, addresses, hctx, hnew]
      · have hctx' : ctx ≠ ctx' := fun heq => hctx heq.symm
        have hsame : ctx' ∈ addresses ((ctx, (⟨client, false⟩ : AppClientCtx)) :: l) ↔
            ctx' ∈ addresses l := by simp [addresses, hctx]
        rw [if_congr hsame rfl rfl]
        simp [ClientRegistry.onConnect, hctx']
    · intro ctx'
      exact iff_of_false (by simp [ClientRegistry.onConnect]) not_false

theorem ClientRegistry.Follows.onDisconnect (h : r.Follows l calls os) (client : Client) :
    ∃ x, r.onDisconnect client = some x ∧
      RegistryCall.Served (.onDisconnect client) l calls os x := by
  obtain ⟨r', hstep, hregisters, -⟩ := h.registers.onDisconnect client
  refine ⟨_, hstep, ⟨_, hregisters, ?_, ?_⟩, ?_⟩
  · intro other w
    simp only [session_append, sessionStep, h.registers.mem_without]
    by_cases hother : client = other
    · simp [hother]
    · have hother' : other ≠ client := fun heq => hother heq.symm
      rw [if_neg hother, h.sessions]
      simp [hother']
  · intro ctx
    rw [List.count_append, List.count_append, h.balance ctx,
      if_congr (mem_addresses_without (p := r.userData client)) rfl rfl]
    cases hctx : r.userData client with
    | none =>
      rw [if_congr (and_iff_left (Option.some_ne_none ctx)) rfl rfl]
      rfl
    | some own =>
      obtain ⟨w, hmem⟩ := (h.registers.userData client own).mp hctx
      have hin : own ∈ addresses l := List.mem_map_of_mem hmem
      by_cases hown : ctx = own
      · simp [hown, hin]
      · have hown' : own ≠ ctx := fun heq => hown heq.symm
        have hkept : some ctx ≠ some own := fun heq => hown (Option.some.inj heq)
        rw [if_congr (and_iff_left hkept) rfl rfl]
        simp [hown']
  · intro ctx
    rw [RegistryCall.Frees, ← h.registers.userData]
    simp

/-- A toggle is heard by the client's own context alone. -/
theorem ClientRegistry.Follows.handleReadToggle (h : r.Follows l calls os) (client : Client)
    (text : CText) : ∃ x, r.handleReadToggle client text = some x ∧
      RegistryCall.Served (.handleReadToggle client text) l calls os x := by
  obtain ⟨r', o, hstep, hregisters, hchat⟩ := h.registers.handleReadToggle client text
  -- a toggle only talks: no cell comes or goes
  have hother : ∀ e ∈ o, ∀ ctx, e ≠ .allocated ctx ∧ e ≠ .freed ctx := by
    intro e he ctx
    obtain ⟨msg, rfl⟩ := hchat e he
    exact ⟨RegistryEvent.noConfusion, RegistryEvent.noConfusion⟩
  have haddresses : addresses (toggledList client text l) = addresses l := by
    rw [addresses, toggledList, List.map_map]
    rfl
  refine ⟨_, hstep, ⟨_, hregisters, ?_, ?_⟩, ?_⟩
  · intro other w
    rw [session_append, sessionStep]
    simp only [toggledList, List.mem_map, Prod.mk.injEq]
    -- the session of the client is toggled where it is open, and no other session changes
    by_cases hsame : client = other
    · rw [if_pos hsame, Option.map_eq_some_iff, ← hsame]
      simp only [h.sessions]
      constructor
      · rintro ⟨w', ⟨ctx, hmem⟩, rfl⟩
        exact ⟨ctx, _, hmem, rfl, if_pos rfl⟩
      · rintro ⟨ctx, ⟨ctx', owner, w'⟩, hmem, -, heq⟩
        have hclient : owner = client := by
          by_contra hne
          rw [toggledCtx, if_neg hne] at heq
          exact hne (congrArg AppClientCtx.client heq)
        rw [toggledCtx, if_pos hclient] at heq
        rw [hclient] at hmem
        exact ⟨w', ⟨ctx', hmem⟩, congrArg AppClientCtx.writeOnly heq⟩
    · rw [if_neg hsame, h.sessions]
      constructor
      · rintro ⟨ctx, hmem⟩
        exact ⟨ctx, _, hmem, rfl, if_neg (Ne.symm hsame)⟩
      · rintro ⟨ctx, ⟨ctx', owner, w'⟩, hmem, -, heq⟩
        have hclient : owner ≠ client := by
          rintro rfl
          rw [toggledCtx, if_pos rfl] at heq
          exact hsame (congrArg AppClientCtx.client heq)
        rw [toggledCtx, if_neg hclient] at heq
        exact ⟨ctx', heq ▸ hmem⟩
  · intro ctx
    have hallocated : o.count (.allocated ctx) = 0 :=
      List.count_eq_zero_of_not_mem (fun hmem => (hother _ hmem ctx).1 rfl)
    have hfreed : o.count (.freed ctx) = 0 :=
      List.count_eq_zero_of_not_mem (fun hmem => (hother _ hmem ctx).2 rfl)
    rw [List.count_append, List.count_append, h.balance ctx, hallocated, hfreed, haddresses]
    rfl
  · intro ctx
    exact iff_of_false (fun hmem => (hother _ hmem ctx).2 rfl) not_false

theorem ClientRegistry.Follows.stop (h : r.Follows l calls os) :
    ∃ x, r.stop = some x ∧ RegistryCall.Served .stop l calls os x := by
  obtain ⟨r', hstep, hregisters⟩ := h.registers.stop
  refine ⟨_, hstep, ⟨[], hregisters, ?_, ?_⟩, ?_⟩
  · intro other w
    rw [session_append, sessionStep]
    simp
  · intro ctx
    have hfreed : ((addresses l).map RegistryEvent.freed).count (.freed ctx) =
        if ctx ∈ addresses l then 1 else 0 := by
      rw [List.count_map_of_injective _ _ (fun _ _ heq => RegistryEvent.freed.inj heq)]
      split_ifs with hctx
      · exact List.count_eq_one_of_mem h.registers.holds.nodup hctx
      · exact List.count_eq_zero_of_not_mem hctx
    have hnone : ((addresses l).map RegistryEvent.freed).count (.allocated ctx) = 0 :=
      List.count_eq_zero_of_not_mem (by simp)
    rw [List.count_append, List.count_append, h.balance ctx, hfreed, hnone]
    simp
  · intro ctx
    rw [RegistryCall.Frees, List.mem_map_of_injective (fun _ _ heq => RegistryEvent.freed.inj heq)]

/-- No two contexts are those of one client. -/
theorem ClientRegistry.Registers.clients_nodup (h : r.Registers l) :
    (l.map (fun x => x.2.client)).Nodup := by
  apply List.Nodup.map_on _ h.holds.nodup.of_map
  intro x hx y hy heq
  have haddress : x.1 = y.1 :=
    Option.some.inj (((h.owns hx _).mpr heq).symm.trans ((h.owns hy _).mpr rfl))
  exact Prod.ext haddress (h.holds.unique hx (haddress ▸ hy))

/-- A broadcast reaches each client that it is for, once. -/
theorem ClientRegistry.Follows.broadcast_count (h : r.Follows l calls os) (env : BroadcastEnv)
    (msg : String) (prefixTimestamp : Bool) {o : List RegistryEvent}
    (ho : r.broadcastText env msg prefixTimestamp = some o) (client : Client) (payload : String) :
    o.count (.serverSendText client payload) =
      if env.Reaches calls client ∧
          payload = broadcastPayload prefixTimestamp env.realtimeNs env.malloc msg then 1 else 0 := by
  rw [h.registers.broadcastText] at ho
  dsimp only at ho
  generalize broadcastPayload prefixTimestamp env.realtimeNs env.malloc msg = sent at ho ⊢
  let reached := (l.map Prod.snd).filter (fun ctx =>
    env.connected ctx.client && env.handshakeDone ctx.client && !ctx.writeOnly)
  obtain rfl : .log "WS_TX" sent :: reached.map (fun ctx => .serverSendText ctx.client sent) = o :=
    Option.some.inj ho
  have hmem : RegistryEvent.serverSendText client payload ∈
      reached.map (fun ctx => .serverSendText ctx.client sent) ↔
        env.Reaches calls client ∧ payload = sent := by
    rw [BroadcastEnv.Reaches, h.sessions, List.mem_map]
    constructor
    · rintro ⟨⟨owner, w⟩, hctx, heq⟩
      obtain ⟨rfl, rfl⟩ := RegistryEvent.serverSendText.inj heq
      obtain ⟨hin, hto⟩ := List.mem_filter.mp hctx
      simp only [Bool.and_eq_true, Bool.not_eq_true'] at hto
      obtain ⟨⟨hconnected, hdone⟩, rfl⟩ := hto
      obtain ⟨x, hx, hsnd⟩ := List.mem_map.mp hin
      exact ⟨⟨⟨x.1, hsnd ▸ hx⟩, hconnected, hdone⟩, rfl⟩
    · rintro ⟨⟨⟨ctx, hx⟩, hconnected, hdone⟩, rfl⟩
      refine ⟨⟨client, false⟩, List.mem_filter.mpr ⟨List.mem_map.mpr ⟨_, hx, rfl⟩, ?_⟩, rfl⟩
      simp [hconnected, hdone]
  have hnodup : (reached.map (fun ctx => RegistryEvent.serverSendText ctx.client sent)).Nodup := by
    have hclients : (reached.map AppClientCtx.client).Nodup := by
      apply List.Nodup.sublist (List.filter_sublist.map _)
      rw [List.map_map]
      exact h.registers.clients_nodup
    have hmap : reached.map (fun ctx => RegistryEvent.serverSendText ctx.client sent) =
        (reached.map AppClientCtx.client).map (fun client => .serverSendText client sent) := by
      rw [List.map_map]
      rfl
    rw [hmap]
    exact hclients.map (fun _ _ heq => (RegistryEvent.serverSendText.inj heq).1)
  rw [List.count_cons_of_ne (by simp)]
  split_ifs with hreach
  · exact List.count_eq_one_of_mem hnodup (hmem.mpr hreach)
  · exact List.count_eq_zero_of_not_mem (fun hin => hreach (hmem.mp hin))

theorem ClientRegistry.Follows.broadcastText (h : r.Follows l calls os) (env : BroadcastEnv)
    (msg : String) (prefixTimestamp : Bool) :
    ∃ o, r.broadcastText env msg prefixTimestamp = some o ∧
      RegistryCall.Served (.broadcastText env msg prefixTimestamp) l calls os (r, o) := by
  refine ⟨_, h.registers.broadcastText env msg prefixTimestamp, ⟨l, h.registers, ?_, ?_⟩, ?_⟩
  · intro client w
    rw [session_append, sessionStep, h.sessions]
  · intro ctx
    rw [List.count_append, List.count_append, h.balance ctx]
    have hallocated : ∀ o : List AppClientCtx, ∀ payload : String,
        (RegistryEvent.log "WS_TX" payload ::
          o.map (fun ctx => .serverSendText ctx.client payload)).count (.allocated ctx) = 0 :=
      fun o payload => List.count_eq_zero_of_not_mem (by simp)
    have hfreed : ∀ o : List AppClientCtx, ∀ payload : String,
        (RegistryEvent.log "WS_TX" payload ::
          o.map (fun ctx => .serverSendText ctx.client payload)).count (.freed ctx) = 0 :=
      fun o payload => List.count_eq_zero_of_not_mem (by simp)
    dsimp only
    rw [hallocated, hfreed]
    rfl
  · intro ctx
    refine iff_of_false ?_ not_false
    simp

/-- Every promised call returns, whatever has been before it. -/
theorem ClientRegistry.Follows.step (h : r.Follows l calls os) {call : RegistryCall}
    (hpromised : call.Promised r) :
    ∃ x, clientRegistry.step r call = some x ∧ call.Served l calls os x := by
  cases call with
  | onConnect client calloc state => exact ⟨_, rfl, h.onConnect hpromised⟩
  | onDisconnect client => exact h.onDisconnect client
  | handleReadToggle client text => exact h.handleReadToggle client text
  | broadcastText env msg prefixTimestamp =>
    obtain ⟨o, ho, hserved⟩ := h.broadcastText env msg prefixTimestamp
    refine ⟨(r, o), ?_, hserved⟩
    simp only [clientRegistry, ho, Option.map_some]
  | stop => exact h.stop

theorem clientRegistry_run {r₀ : ClientRegistry} {l₀ : List (Addr × AppClientCtx)}
    {before : List RegistryCall} {os₀ : List RegistryEvent} (h : r₀.Follows l₀ before os₀)
    (calls : List RegistryCall) (hpromised : clientRegistry.Along
      (fun r call => RegistryCall.Promised r call) r₀ calls) :
    ∃ r os l, clientRegistry.run r₀ calls = some (r, os) ∧
      r.Follows l (before ++ calls) (os₀ ++ os) := by
  induction calls generalizing r₀ l₀ before os₀ with
  | nil => exact ⟨r₀, [], l₀, rfl, by rw [List.append_nil, List.append_nil]; exact h⟩
  | cons call calls ih =>
    obtain ⟨x, hstep, ⟨l', hfollows⟩, -⟩ := h.step hpromised.1
    obtain ⟨r, os, l, hrun, hlast⟩ := ih hfollows (hpromised.2 x hstep)
    rw [List.append_assoc, List.append_assoc, List.singleton_append] at hlast
    exact ⟨r, x.2 ++ os, l, Machine.run_cons_eq_some.mpr ⟨x.1, x.2, os, hstep, hrun, rfl⟩, hlast⟩

/-- What holds of the list after some calls: it holds the context of each client that has
one, once and with the flag of its own latest toggle; each context is allocated once more
often than it has been freed exactly while it is in the list; the next call returns and
frees the context of the client that goes, or all at the stop; and a broadcast goes once to
each client that it is for. -/
structure ClientRegistry.Lawful (r : ClientRegistry) (l : List (Addr × AppClientCtx))
    (calls : List RegistryCall) (os : List RegistryEvent) : Prop where
  holds : r.store.Holds l
  once : (l.map (fun x => x.2.client)).Nodup
  sessions : ∀ client w, session client calls = some w ↔ ∃ ctx, (ctx, ⟨client, w⟩) ∈ l
  released : ∀ ctx, os.count (.allocated ctx) =
    os.count (.freed ctx) + if ctx ∈ addresses l then 1 else 0
  served : ∀ call, RegistryCall.Promised r call → ∃ r' o,
    clientRegistry.step r call = some (r', o) ∧ ∀ ctx, .freed ctx ∈ o ↔ call.Frees l ctx
  broadcast : ∀ env msg prefixTimestamp, ∃ o,
    r.broadcastText env msg prefixTimestamp = some o ∧ ∀ client payload,
      o.count (.serverSendText client payload) = if env.Reaches calls client ∧
        payload = broadcastPayload prefixTimestamp env.realtimeNs env.malloc msg then 1 else 0

/-- In every order of calls that the library may make, by any number of clients. -/
theorem client_registry (calls : List RegistryCall) (hpromised : clientRegistry.Along
      (fun r call => RegistryCall.Promised r call) .init calls) :
    ∃ r os l, clientRegistry.run .init calls = some (r, os) ∧ r.Lawful l calls os := by
  have hinit : ClientRegistry.init.Follows [] [] [] :=
    ⟨.init, fun client w => by simp [session], fun ctx => rfl⟩
  obtain ⟨r, os, l, hrun, h⟩ := clientRegistry_run hinit calls hpromised
  rw [List.nil_append, List.nil_append] at h
  refine ⟨r, os, l, hrun, h.registers.holds, h.registers.clients_nodup, h.sessions, h.balance,
    ?_, ?_⟩
  · intro call hcall
    obtain ⟨x, hstep, hserved⟩ := h.step hcall
    exact ⟨x.1, x.2, hstep, hserved.frees⟩
  · intro env msg prefixTimestamp
    obtain ⟨o, ho, -⟩ := h.broadcastText env msg prefixTimestamp
    exact ⟨o, ho, h.broadcast_count env msg prefixTimestamp ho⟩

/-- A client that connects, wants no more broadcasts, and is there when the server stops. -/
theorem client_registry_stopped :
    ∃ r os l, clientRegistry.run .init [.onConnect 7 (some 1) .prechilling,
        .handleReadToggle 7 "READ-DISABLE".toList, .stop] = some (r, os) ∧
      r.Lawful l [.onConnect 7 (some 1) .prechilling,
        .handleReadToggle 7 "READ-DISABLE".toList, .stop] os := by
  apply client_registry
  refine ⟨⟨rfl, rfl, fun ctx _ => rfl⟩, ?_⟩
  intro x hx
  obtain rfl := Option.some.inj hx
  refine ⟨rfl, fun y _ => ⟨trivial, fun z _ => trivial⟩⟩

/-! ### The list as the handlers see it -/

/-- What a call does to the list of the context that the handlers share. -/
def RegistryCall.act : RegistryCall → Option Act
  | .onConnect client calloc _ => calloc.map (fun _ => .registerClient client)
  | .onDisconnect client => some (.unregisterClient client)
  | .handleReadToggle client text =>
    if text = "READ-DISABLE".toList then some (.setWriteOnly client true)
    else if text = "READ-ENABLE".toList then some (.setWriteOnly client false)
    else none
  | .broadcastText _ _ _ | .stop => none

/-- In a list with one context for a client a search finds all of them. -/
theorem modify_client (client : Client) (writeOnly : Bool) {ctxs : List AppClientCtx}
    (h : (ctxs.map AppClientCtx.client).Nodup) :
    ctxs.modify (ctxs.findIdx (fun c => c.client == client))
        (fun c => { c with writeOnly := writeOnly }) =
      ctxs.map (fun c => if c.client = client then ⟨client, writeOnly⟩ else c) := by
  induction ctxs with
  | nil => rfl
  | cons c ctxs ih =>
    obtain ⟨hc, h⟩ := List.nodup_cons.mp h
    by_cases hclient : c.client = client
    · have hrest : ctxs.map (fun c => if c.client = client then ⟨client, writeOnly⟩ else c) =
          ctxs := by
        refine (List.map_congr_left ?_).trans (List.map_id ctxs)
        intro other hother
        apply if_neg
        rintro rfl
        exact hc (hclient ▸ List.mem_map_of_mem hother)
      rw [List.findIdx_cons, hclient, beq_self_eq_true, cond_true, List.modify_zero_cons,
        List.map_cons, if_pos hclient, hrest, hclient]
    · rw [List.findIdx_cons, beq_false_of_ne hclient, cond_false, List.modify_succ_cons, ih h,
        List.map_cons, if_neg hclient]

theorem eraseP_client (client : Client) {ctxs : List AppClientCtx}
    (h : (ctxs.map AppClientCtx.client).Nodup) :
    ctxs.eraseP (fun c => c.client == client) =
      ctxs.filter (fun c => decide (c.client ≠ client)) := by
  induction ctxs with
  | nil => rfl
  | cons c ctxs ih =>
    obtain ⟨hc, h⟩ := List.nodup_cons.mp h
    by_cases hclient : c.client = client
    · rw [List.eraseP_cons_of_pos (by simp [hclient]), List.filter_cons_of_neg (by simp [hclient])]
      symm
      apply List.filter_eq_self.mpr
      intro other hother
      apply decide_eq_true
      rintro rfl
      exact hc (hclient ▸ List.mem_map_of_mem hother)
    · rw [List.eraseP_cons_of_neg (by simp [hclient]), List.filter_cons_of_pos (by simp [hclient]),
        ih h]

/-- The user data tell what `clientContext` asks for. -/
theorem clientContext_eq (h : r.Registers l) {p : Process} (hp : p.app.clients = l.map Prod.snd)
    (env : Env) (client : Client) :
    (perform p env (.clientContext client)).2.1 = (r.userData client).isSome := by
  change p.app.clients.any (fun c => c.client == client) = _
  rw [Bool.eq_iff_iff, List.any_eq_true, Option.isSome_iff_exists, hp]
  constructor
  · rintro ⟨c, hc, hclient⟩
    obtain ⟨x, hx, rfl⟩ := List.mem_map.mp hc
    exact ⟨x.1, (h.owns hx client).mpr (beq_iff_eq.mp hclient)⟩
  · rintro ⟨ctx, hctx⟩
    obtain ⟨w, hmem⟩ := (h.userData client ctx).mp hctx
    exact ⟨_, List.mem_map_of_mem hmem, beq_self_eq_true client⟩

/-- A toggle writes one flag, or none where the text asks for neither. -/
theorem toggledCtx_act {client : Client} {text : CText} {p : Process} (env : Env)
    (hnodup : (p.app.clients.map AppClientCtx.client).Nodup) :
    p.app.clients.map (toggledCtx client text) =
      ((RegistryCall.handleReadToggle client text).act.elim p.app.clients
        (fun a => (perform p env a).1.app.clients)) := by
  have hset (writeOnly : Bool) (htext : ∀ w, toggled text w = writeOnly) :
      p.app.clients.map (toggledCtx client text) =
        (perform p env (.setWriteOnly client writeOnly)).1.app.clients := by
    change _ = p.app.clients.modify _ _
    rw [modify_client client writeOnly hnodup]
    apply List.map_congr_left
    intro c _
    unfold toggledCtx
    split_ifs with hclient
    · rw [htext, hclient]
    · rfl
  rw [RegistryCall.act]
  split_ifs with hdisable henable
  · exact hset true (fun w => if_pos hdisable)
  · exact hset false (fun w => by rw [toggled, if_neg hdisable, if_pos henable])
  · refine (List.map_congr_left ?_).trans (List.map_id _)
    intro c _
    unfold toggledCtx
    split_ifs
    · rw [toggled, if_neg hdisable, if_neg henable]
      rfl
    · rfl

/-- The pointers refine the list of the shared context: its actions are the calls, and the
user data tell what `clientContext` asks for. -/
theorem registry_refines (h : r.Registers l) {p : Process} (hp : p.app.clients = l.map Prod.snd)
    (env : Env) {call : RegistryCall} (hpromised : call.Promised r) (hstop : call ≠ .stop) :
    (∀ client, (perform p env (.clientContext client)).2.1 = (r.userData client).isSome) ∧
    ∃ x l', clientRegistry.step r call = some x ∧ x.1.Registers l' ∧
      l'.map Prod.snd =
        (call.act.elim p.app.clients (fun a => (perform p env a).1.app.clients)) := by
  have hnodup : (p.app.clients.map AppClientCtx.client).Nodup := by
    rw [hp, List.map_map]
    exact h.clients_nodup
  refine ⟨clientContext_eq h hp env, ?_⟩
  cases call with
  | onConnect client calloc state =>
    cases calloc with
    | none => exact ⟨_, l, rfl, h.refused client state, hp.symm⟩
    | some ctx =>
      refine ⟨_, _, rfl, h.onConnect state hpromised, ?_⟩
      rw [List.map_cons, ← hp]
      rfl
  | onDisconnect client =>
    obtain ⟨r', hstep, hregisters, -⟩ := h.onDisconnect client
    refine ⟨_, _, hstep, hregisters, ?_⟩
    -- the cell at the address that the user data hold is the one of the client
    change _ = p.app.clients.eraseP (fun c => c.client == client)
    rw [eraseP_client client hnodup, hp, List.filter_map, without]
    apply congrArg
    apply List.filter_congr
    intro x hx
    exact decide_eq_decide.mpr (not_congr (eq_comm.trans (h.owns hx client)))
  | handleReadToggle client text =>
    obtain ⟨r', o, hstep, hregisters, -⟩ := h.handleReadToggle client text
    refine ⟨_, _, hstep, hregisters, ?_⟩
    have hmap : (toggledList client text l).map Prod.snd =
        p.app.clients.map (toggledCtx client text) := by
      rw [hp, toggledList, List.map_map, List.map_map]
      rfl
    exact hmap.trans (toggledCtx_act env hnodup)
  | broadcastText env' msg prefixTimestamp =>
    have hstep := h.broadcastText env' msg prefixTimestamp
    exact ⟨(r, _), l, congrArg (Option.map (fun os => (r, os))) hstep, h, hp.symm⟩
  | stop => exact absurd rfl hstop

end WsServer
