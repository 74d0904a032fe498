import WsServer.Startup

/-! What `main` holds of the system at each of its calls, and that it gives all of it back, on
every path: nothing is closed twice, nothing is used before it is opened or behind its end. -/
namespace WsServer
open Interaction Program

/-- What is open: the locks, and those of them that `main` has taken, the descriptors, with
those that wait on an epoll instance and the timers that are set, a child process, the file of
the log, and the WebSocket server; and whether the loop has been entered. -/
structure Held where
  alive : List Mutex
  taken : List Mutex
  fds : List Int
  registered : List (Int × Int)
  armed : List Int
  child : Option Int
  file : Option ℕ
  server : Option ℕ
  served : Bool
  deriving DecidableEq

def Held.nothing : Held := ⟨[], [], [], [], [], .none, .none, .none, false⟩

/-- The fields of `struct itimerspec` are a time, and one that sets the timer. -/
def SetsTimer (sec nsec : Int) : Prop :=
  0 ≤ sec ∧ 0 ≤ nsec ∧ nsec < 1000000000 ∧ (0 < sec ∨ 0 < nsec)

/-- The calls that `main` may make, by what it holds. -/
def Held.Allows (g : Held) : OsCall → Prop
  | .mutexInit m => m ∉ g.alive
  | .mutexDestroy m => m ∈ g.alive ∧ m ∉ g.taken
  | .mutexLock m => m ∈ g.alive ∧ m ∉ g.taken
  | .mutexUnlock m => m ∈ g.taken
  | .fork _ => g.child = .none
  | .waitChild pid => g.child = some pid
  | .ifIndex fd _ | .recvOwnMsgs fd _ | .bindCan fd _ => fd ∈ g.fds
  | .epollAdd epollFd fd => epollFd ∈ g.fds ∧ fd ∈ g.fds ∧ epollFd ≠ fd ∧
      (epollFd, fd) ∉ g.registered
  | .timerfdSettime fd sec nsec => fd ∈ g.fds ∧ SetsTimer sec nsec
  | .close fd => fd ∈ g.fds
  | .fopen _ => g.file = .none
  | .maintain file => g.file = some file ∧ .logger ∈ g.taken
  | .fclose file => g.file = some file ∧ .logger ∈ g.taken
  | .serverCreate _ _ => g.server = .none ∧ .clients ∈ g.alive
  | .serverSetUp ws _ _ | .serverStart ws | .serverStop ws | .serverJoin ws | .serverDestroy ws =>
    g.server = some ws
  -- no handler is left that could have a client
  | .freeClients => g.server = .none ∧ .clients ∈ g.taken
  -- code that takes each of the locks
  | .context _ => (∀ m, m ∈ g.alive) ∧ g.taken = []
  | .serve canFd epollFd timerFd _ => (∀ m, m ∈ g.alive) ∧ g.taken = [] ∧ g.server ≠ .none ∧
      [timerFd, epollFd, canFd].Nodup ∧ (∀ fd ∈ [timerFd, epollFd, canFd], fd ∈ g.fds) ∧
      g.registered = [(epollFd, timerFd), (epollFd, canFd)] ∧ timerFd ∈ g.armed
  | .sleepUntilStop => (∀ m, m ∈ g.alive) ∧ g.taken = [] ∧ g.server ≠ .none
  | _ => True

/-- A descriptor that the system hands out is one that is not open. -/
def Held.openFd (g : Held) (fd : Int) : Option Held :=
  if fd < 0 then some g
  else if fd ∈ g.fds then .none
  else some { g with fds := fd :: g.fds }

def Held.after (g : Held) : (c : OsCall) → c.Answer → Option Held
  | .mutexInit m, _ => some { g with alive := m :: g.alive }
  | .mutexDestroy m, _ => some { g with alive := g.alive.erase m }
  | .mutexLock m, _ => some { g with taken := m :: g.taken }
  | .mutexUnlock m, _ => some { g with taken := g.taken.erase m }
  | .fork _, pid => some (if (pid : Int) < 0 then g else { g with child := some pid })
  | .waitChild _, _ => some { g with child := .none }
  | .socketCan, fd | .epollCreate, fd | .timerfdCreate, fd => g.openFd fd
  | .epollAdd epollFd fd, added =>
    some (if added then { g with registered := (epollFd, fd) :: g.registered } else g)
  | .timerfdSettime fd _ _, set => some (if set then { g with armed := fd :: g.armed } else g)
  -- an epoll instance forgets a descriptor that is closed
  | .close fd, _ => some { g with
      fds := g.fds.erase fd
      registered := g.registered.filter (fun x => x.1 ≠ fd ∧ x.2 ≠ fd)
      armed := g.armed.filter (fun x => x ≠ fd) }
  | .fopen _, file => some { g with file := file }
  | .fclose _, _ => some { g with file := .none }
  | .serverCreate _ _, ws => some { g with server := ws }
  | .serverDestroy _, _ => some { g with server := .none }
  | .serve _ _ _ _, _ | .sleepUntilStop, _ => some { g with served := true }
  | _, _ => some g

def resources : Protocol osSig Held where
  allowed := Held.Allows
  after := Held.after

/-! ### The calls one by one -/

section Rules
variable {α : Type} {g : Held} {c : OsCall} {k : c.Answer → OsProgram α}
  {post : α → Held → Prop}

theorem follows_os (ha : g.Allows c)
    (hk : ∀ r g', g.after c r = some g' → Follows resources g' (k r) post) :
    Follows resources g (os c >>= k) post := ⟨ha, hk⟩

/-- A call that leaves what is held as it is. -/
theorem follows_plain (ha : g.Allows c) (hsame : ∀ r, g.after c r = some g)
    (hk : ∀ r, Follows resources g (k r) post) : Follows resources g (os c >>= k) post := by
  refine follows_os ha (fun r g' hg => ?_)
  obtain rfl := Option.some.inj ((hsame r).symm.trans hg)
  exact hk r

theorem follows_ret {v : α} (h : post v g) : Follows resources g (pure v : OsProgram α) post := h

end Rules

/-- A command is run to its end. -/
theorem follows_runCommand {g : Held} (hchild : g.child = .none) (argv : List CText) :
    Follows resources g (Startup.runCommand argv) (fun _ g' => g' = g) := by
  refine follows_os hchild (fun pid g' hg => ?_)
  obtain rfl := Option.some.inj hg
  split_ifs with hpid
  · exact follows_ret rfl
  refine follows_os rfl (fun status g'' hg => ?_)
  obtain rfl := Option.some.inj hg
  have hback : { g with child := .none } = g := by rw [← hchild]
  split_ifs
  · exact follows_ret hback
  · exact follows_ret hback

theorem follows_canBusConfigureInterface {g : Held} (hchild : g.child = .none) (ifname : CText)
    (bitrate : UInt32) :
    Follows resources g (Startup.canBusConfigureInterface ifname bitrate) (fun _ g' => g' = g) := by
  unfold Startup.canBusConfigureInterface
  split_ifs
  · exact follows_ret rfl
  refine (follows_runCommand hchild _).bind (fun down g' hg => ?_)
  subst hg
  split_ifs
  · exact follows_ret rfl
  refine (follows_runCommand hchild _).bind (fun type g'' hg => ?_)
  subst hg
  split_ifs
  · exact follows_ret rfl
  refine (follows_runCommand hchild _).bind (fun up g''' hg => ?_)
  subst hg
  split_ifs
  · exact follows_ret rfl
  refine follows_plain trivial (fun _ => rfl) (fun _ => ?_)
  refine (follows_runCommand hchild _).bind (fun gpio g' hg => ?_)
  split_ifs <;> exact follows_ret hg

/-- What waits on an epoll instance and the timers that are set are open descriptors. -/
structure Held.Consistent (g : Held) : Prop where
  nodup : g.fds.Nodup
  registered : ∀ x ∈ g.registered, x.1 ∈ g.fds ∧ x.2 ∈ g.fds
  armed : ∀ fd ∈ g.armed, fd ∈ g.fds

/-- A descriptor that was opened last and is closed first leaves nothing behind. -/
theorem close_open {g : Held} (hg : g.Consistent) {fd : Int} (hfd : fd ∉ g.fds) :
    { g with fds := fd :: g.fds }.after (.close fd) () = some g := by
  have hregistered : g.registered.filter (fun x => x.1 ≠ fd ∧ x.2 ≠ fd) = g.registered := by
    apply List.filter_eq_self.mpr
    intro x hx
    obtain ⟨hfst, hsnd⟩ := hg.registered x hx
    exact decide_eq_true ⟨fun h => hfd (h ▸ hfst), fun h => hfd (h ▸ hsnd)⟩
  have harmed : g.armed.filter (fun x => x ≠ fd) = g.armed := by
    apply List.filter_eq_self.mpr
    intro x hx
    exact decide_eq_true (fun h => hfd (h ▸ hg.armed x hx))
  simp only [Held.after, List.erase_cons_head, hregistered, harmed]

theorem openFd_cases {g g' : Held} {fd : Int} (h : g.openFd fd = some g') :
    (fd < 0 ∧ g' = g) ∨ (0 ≤ fd ∧ fd ∉ g.fds ∧ g' = { g with fds := fd :: g.fds }) := by
  unfold Held.openFd at h
  split_ifs at h with hneg hmem
  · exact Or.inl ⟨hneg, (Option.some.inj h).symm⟩
  · exact Or.inr ⟨not_lt.mp hneg, hmem, (Option.some.inj h).symm⟩

/-- `can_bus_open` holds the descriptor that it returns, and nothing where it fails. -/
theorem follows_canBusOpen {g : Held} (hg : g.Consistent) (ifname : CText) :
    Follows resources g (Startup.canBusOpen ifname) (fun fd g' =>
      (fd < 0 ∧ g' = g) ∨ (0 ≤ fd ∧ fd ∉ g.fds ∧ g' = { g with fds := fd :: g.fds })) := by
  unfold Startup.canBusOpen
  split_ifs
  · exact follows_ret (Or.inl ⟨by decide, rfl⟩)
  refine follows_os trivial (fun fd g' hopen => ?_)
  rcases openFd_cases hopen with ⟨hneg, rfl⟩ | ⟨hpos, hnew, rfl⟩
  · rw [if_pos hneg]
    exact follows_ret (Or.inl ⟨by decide, rfl⟩)
  rw [if_neg (not_lt.mpr hpos)]
  have hfail : Follows resources { g with fds := fd :: g.fds }
      (do os (.close fd); pure (-1) : OsProgram Int) (fun fd g' =>
        (fd < 0 ∧ g' = g) ∨ (0 ≤ fd ∧ fd ∉ g.fds ∧ g' = { g with fds := fd :: g.fds })) := by
    refine follows_os List.mem_cons_self (fun _ g'' hclosed => ?_)
    obtain rfl := Option.some.inj ((close_open hg hnew).symm.trans hclosed)
    exact follows_ret (Or.inl ⟨by decide, rfl⟩)
  refine follows_plain List.mem_cons_self (fun _ => rfl) (fun ifindex => ?_)
  cases ifindex with
  | none => exact hfail
  | some ifindex =>
    refine follows_plain List.mem_cons_self (fun _ => rfl) (fun _ => ?_)
    refine follows_plain List.mem_cons_self (fun _ => rfl) (fun bound => ?_)
    split_ifs
    · exact follows_ret (Or.inr ⟨hpos, hnew, rfl⟩)
    · exact hfail

/-! ### The log -/

/-- The calls that make directories. -/
def OsCall.IsMkdir : OsCall → Prop
  | .mkdir _ => True
  | _ => False

theorem performs_mkdirUnlessThere (path : CText) :
    Performs (S := osSig) OsCall.IsMkdir (Startup.mkdirUnlessThere path) :=
  ⟨trivial, fun _ => trivial⟩

theorem performs_makeDirectories (before path : CText) :
    Performs (S := osSig) OsCall.IsMkdir (Startup.makeDirectories before path) := by
  induction path generalizing before with
  | nil =>
    refine (performs_mkdirUnlessThere before).bind (fun made => ?_)
    split_ifs <;> trivial
  | cons c rest ih =>
    unfold Startup.makeDirectories
    split_ifs
    · exact ih _
    refine (performs_mkdirUnlessThere before).bind (fun made => ?_)
    split_ifs
    · exact ih _
    · trivial

theorem follows_ensureDirectoryExists (g : Held) (path : CText) :
    Follows resources g (Startup.ensureDirectoryExists path) (fun _ g' => g' = g) := by
  have hperforms : Performs (S := osSig) OsCall.IsMkdir (Startup.ensureDirectoryExists path) := by
    cases path with
    | nil => trivial
    | cons c rest =>
      rw [Startup.ensureDirectoryExists]
      split_ifs
      · trivial
      · exact performs_makeDirectories [c] rest
  refine hperforms.follows resources g (fun c hc => ?_)
  cases c with
  | mkdir path => exact ⟨trivial, fun _ _ hg => (Option.some.inj hg).symm⟩
  | _ => exact hc.elim

theorem follows_openLogFile {g : Held} (hfile : g.file = .none) (logDir : CText) :
    Follows resources g (Startup.openLogFile logDir)
      (fun file g' => g' = { g with file := file }) := by
  have hfail : g = { g with file := .none } := by rw [← hfile]
  unfold Startup.openLogFile
  split_ifs
  · exact follows_ret hfail
  refine (follows_ensureDirectoryExists g logDir).bind (fun made g' hg => ?_)
  subst hg
  split_ifs
  · exact follows_ret hfail
  refine follows_plain trivial (fun _ => rfl) (fun now => ?_)
  cases now with
  | none => exact follows_ret hfail
  | some now =>
    refine follows_plain trivial (fun _ => rfl) (fun time => ?_)
    dsimp only
    split
    · exact follows_ret hfail
    split_ifs
    · exact follows_ret hfail
    · exact follows_os hfile (fun file g' hg => (Option.some.inj hg).symm)

/-- `logger_open` keeps its lock and the file where it succeeds, and nothing else. -/
theorem follows_loggerOpen {g : Held} (hfile : g.file = .none) (halive : .logger ∉ g.alive)
    (htaken : .logger ∉ g.taken) (enabled : Bool) (logDir : CText) :
    Follows resources g (Startup.loggerOpen enabled logDir) (fun x g' =>
      (x.1 ≠ 0 ∧ g' = g) ∨
        (x.1 = 0 ∧ g' = { g with alive := .logger :: g.alive, file := x.2 })) := by
  refine follows_os halive (fun _ g₁ hg => ?_)
  obtain rfl := Option.some.inj hg
  split_ifs
  · exact follows_ret (Or.inr ⟨rfl, by rw [← hfile]⟩)
  refine (follows_openLogFile (g := { g with alive := .logger :: g.alive }) hfile logDir).bind
    (fun file g₂ hg => ?_)
  subst hg
  cases file with
  | none =>
    refine follows_os ⟨List.mem_cons_self, htaken⟩ (fun _ g₃ hg => ?_)
    obtain rfl := Option.some.inj hg
    refine follows_ret (Or.inl ⟨by decide, ?_⟩)
    rw [List.erase_cons_head, ← hfile]
  | some file =>
    refine follows_os ⟨List.mem_cons_self, htaken⟩ (fun _ g₃ hg => ?_)
    obtain rfl := Option.some.inj hg
    refine follows_plain ⟨rfl, List.mem_cons_self⟩ (fun _ => rfl) (fun _ => ?_)
    refine follows_os List.mem_cons_self (fun _ g₄ hg => ?_)
    obtain rfl := Option.some.inj hg
    refine follows_ret (Or.inr ⟨rfl, ?_⟩)
    rw [List.erase_cons_head]

/-- `logger_close` gives back the lock and the file. -/
theorem follows_loggerClose {g : Held} (halive : .logger ∈ g.alive) (htaken : .logger ∉ g.taken) :
    Follows resources g (Startup.loggerClose g.file) (fun _ g' =>
      g' = { g with alive := g.alive.erase .logger, file := .none }) := by
  refine follows_os ⟨halive, htaken⟩ (fun _ g₁ hg => ?_)
  obtain rfl := Option.some.inj hg
  -- what is done with the lock in hand
  have hrest : Follows resources { g with taken := .logger :: g.taken, file := .none }
      (do os (.mutexUnlock .logger); os (.mutexDestroy .logger) : OsProgram Unit) (fun _ g' =>
        g' = { g with alive := g.alive.erase .logger, file := .none }) := by
    refine follows_os List.mem_cons_self (fun _ g₂ hg => ?_)
    obtain rfl := Option.some.inj hg
    rw [List.erase_cons_head]
    refine ⟨⟨halive, htaken⟩, fun _ g₃ hg => ?_⟩
    obtain rfl := Option.some.inj hg
    rfl
  cases hfile : g.file with
  | none => exact hrest
  | some file =>
    refine follows_os ⟨rfl, List.mem_cons_self⟩ (fun _ g₂ hg => ?_)
    obtain rfl := Option.some.inj hg
    exact hrest

/-! ### The descriptors -/

/-- The descriptors among these, which are negative where nothing is open. -/
def openFds (fds : List Int) : List Int := fds.filter (fun fd => 0 ≤ fd)

/-- All that is held behind the opening of the log, before the loop or behind it. -/
structure Runtime.Owns (app : Runtime) (served : Bool) (g : Held) : Prop where
  alive : g.alive = [.logger, .sequence, .can, .state, .clients]
  taken : g.taken = []
  fds : g.fds = openFds [app.timerFd, app.epollFd, app.canFd]
  consistent : g.Consistent
  child : g.child = .none
  file : g.file = app.logFile
  server : g.server = app.ws
  served : g.served = served

/-- The first of the descriptors is closed, where it is one. -/
theorem follows_closeUnlessNone {g : Held} {fd : Int} {fds : List Int} (hg : g.Consistent)
    (hfds : g.fds = openFds (fd :: fds)) :
    Follows resources g (Startup.closeUnlessNone fd) (fun _ g' =>
      g'.Consistent ∧ ∃ registered armed,
        g' = { g with fds := openFds fds, registered := registered, armed := armed }) := by
  unfold Startup.closeUnlessNone
  split_ifs with hopen
  · have hcons : g.fds = fd :: openFds fds := by simp [hfds, openFds, hopen]
    have hmem : fd ∈ g.fds := by rw [hcons]; exact List.mem_cons_self
    refine ⟨hmem, fun _ g' hclose => ?_⟩
    obtain rfl := Option.some.inj hclose
    have hrest : g.fds.erase fd = openFds fds := by rw [hcons, List.erase_cons_head]
    have hnodup := hg.nodup
    have hkept (x : Int) (hx : x ∈ g.fds) (hne : x ≠ fd) : x ∈ g.fds.erase fd :=
      (List.mem_erase_of_ne hne).mpr hx
    refine ⟨⟨hnodup.erase fd, ?_, ?_⟩, _, _, by rw [hrest]⟩
    · intro x hx
      obtain ⟨hx, hne⟩ := List.mem_filter.mp hx
      obtain ⟨hfst, hsnd⟩ := of_decide_eq_true hne
      obtain ⟨h₁, h₂⟩ := hg.registered x hx
      exact ⟨hkept _ h₁ hfst, hkept _ h₂ hsnd⟩
    · intro x hx
      obtain ⟨hx, hne⟩ := List.mem_filter.mp hx
      exact hkept _ (hg.armed x hx) (of_decide_eq_true hne)
  · have hsame : g.fds = openFds fds := by
      rw [hfds, openFds, List.filter_cons_of_neg (by simpa using hopen), openFds]
    refine follows_ret ⟨hg, g.registered, g.armed, ?_⟩
    rw [← hsame]

theorem canBusClose_eq (fd : Int) : Startup.canBusClose fd = Startup.closeUnlessNone fd := by
  unfold Startup.canBusClose Startup.closeUnlessNone
  by_cases hneg : fd < 0
  · rw [if_pos hneg, if_neg (not_le.mpr hneg)]
  · rw [if_neg hneg, if_pos (not_lt.mp hneg)]

/-- With no descriptor left nothing waits and no timer is set. -/
theorem Held.Consistent.closed {g : Held} (hg : g.Consistent) (hfds : g.fds = []) :
    g.registered = [] ∧ g.armed = [] := by
  constructor
  · apply List.eq_nil_iff_forall_not_mem.mpr
    intro x hx
    have hfst := (hg.registered x hx).1
    rw [hfds] at hfst
    cases hfst
  · apply List.eq_nil_iff_forall_not_mem.mpr
    intro fd hfd
    have hmem := hg.armed fd hfd
    rw [hfds] at hmem
    cases hmem

/-! ### The server and the context -/

theorem follows_wsBridgeStart {g : Held} (hserver : g.server = .none) (hclients : .clients ∈ g.alive)
    (cfg : AppConfigT) :
    Follows resources g (Startup.wsBridgeStart cfg) (fun x g' =>
      g' = { g with server := x.2 } ∧ (x.1 = 0 → x.2 ≠ .none)) := by
  refine follows_os ⟨hserver, hclients⟩ (fun ws g' hg => ?_)
  obtain rfl := Option.some.inj hg
  cases ws with
  | none => exact follows_ret ⟨rfl, fun h => absurd h (by decide)⟩
  | some ws =>
    refine follows_plain rfl (fun _ => rfl) (fun _ => ?_)
    refine follows_plain rfl (fun _ => rfl) (fun rc => ?_)
    exact follows_ret ⟨rfl, fun _ => Option.some_ne_none ws⟩

/-- `ws_bridge_stop` frees the clients when no handler is left. -/
theorem follows_wsBridgeStop {g : Held} (hclients : .clients ∈ g.alive)
    (htaken : .clients ∉ g.taken) :
    Follows resources g (Startup.wsBridgeStop g.server) (fun _ g' =>
      g' = { g with server := .none }) := by
  cases hserver : g.server with
  | none =>
    refine follows_ret ?_
    rw [← hserver]
  | some ws =>
    refine follows_plain hserver (fun _ => rfl) (fun _ => ?_)
    refine follows_plain hserver (fun _ => rfl) (fun _ => ?_)
    refine follows_os hserver (fun _ g₁ hg => ?_)
    obtain rfl := Option.some.inj hg
    refine follows_os ⟨hclients, htaken⟩ (fun _ g₂ hg => ?_)
    obtain rfl := Option.some.inj hg
    refine follows_plain ⟨rfl, List.mem_cons_self⟩ (fun _ => rfl) (fun _ => ?_)
    refine ⟨List.mem_cons_self, fun _ g₃ hg => ?_⟩
    obtain rfl := Option.some.inj hg
    simp only [List.erase_cons_head]
    exact rfl

/-- The locks of the context, and nothing else. -/
def contextHeld : Held := { Held.nothing with alive := [.sequence, .can, .state, .clients] }

theorem follows_initLocks {ms : List Mutex} (hms : ms.Nodup) {g : Held}
    (hnew : ∀ m ∈ ms, m ∉ g.alive) :
    Follows resources g (ms.forM (fun m => os (.mutexInit m)) : OsProgram Unit) (fun _ g' =>
      g' = { g with alive := ms.reverse ++ g.alive }) := by
  induction ms generalizing g with
  | nil => exact follows_ret rfl
  | cons m ms ih =>
    obtain ⟨hm, hms⟩ := List.nodup_cons.mp hms
    refine follows_os (hnew m List.mem_cons_self) (fun _ g' hg => ?_)
    obtain rfl := Option.some.inj hg
    refine (ih hms ?_).mono (fun _ g' hg => ?_)
    · intro m' hm'
      rw [List.mem_cons, not_or]
      exact ⟨fun heq => hm (heq ▸ hm'), hnew m' (List.mem_cons_of_mem m hm')⟩
    · rw [hg, List.reverse_cons, List.append_assoc, List.singleton_append]

theorem follows_destroyLocks {ms : List Mutex} (hms : ms.Nodup) {g : Held}
    (halive : ∀ m ∈ ms, m ∈ g.alive ∧ m ∉ g.taken) :
    Follows resources g (ms.forM (fun m => os (.mutexDestroy m)) : OsProgram Unit) (fun _ g' =>
      g' = { g with alive := g.alive.diff ms }) := by
  induction ms generalizing g with
  | nil => exact follows_ret rfl
  | cons m ms ih =>
    obtain ⟨hm, hms⟩ := List.nodup_cons.mp hms
    refine follows_os (halive m List.mem_cons_self) (fun _ g' hg => ?_)
    obtain rfl := Option.some.inj hg
    refine (ih hms ?_).mono (fun _ g' hg => ?_)
    · intro m' hm'
      obtain ⟨hthere, hfree⟩ := halive m' (List.mem_cons_of_mem m hm')
      have hne : m' ≠ m := fun heq => hm (heq ▸ hm')
      exact ⟨(List.mem_erase_of_ne hne).mpr hthere, hfree⟩
    · rw [hg, List.diff_cons]

theorem follows_appContextInit :
    Follows resources .nothing Startup.appContextInit (fun _ g' => g' = contextHeld) :=
  follows_initLocks (by decide) (by decide)

theorem follows_appContextCleanup (served : Bool) :
    Follows resources { contextHeld with served := served } Startup.appContextCleanup
      (fun _ g' => g' = { Held.nothing with served := served }) :=
  follows_destroyLocks (by decide)
    (by decide : ∀ m ∈ Startup.contextLocks, m ∈ contextHeld.alive ∧ m ∉ contextHeld.taken)

/-! ### The way out -/

/-- The way out of `main` gives back all that is held behind the opening of the log. -/
theorem follows_shutDown {app : Runtime} {served : Bool} {g : Held} (h : app.Owns served g)
    (status : Int) :
    Follows resources g (Startup.shutDown app status) (fun v g' =>
      v = status ∧ g' = { Held.nothing with served := served }) := by
  have halive (m : Mutex) : m ∈ g.alive := by
    rw [h.alive]
    cases m <;> decide
  have hfree (m : Mutex) : m ∉ g.taken := by
    rw [h.taken]
    exact List.not_mem_nil
  have hruntime : Follows resources g (Startup.shutdownRuntime app) (fun _ g' =>
      g' = { contextHeld with served := served }) := by
    refine follows_plain ⟨halive, h.taken⟩ (fun _ => rfl) (fun _ => ?_)
    rw [← h.server]
    refine (follows_wsBridgeStop (halive _) (hfree _)).bind (fun _ g₁ hg₁ => ?_)
    subst hg₁
    have hconsistent : Held.Consistent { g with server := .none } :=
      ⟨h.consistent.nodup, h.consistent.registered, h.consistent.armed⟩
    refine (follows_closeUnlessNone hconsistent h.fds).bind (fun _ g₂ hg₂ => ?_)
    obtain ⟨hconsistent₂, r₂, a₂, rfl⟩ := hg₂
    refine (follows_closeUnlessNone hconsistent₂ rfl).bind (fun _ g₃ hg₃ => ?_)
    obtain ⟨hconsistent₃, r₃, a₃, rfl⟩ := hg₃
    rw [canBusClose_eq]
    refine (follows_closeUnlessNone hconsistent₃ rfl).bind (fun _ g₄ hg₄ => ?_)
    obtain ⟨hconsistent₄, r₄, a₄, rfl⟩ := hg₄
    obtain ⟨rfl, rfl⟩ := hconsistent₄.closed rfl
    rw [← h.file]
    let last : Held := { g with fds := [], registered := [], armed := [], server := .none }
    have hclose : Follows resources last (Startup.loggerClose last.file) (fun _ g' =>
        g' = { last with alive := last.alive.erase .logger, file := .none }) :=
      follows_loggerClose (halive _) (hfree _)
    refine hclose.mono (fun _ g₅ hg₅ => ?_)
    rw [hg₅]
    simp only [last, h.alive, h.taken, h.child, h.served]
    rfl
  refine hruntime.bind (fun _ g' hg => ?_)
  subst hg
  exact (follows_appContextCleanup served).bind (fun _ g' hg => ⟨rfl, hg⟩)

/-! ### The way in -/

/-- The loop of `main` can wait for the bus and the timer, and tell them apart. -/
structure Runtime.Ready (app : Runtime) (g : Held) : Prop where
  distinct : [app.timerFd, app.epollFd, app.canFd].Nodup
  fds : ∀ fd ∈ [app.timerFd, app.epollFd, app.canFd], fd ∈ g.fds
  registered : g.registered = [(app.epollFd, app.timerFd), (app.epollFd, app.canFd)]
  armed : app.timerFd ∈ g.armed

theorem Held.Consistent.open {g : Held} (hg : g.Consistent) {fd : Int} (hfd : fd ∉ g.fds) :
    Held.Consistent { g with fds := fd :: g.fds } where
  nodup := List.nodup_cons.mpr ⟨hfd, hg.nodup⟩
  registered x hx :=
    ⟨List.mem_cons_of_mem fd (hg.registered x hx).1, List.mem_cons_of_mem fd (hg.registered x hx).2⟩
  armed x hx := List.mem_cons_of_mem fd (hg.armed x hx)

/-- A positive number of milliseconds sets the timer. -/
theorem setsTimer_tick {ms : Int} (hms : 0 < ms) :
    SetsTimer (ms.tdiv 1000) (ms.tmod 1000 * 1000000) := by
  rw [Int.tdiv_eq_ediv_of_nonneg hms.le, Int.tmod_eq_emod_of_nonneg hms.le]
  refine ⟨?_, ?_, ?_, ?_⟩ <;> omega

/-- What `init_runtime` and its parts leave: what was opened is held, and where they succeed
the loop can be entered. -/
def InitLeaves (real : Prop) (x : Int × Runtime) (g : Held) : Prop :=
  x.2.Owns false g ∧ x.2.ws = .none ∧ (x.1 = 0 → real → x.2.Ready g)

variable {real : Prop} {g : Held} {app : Runtime} {cfg : AppConfigT}

/-- A step that fails is reported, and leaves what was opened before. -/
theorem follows_failed (h : app.Owns false g) (hws : app.ws = .none) (text : CText) :
    Follows resources g (Startup.failed text app) (InitLeaves real) := by
  refine follows_plain trivial (fun _ => rfl) (fun _ => ?_)
  exact follows_ret ⟨h, hws, fun hzero => absurd hzero (by decide : (-1 : Int) ≠ 0)⟩

theorem follows_initTimer (htick : 0 < cfg.tickIntervalMs.toInt) (h : app.Owns false g)
    (hws : app.ws = .none) (htimer : app.timerFd = -1) (hepoll : 0 ≤ app.epollFd)
    (hcan : 0 ≤ app.canFd) (hregistered : g.registered = [(app.epollFd, app.canFd)]) :
    Follows resources g (Startup.initTimer cfg app) (InitLeaves real) := by
  have hfds : g.fds = [app.epollFd, app.canFd] := by
    simp [h.fds, openFds, htimer, hepoll, hcan]
  refine follows_os trivial (fun timerFd g₁ hopen => ?_)
  dsimp only
  rcases openFd_cases hopen with ⟨hneg, rfl⟩ | ⟨hpos, hnew, rfl⟩
  · have howns : Runtime.Owns { app with timerFd := timerFd } false g₁ := by
      refine ⟨h.alive, h.taken, ?_, h.consistent, h.child, h.file, h.server, h.served⟩
      simp [h.fds, openFds, htimer, hneg]
    rw [if_pos hneg]
    exact follows_failed howns hws _
  rw [if_neg (not_lt.mpr hpos)]
  have howns : Runtime.Owns { app with timerFd := timerFd } false { g with fds := timerFd :: g.fds } := by
    refine ⟨h.alive, h.taken, ?_, h.consistent.open hnew, h.child, h.file, h.server, h.served⟩
    simp [h.fds, openFds, htimer, hpos]
  refine follows_os ⟨List.mem_cons_self, setsTimer_tick htick⟩ (fun set g₂ hg => ?_)
  obtain rfl := Option.some.inj hg
  cases set with
  | false => exact follows_failed howns hws _
  | true =>
    have hset : Runtime.Owns { app with timerFd := timerFd } false
        { g with fds := timerFd :: g.fds, armed := timerFd :: g.armed } := by
      refine ⟨h.alive, h.taken, howns.fds, ?_, h.child, h.file, h.server, h.served⟩
      refine ⟨howns.consistent.nodup, howns.consistent.registered, ?_⟩
      intro fd hfd
      rcases List.mem_cons.mp hfd with rfl | hfd
      · exact List.mem_cons_self
      · exact howns.consistent.armed fd hfd
    -- the timer is not the epoll instance, and only the socket waits there so far
    have hepollMem : app.epollFd ∈ g.fds := by rw [hfds]; exact List.mem_cons_self
    have hne : app.epollFd ≠ timerFd := fun heq => hnew (heq ▸ hepollMem)
    have hfree : (app.epollFd, timerFd) ∉ g.registered := by
      rw [hregistered, List.mem_singleton]
      intro heq
      have hcanMem : app.canFd ∈ g.fds := by
        rw [hfds]
        exact List.mem_cons_of_mem _ List.mem_cons_self
      exact hnew ((Prod.mk.inj heq).2 ▸ hcanMem)
    refine follows_os ⟨List.mem_cons_of_mem _ hepollMem, List.mem_cons_self, hne, hfree⟩
      (fun added g₃ hg => ?_)
    obtain rfl := Option.some.inj hg
    cases added with
    | false => exact follows_failed hset hws _
    | true =>
      refine follows_ret ⟨⟨h.alive, h.taken, hset.fds, ⟨hset.consistent.nodup, ?_,
        hset.consistent.armed⟩, h.child, h.file, h.server, h.served⟩, hws, fun _ _ => ?_⟩
      · intro x hx
        rcases List.mem_cons.mp hx with rfl | hx
        · exact ⟨List.mem_cons_of_mem _ hepollMem, List.mem_cons_self⟩
        · exact hset.consistent.registered x hx
      · have hopen : timerFd :: g.fds = [timerFd, app.epollFd, app.canFd] := by rw [hfds]
        refine ⟨hopen ▸ howns.consistent.nodup, fun fd hfd => hopen ▸ hfd, ?_, List.mem_cons_self⟩
        rw [← hregistered]
        rfl

theorem follows_initEpoll (htick : 0 < cfg.tickIntervalMs.toInt) (h : app.Owns false g)
    (hws : app.ws = .none) (htimer : app.timerFd = -1) (hepoll : app.epollFd = -1)
    (hcan : 0 ≤ app.canFd) (hregistered : g.registered = []) :
    Follows resources g (Startup.initEpoll cfg app) (InitLeaves real) := by
  have hfds : g.fds = [app.canFd] := by
    simp [h.fds, openFds, htimer, hepoll, hcan]
  refine follows_os trivial (fun epollFd g₁ hopen => ?_)
  dsimp only
  rcases openFd_cases hopen with ⟨hneg, rfl⟩ | ⟨hpos, hnew, rfl⟩
  · have howns : Runtime.Owns { app with epollFd := epollFd } false g₁ := by
      refine ⟨h.alive, h.taken, ?_, h.consistent, h.child, h.file, h.server, h.served⟩
      simp [h.fds, openFds, htimer, hepoll, hneg]
    rw [if_pos hneg]
    exact follows_failed howns hws _
  rw [if_neg (not_lt.mpr hpos)]
  have howns : Runtime.Owns { app with epollFd := epollFd } false { g with fds := epollFd :: g.fds } := by
    refine ⟨h.alive, h.taken, ?_, h.consistent.open hnew, h.child, h.file, h.server, h.served⟩
    simp [h.fds, openFds, htimer, hepoll, hpos]
  have hcanMem : app.canFd ∈ g.fds := by rw [hfds]; exact List.mem_cons_self
  have hne : epollFd ≠ app.canFd := fun heq => hnew (heq ▸ hcanMem)
  refine follows_os ⟨List.mem_cons_self, List.mem_cons_of_mem _ hcanMem, hne, ?_⟩
    (fun added g₂ hg => ?_)
  · rw [hregistered]
    exact List.not_mem_nil
  obtain rfl := Option.some.inj hg
  cases added with
  | false => exact follows_failed howns hws _
  | true =>
    refine follows_initTimer htick ⟨h.alive, h.taken, howns.fds, ⟨howns.consistent.nodup, ?_,
      howns.consistent.armed⟩, h.child, h.file, h.server, h.served⟩ hws htimer hpos hcan ?_
    · intro x hx
      rcases List.mem_cons.mp hx with rfl | hx
      · exact ⟨List.mem_cons_self, List.mem_cons_of_mem _ hcanMem⟩
      · exact howns.consistent.registered x hx
    · rw [← hregistered]
      rfl

theorem follows_initRuntime (htick : 0 < cfg.tickIntervalMs.toInt) {logFile : Option ℕ}
    (h : Runtime.Owns ⟨-1, -1, -1, .none, logFile⟩ false g) :
    Follows resources g (Startup.initRuntime cfg ⟨-1, -1, -1, .none, logFile⟩)
      (InitLeaves (cfg.testingMode = false)) := by
  unfold Startup.initRuntime
  split_ifs with htesting
  · exact follows_ret ⟨h, rfl, fun _ hreal => absurd (htesting.symm.trans hreal) (by decide)⟩
  have hconfigure : Follows resources g (Startup.autoConfigure cfg) (fun _ g' => g' = g) := by
    unfold Startup.autoConfigure
    split_ifs
    · exact follows_canBusConfigureInterface h.child _ _
    · exact follows_ret rfl
  refine hconfigure.bind (fun configured g₀ hg₀ => ?_)
  subst hg₀
  split_ifs
  · exact follows_failed h rfl _
  obtain ⟨hregistered, -⟩ := h.consistent.closed h.fds
  refine (follows_canBusOpen h.consistent _).bind (fun canFd g₁ hg₁ => ?_)
  dsimp only
  rcases hg₁ with ⟨hneg, rfl⟩ | ⟨hcan, hnew, rfl⟩
  · have howns : Runtime.Owns ⟨canFd, -1, -1, .none, logFile⟩ false g₁ := by
      refine ⟨h.alive, h.taken, ?_, h.consistent, h.child, h.file, h.server, h.served⟩
      simp [h.fds, openFds, hneg]
    rw [if_pos hneg]
    exact follows_failed howns rfl _
  · rw [if_neg (not_lt.mpr hcan)]
    refine follows_initEpoll htick ⟨h.alive, h.taken, ?_, h.consistent.open hnew, h.child, h.file,
      h.server, h.served⟩ rfl rfl rfl hcan hregistered
    simp [h.fds, openFds, hcan]

/-! ### All of `main` -/

theorem follows_announce (g : Held) :
    Follows resources g (Startup.announce cfg) (fun _ g' => g' = g) := by
  refine follows_plain trivial (fun _ => rfl) (fun _ => ?_)
  split_ifs
  · exact ⟨trivial, fun _ _ hg => (Option.some.inj hg).symm⟩
  · exact follows_ret rfl

/-- The loop is entered with all that it uses. -/
theorem follows_serveUntilStop (h : app.Owns false g) (hws : app.ws ≠ .none)
    (hready : cfg.testingMode = false → app.Ready g) :
    Follows resources g (Startup.serveUntilStop cfg app) (fun _ g' =>
      g' = { g with served := true }) := by
  have halive (m : Mutex) : m ∈ g.alive := by
    rw [h.alive]
    cases m <;> decide
  have hserver : g.server ≠ .none := by rwa [h.server]
  refine (follows_announce g).bind (fun _ g' hg => ?_)
  subst hg
  refine follows_plain trivial (fun _ => rfl) (fun now => ?_)
  dsimp only
  split_ifs with htesting
  · exact ⟨⟨halive, h.taken, hserver⟩, fun _ _ hg => (Option.some.inj hg).symm⟩
  · have hr := hready ((Bool.not_eq_true _).mp htesting)
    exact ⟨⟨halive, h.taken, hserver, hr.distinct, hr.fds, hr.registered, hr.armed⟩,
      fun _ _ hg => (Option.some.inj hg).symm⟩

theorem follows_run (htick : 0 < cfg.tickIntervalMs.toInt) :
    Follows resources .nothing (Startup.run cfg) (fun v g =>
      (v = 0 ∨ v = 1) ∧ g = { Held.nothing with served := decide (v = 0) }) := by
  have hout {app : Runtime} {g : Held} {status : Int} (h : app.Owns (decide (status = 0)) g)
      (hstatus : status = 0 ∨ status = 1) :
      Follows resources g (Startup.shutDown app status) (fun v g =>
        (v = 0 ∨ v = 1) ∧ g = { Held.nothing with served := decide (v = 0) }) := by
    refine (follows_shutDown h status).mono (fun v g' hg => ?_)
    rw [hg.1, hg.2]
    exact ⟨hstatus, rfl⟩
  refine follows_appContextInit.bind (fun _ g₁ hg₁ => ?_)
  subst hg₁
  refine follows_plain trivial (fun _ => rfl) (fun _ => ?_)
  refine follows_plain trivial (fun _ => rfl) (fun _ => ?_)
  refine (follows_loggerOpen rfl (by decide) (by decide) _ _).bind (fun x g₂ hg₂ => ?_)
  obtain ⟨opened, logFile⟩ := x
  dsimp only at hg₂ ⊢
  rcases hg₂ with ⟨hfail, rfl⟩ | ⟨hzero, rfl⟩
  · rw [if_pos hfail]
    refine follows_plain trivial (fun _ => rfl) (fun _ => ?_)
    exact (follows_appContextCleanup false).bind (fun _ g' hg => ⟨Or.inr rfl, hg⟩)
  rw [if_neg (not_not.mpr hzero)]
  have howns : Runtime.Owns ⟨-1, -1, -1, .none, logFile⟩ false
      { contextHeld with alive := .logger :: contextHeld.alive, file := logFile } :=
    ⟨rfl, rfl, rfl, ⟨List.nodup_nil, (fun _ hx => nomatch hx), (fun _ hx => nomatch hx)⟩, rfl, rfl,
      rfl, rfl⟩
  refine (follows_initRuntime htick howns).bind (fun x g₃ hg₃ => ?_)
  obtain ⟨ready, app⟩ := x
  obtain ⟨howned, hws, hready⟩ := hg₃
  dsimp only at howned hws hready ⊢
  split_ifs with hfailed
  · exact hout howned (Or.inr rfl)
  have hclients : .clients ∈ g₃.alive := by
    rw [howned.alive]
    decide
  refine (follows_wsBridgeStart (howned.server.trans hws) hclients cfg).bind (fun x g₄ hg₄ => ?_)
  obtain ⟨started, ws⟩ := x
  obtain ⟨rfl, hstarted⟩ := hg₄
  dsimp only at hstarted ⊢
  have hbridge : Runtime.Owns { app with ws := ws } false { g₃ with server := ws } :=
    ⟨howned.alive, howned.taken, howned.fds,
      ⟨howned.consistent.nodup, howned.consistent.registered, howned.consistent.armed⟩,
      howned.child, howned.file, rfl, howned.served⟩
  split_ifs with hfailed'
  · refine follows_plain trivial (fun _ => rfl) (fun _ => ?_)
    exact hout hbridge (Or.inr rfl)
  have hloop (hreal : cfg.testingMode = false) : Runtime.Ready { app with ws := ws }
      { g₃ with server := ws } := by
    have hr := hready (not_not.mp hfailed) hreal
    exact ⟨hr.distinct, hr.fds, hr.registered, hr.armed⟩
  refine (follows_serveUntilStop hbridge (hstarted (not_not.mp hfailed')) hloop).bind
    (fun _ g₅ hg₅ => ?_)
  subst hg₅
  have hserved : Runtime.Owns { app with ws := ws } true { g₃ with server := ws, served := true } :=
    ⟨howned.alive, howned.taken, howned.fds,
      ⟨howned.consistent.nodup, howned.consistent.registered, howned.consistent.armed⟩,
      howned.child, howned.file, rfl, rfl⟩
  exact hout hserved (Or.inl rfl)

/-- The server goes on with no other configuration than one that passes the last check. -/
theorem parse_valid {fopen : FileSystem} {cfg₀ cfg : AppConfigT} {argv : List CText}
    {printed : List Diagnostic}
    (h : appConfigParse fopen cfg₀ argv = .returned 0 cfg printed) : ¬ cfg.Invalid := by
  unfold appConfigParse at h
  cases hscan : scanConfigPath argv.tail none with
  | none =>
    simp only [hscan] at h
    cases h
  | some path =>
    simp only [hscan] at h
    split at h
    · cases h
    split at h
    · cases h
    split_ifs at h with hinvalid
    · cases h
    · injection h with _ hcfg
      rwa [← hcfg]

theorem follows_diagnostics (printed : List Diagnostic) (g : Held) :
    Follows resources g (printed.forM Startup.printDiagnostic : OsProgram Unit)
      (fun _ g' => g' = g) := by
  induction printed with
  | nil => exact follows_ret rfl
  | cons d rest ih =>
    cases d with
    | text s => exact follows_plain trivial (fun _ => rfl) (fun _ => ih)
    | perror path e => exact follows_plain trivial (fun _ => rfl) (fun _ => ih)

/-- On every path through `main`, whatever the system answers, each call is one that may be made
with what is held, nothing is held at the end, and 0 is returned exactly where the loop has been
entered. -/
theorem main_gives_back_all (fopen : FileSystem) (argv : List CText) :
    Follows resources .nothing (Startup.main (appConfigParse fopen appConfigInitDefaults argv))
      (fun v g => (v = 0 ∨ v = 1) ∧ g = { Held.nothing with served := decide (v = 0) }) := by
  have hone {p : OsProgram Int} (hp : p = pure 1) : Follows resources .nothing p (fun v g =>
      (v = 0 ∨ v = 1) ∧ g = { Held.nothing with served := decide (v = 0) }) := by
    rw [hp]
    exact follows_ret ⟨Or.inr rfl, rfl⟩
  cases hparse : appConfigParse fopen appConfigInitDefaults argv with
  | exit printed =>
    refine (follows_diagnostics printed .nothing).bind (fun _ g hg => ?_)
    subst hg
    exact hone rfl
  | returned status cfg printed =>
    refine (follows_diagnostics printed .nothing).bind (fun _ g hg => ?_)
    subst hg
    split_ifs with hstatus
    · exact follows_plain trivial (fun _ => rfl) (fun _ => hone rfl)
    obtain rfl := not_not.mp hstatus
    have htick : ¬ cfg.tickIntervalMs ≤ 0 :=
      fun h => parse_valid hparse (Or.inr (Or.inr (Or.inl h)))
    rw [Int32.le_iff_toInt_le] at htick
    exact follows_run (Int.not_le.mp htick)

end WsServer
