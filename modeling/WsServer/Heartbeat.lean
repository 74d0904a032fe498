import Mathlib.Algebra.Group.Nat.Defs
import WsServer.CanBus
import WsServer.Logger
import WsServer.Base.Machine
import WsServer.Base.Periodic

/-! The heartbeat of the main loop: how ticks of the timer, however late or bunched, are
turned into one attempt in each period, on the grid of the start time. -/
namespace WsServer
open Interaction

def heartbeatCanId : UInt32 := 0x001

def heartbeatValue : UInt16 := 0x0001

def heartbeatPeriodMs : UInt64 := 1000

/-- `heartbeat_now_ms`; `clock` is what `clock_gettime` read, if it did. -/
def heartbeatNowMs (clock : Option Timespec) : UInt64 :=
  match clock with
  | none => 0
  | some ts => UInt64.ofInt ts.sec * 1000 + UInt64.ofInt ts.nsec / 1000000

/-- `heartbeat_send` -/
def heartbeatSend (canFd : Int) (write : Option String) : SendResult :=
  if canFd < 0 then .refused "Invalid argument"
  else canBusSendCommand canFd ⟨heartbeatCanId, heartbeatValue, 0⟩ write

/-- What a tick of the timer finds: the reading of the clock, and the outcome of the
write on the CAN socket, should there be one. -/
structure TimerTick where
  clock : Option Timespec
  write : Option String

def TimerTick.nowMs (tick : TimerTick) : UInt64 := heartbeatNowMs tick.clock

inductive HeartbeatEvent where
  | attempt (result : SendResult)
  | perror (text : String)
  deriving DecidableEq

def HeartbeatEvent.isAttempt : HeartbeatEvent → Bool
  | .attempt _ => true
  | .perror _ => false

/-- One attempt; a full transmit queue is no reason to complain. -/
def heartbeatEvents (result : SendResult) : List HeartbeatEvent :=
  match result with
  | .sent => [.attempt result]
  | .refused error =>
    if error = "No buffer space available" then [.attempt result]
    else [.attempt result, .perror ("heartbeat_send: " ++ error)]

/-- The loop that moves `next_heartbeat_ms` behind the tick, for at most `fuel` rounds. -/
def catchUp (now : UInt64) : ℕ → UInt64 → Option UInt64
  | 0, _ => none
  | fuel+1, next =>
    let next := next + heartbeatPeriodMs
    if next ≤ now then catchUp now fuel next else some next

/-- The heartbeat of `main` in the branch of the timer, on `next_heartbeat_ms`. -/
def heartbeatTick (fuel : ℕ) (canFd : Int) (next : UInt64) (tick : TimerTick) :
    Option (UInt64 × List HeartbeatEvent) :=
  if tick.nowMs ≥ next then
    (catchUp tick.nowMs fuel next).map fun next =>
      (next, heartbeatEvents (heartbeatSend canFd tick.write))
  else some (next, [])

/-- The schedule over a run of ticks; its state is `next_heartbeat_ms`. -/
def heartbeatTimer (fuel : ℕ) (canFd : Int) : Machine UInt64 TimerTick HeartbeatEvent :=
  ⟨heartbeatTick fuel canFd⟩

abbrev HeartbeatStep := Machine.Taken UInt64 TimerTick HeartbeatEvent

/-- Whether a tick has sent, or tried to. -/
def HeartbeatAttempted (canFd : Int) (x : HeartbeatStep) : Prop :=
  .attempt (heartbeatSend canFd x.label.write) ∈ x.outputs

/-- The time lies in window `k` of the periods that begin at `s`. -/
def InWindow (s : UInt64) (k : ℕ) (now : UInt64) : Prop :=
  s.toNat + 1000 * k ≤ now.toNat ∧ now.toNat < s.toNat + 1000 * (k+1)

instance (s : UInt64) (k : ℕ) (now : UInt64) : Decidable (InWindow s k now) := by
  unfold InWindow
  infer_instance

/-- The first point of the grid behind a tick is a number of 64 bits. -/
def NextFits (s : UInt64) (tick : TimerTick) : Prop :=
  s.toNat + 1000 * ((tick.nowMs.toNat - s.toNat) / 1000 + 1) < 2^64

/-- None of the additions wraps: each comes to a point of the grid that is at most the
first one behind the start, or the first one behind a tick. -/
def HeartbeatNoWrap (s : UInt64) (ticks : List TimerTick) : Prop :=
  s.toNat + 1000 < 2^64 ∧ ∀ tick ∈ ticks, NextFits s tick

/-! ### The loop -/

theorem periodMs_toNat : heartbeatPeriodMs.toNat = 1000 := rfl

/-- A step to the next point of the grid, where that is a number of 64 bits. -/
theorem add_period_toNat {s : ℕ} {next : UInt64} {k : ℕ}
    (hnext : next.toNat = Periodic.due s 1000 k) (hfit : Periodic.due s 1000 (k+1) < 2^64) :
    (next + heartbeatPeriodMs).toNat = Periodic.due s 1000 (k+1) := by
  rw [Periodic.due_succ] at hfit ⊢
  rw [UInt64.toNat_add, hnext, periodMs_toNat]
  exact Nat.mod_eq_of_lt hfit

/-- The loop ends on the first point of the grid behind the tick, from any point that the
tick has come to; each round brings it one period nearer. -/
theorem catchUp_eq {s : ℕ} {now : UInt64}
    (hfit : Periodic.due s 1000 (Periodic.window s 1000 now.toNat + 1) < 2^64)
    {fuel k : ℕ} {next : UInt64} (hnext : next.toNat = Periodic.due s 1000 k)
    (hk : k ≤ Periodic.window s 1000 now.toNat)
    (hfuel : Periodic.window s 1000 now.toNat - k < fuel) :
    ∃ last, catchUp now fuel next = some last ∧
      last.toNat = Periodic.due s 1000 (Periodic.window s 1000 now.toNat + 1) := by
  induction fuel generalizing k next with
  | zero => omega
  | succ fuel ih =>
    have hsmall : Periodic.due s 1000 (k+1) < 2^64 :=
      lt_of_le_of_lt (Periodic.due_mono (by omega)) hfit
    have hadd := add_period_toNat hnext hsmall
    -- the loop goes on exactly while the next window has begun
    have hguard : next + heartbeatPeriodMs ≤ now ↔
        k + 1 ≤ Periodic.window s 1000 now.toNat := by
      rw [UInt64.le_iff_toNat_le, hadd]
      exact Periodic.due_le_iff (by omega) (Nat.succ_pos k)
    simp only [catchUp]
    by_cases hmore : k + 1 ≤ Periodic.window s 1000 now.toNat
    · rw [if_pos (hguard.mpr hmore)]
      apply ih hadd hmore
      omega
    · rw [if_neg (fun h => hmore (hguard.mp h))]
      have hlast : k = Periodic.window s 1000 now.toNat := by omega
      refine ⟨_, rfl, ?_⟩
      rw [hadd, hlast]

/-! ### One tick -/

/-- `next_heartbeat_ms` stands on the grid behind window `w`. -/
def Due (s : UInt64) (w : ℕ) (next : UInt64) : Prop :=
  next.toNat = Periodic.due s.toNat 1000 (w+1)

theorem window_lt_of_fuel {now : UInt64} {s fuel : ℕ} (hfuel : 2^64 ≤ fuel) (k : ℕ) :
    Periodic.window s 1000 now.toNat - k < fuel := by
  have hnow := now.toNat_lt
  have hwindow : Periodic.window s 1000 now.toNat ≤ now.toNat - s := Nat.div_le_self _ _
  omega

/-- One tick serves the window it falls in, when no tick of that window or of a later one
has been there before. -/
theorem heartbeatTick_eq {fuel : ℕ} (hfuel : 2^64 ≤ fuel) (canFd : Int) {s next : UInt64}
    {w : ℕ} (hdue : Due s w next) {tick : TimerTick} (hfit : NextFits s tick) :
    ∃ last, heartbeatTick fuel canFd next tick = some (last,
        if w < Periodic.window s.toNat 1000 tick.nowMs.toNat then
          heartbeatEvents (heartbeatSend canFd tick.write) else []) ∧
      Due s (max w (Periodic.window s.toNat 1000 tick.nowMs.toNat)) last := by
  have hguard : tick.nowMs ≥ next ↔
      w < Periodic.window s.toNat 1000 tick.nowMs.toNat := by
    rw [ge_iff_le, UInt64.le_iff_toNat_le, hdue]
    exact Periodic.due_le_iff (by omega) (Nat.succ_pos w)
  unfold heartbeatTick
  by_cases hlater : w < Periodic.window s.toNat 1000 tick.nowMs.toNat
  · obtain ⟨last, hlast, hgrid⟩ := catchUp_eq hfit hdue hlater (window_lt_of_fuel hfuel (w+1))
    refine ⟨last, ?_, ?_⟩
    · rw [if_pos (hguard.mpr hlater), if_pos hlater, hlast, Option.map_some]
    · rw [max_eq_right (Nat.le_of_lt hlater)]
      exact hgrid
  · refine ⟨next, ?_, ?_⟩
    · rw [if_neg (fun h => hlater (hguard.mp h)), if_neg hlater]
    · rw [max_eq_left (Nat.le_of_not_lt hlater)]
      exact hdue

/-! ### What a tick attempts -/

theorem mem_heartbeatEvents (result : SendResult) : .attempt result ∈ heartbeatEvents result := by
  unfold heartbeatEvents
  split
  · exact List.mem_singleton_self _
  · split
    · exact List.mem_singleton_self _
    · exact List.mem_cons_self

/-- A tick that attempts, attempts once. -/
theorem countP_heartbeatEvents (result : SendResult) :
    (heartbeatEvents result).countP HeartbeatEvent.isAttempt = 1 := by
  unfold heartbeatEvents
  split
  · rfl
  · split <;> rfl

/-! ### Windows -/

theorem window_of_inWindow {s now : UInt64} {k : ℕ} (h : InWindow s k now) :
    Periodic.window s.toNat 1000 now.toNat = k := by
  obtain ⟨hlow, hhigh⟩ := h
  unfold Periodic.window
  omega

theorem inWindow_of_window {s now : UInt64} {k : ℕ} (hk : 0 < k)
    (h : Periodic.window s.toNat 1000 now.toNat = k) : InWindow s k now :=
  (Periodic.window_eq_iff (by omega) hk).mp h

/-- The times of the ticks that a run has seen. -/
def nowsOf (steps : List HeartbeatStep) : List ℕ := steps.map fun x => x.label.nowMs.toNat

/-- A tick is in a later window than all that came before, said of the grid and of the
windows themselves. -/
theorem later_iff (s now : UInt64) (before : List HeartbeatStep) :
    Periodic.lastWindow s.toNat 1000 (nowsOf before) < Periodic.window s.toNat 1000 now.toNat ↔
      ∃ k, 1 ≤ k ∧ InWindow s k now ∧
        ∀ y ∈ before, ∀ j, InWindow s j y.label.nowMs → j < k := by
  constructor
  · intro hlater
    have hpos : 0 < Periodic.window s.toNat 1000 now.toNat := Nat.zero_lt_of_lt hlater
    rw [Periodic.lastWindow_lt_iff hpos] at hlater
    refine ⟨_, hpos, inWindow_of_window hpos rfl, ?_⟩
    intro y hy j hj
    rw [← window_of_inWindow hj]
    exact hlater _ (List.mem_map_of_mem hy)
  · rintro ⟨k, hk, hin, hbefore⟩
    rw [window_of_inWindow hin, Periodic.lastWindow_lt_iff hk, nowsOf, List.forall_mem_map]
    intro y hy
    -- an earlier tick in window 0 is before window `k` in any case
    rcases Nat.eq_zero_or_pos (Periodic.window s.toNat 1000 y.label.nowMs.toNat) with h0 | hpos
    · omega
    · exact hbefore y hy _ (inWindow_of_window hpos rfl)

/-! ### Runs of ticks -/

section
variable {fuel : ℕ} (canFd : Int) {s : UInt64}

/-- What `next_heartbeat_ms` is behind the steps of a run. -/
def OnGrid (s : UInt64) (steps : List HeartbeatStep) (next : UInt64) : Prop :=
  Due s (Periodic.lastWindow s.toNat 1000 (nowsOf steps)) next

theorem onGrid_start (h : s.toNat + 1000 < 2^64) : OnGrid s [] (s + heartbeatPeriodMs) := by
  unfold OnGrid Due Periodic.due
  rw [UInt64.toNat_add, periodMs_toNat, Nat.mod_eq_of_lt h]
  rfl

/-- The step of a run: the tick is answered, and the grid is kept. -/
theorem heartbeat_step (hfuel : 2^64 ≤ fuel) {steps : List HeartbeatStep} {next : UInt64}
    (hgrid : OnGrid s steps next) {tick : TimerTick}
    (hfit : NextFits s tick) :
    ∃ last, (heartbeatTimer fuel canFd).step next tick = some (last,
        if Periodic.lastWindow s.toNat 1000 (nowsOf steps) <
            Periodic.window s.toNat 1000 tick.nowMs.toNat then
          heartbeatEvents (heartbeatSend canFd tick.write) else []) ∧
      ∀ os, OnGrid s (steps ++ [⟨next, tick, os⟩]) last := by
  obtain ⟨last, hstep, hdue⟩ := heartbeatTick_eq hfuel canFd hgrid hfit
  refine ⟨last, hstep, ?_⟩
  intro os
  unfold OnGrid
  rw [nowsOf, List.map_append, List.map_singleton, Periodic.lastWindow_concat]
  exact hdue

/-- Every run of ticks goes through: the loop ends at each of them. -/
theorem heartbeat_run (hfuel : 2^64 ≤ fuel) {ticks : List TimerTick}
    (hfit : ∀ tick ∈ ticks, NextFits s tick)
    {steps : List HeartbeatStep} {next : UInt64} (hgrid : OnGrid s steps next) :
    ∃ last events, (heartbeatTimer fuel canFd).run next ticks = some (last, events) := by
  induction ticks generalizing steps next with
  | nil => exact ⟨next, [], rfl⟩
  | cons tick ticks ih =>
    obtain ⟨hhead, htail⟩ := List.forall_mem_cons.mp hfit
    obtain ⟨mid, hstep, hmid⟩ := heartbeat_step canFd hfuel hgrid hhead
    obtain ⟨last, events, hrun⟩ := ih htail (hmid [])
    exact ⟨last, _, Machine.run_cons_eq_some.mpr ⟨mid, _, events, hstep, hrun, rfl⟩⟩

/-- What a tick comes to, in the light of those before it. -/
def HeartbeatServed (fuel : ℕ) (canFd : Int) (s : UInt64) (before : List HeartbeatStep)
    (y : HeartbeatStep) : Prop :=
  (∃ next, (heartbeatTimer fuel canFd).step y.state y.label = some (next, y.outputs) ∧
    OnGrid s (before ++ [y]) next) ∧
  y.outputs = if Periodic.lastWindow s.toNat 1000 (nowsOf before) <
      Periodic.window s.toNat 1000 y.label.nowMs.toNat then
    heartbeatEvents (heartbeatSend canFd y.label.write) else []

theorem heartbeat_served (hfuel : 2^64 ≤ fuel) {steps : List HeartbeatStep} {next : UInt64}
    (hgrid : OnGrid s steps next) {tick : TimerTick} (hfit : NextFits s tick)
    {x : UInt64 × List HeartbeatEvent} (hx : (heartbeatTimer fuel canFd).step next tick = some x) :
    HeartbeatServed fuel canFd s steps ⟨next, tick, x.2⟩ ∧
      OnGrid s (steps ++ [⟨next, tick, x.2⟩]) x.1 := by
  obtain ⟨last, hstep, hlast⟩ := heartbeat_step canFd hfuel hgrid hfit
  obtain rfl := Option.some.inj (hstep.symm.trans hx)
  exact ⟨⟨⟨last, hstep, hlast _⟩, rfl⟩, hlast _⟩

theorem heartbeat_history (hfuel : 2^64 ≤ fuel) {ticks : List TimerTick}
    (hwrap : HeartbeatNoWrap s ticks) :
    ∀ before y after, (heartbeatTimer fuel canFd).history (s + heartbeatPeriodMs) ticks =
      before ++ y :: after → HeartbeatServed fuel canFd s before y := by
  have hfits : ∀ before y after, (heartbeatTimer fuel canFd).history (s + heartbeatPeriodMs)
      ticks = before ++ y :: after → NextFits s y.label := by
    intro before y after hsplit
    obtain ⟨-, rest, -, hticks, -⟩ := Machine.history_split hsplit
    apply hwrap.2
    rw [hticks]
    exact List.mem_append_right _ List.mem_cons_self
  apply Machine.forall_history_imp (I := OnGrid s) (A := fun _ y => NextFits s y.label)
    (B := HeartbeatServed fuel canFd s) ?_ ?_ (onGrid_start hwrap.1) ticks hfits
  · intro steps next tick x hgrid hx hfit
    exact (heartbeat_served canFd hfuel hgrid hfit hx).1
  · intro steps next tick x hgrid hx hfit
    exact (heartbeat_served canFd hfuel hgrid hfit hx).2

/-- Where only the first of the steps that are picked attempts, there is one attempt at most. -/
theorem attempts_le_one {steps : List HeartbeatStep} {p : HeartbeatStep → Bool}
    (hone : ∀ y ∈ steps, y.outputs.countP HeartbeatEvent.isAttempt ≤ 1)
    (hfirst : ∀ before y after, steps = before ++ y :: after → p y = true →
      (∃ x ∈ before, p x = true) → y.outputs.countP HeartbeatEvent.isAttempt = 0) :
    ((steps.filter p).flatMap (·.outputs)).countP HeartbeatEvent.isAttempt ≤ 1 := by
  induction steps with
  | nil => exact Nat.zero_le 1
  | cons x steps ih =>
    obtain ⟨hx, hrest⟩ := List.forall_mem_cons.mp hone
    have hbehind := (Machine.forall_split_cons.mp hfirst).2
    by_cases hp : p x = true
    · -- all that is picked behind the first one is silent
      have hsilent : ((steps.filter p).flatMap (·.outputs)).countP
          HeartbeatEvent.isAttempt = 0 := by
        rw [List.countP_eq_zero]
        intro e he
        obtain ⟨y, hy, hey⟩ := List.mem_flatMap.mp he
        obtain ⟨hmem, hpy⟩ := List.mem_filter.mp hy
        obtain ⟨before, after, rfl⟩ := List.append_of_mem hmem
        have hzero := hbehind before y after rfl hpy ⟨x, List.mem_cons_self, hp⟩
        exact List.countP_eq_zero.mp hzero e hey
      rw [List.filter_cons_of_pos hp, List.flatMap_cons, List.countP_append, hsilent]
      exact hx
    · rw [List.filter_cons_of_neg hp]
      apply ih hrest
      intro before y after hsplit hpy hbefore
      obtain ⟨z, hz, hpz⟩ := hbefore
      exact hbehind before y after hsplit hpy ⟨z, List.mem_cons_of_mem x hz, hpz⟩

end

/-- The heartbeat schedule: every run of ticks goes through; behind each tick the next
heartbeat is due on the grid and later than the tick; a tick attempts one exactly when it
is in a later window than all before it; and no window sees more than one attempt. -/
theorem heartbeat_schedule (canFd : Int) (s : UInt64) (ticks : List TimerTick)
    (hwrap : HeartbeatNoWrap s ticks) :
    ∃ enough, ∀ fuel, enough ≤ fuel →
      (∃ last events, (heartbeatTimer fuel canFd).run (s + heartbeatPeriodMs) ticks =
        some (last, events)) ∧
      (∀ before y after, (heartbeatTimer fuel canFd).history (s + heartbeatPeriodMs) ticks =
          before ++ y :: after →
        (∃ next, (heartbeatTimer fuel canFd).step y.state y.label = some (next, y.outputs) ∧
          (∃ k, 1 ≤ k ∧ next.toNat = s.toNat + 1000 * k) ∧ y.label.nowMs < next) ∧
        (HeartbeatAttempted canFd y ↔ ∃ k, 1 ≤ k ∧ InWindow s k y.label.nowMs ∧
          ∀ x ∈ before, ∀ j, InWindow s j x.label.nowMs → j < k)) ∧
      ∀ k, ((((heartbeatTimer fuel canFd).history (s + heartbeatPeriodMs) ticks).filter
          (fun y => InWindow s k y.label.nowMs)).flatMap (·.outputs)).countP
        HeartbeatEvent.isAttempt ≤ 1 := by
  refine ⟨2^64, ?_⟩
  intro fuel hfuel
  have hhistory := heartbeat_history canFd hfuel hwrap
  refine ⟨heartbeat_run canFd hfuel hwrap.2 (onGrid_start hwrap.1), ?_, ?_⟩
  · intro before y after hsplit
    obtain ⟨⟨next, hstep, hgrid⟩, houtputs⟩ := hhistory before y after hsplit
    unfold OnGrid Due at hgrid
    refine ⟨⟨next, hstep, ⟨_, Nat.succ_pos _, hgrid⟩, ?_⟩, ?_⟩
    · rw [UInt64.lt_iff_toNat_lt, hgrid, ← Nat.not_le,
        Periodic.due_le_iff (by omega) (Nat.succ_pos _), nowsOf, List.map_append,
        List.map_singleton, Periodic.lastWindow_concat, Nat.succ_le_iff, Nat.not_lt]
      exact le_max_right _ _
    · rw [← later_iff, HeartbeatAttempted, houtputs]
      split_ifs with hlater
      · exact iff_of_true (mem_heartbeatEvents _) hlater
      · exact iff_of_false List.not_mem_nil hlater
  · intro k
    apply attempts_le_one
    · intro y hy
      obtain ⟨before, after, hsplit⟩ := List.append_of_mem hy
      rw [(hhistory before y after hsplit).2]
      split_ifs
      · exact (countP_heartbeatEvents _).le
      · exact Nat.zero_le 1
    · intro before y after hsplit hy hx
      obtain ⟨x, hx, hin⟩ := hx
      -- a tick of the same window has been there before
      have hnot : ¬ Periodic.lastWindow s.toNat 1000 (nowsOf before) <
          Periodic.window s.toNat 1000 y.label.nowMs.toNat := by
        rw [later_iff]
        rintro ⟨j, -, hj, hbefore⟩
        have hlt := hbefore x hx k (of_decide_eq_true hin)
        have hkj := window_of_inWindow (of_decide_eq_true hy)
        rw [window_of_inWindow hj] at hkj
        omega
      rw [(hhistory before y after hsplit).2, if_neg hnot]
      rfl

/-- Two ticks in the second period, then one more than two periods late. -/
theorem heartbeat_schedule_late : ∃ enough, ∀ fuel, enough ≤ fuel →
    let ticks : List TimerTick := [⟨some ⟨1, 500000000⟩, none⟩, ⟨some ⟨1, 990000000⟩, none⟩,
      ⟨some ⟨4, 7000000⟩, none⟩]
    (∃ last events, (heartbeatTimer fuel 3).run (7 + heartbeatPeriodMs) ticks =
      some (last, events)) ∧
    (∀ before y after, (heartbeatTimer fuel 3).history (7 + heartbeatPeriodMs) ticks =
        before ++ y :: after →
      (∃ next, (heartbeatTimer fuel 3).step y.state y.label = some (next, y.outputs) ∧
        (∃ k, 1 ≤ k ∧ next.toNat = (7 : UInt64).toNat + 1000 * k) ∧ y.label.nowMs < next) ∧
      (HeartbeatAttempted 3 y ↔ ∃ k, 1 ≤ k ∧ InWindow 7 k y.label.nowMs ∧
        ∀ x ∈ before, ∀ j, InWindow 7 j x.label.nowMs → j < k)) ∧
    ∀ k, ((((heartbeatTimer fuel 3).history (7 + heartbeatPeriodMs) ticks).filter
        (fun y => InWindow 7 k y.label.nowMs)).flatMap (·.outputs)).countP
      HeartbeatEvent.isAttempt ≤ 1 := by
  apply heartbeat_schedule
  unfold HeartbeatNoWrap NextFits
  decide

example : (heartbeatTimer 10 3).run (7 + heartbeatPeriodMs)
    [⟨some ⟨1, 500000000⟩, none⟩, ⟨some ⟨1, 990000000⟩, none⟩, ⟨some ⟨4, 7000000⟩, none⟩] =
      some (5007, [.attempt .sent, .attempt .sent]) := by
  decide

end WsServer
