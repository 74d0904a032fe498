import Mathlib.Data.List.MinMax
import Mathlib.Data.Prod.Lex
import WsServer.Logger

/-! Maintenance ends, and it does one of three things: it keeps the mode of the log, leaves
cyclic mode or prepares it. -/
namespace WsServer

/-- Events that are not about the file of the log. -/
def LogEvent.Quiet : LogEvent → Prop
  | .freePercent _ => True
  | .unlink _ _ => True
  | .reset => False
  | .wrote _ _ => False

def QuietEvents (es : List LogEvent) : Prop := ∀ e ∈ es, e.Quiet

/-- The log and the events behind a maintenance run. -/
inductive Maintained (io : PrepareIO) (l : Logger) : Logger → List LogEvent → Prop
  | kept {es : List LogEvent} (quiet : QuietEvents es) : Maintained io l l es
  | left {es : List LogEvent} (quiet : QuietEvents es) : Maintained io l l.leaveCyclic es
  | prepared {es : List LogEvent} (quiet : QuietEvents es) :
    Maintained io l (prepareCyclicModeLocked io { l with cyclicMode := true }).1
      (es ++ (prepareCyclicModeLocked io { l with cyclicMode := true }).2.2)

variable {io : PrepareIO} {env : MaintenanceEnv} {l l' : Logger} {dir dir' : Directory}
  {es fs : List LogEvent}

theorem QuietEvents.append (hes : QuietEvents es) (hfs : QuietEvents fs) :
    QuietEvents (es ++ fs) := List.forall_mem_append.mpr ⟨hes, hfs⟩

theorem Maintained.behind (hes : QuietEvents es) (h : Maintained io l l' fs) :
    Maintained io l l' (es ++ fs) := by
  cases h with
  | kept hfs => exact .kept (hes.append hfs)
  | left hfs => exact .left (hes.append hfs)
  | prepared hfs =>
    rw [← List.append_assoc]
    exact .prepared (hes.append hfs)

theorem quiet_percent (percent : Option UInt32) : QuietEvents [.freePercent percent] :=
  List.forall_mem_singleton.mpr trivial

theorem quiet_unlink (path : CText) (done : Bool) : QuietEvents [.unlink path done] :=
  List.forall_mem_singleton.mpr trivial

theorem maintenanceLoop_maintained {fuel i : ℕ}
    (h : maintenanceLoop env fuel i l dir = some (l', dir', es)) :
    Maintained env.prepare l l' es := by
  induction fuel generalizing i dir es with
  | zero => cases h
  | succ fuel ih =>
    unfold maintenanceLoop at h
    cases hfind : findOldestDeletableLog (env.opendir i) (env.readdir i) (env.stat i) l dir with
    | none =>
      simp only [hfind, Option.some.injEq, Prod.mk.injEq] at h
      obtain ⟨rfl, -, rfl⟩ := h
      exact .kept (List.forall_mem_nil _)
    | some found =>
      -- with no log left to delete the ring is entered, or prepared once more
      cases found with
      | none =>
        simp only [hfind, Option.some.injEq, Prod.mk.injEq] at h
        obtain ⟨rfl, -, rfl⟩ := h
        exact .prepared (List.forall_mem_nil _)
      | some path =>
        simp only [hfind] at h
        split_ifs at h with hunlink
        · obtain ⟨rfl, -, rfl⟩ := h
          exact .kept (quiet_unlink path false)
        · have hquiet (percent : Option UInt32) :
              QuietEvents [.unlink path true, .freePercent percent] :=
            (quiet_unlink path true).append (quiet_percent percent)
          cases hfree : getFreePercent (env.statvfs (i+1)) with
          | none =>
            simp only [hfree, Option.some.injEq, Prod.mk.injEq] at h
            obtain ⟨rfl, -, rfl⟩ := h
            exact .kept (hquiet none)
          | some percent =>
            simp only [hfree] at h
            split_ifs at h with henough
            · obtain ⟨rfl, -, rfl⟩ := h
              exact .left (hquiet percent)
            · -- still too little room: the next round
              obtain ⟨⟨l₁, dir₁, fs⟩, hrest, heq⟩ := Option.map_eq_some_iff.mp h
              obtain ⟨rfl, -, rfl⟩ := heq
              exact (ih hrest).behind (hquiet percent)

/-- What maintenance does to the log, but for the time at which it is next due. -/
theorem maintenance_maintained
    (h : maybeRunMaintenanceLocked env l dir = some (l', dir', es)) :
    ∃ next, Maintained env.prepare { l with nextMaintenanceMs := next } l' es := by
  unfold maybeRunMaintenanceLocked at h
  split_ifs at h with hclosed hdue
  · obtain ⟨rfl, -, rfl⟩ := h
    exact ⟨l.nextMaintenanceMs, .kept (List.forall_mem_nil _)⟩
  · obtain ⟨rfl, -, rfl⟩ := h
    exact ⟨l.nextMaintenanceMs, .kept (List.forall_mem_nil _)⟩
  · refine ⟨env.monotonicMs+loggerMaintenanceIntervalMs, ?_⟩
    cases hfree : getFreePercent (env.statvfs 0) with
    | none =>
      simp only [hfree, Option.some.injEq, Prod.mk.injEq] at h
      obtain ⟨rfl, -, rfl⟩ := h
      exact .kept (quiet_percent none)
    | some percent =>
      simp only [hfree] at h
      split_ifs at h with henough
      · obtain ⟨rfl, -, rfl⟩ := h
        exact .left (quiet_percent percent)
      · obtain ⟨⟨l₁, dir₁, fs⟩, hloop, heq⟩ := Option.map_eq_some_iff.mp h
        obtain ⟨rfl, -, rfl⟩ := heq
        exact (maintenanceLoop_maintained hloop).behind (quiet_percent percent)

theorem maintenance_not_due (henabled : l.enabled = true) {file : CText}
    (hfp : l.fp = some file) (hdue : env.monotonicMs < l.nextMaintenanceMs) (dir : Directory) :
    maybeRunMaintenanceLocked env l dir = some (l, dir, []) := by
  have hopen : (!l.enabled || l.fp.isNone) = false := by rw [henabled, hfp]; rfl
  simp only [maybeRunMaintenanceLocked, hopen, Bool.false_eq_true, if_false, if_pos hdue]

/-! ### The log that is found -/

/-- A name in the log directory that stands for an old log: a regular file of this path, with
this time. -/
structure Logger.IsOldLog (stat : CText → Option FileStat) (l : Logger) (name path : CText)
    (mtime : Timespec) : Prop where
  named : "simple_ws_".toList <+: name
  path_eq : fullPath l.logDir name = some path
  not_current : path ≠ l.currentPath
  regular : stat path = some ⟨true, mtime⟩

theorem deletable_iff {stat : CText → Option FileStat} {name : CText} {x : CText × Timespec} :
    l.deletable stat name = some x ↔ l.IsOldLog stat name x.1 x.2 := by
  obtain ⟨path, mtime⟩ := x
  constructor
  · intro h
    unfold Logger.deletable at h
    split_ifs at h with hname
    have hnamed : "simple_ws_".toList <+: name :=
      List.isPrefixOf_iff_prefix.mp (by simpa [isLoggerFileName] using hname)
    cases hpath : fullPath l.logDir name with
    | none =>
      simp only [hpath] at h
      cases h
    | some path' =>
      simp only [hpath] at h
      split_ifs at h with hcurrent
      cases hstat : stat path' with
      | none =>
        simp only [hstat] at h
        cases h
      | some st =>
        simp only [hstat] at h
        split_ifs at h with hregular
        obtain ⟨regular, mtime'⟩ := st
        obtain ⟨rfl, rfl⟩ := Prod.mk.inj (Option.some.inj h)
        have hreg : regular = true := by simpa using hregular
        exact ⟨hnamed, hpath, hcurrent, hstat.trans (by rw [hreg])⟩
  · intro h
    have hname : isLoggerFileName name = true := List.isPrefixOf_iff_prefix.mpr h.named
    have hpath := h.path_eq
    have hstat := h.regular
    simp only at hpath hstat
    simp only [Logger.deletable, hname, hpath, hstat, if_neg h.not_current, Bool.not_true,
      Bool.false_eq_true, if_false]

/-- The time of a file as a point of the lexicographic order. -/
def Timespec.key (t : Timespec) : ℤ ×ₗ ℤ := toLex (t.sec, t.nsec)

theorem timespecCmp_neg_iff (a b : Timespec) : timespecCmp a b < 0 ↔ a.key < b.key := by
  unfold Timespec.key
  rw [Prod.Lex.toLex_lt_toLex]
  unfold timespecCmp
  simp only
  split_ifs <;> omega

/-- The scan of the directory finds the first of the oldest logs, for any measure of time
that orders the times as the comparison does. -/
theorem oldestOf_eq_argmin {β : Type} [LinearOrder β] {key : Timespec → β}
    (hkey : ∀ a b, timespecCmp a b < 0 ↔ key a < key b) (stat : CText → Option FileStat)
    (l : Logger) (dir : Directory) (seen : List (CText × Timespec)) :
    oldestOf stat l dir (seen.argmin (fun x => key x.2)) =
      (seen ++ dir.filterMap (l.deletable stat)).argmin (fun x => key x.2) := by
  induction dir generalizing seen with
  | nil => rw [List.filterMap_nil, List.append_nil]; rfl
  | cons name rest ih =>
    unfold oldestOf
    cases hname : l.deletable stat name with
    | none =>
      rw [List.filterMap_cons_none hname]
      exact ih seen
    | some x =>
      rw [List.filterMap_cons_some hname, List.append_cons, ← ih (seen ++ [x]),
        List.argmin_concat]
      cases seen.argmin (fun x => key x.2) with
      | none => rfl
      | some y =>
        -- the entry takes the place of the one found so far where it is older
        simp only [hkey]
        split_ifs <;> rfl

theorem findOldest_eq {β : Type} [LinearOrder β] {key : Timespec → β}
    (hkey : ∀ a b, timespecCmp a b < 0 ↔ key a < key b) {opendir readdir : Bool}
    {stat : CText → Option FileStat} {found : Option CText}
    (h : findOldestDeletableLog opendir readdir stat l dir = some found) :
    found = ((dir.filterMap (l.deletable stat)).argmin (fun x => key x.2)).map Prod.fst := by
  unfold findOldestDeletableLog at h
  split_ifs at h
  rw [← Option.some.inj h]
  exact congrArg (Option.map Prod.fst) (oldestOf_eq_argmin hkey stat l dir [])

/-- This path is that of an old log, and no old log is older. -/
def IsOldest (stat : CText → Option FileStat) (l : Logger) (dir : Directory) (path : CText) :
    Prop :=
  ∃ name ∈ dir, ∃ mtime, l.IsOldLog stat name path mtime ∧
    ∀ name' ∈ dir, ∀ path' mtime', l.IsOldLog stat name' path' mtime' → mtime.key ≤ mtime'.key

theorem isOldest_of_found {opendir readdir : Bool} {stat : CText → Option FileStat}
    {path : CText}
    (h : findOldestDeletableLog opendir readdir stat l dir = some (some path)) :
    IsOldest stat l dir path := by
  obtain ⟨x, hx, rfl⟩ := Option.map_eq_some_iff.mp (findOldest_eq timespecCmp_neg_iff h).symm
  obtain ⟨name, hname, hold⟩ := List.mem_filterMap.mp (List.argmin_mem hx)
  refine ⟨name, hname, x.2, deletable_iff.mp hold, ?_⟩
  intro name' hname' path' mtime' hold'
  have hmem : (path', mtime') ∈ dir.filterMap (l.deletable stat) :=
    List.mem_filterMap.mpr ⟨name', hname', deletable_iff.mpr hold'⟩
  have hle := List.le_of_mem_argmin (f := fun y : CText × Timespec => y.2.key) hmem hx
  exact hle

theorem no_old_log_of_not_found {opendir readdir : Bool} {stat : CText → Option FileStat}
    (h : findOldestDeletableLog opendir readdir stat l dir = some none) {name : CText}
    (hname : name ∈ dir) (path : CText) (mtime : Timespec) :
    ¬ l.IsOldLog stat name path mtime := by
  intro hold
  have hnone := List.argmin_eq_none.mp
    (Option.map_eq_none_iff.mp (findOldest_eq timespecCmp_neg_iff h).symm)
  have hmem : (path, mtime) ∈ dir.filterMap (l.deletable stat) :=
    List.mem_filterMap.mpr ⟨name, hname, deletable_iff.mpr hold⟩
  rw [hnone] at hmem
  exact List.not_mem_nil hmem

/-! ### Maintenance ends -/

/-- A round that deletes a log leaves fewer entries. -/
theorem unlinked_length {opendir readdir : Bool} {stat : CText → Option FileStat} {path : CText}
    (h : findOldestDeletableLog opendir readdir stat l dir = some (some path)) :
    (dir.filter (fun name => fullPath l.logDir name ≠ some path)).length < dir.length := by
  obtain ⟨name, hname, mtime, hold, -⟩ := isOldest_of_found h
  apply List.length_filter_lt_length_iff_exists.mpr
  refine ⟨name, hname, ?_⟩
  rw [hold.path_eq]
  simp

theorem maintenanceLoop_isSome (env : MaintenanceEnv) (l : Logger) {fuel : ℕ} (i : ℕ)
    (hfuel : dir.length < fuel) : (maintenanceLoop env fuel i l dir).isSome := by
  induction fuel generalizing i dir with
  | zero => omega
  | succ fuel ih =>
    unfold maintenanceLoop
    cases hfind : findOldestDeletableLog (env.opendir i) (env.readdir i) (env.stat i) l dir with
    | none => rfl
    | some found =>
      cases found with
      | none => rfl
      | some path =>
        -- a round that goes on has deleted an entry
        have hlength := unlinked_length hfind
        simp only
        split_ifs with hunlink
        · rfl
        · cases hfree : getFreePercent (env.statvfs (i+1)) with
          | none => rfl
          | some percent =>
            simp only
            split_ifs with henough
            · rfl
            · rw [Option.isSome_map]
              exact ih (i+1) (by omega)

/-- A maintenance run ends, whatever the disk answers. -/
theorem maintenance_isSome (env : MaintenanceEnv) (l : Logger) (dir : Directory) :
    (maybeRunMaintenanceLocked env l dir).isSome := by
  unfold maybeRunMaintenanceLocked
  split_ifs with hclosed hdue
  · rfl
  · rfl
  · cases hfree : getFreePercent (env.statvfs 0) with
    | none => rfl
    | some percent =>
      simp only
      split_ifs with henough
      · rfl
      · rw [Option.isSome_map]
        exact maintenanceLoop_isSome env _ 0 (Nat.lt_succ_self dir.length)

end WsServer
