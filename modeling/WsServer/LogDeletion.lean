import WsServer.LogCalls

/-! What a maintenance run deletes, in which order, and how it ends. -/
namespace WsServer

def LogEvent.deleted : LogEvent → Option CText
  | .unlink path true => some path
  | _ => none

/-- The paths that were deleted, in order. -/
def deletedPaths (es : List LogEvent) : List CText := es.filterMap LogEvent.deleted

/-- What is left of a directory behind these events. -/
def remaining (logDir : CText) (dir : Directory) (es : List LogEvent) : Directory :=
  dir.filter (fun name => ∀ path ∈ deletedPaths es, fullPath logDir name ≠ some path)

/-- Each deletion takes the oldest log of those that are there then, and no reading before it
has found enough free space; the rounds are counted from `i`. -/
def DeletesOldest (env : MaintenanceEnv) (l : Logger) (i : ℕ) (dir : Directory)
    (es : List LogEvent) : Prop :=
  ∀ before path after, es = before ++ .unlink path true :: after →
    IsOldest (env.stat (i+(deletedPaths before).length)) l (remaining l.logDir dir before) path ∧
      ∀ percent, .freePercent (some percent) ∈ before → percent < loggerMinFreePercent

/-- How a maintenance run ends; `k` logs were deleted. -/
inductive MaintenanceEnd (env : MaintenanceEnv) (l l' : Logger) (k : ℕ) (dir' : Directory)
    (es : List LogEvent) : Prop
  | enough (before : List LogEvent) (percent : UInt32)
    (last : es = before ++ [.freePercent (some percent)])
    (free : loggerMinFreePercent ≤ percent) (mode : l'.cyclicMode = false)
    (offset : l'.cyclicWriteOffset = 0) (capacity : l'.cyclicCapacityBytes = 0)
  | nothingLeft (none_old : ∀ name ∈ dir', ∀ path mtime, ¬ l.IsOldLog (env.stat k) name path mtime)
    (mode : l'.cyclicMode = true)
  | directory (failed : env.opendir k = false ∨ env.readdir k = false)
    (mode : l'.cyclicMode = l.cyclicMode)
  | unlink (before : List LogEvent) (path : CText) (last : es = before ++ [.unlink path false])
    (failed : env.unlink k = false) (mode : l'.cyclicMode = l.cyclicMode)
  | statvfs (before : List LogEvent) (last : es = before ++ [.freePercent none])
    (failed : env.statvfs k = none) (mode : l'.cyclicMode = l.cyclicMode)

variable {env : MaintenanceEnv} {l l' : Logger} {dir dir' : Directory} {es fs : List LogEvent}
  {i k : ℕ}

theorem deletedPaths_deleted (path : CText) (es : List LogEvent) :
    deletedPaths (.unlink path true :: es) = path :: deletedPaths es := rfl

theorem deletedPaths_read (percent : Option UInt32) (es : List LogEvent) :
    deletedPaths (.freePercent percent :: es) = deletedPaths es := rfl

theorem remaining_nil (logDir : CText) (dir : Directory) : remaining logDir dir [] = dir := by
  apply List.filter_eq_self.mpr
  intro name _
  simp [deletedPaths]

theorem remaining_read (logDir : CText) (dir : Directory) (percent : Option UInt32) :
    remaining logDir dir (.freePercent percent :: es) = remaining logDir dir es := rfl

theorem remaining_deleted (logDir path : CText) (dir : Directory) :
    remaining logDir dir (.unlink path true :: es) =
      remaining logDir (dir.filter (fun name => fullPath logDir name ≠ some path)) es := by
  unfold remaining
  rw [deletedPaths_deleted, List.filter_filter]
  apply List.filter_congr
  intro name _
  rw [Bool.eq_iff_iff]
  simp [and_comm]

/-! ### One event more in front -/

/-- Events without a deletion. -/
theorem DeletesOldest.of_none (h : deletedPaths es = []) : DeletesOldest env l i dir es := by
  rintro before path after rfl
  unfold deletedPaths at h
  rw [List.filterMap_append, List.append_eq_nil_iff] at h
  cases h.2

theorem DeletesOldest.read {percent : UInt32} (hless : percent < loggerMinFreePercent)
    (h : DeletesOldest env l i dir fs) :
    DeletesOldest env l i dir (.freePercent (some percent) :: fs) := by
  intro before path after heq
  cases before with
  | nil => cases heq
  | cons e before =>
    obtain ⟨rfl, hrest⟩ := List.cons.inj heq
    obtain ⟨holdest, hbefore⟩ := h before path after hrest
    refine ⟨?_, ?_⟩
    · rw [deletedPaths_read, remaining_read]
      exact holdest
    · intro percent' hmem
      rcases List.mem_cons.mp hmem with hhead | htail
      · cases hhead
        exact hless
      · exact hbefore percent' htail

theorem DeletesOldest.deleted {path : CText} (hpath : IsOldest (env.stat i) l dir path)
    (h : DeletesOldest env l (i+1)
      (dir.filter (fun name => fullPath l.logDir name ≠ some path)) fs) :
    DeletesOldest env l i dir (.unlink path true :: fs) := by
  intro before path' after heq
  cases before with
  | nil =>
    obtain ⟨hhead, -⟩ := List.cons.inj heq
    cases hhead
    refine ⟨?_, fun percent hmem => absurd hmem List.not_mem_nil⟩
    rw [remaining_nil]
    exact hpath
  | cons e before =>
    obtain ⟨rfl, hrest⟩ := List.cons.inj heq
    obtain ⟨holdest, hbefore⟩ := h before path' after hrest
    refine ⟨?_, ?_⟩
    · rw [deletedPaths_deleted, remaining_deleted, List.length_cons,
        show i+((deletedPaths before).length+1) = i+1+(deletedPaths before).length by omega]
      exact holdest
    · intro percent hmem
      rcases List.mem_cons.mp hmem with hhead | htail
      · cases hhead
      · exact hbefore percent htail

theorem MaintenanceEnd.behind (h : MaintenanceEnd env l l' k dir' fs) (es : List LogEvent) :
    MaintenanceEnd env l l' k dir' (es ++ fs) := by
  cases h with
  | enough before percent last free mode offset capacity =>
    exact .enough (es ++ before) percent (by rw [last, List.append_assoc]) free mode offset capacity
  | nothingLeft none_old mode => exact .nothingLeft none_old mode
  | directory failed mode => exact .directory failed mode
  | unlink before path last failed mode =>
    exact .unlink (es ++ before) path (by rw [last, List.append_assoc]) failed mode
  | statvfs before last failed mode =>
    exact .statvfs (es ++ before) (by rw [last, List.append_assoc]) failed mode

/-! ### The loop -/

theorem getFreePercent_eq_none {x : Option Statvfs} (h : getFreePercent x = none) : x = none := by
  cases x with
  | none => rfl
  | some fs =>
    simp only [getFreePercent] at h
    split_ifs at h

theorem prepare_deletes_none (io : PrepareIO) (l : Logger) :
    deletedPaths (prepareCyclicModeLocked io l).2.2 = [] := by
  unfold prepareCyclicModeLocked
  cases l.fp with
  | none => rfl
  | some file =>
    simp only
    split_ifs <;> rfl

theorem prepare_cyclicMode (io : PrepareIO) (l : Logger) :
    (prepareCyclicModeLocked io l).1.cyclicMode = l.cyclicMode := by
  unfold prepareCyclicModeLocked
  cases l.fp with
  | none => rfl
  | some file =>
    simp only
    split_ifs <;> rfl

theorem unread_directory {opendir readdir : Bool} {stat : CText → Option FileStat}
    (h : findOldestDeletableLog opendir readdir stat l dir = none) :
    opendir = false ∨ readdir = false := by
  cases opendir with
  | false => exact Or.inl rfl
  | true =>
    cases readdir with
    | false => exact Or.inr rfl
    | true => cases h

/-- A round that goes on deletes the oldest log, and the rounds behind it do the rest. -/
theorem deletes_behind {path : CText} {percent : UInt32} {fs : List LogEvent}
    (holdest : IsOldest (env.stat i) l dir path) (hless : percent < loggerMinFreePercent)
    (hleft : dir' = remaining l.logDir
      (dir.filter (fun name => fullPath l.logDir name ≠ some path)) fs)
    (hdeletes : DeletesOldest env l (i+1)
      (dir.filter (fun name => fullPath l.logDir name ≠ some path)) fs)
    (hend : MaintenanceEnd env l l' (i+1+(deletedPaths fs).length) dir' fs) :
    dir' = remaining l.logDir dir ([.unlink path true, .freePercent (some percent)] ++ fs) ∧
      DeletesOldest env l i dir ([.unlink path true, .freePercent (some percent)] ++ fs) ∧
        MaintenanceEnd env l l'
          (i+(deletedPaths ([.unlink path true, .freePercent (some percent)] ++ fs)).length) dir'
          ([.unlink path true, .freePercent (some percent)] ++ fs) := by
  refine ⟨?_, .deleted holdest (.read hless hdeletes), ?_⟩
  · rw [hleft, ← remaining_read l.logDir _ (some percent), ← remaining_deleted]
    rfl
  · -- one deletion more, so the rounds behind it are counted from the next
    have hk : i+(deletedPaths ([.unlink path true, .freePercent (some percent)] ++ fs)).length =
        i+1+(deletedPaths fs).length := by
      change i+((deletedPaths fs).length+1) = _
      omega
    rw [hk]
    exact hend.behind _

/-- What is left behind, what is deleted and how it ends, of the rounds from `i` on. -/
theorem maintenanceLoop_deletes {fuel : ℕ}
    (h : maintenanceLoop env fuel i l dir = some (l', dir', es)) :
    dir' = remaining l.logDir dir es ∧ DeletesOldest env l i dir es ∧
      MaintenanceEnd env l l' (i+(deletedPaths es).length) dir' es := by
  induction fuel generalizing i dir es with
  | zero => cases h
  | succ fuel ih =>
    unfold maintenanceLoop at h
    cases hfind : findOldestDeletableLog (env.opendir i) (env.readdir i) (env.stat i) l dir with
    | none =>
      simp only [hfind, Option.some.injEq, Prod.mk.injEq] at h
      obtain ⟨rfl, rfl, rfl⟩ := h
      exact ⟨(remaining_nil _ _).symm, .of_none rfl, .directory (unread_directory hfind) rfl⟩
    | some found =>
      cases found with
      | none =>
        simp only [hfind, Option.some.injEq, Prod.mk.injEq] at h
        obtain ⟨rfl, rfl, rfl⟩ := h
        have hnone := prepare_deletes_none env.prepare { l with cyclicMode := true }
        refine ⟨?_, .of_none hnone, .nothingLeft ?_ (prepare_cyclicMode _ _)⟩
        · unfold remaining
          rw [hnone]
          exact (remaining_nil _ _).symm
        · rw [hnone]
          intro name hname
          exact no_old_log_of_not_found hfind hname
      | some path =>
        have holdest := isOldest_of_found hfind
        simp only [hfind] at h
        split_ifs at h with hunlink
        · obtain ⟨rfl, rfl, rfl⟩ := h
          have hfailed : env.unlink i = false := by simpa using hunlink
          exact ⟨(remaining_nil _ _).symm, .of_none rfl, .unlink [] path rfl hfailed rfl⟩
        · -- the log is gone, and the free space is read again
          have hgone (percent : Option UInt32) :
              dir.filter (fun name => fullPath l.logDir name ≠ some path) =
                remaining l.logDir dir [.unlink path true, .freePercent percent] := by
            rw [remaining_deleted, remaining_read, remaining_nil]
          have hfirst (percent : Option UInt32) :
              DeletesOldest env l i dir [.unlink path true, .freePercent percent] :=
            .deleted holdest (.of_none rfl)
          cases hfree : getFreePercent (env.statvfs (i+1)) with
          | none =>
            simp only [hfree, Option.some.injEq, Prod.mk.injEq] at h
            obtain ⟨rfl, rfl, rfl⟩ := h
            exact ⟨hgone none, hfirst none,
              .statvfs [.unlink path true] rfl (getFreePercent_eq_none hfree) rfl⟩
          | some percent =>
            simp only [hfree] at h
            split_ifs at h with henough
            · obtain ⟨rfl, rfl, rfl⟩ := h
              exact ⟨hgone percent, hfirst percent,
                .enough [.unlink path true] percent rfl henough rfl rfl rfl⟩
            · obtain ⟨⟨l₁, dir₁, fs⟩, hrest, heq⟩ := Option.map_eq_some_iff.mp h
              obtain ⟨rfl, rfl, rfl⟩ := heq
              obtain ⟨hleft, hdeletes, hend⟩ := ih hrest
              exact deletes_behind holdest (UInt32.not_le.mp henough) hleft hdeletes hend

/-! ### Nothing here depends on when the next run is due -/

theorem isOldLog_postponed {stat : CText → Option FileStat} {name path : CText}
    {mtime : Timespec} (next : UInt64) :
    ({ l with nextMaintenanceMs := next } : Logger).IsOldLog stat name path mtime ↔
      l.IsOldLog stat name path mtime := by
  constructor
  · intro h
    exact ⟨h.named, h.path_eq, h.not_current, h.regular⟩
  · intro h
    exact ⟨h.named, h.path_eq, h.not_current, h.regular⟩

theorem DeletesOldest.of_postponed {next : UInt64}
    (h : DeletesOldest env { l with nextMaintenanceMs := next } i dir es) :
    DeletesOldest env l i dir es := by
  intro before path after heq
  obtain ⟨holdest, hbefore⟩ := h before path after heq
  unfold IsOldest at holdest
  simp only [isOldLog_postponed] at holdest
  exact ⟨holdest, hbefore⟩

theorem MaintenanceEnd.of_postponed {next : UInt64}
    (h : MaintenanceEnd env { l with nextMaintenanceMs := next } l' k dir' es) :
    MaintenanceEnd env l l' k dir' es := by
  cases h with
  | enough before percent last free mode offset capacity =>
    exact .enough before percent last free mode offset capacity
  | nothingLeft none_old mode =>
    simp only [isOldLog_postponed] at none_old
    exact .nothingLeft none_old mode
  | directory failed mode => exact .directory failed mode
  | unlink before path last failed mode => exact .unlink before path last failed mode
  | statvfs before last failed mode => exact .statvfs before last failed mode

/-- A maintenance run that is due. -/
structure Logger.Due (env : MaintenanceEnv) (l : Logger) : Prop where
  enabled : l.enabled = true
  fp : ∃ file, l.fp = some file
  time : l.nextMaintenanceMs ≤ env.monotonicMs

/-- A disk on which one deletion makes enough room. -/
def tightDisk : MaintenanceEnv :=
  { diskWith 10 with
    statvfs := fun i => some ⟨100, if i = 0 then 10 else 30⟩
    stat := fun _ _ => some ⟨true, ⟨1, 0⟩⟩ }

def oneOldLog : Directory := ["simple_ws_1".toList, "simple_ws_2".toList, "notes".toList]

example : maybeRunMaintenanceLocked tightDisk
    (openedLogger "/l".toList "/l/simple_ws_2".toList) oneOldLog =
      some ({ openedLogger "/l".toList "/l/simple_ws_2".toList with nextMaintenanceMs := 10000 },
        ["simple_ws_2".toList, "notes".toList],
        [.freePercent (some 10), .unlink "/l/simple_ws_1".toList true,
          .freePercent (some 30)]) := by
  decide +kernel

end WsServer
