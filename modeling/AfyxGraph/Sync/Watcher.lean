import AfyxGraph.Sync.PendingChangeSet
import AfyxGraph.Sync.Scheduling

/-! # File watcher

The control flow that ties pending set, timer and retry policy together. The
async body of `flush` is cut at its one `await`: `flush` runs up to the call of
`syncFn` and leaves the call's argument in `inFlight`, `settle` is the rest,
entered with the way the promise settled. The single-flight flag `syncing` is
the presence of a call in flight. Event classification arrives with the event.
-/

namespace AfyxGraph.Sync

def MAX_LOCK_RETRIES : Nat := 5
def MAX_SYNC_FAILURE_RETRIES : Nat := 5
def QUICK_SYNC_MAX_PENDING : Nat := 2
def QUICK_SYNC_QUIET_MS : Nat := 300
def QUICK_SYNC_FLOOR_MS : Nat := 100
def SCOPED_SYNC_MAX_PENDING : Nat := 500

def EXHAUSTION_REASON : String :=
  "OS watch/file limit exhausted; auto-sync disabled. Run `afyx-graph sync` " ++
  "(or install git sync hooks) to refresh the graph after changes."

def LOCK_REASON : String :=
  "Afyx Graph file lock held by another process past the retry budget; " ++
  "auto-sync disabled. Run `afyx-graph sync` once the other writer finishes " ++
  "(or install git sync hooks) to refresh the graph."

def failureReason (activeRetryCount : Nat) (message : String) : String :=
  "Afyx Graph auto-sync failed " ++ toString activeRetryCount ++ " times in a row; " ++
  "auto-sync disabled. Run `afyx-graph sync` (or install git sync hooks) to " ++
  "refresh the graph after changes. Last error: " ++ message

/-- What kind of event a path is, given the current scope. -/
inductive ScopeClassification where
  | alwaysIgnored
  | scopeRefresh
  | ignoredByMatcher
  | nonSource
  | sourceChange
  deriving DecidableEq, Repr

/-- The argument of `syncFn`: `none` is `undefined`, a full sync. -/
abbrev SyncArg := Option (List String)

/-- How the promise of `syncFn` settled. -/
inductive SyncOutcome where
  | success
  | lockUnavailable
  | error (message : String)
  deriving DecidableEq, Repr

/-- How installing the watch set ended. -/
inductive StartOutcome where
  | installed
  | disabled
  | exhausted
  | failed
  deriving DecidableEq, Repr

structure Watcher where
  pending : PendingChangeSet := .empty
  retry : RetryPolicy
  scheduler : DebounceScheduler
  active : Bool := false
  degradedReason : Option String := none
  syncStartedMs : Nat := 0
  inFlight : Option SyncArg := none
  stopped : Bool := false
  ready : Bool := false
  needsFullScan : Bool := false
  deriving DecidableEq

namespace Watcher

/-- The constructor. -/
def create (debounceMs : Nat := 2000) : Watcher where
  retry := { options := ⟨MAX_LOCK_RETRIES, MAX_SYNC_FAILURE_RETRIES, debounceMs⟩ }
  scheduler := { options :=
    ⟨debounceMs, QUICK_SYNC_MAX_PENDING, QUICK_SYNC_QUIET_MS, QUICK_SYNC_FLOOR_MS⟩ }

def syncing (w : Watcher) : Bool := w.inFlight.isSome

def isDegraded (w : Watcher) : Bool := w.degradedReason.isSome

def isActive (w : Watcher) : Bool := w.active && !w.stopped

/-- The degrade latch is kept: it survives the stop it triggers. -/
def stop (w : Watcher) : Watcher :=
  { w with
    stopped := true
    scheduler := w.scheduler.cancel
    active := false
    pending := w.pending.clear
    ready := false }

def degrade (w : Watcher) (reason : String) : Watcher :=
  if w.isDegraded then w else { w with degradedReason := some reason }.stop

/-- Nothing happens to a watcher that is already watching. -/
def start (w : Watcher) (outcome : StartOutcome) : Watcher :=
  if w.active then w else
    let w := { w with stopped := false, degradedReason := none, retry := w.retry.reset }
    match outcome with
    | .disabled => w
    | .installed => { w with active := true, pending := w.pending.clear, ready := true }
    | .exhausted => w.degrade EXHAUSTION_REASON
    | .failed => w.stop

def scheduleSync (w : Watcher) : Watcher :=
  { w with scheduler := w.scheduler.scheduleSync w.pending.size }

def scheduleRetrySync (w : Watcher) (delayMs : Nat) : Watcher :=
  { w with scheduler := w.scheduler.scheduleRetry delayMs }

/-- A scope-defining file changed. -/
def refreshScope (w : Watcher) : Watcher := { w with needsFullScan := true }.scheduleSync

/-- The children of a removed directory are unknown from its one event. -/
def maybeScheduleForRemovedDir (w : Watcher) (onDisk : Bool) : Watcher :=
  if onDisk then w else { w with needsFullScan := true }.scheduleSync

/-- The path is empty, the root itself or outside the root. -/
def outsideTree (rel : String) : Bool := rel == "" || rel == "." || rel.startsWith ".."

def recordChange (w : Watcher) (rel : String) (nowMs : Nat) : Watcher :=
  if w.ready then { w with pending := w.pending.touch rel nowMs } else w

def handleChange (w : Watcher) (rel : String) (kind : ScopeClassification) (onDisk : Bool)
    (nowMs : Nat) : Watcher :=
  if outsideTree rel then w else
    match kind with
    | .alwaysIgnored => w
    | .ignoredByMatcher => w
    | .scopeRefresh => w.refreshScope
    | .nonSource => w.maybeScheduleForRemovedDir onDisk
    | .sourceChange => (w.recordChange rel nowMs).scheduleSync

/-- The exact paths when the pending set describes the change, else a full sync. -/
def scopedPaths (w : Watcher) : SyncArg :=
  if !w.needsFullScan && decide (0 < w.pending.size) &&
      decide (w.pending.size ≤ SCOPED_SYNC_MAX_PENDING) then some w.pending.paths
  else none

/-- `flush` up to the call of `syncFn`. -/
def flush (w : Watcher) (nowMs : Nat) : Watcher :=
  if w.syncing || w.stopped then w
  else { w with syncStartedMs := nowMs, inFlight := some w.scopedPaths }

/-- The timer callback: the timer is cleared before `flush` runs. -/
def fire (w : Watcher) (nowMs : Nat) : Watcher :=
  { w with scheduler := w.scheduler.cancel }.flush nowMs

/-- The `finally` block of `flush`. -/
def finishSync (w : Watcher) : Watcher :=
  let w := { w with inFlight := none }
  if 0 < w.pending.size ∧ w.stopped = false then
    let retryCount := w.retry.activeRetryCount
    if 0 < retryCount then w.scheduleRetrySync (w.retry.backoffDelayMs retryCount)
    else w.scheduleSync
  else w

def onSuccess (w : Watcher) (arg : SyncArg) : Watcher :=
  { w with
    needsFullScan := if arg.isNone then false else w.needsFullScan
    retry := w.retry.recordSuccess
    pending := w.pending.retainTouchedAfter w.syncStartedMs }

/-- Both failure branches of `flush`: note the streak, then degrade past its budget. -/
def recordFailure (w : Watcher) (recorded : RetryPolicy × FailureOutcome) (reason : String) :
    Watcher :=
  let w := { w with retry := recorded.1 }
  if recorded.2.shouldDegrade then w.degrade reason else w

def onLockFailure (w : Watcher) : Watcher :=
  w.recordFailure w.retry.recordLockFailure LOCK_REASON

def onGenericFailure (w : Watcher) (message : String) : Watcher :=
  let recorded := w.retry.recordGenericFailure
  w.recordFailure recorded (failureReason recorded.2.activeRetryCount message)

/-- `flush` from the settling of `syncFn` on. -/
def settle (w : Watcher) (arg : SyncArg) : SyncOutcome → Watcher
  | .success => (w.onSuccess arg).finishSync
  | .lockUnavailable => w.onLockFailure.finishSync
  | .error message => (w.onGenericFailure message).finishSync

def getPendingFiles (w : Watcher) : List PendingFile :=
  w.pending.snapshot fun info => w.syncing && decide (info.lastSeenMs ≤ w.syncStartedMs)

/-! ## What each operation leaves behind -/

theorem degrade_stops {w : Watcher} (h : w.degradedReason = none) (reason : String) :
    (w.degrade reason).ready = false ∧ (w.degrade reason).stopped = true ∧
      (w.degrade reason).active = false := by
  simp [degrade, isDegraded, h, stop]

theorem degrade_inFlight (w : Watcher) (reason : String) :
    (w.degrade reason).inFlight = w.inFlight ∧
      (w.degrade reason).syncStartedMs = w.syncStartedMs := by
  unfold degrade
  split <;> exact ⟨rfl, rfl⟩

theorem start_frame (w : Watcher) (outcome : StartOutcome) :
    (w.start outcome).inFlight = w.inFlight ∧
      (w.start outcome).syncStartedMs = w.syncStartedMs := by
  unfold start
  split
  · exact ⟨rfl, rfl⟩
  · cases outcome with
    | disabled => exact ⟨rfl, rfl⟩
    | installed => exact ⟨rfl, rfl⟩
    | exhausted => exact degrade_inFlight _ _
    | failed => exact ⟨rfl, rfl⟩

/-- Only a start that installs the watch set makes a watcher ready. -/
theorem start_not_ready {w : Watcher} {outcome : StartOutcome} (hr : w.ready = false)
    (ho : outcome ≠ .installed) : (w.start outcome).ready = false := by
  unfold start
  split
  · exact hr
  · cases outcome with
    | disabled => exact hr
    | installed => exact (ho rfl).elim
    | exhausted => exact (degrade_stops rfl _).1
    | failed => rfl

/-- An event never touches the sync in flight or the life cycle flags, and
pending paths are only added. -/
theorem handleChange_frame (w : Watcher) (rel : String) (kind : ScopeClassification)
    (onDisk : Bool) (nowMs : Nat) :
    let w' := w.handleChange rel kind onDisk nowMs
    w'.inFlight = w.inFlight ∧ w'.syncStartedMs = w.syncStartedMs ∧ w'.ready = w.ready ∧
      w'.stopped = w.stopped ∧ w'.active = w.active ∧ w'.degradedReason = w.degradedReason ∧
      w'.retry = w.retry := by
  dsimp only
  unfold handleChange
  split
  · simp
  · cases kind with
    | alwaysIgnored => simp
    | ignoredByMatcher => simp
    | scopeRefresh => simp [refreshScope, scheduleSync]
    | nonSource => cases onDisk <;> simp [maybeScheduleForRemovedDir, scheduleSync]
    | sourceChange => cases h : w.ready <;> simp [recordChange, scheduleSync, h]

theorem fire_of_busy {w : Watcher} (h : w.syncing = true ∨ w.stopped = true) (nowMs : Nat) :
    w.fire nowMs = { w with scheduler := w.scheduler.cancel } := by
  have hb : (w.syncing || w.stopped) = true := by simpa using h
  unfold fire flush
  exact if_pos hb

theorem fire_of_idle {w : Watcher} (hi : w.inFlight = none) (hs : w.stopped = false)
    (nowMs : Nat) :
    w.fire nowMs = { w with
      scheduler := w.scheduler.cancel, syncStartedMs := nowMs, inFlight := some w.scopedPaths } := by
  simp [fire, flush, syncing, hi, hs, scopedPaths]

theorem scopedPaths_of_needsFullScan {w : Watcher} (h : w.needsFullScan = true) :
    w.scopedPaths = none := by
  simp [scopedPaths, h]

theorem scopedPaths_some {w : Watcher} {paths : List String} (h : w.scopedPaths = some paths) :
    paths = w.pending.paths := by
  unfold scopedPaths at h
  split at h
  · exact (Option.some.inj h).symm
  · cases h

/-- The `finally` block rearms exactly when pending files remain. -/
theorem finishSync_armed (w : Watcher) :
    w.finishSync.scheduler.isArmed = true ↔
      w.scheduler.isArmed = true ∨ (0 < w.pending.size ∧ w.stopped = false) := by
  unfold finishSync
  dsimp only
  split
  · rename_i h
    split <;> simp [scheduleRetrySync, scheduleSync, h.1, h.2]
  · rename_i h
    simp [h]

theorem finishSync_frame (w : Watcher) :
    w.finishSync.inFlight = none ∧ w.finishSync.pending = w.pending ∧
      w.finishSync.needsFullScan = w.needsFullScan ∧ w.finishSync.ready = w.ready ∧
      w.finishSync.stopped = w.stopped ∧ w.finishSync.active = w.active ∧
      w.finishSync.degradedReason = w.degradedReason ∧
      w.finishSync.syncStartedMs = w.syncStartedMs := by
  unfold finishSync
  dsimp only
  split
  · split <;> simp [scheduleRetrySync, scheduleSync]
  · simp

/-- A watcher that is ready after a recorded failure differs from the one before
in its retry streaks only. -/
theorem recordFailure_ready {w : Watcher} {recorded : RetryPolicy × FailureOutcome}
    {reason : String} (h : (w.recordFailure recorded reason).ready = true) :
    w.recordFailure recorded reason = { w with retry := recorded.1 } := by
  unfold recordFailure at h ⊢
  dsimp only at h ⊢
  split at h
  · rename_i hd
    rw [if_pos hd]
    unfold degrade at h ⊢
    split at h
    · rename_i hdeg
      rw [if_pos hdeg]
    · cases h
  · rename_i hd
    rw [if_neg hd]

theorem recordFailure_frame (w : Watcher) (recorded : RetryPolicy × FailureOutcome)
    (reason : String) : (w.recordFailure recorded reason).inFlight = w.inFlight ∧
      (w.recordFailure recorded reason).syncStartedMs = w.syncStartedMs := by
  unfold recordFailure
  dsimp only
  split
  · exact degrade_inFlight _ reason
  · exact ⟨rfl, rfl⟩

/-- A failing sync of a healthy watcher either stops it or leaves everything
but the retry streaks as it was. -/
theorem recordFailure_cases {w : Watcher} (hd : w.degradedReason = none)
    (recorded : RetryPolicy × FailureOutcome) (reason : String) :
    (recorded.2.shouldDegrade = true ∧ (w.recordFailure recorded reason).ready = false ∧
        (w.recordFailure recorded reason).stopped = true) ∨
      (recorded.2.shouldDegrade = false ∧
        w.recordFailure recorded reason = { w with retry := recorded.1 }) := by
  unfold recordFailure
  dsimp only
  split
  · rename_i h
    have hs := degrade_stops (w := { w with retry := recorded.1 }) hd reason
    exact Or.inl ⟨h, hs.1, hs.2.1⟩
  · rename_i h
    exact Or.inr ⟨by simpa using h, rfl⟩

/-- Every outcome but success is a recorded failure, and a watcher whose two
streaks are both at their budget degrades on it. -/
theorem settle_of_failure {w : Watcher} {outcome : SyncOutcome} (h : outcome ≠ .success)
    (arg : SyncArg) : ∃ recorded reason,
      w.settle arg outcome = (w.recordFailure recorded reason).finishSync ∧
        (w.retry.exhausted → recorded.2.shouldDegrade = true) := by
  cases outcome with
  | success => exact (h rfl).elim
  | lockUnavailable => exact ⟨_, _, rfl, fun he => he.1⟩
  | error message => exact ⟨_, _, rfl, fun he => he.2⟩

theorem settle_frame (w : Watcher) (arg : SyncArg) (outcome : SyncOutcome) :
    (w.settle arg outcome).inFlight = none ∧
      (w.settle arg outcome).syncStartedMs = w.syncStartedMs := by
  by_cases h : outcome = .success
  · subst h
    exact ⟨(finishSync_frame _).1, (finishSync_frame _).2.2.2.2.2.2.2⟩
  · obtain ⟨recorded, reason, he, _⟩ := settle_of_failure h arg (w := w)
    rw [he]
    refine ⟨(finishSync_frame _).1, ?_⟩
    rw [(finishSync_frame _).2.2.2.2.2.2.2]
    exact (recordFailure_frame w recorded reason).2

/-- A watcher that is ready after its sync settled was ready before, and its
life cycle flags are those it had. -/
theorem settle_ready {w : Watcher} {arg : SyncArg} {outcome : SyncOutcome}
    (h : (w.settle arg outcome).ready = true) :
    w.ready = true ∧ (w.settle arg outcome).stopped = w.stopped ∧
      (w.settle arg outcome).degradedReason = w.degradedReason ∧
      (w.settle arg outcome).active = w.active := by
  by_cases ho : outcome = .success
  · subst ho
    obtain ⟨_, _, _, hReady, hStopped, hActive, hDegraded, _⟩ := finishSync_frame (w.onSuccess arg)
    simp only [settle] at h ⊢
    rw [hReady] at h
    exact ⟨h, hStopped, hDegraded, hActive⟩
  · obtain ⟨recorded, reason, he, _⟩ := settle_of_failure ho arg (w := w)
    rw [he] at h ⊢
    obtain ⟨_, _, _, hReady, hStopped, hActive, hDegraded, _⟩ :=
      finishSync_frame (w.recordFailure recorded reason)
    rw [hReady] at h
    rw [hStopped, hActive, hDegraded, recordFailure_ready h]
    rw [recordFailure_ready h] at h
    exact ⟨h, rfl, rfl, rfl⟩

end Watcher

end AfyxGraph.Sync
