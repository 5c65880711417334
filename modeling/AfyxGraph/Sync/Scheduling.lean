import Mathlib.Algebra.Group.Nat.Defs
import Mathlib.Data.Nat.Basic
import Mathlib.Order.MinMax

/-! # The watcher's timer and its retry streaks

`DebounceScheduler` owns one trailing-edge timer: every call cancels and rearms
it. `RetryPolicy` owns two failure streaks; a failure that is not lock
contention resets the lock streak, a clean sync resets both.
-/

namespace AfyxGraph.Sync

/-! ## Retry and degradation policy -/

def MAX_RETRY_BACKOFF_MS : Nat := 30000

structure RetryPolicyOptions where
  maxLockRetries : Nat
  maxSyncFailureRetries : Nat
  debounceMs : Nat
  deriving DecidableEq, Repr

structure FailureOutcome where
  shouldDegrade : Bool
  activeRetryCount : Nat
  deriving DecidableEq, Repr

structure RetryPolicy where
  options : RetryPolicyOptions
  lockRetryCount : Nat := 0
  syncFailureRetryCount : Nat := 0
  deriving DecidableEq, Repr

namespace RetryPolicy

def activeRetryCount (r : RetryPolicy) : Nat := max r.lockRetryCount r.syncFailureRetryCount

def recordLockFailure (r : RetryPolicy) : RetryPolicy × FailureOutcome :=
  let r := { r with lockRetryCount := r.lockRetryCount + 1 }
  (r, ⟨decide (r.options.maxLockRetries < r.lockRetryCount), r.activeRetryCount⟩)

def recordGenericFailure (r : RetryPolicy) : RetryPolicy × FailureOutcome :=
  let r := { r with lockRetryCount := 0, syncFailureRetryCount := r.syncFailureRetryCount + 1 }
  (r, ⟨decide (r.options.maxSyncFailureRetries < r.syncFailureRetryCount), r.activeRetryCount⟩)

def recordSuccess (r : RetryPolicy) : RetryPolicy :=
  { r with lockRetryCount := 0, syncFailureRetryCount := 0 }

def reset (r : RetryPolicy) : RetryPolicy :=
  { r with lockRetryCount := 0, syncFailureRetryCount := 0 }

/-- Exponential in the streak, capped. -/
def backoffDelayMs (r : RetryPolicy) (retryCount : Nat) : Nat :=
  min (r.options.debounceMs * 2 ^ (retryCount - 1)) MAX_RETRY_BACKOFF_MS

/-- The next failure degrades the watcher, whichever kind it is. -/
def exhausted (r : RetryPolicy) : Prop :=
  r.recordLockFailure.2.shouldDegrade = true ∧ r.recordGenericFailure.2.shouldDegrade = true

end RetryPolicy

/-! ## Debounce scheduler -/

structure DebounceSchedulerOptions where
  debounceMs : Nat
  quickMaxPending : Nat
  quickQuietMs : Nat
  quickFloorMs : Nat
  deriving DecidableEq, Repr

/-- `timer` holds the delay the pending timeout was armed with. -/
structure DebounceScheduler where
  options : DebounceSchedulerOptions
  timer : Option Nat := none
  deriving DecidableEq, Repr

namespace DebounceScheduler

def rearm (d : DebounceScheduler) (delayMs : Nat) : DebounceScheduler :=
  { d with timer := some delayMs }

/-- A small pending set fires after the quick quiet window. -/
def scheduleSync (d : DebounceScheduler) (pendingSize : Nat) : DebounceScheduler :=
  let quickMs := max d.options.quickFloorMs (min d.options.quickQuietMs d.options.debounceMs)
  d.rearm (if pendingSize ≤ d.options.quickMaxPending then quickMs else d.options.debounceMs)

def scheduleRetry (d : DebounceScheduler) (delayMs : Nat) : DebounceScheduler := d.rearm delayMs

def cancel (d : DebounceScheduler) : DebounceScheduler := { d with timer := none }

def isArmed (d : DebounceScheduler) : Bool := d.timer.isSome

@[simp] theorem isArmed_scheduleSync (d : DebounceScheduler) (n : Nat) :
    (d.scheduleSync n).isArmed = true := rfl

@[simp] theorem isArmed_scheduleRetry (d : DebounceScheduler) (n : Nat) :
    (d.scheduleRetry n).isArmed = true := rfl

@[simp] theorem isArmed_cancel (d : DebounceScheduler) : d.cancel.isArmed = false := rfl

end DebounceScheduler

end AfyxGraph.Sync
