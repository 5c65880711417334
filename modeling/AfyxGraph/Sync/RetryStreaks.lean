import AfyxGraph.Sync.Scheduling
import Mathlib.Tactic.Ring

/-! # Failure runs of the retry policy

A lock failure lengthens the lock streak, any other failure ends it and lengthens the other one.
The failures a policy still passes over are bounded by both streaks together: a failure that is no
contention is paid for once, and renews what the lock streak may spend.
-/

namespace AfyxGraph.Sync

inductive Failure where
  | lock
  | generic
  deriving DecidableEq, Repr

namespace RetryPolicy

def recordFailure (r : RetryPolicy) : Failure → RetryPolicy × FailureOutcome
  | .lock => r.recordLockFailure
  | .generic => r.recordGenericFailure

/-- How many failures of a row are recorded before one reports `shouldDegrade`. -/
def quietFailures : RetryPolicy → List Failure → Nat
  | _, [] => 0
  | r, f :: failures =>
      let (r, outcome) := r.recordFailure f
      if outcome.shouldDegrade then 0 else quietFailures r failures + 1

/-- What the policy may still pass over: lock failures now, and each other failure with a whole
lock streak after it. -/
def allowance (r : RetryPolicy) : Nat :=
  (r.options.maxSyncFailureRetries - r.syncFailureRetryCount) * (r.options.maxLockRetries + 1) +
    (r.options.maxLockRetries - r.lockRetryCount)

/-- What is reported is the larger of the two streaks. -/
theorem recordFailure_activeRetryCount (r : RetryPolicy) (f : Failure) :
    (r.recordFailure f).2.activeRetryCount =
      max (r.recordFailure f).1.lockRetryCount (r.recordFailure f).1.syncFailureRetryCount := by
  cases f <;> rfl

theorem activeRetryCount_pos (r : RetryPolicy) (f : Failure) :
    0 < (r.recordFailure f).2.activeRetryCount := by
  cases f with
  | lock => exact lt_max_of_lt_left (Nat.succ_pos _)
  | generic => exact lt_max_of_lt_right (Nat.succ_pos _)

/-- A failure that is passed over is paid for. -/
theorem allowance_recordFailure (r : RetryPolicy) (f : Failure)
    (h : (r.recordFailure f).2.shouldDegrade = false) :
    (r.recordFailure f).1.allowance + 1 ≤ r.allowance := by
  cases f with
  | lock =>
      have hlock := of_decide_eq_false h
      simp only [not_lt] at hlock
      simp only [recordFailure, recordLockFailure, allowance]
      omega
  | generic =>
      have hsync := of_decide_eq_false h
      simp only [not_lt] at hsync
      simp only [recordFailure, recordGenericFailure, allowance]
      obtain ⟨rest, hrest⟩ : ∃ rest,
          r.options.maxSyncFailureRetries - r.syncFailureRetryCount = rest + 1 :=
        ⟨r.options.maxSyncFailureRetries - (r.syncFailureRetryCount + 1), by omega⟩
      have hless : r.options.maxSyncFailureRetries - (r.syncFailureRetryCount + 1) = rest := by
        omega
      rw [hrest, hless, Nat.succ_mul]
      omega

theorem quietFailures_le_allowance (r : RetryPolicy) (failures : List Failure) :
    r.quietFailures failures ≤ r.allowance := by
  induction failures generalizing r with
  | nil => exact Nat.zero_le _
  | cons f failures ih =>
      cases h : (r.recordFailure f).2.shouldDegrade with
      | true =>
          simp only [quietFailures, h, if_true]
          exact Nat.zero_le _
      | false =>
          simp only [quietFailures, h, Bool.false_eq_true, if_false]
          have hpaid := allowance_recordFailure r f h
          exact (Nat.succ_le_succ (ih _)).trans hpaid

theorem allowance_le (r : RetryPolicy) :
    r.allowance ≤ r.options.maxSyncFailureRetries +
      r.options.maxLockRetries * (r.options.maxSyncFailureRetries + 1) := by
  have hspent : (r.options.maxSyncFailureRetries - r.syncFailureRetryCount) *
      (r.options.maxLockRetries + 1) ≤
        r.options.maxSyncFailureRetries * (r.options.maxLockRetries + 1) :=
    Nat.mul_le_mul_right _ (Nat.sub_le _ _)
  calc r.allowance
      ≤ r.options.maxSyncFailureRetries * (r.options.maxLockRetries + 1) +
          r.options.maxLockRetries := Nat.add_le_add hspent (Nat.sub_le _ _)
    _ = r.options.maxSyncFailureRetries +
          r.options.maxLockRetries * (r.options.maxSyncFailureRetries + 1) := by ring

/-- From any state of its streaks, the policy passes over no more failures than its two budgets
allow together, reports the larger streak, and never waits longer than the cap. -/
theorem boundsFailureRuns (r : RetryPolicy) :
    (∀ failures, r.quietFailures failures ≤ r.options.maxSyncFailureRetries +
      r.options.maxLockRetries * (r.options.maxSyncFailureRetries + 1)) ∧
    r.activeRetryCount = max r.lockRetryCount r.syncFailureRetryCount ∧
    (∀ f, (r.recordFailure f).2.activeRetryCount =
        max (r.recordFailure f).1.lockRetryCount (r.recordFailure f).1.syncFailureRetryCount ∧
      0 < (r.recordFailure f).2.activeRetryCount) ∧
    ∀ retryCount, r.backoffDelayMs retryCount ≤ 30000 :=
  ⟨fun failures => (quietFailures_le_allowance r failures).trans (allowance_le r), rfl,
    fun f => ⟨recordFailure_activeRetryCount r f, activeRetryCount_pos r f⟩,
    fun _ => min_le_right _ _⟩

/-- The bound is met: two budgets of one let three failures pass. -/
example : quietFailures ⟨⟨1, 1, 1000⟩, 0, 0⟩ [.lock, .generic, .lock, .lock] = 3 := by decide

end RetryPolicy

end AfyxGraph.Sync
