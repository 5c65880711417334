import AfyxGraph.Sync.Observed

/-! # Requests for a full scan

A scope refresh or a removed directory asks for a sync of the whole tree. The
watcher keeps the request in one flag and relies on its timer to act on it, but
the `finally` block of `flush` rearms by the size of the pending set, and a full
sync that succeeds clears the flag whatever was asked for while it ran. This
module says exactly at which steps a request can be lost.
-/

namespace AfyxGraph.Sync

open AfyxGraph.Core

namespace Observed

/-- A sync is in flight, and however it settles a running watcher that still
owes a full scan has its timer armed. -/
def CompletionRearms (o : Observed) : Prop :=
  o.watcher.inFlight.isSome = true ∧ ∀ outcome o', step o (.settles outcome) = some o' →
    o'.Running → o'.Owes .fullScan → o'.watcher.scheduler.isArmed = true

/-- An owed full scan is remembered, and something will act on it. -/
def FullScanKept (o : Observed) : Prop :=
  o.Running → o.Owes .fullScan → o.watcher.needsFullScan = true ∧
    (o.watcher.scheduler.isArmed = true ∨ o.CompletionRearms)

/-- A failing sync is followed by a retry, or by the end of the watcher. -/
def CanRetry (w : Watcher) : Prop := 0 < w.pending.size ∨ w.retry.exhausted

/-- What the `finally` block needs to find when the sync in flight, made with
`arg`, settles and the timer is not armed. -/
def SettleRearms (o : Observed) (arg : SyncArg) : Prop :=
  0 < (o.watcher.pending.retainTouchedAfter o.watcher.syncStartedMs).size ∨
    (arg = none ∧ ¬ o.OwesLate .fullScan ∧ CanRetry o.watcher)

/-- The steps that keep an owed full scan: a firing timer finds enough pending
to be rearmed by the settling of the sync it starts or joins, and a successful
full sync ends before another request comes in. -/
def FullScanGuard (o : Observed) : Event → Prop
  | .timerFires _ => o.Running → o.Owes .fullScan →
      match o.watcher.inFlight with
      | none => CanRetry o.watcher
      | some arg => o.SettleRearms arg
  | .settles .success => o.Running → o.watcher.inFlight = some none → ¬ o.OwesLate .fullScan
  | _ => True

/-! ## How a settling sync leaves the timer -/

/-- After a success the timer is armed when files touched since the start remain. -/
theorem armed_settled_success {o : Observed} (hr : o.Running) (arg : SyncArg) :
    (o.settled arg .success).watcher.scheduler.isArmed = true ↔
      o.watcher.scheduler.isArmed = true ∨
        0 < (o.watcher.pending.retainTouchedAfter o.watcher.syncStartedMs).size := by
  simp only [settled, Watcher.settle, Watcher.finishSync_armed]
  simp [Watcher.onSuccess, hr.2]

/-- A failing sync keeps the flag, keeps what is armed and rearms for what is
pending. -/
theorem settled_failure {o : Observed} {arg : SyncArg} {outcome : SyncOutcome}
    (ho : outcome ≠ .success) (h : (o.settled arg outcome).Running) :
    (o.settled arg outcome).watcher.needsFullScan = o.watcher.needsFullScan ∧
      ((o.settled arg outcome).watcher.scheduler.isArmed = true ↔
        o.watcher.scheduler.isArmed = true ∨ 0 < o.watcher.pending.size) := by
  obtain ⟨recorded, reason, he, _⟩ := Watcher.settle_of_failure ho arg (w := o.watcher)
  obtain ⟨_, _, hScan, hReady, hStopped, _⟩ :=
    Watcher.finishSync_frame (o.watcher.recordFailure recorded reason)
  have hr : (o.watcher.recordFailure recorded reason).ready = true := by
    rw [← hReady, ← he]
    exact h.1
  have hs : (o.watcher.recordFailure recorded reason).stopped = false := by
    rw [← hStopped, ← he]
    exact h.2
  simp only [settled, he, hScan, Watcher.finishSync_armed, hs]
  simp [Watcher.recordFailure_ready hr]

/-- With both streaks at their budget no failure leaves the watcher running. -/
theorem settled_failure_stops {o : Observed} (hw : o.WellFormed) (hr : o.Running) {arg : SyncArg}
    {outcome : SyncOutcome} (ho : outcome ≠ .success) (he : o.watcher.retry.exhausted) :
    ¬ (o.settled arg outcome).Running := by
  obtain ⟨recorded, reason, hsettle, hdegrade⟩ :=
    Watcher.settle_of_failure ho arg (w := o.watcher)
  obtain ⟨_, _, _, hReady, _⟩ :=
    Watcher.finishSync_frame (o.watcher.recordFailure recorded reason)
  rintro ⟨hr', _⟩
  rw [settled, hsettle, hReady] at hr'
  rcases Watcher.recordFailure_cases (hw.healthy hr.1).2.1 recorded reason with
    ⟨_, hstop, _⟩ | ⟨hgo, _⟩
  · simp [hstop] at hr'
  · simp [hdegrade he] at hgo

/-- Otherwise some failure does. -/
theorem settled_failure_runs {o : Observed} (hw : o.WellFormed) (hr : o.Running) (arg : SyncArg)
    (he : ¬ o.watcher.retry.exhausted) :
    ∃ outcome, outcome ≠ .success ∧ (o.settled arg outcome).Running := by
  have hgo : ∀ (recorded : RetryPolicy × FailureOutcome) (reason : String),
      recorded.2.shouldDegrade ≠ true →
        ((o.watcher.recordFailure recorded reason).finishSync).ready = true ∧
          ((o.watcher.recordFailure recorded reason).finishSync).stopped = false := by
    intro recorded reason hd
    obtain ⟨_, _, _, hReady, hStopped, _⟩ :=
      Watcher.finishSync_frame (o.watcher.recordFailure recorded reason)
    rw [hReady, hStopped]
    rcases Watcher.recordFailure_cases (hw.healthy hr.1).2.1 recorded reason with
      ⟨hd', _⟩ | ⟨_, hsame⟩
    · exact (hd hd').elim
    · rw [hsame]
      exact hr
  by_cases hlock : o.watcher.retry.recordLockFailure.2.shouldDegrade = true
  · have hgeneric : o.watcher.retry.recordGenericFailure.2.shouldDegrade ≠ true :=
      fun h => he ⟨hlock, h⟩
    exact ⟨.error "", by simp, hgo _ _ hgeneric⟩
  · exact ⟨.lockUnavailable, by simp, hgo _ _ hlock⟩

theorem settled_success_running {o : Observed} (hr : o.Running) (arg : SyncArg) :
    (o.settled arg .success).Running := by
  obtain ⟨_, _, _, hReady, hStopped, _⟩ := Watcher.finishSync_frame (o.watcher.onSuccess arg)
  simp only [Running, settled, Watcher.settle, hReady, hStopped]
  exact hr

/-- With the timer off, the sync in flight rearms it exactly when it finds what
the `finally` block needs. -/
theorem completionRearms_iff {o : Observed} (hw : o.WellFormed) {arg : SyncArg}
    (hf : o.watcher.inFlight = some arg) (harm : o.watcher.scheduler.isArmed = false)
    (hr : o.Running) (howes : o.Owes .fullScan) : o.CompletionRearms ↔ o.SettleRearms arg := by
  have hc : Log.Current o.log o.syncs arg := hw.current arg hf
  have hstep : ∀ outcome, step o (.settles outcome) = some (o.settled arg outcome) := by
    intro outcome
    simp [step, hf]
  constructor
  · rintro ⟨_, hall⟩
    by_cases hretain : 0 < (o.watcher.pending.retainTouchedAfter o.watcher.syncStartedMs).size
    · exact Or.inl hretain
    · -- a success leaves the timer off, so it must discharge the request
      have hdone : ¬ (o.settled arg .success).Owes .fullScan := fun h => by
        have := hall _ _ (hstep .success) (settled_success_running hr arg) h
        simp [armed_settled_success hr, harm, hretain] at this
      rw [owes_settled_iff hc, if_pos rfl, not_or] at hdone
      refine Or.inr ⟨?_, hdone.1, ?_⟩
      · cases arg with
        | none => rfl
        | some paths => exact (hdone.2 ⟨id, howes⟩).elim
      · by_contra hretry
        rw [CanRetry, not_or] at hretry
        obtain ⟨outcome, ho, hrun⟩ := settled_failure_runs hw hr arg hretry.2
        have howes' : (o.settled arg outcome).Owes .fullScan := by
          rwa [owes_settled_iff hc, if_neg ho]
        have := hall _ _ (hstep outcome) hrun howes'
        rw [(settled_failure ho hrun).2] at this
        simp [harm, hretry.1] at this
  · intro h
    refine ⟨by simp [hf], fun outcome o' ho' hr' howes' => ?_⟩
    rw [hstep outcome] at ho'
    cases ho'
    by_cases ho : outcome = .success
    · subst ho
      rcases h with hretain | ⟨rfl, hlate, _⟩
      · exact (armed_settled_success hr arg).mpr (Or.inr hretain)
      · rw [owes_settled_iff hc, if_pos rfl] at howes'
        rcases howes' with hl | ⟨hcov, _⟩
        · exact (hlate hl).elim
        · exact (hcov trivial).elim
    · rw [(settled_failure ho hr').2]
      rcases h with hretain | ⟨_, _, hpending | he⟩
      · exact Or.inr (PendingChangeSet.size_retain_pos hretain)
      · exact Or.inr hpending
      · exact (settled_failure_stops hw hr ho he hr').elim

/-! ## One step at a time -/

theorem handleChange_armed_or_same (w : Watcher) (rel : String) (kind : ScopeClassification)
    (onDisk : Bool) (nowMs : Nat) :
    (w.handleChange rel kind onDisk nowMs).scheduler.isArmed = true ∨
      (w.handleChange rel kind onDisk nowMs = w ∧ raises w rel kind onDisk = none) := by
  unfold Watcher.handleChange raises
  cases Watcher.outsideTree rel with
  | true => simp
  | false =>
      cases kind with
      | alwaysIgnored => simp
      | ignoredByMatcher => simp
      | scopeRefresh => simp [Watcher.refreshScope, Watcher.scheduleSync]
      | nonSource => cases onDisk <;> simp [Watcher.maybeScheduleForRemovedDir, Watcher.scheduleSync]
      | sourceChange => simp [Watcher.scheduleSync]

/-- `CompletionRearms` reads neither clock nor anything an ignored event changes. -/
theorem CompletionRearms.of_clock {o : Observed} (h : o.CompletionRearms) (nowMs : Nat) :
    CompletionRearms { o with clock := nowMs } := by
  refine ⟨h.1, fun outcome o' ho' hr howes => ?_⟩
  simp only [step, Option.map_eq_some_iff] at ho'
  obtain ⟨arg, hf, rfl⟩ := ho'
  exact h.2 outcome (o.settled arg outcome) (by simp [step, hf]) hr howes

/-- No event loses a request. -/
theorem FullScanKept.handled {o : Observed} (h : o.FullScanKept) (rel : String)
    (kind : ScopeClassification) (onDisk : Bool) (nowMs : Nat) :
    (o.handled rel kind onDisk nowMs).FullScanKept := by
  obtain ⟨_, _, hReady, hStopped, _⟩ :=
    Watcher.handleChange_frame o.watcher rel kind onDisk nowMs
  intro hr howes
  have hr' : o.Running := by simpa only [Running, Observed.handled, hReady, hStopped] using hr
  rw [owes_handled_iff] at howes
  constructor
  · refine (handleChange_needsFullScan ..).mpr (howes.imp id fun ho => (h hr' ho).1)
  · rcases handleChange_armed_or_same o.watcher rel kind onDisk nowMs with harm | ⟨hsame, hnone⟩
    · exact Or.inl harm
    · have ho : o.handled rel kind onDisk nowMs = { o with clock := nowMs } := by
        simp [Observed.handled, hsame, hnone]
      rw [ho]
      rw [hnone] at howes
      rcases howes with hnew | hold
      · cases hnew
      · exact (h hr' hold).2.imp id fun hc => hc.of_clock nowMs

theorem fullScanKept_of_not_running {o : Observed} (h : ¬ o.Running) : o.FullScanKept :=
  fun hr => (h hr).elim

/-- A timer that fires during a sync keeps the request exactly when the end of
that sync rearms it. -/
theorem fullScanKept_skipped_iff {o : Observed} (hw : o.WellFormed) (hp : o.FullScanKept)
    {nowMs : Nat} {arg : SyncArg} (hclock : o.clock ≤ nowMs)
    (hf : o.watcher.inFlight = some arg) :
    (o.skipped nowMs).FullScanKept ↔ (o.Running → o.Owes .fullScan → o.SettleRearms arg) := by
  have hb : o.watcher.syncing = true ∨ o.watcher.stopped = true := by simp [Watcher.syncing, hf]
  have he : (o.skipped nowMs).watcher =
      { o.watcher with scheduler := o.watcher.scheduler.cancel } := Watcher.fire_of_busy hb nowMs
  have hr : (o.skipped nowMs).Running ↔ o.Running := by simp [Running, he]
  have hs : (o.skipped nowMs).SettleRearms arg ↔ o.SettleRearms arg := by
    simp [SettleRearms, CanRetry, OwesLate, skipped, Watcher.fire_of_busy hb]
  have hf' : (o.skipped nowMs).watcher.inFlight = some arg := by simp [he, hf]
  have hiff := completionRearms_iff (hw.skipped hclock hb) hf' (by simp [he])
  constructor
  · intro h hrun howes
    rcases (h (hr.mpr hrun) howes).2 with harm | hc
    · simp [he] at harm
    · exact hs.mp ((hiff (hr.mpr hrun) howes).mp hc)
  · intro h hrun howes
    refine ⟨?_, Or.inr ((hiff hrun howes).mpr (hs.mpr (h (hr.mp hrun) howes)))⟩
    rw [he]
    exact (hp (hr.mp hrun) howes).1

/-- A timer that fires on an idle watcher starts a full sync, whose failure has
to find something pending. -/
theorem fullScanKept_launched_iff {o : Observed} (hw : o.WellFormed) (hp : o.FullScanKept)
    (nowMs : Nat) (hi : o.watcher.inFlight = none) (hs : o.watcher.stopped = false) :
    (o.launched nowMs).FullScanKept ↔ (o.Running → o.Owes .fullScan → CanRetry o.watcher) := by
  have he := Watcher.fire_of_idle hi hs nowMs
  have hwatcher : (o.launched nowMs).watcher = { o.watcher with
      scheduler := o.watcher.scheduler.cancel, syncStartedMs := nowMs,
      inFlight := some o.watcher.scopedPaths } := he
  have hr : (o.launched nowMs).Running ↔ o.Running := by simp [Running, hwatcher]
  have howes : (o.launched nowMs).Owes .fullScan ↔ o.Owes .fullScan :=
    owes_launched_iff (hw.numbered hi) nowMs _
  have hf : (o.launched nowMs).watcher.inFlight = some o.watcher.scopedPaths := by simp [hwatcher]
  have hiff := completionRearms_iff (hw.launched nowMs hi hs) hf (by simp [hwatcher])
  constructor
  · intro h hrun ho
    rcases (h (hr.mpr hrun) (howes.mpr ho)).2 with harm | hc
    · simp [hwatcher] at harm
    · rcases (hiff (hr.mpr hrun) (howes.mpr ho)).mp hc with hretain | ⟨_, _, hretry⟩
      · rw [hwatcher] at hretain
        exact Or.inl (PendingChangeSet.size_retain_pos hretain)
      · simpa [CanRetry, hwatcher] using hretry
  · intro h hrun ho
    have ho' := howes.mp ho
    have hflag := (hp (hr.mp hrun) ho').1
    refine ⟨by simpa only [hwatcher] using hflag, Or.inr ((hiff hrun ho).mpr (Or.inr ⟨?_, ?_, ?_⟩))⟩
    · exact Watcher.scopedPaths_of_needsFullScan hflag
    · exact not_owesLate_launched o nowMs _
    · simpa [CanRetry, hwatcher] using h (hr.mp hrun) ho'

/-- Only a full sync that succeeds after another request came in loses it. -/
theorem fullScanKept_settled_iff {o : Observed} (hw : o.WellFormed) (hp : o.FullScanKept)
    {arg : SyncArg} (hf : o.watcher.inFlight = some arg) (outcome : SyncOutcome) :
    (o.settled arg outcome).FullScanKept ↔
      (outcome = .success → o.Running → arg = none → ¬ o.OwesLate .fullScan) := by
  have hc : Log.Current o.log o.syncs arg := hw.current arg hf
  have hidle : ¬ (o.settled arg outcome).CompletionRearms := fun h => by
    simp [CompletionRearms, settled, (o.watcher.settle_frame arg outcome).1] at h
  have hrun : (o.settled arg outcome).Running → o.Running := fun h =>
    ⟨(Watcher.settle_ready h.1).1, (Watcher.settle_ready h.1).2.1 ▸ h.2⟩
  -- what the previous state promised about this completion
  have hrearm : o.Running → o.Owes .fullScan → (o.settled arg outcome).Running →
      (o.settled arg outcome).Owes .fullScan →
        (o.settled arg outcome).watcher.scheduler.isArmed = true := by
    intro hr ho hr' ho'
    rcases (hp hr ho).2 with harm | hcr
    · by_cases hout : outcome = .success
      · subst hout
        exact (armed_settled_success hr arg).mpr (Or.inl harm)
      · exact (settled_failure hout hr').2.mpr (Or.inl harm)
    · exact hcr.2 outcome _ (by simp [step, hf]) hr' ho'
  constructor
  · rintro h rfl hr rfl hlate
    have ho : (o.settled none .success).Owes .fullScan := by
      rw [owes_settled_iff hc, if_pos rfl]
      exact Or.inl hlate
    have hflag := (h (settled_success_running hr none) ho).1
    obtain ⟨_, _, hScan, _⟩ := Watcher.finishSync_frame (o.watcher.onSuccess none)
    rw [settled, Watcher.settle, hScan] at hflag
    cases hflag
  · intro h hr' ho'
    have hr := hrun hr'
    by_cases hout : outcome = .success
    · subst hout
      have ho := ho'
      rw [owes_settled_iff hc, if_pos rfl] at ho
      cases arg with
      | none =>
          rcases ho with hl | ⟨hcov, _⟩
          · exact (h rfl hr rfl hl).elim
          · exact (hcov trivial).elim
      | some paths =>
          have hold : o.Owes .fullScan := ho.elim Log.Recent.outstanding And.right
          obtain ⟨_, _, hScan, _⟩ := Watcher.finishSync_frame (o.watcher.onSuccess (some paths))
          refine ⟨?_, Or.inl (hrearm hr hold hr' ho')⟩
          rw [settled, Watcher.settle, hScan]
          exact (hp hr hold).1
    · have hold : o.Owes .fullScan := by rwa [owes_settled_iff hc, if_neg hout] at ho'
      refine ⟨?_, Or.inl (hrearm hr hold hr' ho')⟩
      rw [(settled_failure hout hr').1]
      exact (hp hr hold).1

/-! ## Every run -/

theorem fullScanKept_step_iff {o o' : Observed} {event : Event} (hw : o.WellFormed)
    (hp : o.FullScanKept) (hstep : step o event = some o') :
    o'.FullScanKept ↔ FullScanGuard o event := by
  cases event with
  | change rel kind onDisk nowMs =>
      simp only [step, Option.ite_none_right_eq_some, Option.some.injEq] at hstep
      obtain ⟨_, rfl⟩ := hstep
      simp [FullScanGuard, hp.handled rel kind onDisk nowMs]
  | timerFires nowMs =>
      simp only [step, Option.ite_none_right_eq_some, Option.some.injEq] at hstep
      obtain ⟨⟨hclock, _⟩, rfl⟩ := hstep
      cases hf : o.watcher.inFlight with
      | some arg =>
          simpa [FullScanGuard, hf, Watcher.syncing] using
            fullScanKept_skipped_iff hw hp hclock hf
      | none =>
          cases hs : o.watcher.stopped with
          | false =>
              simpa [FullScanGuard, hf, hs, Watcher.syncing] using
                fullScanKept_launched_iff hw hp nowMs hf hs
          | true =>
              have hr : ¬ o.Running := fun h => by simp [h.2] at hs
              have he := Watcher.fire_of_busy (Or.inr hs) nowMs
              have hr' : ¬ (o.skipped nowMs).Running := fun h => hr (by
                simpa [Running, skipped, he] using h)
              simp [FullScanGuard, hf, hr, fullScanKept_of_not_running hr']
  | settles outcome =>
      simp only [step, Option.map_eq_some_iff] at hstep
      obtain ⟨arg, hf, rfl⟩ := hstep
      rw [fullScanKept_settled_iff hw hp hf]
      cases outcome <;> simp [FullScanGuard, hf]
  | stop =>
      cases hstep
      simp [FullScanGuard, fullScanKept_of_not_running o.stopped_not_running]
  | exhausted =>
      cases hstep
      have hkept : FullScanKept { o with watcher := o.watcher.degrade EXHAUSTION_REASON } := by
        rcases o.degraded_cases EXHAUSTION_REASON with hsame | hr
        · rwa [hsame]
        · exact fullScanKept_of_not_running hr
      simp [FullScanGuard, hkept]
  | start outcome =>
      cases hstep
      have hkept : (o.begun outcome).FullScanKept := by
        rcases begun_cases hw outcome with hsame | hr | hlog
        · rwa [hsame]
        · exact fullScanKept_of_not_running hr
        · exact fun _ howes => (not_owes_of_log_nil hlog _ howes).elim
      simp [FullScanGuard, hkept]

/-- Along a run a request for a full scan is always kept exactly when every step
of the run meets the guard. -/
theorem fullScanKept_iff (debounceMs : Nat) (events : List Event) :
    step.Always FullScanKept (init debounceMs) events ↔
      step.Guarded FullScanGuard (init debounceMs) events :=
  Machine.always_iff_guarded (fun _ _ _ hw _ h => step_wellFormed hw h)
    (fun _ _ _ hw hp h => fullScanKept_step_iff hw hp h) (init_wellFormed debounceMs)
    (fullScanKept_of_not_running (init_not_running debounceMs)) events

/-- A directory is removed and the full sync this asks for fails. No file is
pending, so nothing is left to retry it. -/
theorem fullScanKept_fails : ¬ ∀ debounceMs events o,
    step.run (init debounceMs) events = some o → o.FullScanKept := by
  intro h
  let created := Watcher.create 2000
  let lost : Observed := {
    watcher := { created with
      active := true, ready := true, needsFullScan := true, syncStartedMs := 300
      retry := created.retry.recordGenericFailure.1 }
    clock := 300
    syncs := 1
    log := [.raised .fullScan, .started 1 none, .failed 1] }
  have hrun : step.run (init 2000) [.start .installed, .change "lib" .nonSource false 0,
      .timerFires 300, .settles (.error "disk")] = some lost := by
    decide +kernel
  have howes : lost.Owes .fullScan := ⟨[], [.started 1 none, .failed 1], rfl, by simp [lost]⟩
  rcases (h 2000 _ lost hrun ⟨rfl, rfl⟩ howes).2 with harmed | ⟨hflying, _⟩
  · cases harmed
  · cases hflying

end Observed

end AfyxGraph.Sync
