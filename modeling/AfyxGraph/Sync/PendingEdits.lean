import AfyxGraph.Sync.Observed

/-! # Edits that wait for a sync

An edit is recorded under its path with the millisecond of its last event, and a
successful sync drops every path whose last event is not younger than the start
of that sync. An event of the same millisecond as the start, handled after
`flush` took its paths, is dropped with them; this module shows that nothing
else is.
-/

namespace AfyxGraph.Sync

open AfyxGraph.Core

namespace Observed

/-- Every owed edit stands in the pending set. -/
def EditsKept (o : Observed) : Prop :=
  o.Running → ∀ path, o.Owes (.edit path) → path ∈ o.watcher.pending.paths

/-- An owed edit that a scoped sync in flight was not handed came in after its start. -/
def ArgCovers (o : Observed) : Prop :=
  o.Running → ∀ paths, o.watcher.inFlight = some (some paths) → ∀ path, o.Owes (.edit path) →
    path ∈ paths ∨ o.OwesLate (.edit path)

/-- A sync that succeeds has handled no event of its own starting millisecond. -/
def EditsGuard (o : Observed) : Event → Prop
  | .settles .success => o.Running → ∀ path ms, o.OwesLate (.edit path) →
      o.watcher.pending.TouchedAt path ms → ms ≠ o.watcher.syncStartedMs
  | _ => True

theorem editsKept_of_not_running {o : Observed} (h : ¬ o.Running) : o.EditsKept :=
  fun hr => (h hr).elim

theorem argCovers_of_idle {o : Observed} (h : o.watcher.inFlight = none) : o.ArgCovers := by
  intro _ paths hf
  simp [h] at hf

/-! ## One step at a time -/

theorem handled_running_iff (o : Observed) (rel : String) (kind : ScopeClassification)
    (onDisk : Bool) (nowMs : Nat) : (o.handled rel kind onDisk nowMs).Running ↔ o.Running := by
  obtain ⟨_, _, hReady, hStopped, _⟩ :=
    Watcher.handleChange_frame o.watcher rel kind onDisk nowMs
  simp only [Running, handled, hReady, hStopped]

/-- An event adds its own path and keeps every other one. -/
theorem EditsKept.handled {o : Observed} (h : o.EditsKept) (rel : String)
    (kind : ScopeClassification) (onDisk : Bool) (nowMs : Nat) :
    (o.handled rel kind onDisk nowMs).EditsKept := by
  intro hr path howes
  rw [handled_running_iff] at hr
  rw [owes_handled_iff] at howes
  simp only [Observed.handled, handleChange_pending]
  rcases howes with hnew | hold
  · obtain rfl := raises_edit hnew
    rw [if_pos hnew]
    simp
  · split
    · exact (PendingChangeSet.mem_paths_touch _ _ _ _).mpr (Or.inr (h hr path hold))
    · exact h hr path hold

theorem ArgCovers.handled {o : Observed} (h : o.ArgCovers) (rel : String)
    (kind : ScopeClassification) (onDisk : Bool) (nowMs : Nat) :
    (o.handled rel kind onDisk nowMs).ArgCovers := by
  intro hr paths hf path howes
  rw [handled_running_iff] at hr
  rw [owes_handled_iff] at howes
  rw [owesLate_handled_iff]
  have hf' : o.watcher.inFlight = some (some paths) :=
    (Watcher.handleChange_frame o.watcher rel kind onDisk nowMs).1 ▸ hf
  rcases howes with hnew | hold
  · exact Or.inr (Or.inl hnew)
  · exact (h hr paths hf' path hold).imp id Or.inr

/-- A sync that starts is handed every owed edit. -/
theorem EditsKept.launched {o : Observed} (hw : o.WellFormed) (h : o.EditsKept) {nowMs : Nat}
    (hi : o.watcher.inFlight = none) (hs : o.watcher.stopped = false) :
    (o.launched nowMs).EditsKept ∧ (o.launched nowMs).ArgCovers := by
  have he := Watcher.fire_of_idle hi hs nowMs
  have hwatcher : (o.launched nowMs).watcher = { o.watcher with
      scheduler := o.watcher.scheduler.cancel, syncStartedMs := nowMs,
      inFlight := some o.watcher.scopedPaths } := he
  have hr : (o.launched nowMs).Running ↔ o.Running := by simp [Running, hwatcher]
  have hpaths : (o.launched nowMs).watcher.pending.paths = o.watcher.pending.paths := by
    simp [hwatcher]
  constructor
  · intro hrun path howes
    rw [hpaths]
    exact h (hr.mp hrun) path ((owes_launched_iff (hw.numbered hi) nowMs _).mp howes)
  · intro hrun paths hf path howes
    have harg : o.watcher.scopedPaths = some paths := by simpa [hwatcher] using hf
    rw [Watcher.scopedPaths_some harg]
    exact Or.inl (h (hr.mp hrun) path ((owes_launched_iff (hw.numbered hi) nowMs _).mp howes))

/-- What a successful sync drops: nothing that came in after its start, a tie of
the clock apart. -/
theorem editsKept_settled_iff {o : Observed} (hw : o.WellFormed) (hp : o.EditsKept)
    (hcov : o.ArgCovers) {arg : SyncArg} (hf : o.watcher.inFlight = some arg) :
    (o.settled arg .success).EditsKept ↔
      (o.Running → ∀ path ms, o.OwesLate (.edit path) →
        o.watcher.pending.TouchedAt path ms → ms ≠ o.watcher.syncStartedMs) := by
  have hc : Log.Current o.log o.syncs arg := hw.current arg hf
  obtain ⟨_, hPending, _, hReady, hStopped, _⟩ := Watcher.finishSync_frame (o.watcher.onSuccess arg)
  have hr : (o.settled arg .success).Running ↔ o.Running := by
    simp only [Running, settled, Watcher.settle, hReady, hStopped]
    rfl
  have hpaths : (o.settled arg .success).watcher.pending =
      o.watcher.pending.retainTouchedAfter o.watcher.syncStartedMs := hPending
  constructor
  · intro h hrun path ms hlate ht
    have howes : (o.settled arg .success).Owes (.edit path) := by
      rw [owes_settled_iff hc, if_pos rfl]
      exact Or.inl hlate
    have hmem := h (hr.mpr hrun) path howes
    rw [hpaths, PendingChangeSet.mem_paths_retain] at hmem
    obtain ⟨last, hlast, hlt⟩ := hmem
    have := PendingChangeSet.touchedAt_unique ht hlast
    omega
  · intro h hrun' path howes
    have hrun := hr.mp hrun'
    have hlate : o.OwesLate (.edit path) := by
      rw [owes_settled_iff hc, if_pos rfl] at howes
      rcases howes with hlate | ⟨hout, hold⟩
      · exact hlate
      · cases arg with
        | none => exact (hout trivial).elim
        | some paths => exact (hcov hrun paths hf path hold).resolve_left hout
    obtain ⟨ms, ht⟩ := (PendingChangeSet.mem_paths_iff _ path).mp
      (hp hrun path (Log.Recent.outstanding hlate))
    have hle := hw.stamped (by simp [Watcher.syncing, hf]) hrun.1 path ms hlate ht
    have hne := h hrun path ms hlate ht
    rw [hpaths, PendingChangeSet.mem_paths_retain]
    exact ⟨ms, ht, by omega⟩

/-- A failing sync drops nothing. -/
theorem EditsKept.failed {o : Observed} (hw : o.WellFormed) (hp : o.EditsKept) {arg : SyncArg}
    (hf : o.watcher.inFlight = some arg) {outcome : SyncOutcome} (ho : outcome ≠ .success) :
    (o.settled arg outcome).EditsKept := by
  intro hrun path howes
  have hr : o.Running :=
    ⟨(Watcher.settle_ready hrun.1).1, (Watcher.settle_ready hrun.1).2.1 ▸ hrun.2⟩
  rw [owes_settled_iff (hw.current arg hf), if_neg ho] at howes
  obtain ⟨recorded, reason, he, _⟩ := Watcher.settle_of_failure ho arg (w := o.watcher)
  obtain ⟨_, hPending, _, hReady, _⟩ :=
    Watcher.finishSync_frame (o.watcher.recordFailure recorded reason)
  have hready : (o.watcher.recordFailure recorded reason).ready = true := by
    rw [← hReady, ← he]
    exact hrun.1
  rw [settled, he, hPending, Watcher.recordFailure_ready hready]
  exact hp hr path howes

/-! ## Every run -/

theorem argCovers_step {o o' : Observed} {event : Event} (hw : o.WellFormed) (hcov : o.ArgCovers)
    (hp : o.EditsKept) (hstep : step o event = some o') : o'.ArgCovers := by
  cases event with
  | change rel kind onDisk nowMs =>
      simp only [step, Option.ite_none_right_eq_some, Option.some.injEq] at hstep
      obtain ⟨_, rfl⟩ := hstep
      exact hcov.handled rel kind onDisk nowMs
  | timerFires nowMs =>
      simp only [step, Option.ite_none_right_eq_some, Option.some.injEq] at hstep
      obtain ⟨_, rfl⟩ := hstep
      split
      · rename_i hb
        have he := Watcher.fire_of_busy (by simpa using hb) nowMs
        simpa [ArgCovers, Running, skipped, he, Owes, OwesLate] using hcov
      · rename_i hb
        obtain ⟨hi, hs⟩ : o.watcher.inFlight = none ∧ o.watcher.stopped = false := by
          simpa [Watcher.syncing] using hb
        exact (hp.launched hw hi hs).2
  | settles outcome =>
      simp only [step, Option.map_eq_some_iff] at hstep
      obtain ⟨arg, _, rfl⟩ := hstep
      exact argCovers_of_idle (o.watcher.settle_frame arg outcome).1
  | stop =>
      cases hstep
      exact fun hr => (o.stopped_not_running hr).elim
  | exhausted =>
      cases hstep
      rcases o.degraded_cases EXHAUSTION_REASON with hsame | hr
      · rwa [hsame]
      · exact fun hrun => (hr hrun).elim
  | start outcome =>
      cases hstep
      rcases begun_cases hw outcome with hsame | hr | hlog
      · rwa [hsame]
      · exact fun hrun => (hr hrun).elim
      · exact fun _ _ _ _ howes => (not_owes_of_log_nil hlog _ howes).elim

theorem editsKept_step_iff {o o' : Observed} {event : Event} (hw : o.WellFormed)
    (hcov : o.ArgCovers) (hp : o.EditsKept) (hstep : step o event = some o') :
    o'.EditsKept ↔ EditsGuard o event := by
  cases event with
  | change rel kind onDisk nowMs =>
      simp only [step, Option.ite_none_right_eq_some, Option.some.injEq] at hstep
      obtain ⟨_, rfl⟩ := hstep
      simp [EditsGuard, hp.handled rel kind onDisk nowMs]
  | timerFires nowMs =>
      simp only [step, Option.ite_none_right_eq_some, Option.some.injEq] at hstep
      obtain ⟨_, rfl⟩ := hstep
      refine iff_of_true ?_ trivial
      split
      · rename_i hb
        have he := Watcher.fire_of_busy (by simpa using hb) nowMs
        simpa [EditsKept, Running, skipped, he, Owes] using hp
      · rename_i hb
        obtain ⟨hi, hs⟩ : o.watcher.inFlight = none ∧ o.watcher.stopped = false := by
          simpa [Watcher.syncing] using hb
        exact (hp.launched hw hi hs).1
  | settles outcome =>
      simp only [step, Option.map_eq_some_iff] at hstep
      obtain ⟨arg, hf, rfl⟩ := hstep
      by_cases ho : outcome = .success
      · subst ho
        exact editsKept_settled_iff hw hp hcov hf
      · refine iff_of_true (hp.failed hw hf ho) ?_
        cases outcome <;> first | exact trivial | exact (ho rfl).elim
  | stop =>
      cases hstep
      exact iff_of_true (editsKept_of_not_running o.stopped_not_running) trivial
  | exhausted =>
      cases hstep
      refine iff_of_true ?_ trivial
      rcases o.degraded_cases EXHAUSTION_REASON with hsame | hr
      · rwa [hsame]
      · exact editsKept_of_not_running hr
  | start outcome =>
      cases hstep
      refine iff_of_true ?_ trivial
      rcases begun_cases hw outcome with hsame | hr | hlog
      · rwa [hsame]
      · exact editsKept_of_not_running hr
      · exact fun _ _ howes => (not_owes_of_log_nil hlog _ howes).elim

/-- Along a run every owed edit is always pending exactly when no sync of the
run succeeds after an event of its own starting millisecond. -/
theorem editsKept_iff (debounceMs : Nat) (events : List Event) :
    step.Always EditsKept (init debounceMs) events ↔
      step.Guarded EditsGuard (init debounceMs) events := by
  refine Machine.always_iff_guarded (I := fun o => o.WellFormed ∧ o.ArgCovers) ?_ ?_ ?_ ?_ events
  · exact fun _ _ _ hi hp h => ⟨step_wellFormed hi.1 h, argCovers_step hi.1 hi.2 hp h⟩
  · exact fun _ _ _ hi hp h => editsKept_step_iff hi.1 hi.2 hp h
  · exact ⟨init_wellFormed debounceMs, argCovers_of_idle rfl⟩
  · exact editsKept_of_not_running (init_not_running debounceMs)

/-- The sync of `a.ts` starts at 300 and an edit of `b.ts` arrives in the same
millisecond; when that sync succeeds, `b.ts` is forgotten. -/
theorem editsKept_fails : ¬ ∀ debounceMs events o,
    step.run (init debounceMs) events = some o → o.EditsKept := by
  intro h
  let created := Watcher.create 2000
  let lost : Observed := {
    watcher := { created with
      active := true, ready := true, syncStartedMs := 300
      scheduler := created.scheduler.scheduleSync 2 }
    clock := 300
    syncs := 1
    log := [.raised (.edit "a.ts"), .started 1 (some ["a.ts"]), .raised (.edit "b.ts"),
      .succeeded 1] }
  have hrun : step.run (init 2000) [.start .installed, .change "a.ts" .sourceChange true 0,
      .timerFires 300, .change "b.ts" .sourceChange true 300, .settles .success] = some lost := by
    decide +kernel
  have howes : lost.Owes (.edit "b.ts") :=
    ⟨[.raised (.edit "a.ts"), .started 1 (some ["a.ts"])], [.succeeded 1], rfl, by simp⟩
  have hmem := h 2000 _ lost hrun ⟨rfl, rfl⟩ "b.ts" howes
  cases hmem

end Observed

end AfyxGraph.Sync
