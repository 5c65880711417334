import AfyxGraph.Core.Obligation
import AfyxGraph.Core.Transition
import AfyxGraph.Sync.Watcher

/-! # The watcher under observation

The step relation of a watcher: events, timer firings and settlings of the sync
in flight come in any order, under a clock that never runs backwards. The log
next to the watcher is not read by it. It records which full scans and which
edits were asked for and which `syncFn` calls started and how they ended, so
that what is still owed can be said without looking at the watcher's own flags.
-/

namespace AfyxGraph.Sync

open AfyxGraph.Core

/-- What an event asks a later sync for. -/
inductive Obligation where
  | fullScan
  | edit (path : String)
  deriving DecidableEq, Repr

/-- A full sync covers everything, a scoped one the edits of its paths. -/
def covers : SyncArg → Obligation → Prop
  | none, _ => True
  | some _, .fullScan => False
  | some paths, .edit path => path ∈ paths

/-- One step of the watcher's environment. -/
inductive Event where
  | change (rel : String) (kind : ScopeClassification) (onDisk : Bool) (nowMs : Nat)
  | timerFires (nowMs : Nat)
  | settles (outcome : SyncOutcome)
  | stop
  | exhausted
  | start (outcome : StartOutcome)
  deriving DecidableEq, Repr

/-- `syncs` counts the calls of `syncFn`; the one in flight is the last. -/
structure Observed where
  watcher : Watcher
  clock : Nat := 0
  syncs : Nat := 0
  log : Log Obligation SyncArg := []
  deriving DecidableEq

namespace Observed

def init (debounceMs : Nat) : Observed := { watcher := .create debounceMs }

/-- The obligation a handled event raises: a full scan for a scope refresh or a
removed directory, an edit for a source change the watcher is ready to record. -/
def raises (w : Watcher) (rel : String) (kind : ScopeClassification) (onDisk : Bool) :
    Option Obligation :=
  if Watcher.outsideTree rel then none else
    match kind with
    | .scopeRefresh => some .fullScan
    | .nonSource => if onDisk then none else some .fullScan
    | .sourceChange => if w.ready then some (.edit rel) else none
    | .alwaysIgnored | .ignoredByMatcher => none

def settledEntry (n : Nat) : SyncOutcome → Entry Obligation SyncArg
  | .success => .succeeded n
  | _ => .failed n

/-- The watcher has handled an event. -/
def handled (o : Observed) (rel : String) (kind : ScopeClassification) (onDisk : Bool)
    (nowMs : Nat) : Observed :=
  { o with
    watcher := o.watcher.handleChange rel kind onDisk nowMs
    clock := nowMs
    log := o.log ++ (raises o.watcher rel kind onDisk).toList.map .raised }

/-- The timer fired on a watcher that is syncing or stopped. -/
def skipped (o : Observed) (nowMs : Nat) : Observed :=
  { o with watcher := o.watcher.fire nowMs, clock := nowMs }

/-- The timer fired and `flush` called `syncFn`. -/
def launched (o : Observed) (nowMs : Nat) : Observed where
  watcher := o.watcher.fire nowMs
  clock := nowMs
  syncs := o.syncs + 1
  log := o.log ++ [.started (o.syncs + 1) o.watcher.scopedPaths]

/-- The call of `syncFn` in flight, made with `arg`, has settled. -/
def settled (o : Observed) (arg : SyncArg) (outcome : SyncOutcome) : Observed :=
  { o with
    watcher := o.watcher.settle arg outcome
    log := o.log ++ [settledEntry o.syncs outcome] }

/-- A start that takes effect begins a new life with an empty log. -/
def begun (o : Observed) (outcome : StartOutcome) : Observed :=
  { o with
    watcher := o.watcher.start outcome
    log := if outcome = .installed ∧ o.watcher.active = false then [] else o.log }

def step : Machine Observed Event := fun o event =>
  match event with
  | .change rel kind onDisk nowMs =>
      if o.clock ≤ nowMs then some (o.handled rel kind onDisk nowMs) else none
  | .timerFires nowMs =>
      if o.clock ≤ nowMs ∧ o.watcher.scheduler.isArmed = true then
        some (if o.watcher.syncing || o.watcher.stopped then o.skipped nowMs else o.launched nowMs)
      else none
  | .settles outcome => o.watcher.inFlight.map fun arg => o.settled arg outcome
  | .stop => some { o with watcher := o.watcher.stop }
  | .exhausted => some { o with watcher := o.watcher.degrade EXHAUSTION_REASON }
  | .start outcome => some (o.begun outcome)

/-- Started and not stopped. -/
def Running (o : Observed) : Prop := o.watcher.ready = true ∧ o.watcher.stopped = false

/-- Still owed to an event of this life of the watcher. -/
def Owes (o : Observed) (obligation : Obligation) : Prop :=
  Log.Outstanding covers o.log obligation

/-- Owed to an event handled since the last start of a sync. -/
def OwesLate (o : Observed) (obligation : Obligation) : Prop := Log.Recent o.log obligation

/-! ## Invariants of the observation -/

structure WellFormed (o : Observed) : Prop where
  healthy : o.watcher.ready = true →
    o.watcher.stopped = false ∧ o.watcher.degradedReason = none ∧ o.watcher.active = true
  numbered : o.watcher.inFlight = none → Log.Numbered o.syncs o.log
  current : ∀ arg, o.watcher.inFlight = some arg → Log.Current o.log o.syncs arg
  startedMs_le : o.watcher.syncStartedMs ≤ o.clock
  stamped : o.watcher.syncing = true → o.watcher.ready = true → ∀ path ms,
    o.OwesLate (.edit path) → o.watcher.pending.TouchedAt path ms → o.watcher.syncStartedMs ≤ ms

/-! ### What a handled event changes -/

/-- The pending set grows by the path of a raised edit and by nothing else. -/
theorem handleChange_pending (w : Watcher) (rel : String) (kind : ScopeClassification)
    (onDisk : Bool) (nowMs : Nat) :
    (w.handleChange rel kind onDisk nowMs).pending =
      if raises w rel kind onDisk = some (.edit rel) then w.pending.touch rel nowMs
      else w.pending := by
  unfold Watcher.handleChange raises
  cases Watcher.outsideTree rel with
  | true => simp
  | false =>
      cases kind with
      | alwaysIgnored => simp
      | ignoredByMatcher => simp
      | scopeRefresh => simp [Watcher.refreshScope, Watcher.scheduleSync]
      | nonSource => cases onDisk <;> simp [Watcher.maybeScheduleForRemovedDir, Watcher.scheduleSync]
      | sourceChange => cases hr : w.ready <;> simp [Watcher.recordChange, Watcher.scheduleSync, hr]

/-- The full-scan flag is set by exactly the events that ask for a full scan. -/
theorem handleChange_needsFullScan (w : Watcher) (rel : String) (kind : ScopeClassification)
    (onDisk : Bool) (nowMs : Nat) :
    (w.handleChange rel kind onDisk nowMs).needsFullScan = true ↔
      raises w rel kind onDisk = some .fullScan ∨ w.needsFullScan = true := by
  unfold Watcher.handleChange raises
  cases Watcher.outsideTree rel with
  | true => simp
  | false =>
      cases kind with
      | alwaysIgnored => simp
      | ignoredByMatcher => simp
      | scopeRefresh => simp [Watcher.refreshScope, Watcher.scheduleSync]
      | nonSource => cases onDisk <;> simp [Watcher.maybeScheduleForRemovedDir, Watcher.scheduleSync]
      | sourceChange => cases hr : w.ready <;> simp [Watcher.recordChange, Watcher.scheduleSync, hr]

/-- An edit is raised only under its own path. -/
theorem raises_edit {w : Watcher} {rel path : String} {kind : ScopeClassification} {onDisk : Bool}
    (h : raises w rel kind onDisk = some (.edit path)) : path = rel := by
  unfold raises at h
  split at h
  · cases h
  · split at h
    · cases h
    · split at h <;> cases h
    · split at h
      · cases h
        rfl
      · cases h
    · cases h
    · cases h

theorem owes_handled_iff (o : Observed) (rel : String) (kind : ScopeClassification)
    (onDisk : Bool) (nowMs : Nat) (obligation : Obligation) :
    (o.handled rel kind onDisk nowMs).Owes obligation ↔
      raises o.watcher rel kind onDisk = some obligation ∨ o.Owes obligation := by
  unfold Owes handled
  cases h : raises o.watcher rel kind onDisk with
  | none => simp
  | some raised => simp [Log.outstanding_raised_iff, eq_comm]

theorem owesLate_handled_iff (o : Observed) (rel : String) (kind : ScopeClassification)
    (onDisk : Bool) (nowMs : Nat) (obligation : Obligation) :
    (o.handled rel kind onDisk nowMs).OwesLate obligation ↔
      raises o.watcher rel kind onDisk = some obligation ∨ o.OwesLate obligation := by
  unfold OwesLate handled
  cases h : raises o.watcher rel kind onDisk with
  | none => simp
  | some raised => simp [Log.recent_raised_iff, eq_comm]

/-! ### What a start and an end of a sync change -/

theorem settledEntry_cases (n : Nat) (outcome : SyncOutcome) :
    settledEntry n outcome = .succeeded n ∨ settledEntry n outcome = .failed n := by
  cases outcome <;> simp [settledEntry]

theorem not_owesLate_launched (o : Observed) (nowMs : Nat) (obligation : Obligation) :
    ¬ (o.launched nowMs).OwesLate obligation :=
  Log.not_recent_started _ _

theorem owes_launched_iff {o : Observed} (hn : Log.Numbered o.syncs o.log) (nowMs : Nat)
    (obligation : Obligation) : (o.launched nowMs).Owes obligation ↔ o.Owes obligation :=
  Log.outstanding_started_iff hn (Nat.lt_succ_self _)

/-- A failed sync discharges nothing; a successful one discharges what it covers
and was asked for before its start. -/
theorem owes_settled_iff {o : Observed} {arg : SyncArg} (hc : Log.Current o.log o.syncs arg)
    (outcome : SyncOutcome) (obligation : Obligation) :
    (o.settled arg outcome).Owes obligation ↔
      if outcome = .success then
        o.OwesLate obligation ∨ (¬ covers arg obligation ∧ o.Owes obligation)
      else o.Owes obligation := by
  cases outcome with
  | success => exact Log.outstanding_succeeded_iff hc
  | lockUnavailable => exact Log.outstanding_failed_iff _
  | error message => exact Log.outstanding_failed_iff _

/-! ### Every step keeps the invariants -/

theorem WellFormed.handled {o : Observed} (h : o.WellFormed) {nowMs : Nat} (hclock : o.clock ≤ nowMs)
    (rel : String) (kind : ScopeClassification) (onDisk : Bool) :
    (o.handled rel kind onDisk nowMs).WellFormed := by
  obtain ⟨hFlight, hStarted, hReady, hStopped, hActive, hDegraded, _⟩ :=
    Watcher.handleChange_frame o.watcher rel kind onDisk nowMs
  have hlog : ∀ more : Log Obligation SyncArg,
      more = (raises o.watcher rel kind onDisk).toList.map .raised →
        more = [] ∨ ∃ obligation, more = [.raised obligation] := by
    intro more hmore
    cases hr : raises o.watcher rel kind onDisk <;> simp_all
  refine ⟨fun hr => ?_, fun hf => ?_, fun arg hf => ?_, ?_, fun hs hr path ms hlate ht => ?_⟩
  · rw [Observed.handled] at hr
    simp only [Observed.handled, hStopped, hDegraded, hActive]
    exact h.healthy (hReady ▸ hr)
  · have hn := h.numbered (hFlight ▸ hf)
    rcases hlog _ rfl with he | ⟨obligation, he⟩
    · simpa [Observed.handled, he] using hn
    · simp only [Observed.handled, he]
      exact hn.append (by simp [Log.Numbered])
  · have hc := h.current arg (hFlight ▸ hf)
    rcases hlog _ rfl with he | ⟨obligation, he⟩
    · simpa [Observed.handled, he] using hc
    · simp only [Observed.handled, he]
      exact hc.raised obligation
  · simp only [Observed.handled, hStarted]
    exact Nat.le_trans h.startedMs_le hclock
  · have hle : o.watcher.syncStartedMs ≤ nowMs := Nat.le_trans h.startedMs_le hclock
    have hs' : o.watcher.syncing = true := by
      simpa [Observed.handled, Watcher.syncing, hFlight] using hs
    have hr' : o.watcher.ready = true := by simpa [Observed.handled, hReady] using hr
    simp only [Observed.handled, hStarted]
    simp only [Observed.handled, handleChange_pending] at ht
    rw [owesLate_handled_iff] at hlate
    by_cases hraise : raises o.watcher rel kind onDisk = some (.edit rel)
    · rw [if_pos hraise, PendingChangeSet.touchedAt_touch] at ht
      rcases ht with ⟨_, rfl⟩ | ⟨hne, ht⟩
      · exact hle
      · rcases hlate with hnew | hold
        · exact (hne (raises_edit hnew)).elim
        · exact h.stamped hs' hr' path ms hold ht
    · rw [if_neg hraise] at ht
      rcases hlate with hnew | hold
      · exact (hraise (raises_edit hnew ▸ hnew)).elim
      · exact h.stamped hs' hr' path ms hold ht

theorem WellFormed.skipped {o : Observed} (h : o.WellFormed) {nowMs : Nat} (hclock : o.clock ≤ nowMs)
    (hb : o.watcher.syncing = true ∨ o.watcher.stopped = true) : (o.skipped nowMs).WellFormed := by
  have he := Watcher.fire_of_busy hb nowMs
  simp only [Observed.skipped, he]
  exact ⟨h.healthy, h.numbered, h.current, Nat.le_trans h.startedMs_le hclock, h.stamped⟩

theorem WellFormed.launched {o : Observed} (h : o.WellFormed) (nowMs : Nat)
    (hi : o.watcher.inFlight = none) (hs : o.watcher.stopped = false) :
    (o.launched nowMs).WellFormed := by
  have he := Watcher.fire_of_idle hi hs nowMs
  refine ⟨fun hr => ?_, fun hf => ?_, fun arg hf => ?_, ?_, fun _ _ path ms hlate => ?_⟩
  · rw [Observed.launched, he] at hr
    simpa only [Observed.launched, he] using h.healthy hr
  · simp [Observed.launched, he] at hf
  · have harg : o.watcher.scopedPaths = arg := by simpa [Observed.launched, he] using hf
    rw [← harg]
    exact (h.numbered hi).current (Nat.lt_succ_self _) _
  · simp [Observed.launched, he]
  · exact (not_owesLate_launched o nowMs _ hlate).elim

theorem WellFormed.settled {o : Observed} (h : o.WellFormed) {arg : SyncArg}
    (hf : o.watcher.inFlight = some arg) (outcome : SyncOutcome) :
    (o.settled arg outcome).WellFormed := by
  obtain ⟨hFlight, hStarted⟩ := o.watcher.settle_frame arg outcome
  refine ⟨fun hr => ?_, fun _ => ?_, fun arg' hf' => ?_, ?_, fun hs => ?_⟩
  · obtain ⟨hr, hStopped, hDegraded, hActive⟩ := Watcher.settle_ready hr
    simp only [Observed.settled, hStopped, hDegraded, hActive]
    exact h.healthy hr
  · exact (h.current arg hf).settled (settledEntry_cases _ _)
  · simp [Observed.settled, hFlight] at hf'
  · simpa only [Observed.settled, hStarted] using h.startedMs_le
  · simp [Observed.settled, Watcher.syncing, hFlight] at hs

/-- A watcher that is not ready keeps the invariants by its frame alone. -/
theorem WellFormed.halted {o : Observed} (h : o.WellFormed) {w : Watcher} (hr : w.ready = false)
    (hf : w.inFlight = o.watcher.inFlight) (hs : w.syncStartedMs = o.watcher.syncStartedMs) :
    WellFormed { o with watcher := w } where
  healthy hr' := by simp [hr] at hr'
  numbered hn := h.numbered (hf ▸ hn)
  current arg ha := h.current arg (hf ▸ ha)
  startedMs_le := by simpa only [hs] using h.startedMs_le
  stamped _ hr' := by simp [hr] at hr'

theorem WellFormed.degraded {o : Observed} (h : o.WellFormed) (reason : String) :
    WellFormed { o with watcher := o.watcher.degrade reason } := by
  obtain ⟨hf, hs⟩ := o.watcher.degrade_inFlight reason
  cases hd : o.watcher.degradedReason with
  | none => exact h.halted (Watcher.degrade_stops hd reason).1 hf hs
  | some old =>
      have hsame : o.watcher.degrade reason = o.watcher := by
        simp [Watcher.degrade, Watcher.isDegraded, hd]
      simpa only [hsame] using h

theorem WellFormed.begun {o : Observed} (h : o.WellFormed) (outcome : StartOutcome) :
    (o.begun outcome).WellFormed := by
  cases ha : o.watcher.active with
  | true =>
      have hsame : o.begun outcome = o := by simp [Observed.begun, Watcher.start, ha]
      rwa [hsame]
  | false =>
      have hr : o.watcher.ready = false := by
        cases hr : o.watcher.ready with
        | false => rfl
        | true => exact absurd (h.healthy hr).2.2 (by simp [ha])
      by_cases ho : outcome = .installed
      · subst ho
        have hlog : (o.begun .installed).log = [] := by simp [Observed.begun, ha]
        refine ⟨fun _ => ?_, fun _ => ?_, fun arg _ => ?_, ?_, fun _ _ path ms hlate => ?_⟩
        · simp [Observed.begun, Watcher.start, ha]
        · rw [hlog]
          exact Log.numbered_nil _
        · rw [hlog]
          exact Log.current_nil _ arg
        · simpa [Observed.begun, Watcher.start, ha] using h.startedMs_le
        · rw [OwesLate, hlog] at hlate
          exact (Log.not_recent_nil hlate).elim
      · obtain ⟨hf, hs⟩ := o.watcher.start_frame outcome
        simpa [Observed.begun, ho] using h.halted (Watcher.start_not_ready hr ho) hf hs

theorem init_wellFormed (debounceMs : Nat) : (init debounceMs).WellFormed where
  healthy h := by cases h
  numbered _ := Log.numbered_nil _
  current _ h := by cases h
  startedMs_le := Nat.le_refl _
  stamped h := by cases h

/-- What a life cycle event can do: nothing, end the life of the watcher, or
begin one that owes nothing. -/
theorem begun_cases {o : Observed} (h : o.WellFormed) (outcome : StartOutcome) :
    o.begun outcome = o ∨ ¬ (o.begun outcome).Running ∨ (o.begun outcome).log = [] := by
  cases ha : o.watcher.active with
  | true => exact Or.inl (by simp [Observed.begun, Watcher.start, ha])
  | false =>
      by_cases ho : outcome = .installed
      · exact Or.inr (Or.inr (by simp [Observed.begun, ho, ha]))
      · have hr : o.watcher.ready = false := by
          cases hr : o.watcher.ready with
          | false => rfl
          | true => exact absurd (h.healthy hr).2.2 (by simp [ha])
        refine Or.inr (Or.inl fun hrun => ?_)
        exact absurd hrun.1 (by simp [Observed.begun, Watcher.start_not_ready hr ho])

theorem degraded_cases (o : Observed) (reason : String) :
    { o with watcher := o.watcher.degrade reason } = o ∨
      ¬ Running { o with watcher := o.watcher.degrade reason } := by
  cases hd : o.watcher.degradedReason with
  | none =>
      refine Or.inr fun h => absurd h.1 ?_
      simp [(Watcher.degrade_stops hd reason).1]
  | some old => exact Or.inl (by simp [Watcher.degrade, Watcher.isDegraded, hd])

theorem stopped_not_running (o : Observed) : ¬ Running { o with watcher := o.watcher.stop } :=
  fun h => by cases h.1

theorem step_wellFormed {o o' : Observed} {event : Event} (h : o.WellFormed)
    (hstep : step o event = some o') : o'.WellFormed := by
  cases event with
  | change rel kind onDisk nowMs =>
      simp only [step, Option.ite_none_right_eq_some, Option.some.injEq] at hstep
      obtain ⟨hclock, rfl⟩ := hstep
      exact h.handled hclock rel kind onDisk
  | timerFires nowMs =>
      simp only [step, Option.ite_none_right_eq_some, Option.some.injEq] at hstep
      obtain ⟨⟨hclock, _⟩, rfl⟩ := hstep
      split
      · rename_i hb
        exact h.skipped hclock (by simpa using hb)
      · rename_i hb
        obtain ⟨hi, hs⟩ : o.watcher.inFlight = none ∧ o.watcher.stopped = false := by
          simpa [Watcher.syncing] using hb
        exact h.launched nowMs hi hs
  | settles outcome =>
      simp only [step, Option.map_eq_some_iff] at hstep
      obtain ⟨arg, hf, rfl⟩ := hstep
      exact h.settled hf outcome
  | stop =>
      cases hstep
      exact h.halted rfl rfl rfl
  | exhausted =>
      cases hstep
      exact h.degraded _
  | start outcome =>
      cases hstep
      exact h.begun outcome

theorem init_not_running (debounceMs : Nat) : ¬ (init debounceMs).Running :=
  fun h => by cases h.1

theorem not_owes_of_log_nil {o : Observed} (h : o.log = []) (obligation : Obligation) :
    ¬ o.Owes obligation := by
  unfold Owes
  rw [h]
  exact Log.not_outstanding_nil

end Observed

end AfyxGraph.Sync
