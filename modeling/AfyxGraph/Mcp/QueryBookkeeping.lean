import AfyxGraph.Mcp.QueryPlaces

/-! # Bookkeeping of the query pool

A message puts its worker back to the idle ones whatever has become of it. While the messages
come from workers that can be put there, every idle worker is free, and every call that has no
answer yet waits in one place with its soft timer armed.
-/

namespace AfyxGraph.Mcp.Query

open AfyxGraph.Core

namespace QueryPool

variable {opts : QueryPoolOptions} {s t : QueryPool} {w : Worker} {job : Job} {event : Event}

/-- A message comes from a live worker that is not idle. While a worker still runs a call its
`ready` finds the call answered and another one waiting, and while it is starting its
`result` finds one waiting. -/
def Expected (s : QueryPool) : Event → Prop
  | .message w (.ready _) => s.destroyed = false → w ∈ s.workers ∧ w ∉ s.idle ∧
      ∀ job, s.inflight.lookup w = some job → s.isSettled job = true ∧ s.HasWaiting
  | .message w (.result _) => s.destroyed = false → w ∈ s.workers ∧ w ∉ s.idle ∧
      (w ∈ s.pendingWorkers → s.HasWaiting)
  | _ => True

/-! ## Handlers -/

theorem regular_init (opts : QueryPoolOptions) : Regular (init opts) := by
  have hempty : Inv {} := by
    constructor <;> simp [settledJobs]
  obtain ⟨new, made, crashes, hnew, hspawn⟩ := grown_spawnOne opts {}
  refine ⟨hempty.grown ⟨new, made, crashes, hnew, hspawn⟩, .inl ?_⟩
  rw [init, hspawn]

theorem Regular.run (h : Regular s) (toolName args : String) (now : Int) :
    Regular (s.run opts toolName args now) := by
  refine (h.1.request toolName args now).drain opts ?_
  rcases h.2 with hidle | hqueue
  · simp [hidle]
  · simp [hqueue]

theorem settle_frame (s : QueryPool) (job : Job) (result : ToolResult) :
    ∃ settlements softTimers, s.settle job result = { s with settlements, softTimers } := by
  unfold settle
  split
  · exact ⟨_, _, rfl⟩
  · exact ⟨_, _, rfl⟩

theorem Drained.settle (h : Drained s) (job : Job) (result : ToolResult) :
    Drained (s.settle job result) := by
  obtain ⟨settlements, softTimers, heq⟩ := s.settle_frame job result
  rw [heq]
  exact h

theorem isSettled_settle_self (s : QueryPool) (job : Job) (result : ToolResult) :
    (s.settle job result).isSettled job = true := by
  unfold settle
  split
  · assumption
  · simp [isSettled, settledJobs]

theorem filter_erase_ne (jobs : List Job) (job : Job) :
    (jobs.erase job).filter (· ≠ job) = jobs.filter (· ≠ job) := by
  rw [← List.erase_filter, List.erase_of_not_mem (by simp)]

/-- Firing takes the timer that the answer would clear. -/
theorem onSoftTimer_of_unsettled (h : s.isSettled job = false) (now : Int) :
    s.onSoftTimer job now = s.settle job (busyGuidance (now - job.enqueuedAt)) := by
  have hother : ({ s with softTimers := s.softTimers.erase job } : QueryPool).isSettled job = false := h
  unfold QueryPool.onSoftTimer QueryPool.settle
  rw [if_neg (ne_true_of_eq_false hother), if_neg (ne_true_of_eq_false h)]
  simp only [filter_erase_ne]

theorem Regular.onSoftTimer (h : Regular s) (job : Job) (now : Int) :
    Regular (s.onSoftTimer job now) := by
  obtain ⟨hinv, hdrained⟩ := h
  cases hsettled : s.isSettled job with
  | true =>
      have hother : ({ s with softTimers := s.softTimers.erase job } : QueryPool).isSettled job =
          true := hsettled
      rw [QueryPool.onSoftTimer, QueryPool.settle, if_pos hother]
      refine ⟨⟨hinv.live, hinv.free, hinv.idleOnce, hinv.busyOnce, hinv.busy, hinv.once, hinv.known,
        hinv.kept, fun other hmem hunsettled => ?_, hinv.fresh, hinv.made, hinv.resolvedOnce⟩,
        hdrained⟩
      have hne : other ≠ job := by
        rintro rfl
        rw [hother] at hunsettled
        cases hunsettled
      exact (List.mem_erase_of_ne hne).mpr (hinv.armed other hmem hunsettled)
  | false =>
      rw [onSoftTimer_of_unsettled hsettled]
      exact ⟨hinv.settle job _, Drained.settle hdrained job _⟩

/-! ### Workers that are gone -/

variable (opts) in
theorem grown_keepCapacity (s : QueryPool) : Grown s (s.keepCapacity opts) := by
  unfold keepCapacity
  split
  · exact grown_spawnOne opts s
  · exact .refl s

theorem Drained.of_grown (h : Drained s) (hgrown : Grown s t) : Drained t := by
  obtain ⟨new, made, crashes, -, rfl⟩ := hgrown
  exact h

variable (opts) in
/-- The job of a lost worker is queued again, or it has its answer. -/
theorem Placed.retry (h : Placed [job] s) (hdrained : Drained s) :
    Regular ((s.retry opts job).drain opts) := by
  unfold QueryPool.retry
  split
  · refine (h.requeue _).drain opts ?_
    rcases hdrained with hidle | hqueue
    · simp [hidle]
    · simp [hqueue]
  · refine ((h.settle job workerCrashed).release fun other hother => ?_).drain opts ?_
    · rw [List.mem_singleton.mp hother]
      exact isSettled_settle_self s job workerCrashed
    · exact (Drained.settle hdrained job workerCrashed).small

theorem Regular.onWorkerGone (h : Regular s) (w : Worker) : Regular (s.onWorkerGone opts w) := by
  obtain ⟨hinv, hdrained⟩ := h
  unfold QueryPool.onWorkerGone
  split
  · have hremoved : Placed (s.inflight.lookup w).toList
        ((s.removeWorker w).deleteInflight w) :=
      (hinv.deleteInflight w).removeWorker (by simp [deleteInflight])
    have hdrained' : Drained ((s.removeWorker w).deleteInflight w) := by
      rcases hdrained with hidle | hqueue
      · left
        simp [QueryPool.removeWorker, deleteInflight, hidle]
      · exact .inr hqueue
    have hgrown := grown_keepCapacity opts ((s.removeWorker w).deleteInflight w)
    have hkept := hremoved.grown hgrown
    have hkept' := hdrained'.of_grown hgrown
    have hlookup : (s.removeWorker w).inflight.lookup w = s.inflight.lookup w := rfl
    dsimp only
    generalize ((s.removeWorker w).deleteInflight w).keepCapacity opts = u at hkept hkept' ⊢
    rw [hlookup]
    cases hjob : s.inflight.lookup w with
    | none =>
        rw [hjob] at hkept
        exact Placed.drain opts hkept hkept'.small
    | some job =>
        rw [hjob] at hkept
        exact Placed.retry opts hkept hkept'
  · exact ⟨hinv, hdrained⟩

/-! ### Messages -/

theorem settle_pushed (s : QueryPool) (idle : List Worker) (job : Job) (result : ToolResult) :
    { s with idle }.settle job result = { s.settle job result with idle } := by
  have hsame : ({ s with idle } : QueryPool).isSettled job = s.isSettled job := rfl
  unfold settle
  rw [hsame]
  split <;> rfl

/-- The state of a `ready` before its worker is put to the idle ones. -/
def heardReady (s : QueryPool) (w : Worker) (ok : Option Bool) : QueryPool :=
  { s with
    pendingWorkers := s.pendingWorkers.filter (· ≠ w)
    totalCrashes := if ok = some false then s.totalCrashes + 1 else s.totalCrashes
    everReady := if ok = some false then s.everReady else true }

theorem onReady_eq (s : QueryPool) (w : Worker) (ok : Option Bool) :
    s.onReady opts w ok =
      { s.heardReady w ok with idle := (s.heardReady w ok).idle ++ [w] }.drain opts := by
  unfold onReady heardReady
  split <;> rfl

theorem Regular.heardReady (h : Regular s) (w : Worker) (ok : Option Bool) :
    Regular (s.heardReady w ok) := by
  obtain ⟨hinv, hdrained⟩ := h
  exact ⟨⟨hinv.live, fun v hv => ⟨fun hmem => (hinv.free v hv).1 (List.mem_of_mem_filter hmem),
    (hinv.free v hv).2⟩, hinv.idleOnce, hinv.busyOnce, hinv.busy, hinv.once, hinv.known, hinv.kept,
    hinv.armed, hinv.fresh, hinv.made, hinv.resolvedOnce⟩, hdrained⟩

/-- The state of a `result` before its worker is put to the idle ones. -/
def heardResult (s : QueryPool) (w : Worker) (result : Option ToolResult) : QueryPool :=
  match s.inflight.lookup w with
  | none => s.deleteInflight w
  | some job => (s.deleteInflight w).settle job (result.getD (busyGuidance 0))

theorem onResult_eq (s : QueryPool) (w : Worker) (result : Option ToolResult) :
    s.onResult opts w result =
      { s.heardResult w result with idle := (s.heardResult w result).idle ++ [w] }.drain opts := by
  unfold onResult heardResult
  cases s.inflight.lookup w with
  | none => rfl
  | some job =>
      dsimp only
      rw [settle_pushed]
      obtain ⟨settlements, softTimers, heq⟩ :=
        (s.deleteInflight w).settle_frame job (result.getD (busyGuidance 0))
      rw [heq]

theorem Regular.heardResult (h : Regular s) (w : Worker) (result : Option ToolResult) :
    Regular (s.heardResult w result) := by
  obtain ⟨hinv, hdrained⟩ := h
  have hheld := hinv.deleteInflight w
  unfold QueryPool.heardResult
  cases hlookup : s.inflight.lookup w with
  | none =>
      rw [hlookup] at hheld
      exact ⟨hheld, hdrained⟩
  | some job =>
      rw [hlookup] at hheld
      refine ⟨(hheld.settle job _).release fun other hother => ?_,
        Drained.settle (s := s.deleteInflight w) hdrained job _⟩
      rw [List.mem_singleton.mp hother]
      exact isSettled_settle_self _ job _

theorem canPush_heardReady {ok : Option Bool} : (s.heardReady w ok).CanPush w ↔
    w ∈ s.workers ∧ w ∉ s.idle ∧
      ∀ job, s.inflight.lookup w = some job → s.isSettled job = true ∧ s.HasWaiting := by
  have hnot : w ∉ (s.heardReady w ok).pendingWorkers := by simp [heardReady]
  constructor
  · rintro ⟨hw, hidle, -, hbusy⟩
    exact ⟨hw, hidle, hbusy⟩
  · rintro ⟨hw, hidle, hbusy⟩
    exact ⟨hw, hidle, fun hmem => absurd hmem hnot, hbusy⟩

/-- The call that a result answers is not queued. -/
theorem hasWaiting_heardResult (h : Inv s) {result : Option ToolResult} :
    (s.heardResult w result).HasWaiting ↔ s.HasWaiting := by
  unfold heardResult
  cases hlookup : s.inflight.lookup w with
  | none => rfl
  | some job =>
      have hflying : job ∈ s.inflight.map Prod.snd := List.mem_map_of_mem (mem_of_lookup hlookup)
      have honce : (s.queue ++ s.inflight.map Prod.snd).Nodup := by simpa using h.once
      have hqueue : ∀ other ∈ s.queue, other ≠ job := fun other hother =>
        (List.nodup_append.mp honce).2.2 other hother job hflying
      have hsame : ∀ other ∈ s.queue,
          ((s.deleteInflight w).settle job (result.getD (busyGuidance 0))).isSettled other =
            s.isSettled other := by
        intro other hother
        have hne := hqueue other hother
        have hdelete : (s.deleteInflight w).isSettled other = s.isSettled other := rfl
        rw [← hdelete]
        unfold settle
        split
        · rfl
        · simp [isSettled, settledJobs, hne]
      obtain ⟨settlements, softTimers, heq⟩ :=
        (s.deleteInflight w).settle_frame job (result.getD (busyGuidance 0))
      have hframe : ((s.deleteInflight w).settle job (result.getD (busyGuidance 0))).queue =
          s.queue := by
        rw [heq]
        rfl
      dsimp only [HasWaiting]
      rw [hframe]
      exact exists_congr fun other => and_congr_right fun hother => by rw [hsame other hother]

theorem heardResult_frame (s : QueryPool) (w : Worker) (result : Option ToolResult) :
    ∃ settlements softTimers, s.heardResult w result =
      { s with inflight := s.inflight.filter (·.1 ≠ w), settlements, softTimers } := by
  unfold heardResult
  cases s.inflight.lookup w with
  | none => exact ⟨_, _, rfl⟩
  | some job => exact (s.deleteInflight w).settle_frame job (result.getD (busyGuidance 0))

theorem canPush_heardResult (h : Inv s) {result : Option ToolResult} :
    (s.heardResult w result).CanPush w ↔
      w ∈ s.workers ∧ w ∉ s.idle ∧ (w ∈ s.pendingWorkers → s.HasWaiting) := by
  obtain ⟨settlements, softTimers, heq⟩ := s.heardResult_frame w result
  have hworkers : (s.heardResult w result).workers = s.workers := by rw [heq]
  have hidle : (s.heardResult w result).idle = s.idle := by rw [heq]
  have hpending : (s.heardResult w result).pendingWorkers = s.pendingWorkers := by rw [heq]
  have hinflight : (s.heardResult w result).inflight = s.inflight.filter (·.1 ≠ w) := by rw [heq]
  have hnone : ∀ job, (s.inflight.filter (·.1 ≠ w)).lookup w ≠ some job := by
    intro job hlookup
    have hmem := mem_of_lookup hlookup
    simp at hmem
  rw [CanPush, hworkers, hidle, hpending, hinflight, hasWaiting_heardResult h]
  constructor
  · rintro ⟨hw, hnot, hstarting, -⟩
    exact ⟨hw, hnot, hstarting⟩
  · rintro ⟨hw, hnot, hstarting⟩
    exact ⟨hw, hnot, hstarting, fun job hlookup => absurd hlookup (hnone job)⟩

/-! ## Runs -/

/-- The books are kept until `destroy`. -/
def Accounted (s : QueryPool) : Prop := s.destroyed = false → Bookkept s

@[simp] theorem settle_destroyed (s : QueryPool) (job : Job) (result : ToolResult) :
    (s.settle job result).destroyed = s.destroyed := by
  obtain ⟨settlements, softTimers, heq⟩ := s.settle_frame job result
  rw [heq]

theorem Grown.destroyed (h : Grown s t) : t.destroyed = s.destroyed := by
  obtain ⟨new, made, crashes, -, rfl⟩ := h
  rfl

theorem dispatchQueued_destroyed (s : QueryPool) (jobs : List Job) :
    (s.dispatchQueued jobs).destroyed = s.destroyed := by
  induction jobs generalizing s with
  | nil => rfl
  | cons job rest ih =>
      rw [dispatchQueued]
      cases s.idle.getLast? with
      | none => rfl
      | some w =>
          dsimp only
          split
          · exact ih s
          · exact ih _

@[simp] theorem drain_destroyed (s : QueryPool) : (s.drain opts).destroyed = s.destroyed :=
  (dispatchQueued_destroyed _ _).trans (grown_grow opts s).destroyed

theorem onMessage_destroyed (s : QueryPool) (w : Worker) (m : WorkerMessage) :
    (s.onMessage opts w m).destroyed = s.destroyed := by
  cases m with
  | ready ok =>
      rw [onMessage, onReady_eq, drain_destroyed]
      rfl
  | result result =>
      rw [onMessage, onResult_eq, drain_destroyed]
      dsimp only [heardResult]
      cases s.inflight.lookup w with
      | none => rfl
      | some job => exact settle_destroyed _ job _
  | other => rfl

theorem onWorkerGone_destroyed (s : QueryPool) (w : Worker) :
    (s.onWorkerGone opts w).destroyed = s.destroyed := by
  unfold onWorkerGone
  split
  · have hkept := (grown_keepCapacity opts ((s.removeWorker w).deleteInflight w)).destroyed
    dsimp only
    rw [drain_destroyed]
    cases (s.removeWorker w).inflight.lookup w with
    | none => exact hkept
    | some job =>
        dsimp only
        unfold retry
        split
        · exact hkept
        · rw [settle_destroyed]
          exact hkept
  · rfl

theorem settleAll_destroyed (s : QueryPool) (jobs : List Job) (result : ToolResult) :
    (jobs.foldl (fun s job => s.settle job result) s).destroyed = s.destroyed := by
  induction jobs generalizing s with
  | nil => rfl
  | cons job jobs ih => rw [List.foldl_cons, ih, settle_destroyed]

theorem destroy_destroyed (s : QueryPool) : s.destroy.destroyed = true := by
  unfold destroy
  split
  · assumption
  · exact settleAll_destroyed _ _ shuttingDown

/-- A pool that is destroyed stays so. -/
theorem step_destroyed (h : step opts s event = some t) (ht : t.destroyed = false) :
    s.destroyed = false := by
  rw [← ht]
  cases event with
  | run toolName args now =>
      cases h
      rw [QueryPool.run, drain_destroyed]
  | message w m =>
      simp only [step, Option.ite_none_right_eq_some, Option.some.injEq] at h
      obtain ⟨-, rfl⟩ := h
      exact (onMessage_destroyed s w m).symm
  | error w =>
      simp only [step, Option.ite_none_right_eq_some, Option.some.injEq] at h
      obtain ⟨-, rfl⟩ := h
      exact (onWorkerGone_destroyed s w).symm
  | exit w code =>
      simp only [step, Option.ite_none_right_eq_some, Option.some.injEq] at h
      obtain ⟨-, rfl⟩ := h
      split
      · exact (onWorkerGone_destroyed s w).symm
      · rfl
  | softTimer job now =>
      simp only [step, Option.ite_none_right_eq_some, Option.some.injEq] at h
      obtain ⟨-, rfl⟩ := h
      rw [QueryPool.onSoftTimer, settle_destroyed]
  | destroy =>
      cases h
      rw [destroy_destroyed] at ht
      cases ht

/-- One event keeps the invariant exactly when it is expected. -/
theorem Regular.step (h : Regular s) (hlive : t.destroyed = false)
    (ht : QueryPool.step opts s event = some t) :
    (Bookkept t ↔ s.Expected event) ∧ (s.Expected event → Regular t) := by
  have hlive' := step_destroyed ht hlive
  have hkeeps : ∀ {u : QueryPool}, Regular u → (Bookkept u ↔ True) ∧ (True → Regular u) :=
    fun hu => ⟨iff_true_intro hu.1.bookkept, fun _ => hu⟩
  cases event with
  | run toolName args now =>
      cases ht
      exact hkeeps (h.run toolName args now)
  | message w m =>
      simp only [QueryPool.step, Option.ite_none_right_eq_some, Option.some.injEq] at ht
      obtain ⟨hmade, rfl⟩ := ht
      simp only [constructed, Bool.and_eq_true, decide_eq_true_eq] at hmade
      cases m with
      | ready ok =>
          have hexpected : s.Expected (.message w (.ready ok)) ↔ (s.heardReady w ok).CanPush w := by
            rw [canPush_heardReady]
            exact ⟨fun hs => hs hlive', fun hs _ => hs⟩
          rw [hexpected, onMessage, onReady_eq]
          exact ⟨bookkept_push_iff opts (h.heardReady w ok) hmade.1,
            (h.heardReady w ok).push opts⟩
      | result result =>
          have hexpected : s.Expected (.message w (.result result)) ↔
              (s.heardResult w result).CanPush w := by
            rw [canPush_heardResult h.1]
            exact ⟨fun hs => hs hlive', fun hs _ => hs⟩
          have hsame : (s.heardResult w result).constructions = s.constructions := by
            obtain ⟨settlements, softTimers, heq⟩ := s.heardResult_frame w result
            rw [heq]
          rw [hexpected, onMessage, onResult_eq]
          exact ⟨bookkept_push_iff opts (h.heardResult w result) (hsame ▸ hmade.1),
            (h.heardResult w result).push opts⟩
      | other => exact hkeeps h
  | error w =>
      simp only [QueryPool.step, Option.ite_none_right_eq_some, Option.some.injEq] at ht
      obtain ⟨-, rfl⟩ := ht
      exact hkeeps (h.onWorkerGone w)
  | exit w code =>
      simp only [QueryPool.step, Option.ite_none_right_eq_some, Option.some.injEq] at ht
      obtain ⟨-, rfl⟩ := ht
      split
      · exact hkeeps (h.onWorkerGone w)
      · exact hkeeps h
  | softTimer job now =>
      simp only [QueryPool.step, Option.ite_none_right_eq_some, Option.some.injEq] at ht
      obtain ⟨-, rfl⟩ := ht
      exact hkeeps (h.onSoftTimer job now)
  | destroy =>
      cases ht
      rw [destroy_destroyed] at hlive
      cases hlive

theorem expected_of_destroyed (ht : QueryPool.step opts s event = some t)
    (hdestroyed : t.destroyed = true) : s.Expected event := by
  cases event with
  | message w m =>
      simp only [QueryPool.step, Option.ite_none_right_eq_some, Option.some.injEq] at ht
      obtain ⟨-, rfl⟩ := ht
      rw [onMessage_destroyed] at hdestroyed
      cases m with
      | ready ok => exact fun hlive => by simp [hdestroyed] at hlive
      | result result => exact fun hlive => by simp [hdestroyed] at hlive
      | other => trivial
  | run | error | exit | softTimer | destroy => trivial

/-- Along a run the books are kept exactly as long as every message is one of a worker that
can be put to the idle ones. -/
theorem accounted_iff_expected (opts : QueryPoolOptions) (events : List Event) :
    (step opts).Always Accounted (init opts) events ↔
      (step opts).Guarded Expected (init opts) events := by
  have hinit := regular_init opts
  refine @Machine.always_iff_guarded _ _ _ (fun s => Accounted s → s.destroyed = false → Regular s)
    _ _ ?_ ?_ _ (fun _ _ => hinit) (fun _ => hinit.1.bookkept) events
  · intro s event t hs haccounted ht hkept hlive
    have hregular := hs haccounted (step_destroyed ht hlive)
    obtain ⟨hiff, hkeeps⟩ := hregular.step hlive ht
    exact hkeeps (hiff.mp (hkept hlive))
  · intro s event t hs haccounted ht
    cases hlive : t.destroyed with
    | false =>
        have hregular := hs haccounted (step_destroyed ht hlive)
        rw [← (hregular.step hlive ht).1]
        exact ⟨fun hkept => hkept hlive, fun hkept _ => hkept⟩
    | true =>
        refine ⟨fun _ => expected_of_destroyed ht hlive, fun _ hkept => ?_⟩
        rw [hlive] at hkept
        cases hkept

def oneWorker : QueryPoolOptions where
  size := 1
  createWorker _ := true

/-- The eager worker has opened the project and ends; its `ready` comes after its end. -/
def readyAfterError : List Event := [.error 0, .message 0 (.ready (some true))]

theorem not_accounted_readyAfterError :
    ¬ (step oneWorker).Always Accounted (init oneWorker) readyAfterError := by
  intro h
  have hready : (step oneWorker).Always Accounted _ [] := (h.2 _ rfl).2 _ rfl
  have hbooks : Bookkept _ := hready.head rfl
  exact absurd (hbooks.idle 0 (by decide)).1 (by decide)

end QueryPool

end AfyxGraph.Mcp.Query
