import AfyxGraph.Mcp.QueryPool

/-! # Places of workers and jobs in the query pool

Every idle worker is live and free, and every job without an answer is queued, in flight, or
held by the handler that moves it. `drain` dispatches at most one job, because no job is
queued beside an idle worker between two events.
-/

namespace AfyxGraph.Mcp.Query

open AfyxGraph.Core

namespace QueryPool

variable {opts : QueryPoolOptions} {s t : QueryPool} {w : Worker} {job : Job} {held : List Job}
  {result : ToolResult}

/-- The job is queued once, or in flight on exactly one worker, which is live. -/
def WaitsOnce (s : QueryPool) (job : Job) : Prop :=
  (s.queue.count job = 1 ∧ job ∉ s.inflight.map Prod.snd) ∨
    (job ∉ s.queue ∧ ∃ w ∈ s.workers, ∀ v, (v, job) ∈ s.inflight ↔ v = w)

/-- The books of the pool. -/
structure Bookkept (s : QueryPool) : Prop where
  idle : ∀ w ∈ s.idle, w ∈ s.workers ∧ w ∉ s.pendingWorkers ∧ w ∉ s.inflight.map Prod.fst
  idleOnce : s.idle.Nodup
  unsettled : ∀ job ∈ s.requested, s.isSettled job = false →
    s.WaitsOnce job ∧ job ∈ s.softTimers
  resolvedOnce : s.settledJobs.Nodup

/-- A queued job that has no answer. -/
def HasWaiting (s : QueryPool) : Prop := ∃ job ∈ s.queue, s.isSettled job = false

/-- No job is queued beside an idle worker. -/
def Drained (s : QueryPool) : Prop := s.idle = [] ∨ s.queue = []

/-- `held` are the jobs that a handler is just moving from one place to another. -/
structure Placed (held : List Job) (s : QueryPool) : Prop where
  live : ∀ w ∈ s.idle, w ∈ s.workers
  free : ∀ w ∈ s.idle, w ∉ s.pendingWorkers ∧ w ∉ s.inflight.map Prod.fst
  idleOnce : s.idle.Nodup
  busyOnce : (s.inflight.map Prod.fst).Nodup
  busy : ∀ w ∈ s.inflight.map Prod.fst, w ∈ s.workers
  once : (s.queue ++ s.inflight.map Prod.snd ++ held).Nodup
  known : ∀ job ∈ s.queue ++ s.inflight.map Prod.snd ++ held, job ∈ s.requested
  kept : ∀ job ∈ s.requested, s.isSettled job = false →
    job ∈ s.queue ++ s.inflight.map Prod.snd ++ held
  armed : ∀ job ∈ s.requested, s.isSettled job = false → job ∈ s.softTimers
  fresh : ∀ job ∈ s.requested, job.id < s.nextId
  made : ∀ w ∈ s.workers, w < s.constructions
  resolvedOnce : s.settledJobs.Nodup

abbrev Inv (s : QueryPool) : Prop := Placed [] s

/-! ## What the places say -/

theorem isSettled_iff : s.isSettled job = true ↔ job ∈ s.settledJobs := by
  simp [isSettled]

theorem Placed.bookkept (h : Inv s) : Bookkept s where
  idle w hw := ⟨h.live w hw, h.free w hw⟩
  idleOnce := h.idleOnce
  unsettled job hjob hsettled := by
    refine ⟨?_, h.armed job hjob hsettled⟩
    have honce : (s.queue ++ s.inflight.map Prod.snd).Nodup := by simpa using h.once
    obtain ⟨hqueue, hflight, hdisjoint⟩ := List.nodup_append.mp honce
    have hplace := h.kept job hjob hsettled
    rw [List.append_nil] at hplace
    rcases List.mem_append.mp hplace with hqueued | hflying
    · exact .inl ⟨List.count_eq_one_of_mem hqueue hqueued,
        fun hflying => hdisjoint job hqueued job hflying rfl⟩
    · obtain ⟨⟨w, job'⟩, hmem, heq⟩ := List.mem_map.mp hflying
      obtain rfl : job' = job := heq
      refine .inr ⟨fun hqueued => hdisjoint job' hqueued job' hflying rfl, w,
        h.busy w (List.mem_map_of_mem hmem), fun v => ⟨fun hv => ?_, fun hv => hv ▸ hmem⟩⟩
      exact congrArg Prod.fst (List.inj_on_of_nodup_map hflight hv hmem rfl)
  resolvedOnce := h.resolvedOnce

/-! ## `drain` -/

/-- Only starting workers are added, and crashes counted. -/
def Grown (s t : QueryPool) : Prop :=
  ∃ new made crashes, (∀ w ∈ new, s.constructions ≤ w ∧ w < s.constructions + made) ∧
    t = { s with
      workers := s.workers ++ new
      pendingWorkers := s.pendingWorkers ++ new
      constructions := s.constructions + made
      totalCrashes := crashes }

theorem Grown.refl (s : QueryPool) : Grown s s := ⟨[], 0, s.totalCrashes, nofun, by simp⟩

theorem Grown.trans {u : QueryPool} (h₁ : Grown s t) (h₂ : Grown t u) : Grown s u := by
  obtain ⟨new, made, crashes, hnew, rfl⟩ := h₁
  obtain ⟨more, made', crashes', hmore, rfl⟩ := h₂
  refine ⟨new ++ more, made + made', crashes', fun w hw => ?_, ?_⟩
  · rcases List.mem_append.mp hw with hw | hw
    · obtain ⟨hle, hlt⟩ := hnew w hw
      omega
    · obtain ⟨hle, hlt⟩ := hmore w hw
      dsimp only at hle hlt
      omega
  · simp only [List.append_assoc, Nat.add_assoc]

variable (opts) in
theorem grown_spawnOne (s : QueryPool) : Grown s (s.spawnOne opts) := by
  unfold spawnOne
  split
  · exact .refl s
  · dsimp only
    split
    · refine ⟨[s.constructions], 1, s.totalCrashes, fun w hw => ?_, rfl⟩
      obtain rfl := List.mem_singleton.mp hw
      omega
    · exact ⟨[], 1, s.totalCrashes + 1, nofun, by simp⟩

variable (opts) in
theorem grown_grow (s : QueryPool) : Grown s (s.grow opts) := by
  refine @loop_invariant _ _ (Grown s) (fun t u ht hturn => ?_) _ s (.refl s)
  simp only [growTurn, Option.ite_none_right_eq_some, Option.some.injEq] at hturn
  obtain ⟨-, rfl⟩ := hturn
  exact ht.trans (grown_spawnOne opts t)

/-- The loop of `drain` has ended by itself. -/
theorem grow_stops (s : QueryPool) : (s.grow opts).growTurn opts = none := by
  apply @loop_stops _ _ (fun _ => True)
    (fun s => (MAX_CONCURRENT_SPAWN - s.pendingWorkers.length) + (CRASH_BUDGET - s.totalCrashes))
    (fun _ _ _ _ => trivial) _ _ _ trivial (by omega)
  intro s t _ hturn
  simp only [growTurn, Option.ite_none_right_eq_some, Option.some.injEq] at hturn
  obtain ⟨hgrows, rfl⟩ := hturn
  simp only [grows, healthy, Bool.and_eq_true, decide_eq_true_eq, Bool.not_eq_eq_eq_not,
    Bool.not_true, gt_iff_lt] at hgrows
  obtain ⟨⟨⟨hqueued, hroom⟩, hslot⟩, hlive, hcrashes⟩ := hgrows
  have hspawns : ¬ (s.destroyed || s.workers.length ≥ opts.maxSize) = true := by
    simp only [hlive, Bool.false_or, ge_iff_le, decide_eq_true_eq]
    omega
  rw [spawnOne, if_neg hspawns]
  dsimp only
  split
  · simp only [List.length_append, List.length_cons, List.length_nil]
    omega
  · dsimp only
    omega

/-- What a state dispatches when it has one idle worker or one job. -/
inductive Dispatches (s : QueryPool) : QueryPool → Prop where
  | nothing (hidle : s.idle = []) : Dispatches s s
  | skips (hidle : s.idle ≠ []) (hsettled : ∀ job ∈ s.queue, s.isSettled job = true) :
      Dispatches s { s with queue := [] }
  | sends (ws : List Worker) (w : Worker) (skipped : List Job) (job : Job) (rest : List Job)
      (hidle : s.idle = ws ++ [w]) (hqueue : s.queue = skipped ++ job :: rest)
      (hskipped : ∀ job ∈ skipped, s.isSettled job = true) (hjob : s.isSettled job = false)
      (hdrained : ws = [] ∨ rest = []) :
      Dispatches s
        { s with idle := ws, queue := rest, inflight := setEntry s.inflight w job }

theorem dispatchQueued_of_drained (s : QueryPool) (rest : List Job)
    (h : s.idle = [] ∨ rest = []) : s.dispatchQueued rest = { s with queue := rest } := by
  cases rest with
  | nil => rfl
  | cons job rest =>
      rcases h with h | h
      · simp [dispatchQueued, h]
      · cases h

theorem dispatches (s : QueryPool) (h : s.idle.length ≤ 1 ∨ s.queue.length ≤ 1) :
    Dispatches s (s.dispatchQueued s.queue) := by
  rcases List.eq_nil_or_concat s.idle with hidle | ⟨ws, w, hidle⟩
  · rw [dispatchQueued_of_drained s s.queue (.inl hidle)]
    exact .nothing hidle
  · rw [List.concat_eq_append] at hidle
    have hne : s.idle ≠ [] := by simp [hidle]
    -- the queue is read up to its first job without an answer
    have hread : ∀ skipped rest, s.queue = skipped ++ rest →
        (∀ job ∈ skipped, s.isSettled job = true) → Dispatches s (s.dispatchQueued rest) := by
      intro skipped rest
      induction rest generalizing skipped with
      | nil =>
          intro hqueue hskipped
          rw [List.append_nil] at hqueue
          exact .skips hne (hqueue ▸ hskipped)
      | cons job rest ih =>
          intro hqueue hskipped
          have hlast : s.idle.getLast? = some w := by simp [hidle]
          simp only [dispatchQueued, hlast]
          cases hjob : s.isSettled job with
          | true =>
              refine ih (skipped ++ [job]) (by simpa using hqueue) fun other hother => ?_
              rcases List.mem_append.mp hother with hother | hother
              · exact hskipped other hother
              · rw [List.mem_singleton.mp hother, hjob]
          | false =>
              have hdrained : ws = [] ∨ rest = [] := by
                rcases h with h | h
                · left
                  simpa [hidle] using h
                · right
                  rw [hqueue] at h
                  simp only [List.length_append, List.length_cons] at h
                  exact List.length_eq_zero_iff.mp (by omega)
              have hws : s.idle.dropLast = ws := by simp [hidle]
              simp only [hws, Bool.false_eq_true, if_false]
              rw [dispatchQueued_of_drained _ rest hdrained]
              exact .sends ws w skipped job rest hidle hqueue hskipped hjob hdrained
    exact hread [] s.queue rfl nofun

/-! ## Single moves -/

namespace Placed

theorem grown (h : Placed held s) (hgrown : Grown s t) : Placed held t := by
  obtain ⟨new, made, crashes, hnew, rfl⟩ := hgrown
  refine ⟨fun w hw => List.mem_append_left _ (h.live w hw), fun w hw => ⟨fun hp => ?_, (h.free w hw).2⟩,
    h.idleOnce, h.busyOnce, fun w hw => List.mem_append_left _ (h.busy w hw), h.once, h.known,
    h.kept, h.armed, h.fresh, fun w hw => ?_, h.resolvedOnce⟩
  · rcases List.mem_append.mp hp with hp | hp
    · exact (h.free w hw).1 hp
    · exact absurd (hnew w hp).1 (Nat.not_le.mpr (h.made w (h.live w hw)))
  · dsimp only
    rcases List.mem_append.mp hw with hw | hw
    · exact Nat.lt_of_lt_of_le (h.made w hw) (Nat.le_add_right _ _)
    · exact (hnew w hw).2

/-- Queued jobs that are all settled are dropped. -/
theorem skips (h : Inv s) (hsettled : ∀ job ∈ s.queue, s.isSettled job = true) :
    Inv { s with queue := [] } := by
  refine ⟨h.live, h.free, h.idleOnce, h.busyOnce, h.busy, ?_, fun job hjob => ?_,
    fun job hjob hunsettled => ?_, h.armed, h.fresh, h.made, h.resolvedOnce⟩
  · exact h.once.sublist (by simp)
  · refine h.known job ?_
    simp only [List.nil_append, List.append_nil] at hjob
    simp [hjob]
  · rcases List.mem_append.mp (h.kept job hjob hunsettled) with hplace | hplace
    · rcases List.mem_append.mp hplace with hqueued | hflying
      · have hcontra := hsettled job hqueued
        exact absurd hunsettled (by simp [isSettled] at hcontra ⊢; exact hcontra)
      · simpa using hflying
    · cases hplace

/-- A worker that is no longer idle takes a job, and what it still runs is settled. -/
theorem sends {ws : List Worker} {skipped rest : List Job} (h : Inv { s with idle := ws })
    (hw : w ∈ s.workers) (hws : w ∉ ws)
    (hbusy : ∀ job, s.inflight.lookup w = some job → s.isSettled job = true)
    (hqueue : s.queue = skipped ++ job :: rest)
    (hskipped : ∀ job ∈ skipped, s.isSettled job = true) :
    Inv { s with idle := ws, queue := rest, inflight := setEntry s.inflight w job } := by
  have hset := perm_setEntry h.busyOnce w job
  have hjobs := hset.map Prod.snd
  have hworkers := hset.map Prod.fst
  have hothers : ∀ entry ∈ s.inflight.filter (·.1 ≠ w), entry ∈ s.inflight ∧ entry.1 ≠ w := by
    intro entry hentry
    simpa using List.mem_filter.mp hentry
  have honce : (s.queue ++ s.inflight.map Prod.snd).Nodup := by simpa using h.once
  refine ⟨h.live, fun v hv => ⟨(h.free v hv).1, fun hmem => ?_⟩, h.idleOnce,
    nodup_keys_setEntry h.busyOnce w job, fun v hv => ?_, ?_, fun other hother => ?_,
    fun other hother hunsettled => ?_, h.armed, h.fresh, h.made, h.resolvedOnce⟩
  · rcases (mem_keys_setEntry s.inflight w v job).mp hmem with rfl | hmem
    · exact hws hv
    · exact (h.free v hv).2 hmem
  · rcases (mem_keys_setEntry s.inflight w v job).mp hv with rfl | hv
    · exact hw
    · exact h.busy v hv
  · have hperm : (rest ++ (setEntry s.inflight w job).map Prod.snd).Perm
        (job :: rest ++ (s.inflight.filter (·.1 ≠ w)).map Prod.snd) := by
      refine ((hjobs.append_left rest)).trans ?_
      rw [List.map_cons]
      exact List.perm_middle
    rw [List.append_nil]
    refine hperm.nodup_iff.mpr (honce.sublist ?_)
    rw [hqueue]
    refine List.Sublist.append (List.sublist_append_right _ _) ?_
    exact (List.filter_sublist).map Prod.snd
  · rw [List.append_nil] at hother
    refine h.known other ?_
    dsimp only
    rw [hqueue]
    rcases List.mem_append.mp hother with hrest | hflying
    · simp [hrest]
    · rcases List.mem_cons.mp (hjobs.subset hflying) with rfl | hmem
      · simp
      · obtain ⟨entry, hentry, rfl⟩ := List.mem_map.mp hmem
        have hold := List.mem_map_of_mem (f := Prod.snd) (hothers entry hentry).1
        simp only [List.append_nil, List.mem_append]
        exact .inr hold
  · have hplace := h.kept other hother hunsettled
    simp only [List.append_nil] at hplace ⊢
    rcases List.mem_append.mp hplace with hqueued | hflying
    · rw [show s.queue = skipped ++ job :: rest from hqueue] at hqueued
      rcases List.mem_append.mp hqueued with hskip | hqueued
      · have hcontra : s.isSettled other = true := hskipped other hskip
        rw [show s.isSettled other = false from hunsettled] at hcontra
        cases hcontra
      · rcases List.mem_cons.mp hqueued with rfl | hrest
        · exact List.mem_append_right _ (hjobs.mem_iff.mpr (List.mem_cons_self ..))
        · exact List.mem_append_left _ hrest
    · obtain ⟨⟨v, other'⟩, hmem, heq⟩ := List.mem_map.mp hflying
      obtain rfl : other' = other := heq
      by_cases hv : v = w
      · subst hv
        have hcontra := hbusy other' (lookup_of_mem h.busyOnce hmem)
        rw [show s.isSettled other' = false from hunsettled] at hcontra
        cases hcontra
      · refine List.mem_append_right _ (hjobs.mem_iff.mpr (List.mem_cons_of_mem _ ?_))
        have hstays : (v, other') ∈ s.inflight.filter (·.1 ≠ w) := by
          simpa using ⟨hmem, hv⟩
        exact List.mem_map_of_mem (f := Prod.snd) hstays

/-- An idle worker is free. -/
theorem pushIdle (h : Placed held s) (hw : w ∈ s.workers) (hidle : w ∉ s.idle)
    (hpending : w ∉ s.pendingWorkers) (hbusy : w ∉ s.inflight.map Prod.fst) :
    Placed held { s with idle := s.idle ++ [w] } := by
  refine ⟨fun v hv => ?_, fun v hv => ?_, ?_, h.busyOnce, h.busy, h.once, h.known, h.kept,
    h.armed, h.fresh, h.made, h.resolvedOnce⟩
  · rcases List.mem_append.mp hv with hv | hv
    · exact h.live v hv
    · exact List.mem_singleton.mp hv ▸ hw
  · rcases List.mem_append.mp hv with hv | hv
    · exact h.free v hv
    · obtain rfl := List.mem_singleton.mp hv
      exact ⟨hpending, hbusy⟩
  · refine List.nodup_append.mpr ⟨h.idleOnce, List.nodup_singleton _, ?_⟩
    rintro v hv _ hv' rfl
    exact hidle (List.mem_singleton.mp hv' ▸ hv)

theorem settle (h : Placed held s) (job : Job) (result : ToolResult) :
    Placed held (s.settle job result) := by
  unfold QueryPool.settle
  split
  · exact h
  · rename_i hjob
    have hother : ∀ other, ({ s with
        settlements := s.settlements ++ [⟨job, result⟩]
        softTimers := s.softTimers.filter (· ≠ job) } : QueryPool).isSettled other = false →
          s.isSettled other = false ∧ other ≠ job := by
      intro other hother
      simpa [isSettled, settledJobs, not_or] using hother
    refine ⟨h.live, h.free, h.idleOnce, h.busyOnce, h.busy, h.once, h.known,
      fun other hmem hunsettled => h.kept other hmem (hother other hunsettled).1,
      fun other hmem hunsettled => ?_, h.fresh, h.made, ?_⟩
    · obtain ⟨hbefore, hne⟩ := hother other hunsettled
      exact List.mem_filter.mpr ⟨h.armed other hmem hbefore, by simpa using hne⟩
    · rw [isSettled_iff] at hjob
      simp only [settledJobs, List.map_append, List.map_cons, List.map_nil]
      refine List.nodup_append.mpr ⟨h.resolvedOnce, List.nodup_singleton _, ?_⟩
      rintro other hmem _ hnew rfl
      exact hjob (List.mem_singleton.mp hnew ▸ hmem)

/-- The call in flight on the worker is held. -/
theorem deleteInflight (h : Inv s) (w : Worker) :
    Placed (s.inflight.lookup w).toList (s.deleteInflight w) := by
  have hsub : ∀ v ∈ (s.inflight.filter (·.1 ≠ w)).map Prod.fst, v ∈ s.inflight.map Prod.fst :=
    fun v hv => (List.filter_sublist.map Prod.fst).subset hv
  have hperm : ((s.inflight.filter (·.1 ≠ w)).map Prod.snd ++
      (s.inflight.lookup w).toList).Perm (s.inflight.map Prod.snd) := by
    cases hlookup : s.inflight.lookup w with
    | none =>
        rw [filter_ne_of_not_mem Prod.fst (not_mem_keys_of_lookup hlookup)]
        simp
    | some job =>
        have hsplit := (perm_of_lookup h.busyOnce hlookup).map Prod.snd
        exact (List.perm_append_singleton _ _).trans hsplit.symm
  have hplaces : (s.queue ++ (s.inflight.filter (·.1 ≠ w)).map Prod.snd ++
      (s.inflight.lookup w).toList).Perm (s.queue ++ s.inflight.map Prod.snd ++ []) := by
    rw [List.append_assoc, List.append_nil]
    exact hperm.append_left _
  exact ⟨h.live, fun v hv => ⟨(h.free v hv).1, fun hmem => (h.free v hv).2 (hsub v hmem)⟩, h.idleOnce,
    h.busyOnce.sublist (List.filter_sublist.map Prod.fst), fun v hv => h.busy v (hsub v hv),
    hplaces.nodup_iff.mpr h.once, fun job hjob => h.known job (hplaces.subset hjob),
    fun job hjob hunsettled => hplaces.symm.subset (h.kept job hjob hunsettled), h.armed, h.fresh,
    h.made, h.resolvedOnce⟩

/-- A job that is settled needs no place. -/
theorem release (h : Placed held s) (hsettled : ∀ job ∈ held, s.isSettled job = true) :
    Inv s := by
  refine ⟨h.live, h.free, h.idleOnce, h.busyOnce, h.busy, ?_, fun job hjob => ?_,
    fun job hjob hunsettled => ?_, h.armed, h.fresh, h.made, h.resolvedOnce⟩
  · rw [List.append_nil]
    exact (List.nodup_append.mp h.once).1
  · rw [List.append_nil] at hjob
    exact h.known job (List.mem_append_left _ hjob)
  · rw [List.append_nil]
    rcases List.mem_append.mp (h.kept job hjob hunsettled) with hplace | hheld
    · exact hplace
    · rw [hsettled job hheld] at hunsettled
      cases hunsettled

theorem requeue (h : Placed [job] s) (retried : List Job) :
    Inv { s with retried := retried, queue := job :: s.queue } := by
  have hperm : (job :: s.queue ++ s.inflight.map Prod.snd ++ []).Perm
      (s.queue ++ s.inflight.map Prod.snd ++ [job]) := by
    rw [List.append_nil]
    exact (List.perm_append_singleton _ _).symm
  exact ⟨h.live, h.free, h.idleOnce, h.busyOnce, h.busy, hperm.nodup_iff.mpr h.once,
    fun other hother => h.known other (hperm.subset hother),
    fun other hother hunsettled => hperm.symm.subset (h.kept other hother hunsettled), h.armed,
    h.fresh, h.made, h.resolvedOnce⟩

theorem request (h : Inv s) (toolName args : String) (now : Int) :
    Inv { s with
      nextId := s.nextId + 1
      requested := s.requested ++ [⟨s.nextId, toolName, args, now⟩]
      softTimers := s.softTimers ++ [⟨s.nextId, toolName, args, now⟩]
      queue := s.queue ++ [⟨s.nextId, toolName, args, now⟩] } := by
  have hnew : (⟨s.nextId, toolName, args, now⟩ : Job) ∉ s.requested :=
    fun hmem => Nat.lt_irrefl _ (h.fresh _ hmem)
  have hperm : (s.queue ++ [(⟨s.nextId, toolName, args, now⟩ : Job)] ++
      s.inflight.map Prod.snd ++ []).Perm
        (⟨s.nextId, toolName, args, now⟩ :: (s.queue ++ s.inflight.map Prod.snd ++ [])) := by
    simp only [List.append_nil, List.append_assoc, List.singleton_append]
    exact List.perm_middle
  refine ⟨h.live, h.free, h.idleOnce, h.busyOnce, h.busy, ?_, fun job hjob => ?_,
    fun job hjob hunsettled => ?_, fun job hjob hunsettled => ?_, fun job hjob => ?_, h.made,
    h.resolvedOnce⟩
  · refine hperm.nodup_iff.mpr (List.nodup_cons.mpr ⟨fun hmem => hnew (h.known _ hmem), h.once⟩)
  · rcases List.mem_cons.mp (hperm.subset hjob) with heq | hmem
    · simp [heq]
    · exact List.mem_append_left _ (h.known job hmem)
  · refine hperm.symm.subset ?_
    rcases List.mem_append.mp hjob with hold | hjob
    · exact List.mem_cons_of_mem _ (h.kept job hold hunsettled)
    · rw [List.mem_singleton.mp hjob]
      exact List.mem_cons_self ..
  · rcases List.mem_append.mp hjob with hold | hjob
    · exact List.mem_append_left _ (h.armed job hold hunsettled)
    · exact List.mem_append_right _ hjob
  · dsimp only
    rcases List.mem_append.mp hjob with hold | hjob
    · exact Nat.lt_succ_of_lt (h.fresh job hold)
    · rw [List.mem_singleton.mp hjob]
      exact Nat.lt_succ_self _

/-- A worker that runs no call leaves the pool. -/
theorem removeWorker (h : Placed held s) (hfree : w ∉ s.inflight.map Prod.fst) :
    Placed held (s.removeWorker w) := by
  refine ⟨fun v hv => ?_, fun v hv => ?_, h.idleOnce.filter _, h.busyOnce, fun v hv => ?_,
    h.once, h.known, h.kept, h.armed, h.fresh,
    fun v hv => h.made v (List.mem_of_mem_filter hv), h.resolvedOnce⟩
  · obtain ⟨hmem, hne⟩ := List.mem_filter.mp hv
    exact List.mem_filter.mpr ⟨h.live v hmem, hne⟩
  · have hold := h.free v (List.mem_of_mem_filter hv)
    exact ⟨fun hmem => hold.1 (List.mem_of_mem_filter hmem), hold.2⟩
  · have hne : v ≠ w := fun heq => hfree (heq ▸ hv)
    exact List.mem_filter.mpr ⟨h.busy v hv, by simpa using hne⟩

end Placed

/-! ## Handlers -/

variable (opts) in
/-- What `drain` does when there is one idle worker or one job. -/
theorem drain_dispatches (s : QueryPool) (h : s.idle.length ≤ 1 ∨ s.queue.length ≤ 1) :
    ∃ g, Grown s g ∧ Dispatches g (s.drain opts) := by
  obtain ⟨new, made, crashes, hnew, hgrow⟩ := grown_grow opts s
  refine ⟨s.grow opts, ⟨new, made, crashes, hnew, hgrow⟩, ?_⟩
  apply dispatches
  rw [hgrow]
  exact h

theorem Drained.small (h : Drained s) : s.idle.length ≤ 1 ∨ s.queue.length ≤ 1 := by
  rcases h with h | h
  · simp [h]
  · simp [h]

/-- The invariant of the states between two events. -/
def Regular (s : QueryPool) : Prop := Inv s ∧ Drained s

variable (opts) in
theorem Placed.drain (h : Inv s) (hsmall : s.idle.length ≤ 1 ∨ s.queue.length ≤ 1) :
    Regular (s.drain opts) := by
  obtain ⟨g, hgrown, hdispatches⟩ := drain_dispatches opts s hsmall
  have hg : Inv g := h.grown hgrown
  generalize s.drain opts = t at hdispatches ⊢
  cases hdispatches with
  | nothing hidle => exact ⟨hg, .inl hidle⟩
  | skips hidle hsettled => exact ⟨hg.skips hsettled, .inr rfl⟩
  | sends ws w skipped job rest hidle hqueue hskipped hjob hdrained =>
      have hmem : w ∈ g.idle := by simp [hidle]
      have hnodup : (ws ++ [w]).Nodup := hidle ▸ hg.idleOnce
      have hws : w ∉ ws := fun hw =>
        (List.nodup_append.mp hnodup).2.2 w hw w (List.mem_singleton_self w) rfl
      have hsub : ∀ v ∈ ws, v ∈ g.idle := fun v hv => by simp [hidle, hv]
      have hrest : Inv { g with idle := ws } :=
        ⟨fun v hv => hg.live v (hsub v hv), fun v hv => hg.free v (hsub v hv),
          (List.nodup_append.mp hnodup).1, hg.busyOnce, hg.busy, hg.once, hg.known, hg.kept,
          hg.armed, hg.fresh, hg.made, hg.resolvedOnce⟩
      refine ⟨hrest.sends (hg.live w hmem) hws (fun job hlookup => ?_) hqueue hskipped, hdrained⟩
      exact absurd (List.mem_map_of_mem (mem_of_lookup hlookup)) (hg.free w hmem).2

/-- When a worker can be put to the idle ones: it is live and not there yet, and what it is
still counted for does not matter because it gets a job at once. -/
def CanPush (s : QueryPool) (w : Worker) : Prop :=
  w ∈ s.workers ∧ w ∉ s.idle ∧
    (w ∈ s.pendingWorkers → s.HasWaiting) ∧
      ∀ job, s.inflight.lookup w = some job → s.isSettled job = true ∧ s.HasWaiting

variable (opts) in
/-- A worker that is put to the idle ones stays there, or takes the first job that has no
answer. -/
theorem drain_push (h : Drained s) (w : Worker) : ∃ g, Grown s g ∧
    ((¬ s.HasWaiting ∧ (∀ job ∈ s.queue, s.isSettled job = true) ∧
      { s with idle := s.idle ++ [w] }.drain opts = { g with idle := g.idle ++ [w], queue := [] }) ∨
    (s.HasWaiting ∧ s.idle = [] ∧ ∃ skipped job rest, s.queue = skipped ++ job :: rest ∧
      (∀ job ∈ skipped, s.isSettled job = true) ∧ s.isSettled job = false ∧
      { s with idle := s.idle ++ [w] }.drain opts =
        { g with idle := [], queue := rest, inflight := setEntry s.inflight w job })) := by
  have hsmall : (s.idle ++ [w]).length ≤ 1 ∨ s.queue.length ≤ 1 := by
    rcases h with h | h
    · simp [h]
    · simp [h]
  obtain ⟨g, ⟨new, made, crashes, hnew, rfl⟩, hdispatches⟩ :=
    drain_dispatches opts { s with idle := s.idle ++ [w] } hsmall
  refine ⟨_, ⟨new, made, crashes, hnew, rfl⟩, ?_⟩
  generalize { s with idle := s.idle ++ [w] }.drain opts = t at hdispatches ⊢
  cases hdispatches with
  | nothing hnone => simp at hnone
  | skips _ hsettled =>
      refine .inl ⟨?_, hsettled, rfl⟩
      rintro ⟨job, hjob, hunsettled⟩
      have hcontra : s.isSettled job = true := hsettled job hjob
      rw [hunsettled] at hcontra
      cases hcontra
  | sends ws v skipped job rest hidle hqueue hskipped hjob hdrained =>
      have hmem : job ∈ s.queue := by
        rw [show s.queue = skipped ++ job :: rest from hqueue]
        simp
      have hempty : s.idle = [] := by
        rcases h with h | h
        · exact h
        · rw [h] at hmem
          cases hmem
      obtain ⟨rfl, rfl⟩ : ws = [] ∧ v = w := by
        have hlast : s.idle ++ [w] = ws ++ [v] := hidle
        rw [hempty] at hlast
        obtain ⟨hws, hv⟩ := List.append_inj' hlast rfl
        exact ⟨hws.symm, by simpa using hv.symm⟩
      exact .inr ⟨⟨job, hmem, hjob⟩, hempty, skipped, job, rest, hqueue, hskipped, hjob, rfl⟩

variable (opts) in
theorem Regular.push (h : Regular s) (hpush : s.CanPush w) :
    Regular ({ s with idle := s.idle ++ [w] }.drain opts) := by
  obtain ⟨hinv, hdrained⟩ := h
  obtain ⟨hw, hidle, hpending, hbusy⟩ := hpush
  obtain ⟨g, hgrown, ⟨hnone, hsettled, hdrain⟩ | ⟨-, hempty, skipped, job, rest, hqueue, hskipped,
    -, hdrain⟩⟩ := drain_push opts hdrained w
  · have hfree : w ∉ s.inflight.map Prod.fst := by
      intro hmem
      obtain ⟨entry, hentry, rfl⟩ := List.mem_map.mp hmem
      exact hnone (hbusy entry.2 (lookup_of_mem hinv.busyOnce hentry)).2
    have hpushed := (hinv.skips hsettled).pushIdle hw hidle (fun hmem => hnone (hpending hmem)) hfree
    rw [hdrain]
    refine ⟨?_, .inr rfl⟩
    obtain ⟨new, made, crashes, hnew, rfl⟩ := hgrown
    exact hpushed.grown ⟨new, made, crashes, hnew, rfl⟩
  · have hnoidle : Inv { s with idle := [] } := by
      rw [← hempty]
      exact hinv
    have hsent := hnoidle.sends hw List.not_mem_nil (fun job hlookup => (hbusy job hlookup).1)
      hqueue hskipped
    rw [hdrain]
    refine ⟨?_, .inl rfl⟩
    obtain ⟨new, made, crashes, hnew, rfl⟩ := hgrown
    exact hsent.grown ⟨new, made, crashes, hnew, rfl⟩

/-- The other way round: the books are only kept if the worker can be put there. -/
theorem canPush_of_bookkept (h : Regular s) (hmade : w < s.constructions)
    (hkept : Bookkept ({ s with idle := s.idle ++ [w] }.drain opts)) : s.CanPush w := by
  obtain ⟨hinv, hdrained⟩ := h
  obtain ⟨g, ⟨new, made, crashes, hnew, rfl⟩, ⟨hnone, -, hdrain⟩ | ⟨hwaiting, hempty, skipped, job,
    rest, hqueue, -, hjob, hdrain⟩⟩ := drain_push opts hdrained w
  · have hlive : ∀ v ∈ s.workers ++ new, v < s.constructions → v ∈ s.workers := by
      intro v hv hlt
      rcases List.mem_append.mp hv with hv | hv
      · exact hv
      · exact absurd (hnew v hv).1 (Nat.not_le.mpr hlt)
    rw [hdrain] at hkept
    have hlast : w ∈ s.idle ++ [w] := by simp
    obtain ⟨hw, hpending, hbusy⟩ := hkept.idle w hlast
    refine ⟨hlive w hw hmade, fun hidle => ?_,
      fun hmem => absurd (List.mem_append_left _ hmem) hpending, fun job hlookup => ?_⟩
    · exact (List.nodup_append.mp hkept.idleOnce).2.2 w hidle w (List.mem_singleton_self w) rfl
    · exact absurd (List.mem_map_of_mem (mem_of_lookup hlookup)) hbusy
  · have honce : (s.queue ++ s.inflight.map Prod.snd).Nodup := by simpa using hinv.once
    obtain ⟨hqueueOnce, hflyingOnce, hdisjoint⟩ := List.nodup_append.mp honce
    have hset := perm_setEntry hinv.busyOnce w job
    have hmem : job ∈ s.queue := by simp [hqueue]
    have hrest : ∀ other ∈ rest, other ∈ s.queue := fun other hother => by simp [hqueue, hother]
    rw [hdrain] at hkept
    refine ⟨?_, by simp [hempty], fun _ => hwaiting, fun other hlookup => ⟨?_, hwaiting⟩⟩
    · have hknown := hinv.known job (by simp [hmem])
      rcases (hkept.unsettled job hknown hjob).1 with ⟨hcount, -⟩ | ⟨-, v, hv, honly⟩
      · have hagain : job ∈ rest := List.count_pos_iff.mp (by
          dsimp only at hcount
          omega)
        rw [hqueue] at hqueueOnce
        exact absurd hagain (List.nodup_cons.mp (List.nodup_append.mp hqueueOnce).2.1).1
      · obtain rfl : w = v := (honly w).mp (hset.mem_iff.mpr (List.mem_cons_self ..))
        rcases List.mem_append.mp hv with hv | hv
        · exact hv
        · exact absurd (hnew w hv).1 (Nat.not_le.mpr hmade)
    · cases hother : s.isSettled other with
      | true => rfl
      | false =>
          have hentry := mem_of_lookup hlookup
          have hflying : other ∈ s.inflight.map Prod.snd := List.mem_map_of_mem hentry
          have hknown := hinv.known other (by
            simp only [List.append_nil, List.mem_append]
            exact .inr hflying)
          rcases (hkept.unsettled other hknown hother).1 with ⟨hcount, -⟩ | ⟨-, v, -, honly⟩
          · have hqueued : other ∈ rest := List.count_pos_iff.mp (by
              dsimp only at hcount
              omega)
            exact absurd rfl (hdisjoint other (hrest other hqueued) other hflying)
          · rcases List.mem_cons.mp (hset.mem_iff.mp ((honly v).mpr rfl)) with heq | hother
            · obtain ⟨-, rfl⟩ := Prod.mk.inj heq
              exact absurd rfl (hdisjoint other hmem other hflying)
            · obtain ⟨hold, hne⟩ := List.mem_filter.mp hother
              obtain ⟨rfl, -⟩ := Prod.mk.inj (List.inj_on_of_nodup_map hflyingOnce hold hentry rfl)
              simp at hne

variable (opts) in
/-- Putting a worker to the idle ones keeps the books exactly when it can be put there. -/
theorem bookkept_push_iff (h : Regular s) (hmade : w < s.constructions) :
    Bookkept ({ s with idle := s.idle ++ [w] }.drain opts) ↔ s.CanPush w :=
  ⟨canPush_of_bookkept h hmade, fun hpush => (h.push opts hpush).1.bookkept⟩

end QueryPool

end AfyxGraph.Mcp.Query
