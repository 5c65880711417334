import AfyxGraph.Core.Places
import AfyxGraph.Extraction.ParsePool
import Mathlib.Data.List.Perm.Subperm

/-! # Bookkeeping of the parse worker pool

Every worker is in one of three places (starting, idle, busy), every job in one of three
(settled, queued, in flight), and the armed timers are those of the jobs in flight. The
three facts are permutations, so that "exactly once" needs no counting by hand. -/

namespace AfyxGraph.Extraction

open AfyxGraph.Core

namespace ParseWorkerPool

variable {opts : ParseWorkerPoolOptions} {s : ParseWorkerPool} {w : Worker} {job : ParseJob}
  {outcome : Except String ExtractionResult}

def settledJobs (s : ParseWorkerPool) : List ParseJob := s.settlements.map (·.job)

/-- `loose` are the workers a handler is just moving from one place to another. -/
structure Placed (loose : List Worker) (s : ParseWorkerPool) : Prop where
  jobs : (s.settledJobs ++ s.queue ++ s.inflight.map Prod.snd).Perm s.requested
  once : s.requested.Nodup
  ids : ∀ job ∈ s.requested, job.id < s.nextId
  places : (s.pending ++ s.idle ++ s.inflight.map Prod.fst ++ loose).Perm s.workers
  distinct : s.workers.Nodup
  constructed : ∀ w ∈ s.workers, w < s.constructions
  known : ∀ w ∈ s.loaded, w < s.constructions
  loading : ∀ w ∈ s.pending, w ∉ s.loaded
  loaded : ∀ w ∈ s.idle ++ s.inflight.map Prod.fst ++ loose, w ∈ s.loaded
  timed : (s.timers.map fun t => (t.worker, t.job)).Perm s.inflight

abbrev Inv (s : ParseWorkerPool) : Prop := Placed [] s

/-- The pool never leaves work waiting beside an idle worker or without any worker. -/
def Drained (s : ParseWorkerPool) : Prop := s.queue ≠ [] → s.idle = [] ∧ s.workers ≠ []

/-! ## What the places say -/

variable {loose : List Worker}

theorem isSettled_iff : s.isSettled job = true ↔ job ∈ s.settledJobs := by
  simp [isSettled, settledJobs]

namespace Placed

theorem jobs_nodup (h : Placed loose s) :
    (s.settledJobs ++ s.queue ++ s.inflight.map Prod.snd).Nodup :=
  h.jobs.nodup_iff.mpr h.once

theorem places_nodup (h : Placed loose s) :
    (s.pending ++ s.idle ++ s.inflight.map Prod.fst ++ loose).Nodup :=
  h.places.nodup_iff.mpr h.distinct

theorem busy_nodup (h : Placed loose s) : (s.inflight.map Prod.fst).Nodup :=
  (h.places_nodup.sublist (List.sublist_append_left _ loose)).sublist
    (List.sublist_append_right _ _)

theorem flying_nodup (h : Placed loose s) : (s.inflight.map Prod.snd).Nodup :=
  h.jobs_nodup.sublist (List.sublist_append_right _ _)

theorem not_settled_of_queued (h : Placed loose s) (hjob : job ∈ s.queue) :
    s.isSettled job = false := by
  rw [← Bool.not_eq_true, isSettled_iff]
  intro hsettled
  have hnodup := h.jobs_nodup.sublist (List.sublist_append_left _ _)
  exact (List.nodup_append.mp hnodup).2.2 job hsettled job hjob rfl

theorem not_settled_of_flying (h : Placed loose s) (hjob : (w, job) ∈ s.inflight) :
    s.isSettled job = false := by
  rw [← Bool.not_eq_true, isSettled_iff]
  intro hsettled
  exact (List.nodup_append.mp h.jobs_nodup).2.2 job (List.mem_append_left _ hsettled) job
    (List.mem_map_of_mem hjob) rfl

theorem worker_of_flying (h : Placed loose s) (hjob : (w, job) ∈ s.inflight) :
    w ∈ s.workers := by
  apply h.places.subset
  have hbusy := List.mem_map_of_mem (f := Prod.fst) hjob
  simp only [List.mem_append]
  exact Or.inl (Or.inr hbusy)

/-- A job is on one worker. -/
theorem worker_unique (h : Placed loose s) {v : Worker} (hw : (w, job) ∈ s.inflight)
    (hv : (v, job) ∈ s.inflight) : v = w := by
  have := List.inj_on_of_nodup_map h.flying_nodup hv hw rfl
  exact congrArg Prod.fst this

end Placed

/-! ## Single moves -/

theorem settle_of_unsettled (h : s.isSettled job = false) :
    s.settle job outcome =
      { s with
        settlements := s.settlements ++ [⟨job, outcome⟩]
        timers := s.timers.filter (·.job ≠ job) } := by
  rw [settle, if_neg (by simp [h])]

theorem jobs_of_settlements (settlements : List Settlement) (jobs : List ParseJob)
    (outcome : Except String ExtractionResult) :
    (settlements ++ jobs.map fun job => Settlement.mk job outcome).map (·.job) =
      settlements.map (·.job) ++ jobs := by
  simp [Function.comp_def]

namespace Placed

/-- The timers of the job in flight on a worker are those that are cleared with it. -/
theorem timers_filter (h : Placed loose s) (hjob : s.inflight.lookup w = some job) :
    ((s.timers.filter (·.job ≠ job)).map fun t => (t.worker, t.job)).Perm
      (s.inflight.filter (·.1 ≠ w)) := by
  have hmem := mem_of_lookup hjob
  have hfilter := h.timed.filter (fun place => decide (place.2 ≠ job))
  rw [List.filter_map] at hfilter
  refine hfilter.trans (List.Perm.of_eq ?_)
  apply List.filter_congr
  rintro ⟨v, other⟩ hother
  apply decide_eq_decide.mpr
  apply not_congr
  constructor
  · rintro rfl
    exact h.worker_unique hmem hother
  · rintro rfl
    have := List.inj_on_of_nodup_map h.busy_nodup hother hmem rfl
    exact congrArg Prod.snd this

/-- The job of a worker is settled; the worker is left loose. -/
theorem finish (h : Inv s) (hjob : s.inflight.lookup w = some job)
    (outcome : Except String ExtractionResult) :
    Placed [w] ((s.deleteInflight w).settle job outcome) := by
  have hsplit := perm_of_lookup h.busy_nodup hjob
  have hunsettled := h.not_settled_of_flying (mem_of_lookup hjob)
  rw [settle_of_unsettled (s := s.deleteInflight w) hunsettled]
  refine ⟨?_, h.once, h.ids, ?_, h.distinct, h.constructed, h.known, h.loading, ?_,
    h.timers_filter hjob⟩
  · refine List.Perm.trans ?_ h.jobs
    rw [List.perm_iff_count]
    intro other
    have hcount := (hsplit.map Prod.snd).count_eq other
    simp only [deleteInflight, settledJobs, List.map_append, List.map_cons, List.map_nil,
      List.count_append, List.count_cons, List.count_nil] at hcount ⊢
    omega
  · refine List.Perm.trans ?_ h.places
    rw [List.perm_iff_count]
    intro v
    have hcount := (hsplit.map Prod.fst).count_eq v
    simp only [deleteInflight, List.map_cons, List.count_append, List.count_cons, List.count_nil] at hcount ⊢
    omega
  · intro v hv
    apply h.loaded
    have hbusy := (hsplit.map Prod.fst).subset
    rw [List.map_cons] at hbusy
    simp only [List.mem_append, List.mem_singleton, List.not_mem_nil, or_false] at hv ⊢
    rcases hv with (hidle | hother) | rfl
    · exact Or.inl hidle
    · exact Or.inr (by
        obtain ⟨place, hplace, rfl⟩ := List.mem_map.mp hother
        exact List.mem_map_of_mem (List.mem_of_mem_filter hplace))
    · exact Or.inr (List.mem_map_of_mem (mem_of_lookup hjob))

/-- A worker that has no job leaves the pool. -/
theorem removeWorker (h : Placed loose s) (hfree : w ∉ s.inflight.map Prod.fst) :
    Placed (loose.filter (· ≠ w)) (s.removeWorker w) := by
  refine ⟨h.jobs, h.once, h.ids, ?_, h.distinct.filter _, ?_, h.known, ?_, ?_, h.timed⟩
  · have hfilter := h.places.filter (fun v => decide (v ≠ w))
    simp only [List.filter_append] at hfilter
    have hbusy : (s.inflight.map Prod.fst).filter (fun v => decide (v ≠ w)) =
        s.inflight.map Prod.fst := by
      simpa using filter_ne_of_not_mem id (l := s.inflight.map Prod.fst) (by simpa using hfree)
    rw [hbusy] at hfilter
    exact hfilter
  · intro v hv
    exact h.constructed v (List.mem_of_mem_filter hv)
  · intro v hv
    exact h.loading v (List.mem_of_mem_filter hv)
  · intro v hv
    apply h.loaded
    simp only [ParseWorkerPool.removeWorker, List.mem_append, List.mem_filter] at hv ⊢
    rcases hv with (⟨hidle, -⟩ | hbusy) | ⟨hloose, -⟩
    · exact Or.inl (Or.inl hidle)
    · exact Or.inl (Or.inr hbusy)
    · exact Or.inr hloose

theorem pushIdle (h : Placed [w] s) : Inv { s with idle := s.idle ++ [w] } := by
  have hperm : (s.pending ++ (s.idle ++ [w]) ++ s.inflight.map Prod.fst ++ []).Perm
      (s.pending ++ s.idle ++ s.inflight.map Prod.fst ++ [w]) := by
    rw [List.perm_iff_count]
    intro v
    simp only [List.count_append, List.count_nil]
    omega
  refine ⟨h.jobs, h.once, h.ids, hperm.trans h.places, h.distinct, h.constructed, h.known,
    h.loading, ?_, h.timed⟩
  intro v hv
  apply h.loaded
  simp only [List.mem_append, List.not_mem_nil, or_false] at hv ⊢
  rcases hv with (hidle | hnew) | hbusy
  · exact Or.inl (Or.inl hidle)
  · exact Or.inr hnew
  · exact Or.inl (Or.inr hbusy)

theorem spawnOne (h : Placed loose s) : Placed loose (s.spawnOne opts) := by
  unfold ParseWorkerPool.spawnOne
  split
  · exact h
  · dsimp only
    have hnew : s.constructions ∉ s.workers := fun hw => Nat.lt_irrefl _ (h.constructed _ hw)
    split
    · refine ⟨h.jobs, h.once, h.ids, ?_, ?_, ?_, ?_, ?_, h.loaded, h.timed⟩
      · have hperm := h.places
        rw [List.perm_iff_count] at hperm ⊢
        intro v
        have hcount := hperm v
        simp only [List.count_append] at hcount ⊢
        omega
      · exact List.nodup_append.mpr ⟨h.distinct, List.nodup_singleton _, by
          rintro v hv _ hw rfl
          exact hnew (List.mem_singleton.mp hw ▸ hv)⟩
      · intro v hv
        rcases List.mem_append.mp hv with hv | hv
        · exact Nat.lt_succ_of_lt (h.constructed v hv)
        · rw [List.mem_singleton.mp hv]
          exact Nat.lt_succ_self _
      · intro v hv
        exact Nat.lt_succ_of_lt (h.known v hv)
      · intro v hv hloaded
        rcases List.mem_append.mp hv with hv | hv
        · exact h.loading v hv hloaded
        · rw [List.mem_singleton.mp hv] at hloaded
          exact Nat.lt_irrefl _ (h.known _ hloaded)
    · exact ⟨h.jobs, h.once, h.ids, h.places, h.distinct,
        fun v hv => Nat.lt_succ_of_lt (h.constructed v hv),
        fun v hv => Nat.lt_succ_of_lt (h.known v hv), h.loading, h.loaded, h.timed⟩

/-- No field of the invariant is touched. -/
theorem of_counts (h : Placed loose s) (crashes : Nat) (counts : List (Worker × Nat)) :
    Placed loose { s with totalCrashes := crashes, parseCounts := counts } :=
  ⟨h.jobs, h.once, h.ids, h.places, h.distinct, h.constructed, h.known, h.loading, h.loaded,
    h.timed⟩

theorem of_timers (h : Placed loose s) {timers : List ParseTimer}
    (hperm : (timers.map fun t => (t.worker, t.job)).Perm
      (s.timers.map fun t => (t.worker, t.job))) :
    Placed loose { s with timers := timers } :=
  ⟨h.jobs, h.once, h.ids, h.places, h.distinct, h.constructed, h.known, h.loading, h.loaded,
    hperm.trans h.timed⟩

theorem hear (h : Inv s) (hknown : w < s.constructions) (hgone : w ∉ s.workers) :
    Inv { s with loaded := s.loaded ++ [w] } := by
  refine ⟨h.jobs, h.once, h.ids, h.places, h.distinct, h.constructed, ?_, ?_, ?_, h.timed⟩
  · intro v hv
    rcases List.mem_append.mp hv with hv | hv
    · exact h.known v hv
    · rw [List.mem_singleton.mp hv]
      exact hknown
  · intro v hv hloaded
    rcases List.mem_append.mp hloaded with hloaded | hloaded
    · exact h.loading v hv hloaded
    · apply hgone
      rw [← List.mem_singleton.mp hloaded]
      exact h.places.subset (by simp [hv])
  · intro v hv
    exact List.mem_append_left _ (h.loaded v hv)

/-- A worker of the pool that has not answered yet is a starting one. -/
theorem starting (h : Inv s) (hw : w ∈ s.workers) (hnew : w ∉ s.loaded) : w ∈ s.pending := by
  have hplace := h.places.symm.subset hw
  simp only [List.mem_append, List.not_mem_nil, or_false] at hplace
  rcases hplace with (hpending | hidle) | hbusy
  · exact hpending
  · exact absurd (h.loaded w (by simp [hidle])) hnew
  · exact absurd (h.loaded w (List.mem_append_left _ (List.mem_append_right _ hbusy))) hnew

theorem warm (h : Inv s) (hw : w ∈ s.workers) (hnew : w ∉ s.loaded) :
    Inv { s with
      loaded := s.loaded ++ [w]
      pending := s.pending.filter (· ≠ w)
      idle := s.idle ++ [w] } := by
  have hpending := h.starting hw hnew
  have hnodup : (s.pending.map id).Nodup := by
    rw [List.map_id]
    exact (List.nodup_append.mp (List.nodup_append.mp
      (List.nodup_append.mp h.places_nodup).1).1).1
  have hsplit := perm_cons_filter_ne id hnodup hpending
  refine ⟨h.jobs, h.once, h.ids, ?_, h.distinct, h.constructed, ?_, ?_, ?_, h.timed⟩
  · refine List.Perm.trans ?_ h.places
    rw [List.perm_iff_count]
    intro v
    have hcount := hsplit.count_eq v
    simp only [id_eq, List.count_append, List.count_cons, List.count_nil] at hcount ⊢
    omega
  · intro v hv
    rcases List.mem_append.mp hv with hv | hv
    · exact h.known v hv
    · rw [List.mem_singleton.mp hv]
      exact h.constructed w hw
  · intro v hv hloaded
    obtain ⟨hv, hne⟩ := List.mem_filter.mp hv
    rcases List.mem_append.mp hloaded with hloaded | hloaded
    · exact h.loading v hv hloaded
    · simp [List.mem_singleton.mp hloaded] at hne
  · intro v hv
    simp only [List.mem_append, List.mem_singleton, List.not_mem_nil, or_false] at hv ⊢
    rcases hv with (hidle | rfl) | hbusy
    · exact Or.inl (h.loaded v (by simp [hidle]))
    · exact Or.inr rfl
    · exact Or.inl (h.loaded v (List.mem_append_left _ (List.mem_append_right _ hbusy)))

theorem request (h : Inv s) (task : ParseTask) :
    Inv { s with
      nextId := s.nextId + 1
      queue := s.queue ++ [⟨s.nextId, task⟩]
      requested := s.requested ++ [⟨s.nextId, task⟩] } := by
  refine ⟨?_, ?_, ?_, h.places, h.distinct, h.constructed, h.known, h.loading, h.loaded,
    h.timed⟩
  · have hperm := h.jobs
    rw [List.perm_iff_count] at hperm ⊢
    intro job
    have hcount := hperm job
    simp only [settledJobs, List.count_append] at hcount ⊢
    omega
  · refine List.nodup_append.mpr ⟨h.once, List.nodup_singleton _, ?_⟩
    rintro job hjob _ hnew rfl
    have hlt := h.ids job hjob
    rw [List.mem_singleton.mp hnew] at hlt
    exact Nat.lt_irrefl _ hlt
  · intro job hjob
    rcases List.mem_append.mp hjob with hjob | hjob
    · exact Nat.lt_succ_of_lt (h.ids job hjob)
    · rw [List.mem_singleton.mp hjob]
      exact Nat.lt_succ_self _

theorem dispatch {rest : List ParseJob} (h : Inv { s with queue := job :: rest })
    (hw : s.idle.getLast? = some w) :
    Inv { { s with idle := s.idle.dropLast }.dispatch opts w job with queue := rest } := by
  have hidle : s.idle = s.idle.dropLast ++ [w] := by
    have hne : s.idle ≠ [] := by
      intro hnil
      simp [hnil] at hw
    have hlast : s.idle.getLast hne = w :=
      Option.some.inj ((List.getLast?_eq_some_getLast hne).symm.trans hw)
    rw [← hlast, List.dropLast_append_getLast]
  have hplaces := h.places
  have hbusy : w ∉ s.inflight.map Prod.fst := by
    intro hmem
    have hnodup := (List.nodup_append.mp h.places_nodup).1
    refine (List.nodup_append.mp hnodup).2.2 w ?_ w hmem rfl
    dsimp only
    rw [hidle]
    simp
  have hinflight : s.inflight.filter (·.1 ≠ w) = s.inflight := filter_ne_of_not_mem Prod.fst hbusy
  refine ⟨?_, h.once, h.ids, ?_, h.distinct, h.constructed, h.known, h.loading, ?_, ?_⟩
  · have hperm := h.jobs
    rw [List.perm_iff_count] at hperm ⊢
    intro other
    have hcount := hperm other
    simp only [ParseWorkerPool.dispatch, hinflight, settledJobs, List.map_append, List.map_cons,
      List.map_nil, List.count_append, List.count_cons, List.count_nil] at hcount ⊢
    omega
  · dsimp only at hplaces
    rw [hidle] at hplaces
    rw [List.perm_iff_count] at hplaces ⊢
    intro v
    have hcount := hplaces v
    simp only [ParseWorkerPool.dispatch, hinflight, List.map_append, List.map_cons,
      List.map_nil, List.count_append, List.count_cons, List.count_nil] at hcount ⊢
    omega
  · intro v hv
    apply h.loaded
    simp only [ParseWorkerPool.dispatch, hinflight, List.map_append, List.map_cons, List.map_nil,
      List.mem_append, List.mem_singleton, List.not_mem_nil, or_false] at hv ⊢
    rcases hv with hv | hv | rfl
    · exact Or.inl (List.dropLast_subset _ hv)
    · exact Or.inr hv
    · exact Or.inl (by
        rw [hidle]
        simp)
  · dsimp only [ParseWorkerPool.dispatch]
    rw [hinflight, List.map_append]
    exact h.timed.append_right _

end Placed

/-! ## `drain` -/

theorem settleAll_of_unsettled {jobs : List ParseJob} (hnodup : jobs.Nodup)
    (h : ∀ job ∈ jobs, s.isSettled job = false) :
    s.settleAll jobs outcome =
      { s with
        settlements := s.settlements ++ jobs.map (⟨·, outcome⟩)
        timers := s.timers.filter (·.job ∉ jobs) } := by
  induction jobs generalizing s with
  | nil => simp [settleAll]
  | cons job jobs ih =>
      rw [List.nodup_cons] at hnodup
      have hsettle := @settle_of_unsettled _ job outcome (h job (List.mem_cons_self ..))
      have hrest : ∀ other ∈ jobs, (s.settle job outcome).isSettled other = false := by
        intro other hother
        have hne : job ≠ other := fun heq => hnodup.1 (heq ▸ hother)
        have hbefore := h other (List.mem_cons_of_mem _ hother)
        simp only [isSettled] at hbefore
        simp [hsettle, isSettled, hbefore, hne]
      have hall := ih hnodup.2 hrest
      rw [hsettle] at hall
      simp only [settleAll, List.foldl_cons, hsettle] at hall ⊢
      rw [hall]
      simp only [List.map_cons, List.append_assoc, List.cons_append, List.nil_append,
        List.filter_filter, List.mem_cons, not_or, ne_eq, Bool.decide_and, Bool.and_comm]

variable (opts) in
theorem grow_inv (h : Inv s) : Inv (s.grow opts) := by
  refine loop_invariant (fun s t hs hturn => ?_) _ h
  simp only [growTurn, Option.ite_none_right_eq_some, Option.some.injEq] at hturn
  obtain ⟨-, rfl⟩ := hturn
  exact Placed.spawnOne hs

/-- The loop of `drain` has ended by itself. -/
theorem grow_stops (s : ParseWorkerPool) : (s.grow opts).growTurn opts = none := by
  apply @loop_stops _ _ (fun _ => True)
    (fun s => (maxConcurrentSpawn - s.pending.length) + (crashBudget - s.totalCrashes))
    (fun _ _ _ _ => trivial) _ _ _ trivial (by omega)
  intro s t _ hturn
  simp only [growTurn, Option.ite_none_right_eq_some, Option.some.injEq] at hturn
  obtain ⟨hgrows, rfl⟩ := hturn
  simp only [grows, healthy, Bool.and_eq_true, decide_eq_true_eq, Bool.not_eq_eq_eq_not,
    Bool.not_true, gt_iff_lt] at hgrows
  obtain ⟨⟨⟨⟨hqueued, hroom⟩, hslot⟩, hlive⟩, -, hcrashes⟩ := hgrows
  have hspawns : (s.destroyed || s.workers.length ≥ opts.maxSize || !s.healthy) = false := by
    simp only [healthy, hlive, hcrashes, Bool.false_or, ge_iff_le, Bool.or_eq_false_iff,
      decide_eq_false_iff_not]
    exact ⟨by omega, by simp⟩
  rw [spawnOne, if_neg (by simp [hspawns])]
  dsimp only
  split
  · simp only [List.length_append, List.length_cons, List.length_nil]
    omega
  · dsimp only
    omega

variable (opts) in
theorem dispatchQueued_inv {jobs : List ParseJob} (h : Inv { s with queue := jobs }) :
    Inv (s.dispatchQueued opts jobs) := by
  induction jobs generalizing s with
  | nil => exact h
  | cons job rest ih =>
      rw [dispatchQueued]
      cases hidle : s.idle.getLast? with
      | none => exact h
      | some w =>
          have hunsettled : s.isSettled job = false :=
            h.not_settled_of_queued (List.mem_cons_self ..)
          dsimp only
          rw [if_neg (Bool.eq_false_iff.mp hunsettled)]
          exact ih (h.dispatch hidle)

theorem dispatchQueued_idle (s : ParseWorkerPool) (jobs : List ParseJob)
    (hqueue : (s.dispatchQueued opts jobs).queue ≠ []) :
    (s.dispatchQueued opts jobs).idle = [] := by
  induction jobs generalizing s with
  | nil => exact absurd rfl hqueue
  | cons job rest ih =>
      rw [dispatchQueued] at hqueue ⊢
      cases hidle : s.idle.getLast? with
      | none => exact List.getLast?_eq_none_iff.mp hidle
      | some w =>
          rw [hidle] at hqueue
          dsimp only at hqueue ⊢
          split
          · rename_i hsettled
            rw [if_pos hsettled] at hqueue
            exact ih s hqueue
          · rename_i hsettled
            rw [if_neg hsettled] at hqueue
            exact ih _ hqueue

theorem Placed.queue_nodup (h : Placed loose s) : s.queue.Nodup :=
  (h.jobs_nodup.sublist (List.sublist_append_left _ _)).sublist (List.sublist_append_right _ _)

/-- Without workers nothing is in flight. -/
theorem Placed.idle_of_no_workers (h : Inv s) (hnone : s.workers = []) :
    s.pending = [] ∧ s.idle = [] ∧ s.inflight = [] := by
  have hplaces := h.places
  rw [hnone] at hplaces
  simpa [and_assoc] using hplaces.eq_nil

theorem failStranded_inv (h : Inv s) : Inv s.failStranded := by
  unfold failStranded
  split
  · rename_i hstranded
    simp only [Bool.and_eq_true, List.isEmpty_iff] at hstranded
    obtain ⟨-, -, hinflight⟩ := h.idle_of_no_workers hstranded.2
    have htimers : s.timers = [] := by
      have htimed := h.timed
      rw [hinflight] at htimed
      exact List.map_eq_nil_iff.mp htimed.eq_nil
    dsimp only
    rw [settleAll_of_unsettled (s := { s with queue := [] }) h.queue_nodup
      fun _ => h.not_settled_of_queued]
    refine ⟨?_, h.once, h.ids, h.places, h.distinct, h.constructed, h.known, h.loading,
      h.loaded, ?_⟩
    · simpa only [settledJobs, jobs_of_settlements, List.append_nil] using h.jobs
    · dsimp only
      rw [htimers, hinflight]
      exact List.Perm.refl _
  · exact h

theorem failStranded_drained (h : Inv s) (hidle : s.queue ≠ [] → s.idle = []) :
    Drained s.failStranded := by
  unfold failStranded
  split
  · dsimp only
    rw [settleAll_of_unsettled (s := { s with queue := [] }) h.queue_nodup
      fun _ => h.not_settled_of_queued]
    intro hqueue
    exact absurd rfl hqueue
  · rename_i hworks
    intro hqueue
    refine ⟨hidle hqueue, fun hnone => hworks ?_⟩
    obtain ⟨hpending, -, -⟩ := h.idle_of_no_workers hnone
    simp [hqueue, hidle hqueue, hpending, hnone]

/-- What every event of the pool preserves. -/
structure Sound (s : ParseWorkerPool) : Prop where
  inv : Inv s
  drained : Drained s

theorem drain_sound (h : Inv s) : Sound (s.drain opts) :=
  have hdispatched := dispatchQueued_inv opts (grow_inv opts h)
  ⟨failStranded_inv hdispatched, failStranded_drained hdispatched (dispatchQueued_idle _ _)⟩

/-! ## Handlers -/

theorem spawnOne_drained (h : Drained s) : Drained (s.spawnOne opts) := by
  unfold spawnOne
  split
  · exact h
  · dsimp only
    split
    · intro hqueue
      exact ⟨(h hqueue).1, by simp⟩
    · exact h

theorem spawnOne_sound (h : Sound s) : Sound (s.spawnOne opts) :=
  ⟨h.inv.spawnOne, spawnOne_drained h.drained⟩

theorem requestParse_sound (h : Sound s) (task : ParseTask) : Sound (s.requestParse opts task) := by
  unfold requestParse
  split
  · exact h
  · exact drain_sound (h.inv.request task)

theorem settle_removeWorker (s : ParseWorkerPool) (w : Worker) (job : ParseJob)
    (outcome : Except String ExtractionResult) :
    (s.removeWorker w).settle job outcome = (s.settle job outcome).removeWorker w := by
  cases h : s.isSettled job with
  | true => rw [settle, settle, if_pos (show (s.removeWorker w).isSettled job = true from h),
      if_pos h]
  | false =>
      rw [settle_of_unsettled h, settle_of_unsettled (s := s.removeWorker w) h]
      rfl

variable (opts) in
theorem isSettled_spawnOne (s : ParseWorkerPool) (job : ParseJob) :
    (s.spawnOne opts).isSettled job = s.isSettled job := by
  unfold spawnOne
  split
  · rfl
  · dsimp only
    split <;> rfl

theorem settle_spawnOne (s : ParseWorkerPool) (job : ParseJob)
    (outcome : Except String ExtractionResult) :
    (s.spawnOne opts).settle job outcome = (s.settle job outcome).spawnOne opts := by
  have hsame := isSettled_spawnOne opts s job
  cases h : s.isSettled job with
  | true => rw [settle, settle, if_pos (hsame.trans h), if_pos h]
  | false =>
      rw [settle_of_unsettled h, settle_of_unsettled (hsame.trans h)]
      simp only [spawnOne, healthy]
      split
      · rfl
      · split <;> rfl

theorem grammarsLoaded_sound (h : Sound s) (hknown : w < s.constructions) (hnew : w ∉ s.loaded) :
    Sound ({ s with loaded := s.loaded ++ [w] }.onMessage opts w .grammarsLoaded) := by
  unfold onMessage
  dsimp only
  split
  · rename_i hw
    exact drain_sound (h.inv.warm hw hnew)
  · rename_i hgone
    exact ⟨h.inv.hear hknown hgone, h.drained⟩

theorem settle_inflight (s : ParseWorkerPool) (job : ParseJob)
    (outcome : Except String ExtractionResult) : (s.settle job outcome).inflight = s.inflight := by
  unfold settle
  split <;> rfl

theorem not_busy_deleteInflight (s : ParseWorkerPool) (w : Worker) :
    w ∉ (s.deleteInflight w).inflight.map Prod.fst := by
  simp [deleteInflight]

/-- The worker is gone, and with it the job it had. -/
theorem Placed.retire (h : Inv s) (hjob : s.inflight.lookup w = some job)
    (outcome : Except String ExtractionResult) :
    Inv (((s.removeWorker w).deleteInflight w).settle job outcome) := by
  have hremoved := (h.finish hjob outcome).removeWorker (w := w)
    (by rw [settle_inflight]; exact not_busy_deleteInflight s w)
  have hnone : [w].filter (· ≠ w) = [] := by simp
  rw [← settle_removeWorker, hnone] at hremoved
  exact hremoved

theorem spawnOne_same (s : ParseWorkerPool) :
    (s.spawnOne opts).queue = s.queue ∧ (s.spawnOne opts).inflight = s.inflight := by
  unfold spawnOne
  split
  · exact ⟨rfl, rfl⟩
  · dsimp only
    split <;> exact ⟨rfl, rfl⟩

variable (opts) in
theorem recycle_same (s : ParseWorkerPool) (w : Worker) :
    (s.recycle opts w).queue = s.queue ∧ (s.recycle opts w).inflight = s.inflight := by
  unfold recycle
  dsimp only
  split
  · exact spawnOne_same _
  · exact ⟨rfl, rfl⟩

variable (opts) in
theorem Placed.recycle (h : Placed loose s) (hfree : w ∉ s.inflight.map Prod.fst) :
    Placed (loose.filter (· ≠ w)) (s.recycle opts w) := by
  unfold ParseWorkerPool.recycle
  dsimp only
  split
  · exact (h.removeWorker hfree).spawnOne
  · exact h.removeWorker hfree

theorem settle_recycle (s : ParseWorkerPool) (w : Worker) (job : ParseJob)
    (outcome : Except String ExtractionResult) :
    (s.recycle opts w).settle job outcome = (s.settle job outcome).recycle opts w := by
  have hsettle := settle_removeWorker s w job outcome
  have hsame : ((s.settle job outcome).removeWorker w).healthy = (s.removeWorker w).healthy ∧
      ((s.settle job outcome).removeWorker w).destroyed = (s.removeWorker w).destroyed := by
    rw [← hsettle, settle]
    split <;> exact ⟨rfl, rfl⟩
  unfold recycle
  dsimp only
  rw [hsame.1, hsame.2]
  split
  · rw [settle_spawnOne, hsettle]
  · exact hsettle

theorem parseResult_sound (h : Sound s) (w : Worker) (id : Option Nat)
    (result : ExtractionResult) : Sound (s.onMessage opts w (.parseResult id result)) := by
  unfold onMessage
  dsimp only
  cases hjob : s.inflight.lookup w with
  | none => exact h
  | some job =>
      dsimp only
      split
      · exact h
      · have hfinish := h.inv.finish hjob (.ok result)
        split
        · rw [settle_recycle]
          have hrecycled := hfinish.recycle (w := w) opts
            (by rw [settle_inflight]; exact not_busy_deleteInflight s w)
          exact drain_sound (by simpa using hrecycled)
        · have hunsettled := h.inv.not_settled_of_flying (mem_of_lookup hjob)
          rw [settle_of_unsettled (s := s.deleteInflight w) hunsettled] at hfinish
          rw [settle_of_unsettled (s := { s.deleteInflight w with idle := _ }) hunsettled]
          exact drain_sound hfinish.pushIdle

/-- The tail of the handlers that lose a worker. -/
theorem replace_sound (h : Inv s) : Sound ((s.keepCapacity opts).drain opts) := by
  unfold keepCapacity
  split
  · exact drain_sound h.spawnOne
  · exact drain_sound h

theorem onWorkerGone_sound (h : Sound s) (w : Worker) (message : String) :
    Sound (s.onWorkerGone opts w message) := by
  unfold onWorkerGone
  split
  · dsimp only
    cases hjob : (s.removeWorker w).inflight.lookup w with
    | none =>
        have hfree : w ∉ s.inflight.map Prod.fst := not_mem_keys_of_lookup hjob
        have hsame : (s.removeWorker w).inflight.filter (·.1 ≠ w) = s.inflight :=
          filter_ne_of_not_mem Prod.fst hfree
        dsimp only [deleteInflight]
        rw [hsame]
        exact replace_sound ((h.inv.removeWorker hfree).of_counts (s.totalCrashes + 1) _)
    | some job =>
        have hunsettled := h.inv.not_settled_of_flying (mem_of_lookup hjob)
        have hretired := h.inv.retire hjob (.error message)
        rw [settle_of_unsettled (s := (s.removeWorker w).deleteInflight w) hunsettled] at hretired
        dsimp only
        rw [settle_of_unsettled
          (s := deleteInflight { s.removeWorker w with totalCrashes := _ } w) hunsettled]
        exact replace_sound (hretired.of_counts (s.totalCrashes + 1) _)
  · exact h

/-! ### Timers -/

/-- A timer that is armed belongs to a job in flight. -/
theorem Placed.flying_of_timer (h : Placed loose s) {timer : ParseTimer}
    (htimer : timer ∈ s.timers) : (timer.worker, timer.job) ∈ s.inflight :=
  h.timed.subset (List.mem_map_of_mem (f := fun t : ParseTimer => (t.worker, t.job)) htimer)

theorem onTimeout_sound (h : Sound s) {timer : ParseTimer} (htimer : timer ∈ s.timers) :
    Sound ({ s with timers := s.timers.erase timer }.onTimeout timer.worker timer.job
      timer.ms) := by
  have hflying := h.inv.flying_of_timer htimer
  have hunsettled := h.inv.not_settled_of_flying hflying
  have hworker := h.inv.worker_of_flying hflying
  have hopen : isSettled { s with timers := s.timers.erase timer } timer.job = false := hunsettled
  unfold onTimeout
  rw [if_neg (by simp [hopen, hworker])]
  refine ⟨h.inv.of_timers ?_, h.drained⟩
  have hsplit := (List.perm_cons_erase htimer).map fun t => (t.worker, t.job)
  rw [List.map_append]
  exact List.perm_append_comm.trans hsplit.symm

theorem onHardTimeout_sound (h : Sound s) {timer : ParseTimer} (htimer : timer ∈ s.timers) :
    Sound ({ s with timers := s.timers.erase timer }.onHardTimeout opts timer.worker timer.job
      timer.ms) := by
  have hflying := h.inv.flying_of_timer htimer
  have hunsettled := h.inv.not_settled_of_flying hflying
  have hworker := h.inv.worker_of_flying hflying
  have hjob : s.inflight.lookup timer.worker = some timer.job :=
    lookup_of_mem h.inv.busy_nodup hflying
  have hcleared : ((s.timers.erase timer).filter (·.job ≠ timer.job)).Perm
      (s.timers.filter (·.job ≠ timer.job)) := by
    have hsplit := (List.perm_cons_erase htimer).filter fun t => decide (t.job ≠ timer.job)
    rw [List.filter_cons_of_neg (by simp)] at hsplit
    exact hsplit.symm
  have hopen : isSettled { s with timers := s.timers.erase timer } timer.job = false := hunsettled
  unfold onHardTimeout
  rw [if_neg (by simp [hopen, hworker])]
  dsimp only
  have hretired := h.inv.retire hjob
    (.error ("Parse timed out after " ++ toString timer.ms ++ "ms"))
  rw [settle_of_unsettled (s := (s.removeWorker timer.worker).deleteInflight timer.worker)
    hunsettled] at hretired
  rw [settle_of_unsettled
    (s := (removeWorker { s with timers := _ } timer.worker).deleteInflight timer.worker)
    hunsettled]
  exact replace_sound (hretired.of_timers (hcleared.map _))

/-! ### Calls of the orchestrator -/

variable (opts) in
/-- Recycling workers that have no job. -/
theorem recycleAll_inv (workers : List Worker) (h : Inv s)
    (hfree : ∀ w ∈ workers, w ∉ s.inflight.map Prod.fst) :
    Inv (workers.foldl (fun s w => s.recycle opts w) s) ∧
      (workers.foldl (fun s w => s.recycle opts w) s).queue = s.queue := by
  induction workers generalizing s with
  | nil => exact ⟨h, rfl⟩
  | cons w workers ih =>
      obtain ⟨hqueue, hinflight⟩ := recycle_same opts s w
      have hrecycled := h.recycle opts (hfree w (List.mem_cons_self ..))
      have hrest := ih hrecycled (by
        intro v hv
        rw [hinflight]
        exact hfree v (List.mem_cons_of_mem _ hv))
      rw [List.foldl_cons]
      exact ⟨hrest.1, hrest.2.trans hqueue⟩

theorem Placed.not_busy_of_idle (h : Placed loose s) (hw : w ∈ s.idle) :
    w ∉ s.inflight.map Prod.fst := by
  intro hbusy
  have hnodup := (List.nodup_append.mp h.places_nodup).1
  exact (List.nodup_append.mp hnodup).2.2 w (List.mem_append_right _ hw) w hbusy rfl

theorem recycleAll_sound (h : Sound s) : Sound (s.recycleAll opts) := by
  unfold recycleAll
  by_cases hqueue : s.queue = []
  · obtain ⟨hinv, hsame⟩ := recycleAll_inv opts s.idle h.inv
      fun w hw => h.inv.not_busy_of_idle hw
    exact ⟨hinv, fun hne => absurd (hsame.trans hqueue) hne⟩
  · rw [(h.drained hqueue).1]
    exact h

theorem prewarm_sound (turns : Nat) (h : Sound s) : Sound (prewarm opts turns s) := by
  induction turns generalizing s with
  | zero => exact h
  | succ turns ih =>
      rw [prewarm]
      split
      · dsimp only
        split
        · exact spawnOne_sound h
        · exact ih (spawnOne_sound h)
      · exact h

theorem destroy_sound (h : Sound s) : Sound s.destroy := by
  unfold destroy
  split
  · exact h
  · have hjobs : (s.inflight.map Prod.snd ++ s.queue).Nodup := by
      have hnodup := h.inv.jobs_nodup
      rw [List.append_assoc] at hnodup
      exact List.nodup_append_comm.mp (List.nodup_append.mp hnodup).2.1
    have hunsettled : ∀ job ∈ s.inflight.map Prod.snd ++ s.queue, s.isSettled job = false := by
      intro job hjob
      rcases List.mem_append.mp hjob with hflying | hqueued
      · obtain ⟨⟨w, other⟩, hmem, rfl⟩ := List.mem_map.mp hflying
        exact h.inv.not_settled_of_flying hmem
      · exact h.inv.not_settled_of_queued hqueued
    have htimers : s.timers.filter (·.job ∉ s.inflight.map Prod.snd ++ s.queue) = [] := by
      apply List.filter_eq_nil_iff.mpr
      intro timer htimer
      have hflying := List.mem_map_of_mem (f := Prod.snd) (h.inv.flying_of_timer htimer)
      simp only [decide_eq_true_eq, not_not]
      exact List.mem_append_left _ hflying
    dsimp only
    rw [settleAll_of_unsettled (s :=
      { s with destroyed := true, workers := [], pending := [], parseCounts := [], idle := [] })
      hjobs hunsettled]
    dsimp only
    rw [htimers]
    refine ⟨⟨?_, h.inv.once, h.inv.ids, List.Perm.refl _, List.nodup_nil, by simp,
      h.inv.known, by simp, by simp, List.Perm.refl _⟩, fun hqueue => absurd rfl hqueue⟩
    have hperm := h.inv.jobs
    rw [List.perm_iff_count] at hperm ⊢
    intro job
    have hcount := hperm job
    simp only [settledJobs, jobs_of_settlements, List.map_nil, List.count_append,
      List.count_nil] at hcount ⊢
    omega

theorem step_sound {event : Event} {t : ParseWorkerPool} (h : Sound s)
    (hs : step opts s event = some t) : Sound t := by
  cases event with
  | requestParse task =>
      cases hs
      exact requestParse_sound h task
  | message w m =>
      cases m with
      | grammarsLoaded =>
          simp only [step, Option.ite_none_right_eq_some, Option.some.injEq] at hs
          obtain ⟨⟨hknown, hnew⟩, rfl⟩ := hs
          exact grammarsLoaded_sound h hknown hnew
      | parseResult id result =>
          cases hs
          exact parseResult_sound h w id result
      | other =>
          cases hs
          exact h
  | error w message =>
      cases hs
      exact onWorkerGone_sound h w _
  | exit w code =>
      simp only [step, Option.some.injEq] at hs
      subst hs
      split
      · exact onWorkerGone_sound h w _
      · exact h
  | timer timer =>
      simp only [step, Option.ite_none_right_eq_some] at hs
      obtain ⟨htimer, hs⟩ := hs
      split at hs
      · cases hs
        exact onTimeout_sound h htimer
      · cases hs
        exact onHardTimeout_sound h htimer
  | recycleAll =>
      cases hs
      exact recycleAll_sound h
  | prewarm =>
      cases hs
      exact prewarm_sound _ h
  | destroy =>
      cases hs
      exact destroy_sound h

/-! ## Bookkeeping -/

/-- Where jobs and workers are, once for each collection of the pool. -/
structure Bookkept (s : ParseWorkerPool) : Prop where
  unsettled : ∀ job ∈ s.requested, s.isSettled job = false →
    (s.queue.count job = 1 ∧ ∀ w, (w, job) ∉ s.inflight) ∨
      (job ∉ s.queue ∧ ∃ w ∈ s.workers, s.inflight.count (w, job) = 1 ∧
        (∀ v, (v, job) ∈ s.inflight → v = w) ∧
        ∃ timer ∈ s.timers, timer.worker = w ∧ timer.job = job)
  idle : ∀ w ∈ s.idle, w ∈ s.workers ∧ w ∈ s.loaded ∧ (∀ job, (w, job) ∉ s.inflight) ∧
    s.idle.count w = 1
  settlesOnce : (s.settlements.map (·.job)).Nodup
  drained : s.queue ≠ [] → s.idle = [] ∧ s.workers ≠ []

theorem Sound.bookkept (h : Sound s) : Bookkept s := by
  have hjobs := List.nodup_append.mp h.inv.jobs_nodup
  refine ⟨?_, ?_, (List.nodup_append.mp hjobs.1).1, h.drained⟩
  · intro job hjob hopen
    have hplace := h.inv.jobs.symm.subset hjob
    rw [List.mem_append, List.mem_append, ← isSettled_iff, hopen] at hplace
    have hapart : job ∈ s.queue → job ∉ s.inflight.map Prod.snd := fun hqueued hflying =>
      hjobs.2.2 job (List.mem_append_right _ hqueued) job hflying rfl
    rcases hplace with (hfalse | hqueued) | hflying
    · cases hfalse
    · refine Or.inl ⟨List.count_eq_one_of_mem h.inv.queue_nodup hqueued, fun w hw => ?_⟩
      exact hapart hqueued (List.mem_map_of_mem (f := Prod.snd) hw)
    · obtain ⟨⟨w, other⟩, hw, rfl⟩ := List.mem_map.mp hflying
      have hnodup : s.inflight.Nodup := List.Nodup.of_map Prod.snd h.inv.flying_nodup
      obtain ⟨timer, htimer, hkey⟩ := List.mem_map.mp (h.inv.timed.symm.subset hw)
      refine Or.inr ⟨fun hqueued => hapart hqueued hflying, w, h.inv.worker_of_flying hw,
        List.count_eq_one_of_mem hnodup hw, fun v hv => h.inv.worker_unique hw hv,
        timer, htimer, congrArg Prod.fst hkey, congrArg Prod.snd hkey⟩
  · intro w hw
    have hplace : w ∈ s.pending ++ s.idle ++ s.inflight.map Prod.fst ++ [] := by simp [hw]
    have hnodup : s.idle.Nodup := (List.nodup_append.mp (List.nodup_append.mp
      (List.nodup_append.mp h.inv.places_nodup).1).1).2.1
    refine ⟨h.inv.places.subset hplace, h.inv.loaded w (by simp [hw]), fun job hjob => ?_,
      List.count_eq_one_of_mem hnodup hw⟩
    exact h.inv.not_busy_of_idle hw (List.mem_map_of_mem hjob)

theorem empty_sound : Sound empty where
  inv :=
    ⟨List.Perm.refl _, List.nodup_nil, by simp [empty], List.Perm.refl _, List.nodup_nil,
      by simp [empty], by simp [empty], by simp [empty], by simp [empty], List.Perm.refl _⟩
  drained := fun hqueue => absurd rfl hqueue

/-- Whatever the workers, the timers and the orchestrator do, the books are in order. -/
theorem always_bookkept (opts : ParseWorkerPoolOptions) (events : List Event) :
    (step opts).Always Bookkept (init opts) events :=
  Machine.always_of_invariant (fun _ _ _ h hs => step_sound h hs) (fun _ h => h.bookkept)
    (spawnOne_sound empty_sound) events

end ParseWorkerPool

end AfyxGraph.Extraction
