import AfyxGraph.Resolution.Agreement

/-! # What a run of the loop comes to

With the pool or without it, a run ends with the session of the batches in sequence, in which
every pending row is attempted once.
-/

namespace AfyxGraph.Resolution

open AfyxGraph.Core

variable {setup : Setup}

/-! ## Attempts of the sequence -/

/-- Every pending row is attempted once: the prerequisites first, and in row-id order within
a phase. -/
structure AttemptedInOrder (refs : List RefRow) (attempted : List Nat) : Prop where
  once : ∀ row ∈ refs, row.isPending = true → attempted.count row.id = 1
  order : attempted = (pendingRows refs 0 true).map (·.id) ++ (pendingRows refs 0 false).map (·.id)

theorem attemptAll_attempted (s : Session) (r : ResolutionResult) (batch : List RefRow) :
    (setup.attemptAll s r batch).1.attempted = s.attempted ++ batch.map (·.id) := by
  unfold Setup.attemptAll
  induction batch generalizing s r with
  | nil => simp
  | cons raw batch ih =>
      rw [List.foldl_cons, ih, attempt_attempted]
      simp

theorem writeAll_attempted (s : Session) (writes : List Write) :
    (setup.writeAll s writes).attempted = s.attempted := by
  unfold Setup.writeAll
  induction writes generalizing s with
  | nil => rfl
  | cons w writes ih => exact ih (s.write setup.getNodeById w)

theorem admitBatch_attempted (s : Session) (batch : List RefRow) :
    (setup.admitBatch s batch).attempted = s.attempted ++ batch.map (·.id) := by
  have hadmits : (setup.admitBatch s batch).attempted =
      (setup.attemptAll s .empty batch).1.attempted := by
    show (setup.writeAll _ _).attempted = _
    rw [writeAll_attempted, writeAll_attempted, writeAll_attempted]
    rfl
  rw [hadmits, attemptAll_attempted]

theorem foldl_admitBatch_attempted (s : Session) (batches : List (List RefRow)) :
    (batches.foldl setup.admitBatch s).attempted =
      s.attempted ++ batches.flatten.map (·.id) := by
  induction batches generalizing s with
  | nil => simp
  | cons batch batches ih =>
      rw [List.foldl_cons, ih, admitBatch_attempted]
      simp

theorem sequential_attempted (input : Loop.Input) :
    AttemptedInOrder input.refs.rows (setup.sequential input).attempted := by
  have hsize := setup.batchSize_pos
  have hattempted : (setup.sequential input).attempted =
      (batchesAhead input.refs.rows setup.batchSize ⟨true, 0⟩).flatten.map (·.id) := by
    rw [Setup.sequential, foldl_admitBatch_attempted]
    rfl
  have horder : (setup.sequential input).attempted =
      (pendingRows input.refs.rows 0 true).map (·.id) ++
        (pendingRows input.refs.rows 0 false).map (·.id) := by
    rw [hattempted]
    simp only [batchesAhead, if_true, List.flatten_append, slices_flatten hsize, List.map_append]
  refine ⟨?_, horder⟩
  intro row hrow hpending
  have hnodup : (setup.sequential input).attempted.Nodup :=
    hattempted ▸ Loop.nodup_batchesAhead input.refs.sorted
  apply List.count_eq_one_of_mem hnodup
  rw [horder]
  have hpositive := input.refs.positive row hrow
  cases hkind : row.isPrerequisite with
  | true =>
      apply List.mem_append_left
      exact List.mem_map_of_mem (mem_pendingRows.mpr ⟨hrow, hpending, hpositive, hkind⟩)
  | false =>
      apply List.mem_append_right
      exact List.mem_map_of_mem (mem_pendingRows.mpr ⟨hrow, hpending, hpositive, hkind⟩)

/-! ## Without a pool -/

/-- The same, by a caller that does not give the parameter `parallel`. -/
def Setup.sequentially (setup : Setup) : Setup :=
  { setup with parallel := false }

namespace Loop

/-- There is no pool, and no batch was or is for one. -/
structure NoPool (s : Loop) : Prop where
  pool : s.pool = none
  mode : s.mode = .seq
  nextMode : s.nextMode = .seq

variable {s t : Loop}

theorem NoPool.beginBatch (h : NoPool s) : NoPool s.beginBatch := by
  have hpool : (s.pool = some .ready && decide (MIN_PARALLEL_BATCH ≤ s.nextBatch.length)) =
      false := by
    simp [h.pool]
  rw [Loop.beginBatch, if_neg (by simp [hpool])]
  exact ⟨h.pool, h.mode, rfl⟩

theorem NoPool.advance (h : NoPool s) : NoPool (s.advance setup) := by
  simp only [Loop.advance]
  split
  · exact ⟨h.pool, h.nextMode, h.nextMode⟩
  · exact ⟨h.pool, h.nextMode, h.nextMode⟩

theorem NoPool.endTurn (h : NoPool s) (deferredCount : Nat) :
    NoPool (s.endTurn setup deferredCount) := by
  simp only [Loop.endTurn]
  split
  · split
    · exact ⟨h.pool, h.mode, h.nextMode⟩
    · exact NoPool.advance ⟨h.pool, h.mode, h.nextMode⟩
  · exact h.advance

theorem NoPool.main (h : NoPool s) (ht : s.main setup = some t) : NoPool t := by
  unfold Loop.main at ht
  split at ht
  case h_1 =>
    rw [h.mode] at ht
    cases ht
    exact ⟨h.pool, rfl, h.nextMode⟩
  case h_5 =>
    simp only [h.pool, reduceCtorEq, if_false] at ht
    cases ht
    exact ⟨rfl, h.mode, h.nextMode⟩
  case h_7 =>
    cases ht
    have hbegin := h.beginBatch
    exact ⟨hbegin.pool, hbegin.mode, hbegin.nextMode⟩
  case h_11 =>
    cases ht
    apply NoPool.endTurn
    exact ⟨h.pool, h.mode, h.nextMode⟩
  case h_12 => cases ht
  all_goals
    cases ht
    exact ⟨h.pool, h.mode, h.nextMode⟩

theorem NoPool.step (h : NoPool s) {label : Label}
    (ht : Loop.step setup.sequentially s label = some t) : NoPool t := by
  cases label with
  | main => exact h.main ht
  | engage created =>
      simp only [Loop.step, Setup.sequentially] at ht
      split at ht
      · simp at ht
      · cases ht
  | recycle recycled =>
      simp only [Loop.step, h.pool] at ht
      split at ht
      · simp at ht
      · cases ht
  | poolReady => simp [Loop.step, h.pool] at ht
  | poolFails => simp [Loop.step, h.pool] at ht
  | work index =>
      obtain ⟨chunk, -, hwork⟩ := Option.bind_eq_some_iff.mp ht
      cases htodo : chunk.todo with
      | nil => simp [htodo] at hwork
      | cons raw todo =>
          simp only [htodo, Option.some.injEq] at hwork
          rw [← hwork]
          exact ⟨h.pool, h.mode, h.nextMode⟩
  | reject index =>
      obtain ⟨chunk, -, hreject⟩ := Option.bind_eq_some_iff.mp ht
      split at hreject
      · cases hreject
      · cases hreject
        exact ⟨h.pool, h.mode, h.nextMode⟩

theorem noPool_start (input : Input) (created : Bool) :
    NoPool (start setup.sequentially input created) := by
  unfold start
  apply NoPool.advance
  apply NoPool.beginBatch
  exact ⟨rfl, rfl, rfl⟩

/-! ## Every run -/

theorem always_agrees (setup : Setup) (input : Input) (created : Bool) (labels : List Label) :
    (Loop.step setup).Always (fun s => ((Loop.step setup).Stuck s → s.stage = .finished) ∧
      (s.stage = .finished → s.session = setup.sequential input))
      (start setup input created) labels := by
  let Inv : Loop → Prop := fun s =>
    s.Coherent setup ∧ s.outcome setup = setup.sequential input
  refine Machine.always_of_invariant (I := Inv) ?_ ?_ (start_spec created) labels
  · rintro s label t ⟨hcoherent, houtcome⟩ ht
    have hstep := hcoherent.step ht
    exact ⟨hstep.coherent, hstep.outcome.trans houtcome⟩
  · rintro s ⟨hcoherent, houtcome⟩
    refine ⟨finished_of_stuck, fun hstage => ?_⟩
    rw [hcoherent.session_of_finished hstage, houtcome]

theorem reaches_sequential (setup : Setup) (input : Input) (created : Bool) :
    ∃ t, (Loop.step setup).Reaches (start setup input created) t ∧ t.stage = .finished ∧
      t.session = setup.sequential input := by
  have hcoherent : (start setup input created).Coherent setup := (start_spec created).1
  obtain ⟨t, ⟨labels, hrun⟩, hstuck⟩ := hcoherent.halts.reaches_stuck
  have hlast := (always_agrees setup input created labels).last hrun
  have hfinished := hlast.1 hstuck
  exact ⟨t, ⟨labels, hrun⟩, hfinished, hlast.2 hfinished⟩

/-- Every run of the loop stops. Where it stops the batches have been admitted to the last one,
with the transactions, tables and deferred queues of a run without a pool, which resolves every
batch in sequence. -/
theorem batched_sequential (setup : Setup) (input : Input) (created : Bool)
    (labels : List Label) :
    (Loop.step setup).Halts (start setup input created) ∧
      (Loop.step setup).Always (fun s => ((Loop.step setup).Stuck s → s.stage = .finished) ∧
        (s.stage = .finished → s.session = setup.sequential input))
        (start setup input created) labels ∧
      (Loop.step setup.sequentially).Always (fun s => s.mode = .seq)
        (start setup.sequentially input created) labels ∧
      (∃ t, (Loop.step setup.sequentially).Reaches (start setup.sequentially input created) t ∧
        t.stage = .finished ∧ t.session = setup.sequential input) ∧
      AttemptedInOrder input.refs.rows (setup.sequential input).attempted := by
  refine ⟨(start_spec created).1.halts, always_agrees setup input created labels, ?_, ?_,
    sequential_attempted input⟩
  · exact Machine.always_of_invariant (fun s label t h ht => NoPool.step h ht)
      (fun s h => h.mode) (noPool_start input created) labels
  · exact reaches_sequential setup.sequentially input created

end Loop

end AfyxGraph.Resolution
