import AfyxGraph.Resolution.Cleanup
import Mathlib.Algebra.GroupWithZero.Nat
import Mathlib.Data.Prod.Lex

/-! # The outcome of the loop

A state of the loop has an outcome: the session that is left when the current batch and those
ahead are settled in sequence. Here is what a step within a turn has to show, and what the step
from one turn to the next one does.
-/

namespace AfyxGraph.Resolution

open AfyxGraph.Core

/-- Stages to come in a turn, and the length of the list that the stage works off. -/
def Stage.progress : Stage → ℕ ×ₗ ℕ
  | .settling => toLex (7, 0)
  | .resolving todo _ => toLex (6, todo.length)
  | .engaging _ => toLex (5, 0)
  | .recycling _ => toLex (4, 0)
  | .inserting _ todo => toLex (3, todo.length)
  | .deleting _ todo => toLex (2, todo.length)
  | .parking _ _ todo => toLex (1, todo.length)
  | .finished => toLex (0, 0)

namespace Loop

/-! ## Outcome -/

section Outcome

variable (setup : Setup) (s : Loop)

/-- The batches behind the current one. -/
def ahead : List (List RefRow) :=
  if s.nextBatch = [] then []
  else s.nextBatch :: batchesAhead s.session.refs setup.batchSize s.cursor

/-- The session once the current batch is settled. -/
def completion : Session :=
  match s.stage with
  | .settling => setup.admitBatch s.session s.batch
  | .resolving todo result =>
      let (session, result) := setup.attemptAll s.session result todo
      setup.admitResult session result s.batch
  | .engaging result | .recycling result => setup.admitResult s.session result s.batch
  | .inserting result todo =>
      let session := setup.writeAll s.session todo
      setup.admitFailures (setup.writeAll session (deleteWrites result)) result s.batch
  | .deleting result todo => setup.admitFailures (setup.writeAll s.session todo) result s.batch
  | .parking result _ todo => (setup.writeAll s.session todo).aggregate result s.batch
  | .finished => s.session

def outcome : Session := (s.ahead setup).foldl setup.admitBatch (s.completion setup)

/-! ## Coherence -/

def rowIds : List Nat := s.batch.map (·.id)

/-- The chunks are the batch, each answered up to where its worker is. -/
structure FannedOut (batch : List RefRow) : Prop where
  flatten : (s.chunks.map (·.refs)).flatten = batch
  answered : ∀ c ∈ s.chunks, ∃ done, c.refs = done ++ c.todo ∧
    c.out = setup.resolveListForAdmission s.session.edges done

/-- The first of these transactions changes a row. -/
def Effective (todo : List Write) : Prop :=
  ∃ w writes, todo = w :: writes ∧ 0 < s.session.changes setup.getNodeById w

/-- What a stage relies on; the last parts are why the guard at the end of a turn is never
needed. -/
def StageOk : Prop :=
  match s.stage with
  | .settling =>
      (s.mode = .pool → s.FannedOut setup s.batch) ∧ Present s.session.refs s.rowIds
  | .resolving todo result =>
      Present s.session.refs s.rowIds ∧
        ∃ done, s.batch = done ++ todo ∧ Answers (done.map (·.id)) result
  | .engaging result | .recycling result =>
      Present s.session.refs s.rowIds ∧ Answers s.rowIds result
  | .inserting result todo =>
      Present s.session.refs s.rowIds ∧ Answers s.rowIds result ∧ ∀ w ∈ todo, Touches [] w
  | .deleting result todo =>
      (s.nextMode = .pool → s.FannedOut setup s.nextBatch) ∧ Answers s.rowIds result ∧
        (∀ w ∈ todo, Cleans s.rowIds w) ∧
        (0 < s.removedThisBatch ∨ s.Effective setup todo ∨
          todo = [] ∧ result.resolved = [] ∧ Present s.session.refs s.rowIds)
  | .parking _ deferredCount todo =>
      (s.nextMode = .pool → s.FannedOut setup s.nextBatch) ∧
        (∀ w ∈ todo, Cleans s.rowIds w) ∧
        (0 < s.removedThisBatch + deferredCount ∨ s.Effective setup todo)
  | .finished => True

structure Coherent : Prop where
  sorted : Sorted s.session.refs
  present : Present s.session.refs (s.nextBatch.map (·.id))
  nodup : ((s.batch ++ (s.ahead setup).flatten).map (·.id)).Nodup
  running : s.stage ≠ .finished → s.batch ≠ []
  finished : s.stage = .finished → s.nextBatch = []
  stage : s.StageOk setup

end Outcome

/-! ## The measure -/

/-- What the pool can still do before the main thread goes on. -/
def poolEvents (s : Loop) : Nat :=
  (if s.pool = some .booting then 1 else 0) +
    (s.chunks.map fun c => c.todo.length + if c.rejected then 0 else 1).sum

def turns (setup : Setup) (s : Loop) : Nat :=
  (s.ahead setup).length + if s.stage = .finished then 0 else 1

def measure (setup : Setup) (s : Loop) : ℕ ×ₗ (ℕ ×ₗ ℕ) ×ₗ ℕ :=
  toLex (s.turns setup, toLex (s.stage.progress, s.poolEvents))

/-- A step of a run: it keeps the outcome and gets closer to the end. -/
structure Advances (setup : Setup) (s t : Loop) : Prop where
  coherent : t.Coherent setup
  outcome : t.outcome setup = s.outcome setup
  measure : t.measure setup < s.measure setup

/-! ## Within a turn -/

variable {setup : Setup} {s t : Loop}

theorem FannedOut.congr {batch : List RefRow} (h : s.FannedOut setup batch)
    (hchunks : t.chunks = s.chunks) (hedges : t.session.edges = s.session.edges) :
    t.FannedOut setup batch where
  flatten := hchunks ▸ h.flatten
  answered c hc := by
    rw [hedges]
    exact h.answered c (hchunks ▸ hc)

/-- The two states are in the same turn, with the same batches ahead. -/
structure SameTurn (setup : Setup) (s t : Loop) : Prop where
  sorted : Sorted t.session.refs
  present : Present t.session.refs (t.nextBatch.map (·.id))
  batch : t.batch = s.batch
  ahead : t.ahead setup = s.ahead setup

theorem Coherent.sameTurn (h : s.Coherent setup) (hrefs : t.session.refs = s.session.refs)
    (hbatch : t.batch = s.batch) (hnext : t.nextBatch = s.nextBatch)
    (hcursor : t.cursor = s.cursor) : SameTurn setup s t where
  sorted := hrefs ▸ h.sorted
  present := by
    rw [hrefs, hnext]
    exact h.present
  batch := hbatch
  ahead := by rw [Loop.ahead, Loop.ahead, hrefs, hnext, hcursor]

theorem present_write {w : Write} {rowIds ids : List Nat} {store : Store}
    {getNodeById : String → Option Extraction.Node} (hw : Touches rowIds w)
    (h : Present store.refs ids) (hids : ∀ id ∈ ids, id ∉ rowIds) :
    Present (store.write getNodeById w).1.refs ids := by
  intro id hid
  obtain ⟨row, hrow, rfl⟩ := h id hid
  exact ⟨row, mem_write hw hrow (hids row.id hid), rfl⟩

/-- The rows ahead are not of the current batch. -/
theorem Coherent.not_mem_rowIds (h : s.Coherent setup) {batch : List RefRow} {row : RefRow}
    (hbatch : batch ∈ s.ahead setup) (hrow : row ∈ batch) : row.id ∉ s.rowIds := by
  have hnodup := h.nodup
  rw [List.map_append, List.nodup_append] at hnodup
  intro hid
  exact hnodup.2.2 row.id hid row.id
    (List.mem_map_of_mem (List.mem_flatten_of_mem hbatch hrow)) rfl

theorem mem_ahead_of_nextBatch (hnext : s.nextBatch ≠ []) : s.nextBatch ∈ s.ahead setup := by
  rw [Loop.ahead, if_neg hnext]
  exact List.mem_cons_self ..

theorem Coherent.nextBatch_not_mem_rowIds (h : s.Coherent setup) {id : Nat}
    (hid : id ∈ s.nextBatch.map (·.id)) : id ∉ s.rowIds := by
  obtain ⟨row, hrow, rfl⟩ := List.mem_map.mp hid
  exact h.not_mem_rowIds (mem_ahead_of_nextBatch (List.ne_nil_of_mem hrow)) hrow

/-- A transaction for the current batch keeps what is ahead. -/
theorem Coherent.sameTurn_write (h : s.Coherent setup) {w : Write} (hw : Touches s.rowIds w)
    (hsession : t.session.toStore = (s.session.toStore.write setup.getNodeById w).1)
    (hbatch : t.batch = s.batch) (hnext : t.nextBatch = s.nextBatch)
    (hcursor : t.cursor = s.cursor) : SameTurn setup s t where
  sorted := by
    rw [hsession]
    exact sorted_write h.sorted w
  present := by
    rw [hsession, hnext]
    exact present_write hw h.present fun id hid => h.nextBatch_not_mem_rowIds hid
  batch := hbatch
  ahead := by
    rw [Loop.ahead, Loop.ahead, hsession, hnext, hcursor]
    by_cases hnil : s.nextBatch = []
    · rw [if_pos hnil, if_pos hnil]
    · rw [if_neg hnil, if_neg hnil, batchesAhead_write setup.batchSize_pos hw]
      intro batch hbatch row hrow
      apply h.not_mem_rowIds _ hrow
      rw [Loop.ahead, if_neg hnil]
      exact List.mem_cons_of_mem _ hbatch

theorem Touches.of_nil {rowIds : List Nat} {w : Write} (h : Touches [] w) : Touches rowIds w := by
  cases w with
  | insertEdges => trivial
  | deleteReferencesByRowIds ids => exact fun id hid => absurd (h id hid) (List.not_mem_nil)
  | deleteSpecificResolvedReferences => exact h
  | markReferencesFailedByRowIds marks => exact fun m hm => absurd (h m hm) (List.not_mem_nil)
  | markReferencesFailed => exact h

/-- What is left to show of a step that stays in the turn. -/
theorem Coherent.advances (h : s.Coherent setup) (hturn : SameTurn setup s t)
    (hs : s.stage ≠ .finished) (ht : t.stage ≠ .finished) (hstage : t.StageOk setup)
    (hcompletion : t.completion setup = s.completion setup)
    (hprogress : t.stage.progress < s.stage.progress) : Advances setup s t where
  coherent :=
    { sorted := hturn.sorted
      present := hturn.present
      nodup := by
        rw [hturn.batch, hturn.ahead]
        exact h.nodup
      running _ := by
        rw [hturn.batch]
        exact h.running hs
      finished hfinished := absurd hfinished ht
      stage := hstage }
  outcome := by rw [Loop.outcome, Loop.outcome, hturn.ahead, hcompletion]
  measure := by
    have hturns : t.turns setup = s.turns setup := by
      rw [Loop.turns, Loop.turns, hturn.ahead, if_neg hs, if_neg ht]
    apply Prod.Lex.toLex_lt_toLex.mpr
    apply Or.inr
    refine ⟨hturns, ?_⟩
    apply Prod.Lex.toLex_lt_toLex.mpr
    exact Or.inl hprogress

/-! ## Between two turns -/

/-- What holds where the next batch becomes the current one. -/
structure AtTurn (setup : Setup) (s : Loop) : Prop where
  sorted : Sorted s.session.refs
  present : Present s.session.refs (s.nextBatch.map (·.id))
  nodup : ((s.ahead setup).flatten.map (·.id)).Nodup
  fannedOut : s.nextMode = .pool → s.FannedOut setup s.nextBatch

theorem mem_readNextBatch {refs : List RefRow} {batchSize : Nat} {c : Cursor} {row : RefRow}
    (hrow : row ∈ (readNextBatch refs batchSize c).1) : row ∈ refs := by
  simp only [readNextBatch] at hrow
  split at hrow
  · exact List.mem_of_mem_filter (List.mem_of_mem_take hrow)
  · exact List.mem_of_mem_filter (List.mem_of_mem_take hrow)

theorem present_of_mem {refs rows : List RefRow} (h : ∀ row ∈ rows, row ∈ refs) :
    Present refs (rows.map (·.id)) := by
  intro id hid
  obtain ⟨row, hrow, rfl⟩ := List.mem_map.mp hid
  exact ⟨row, h row hrow, rfl⟩

theorem ahead_read (h : Sorted s.session.refs) : (s.read setup).ahead setup =
    batchesAhead s.session.refs setup.batchSize s.cursor := by
  show (if (readNextBatch _ _ _).1 = [] then _ else _) = _
  rcases readNextBatch_spec setup.batchSize_pos h with ⟨hnil, hold, -⟩ | ⟨hne, hold⟩
  · rw [if_pos hnil, hold]
  · rw [if_neg hne, hold]
    rfl

/-- The next batch is the current one, and the batches behind it are ahead. -/
theorem AtTurn.advance (h : AtTurn setup s) : (s.advance setup).Coherent setup ∧
    (s.advance setup).outcome setup = (s.ahead setup).foldl setup.admitBatch s.session ∧
    (s.advance setup).turns setup < (s.ahead setup).length + 1 := by
  by_cases hnil : s.nextBatch = []
  · have hadvance : s.advance setup =
        { s with batch := [], mode := s.nextMode, stage := .finished } := by
      simp only [Loop.advance, hnil, if_true]
    have hahead : s.ahead setup = [] := by rw [Loop.ahead, if_pos hnil]
    have hahead' : (s.advance setup).ahead setup = [] := by
      rw [hadvance]
      exact hahead
    refine ⟨?_, ?_, ?_⟩
    · rw [hadvance]
      exact {
        sorted := h.sorted
        present := h.present
        nodup := by
          show (([] ++ (s.ahead setup).flatten).map _).Nodup
          rw [hahead]
          exact List.nodup_nil
        running := fun hrunning => absurd rfl hrunning
        finished := fun _ => hnil
        stage := trivial }
    · rw [Loop.outcome, hahead', hahead, hadvance]
      rfl
    · rw [Loop.turns, hahead', hahead, hadvance]
      simp
  · have hadvance : s.advance setup = { Loop.read setup
        { s with batch := s.nextBatch, mode := s.nextMode } with stage := .settling } := by
      simp only [Loop.advance, if_neg hnil]
    have hread : (s.read setup).ahead setup =
        batchesAhead s.session.refs setup.batchSize s.cursor := ahead_read h.sorted
    have hahead' : (s.advance setup).ahead setup =
        batchesAhead s.session.refs setup.batchSize s.cursor := by
      rw [hadvance]
      exact hread
    have hahead : s.ahead setup = s.nextBatch :: (s.advance setup).ahead setup := by
      rw [Loop.ahead, if_neg hnil, hahead']
    have hnodup := h.nodup
    rw [hahead, List.flatten_cons] at hnodup
    refine ⟨?_, ?_, ?_⟩
    · rw [hadvance] at hnodup ⊢
      exact {
        sorted := h.sorted
        present := present_of_mem fun row hrow => mem_readNextBatch hrow
        nodup := hnodup
        running := fun _ => hnil
        finished := fun hfinished => nomatch hfinished
        stage := ⟨fun hmode => (h.fannedOut hmode).congr rfl rfl, h.present⟩ }
    · rw [hahead, Loop.outcome, List.foldl_cons, hadvance]
      rfl
    · rw [hahead, Loop.turns, hadvance]
      simp

end Loop

end AfyxGraph.Resolution
