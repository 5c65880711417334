import AfyxGraph.Resolution.Batched

/-! # The batches in sequence

What the loop comes to when every batch is resolved on the main thread and admitted before the
next one is begun. The answer that the pool puts together from its chunks is the one the main
thread gives.
-/

namespace AfyxGraph.Resolution

open AfyxGraph.Core

/-! ## The meaning of the loop -/

namespace Setup

variable (setup : Setup)

/-- All references of a batch, resolved on the main thread. -/
def attemptAll (s : Session) (r : ResolutionResult) (batch : List RefRow) :
    Session × ResolutionResult :=
  batch.foldl (fun p raw => setup.attempt p.1 p.2 raw) (s, r)

def resolveListForAdmission (edges : List Edge) (refs : List RefRow) : ChunkResult :=
  refs.foldl (setup.attemptForAdmission edges) .empty

def writeAll (s : Session) (writes : List Write) : Session :=
  writes.foldl (Session.write setup.getNodeById) s

def admitFailures (s : Session) (result : ResolutionResult) (batch : List RefRow) : Session :=
  (setup.writeAll s (parkWrites (s.nonDeferredFailures result.unresolved))).aggregate result batch

def admitResult (s : Session) (result : ResolutionResult) (batch : List RefRow) : Session :=
  let s := setup.writeAll s (edgeWrites setup result)
  let s := setup.writeAll s (deleteWrites result)
  setup.admitFailures s result batch

def admitBatch (s : Session) (batch : List RefRow) : Session :=
  let (s, result) := setup.attemptAll s .empty batch
  setup.admitResult s result batch

end Setup

/-- The rows of a phase behind a row id. -/
def pendingRows (refs : List RefRow) (afterRowId : Nat) (prerequisites : Bool) : List RefRow :=
  refs.filter fun row =>
    row.isPending && decide (afterRowId < row.id) && row.isPrerequisite == prerequisites

/-- The batches that are still to be read. -/
def batchesAhead (refs : List RefRow) (batchSize : Nat) (c : Cursor) : List (List RefRow) :=
  if c.prerequisites then
    slices batchSize (pendingRows refs c.afterRowId true) ++
      slices batchSize (pendingRows refs 0 false)
  else slices batchSize (pendingRows refs c.afterRowId false)

/-- The run in which every batch is resolved in sequence. -/
def Setup.sequential (setup : Setup) (input : Loop.Input) : Session :=
  (batchesAhead input.refs.rows setup.batchSize ⟨true, 0⟩).foldl setup.admitBatch input.session

/-! ## Slices -/

section Slices

variable {α : Type} {size : Nat}

theorem slicesFuel_fuel (hsize : 0 < size) : ∀ (fuel more : Nat) (rows : List α),
    rows.length ≤ fuel → rows.length ≤ more →
    Admission.slicesFuel size fuel rows = Admission.slicesFuel size more rows := by
  intro fuel
  induction fuel with
  | zero =>
      intro more rows h _
      obtain rfl : rows = [] := by simpa using h
      cases more <;> rfl
  | succ fuel ih =>
      intro more rows h hmore
      cases rows with
      | nil => cases more <;> rfl
      | cons row rows =>
          cases more with
          | zero => simp at hmore
          | succ more =>
              have hlength : ((row :: rows).drop size).length ≤ rows.length := by
                simp only [List.length_drop, List.length_cons]
                omega
              simp only [List.length_cons] at h hmore
              rw [Admission.slicesFuel, Admission.slicesFuel,
                ih more _ (by omega) (by omega)]
              · simp
              · simp

@[simp] theorem slices_nil : slices size ([] : List α) = [] := rfl

theorem slices_of_ne_nil (hsize : 0 < size) {rows : List α} (h : rows ≠ []) :
    slices size rows = rows.take size :: slices size (rows.drop size) := by
  cases rows with
  | nil => exact absurd rfl h
  | cons row rows =>
      have hlength : ((row :: rows).drop size).length ≤ rows.length := by
        simp only [List.length_drop, List.length_cons]
        omega
      unfold slices
      rw [List.length_cons, Admission.slicesFuel,
        slicesFuel_fuel hsize rows.length _ _ hlength (Nat.le_refl _)]
      simp

theorem slices_flatten (hsize : 0 < size) (rows : List α) : (slices size rows).flatten = rows :=
  Admission.slicesFuel_flatten hsize (Nat.le_refl _)

theorem mem_of_mem_slices (hsize : 0 < size) {rows slice : List α} {row : α}
    (hslice : slice ∈ slices size rows) (hrow : row ∈ slice) : row ∈ rows := by
  rw [← slices_flatten hsize rows]
  exact List.mem_flatten_of_mem hslice hrow

end Slices

/-! ## The pool answers as the main thread -/

section Pool

variable {setup : Setup}

theorem ChunkResult.append_empty (out : ChunkResult) : out.append .empty = out := by
  simp [ChunkResult.append, ChunkResult.empty, ResolutionResult.empty]

theorem append_attemptForAdmission (edges : List Edge) (out c : ChunkResult) (raw : RefRow) :
    out.append (setup.attemptForAdmission edges c raw) =
      setup.attemptForAdmission edges (out.append c) raw := by
  unfold Setup.attemptForAdmission
  cases hverdict : setup.resolver.resolveOne edges (setup.toRef raw) <;>
    simp [hverdict, ChunkResult.append, ResolutionResult.resolve, ResolutionResult.fail, Counts.merge_add]

/-- To add the answer for a chunk is to go on with its references. -/
theorem append_resolveListForAdmission (edges : List Edge) (out : ChunkResult)
    (refs : List RefRow) : out.append (setup.resolveListForAdmission edges refs) =
      refs.foldl (setup.attemptForAdmission edges) out := by
  induction refs using List.reverseRecOn with
  | nil => exact out.append_empty
  | append_singleton refs raw ih =>
      rw [Setup.resolveListForAdmission, List.foldl_append, List.foldl_append, ← ih]
      exact append_attemptForAdmission edges out _ raw

theorem append_chunks (edges : List Edge) (out : ChunkResult) (parts : List (List RefRow)) :
    (parts.map (setup.resolveListForAdmission edges)).foldl ChunkResult.append out =
      parts.flatten.foldl (setup.attemptForAdmission edges) out := by
  induction parts generalizing out with
  | nil => rfl
  | cons refs parts ih =>
      rw [List.map_cons, List.foldl_cons, append_resolveListForAdmission, ih,
        List.flatten_cons, List.foldl_append]

def rowIdsOf (refs : List UnresolvedRef) : Finset Nat := (refs.filterMap (·.rowId)).toFinset

/-- The session behind an answer for the rows with these ids. -/
def Session.settle (s : Session) (out : ChunkResult) (rowIds : List Nat) : Session :=
  { s with
    deferredChainRefs := s.deferredChainRefs ++ out.deferredChain
    deferredThisMemberRefs := s.deferredThisMemberRefs ++ out.deferredThisMember
    deferredRowIds :=
      s.deferredRowIds ∪ (rowIdsOf out.deferredChain ∪ rowIdsOf out.deferredThisMember)
    attempted := s.attempted ++ rowIds }

theorem rowIdsOf_append (refs : List UnresolvedRef) (ref : UnresolvedRef) :
    rowIdsOf (refs ++ [ref]) = rowIdsOf refs ∪ ref.rowId.toFinset := by
  ext id
  cases hid : ref.rowId <;> simp [rowIdsOf, hid]

theorem Session.settle_empty (s : Session) : s.settle .empty [] = s := by
  simp [Session.settle, ChunkResult.empty, rowIdsOf]

theorem foldl_deferChain (s : Session) (refs : List UnresolvedRef) :
    refs.foldl Session.deferChain s =
      { s with
        deferredChainRefs := s.deferredChainRefs ++ refs
        deferredRowIds := s.deferredRowIds ∪ rowIdsOf refs } := by
  induction refs using List.reverseRecOn with
  | nil => simp [rowIdsOf]
  | append_singleton refs ref ih =>
      simp [List.foldl_append, ih, Session.deferChain, rowIdsOf_append, Finset.union_assoc]

theorem foldl_deferThisMember (s : Session) (refs : List UnresolvedRef) :
    refs.foldl Session.deferThisMember s =
      { s with
        deferredThisMemberRefs := s.deferredThisMemberRefs ++ refs
        deferredRowIds := s.deferredRowIds ∪ rowIdsOf refs } := by
  induction refs using List.reverseRecOn with
  | nil => simp [rowIdsOf]
  | append_singleton refs ref ih =>
      simp [List.foldl_append, ih, Session.deferThisMember, rowIdsOf_append, Finset.union_assoc]

theorem appendDeferredFromWorkers_eq (s : Session) (out : ChunkResult) (rowIds : List Nat) :
    { s.appendDeferredFromWorkers out.deferredChain out.deferredThisMember with
      attempted := (s.appendDeferredFromWorkers out.deferredChain
        out.deferredThisMember).attempted ++ rowIds } = s.settle out rowIds := by
  unfold Session.appendDeferredFromWorkers
  rw [foldl_deferChain, foldl_deferThisMember]
  simp [Session.settle, Finset.union_assoc]

/-- One reference on the main thread and on a worker. -/
theorem attempt_settle (s : Session) (out : ChunkResult) (rowIds : List Nat) (raw : RefRow) :
    setup.attempt (s.settle out rowIds) out.toResolutionResult raw =
      (s.settle (setup.attemptForAdmission s.edges out raw) (rowIds ++ [raw.id]),
        (setup.attemptForAdmission s.edges out raw).toResolutionResult) := by
  unfold Setup.attempt Setup.attemptForAdmission
  cases hverdict : setup.resolver.resolveOne s.edges (setup.toRef raw) with
  | deferredChain =>
      simp [hverdict, Session.settle, Session.deferChain, ResolutionResult.fail, rowIdsOf_append,
        Finset.union_assoc, Finset.union_comm, Finset.union_left_comm]
  | deferredThisMember =>
      simp [hverdict, Session.settle, Session.deferThisMember, ResolutionResult.fail, rowIdsOf_append,
        Finset.union_assoc]
  | _ => simp [hverdict, Session.settle, ResolutionResult.resolve, ResolutionResult.fail]

variable (setup) in
theorem attemptAll_settle (s : Session) (out : ChunkResult) (rowIds : List Nat)
    (batch : List RefRow) : setup.attemptAll (s.settle out rowIds) out.toResolutionResult batch =
      (s.settle (batch.foldl (setup.attemptForAdmission s.edges) out)
          (rowIds ++ batch.map (·.id)),
        (batch.foldl (setup.attemptForAdmission s.edges) out).toResolutionResult) := by
  unfold Setup.attemptAll
  induction batch generalizing out rowIds with
  | nil => simp
  | cons raw batch ih =>
      rw [List.foldl_cons, attempt_settle, ih]
      simp

variable (setup) in
/-- A batch that the pool has answered is where the main thread would have come to. -/
theorem attemptAll_eq_settle (s : Session) (parts : List (List RefRow)) :
    setup.attemptAll s .empty parts.flatten =
      (s.settle ((parts.map (setup.resolveListForAdmission s.edges)).foldl ChunkResult.append
          .empty) (parts.flatten.map (·.id)),
        ((parts.map (setup.resolveListForAdmission s.edges)).foldl ChunkResult.append
          .empty).toResolutionResult) := by
  have h := attemptAll_settle setup s .empty [] parts.flatten
  rw [s.settle_empty] at h
  rw [append_chunks]
  exact h

end Pool

end AfyxGraph.Resolution
