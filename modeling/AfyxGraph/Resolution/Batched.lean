import AfyxGraph.Core.Transition
import AfyxGraph.Resolution.Admission

/-! # Batched resolution

The loop of `resolveAndPersistBatched` as a machine. A step of the main thread goes no further
than to the next transaction or the next reference; between two steps the pool becomes ready
or fails to boot, workers attempt references of their chunks in any order, and chunks are
rejected. Workers read the edges that are committed when they attempt a reference.
-/

namespace AfyxGraph.Resolution

open AfyxGraph.Core
open Extraction (NodeKind EdgeKind Language Node)

/-! ## State -/

structure Stats where
  total : Nat
  resolved : Nat
  unresolved : Nat
  byMethod : Counts ResolvedBy
  deriving DecidableEq

/-- The database and the resolver of the main thread. `log` has the transactions of the loop,
`attempted` the rows whose answer was admitted. -/
structure Session extends Store where
  deferredChainRefs : List UnresolvedRef
  deferredThisMemberRefs : List UnresolvedRef
  deferredRowIds : Finset Nat
  stats : Stats
  log : List Write
  attempted : List Nat
  deriving DecidableEq

structure ResolutionResult where
  resolved : List ResolvedRef
  unresolved : List UnresolvedRef
  byMethod : Counts ResolvedBy
  deriving DecidableEq

structure ChunkResult extends ResolutionResult where
  deferredChain : List UnresolvedRef
  deferredThisMember : List UnresolvedRef
  deriving DecidableEq

def ResolutionResult.empty : ResolutionResult := ⟨[], [], []⟩

def ChunkResult.empty : ChunkResult := ⟨.empty, [], []⟩

structure Setup where
  resolver : Resolver
  getNodeById : String → Option Node
  batchSize : Nat
  batchSize_pos : 0 < batchSize
  /-- The caller has given the parameter `parallel`. -/
  parallel : Bool
  minRefsForPool : Nat

inductive Pool where
  | booting
  | ready
  deriving DecidableEq, Repr

/-- The part of a batch that one worker has: the references posted to it, those it still has to
attempt, and its answer so far. -/
structure Chunk where
  refs : List RefRow
  todo : List RefRow
  out : ChunkResult
  rejected : Bool
  deriving DecidableEq

inductive Mode where
  | pool
  | seq
  deriving DecidableEq, Repr

inductive Stage where
  | settling
  | resolving (todo : List RefRow) (result : ResolutionResult)
  | engaging (result : ResolutionResult)
  | recycling (result : ResolutionResult)
  | inserting (result : ResolutionResult) (todo : List Write)
  | deleting (result : ResolutionResult) (todo : List Write)
  | parking (result : ResolutionResult) (deferredCount : Nat) (todo : List Write)
  | finished
  deriving DecidableEq

structure Cursor where
  prerequisites : Bool
  afterRowId : Nat
  deriving DecidableEq, Repr

/-- `chunks` is what the pool has been given last; no `prevRemaining` is infinity. -/
structure Loop where
  session : Session
  pool : Option Pool
  poolEngageTried : Bool
  batchesSinceRecycle : Nat
  chunks : List Chunk
  cursor : Cursor
  batch : List RefRow
  mode : Mode
  nextBatch : List RefRow
  nextMode : Mode
  stage : Stage
  removedThisBatch : Nat
  prevRemaining : Option Nat
  deriving DecidableEq

def CHUNK_SIZE : Nat := 500
def MIN_PARALLEL_BATCH : Nat := 1000
def PERSIST_CHUNK : Nat := 1000
def RECYCLE_EVERY_BATCHES : Nat := 8

/-- The slices of a loop over offsets. -/
def slices {α : Type} (size : Nat) (rows : List α) : List (List α) :=
  Admission.slicesFuel size rows.length rows

namespace Setup

variable (setup : Setup)

/-! ## Attempts -/

def getFilePathFromNodeId (nodeId : String) : String :=
  ((setup.getNodeById nodeId).map (·.filePath)).getD ""

def toRef (raw : RefRow) : UnresolvedRef where
  fromNodeId := raw.fromNodeId
  referenceName := raw.referenceName
  referenceKind := raw.referenceKind
  line := raw.line
  column := raw.column
  filePath :=
    if raw.filePath = "" then setup.getFilePathFromNodeId raw.fromNodeId else raw.filePath
  language := raw.language
  rowId := some raw.id

end Setup

def ResolutionResult.resolve (r : ResolutionResult) (found : ResolvedRef) : ResolutionResult :=
  { r with
    resolved := r.resolved ++ [found]
    byMethod := r.byMethod.add found.resolvedBy 1 }

def ResolutionResult.fail (r : ResolutionResult) (ref : UnresolvedRef) : ResolutionResult :=
  { r with unresolved := r.unresolved ++ [ref] }

def Session.deferChain (s : Session) (ref : UnresolvedRef) : Session :=
  { s with
    deferredChainRefs := s.deferredChainRefs ++ [ref]
    deferredRowIds := s.deferredRowIds ∪ ref.rowId.toFinset }

def Session.deferThisMember (s : Session) (ref : UnresolvedRef) : Session :=
  { s with
    deferredThisMemberRefs := s.deferredThisMemberRefs ++ [ref]
    deferredRowIds := s.deferredRowIds ∪ ref.rowId.toFinset }

namespace Setup

variable (setup : Setup)

/-- The body of the loop of `resolveBatchYielding`. -/
def attempt (s : Session) (r : ResolutionResult) (raw : RefRow) : Session × ResolutionResult :=
  let ref := setup.toRef raw
  let s := { s with attempted := s.attempted ++ [raw.id] }
  match setup.resolver.resolveOne s.edges ref with
  | .resolved found => (s, r.resolve found)
  | .failed => (s, r.fail ref)
  | .deferredChain => (s.deferChain ref, r.fail ref)
  | .deferredThisMember => (s.deferThisMember ref, r.fail ref)

/-- The body of the loop of `resolveListForAdmission`. -/
def attemptForAdmission (edges : List Edge) (out : ChunkResult) (raw : RefRow) : ChunkResult :=
  let ref := setup.toRef raw
  match setup.resolver.resolveOne edges ref with
  | .resolved found => { out with toResolutionResult := out.toResolutionResult.resolve found }
  | .failed => { out with toResolutionResult := out.toResolutionResult.fail ref }
  | .deferredChain =>
      { out with
        toResolutionResult := out.toResolutionResult.fail ref
        deferredChain := out.deferredChain ++ [ref] }
  | .deferredThisMember =>
      { out with
        toResolutionResult := out.toResolutionResult.fail ref
        deferredThisMember := out.deferredThisMember ++ [ref] }

end Setup

/-- What `resolveBatch` adds of a chunk to its answer. -/
def ChunkResult.append (out c : ChunkResult) : ChunkResult where
  resolved := out.resolved ++ c.resolved
  unresolved := out.unresolved ++ c.unresolved
  byMethod := out.byMethod.merge c.byMethod
  deferredChain := out.deferredChain ++ c.deferredChain
  deferredThisMember := out.deferredThisMember ++ c.deferredThisMember

def Session.appendDeferredFromWorkers (s : Session)
    (deferredChain deferredThisMember : List UnresolvedRef) : Session :=
  deferredThisMember.foldl Session.deferThisMember (deferredChain.foldl Session.deferChain s)

/-! ## Admission -/

def Session.nonDeferredFailures (s : Session) (unresolved : List UnresolvedRef) :
    List UnresolvedRef :=
  unresolved.filter fun ref => ref.rowId.all (· ∉ s.deferredRowIds)

def edgeWrites (setup : Setup) (result : ResolutionResult) : List Write :=
  (slices PERSIST_CHUNK (createEdges setup.getNodeById result.resolved)).map .insertEdges

def deleteWrites (result : ResolutionResult) : List Write :=
  let settled := resolvedCleanup result.resolved
  (slices PERSIST_CHUNK settled.rowIds).map .deleteReferencesByRowIds ++
    (slices PERSIST_CHUNK settled.legacyKeys).map .deleteSpecificResolvedReferences

def parkWrites (failures : List UnresolvedRef) : List Write :=
  let failed := failedCleanup failures
  (slices PERSIST_CHUNK failed.byRowId).map .markReferencesFailedByRowIds ++
    (slices PERSIST_CHUNK failed.legacyKeys).map .markReferencesFailed

def Session.write (getNodeById : String → Option Node) (s : Session) (w : Write) : Session :=
  { s with toStore := (s.toStore.write getNodeById w).1, log := s.log ++ [w] }

def Session.changes (getNodeById : String → Option Node) (s : Session) (w : Write) : Nat :=
  (s.toStore.write getNodeById w).2

def Session.aggregate (s : Session) (result : ResolutionResult) (batch : List RefRow) : Session :=
  { s with
    stats :=
      { total := s.stats.total + batch.length
        resolved := s.stats.resolved + result.resolved.length
        unresolved := s.stats.unresolved + result.unresolved.length
        byMethod := s.stats.byMethod.merge result.byMethod } }

/-! ## The loop -/

/-- The next batch, and the cursor behind it; behind the prerequisites come the other kinds. -/
def readNextBatch (refs : List RefRow) (batchSize : Nat) (c : Cursor) : List RefRow × Cursor :=
  let next := getUnresolvedReferencesBatchAfter refs c.afterRowId batchSize c.prerequisites
  if next = [] && c.prerequisites then
    let next := getUnresolvedReferencesBatchAfter refs 0 batchSize false
    (next, ⟨false, ((next.getLast?).map (·.id)).getD 0⟩)
  else (next, ⟨c.prerequisites, ((next.getLast?).map (·.id)).getD c.afterRowId⟩)

namespace Loop

def read (setup : Setup) (s : Loop) : Loop :=
  let (next, cursor) := readNextBatch s.session.refs setup.batchSize s.cursor
  { s with nextBatch := next, cursor := cursor }

/-- What is begun here is the batch after the current one. -/
def beginBatch (s : Loop) : Loop :=
  if s.pool = some .ready && MIN_PARALLEL_BATCH ≤ s.nextBatch.length then
    { s with
      nextMode := .pool
      chunks := (slices CHUNK_SIZE s.nextBatch).map fun refs => ⟨refs, refs, .empty, false⟩ }
  else { s with nextMode := .seq }

/-- The head of the `while` loop, up to the settlement of the batch. -/
def advance (setup : Setup) (s : Loop) : Loop :=
  let s := { s with batch := s.nextBatch, mode := s.nextMode }
  if s.batch = [] then { s with stage := .finished }
  else { s.read setup with stage := .settling }

/-- The guard at the end of a turn. -/
def endTurn (setup : Setup) (s : Loop) (deferredCount : Nat) : Loop :=
  if s.removedThisBatch + deferredCount = 0 then
    let remaining := getUnresolvedReferencesCount s.session.refs
    if s.prevRemaining.any (· ≤ remaining) then { s with stage := .finished }
    else { s with prevRemaining := some remaining }.advance setup
  else s.advance setup

def write (setup : Setup) (s : Loop) (w : Write) : Loop :=
  { s with
    session := s.session.write setup.getNodeById w
    removedThisBatch := s.removedThisBatch + s.session.changes setup.getNodeById w }

/-- A batch that the pool has answered is admitted in the order of its chunks; one that it has
rejected is resolved again, and the pool is given up. -/
def settlePool (s : Loop) : Option Loop :=
  if s.chunks.any (·.rejected) then
    some { s with pool := none, stage := .resolving s.batch .empty }
  else if s.chunks.all (·.todo = []) then
    let out := (s.chunks.map (·.out)).foldl ChunkResult.append .empty
    let session := s.session.appendDeferredFromWorkers out.deferredChain out.deferredThisMember
    some { s with
      session := { session with attempted := session.attempted ++ s.batch.map (·.id) }
      stage := .engaging out.toResolutionResult }
  else none

def main (setup : Setup) (s : Loop) : Option Loop :=
  match s.stage with
  | .settling =>
      match s.mode with
      | .seq => some { s with stage := .resolving s.batch .empty }
      | .pool => s.settlePool
  | .resolving (raw :: todo) result =>
      let (session, result) := setup.attempt s.session result raw
      some { s with session := session, stage := .resolving todo result }
  | .resolving [] result => some { s with stage := .engaging result }
  | .engaging result => some { s with stage := .recycling result }
  | .recycling result =>
      let s := { s with stage := .inserting result (edgeWrites setup result) }
      if s.pool = some .ready then
        if s.batchesSinceRecycle + 1 < RECYCLE_EVERY_BATCHES then
          some { s with batchesSinceRecycle := s.batchesSinceRecycle + 1 }
        else none
      else some s
  | .inserting result (w :: todo) => some { s.write setup w with stage := .inserting result todo }
  | .inserting result [] =>
      some { s.beginBatch with
        removedThisBatch := 0
        stage := .deleting result (deleteWrites result) }
  | .deleting result (w :: todo) => some { s.write setup w with stage := .deleting result todo }
  | .deleting result [] =>
      let failures := s.session.nonDeferredFailures result.unresolved
      some { s with
        stage := .parking result (result.unresolved.length - failures.length)
          (parkWrites failures) }
  | .parking result deferredCount (w :: todo) =>
      some { s.write setup w with stage := .parking result deferredCount todo }
  | .parking result deferredCount [] =>
      some ({ s with session := s.session.aggregate result s.batch }.endTurn setup deferredCount)
  | .finished => none

inductive Label where
  /-- The main thread up to where it waits again. -/
  | main
  /-- The projection clears the bar; the host creates the pool or declines. -/
  | engage (created : Bool)
  /-- The workers reopen their connections, or one of them fails to. -/
  | recycle (recycled : Bool)
  | poolReady
  | poolFails
  /-- The worker that has a chunk attempts its next reference. -/
  | work (index : Nat)
  | reject (index : Nat)
  deriving DecidableEq, Repr

def work (setup : Setup) (s : Loop) (index : Nat) : Option Loop := do
  let chunk ← s.chunks[index]?
  match chunk.todo with
  | [] => none
  | raw :: todo =>
      let out := setup.attemptForAdmission s.session.edges chunk.out raw
      some { s with chunks := s.chunks.set index { chunk with todo := todo, out := out } }

def reject (s : Loop) (index : Nat) : Option Loop := do
  let chunk ← s.chunks[index]?
  if chunk.rejected then none
  else some { s with chunks := s.chunks.set index { chunk with rejected := true } }

def step (setup : Setup) : Machine Loop Label := fun s label =>
  match label with
  | .main => s.main setup
  | .engage created =>
      match s.stage with
      | .engaging result =>
          if s.mode = .seq && setup.parallel && s.pool.isNone && !s.poolEngageTried then
            some { s with
              pool := if created then some .booting else none
              poolEngageTried := true
              stage := .recycling result }
          else none
      | _ => none
  | .recycle recycled =>
      match s.stage with
      | .recycling result =>
          if s.pool = some .ready && RECYCLE_EVERY_BATCHES ≤ s.batchesSinceRecycle + 1 then
            some { s with
              pool := if recycled then s.pool else none
              batchesSinceRecycle := 0
              stage := .inserting result (edgeWrites setup result) }
          else none
      | _ => none
  | .poolReady => if s.pool = some .booting then some { s with pool := some .ready } else none
  | .poolFails => if s.pool = some .booting then some { s with pool := none } else none
  | .work index => s.work setup index
  | .reject index => s.reject index

/-! ## The start -/

/-- A table of references in row-id order. -/
structure RefTable where
  rows : List RefRow
  sorted : (rows.map (·.id)).Pairwise (· < ·)
  positive : ∀ row ∈ rows, 0 < row.id

/-- What the database and the resolver hold before the first batch is read. -/
structure Input where
  edges : List Edge
  refs : RefTable
  deferredChainRefs : List UnresolvedRef
  deferredThisMemberRefs : List UnresolvedRef
  deferredRowIds : Finset Nat

def Input.session (input : Input) : Session where
  edges := input.edges
  refs := input.refs.rows
  deferredChainRefs := input.deferredChainRefs
  deferredThisMemberRefs := input.deferredThisMemberRefs
  deferredRowIds := input.deferredRowIds
  stats := ⟨0, 0, 0, []⟩
  log := []
  attempted := []

/-- `created`: what the host answers if the pool is wanted at once. -/
def start (setup : Setup) (input : Input) (created : Bool) : Loop :=
  let total := getUnresolvedReferencesCount input.refs.rows
  let engaged := setup.parallel && decide (setup.minRefsForPool ≤ total)
  let s : Loop :=
    { session := input.session
      pool := if engaged && created then some .booting else none
      poolEngageTried := engaged
      batchesSinceRecycle := 0
      chunks := []
      cursor := ⟨true, 0⟩
      batch := []
      mode := .seq
      nextBatch := []
      nextMode := .seq
      stage := .finished
      removedThisBatch := 0
      prevRemaining := none }
  (s.read setup).beginBatch.advance setup

end Loop

end AfyxGraph.Resolution
