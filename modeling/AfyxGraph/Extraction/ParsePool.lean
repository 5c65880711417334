import AfyxGraph.Core.Transition
import AfyxGraph.Core.Loop
import AfyxGraph.Extraction.Types

/-! # The parse worker pool

Workers are numbered by the calls of `createWorker` that made them. Every handler of
`ParseWorkerPool` is an event: messages and ends of workers, timers that fire, and the
calls of the orchestrator. A job is settled when `settlements` names it; an armed timer
is a member of `timers`, and leaves it by firing or by being cleared.
-/

namespace AfyxGraph.Extraction

open AfyxGraph.Core

abbrev Worker := Nat

/-- `contentLength` is the length of the content in UTF-16 units. -/
structure ParseTask where
  filePath : String
  contentLength : Nat
  deriving DecidableEq, Repr

structure ParseJob where
  id : Nat
  task : ParseTask
  deriving DecidableEq, Repr

inductive TimerKind where
  | base
  | hardKill
  deriving DecidableEq, Repr

/-- A timer of `dispatch` or `onTimeout`, with the milliseconds its callback is given. -/
structure ParseTimer where
  kind : TimerKind
  worker : Worker
  job : ParseJob
  ms : Nat
  deriving DecidableEq, Repr

structure Settlement where
  job : ParseJob
  outcome : Except String ExtractionResult

inductive ParseWorkerMessage where
  | grammarsLoaded
  | parseResult (id : Option Nat) (result : ExtractionResult)
  | other

def maxParsePoolSize : Nat := 16
def defaultRecycleInterval : Nat := 250
def defaultParseTimeoutMs : Nat := 10000
def maxScaledParseTimeoutMs : Nat := 20000
def hardKillMultiplier : Nat := 3
def maxConcurrentSpawn : Nat := 2
def crashBudget : Nat := 100

def resolveParseBudgetMs (baseMs contentLength : Nat) : Nat :=
  min (baseMs + contentLength / 100000 * 10000) (max baseMs maxScaledParseTimeoutMs)

/-- `createWorker n`: whether the `n`th construction succeeds. -/
structure ParseWorkerPoolOptions where
  size : Nat
  recycleInterval : Option Nat
  parseTimeoutMs : Option Nat
  createWorker : Nat → Bool

namespace ParseWorkerPoolOptions

variable (opts : ParseWorkerPoolOptions)

def maxSize : Nat := max 1 (min opts.size maxParsePoolSize)

def recycleEvery : Nat := opts.recycleInterval.getD defaultRecycleInterval

def timeoutMs : Nat := opts.parseTimeoutMs.getD defaultParseTimeoutMs

end ParseWorkerPoolOptions

structure ParseWorkerPool where
  idle : List Worker
  queue : List ParseJob
  inflight : List (Worker × ParseJob)
  workers : List Worker
  pending : List Worker
  parseCounts : List (Worker × Nat)
  nextId : Nat
  totalCrashes : Nat
  destroyed : Bool
  timers : List ParseTimer
  constructions : Nat
  /-- The workers that have answered `grammars-loaded`. -/
  loaded : List Worker
  /-- Every job there has been. -/
  requested : List ParseJob
  settlements : List Settlement

namespace ParseWorkerPool

variable (opts : ParseWorkerPoolOptions) (s : ParseWorkerPool)

def healthy : Bool := !s.destroyed && s.totalCrashes < crashBudget

def isSettled (job : ParseJob) : Bool := s.settlements.any (·.job = job)

def settle (job : ParseJob) (outcome : Except String ExtractionResult) : ParseWorkerPool :=
  if s.isSettled job then s
  else
    { s with
      settlements := s.settlements ++ [⟨job, outcome⟩]
      timers := s.timers.filter (·.job ≠ job) }

def settleAll (jobs : List ParseJob) (outcome : Except String ExtractionResult) :
    ParseWorkerPool :=
  jobs.foldl (fun s job => s.settle job outcome) s

def spawnOne : ParseWorkerPool :=
  if s.destroyed || s.workers.length ≥ opts.maxSize || !s.healthy then s
  else
    let w := s.constructions
    let s := { s with constructions := s.constructions + 1 }
    if opts.createWorker w then
      { s with
        workers := s.workers ++ [w]
        pending := s.pending ++ [w]
        parseCounts := (w, 0) :: s.parseCounts.filter (·.1 ≠ w) }
    else { s with totalCrashes := s.totalCrashes + 1 }

def removeWorker (w : Worker) : ParseWorkerPool :=
  { s with
    workers := s.workers.filter (· ≠ w)
    pending := s.pending.filter (· ≠ w)
    parseCounts := s.parseCounts.filter (·.1 ≠ w)
    idle := s.idle.filter (· ≠ w) }

def recycle (w : Worker) : ParseWorkerPool :=
  let s := s.removeWorker w
  if s.healthy && !s.destroyed then s.spawnOne opts else s

/-- `inflight.delete(w)`. -/
def deleteInflight (w : Worker) : ParseWorkerPool :=
  { s with inflight := s.inflight.filter (·.1 ≠ w) }

/-- The worker lost is replaced while the pool is healthy. -/
def keepCapacity : ParseWorkerPool := if s.healthy then s.spawnOne opts else s

def dispatch (w : Worker) (job : ParseJob) : ParseWorkerPool :=
  let timeoutMs := resolveParseBudgetMs opts.timeoutMs job.task.contentLength
  { s with
    inflight := s.inflight.filter (·.1 ≠ w) ++ [(w, job)]
    parseCounts :=
      (w, (s.parseCounts.lookup w).getD 0 + 1) :: s.parseCounts.filter (·.1 ≠ w)
    timers := s.timers ++ [⟨.base, w, job, timeoutMs⟩] }

/-! ## `drain` -/

def grows : Bool :=
  s.queue.length > s.idle.length + s.pending.length && s.workers.length < opts.maxSize &&
    s.pending.length < maxConcurrentSpawn && !s.destroyed && s.healthy

def growTurn : Option ParseWorkerPool := if s.grows opts then some (s.spawnOne opts) else none

/-- Every turn takes a start slot or a crash. -/
def grow : ParseWorkerPool :=
  loop (growTurn opts) (maxConcurrentSpawn + crashBudget) s

def dispatchQueued (s : ParseWorkerPool) : List ParseJob → ParseWorkerPool
  | [] => { s with queue := [] }
  | job :: rest =>
      match s.idle.getLast? with
      | none => { s with queue := job :: rest }
      | some w =>
          if s.isSettled job then dispatchQueued s rest
          else dispatchQueued ({ s with idle := s.idle.dropLast }.dispatch opts w job) rest

/-- Queued work that nothing can ever run. -/
def failStranded : ParseWorkerPool :=
  if !s.queue.isEmpty && s.idle.isEmpty && s.pending.isEmpty && s.workers.isEmpty then
    let reason :=
      if s.destroyed then "parse pool destroyed"
      else "parse pool exhausted its worker crash budget"
    { s with queue := [] }.settleAll s.queue (.error reason)
  else s

def drain : ParseWorkerPool :=
  let s := s.grow opts
  (s.dispatchQueued opts s.queue).failStranded

/-! ## Handlers -/

def requestParse (task : ParseTask) : ParseWorkerPool :=
  if s.destroyed then s
  else
    let job := ⟨s.nextId, task⟩
    { s with
      nextId := s.nextId + 1
      queue := s.queue ++ [job]
      requested := s.requested ++ [job] }.drain opts

def onMessage (w : Worker) : ParseWorkerMessage → ParseWorkerPool
  | .grammarsLoaded =>
      if w ∈ s.workers then
        { s with pending := s.pending.filter (· ≠ w), idle := s.idle ++ [w] }.drain opts
      else s
  | .parseResult id result =>
      match s.inflight.lookup w with
      | none => s
      | some job =>
          if id.any (· ≠ job.id) then s
          else
            let s := s.deleteInflight w
            let s :=
              if (s.parseCounts.lookup w).getD 0 ≥ opts.recycleEvery then s.recycle opts w
              else { s with idle := s.idle ++ [w] }
            (s.settle job (.ok result)).drain opts
  | .other => s

def onWorkerGone (w : Worker) (message : String) : ParseWorkerPool :=
  if w ∈ s.workers then
    let s := s.removeWorker w
    let s := { s with totalCrashes := s.totalCrashes + 1 }
    let job := s.inflight.lookup w
    let s := s.deleteInflight w
    let s :=
      match job with
      | none => s
      | some job => s.settle job (.error message)
    (s.keepCapacity opts).drain opts
  else s

def onTimeout (w : Worker) (job : ParseJob) (ms : Nat) : ParseWorkerPool :=
  if s.isSettled job || w ∉ s.workers then s
  else { s with timers := s.timers ++ [⟨.hardKill, w, job, ms * hardKillMultiplier⟩] }

def onHardTimeout (w : Worker) (job : ParseJob) (totalMs : Nat) : ParseWorkerPool :=
  if s.isSettled job || w ∉ s.workers then s
  else
    let s := (s.removeWorker w).deleteInflight w
    let s := s.settle job (.error ("Parse timed out after " ++ toString totalMs ++ "ms"))
    (s.keepCapacity opts).drain opts

def recycleAll : ParseWorkerPool := s.idle.foldl (fun s w => s.recycle opts w) s

def prewarm : Nat → ParseWorkerPool → ParseWorkerPool
  | 0, s => s
  | turns + 1, s =>
      if s.workers.length < opts.maxSize then
        let t := s.spawnOne opts
        if t.workers.length = s.workers.length then t else prewarm turns t
      else s

def destroy : ParseWorkerPool :=
  if s.destroyed then s
  else
    let t :=
      { s with destroyed := true, workers := [], pending := [], parseCounts := [], idle := [] }
    let t := t.settleAll (s.inflight.map Prod.snd ++ s.queue) (.error "parse pool destroyed")
    { t with inflight := [], queue := [] }

/-! ## Runs -/

def empty : ParseWorkerPool where
  idle := []
  queue := []
  inflight := []
  workers := []
  pending := []
  parseCounts := []
  nextId := 1
  totalCrashes := 0
  destroyed := false
  timers := []
  constructions := 0
  loaded := []
  requested := []
  settlements := []

/-- The constructor: one eager worker. -/
def init : ParseWorkerPool := empty.spawnOne opts

inductive Event where
  | requestParse (task : ParseTask)
  | message (w : Worker) (m : ParseWorkerMessage)
  | error (w : Worker) (message : Option String)
  | exit (w : Worker) (code : Int)
  | timer (timer : ParseTimer)
  | recycleAll
  | prewarm
  | destroy

/-- A worker answers `grammars-loaded` once; a timer fires while it is armed. -/
def step : Machine ParseWorkerPool Event := fun s event =>
  match event with
  | .requestParse task => some (s.requestParse opts task)
  | .message w .grammarsLoaded =>
      if w < s.constructions ∧ w ∉ s.loaded then
        some ({ s with loaded := s.loaded ++ [w] }.onMessage opts w .grammarsLoaded)
      else none
  | .message w m => some (s.onMessage opts w m)
  | .error w message => some (s.onWorkerGone opts w ("Worker error: " ++ message.getD "unknown"))
  | .exit w code =>
      some (if code ≠ 0 then s.onWorkerGone opts w ("Worker exited with code " ++ toString code)
        else s)
  | .timer timer =>
      if timer ∈ s.timers then
        let s := { s with timers := s.timers.erase timer }
        match timer.kind with
        | .base => some (s.onTimeout timer.worker timer.job timer.ms)
        | .hardKill => some (s.onHardTimeout opts timer.worker timer.job timer.ms)
      else none
  | .recycleAll => some (s.recycleAll opts)
  | .prewarm => some (prewarm opts opts.maxSize s)
  | .destroy => some s.destroy

end ParseWorkerPool

end AfyxGraph.Extraction
