import AfyxGraph.Core.Entries
import AfyxGraph.Core.Loop
import AfyxGraph.Core.Places
import AfyxGraph.Core.Transition

/-! # The query pool

The workers that serve read tools, numbered by the calls of `createWorker` that made them.
Every callback of `QueryPool` is an event: messages and ends of workers, soft timers that
fire, and the calls of the daemon. A job is settled when `settlements` names it.
-/

namespace AfyxGraph.Mcp.Query

open AfyxGraph.Core

abbrev Worker := Nat

structure ToolResult where
  isError : Bool := false
  content : List String
  deriving DecidableEq, Repr

/-- `args` is the text of the arguments; `enqueuedAt` is in milliseconds. -/
structure Job where
  id : Nat
  toolName : String
  args : String
  enqueuedAt : Int
  deriving DecidableEq, Repr

/-- A call of `resolve`. -/
structure Settlement where
  job : Job
  result : ToolResult
  deriving DecidableEq, Repr

/-- The fields of a message that the pool reads. -/
inductive WorkerMessage where
  | ready (ok : Option Bool)
  | result (result : Option ToolResult)
  | other
  deriving DecidableEq, Repr

def MAX_POOL_SIZE : Nat := 16
def CRASH_BUDGET : Nat := 12
def MAX_CONCURRENT_SPAWN : Nat := 2

/-- Success-shaped guidance, with the seconds the call has waited. -/
def busyGuidance (waitedMs : Int) : ToolResult where
  content := ["Afyx Graph is busy serving other concurrent requests right now (this call waited " ++
    toString (max 1 ((waitedMs + 500) / 1000)) ++ "s in the queue). " ++
    "This is NOT an error and the index is fine — wait a few seconds and retry this exact call; " ++
    "it will return normally. If you can't wait, use your built-in tools for just this one step."]

def workerCrashed : ToolResult where
  isError := true
  content := ["afyx-graph worker crashed; please retry the call."]

def shuttingDown : ToolResult where
  isError := true
  content := ["afyx-graph is shutting down; retry shortly."]

/-- `createWorker n`: whether the `n`th construction succeeds. -/
structure QueryPoolOptions where
  size : Nat
  maxRetries : Option Nat := none
  createWorker : Nat → Bool

namespace QueryPoolOptions

variable (opts : QueryPoolOptions)

def maxSize : Nat := max 1 (min opts.size MAX_POOL_SIZE)

def retryLimit : Nat := opts.maxRetries.getD 1

end QueryPoolOptions

structure QueryPool where
  idle : List Worker := []
  queue : List Job := []
  inflight : List (Worker × Job) := []
  workers : List Worker := []
  pendingWorkers : List Worker := []
  nextId : Nat := 1
  totalCrashes : Nat := 0
  destroyed : Bool := false
  everReady : Bool := false
  /-- The jobs whose soft timer is armed. -/
  softTimers : List Job := []
  constructions : Nat := 0
  /-- Every job there has been. -/
  requested : List Job := []
  /-- A job once for each of its retries. -/
  retried : List Job := []
  settlements : List Settlement := []

namespace QueryPool

variable (opts : QueryPoolOptions) (s : QueryPool)

def healthy : Bool := !s.destroyed && s.totalCrashes < CRASH_BUDGET

def ready : Bool := s.everReady && !s.destroyed

def settledJobs : List Job := s.settlements.map (·.job)

def isSettled (job : Job) : Bool := job ∈ s.settledJobs

def settle (job : Job) (result : ToolResult) : QueryPool :=
  if s.isSettled job then s
  else
    { s with
      settlements := s.settlements ++ [⟨job, result⟩]
      softTimers := s.softTimers.filter (· ≠ job) }

def spawnOne : QueryPool :=
  if s.destroyed || s.workers.length ≥ opts.maxSize then s
  else
    let w := s.constructions
    let s := { s with constructions := s.constructions + 1 }
    if opts.createWorker w then
      { s with workers := s.workers ++ [w], pendingWorkers := s.pendingWorkers ++ [w] }
    else { s with totalCrashes := s.totalCrashes + 1 }

/-! ## `drain` -/

def grows : Bool :=
  s.queue.length > s.idle.length + s.pendingWorkers.length && s.workers.length < opts.maxSize &&
    s.pendingWorkers.length < MAX_CONCURRENT_SPAWN && s.healthy

def growTurn : Option QueryPool := if s.grows opts then some (s.spawnOne opts) else none

/-- Every turn takes a start slot or a crash. -/
def grow : QueryPool := loop (growTurn opts) (MAX_CONCURRENT_SPAWN + CRASH_BUDGET) s

/-- Jobs that the backstop has answered are skipped as long as there is an idle worker. -/
def dispatchQueued (s : QueryPool) : List Job → QueryPool
  | [] => { s with queue := [] }
  | job :: rest =>
      match s.idle.getLast? with
      | none => { s with queue := job :: rest }
      | some w =>
          if s.isSettled job then dispatchQueued s rest
          else
            dispatchQueued
              { s with idle := s.idle.dropLast, inflight := setEntry s.inflight w job } rest

def drain : QueryPool :=
  let s := s.grow opts
  s.dispatchQueued s.queue

/-! ## Handlers -/

def run (toolName args : String) (now : Int) : QueryPool :=
  let job := ⟨s.nextId, toolName, args, now⟩
  { s with
    nextId := s.nextId + 1
    requested := s.requested ++ [job]
    softTimers := s.softTimers ++ [job]
    queue := s.queue ++ [job] }.drain opts

def onSoftTimer (job : Job) (now : Int) : QueryPool :=
  { s with softTimers := s.softTimers.erase job }.settle job (busyGuidance (now - job.enqueuedAt))

def deleteInflight (w : Worker) : QueryPool :=
  { s with inflight := s.inflight.filter (·.1 ≠ w) }

def onReady (w : Worker) (ok : Option Bool) : QueryPool :=
  let s := { s with pendingWorkers := s.pendingWorkers.filter (· ≠ w) }
  let s :=
    if ok = some false then { s with totalCrashes := s.totalCrashes + 1 }
    else { s with everReady := true }
  { s with idle := s.idle ++ [w] }.drain opts

def onResult (w : Worker) (result : Option ToolResult) : QueryPool :=
  let job := s.inflight.lookup w
  let s := s.deleteInflight w
  let s := { s with idle := s.idle ++ [w] }
  let s :=
    match job with
    | none => s
    | some job => s.settle job (result.getD (busyGuidance 0))
  s.drain opts

def onMessage (w : Worker) : WorkerMessage → QueryPool
  | .ready ok => s.onReady opts w ok
  | .result result => s.onResult opts w result
  | .other => s

def removeWorker (w : Worker) : QueryPool :=
  { s with
    workers := s.workers.filter (· ≠ w)
    pendingWorkers := s.pendingWorkers.filter (· ≠ w)
    idle := s.idle.filter (· ≠ w)
    totalCrashes := s.totalCrashes + 1 }

/-- The worker lost is replaced while the pool is healthy. -/
def keepCapacity : QueryPool := if s.healthy then s.spawnOne opts else s

/-- The job of a worker that is gone is retried, or fails. -/
def retry (job : Job) : QueryPool :=
  if s.retried.count job < opts.retryLimit && s.healthy then
    { s with retried := s.retried ++ [job], queue := job :: s.queue }
  else s.settle job workerCrashed

def onWorkerGone (w : Worker) : QueryPool :=
  if w ∈ s.workers then
    let s := s.removeWorker w
    let job := s.inflight.lookup w
    let s := (s.deleteInflight w).keepCapacity opts
    let s :=
      match job with
      | none => s
      | some job => s.retry opts job
    s.drain opts
  else s

def destroy : QueryPool :=
  if s.destroyed then s
  else
    let t := { s with destroyed := true, workers := [], pendingWorkers := [], idle := [] }
    let t := (s.inflight.map Prod.snd ++ s.queue).foldl (fun t job => t.settle job shuttingDown) t
    { t with inflight := [], queue := [] }

/-! ## Runs -/

/-- The constructor: one eager worker. -/
def init : QueryPool := ({} : QueryPool).spawnOne opts

inductive Event where
  | run (toolName args : String) (now : Int)
  | message (w : Worker) (m : WorkerMessage)
  | error (w : Worker)
  | exit (w : Worker) (code : Int)
  | softTimer (job : Job) (now : Int)
  | destroy
  deriving DecidableEq, Repr

/-- The worker has been made. -/
def constructed (w : Worker) : Bool := w < s.constructions && opts.createWorker w

/-- Any worker that was ever made may send any message and end at any time; a soft timer fires
while it is armed. -/
def step : Machine QueryPool Event := fun s event =>
  match event with
  | .run toolName args now => some (s.run opts toolName args now)
  | .message w m => if s.constructed opts w then some (s.onMessage opts w m) else none
  | .error w => if s.constructed opts w then some (s.onWorkerGone opts w) else none
  | .exit w code =>
      if s.constructed opts w then some (if code ≠ 0 then s.onWorkerGone opts w else s) else none
  | .softTimer job now => if job ∈ s.softTimers then some (s.onSoftTimer job now) else none
  | .destroy => some s.destroy

end QueryPool

end AfyxGraph.Mcp.Query
