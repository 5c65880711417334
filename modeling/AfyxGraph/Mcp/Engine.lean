import AfyxGraph.Core.Transition

/-! # The shared engine

`MCPEngine` opens the default project, behind a shared promise or synchronously on a retry,
and starts its watcher and its query pool. A label is what runs between two awaits. The
instances and pools are numbered as they are made; `instances`, `watching`, `pools` and
`locks` are what the engine has opened, started or acquired and not given back.
-/

namespace AfyxGraph.Mcp

open AfyxGraph.Core

variable {Root Lock : Type} [DecidableEq Lock]

def retrySubscanTtlMs : Nat := 5000

structure ServerRootResolution (Root : Type) where
  root : Option Root
  candidates : List Root

structure EngineOptions where
  watch : Bool
  queryPool : Bool

structure ToolHandler (Root : Type) where
  cg : Option Nat
  queryPool : Option Nat
  /-- The instance whose catch-up sync the next call awaits. -/
  catchUpGate : Option Nat
  defaultProjectHint : Option Root
  knownSubprojects : List Root
  knownSubprojectsBase : Option Root

/-- Where `doInitialize` is while `initPromise` is set. -/
inductive Initialization (Root : Type) where
  /-- `open` awaits the grammars. -/
  | opening (root : Root)
  /-- `open` has returned an instance and `doInitialize` has not resumed. -/
  | opened (root : Root) (cg : Nat)
  /-- The promise is settled and its `finally` has not run. -/
  | settled

inductive WriterAcquire where
  | acquired
  | taken
  | throws
  deriving DecidableEq

inductive WatchStart where
  | started
  | unavailable
  | throws
  deriving DecidableEq

/-- What the end of an initialization meets. -/
structure Surroundings where
  writer : WriterAcquire
  watchDisabled : Bool
  watch : WatchStart
  poolSize : Int
  poolThrows : Bool

structure MCPEngine (Root Lock : Type) where
  opts : EngineOptions
  cg : Option Nat
  toolHandler : ToolHandler Root
  projectPath : Option Root
  initPromise : Option (Initialization Root)
  lastRetrySubScanAt : Nat
  watcherStarted : Bool
  writerLockRoot : Option Root
  closed : Bool
  queryPool : Option Nat
  instances : List Nat
  watching : List Nat
  pools : List Nat
  locks : List Lock
  nextId : Nat

namespace MCPEngine

variable (getWriterPidPath : Root → Lock) (s : MCPEngine Root Lock)

/-- A constructed engine: the writer lock it was asked for is its own. -/
def init (opts : EngineOptions) (writerLockRoot projectPath : Option Root) :
    MCPEngine Root Lock where
  opts := opts
  cg := none
  toolHandler := ⟨none, none, none, projectPath, [], none⟩
  projectPath := projectPath
  initPromise := none
  lastRetrySubScanAt := 0
  watcherStarted := false
  writerLockRoot := writerLockRoot
  closed := false
  queryPool := none
  instances := []
  watching := []
  pools := []
  locks := writerLockRoot.toList.map getWriterPidPath
  nextId := 0

/-- `AfyxGraph.open` and `openSync` where they succeed. -/
def openInstance : MCPEngine Root Lock :=
  { s with instances := s.instances ++ [s.nextId], nextId := s.nextId + 1 }

/-- `close` stops the watcher of the instance. -/
def closeInstance (cg : Nat) : MCPEngine Root Lock :=
  { s with instances := s.instances.filter (· ≠ cg), watching := s.watching.filter (· ≠ cg) }

def setDefaultProjectHint (searchFrom : Root) : MCPEngine Root Lock :=
  { s with toolHandler := { s.toolHandler with defaultProjectHint := some searchFrom } }

def setKnownSubprojects (roots : List Root) (base : Root) : MCPEngine Root Lock :=
  { s with
    toolHandler :=
      { s.toolHandler with knownSubprojects := roots, knownSubprojectsBase := some base } }

def maybeStartPool (around : Surroundings) : MCPEngine Root Lock :=
  if !s.opts.queryPool || s.queryPool.isSome || s.closed then s
  else if around.poolSize ≤ 0 || around.poolThrows then s
  else
    { s with
      queryPool := some s.nextId
      toolHandler := { s.toolHandler with queryPool := some s.nextId }
      pools := s.pools ++ [s.nextId]
      nextId := s.nextId + 1 }

/-- The end of `startWatching`; `false` if it throws. -/
def watchInstance (around : Surroundings) (cg : Nat) : MCPEngine Root Lock × Bool :=
  if around.watchDisabled then ({ s with watcherStarted := true }, true)
  else
    match around.watch with
    | .throws => (s, false)
    | .unavailable => ({ s with watcherStarted := true }, true)
    | .started => ({ s with watcherStarted := true, watching := s.watching.insert cg }, true)

def acquireWriter (lockRoot : Root) : MCPEngine Root Lock :=
  { s with
    writerLockRoot := some lockRoot
    locks := s.locks.insert (getWriterPidPath lockRoot) }

def startWatching (around : Surroundings) : MCPEngine Root Lock × Bool :=
  match s.cg with
  | none => (s, true)
  | some cg =>
      if s.watcherStarted || !s.opts.watch then (s, true)
      else
        match s.projectPath with
        | none => s.watchInstance around cg
        | some lockRoot =>
            match around.writer with
            | .throws => (s, false)
            | .taken => ({ s with watcherStarted := true }, true)
            | .acquired =>
                (s.acquireWriter getWriterPidPath lockRoot).watchInstance around cg

def catchUpSync : MCPEngine Root Lock :=
  match s.cg with
  | none => s
  | some cg => { s with toolHandler := { s.toolHandler with catchUpGate := some cg } }

def setDefaultAfyxGraph (cg : Nat) : MCPEngine Root Lock :=
  { s with cg := some cg, toolHandler := { s.toolHandler with cg := some cg } }

/-- What both ways to initialize do with an open instance; an exception is caught. -/
def adopt (around : Surroundings) (cg : Nat) : MCPEngine Root Lock :=
  match (s.setDefaultAfyxGraph cg).startWatching getWriterPidPath around with
  | (s, false) => s
  | (s, true) => s.catchUpSync.maybeStartPool around

/-- Up to its `await`. -/
def doInitialize (searchFrom : Root) (res : ServerRootResolution Root) : MCPEngine Root Lock :=
  let s := s.setDefaultProjectHint searchFrom
  match res.root with
  | none =>
      { s with projectPath := some searchFrom, initPromise := some .settled }.setKnownSubprojects
        res.candidates searchFrom
  | some root => { s with projectPath := some root, initPromise := some (.opening root) }

/-- A caller that finds `initPromise` set awaits it and returns. -/
def ensureInitialized (searchFrom : Root) (res : ServerRootResolution Root) :
    MCPEngine Root Lock :=
  if s.closed || s.toolHandler.cg.isSome || s.initPromise.isSome then s
  else s.doInitialize searchFrom res

/-- The grammars are loaded, or failed to; `opens` is whether `open` succeeds. -/
def grammarsLoaded (opens : Bool) : Option (MCPEngine Root Lock) :=
  match s.initPromise with
  | some (.opening root) =>
      if opens then some { s.openInstance with initPromise := some (.opened root s.nextId) }
      else some { s with initPromise := some .settled }
  | _ => none

/-- `doInitialize` resumes with the instance. -/
def initializeResumed (around : Surroundings) : Option (MCPEngine Root Lock) :=
  match s.initPromise with
  | some (.opened _ cg) =>
      some ({ s with initPromise := some .settled }.adopt getWriterPidPath around cg)
  | _ => none

def initFinally : Option (MCPEngine Root Lock) :=
  match s.initPromise with
  | some .settled => some { s with initPromise := none }
  | _ => none

/-- The part of `retryInitializeSync` before its `try`; `resolve` is `resolveServerRoot` with
and without the down-scan. -/
def retryScan (searchFrom : Root) (now : Nat) (resolve : Bool → ServerRootResolution Root) :
    MCPEngine Root Lock × Option Root :=
  let s := s.setDefaultProjectHint searchFrom
  let scanDue := decide (now - s.lastRetrySubScanAt ≥ retrySubscanTtlMs)
  let res := resolve scanDue
  if scanDue then
    let s := { s with lastRetrySubScanAt := now }
    (if res.root.isNone then s.setKnownSubprojects res.candidates searchFrom else s, res.root)
  else (s, res.root)

/-- An instance a failed initialization left behind is closed first. -/
def closeFailed : MCPEngine Root Lock :=
  match s.cg with
  | none => s
  | some cg => { s.closeInstance cg with cg := none }

def retryInitializeSync (searchFrom : Root) (now : Nat)
    (resolve : Bool → ServerRootResolution Root) (opens : Bool) (around : Surroundings) :
    MCPEngine Root Lock :=
  if s.closed || s.toolHandler.cg.isSome then s
  else
    match s.retryScan searchFrom now resolve with
    | (s, none) => s
    | (s, some root) =>
        let s := s.closeFailed
        if opens then
          { s.openInstance with projectPath := some root }.adopt getWriterPidPath around s.nextId
        else s

def releaseWriter : MCPEngine Root Lock :=
  match s.writerLockRoot with
  | none => s
  | some root =>
      { s with locks := s.locks.filter (· ≠ getWriterPidPath root), writerLockRoot := none }

def destroyPool : MCPEngine Root Lock :=
  let s := { s with toolHandler := { s.toolHandler with queryPool := none } }
  match s.queryPool with
  | none => s
  | some pool => { s with pools := s.pools.filter (· ≠ pool), queryPool := none }

/-- `closeAll` closes the instances of the other projects, which are not the engine's. -/
def stop : MCPEngine Root Lock :=
  if s.closed then s
  else (({ s with closed := true }.releaseWriter getWriterPidPath).destroyPool).closeFailed

inductive Event (Root : Type) where
  | ensureInitialized (searchFrom : Root) (res : ServerRootResolution Root)
  | grammarsLoaded (opens : Bool)
  | initializeResumed (around : Surroundings)
  | initFinally
  | retryInitializeSync (searchFrom : Root) (now : Nat)
      (resolve : Bool → ServerRootResolution Root) (opens : Bool) (around : Surroundings)
  | stop

/-- The calls come from any session in any order. -/
def step : Machine (MCPEngine Root Lock) (Event Root) := fun s event =>
  match event with
  | .ensureInitialized searchFrom res => some (s.ensureInitialized searchFrom res)
  | .grammarsLoaded opens => s.grammarsLoaded opens
  | .initializeResumed around => s.initializeResumed getWriterPidPath around
  | .initFinally => s.initFinally
  | .retryInitializeSync searchFrom now resolve opens around =>
      some (s.retryInitializeSync getWriterPidPath searchFrom now resolve opens around)
  | .stop => some (s.stop getWriterPidPath)

/-! ## The life cycle -/

structure LifeCycle : Prop where
  single : s.instances.length ≤ 1
  watcher : ∀ cg ∈ s.watching, s.toolHandler.cg = some cg
  ended : s.closed = true → s.initPromise.isNone = true →
    s.instances = [] ∧ s.pools = [] ∧ s.locks = []

/-- The instance `open` has returned and nothing refers to yet. -/
def unassigned : Option Nat :=
  match s.initPromise with
  | some (.opened _ cg) => some cg
  | _ => none

/-- Where `startWatching` acquires the lock of `root`, the engine holds no other. -/
def lockFits (around : Surroundings) (root : Option Root) : Bool :=
  s.watcherStarted || !s.opts.watch || around.writer ≠ .acquired ||
    s.writerLockRoot.all fun held =>
      root.all fun root => getWriterPidPath held = getWriterPidPath root

/-- The condition on a step: an instance is opened only while the engine runs and has none,
by one way to initialize at a time; `stop` finds it assigned; and the engine never goes from one
writer lock to another. -/
def allowed (s : MCPEngine Root Lock) : Event Root → Bool
  | .grammarsLoaded opens => !opens || (!s.closed && s.cg.isNone)
  | .initializeResumed around => s.lockFits getWriterPidPath around s.projectPath
  | .retryInitializeSync searchFrom now resolve opens around =>
      s.closed || s.toolHandler.cg.isSome || !opens ||
        (s.retryScan searchFrom now resolve).2.all fun root =>
          s.unassigned.isNone && s.lockFits getWriterPidPath around (some root)
  | .stop => s.closed || s.unassigned.isNone
  | _ => true

def Allowed (s : MCPEngine Root Lock) (event : Event Root) : Prop :=
  s.allowed getWriterPidPath event = true

instance (s : MCPEngine Root Lock) (event : Event Root) :
    Decidable (s.Allowed getWriterPidPath event) := inferInstanceAs (Decidable (_ = true))

end MCPEngine

end AfyxGraph.Mcp
