import AfyxGraph.Core.Entries
import AfyxGraph.Core.Transition

/-! # The file system watch of one directory each

`FsWatchAdapter` on a platform without recursive watches: the walk that installs one watch for
each directory in scope, and the handler of what the kernel reports. The walk is not atomic for
the file system: other processes make and remove files and directories between any two of its
calls. A path is the list of its names with the last one first.
-/

namespace AfyxGraph.Sync.FsWatch

open AfyxGraph.Core

abbrev Path := List String

/-! ## The file system -/

/-- Directories and files below the root `[]`; a file has a stamp for each time it was written. -/
structure FileSystem where
  dirs : List Path := [[]]
  files : List (Path × Nat) := []
  clock : Nat := 0

namespace FileSystem

variable (fs : FileSystem)

def content (path : Path) : Option Nat := fs.files.lookup path

inductive Change where
  | mkdir
  | rmdir
  | write
  | unlink
  deriving DecidableEq

/-- `path` is a directory with nothing in it. -/
def isEmpty (path : Path) : Bool :=
  fs.dirs.all (fun d => d.tail ≠ path || d = []) && fs.files.all fun f => f.1.tail ≠ path

/-- What another process does at `name` in the directory `dir`. -/
def change (dir : Path) (name : String) (change : Change) : Option FileSystem :=
  let path := name :: dir
  if dir ∈ fs.dirs then
    match change with
    | .mkdir =>
        if path ∉ fs.dirs ∧ fs.content path = none then some { fs with dirs := fs.dirs ++ [path] }
        else none
    | .rmdir =>
        if path ∈ fs.dirs ∧ fs.isEmpty path then
          some { fs with dirs := fs.dirs.filter (· ≠ path) }
        else none
    | .write =>
        if path ∉ fs.dirs then
          some { fs with
            files := (path, fs.clock) :: removeEntry fs.files path
            clock := fs.clock + 1 }
        else none
    | .unlink =>
        if (fs.content path).isSome then
          some { fs with files := removeEntry fs.files path }
        else none
  else none

end FileSystem

/-! ## The adapter -/

/-- An entry of `readdir`. -/
structure Entry where
  name : String
  isDirectory : Bool
  deriving DecidableEq

/-- The calls that are left of `watchTree`: its head, its `readdir`, and one entry of the loop. -/
inductive Task where
  | watch (dir : Path) (markExisting : Bool)
  | read (dir : Path) (markExisting : Bool)
  | visit (dir : Path) (entry : Entry) (markExisting : Bool)
  deriving DecidableEq

/-- How `fs.watch` ends. -/
inductive Outcome where
  | installed
  /-- EMFILE or ENFILE. -/
  | exhausted
  /-- ENOSPC -/
  | noSpace
  /-- Another error, as for a directory that is gone. -/
  | failed
  deriving DecidableEq

structure Config where
  shouldIgnoreDir : Path → Bool
  maxDirWatches : Nat

/-- `events` is what the kernel has queued, `watches` the watched paths whose directory has not
been removed, `known` what the callback was last told of a file, or what the first walk found it
to be. `skipped` is set where a directory stays without its watch or unread for an error that the
adapter passes over, `reused` where one is made at a path that still counts as watched. -/
structure State where
  fs : FileSystem := {}
  events : List (Path × String) := []
  watches : List Path := []
  dirWatchers : List Path := []
  stack : List Task := [.watch [] false]
  started : Bool := false
  stopped : Bool := false
  dirCapWarned : Bool := false
  inotifyLimitWarned : Bool := false
  skipped : Bool := false
  reused : Bool := false
  known : Path → Option Nat := fun _ => none
  reported : List Path := []

namespace State

variable (config : Config) (s : State)

/-- A watched directory reports what happens to its entries, as long as it is there. -/
def notify (dir : Path) (name : String) : State :=
  if dir ∈ s.watches then { s with events := s.events ++ [(dir, name)] } else s

/-- The file system after a change; the watch of a removed directory goes with it. -/
def changed (fs : FileSystem) (dir : Path) (name : String) (change : FileSystem.Change) : State :=
  let s := { s with fs }.notify dir name
  match change with
  | .mkdir => { s with reused := s.reused || name :: dir ∈ s.dirWatchers }
  | .rmdir => { s with watches := s.watches.filter (· ≠ name :: dir) }
  | _ => s

def onPathEvent (path : Path) : State :=
  { s with
    known := fun p => if p = path then s.fs.content p else s.known p
    reported := s.reported ++ [path] }

/-- What the callback for exhausted descriptors comes to: the watcher stops its adapter. -/
def stop : State :=
  { s with
    stopped := true
    watches := []
    dirWatchers := []
    dirCapWarned := false
    inotifyLimitWarned := false }

/-- The head of `watchTree`. -/
def watchTree (dir : Path) (markExisting : Bool) (outcome : Outcome) : State :=
  if s.stopped || s.inotifyLimitWarned then s
  else if dir ∈ s.dirWatchers then s
  else if config.maxDirWatches ≤ s.dirWatchers.length then { s with dirCapWarned := true }
  else
    match outcome with
    | .installed =>
        { s with
          watches := s.watches ++ [dir]
          dirWatchers := s.dirWatchers ++ [dir]
          stack := .read dir markExisting :: s.stack }
    | .exhausted => s.stop
    | .noSpace => { s with inotifyLimitWarned := true }
    | .failed => { s with skipped := s.skipped || dir ∈ s.fs.dirs }

/-- The entries are those of the directory, in whatever order. -/
def lists (dir : Path) (entries : List Entry) : Bool :=
  (entries.all fun e =>
      if e.isDirectory then e.name :: dir ∈ s.fs.dirs
      else (s.fs.content (e.name :: dir)).isSome) &&
    (s.fs.dirs.all fun d => d.tail ≠ dir || d = [] || ⟨d.headD "", true⟩ ∈ entries) &&
    s.fs.files.all fun f => f.1.tail ≠ dir || f.1 = [] || ⟨f.1.headD "", false⟩ ∈ entries

/-- A `readdir`, with its entries or with an error. -/
def readdir (dir : Path) (markExisting : Bool) (entries : Option (List Entry)) : Option State :=
  match entries with
  | none => some { s with skipped := s.skipped || dir ∈ s.fs.dirs }
  | some entries =>
      if dir ∈ s.fs.dirs ∧ s.lists dir entries then
        some { s with stack := entries.map (.visit dir · markExisting) ++ s.stack }
      else none

/-- One turn of the loop over the entries. -/
def visit (dir : Path) (entry : Entry) (markExisting : Bool) : State :=
  let child := entry.name :: dir
  if entry.isDirectory then
    if config.shouldIgnoreDir child then s
    else { s with stack := .watch child markExisting :: s.stack }
  else if markExisting then s.onPathEvent child
  else s

def handleDirEvent (dir : Path) (name : String) : State :=
  let full := name :: dir
  if s.stopped then s
  else if full ∈ s.fs.dirs then
    if config.shouldIgnoreDir full then s
    else { s with stack := .watch full true :: s.stack }
  else s.onPathEvent full

inductive Event where
  | change (dir : Path) (name : String) (change : FileSystem.Change)
  /-- A watch also reports attributes, and under its own name what happens to the directory. -/
  | report (dir : Path) (name : String)
  | watch (outcome : Outcome)
  | read (entries : Option (List Entry))
  | visit
  /-- The walk of `start` is over; the directories that it watches are the baseline. -/
  | started
  | deliver
  | watchError (dir : Path) (outcome : Outcome)
  | stop

def unwatchDir (dir : Path) : State :=
  { s with
    watches := s.watches.filter (· ≠ dir)
    dirWatchers := s.dirWatchers.filter (· ≠ dir) }

/-- The handler of an error of a watch that was installed. -/
def onWatchError (dir : Path) : Outcome → State
  | .exhausted => s.stop
  | .noSpace => { s with inotifyLimitWarned := true, skipped := true }.unwatchDir dir
  | _ => { s with skipped := true }.unwatchDir dir

def step : Machine State Event := fun s event =>
  match event with
  | .change dir name change =>
      (s.fs.change dir name change).map fun fs => s.changed fs dir name change
  | .report dir name =>
      if dir ∈ s.dirWatchers then some { s with events := s.events ++ [(dir, name)] } else none
  | .watch outcome =>
      match s.stack with
      | .watch dir markExisting :: stack =>
          if outcome = .installed → dir ∈ s.fs.dirs ∨ (s.fs.content dir).isSome then
            some (watchTree config { s with stack } dir markExisting outcome)
          else none
      | _ => none
  | .read entries =>
      match s.stack with
      | .read dir markExisting :: stack => readdir { s with stack } dir markExisting entries
      | _ => none
  | .visit =>
      match s.stack with
      | .visit dir entry markExisting :: stack =>
          some (visit config { s with stack } dir entry markExisting)
      | _ => none
  | .started =>
      if s.stack = [] ∧ ¬ s.started then
        some { s with
          started := true
          known := fun p => if p.tail ∈ s.dirWatchers then s.fs.content p else none }
      else none
  | .deliver =>
      match s.events with
      | (dir, name) :: events =>
          if s.stack = [] ∧ s.started then
            some (handleDirEvent config { s with events } dir name)
          else none
      | [] => none
  | .watchError dir outcome =>
      if s.stack = [] ∧ dir ∈ s.dirWatchers then some (s.onWatchError dir outcome) else none
  | .stop => if s.stack = [] then some s.stop else none

/-- What the adapter does by itself. -/
def internal (_ : State) : Event → Bool
  | .watch _ | .read _ | .visit | .started | .deliver => true
  | _ => false

end State

end AfyxGraph.Sync.FsWatch
