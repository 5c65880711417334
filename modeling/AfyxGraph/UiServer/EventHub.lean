import AfyxGraph.Core.Transition

/-! # The event hub

The live channel of the viewer. The hub is a record; every method is a function on it, and what
the file system, a socket or the index answers comes with the label. The index is outside: other
processes write it, and a write is notified while the watcher is up.
-/

namespace AfyxGraph.UiServer

open AfyxGraph.Core

def MAX_EVENT_FILES : Nat := 200

/-! ## The wire -/

structure IndexRevision where
  lastIndexedAt : Option Nat
  files : Nat
  deriving DecidableEq, Repr

/-- Which of the two observers came up. -/
structure Watching where
  source : Bool
  index : Bool
  deriving DecidableEq, Repr

inductive Event where
  | hello (index : Option IndexRevision) (watching : Watching) (degraded : Option String)
  | changed (files : List String) (total : Nat) (truncated scan : Bool)
  | index (index : IndexRevision) (files : List String) (total : Nat) (truncated : Bool)
  | degraded (reason : String)
  deriving DecidableEq, Repr

/-- `received`: the frames written to it, the last one first. -/
structure Client where
  id : Nat
  received : List Event
  deriving DecidableEq, Repr

def Client.receive (client : Client) (event : Event) : Client :=
  { client with received := event :: client.received }

/-- The revision in the last frame that has one. -/
def lastRevision : List Event → Option IndexRevision
  | [] => none
  | .hello index _ _ :: _ => index
  | .index index _ _ _ :: _ => some index
  | _ :: events => lastRevision events

/-! ## The hub -/

/-- `indexUp` is also whether there is an index watcher. -/
structure EventHub where
  clients : List Client
  sourceWatcher : Bool
  sourceUp : Bool
  indexUp : Bool
  indexTimer : Bool
  revision : Option IndexRevision
  degraded : Option String
  closed : Bool
  deriving DecidableEq, Repr

/-- What comes with a request: its method, and what the two watchers and the socket answer. -/
structure Connection where
  head : Bool
  sourceStarts : Bool
  watchable : Bool
  throws : Bool
  deriving DecidableEq, Repr

namespace EventHub

def init : EventHub where
  clients := []
  sourceWatcher := false
  sourceUp := false
  indexUp := false
  indexTimer := false
  revision := none
  degraded := none
  closed := false

def stopWatching (hub : EventHub) : EventHub :=
  { hub with indexTimer := false, indexUp := false, sourceWatcher := false, sourceUp := false }

/-- Without the clients that are dropped; the watchers stop with the last one. -/
def drop (hub : EventHub) (ids : List Nat) : EventHub :=
  let clients := hub.clients.filter (·.id ∉ ids)
  let dropped := { hub with clients := clients }
  if clients = [] && hub.clients ≠ [] then dropped.stopWatching else dropped

/-- A client whose socket throws is dropped, the others get the frame. -/
def broadcast (hub : EventHub) (throws : List Nat) (event : Event) : EventHub :=
  EventHub.drop { hub with clients := hub.clients.map fun client => client.receive event } throws

def startSourceWatcher (hub : EventHub) (starts : Bool) : EventHub :=
  if hub.sourceWatcher then hub else { hub with sourceWatcher := starts, sourceUp := starts }

def startIndexWatcher (hub : EventHub) (watchable : Bool) : EventHub :=
  if hub.indexUp then hub else { hub with indexUp := watchable }

def ensureWatching (hub : EventHub) (probe : Option IndexRevision) (c : Connection) : EventHub :=
  if hub.closed then hub
  else
    let hub := { hub with revision := hub.revision.or probe }
    (hub.startSourceWatcher c.sourceStarts).startIndexWatcher c.watchable

def hello (hub : EventHub) : Event :=
  .hello hub.revision ⟨hub.sourceUp, hub.indexUp⟩ hub.degraded

def subscribe (hub : EventHub) (probe : Option IndexRevision) (id : Nat) (c : Connection) :
    EventHub :=
  if hub.closed || c.head then hub
  else
    let hub := hub.ensureWatching probe c
    let attached := { hub with clients := hub.clients ++ [⟨id, [hub.hello]⟩] }
    if c.throws then attached.drop [id] else attached

def close (hub : EventHub) : EventHub :=
  { hub.stopWatching with closed := true, clients := [] }

def announceChanged (hub : EventHub) (paths : Option (List String)) (throws : List Nat) :
    EventHub :=
  let all := paths.getD []
  let files := all.take MAX_EVENT_FILES
  hub.broadcast throws
    (.changed files all.length (decide (files.length < all.length)) paths.isNone)

def onDegraded (hub : EventHub) (reason : String) (throws : List Nat) : EventHub :=
  EventHub.broadcast { hub with degraded := some reason, sourceUp := false } throws
    (.degraded reason)

/-- The delay of the timer is left open. -/
def scheduleProbe (hub : EventHub) : EventHub :=
  if hub.closed then hub else { hub with indexTimer := true }

/-- `changed`: what the query for the files indexed since the last revision answers. -/
def checkIndex (hub : EventHub) (probe : Option IndexRevision)
    (changed : Option (List String × Nat)) (throws : List Nat) : EventHub :=
  if hub.closed || hub.clients = [] then hub
  else
    match probe with
    | none => hub
    | some next =>
        let previous := hub.revision
        let hub := { hub with revision := some next }
        if previous = some next then hub
        else
          let (files, total) :=
            match previous.bind (·.lastIndexedAt) with
            | none => ([], 0)
            | some _ => changed.getD ([], 0)
          hub.broadcast throws
            (.index next files (max total files.length) (decide (files.length < total)))

end EventHub

/-! ## The hub and the index -/

/-- `index`: what `probe` answers now, `none` for an index that cannot be read. `unnotified`: a
write has changed the index, and the watcher that saw it has not called back. -/
structure System where
  hub : EventHub
  index : Option IndexRevision
  unnotified : Bool
  nextClient : Nat
  deriving DecidableEq, Repr

inductive Label where
  | subscribe (connection : Connection)
  | leave (client : Nat)
  | watcherFails
  | write (index : Option IndexRevision)
  | notify
  | settle (changed : Option (List String × Nat)) (throws : List Nat)
  | sourceChanged (paths : Option (List String)) (throws : List Nat)
  | degraded (reason : String) (throws : List Nat)
  | close
  deriving DecidableEq, Repr

namespace System

def start (index : Option IndexRevision) : System := ⟨.init, index, false, 0⟩

/-- A watcher that is closed calls nothing back. -/
def withHub (s : System) (hub : EventHub) : System :=
  { s with hub := hub, unnotified := s.unnotified && hub.indexUp }

def step : Machine System Label := fun s label =>
  match label with
  | .subscribe connection =>
      let hub := s.hub.subscribe s.index s.nextClient connection
      some { s.withHub hub with nextClient := s.nextClient + 1 }
  | .leave client =>
      if s.hub.clients.any (·.id = client) then some (s.withHub (s.hub.drop [client])) else none
  | .watcherFails =>
      if s.hub.indexUp then some (s.withHub { s.hub with indexUp := false }) else none
  | .write index => some { s with index := index, unnotified := s.unnotified || s.hub.indexUp }
  | .notify =>
      if s.hub.indexUp then some { s with hub := s.hub.scheduleProbe, unnotified := false }
      else none
  | .settle changed throws =>
      if s.hub.indexTimer then
        let hub := { s.hub with indexTimer := false }
        some (s.withHub (hub.checkIndex s.index changed throws))
      else none
  | .sourceChanged paths throws =>
      if s.hub.sourceUp then some (s.withHub (s.hub.announceChanged paths throws)) else none
  | .degraded reason throws =>
      if s.hub.sourceWatcher then some (s.withHub (s.hub.onDegraded reason throws)) else none
  | .close => some (s.withHub s.hub.close)

end System

end AfyxGraph.UiServer
