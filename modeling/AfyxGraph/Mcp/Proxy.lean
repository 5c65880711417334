import AfyxGraph.Core.Transition
import AfyxGraph.Core.Places

/-! # The local-handshake proxy

`LocalHandshakeSession` answers the handshake itself, forwards what is left to the daemon,
and serves it in process once there is no daemon. A line is kept as the fields the proxy
reads. What the proxy writes to the host is `written`; `requested` are the ids of the host
requests so far.
-/

namespace AfyxGraph.Mcp

open AfyxGraph.Core

variable {Id Params Result : Type} [DecidableEq Id] [DecidableEq Params]

/-- A non-empty line from the host. -/
inductive HostLine (Id Params : Type) where
  | unparseable
  | message (id : Option Id) (method : Option String) (params : Params)
  deriving DecidableEq, Repr

namespace HostLine

variable (line : HostLine Id Params)

/-- The id of a request. -/
def requestId : HostLine Id Params → Option Id
  | .message id (some _) _ => id
  | _ => none

/-- A response to a request of the server. -/
def isResponse : HostLine Id Params → Bool
  | .message (some _) none _ => true
  | _ => false

end HostLine

inductive DaemonLine (Id : Type) where
  | text
  /-- `answers`: the message has a `result` or an `error`. -/
  | message (id : Option Id) (answers : Bool)
  deriving DecidableEq, Repr

inductive Body (Result : Type) where
  | initializeResult
  | staticResult (method : String)
  | pong
  | toolResult (result : Result)
  | error (code : Int) (message : String)
  deriving DecidableEq, Repr

inductive Output (Id Result : Type) where
  | response (id : Option Id) (body : Body Result)
  | relayed (line : DaemonLine Id)
  deriving DecidableEq, Repr

/-- The id a response line carries. -/
def Output.responseId : Output Id Result → Option (Option Id)
  | .response id _ => some id
  | .relayed (.message id true) => some id
  | .relayed _ => none

def invalidParams : Int := -32602
def internalError : Int := -32603
def methodNotFound : Int := -32601

inductive StaticAnswer where
  | none
  | answers
  | throws
  deriving DecidableEq, Repr

/-- `STATIC_LOCAL_RESULTS[method]` and its call: a plain object also has what it inherits. -/
def staticLocalResult (method : String) : StaticAnswer :=
  if method ∈ ["tools/list", "resources/list", "resources/templates/list", "prompts/list"] then
    .answers
  else if method ∈ ["constructor", "toString", "isPrototypeOf"] then .answers
  else if method ∈ ["valueOf", "hasOwnProperty", "propertyIsEnumerable", "toLocaleString",
      "__proto__", "__defineGetter__", "__defineSetter__", "__lookupGetter__",
      "__lookupSetter__"] then .throws
  else .none

/-- `handleLocalFallbackMessage`; `outcome` is how the tool ends, or how its handler fails. -/
def handleLocalFallbackMessage (parseToolCallParams : Params → Except String Unit)
    (outcome : Except String Result) : HostLine Id Params → Option (Output Id Result)
  | .unparseable => none
  | .message none _ _ => none
  | .message (some id) method params =>
      if method = some "tools/call" then
        match parseToolCallParams params with
        | .error message => some (.response (some id) (.error invalidParams message))
        | .ok _ =>
            match outcome with
            | .ok result => some (.response (some id) (.toolResult result))
            | .error message => some (.response (some id) (.error internalError message))
      else if method = some "ping" then some (.response (some id) .pong)
      else if method ≠ some "initialize" then
        some (.response (some id)
          (.error methodNotFound ("Method not found: " ++ method.getD "undefined")))
      else none

inductive DaemonStatus where
  | connecting
  | ready
  | failed
  deriving DecidableEq, Repr

structure LocalHandshakeSession (Id Params Result : Type) where
  daemonStatus : DaemonStatus
  clientInitId : Option Id
  pending : List (HostLine Id Params)
  inflight : List (Id × HostLine Id Params)
  /-- The calls of `handleLocally` that run, and the one the drain awaits. -/
  serving : List (HostLine Id Params)
  draining : Option (HostLine Id Params)
  exited : Bool
  written : List (Output Id Result)
  requested : List Id
  deriving DecidableEq, Repr

namespace LocalHandshakeSession

variable (parseToolCallParams : Params → Except String Unit)
  (s : LocalHandshakeSession Id Params Result)

def init : LocalHandshakeSession Id Params Result where
  daemonStatus := .connecting
  clientInitId := none
  pending := []
  inflight := []
  serving := []
  draining := none
  exited := false
  written := []
  requested := []

def writeClient (output : Output Id Result) : LocalHandshakeSession Id Params Result :=
  { s with written := s.written ++ [output] }

def trackInflight : HostLine Id Params → LocalHandshakeSession Id Params Result
  | .message (some id) (some method) params =>
      if method ≠ "initialize" then
        { s with
          inflight :=
            s.inflight.filter (·.1 ≠ id) ++ [(id, .message (some id) (some method) params)] }
      else s
  | _ => s

def routeToDaemon (line : HostLine Id Params) : LocalHandshakeSession Id Params Result :=
  match s.daemonStatus with
  | .ready => s.trackInflight line
  | .failed => { s with serving := s.serving ++ [line] }
  | .connecting => { s with pending := s.pending ++ [line] }

def handleClientLine : HostLine Id Params → LocalHandshakeSession Id Params Result
  | .unparseable => s.routeToDaemon .unparseable
  | .message id method params =>
      if method = some "initialize" then
        ({ s with clientInitId := id }.writeClient (.response id .initializeResult)).routeToDaemon
          (.message id method params)
      else
        match method.map fun name => (name, staticLocalResult name) with
        | some (name, .answers) => s.writeClient (.response id (.staticResult name))
        | some (_, .throws) => { s with exited := true }
        | _ => s.routeToDaemon (.message id method params)

def handleDaemonLine (line : DaemonLine Id) : LocalHandshakeSession Id Params Result :=
  match line with
  | .message (some id) true =>
      let s := { s with inflight := s.inflight.filter (·.1 ≠ id) }
      if s.clientInitId = some id then s else s.writeClient (.relayed line)
  | _ => s.writeClient (.relayed line)

def attachDaemonSocket : LocalHandshakeSession Id Params Result :=
  s.pending.foldl trackInflight { s with daemonStatus := .ready, pending := [] }

def handleDaemonLost : LocalHandshakeSession Id Params Result :=
  { s with
    daemonStatus := .failed
    serving := s.serving ++ s.inflight.map Prod.snd
    inflight := [] }

/-- The head of the loop of `failDaemonAndDrainPending`. -/
def drainNext : LocalHandshakeSession Id Params Result :=
  match s.pending with
  | [] => { s with draining := none }
  | line :: rest => { s with pending := rest, draining := some line }

/-- A call of `handleLocally` ends. -/
def finishLocally (line : HostLine Id Params) (outcome : Except String Result) :
    LocalHandshakeSession Id Params Result :=
  match handleLocalFallbackMessage parseToolCallParams outcome line with
  | none => s
  | some response => s.writeClient response

inductive Event (Id Params Result : Type) where
  | hostLine (line : HostLine Id Params)
  | daemonLine (line : DaemonLine Id)
  | attach
  | fail
  | lost
  | served (line : HostLine Id Params) (outcome : Except String Result)
  | drained (outcome : Except String Result)

/-- The requests of a host have distinct ids; the rest of a host line is arbitrary. -/
def step : Machine (LocalHandshakeSession Id Params Result) (Event Id Params Result) :=
  fun s event =>
    if s.exited then none
    else
      match event with
      | .hostLine line =>
          if line.requestId.any (· ∈ s.requested) then none
          else
            some ({ s with
              requested := s.requested ++ line.requestId.toList }.handleClientLine line)
      | .daemonLine line =>
          if s.daemonStatus = .ready then some (s.handleDaemonLine line) else none
      | .attach => if s.daemonStatus = .connecting then some s.attachDaemonSocket else none
      | .fail =>
          if s.daemonStatus = .connecting then some { s with daemonStatus := .failed }.drainNext
          else none
      | .lost => if s.daemonStatus = .ready then some s.handleDaemonLost else none
      | .served line outcome =>
          if line ∈ s.serving then
            some ({ s with serving := s.serving.erase line }.finishLocally parseToolCallParams line
              outcome)
          else none
      | .drained outcome =>
          match s.draining with
          | none => none
          | some line =>
              some ({ s with draining := none }.finishLocally parseToolCallParams line
                outcome).drainNext

/-! ## Answering every request once -/

/-- The ids of the response lines the host has been given. -/
def responses : List (Option Id) := s.written.filterMap Output.responseId

/-- Nothing waits for the daemon or for the engine. -/
def drained : Bool :=
  s.pending.isEmpty && s.inflight.isEmpty && s.serving.isEmpty && s.draining.isNone

structure AnswersOnce : Prop where
  sound : ∀ response ∈ s.responses, ∃ id ∈ s.requested, response = some id
  once : s.responses.Nodup
  complete : s.drained = true → ∀ id ∈ s.requested, s.responses.count (some id) = 1

/-- A line the proxy answers itself is a request, and its answer can be looked up. -/
def answerable : HostLine Id Params → Bool
  | .unparseable => true
  | .message id method _ =>
      match method with
      | none => true
      | some name =>
          if name = "initialize" then id.isSome
          else
            match staticLocalResult name with
            | .none => true
            | .answers => id.isSome
            | .throws => false

/-- The condition on a step: no response of the host is served in process, and the daemon
answers what it was asked. -/
def allowed (s : LocalHandshakeSession Id Params Result) : Event Id Params Result → Bool
  | .hostLine line => answerable line && !(line.isResponse && s.daemonStatus = .failed)
  | .daemonLine (.message id true) =>
      id.any fun id => id ∈ s.inflight.map Prod.fst || s.clientInitId = some id
  | .fail => s.pending.all (!·.isResponse)
  | _ => true

def Allowed (s : LocalHandshakeSession Id Params Result) (event : Event Id Params Result) : Prop :=
  s.allowed event = true

instance (s : LocalHandshakeSession Id Params Result) (event : Event Id Params Result) :
    Decidable (s.Allowed event) := inferInstanceAs (Decidable (_ = true))

end LocalHandshakeSession

end AfyxGraph.Mcp
