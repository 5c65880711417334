import AfyxGraph.Core.Transition
import AfyxGraph.UiServer.TrailStore

/-! # The transport of one daemon client

Lines of JSON-RPC over a socket. A run is the events of one started transport: the loop over a
chunk takes its lines one by one, and what the message handler calls stands between them. The
promises of the server's own requests are numbered, and so are the close handlers.
-/

namespace AfyxGraph.Mcp.SocketTransport

open AfyxGraph.Core AfyxGraph.Runtime
open AfyxGraph.UiServer (js trim)

/-! ## Messages -/

namespace ErrorCodes

def parseError : Int := -32700
def invalidRequest : Int := -32600

end ErrorCodes

section Messages

variable {ν : Type} [DecidableEq ν] (ofLiteral : JsString → ν)

/-- Where a value stands for a condition. `0` and `-0` are one number. -/
def truthy : Json ν → Bool
  | .null => false
  | .bool value => value
  | .number value => value ≠ ofLiteral (js "0")
  | .string value => !value.isEmpty
  | .array _ | .object _ => true

omit [DecidableEq ν] in
/-- `obj[key]`, which an array, a text and `null` do not have. -/
def field (obj : Json ν) (key : String) : Option (Json ν) := UiServer.Json.field obj (js key)

omit [DecidableEq ν] in
/-- `value === text` -/
def isText (text : JsString) : Option (Json ν) → Bool
  | some (.string value) => value = text
  | _ => false

omit [DecidableEq ν] in
/-- `typeof value === 'string'` -/
def isString : Option (Json ν) → Bool
  | some (.string _) => true
  | _ => false

omit [DecidableEq ν] in
def isResponse (obj : Json ν) : Bool :=
  isText (js "2.0") (field obj "jsonrpc") && !isString (field obj "method") &&
    (field obj "id").isSome && ((field obj "result").isSome || (field obj "error").isSome)

omit [DecidableEq ν] in
def isValidMessage (msg : Json ν) : Bool :=
  isText (js "2.0") (field msg "jsonrpc") && isString (field msg "method")

/-- How a promise settles: with a value, or with the message of an error. -/
inductive Outcome (ν : Type) where
  | resolved (value : Option (Json ν))
  | rejected (message : Json ν)

/-- `err.message || 'Request failed'` -/
def failure (err : Json ν) : Json ν :=
  match field err "message" with
  | some message => if truthy ofLiteral message then message else .string (js "Request failed")
  | none => .string (js "Request failed")

/-- What a response makes of the promise. -/
def responseOutcome (msg : Json ν) : Outcome ν :=
  match field msg "error" with
  | some err =>
      if truthy ofLiteral err then .rejected (failure ofLiteral err)
      else .resolved (field msg "result")
  | none => .resolved (field msg "result")

inductive Outgoing (ν : Type) where
  | request (id method : JsString) (params : Option (Json ν))
  | error (id : Json ν) (code : Int) (message : JsString)

end Messages

/-! ## The transport -/

structure Timer where
  request : Nat
  id : JsString
  method : JsString
  timeoutMs : Nat

structure Transport (ν : Type) where
  idPrefix : JsString
  nextRequestId : Nat
  /-- The ids that are waited for, with the number of the promise. -/
  pending : List (JsString × Nat)
  timers : List Timer
  stopped : Bool
  buffer : JsString
  /-- The handlers that wait, and how many there have been. -/
  closeHandlers : List Nat
  handlerCount : Nat
  /-- The socket: destroyed, and its `close` emitted. -/
  destroyed : Bool
  closed : Bool
  /-- The lines that `handleLine` has been called with. -/
  handled : List JsString
  /-- The messages the message handler has been called with. -/
  delivered : List (Json ν)
  written : List (Outgoing ν)
  /-- Every call of a promise's `resolve` or `reject`. -/
  calls : List (Nat × Outcome ν)
  /-- Every call of a close handler. -/
  called : List Nat

inductive Event (ν : Type) where
  | request (method : JsString) (params : Option (Json ν)) (timeoutMs : Nat)
  | data (chunk : JsString)
  /-- The loop over the buffer takes the next line. -/
  | line
  /-- The timer of a request fires. -/
  | timeout (n : Nat)
  | stop
  | onClose
  | close
  | error

def lineFeed : CodeUnit := unit '\n'

namespace Transport

variable {ν : Type} (s : Transport ν)

def start (idPrefix : JsString) : Transport ν where
  idPrefix
  nextRequestId := 1
  pending := []
  timers := []
  stopped := false
  buffer := []
  closeHandlers := []
  handlerCount := 0
  destroyed := false
  closed := false
  handled := []
  delivered := []
  written := []
  calls := []
  called := []

def write (message : Outgoing ν) : Transport ν :=
  if s.destroyed then s else { s with written := s.written ++ [message] }

def sendError (id : Json ν) (code : Int) (message : JsString) : Transport ν :=
  s.write (.error id code message)

/-- `${this.idPrefix()}-${n}` -/
def requestId (n : Nat) : JsString := s.idPrefix ++ js "-" ++ (Text.ofNat n).map unit

def request (method : JsString) (params : Option (Json ν)) (timeoutMs : Nat) : Transport ν :=
  let n := s.nextRequestId
  let id := s.requestId n
  let s := { s with
    nextRequestId := n + 1
    timers := s.timers ++ [Timer.mk n id method timeoutMs]
    pending := setEntry s.pending id n }
  s.write (.request id method params)

def clearTimeout (n : Nat) : Transport ν :=
  { s with timers := s.timers.filter (·.request ≠ n) }

/-- `pending.delete(id)` -/
def deletePending (id : JsString) : Transport ν :=
  { s with pending := s.pending.filter (·.1 ≠ id) }

def call (n : Nat) (outcome : Outcome ν) : Transport ν :=
  { s with calls := s.calls ++ [(n, outcome)] }

/-- The `resolve` and `reject` of a pending entry. -/
def settle (n : Nat) (outcome : Outcome ν) : Transport ν := (s.clearTimeout n).call n outcome

def timeoutMessage (t : Timer) : JsString :=
  js "Timed out after " ++ (Text.ofNat t.timeoutMs).map unit ++ js "ms waiting for \"" ++
    t.method ++ js "\" response"

/-- The callback of `setTimeout`. -/
def onTimeout (t : Timer) : Transport ν :=
  ((s.clearTimeout t.request).deletePending t.id).call t.request
    (.rejected (.string (timeoutMessage t)))

def rejectPending (reason : JsString) : Transport ν :=
  let s := s.pending.foldl (fun s entry => s.settle entry.2 (.rejected (.string reason))) s
  { s with pending := [] }

section Lines

variable [DecidableEq ν] (ofLiteral : JsString → ν)

def handleResponse (msg : Json ν) : Transport ν :=
  match field msg "id" with
  | some (.string id) =>
      match s.pending.lookup id with
      | none => s
      | some n => (s.deletePending id).settle n (responseOutcome ofLiteral msg)
  -- the keys of the map are texts
  | _ => s

def handleLine (line : JsString) : Transport ν :=
  let s := { s with handled := s.handled ++ [line] }
  let trimmed := trim line
  if trimmed.isEmpty then s
  else
    match parseJson ofLiteral trimmed with
    | none => s.sendError .null ErrorCodes.parseError (js "Parse error: invalid JSON")
    | some parsed =>
        if isResponse parsed then s.handleResponse ofLiteral parsed
        else if !isValidMessage parsed then
          s.sendError .null ErrorCodes.invalidRequest
            (js "Invalid Request: not a valid JSON-RPC 2.0 message")
        else { s with delivered := s.delivered ++ [parsed] }

/-- One turn of the loop over the buffer. -/
def drainLine : Option (Transport ν) :=
  match s.buffer.idxOf? lineFeed with
  | none => none
  | some idx =>
      let line := s.buffer.take idx
      some ({ s with buffer := s.buffer.drop (idx + 1) }.handleLine ofLiteral line)

end Lines

def onClose : Transport ν :=
  { s with
    closeHandlers := s.closeHandlers ++ [s.handlerCount]
    handlerCount := s.handlerCount + 1 }

def stop : Transport ν :=
  if s.stopped then s
  else { { s with stopped := true }.rejectPending (js "Transport stopped") with destroyed := true }

def handleSocketClose : Transport ν :=
  if s.stopped then s
  else
    let s := { s with stopped := true }.rejectPending (js "Socket closed")
    { s with called := s.called ++ s.closeHandlers, closeHandlers := [] }

/-- No callback starts while the loop over a chunk runs. -/
def idle : Bool := !s.buffer.contains lineFeed

variable [DecidableEq ν] (ofLiteral : JsString → ν)

/-- A socket closes once, and emits nothing after that. -/
def step : Machine (Transport ν) (Event ν)
  | s, .request method params timeoutMs => some (s.request method params timeoutMs)
  | s, .data chunk =>
      if s.idle && !s.closed then some { s with buffer := s.buffer ++ chunk } else none
  | s, .line => s.drainLine ofLiteral
  | s, .timeout n =>
      if s.idle then (s.timers.find? (·.request = n)).map s.onTimeout else none
  | s, .stop => some s.stop
  | s, .onClose => some s.onClose
  | s, .close =>
      if s.idle && !s.closed then
        some { s.handleSocketClose with destroyed := true, closed := true }
      else none
  | s, .error =>
      if s.idle && !s.closed then some { s.handleSocketClose with destroyed := true } else none

end Transport

end AfyxGraph.Mcp.SocketTransport
