import AfyxGraph.Admission.Admit

/-! # The store writer and its worker

A fresh bulk index posts its bundles to a writer thread. The two parties and the messages in
flight are one state: `inbox` is what the worker has not taken yet, `outbox` what the client has
not heard. The thread delivers both in order, what it posted before its end comes ahead of the
`exit`, and an uncaught error is reported before the `exit` too. What was posted, and how far,
when a drain was asked for is kept beside the two.
-/

namespace AfyxGraph.Bulk.StoreWriter

open AfyxGraph.Core Extraction Store Admission

/-- One file's payload; a kernel payload is decoded by the worker. -/
inductive Payload where
  | bundle (bundle : StoreBundle)
  | kernel (filePath : String) (language : Language) (result : ExtractionResult) (file : FileRecord)

/-- The messages to the worker. -/
inductive InMessage where
  | «open»
  | bundle (payload : Payload)
  | drain (id : Nat)
  | close

/-- What the client hears: the replies of the worker, and its end. -/
inductive OutMessage where
  | ready
  | ack
  | drained (id : Nat)
  | error (message : String)
  | exit (code : Int)
  deriving DecidableEq

/-! ## The worker -/

structure Worker where
  tables : Tables
  /-- There is a query builder. -/
  opened : Bool := false
  alive : Bool := true
  inbox : List InMessage := [.open]
  /-- The payloads taken from the inbox, and of these the ones that were stored. -/
  taken : List Payload := []
  applied : List Payload := []
  outbox : List OutMessage := []
  /-- The uncaught error that the client has not heard of. -/
  failure : Option String := none

namespace Worker

variable (env : Environment)

def decodeKernelBundle (filePath : String) (language : Language) (result : ExtractionResult)
    (file : FileRecord) : StoreBundle :=
  finalizeStoreBundle (env.materializeKernelResult result filePath language) filePath language file

def decoded : Payload → StoreBundle
  | .bundle bundle => bundle
  | .kernel filePath language result file => decodeKernelBundle env filePath language result file

def post (w : Worker) (reply : OutMessage) : Worker := { w with outbox := w.outbox ++ [reply] }

/-- The end of the thread; what it has not taken is lost. -/
def finish (w : Worker) (code : Int) : Worker :=
  { w with alive := false, inbox := [] }.post (.exit code)

/-- The store of one payload; `fault` is what throws besides a broken foreign key. -/
def store (w : Worker) (payload : Payload) (fault : Option String) : Worker :=
  let w := { w with taken := w.taken ++ [payload] }
  if w.opened then
    match fault with
    | some message => w.post (.error message)
    | none =>
        match storeBundle w.tables (decoded env payload) with
        | none => w.post (.error "FOREIGN KEY constraint failed")
        | some tables => { w with tables, applied := w.applied ++ [payload] }.post .ack
  else w.post (.error "store-worker: bundle before open")

/-- One turn of `port.on('message')`. -/
def work (w : Worker) (fault : Option String) : Option Worker :=
  match w.inbox with
  | [] => none
  | message :: inbox =>
      let w := { w with inbox }
      match message with
      | .open =>
          match fault with
          | some message => some (w.post (.error message))
          | none => some ({ w with opened := true }.post .ready)
      | .bundle payload => some (w.store env payload fault)
      | .drain id => if fault = none then some (w.post (.drained id)) else none
      | .close => if fault = none then some (w.finish 0) else none

/-- The thread ends by itself, after an uncaught error or without one. -/
def die (w : Worker) (error : Option String) (code : Int) : Worker :=
  { w with failure := error }.finish code

end Worker

/-! ## The client -/

structure BelowWaiter where
  id : Nat
  limit : Nat
  deriving DecidableEq

structure Client where
  firstError : Option String := none
  drainWaiters : List Nat := []
  nextDrainId : Nat := 0
  exited : Bool := false
  outstanding : Nat := 0
  belowWaiters : List BelowWaiter := []
  nextBelowId : Nat := 0
  /-- The promises of `close` that wait for the exit. -/
  closers : Nat := 0
  /-- The drains that were resolved and the ones that were rejected. -/
  resolved : List Nat := []
  rejected : List (Nat × String) := []
  /-- The `waitBelow` promises that were resolved. -/
  released : List Nat := []

namespace Client

variable (c : Client)

def failAll (error : String) : Client :=
  let first := c.firstError.getD error
  { c with
    firstError := some first
    rejected := c.rejected ++ c.drainWaiters.map fun id => (id, first)
    drainWaiters := []
    outstanding := 0
    released := c.released ++ c.belowWaiters.map (·.id)
    belowWaiters := [] }

def settleOne : Client :=
  let outstanding := c.outstanding - 1
  { c with
    outstanding
    released := c.released ++ (c.belowWaiters.filter (outstanding < ·.limit)).map (·.id)
    belowWaiters := c.belowWaiters.filter fun w => ¬ outstanding < w.limit }

def onDrained (id : Nat) : Client :=
  if id ∈ c.drainWaiters then
    let rest := { c with drainWaiters := c.drainWaiters.filter (· ≠ id) }
    match c.firstError with
    | some error => { rest with rejected := c.rejected ++ [(id, error)] }
    | none => { rest with resolved := c.resolved ++ [id] }
  else c

def onError (message : String) : Client :=
  { c with firstError := some (c.firstError.getD ("store worker: " ++ message)) }.settleOne

def onExit (code : Int) : Client :=
  let c := { c with exited := true, closers := 0 }
  if code ≠ 0 then c.failAll ("store worker exited with code " ++ toString code)
  else if c.drainWaiters ≠ [] ∨ c.belowWaiters ≠ [] then
    c.failAll "store worker exited before drain completed"
  else c

def onMessage : OutMessage → Client
  | .ready => c
  | .ack => c.settleOne
  | .drained id => c.onDrained id
  | .error message => c.onError message
  | .exit code => c.onExit code

end Client

/-! ## Both together -/

structure System where
  client : Client := {}
  worker : Worker
  /-- The payloads `send` has posted. -/
  posted : List Payload := []
  /-- How many payloads had been posted when a drain was asked for. -/
  marks : List (Nat × Nat) := []

namespace System

variable (env : Environment) (s : System)

def init (tables : Tables) : System := { worker := { tables } }

/-- A message to a thread that has ended is lost. -/
def postMessage (message : InMessage) : System :=
  if s.worker.alive then
    { s with worker := { s.worker with inbox := s.worker.inbox ++ [message] } }
  else s

/-- A `send` that throws posts nothing. -/
def send (payload : Payload) : System :=
  if s.client.firstError.isSome || s.client.exited then s
  else
    { s with
      client := { s.client with outstanding := s.client.outstanding + 1 }
      posted := s.posted ++ [payload] }.postMessage (.bundle payload)

/-- A call that resolves at once leaves no waiter. -/
def waitBelow (limit : Nat) : System :=
  if s.client.firstError.isSome || s.client.exited || s.client.outstanding < limit then s
  else
    { s with
      client := { s.client with
        belowWaiters := s.client.belowWaiters ++ [⟨s.client.nextBelowId, limit⟩]
        nextBelowId := s.client.nextBelowId + 1 } }

/-- A call that rejects at once leaves no waiter. -/
def drain : System :=
  if s.client.firstError.isSome || s.client.exited then s
  else
    let id := s.client.nextDrainId
    { s with
      client := { s.client with
        nextDrainId := id + 1
        drainWaiters := s.client.drainWaiters ++ [id] }
      marks := s.marks ++ [(id, s.posted.length)] }.postMessage (.drain id)

def close : System :=
  if s.client.exited then s
  else
    { s with client := { s.client with closers := s.client.closers + 1 } }.postMessage .close

/-- The client hears of an uncaught error. -/
def hearFailure : Option System :=
  match s.worker.failure with
  | none => none
  | some error =>
      some { s with client := s.client.failAll error, worker := { s.worker with failure := none } }

/-- The client hears the next message; an `exit` comes after the uncaught error. -/
def hear : Option System :=
  match s.worker.outbox with
  | [] => none
  | message :: outbox =>
      match message, s.worker.failure with
      | .exit _, some _ => none
      | _, _ =>
          some { s with client := s.client.onMessage message, worker := { s.worker with outbox } }

inductive Event where
  | send (payload : Payload)
  | waitBelow (limit : Nat)
  | drain
  | close
  | work (fault : Option String)
  | die (error : Option String) (code : Int)
  | hear
  | hearFailure
  /-- The timer of `close` terminates the thread. -/
  | closeTimeout

def step : Machine System Event := fun s event =>
  match event with
  | .send payload => some (s.send payload)
  | .waitBelow limit => some (s.waitBelow limit)
  | .drain => some s.drain
  | .close => some s.close
  | .work fault =>
      if s.worker.alive then (s.worker.work env fault).map fun worker => { s with worker } else none
  | .die error code =>
      if s.worker.alive then some { s with worker := s.worker.die error code } else none
  | .hear => s.hear
  | .hearFailure => s.hearFailure
  | .closeTimeout =>
      if s.worker.alive ∧ 0 < s.client.closers then
        some { s with worker := s.worker.die none 1 }
      else none

end System

end AfyxGraph.Bulk.StoreWriter
