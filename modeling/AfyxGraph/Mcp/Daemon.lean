import AfyxGraph.Core.Transition
import Mathlib.Data.List.Nodup

/-! # Clients of the shared daemon

A connection waits for its client-hello, is handed over by a promise, and then has a
session. `close` and `error` reach the listeners that are attached when they are emitted:
those of `readClientHello`, none during the hand-over, those of `SocketTransport` after.
Connections are numbered in the order they arrive, and a session by its connection.
-/

namespace AfyxGraph.Mcp

open AfyxGraph.Core

def maxHelloLineBytes : Nat := 4096

structure ClientPeerInfo where
  pid : Option Nat
  hostPid : Option Nat
  deriving DecidableEq, Repr

def unknownPeers : ClientPeerInfo := ⟨none, none⟩

/-- The fields of a JSON object the hello is recognised by, each if it is a number. -/
structure HelloFields where
  afyxGraphClient : Option Nat
  pid : Option Nat
  hostPid : Option Nat
  deriving DecidableEq, Repr

/-- `parseJson` is `JSON.parse`, with `none` for an error or a value that is no object. -/
def parseClientHelloLine (parseJson : List UInt8 → Option HelloFields) (line : List UInt8) :
    Option ClientPeerInfo :=
  match parseJson line with
  | none => none
  | some o =>
      if o.afyxGraphClient ≠ some 1 || o.pid.isNone then none else some ⟨o.pid, o.hostPid⟩

def peerIsDead (peers : ClientPeerInfo) (isAlive : Nat → Bool) : Bool :=
  match peers.pid with
  | none => false
  | some pid => if !isAlive pid then true else peers.hostPid.any fun host => !isAlive host

inductive Phase where
  /-- `readClientHello` listens; its deadline is armed. -/
  | hello (buffered : List UInt8)
  /-- The hello is settled and `acceptSession` has not run yet. -/
  | handedOver (peers : ClientPeerInfo)
  | session (peers : ClientPeerInfo) (stopped : Bool)
  deriving DecidableEq, Repr

structure Connection where
  phase : Phase
  closeSeen : Bool
  errorSeen : Bool
  reaped : Bool
  deriving DecidableEq, Repr

namespace Connection

variable (conn : Connection)

/-- A session whose transport still reports the end of its socket. -/
def attached : Bool :=
  match conn.phase with
  | .session _ stopped => !stopped
  | _ => false

def pastHello : Bool :=
  match conn.phase with
  | .session _ _ => true
  | _ => false

def gone : Bool := conn.closeSeen || conn.errorSeen

/-- Past its hello, and its socket neither closed nor reaped. -/
def live : Bool := conn.pastHello && !conn.gone && !conn.reaped

def peers : ClientPeerInfo :=
  match conn.phase with
  | .session peers _ => peers
  | _ => unknownPeers

end Connection

/-- 0 disables a timer. -/
structure ActivityTimerOptions where
  idleTimeoutMs : Nat
  maxIdleMs : Nat
  clientSweepMs : Nat
  deriving DecidableEq, Repr

structure Daemon where
  connections : List Connection
  clients : List Nat
  lastActivityAt : Nat
  idleTimer : Bool
  stopping : Bool
  deriving DecidableEq, Repr

namespace Daemon

variable (opts : ActivityTimerOptions) (parseJson : List UInt8 → Option HelloFields) (s : Daemon)

def conn (c : Nat) : Option Connection := s.connections[c]?

def update (c : Nat) (f : Connection → Connection) : Daemon :=
  { s with connections := s.connections.modify c f }

def setPhase (c : Nat) (phase : Phase) : Daemon := s.update c fun conn => { conn with phase }

def armIdleTimer : Daemon :=
  if s.idleTimer || s.stopping then s
  else if opts.idleTimeoutMs = 0 then s
  else { s with idleTimer := true }

def dropClient (c : Nat) : Daemon :=
  if c ∈ s.clients then
    let s := { s with clients := s.clients.erase c }
    if s.clients = [] then s.armIdleTimer opts else s
  else s

/-- `session.stop()`, that is `transport.stop()`. -/
def stopSession (c : Nat) : Daemon :=
  match s.conn c with
  | some ⟨.session peers _, _, _, _⟩ => s.setPhase c (.session peers true)
  | _ => s

def stop : Daemon :=
  if s.stopping then s
  else
    let s := { s with stopping := true, idleTimer := false }
    { s.clients.foldl stopSession s with clients := [] }

/-- `settle` of `readClientHello`: the first outcome counts. -/
def settleHello (c : Nat) (peers : ClientPeerInfo) : Daemon := s.setPhase c (.handedOver peers)

def onHelloData (c : Nat) (buffered chunk : List UInt8) : Daemon :=
  let accumulated := buffered ++ chunk
  match accumulated.idxOf? 0x0a with
  | none =>
      if accumulated.length > maxHelloLineBytes then s.settleHello c unknownPeers
      else s.setPhase c (.hello accumulated)
  | some newlineAt =>
      match parseClientHelloLine parseJson (accumulated.take newlineAt) with
      | none => s.settleHello c unknownPeers
      | some peers => s.settleHello c peers

def acceptSession (c : Nat) (peers : ClientPeerInfo) : Daemon :=
  { s.setPhase c (.session peers false) with
    clients := s.clients ++ [c]
    idleTimer := false }

/-- `close` or `error` is emitted on the socket: `mark` records which. -/
def socketGone (c : Nat) (mark : Connection → Connection) : Daemon :=
  match s.conn c with
  | none => s
  | some conn =>
      let s := s.update c mark
      match conn.phase with
      | .hello _ => s.settleHello c unknownPeers
      | .handedOver _ => s
      | .session _ true => s
      | .session peers false => (s.setPhase c (.session peers true)).dropClient opts c

def deadClients (isAlive : Nat → Bool) : List Nat :=
  s.clients.filter fun c => (s.conn c).any fun conn => peerIsDead conn.peers isAlive

def reapClient (c : Nat) : Daemon :=
  ((s.stopSession c).update c fun conn => { conn with reaped := true }).dropClient opts c

def reapDeadClients (isAlive : Nat → Bool) : Daemon :=
  (s.deadClients isAlive).foldl (reapClient opts) s

/-- Some remaining client is known to be alive. -/
def provenAlive (isAlive : Nat → Bool) : Bool :=
  s.clients.any fun c =>
    (s.conn c).any fun conn => conn.peers.pid.isSome && !peerIsDead conn.peers isAlive

/-- `backstopShouldExit` with the state its sweep leaves. -/
def backstopShouldExit (now : Nat) (isAlive : Nat → Bool) : Daemon × Bool :=
  if s.stopping || s.clients.isEmpty then (s, false)
  else if now < s.lastActivityAt + opts.maxIdleMs then (s, false)
  else
    let s := s.reapDeadClients opts isAlive
    if s.clients.isEmpty then (s, false) else (s, !s.provenAlive isAlive)

/-! ## Runs -/

inductive Event where
  | connect
  /-- Bytes arrive, at the time `now`. -/
  | data (c : Nat) (chunk : List UInt8) (now : Nat)
  | helloTimeout (c : Nat)
  /-- The promise of `readClientHello` continues with `acceptSession`. -/
  | accept (c : Nat)
  | close (c : Nat)
  | error (c : Nat)
  | sweep (isAlive : Nat → Bool)
  | backstop (now : Nat) (isAlive : Nat → Bool)
  | idleTimer
  | stop

/-- The daemon once `start` has armed the idle timer. -/
def init (startedAt : Nat) : Daemon :=
  armIdleTimer opts
    { connections := [], clients := [], lastActivityAt := startedAt, idleTimer := false,
      stopping := false }

def step : Machine Daemon Event := fun s event =>
  match event with
  | .connect =>
      if s.stopping then none
      else some { s with connections := s.connections ++ [⟨.hello [], false, false, false⟩] }
  | .data c chunk now =>
      match s.conn c with
      | some ⟨.hello buffered, _, _, _⟩ => some (s.onHelloData parseJson c buffered chunk)
      | some ⟨.session _ _, _, _, _⟩ => some { s with lastActivityAt := now }
      | _ => none
  | .helloTimeout c =>
      match s.conn c with
      | some ⟨.hello _, _, _, _⟩ => some (s.settleHello c unknownPeers)
      | _ => none
  | .accept c =>
      match s.conn c with
      | some ⟨.handedOver peers, _, _, _⟩ => some (s.acceptSession c peers)
      | _ => none
  | .close c =>
      if (s.conn c).any (!·.closeSeen) then
        some (s.socketGone opts c fun conn => { conn with closeSeen := true })
      else none
  | .error c =>
      if (s.conn c).any (!·.errorSeen) then
        some (s.socketGone opts c fun conn => { conn with errorSeen := true })
      else none
  | .sweep isAlive =>
      if s.stopping || opts.clientSweepMs = 0 then none else some (s.reapDeadClients opts isAlive)
  | .backstop now isAlive =>
      if s.stopping || opts.maxIdleMs = 0 then none
      else
        let (s, exits) := s.backstopShouldExit opts now isAlive
        some (if exits then s.stop else s)
  | .idleTimer =>
      if s.idleTimer then
        let s := { s with idleTimer := false }
        some (if s.clients.isEmpty then s.stop else s.armIdleTimer opts)
      else none
  | .stop => some s.stop

/-! ## The count -/

def live (c : Nat) : Bool := (s.conn c).any Connection.live

/-- The counted clients are the live ones, and without any the idle timer is armed. -/
structure Exact : Prop where
  counted : ∀ c, c ∈ s.clients ↔ s.live c = true
  once : s.clients.Nodup
  idle : s.clients = [] → opts.idleTimeoutMs ≠ 0 → s.idleTimer = true

/-- The claim about one state: nothing is said of a daemon that stops. -/
def CountExact : Prop := s.stopping = false → Exact opts s

/-- The socket of a connection has not ended when its session is made. -/
def CountGuard (s : Daemon) : Event → Prop
  | .accept c => s.stopping = false → ∀ conn, s.conn c = some conn → conn.gone = false
  | _ => True

end Daemon

end AfyxGraph.Mcp
