import AfyxGraph.Core.Delimited
import AfyxGraph.Mcp.Daemon
import AfyxGraph.Runtime.JsonText

/-! # The bytes of the client-hello

A connection's first chunks are read by `readClientHello`, and what it has read past the hello is
put back in front of the stream for the transport. A run is the events of one socket: the chunks
the client's bytes are cut into, the deadline, and the end of the socket.
-/

namespace AfyxGraph.Mcp.ClientHello

open AfyxGraph.Core AfyxGraph.Runtime

/-! ## The line -/

/-- Per-client peer pids; both are missing where there was no hello. -/
structure ClientPeerInfo (ν : Type) where
  pid : Option ν
  hostPid : Option ν
  deriving DecidableEq

def noPeers {ν : Type} : ClientPeerInfo ν := ⟨none, none⟩

def key (s : String) : JsString := s.toList.map unit

section Line

variable {ν : Type} [DecidableEq ν] (ofLiteral : JsString → ν)

/-- `typeof value === 'number' ? value : null` -/
def numberOf : Option (Json ν) → Option ν
  | some (.number value) => some value
  | _ => none

/-- `ofLiteral` is the value of a number in JSON. A value that is no object, and an array, has
none of the fields. -/
def parseClientHelloLine (line : JsString) : Option (ClientPeerInfo ν) :=
  match parseJson ofLiteral line with
  | some (.object o) =>
      if numberOf (o.lookup (key "afyx_graph_client")) ≠ some (ofLiteral (key "1")) ||
          (numberOf (o.lookup (key "pid"))).isNone then none
      else some ⟨numberOf (o.lookup (key "pid")), numberOf (o.lookup (key "hostPid"))⟩
  | _ => none

theorem pid_of_parseClientHelloLine {line : JsString} {peers : ClientPeerInfo ν}
    (h : parseClientHelloLine ofLiteral line = some peers) : peers.pid.isSome = true := by
  rw [parseClientHelloLine] at h
  split at h
  · split at h
    · cases h
    · rename_i hfields
      simp only [Bool.or_eq_true, not_or, Option.isNone_iff_eq_none] at hfields
      obtain rfl := Option.some.inj h
      exact Option.isSome_iff_ne_none.mpr hfields.2
  · cases h

end Line

/-! ## Buffers -/

def newline : UInt8 := 0x0a

/-- `Buffer.concat(list, totalLength)` -/
def concat (list : List Bytes) (totalLength : Nat) : Bytes :=
  (list.flatten ++ List.replicate (totalLength - list.flatten.length) 0).take totalLength

/-- `list.length === 1 ? list[0] : Buffer.concat(list, totalLength)` -/
def joined : List Bytes → Nat → Bytes
  | [piece], _ => piece
  | list, totalLength => concat list totalLength

theorem joined_eq (list : List Bytes) : joined list list.flatten.length = list.flatten := by
  have hconcat : concat list list.flatten.length = list.flatten := by
    rw [concat, Nat.sub_self, List.replicate_zero, List.append_nil, List.take_length]
  rw [joined.eq_def]
  split
  · rw [List.flatten_cons, List.flatten_nil, List.append_nil]
  · exact hconcat

/-- The stream behind its first line and newline. -/
def afterFirstLine (bytes : Bytes) : Bytes :=
  match bytes.idxOf? newline with
  | none => []
  | some newlineAt => bytes.drop (newlineAt + 1)

theorem afterFirstLine_line {line : Bytes} (h : newline ∉ line) (tail : Bytes) :
    afterFirstLine (line ++ newline :: tail) = tail := by
  rw [afterFirstLine, idxOf?_segment h]
  exact drop_segment line newline tail

/-! ## The socket -/

structure HelloSocket (ν : Type) where
  buffered : List Bytes
  bufferedLength : Nat
  /-- What the promise is resolved with. -/
  settled : Option (ClientPeerInfo ν)
  /-- What the paused stream holds for the transport. -/
  queue : List Bytes
  destroyed : Bool

inductive Event where
  | data (chunk : Bytes)
  /-- The deadline passes. -/
  | timeout
  | destroy
  /-- `error` or `close` is emitted. -/
  | gone

/-- The bytes of the client that arrive. -/
def Event.bytes : Event → Bytes
  | .data chunk => chunk
  | .timeout | .destroy | .gone => []

def sent (events : List Event) : Bytes := events.flatMap Event.bytes

namespace HelloSocket

variable {ν : Type} (d : Bytes.TextDecoder) (ofLiteral : JsString → ν) (s : HelloSocket ν)

def start : HelloSocket ν := ⟨[], 0, none, [], false⟩

/-- `socket.unshift(putBack)`, if there is something to put back and somewhere to put it. -/
def unshift (putBack : Option Bytes) : List Bytes :=
  match putBack with
  | some bytes => if bytes.length > 0 && !s.destroyed then bytes :: s.queue else s.queue
  | none => s.queue

def settle (peers : ClientPeerInfo ν) (putBack : Option Bytes) : HelloSocket ν :=
  if s.settled.isSome then s
  else { s with settled := some peers, queue := s.unshift putBack }

def onData [DecidableEq ν] (chunk : Bytes) : HelloSocket ν :=
  let s := { s with
    buffered := s.buffered ++ [chunk]
    bufferedLength := s.bufferedLength + chunk.length }
  let accumulated := joined s.buffered s.bufferedLength
  match accumulated.idxOf? newline with
  | none =>
      if s.bufferedLength > maxHelloLineBytes then s.settle noPeers (some accumulated)
      else { s with buffered := [accumulated] }
  | some newlineAt =>
      match parseClientHelloLine ofLiteral (decodeUtf8 d (accumulated.take newlineAt)) with
      | none => s.settle noPeers (some accumulated)
      | some peers =>
          let tail := accumulated.drop (newlineAt + 1)
          s.settle peers (if tail.length > 0 then some tail else none)

def onTimeout : HelloSocket ν :=
  let partialBytes := if s.buffered.length = 0 then none
    else some (joined s.buffered s.bufferedLength)
  s.settle noPeers partialBytes

def onSocketGone : HelloSocket ν := s.settle noPeers none

/-- Once the promise is settled its listeners and its timer are gone. -/
def step [DecidableEq ν] : Machine (HelloSocket ν) Event
  | s, .data chunk =>
      if s.destroyed then none
      else if s.settled.isSome then some { s with queue := s.queue ++ [chunk] }
      else some (s.onData d ofLiteral chunk)
  | s, .timeout => if s.settled.isSome then none else some s.onTimeout
  | s, .destroy => some { s with destroyed := true }
  | s, .gone => if s.destroyed then some s.onSocketGone else none

/-- What the transport gets of a stream. -/
def handed (peers : ClientPeerInfo ν) (stream : Bytes) : Bytes :=
  if peers.pid.isSome then afterFirstLine stream else stream

/-! ## What is read and what is put back -/

/-- `stream` is what has arrived. -/
structure Inv (s : HelloSocket ν) (stream : Bytes) : Prop where
  buffered : s.settled = none → s.buffered.flatten = stream
  bufferedLength : s.settled = none → s.bufferedLength = stream.length
  queue : s.settled = none → s.queue = []
  /-- While it is read there is no first line yet, and not too much without one. -/
  noLine : s.settled = none → newline ∉ stream
  short : s.settled = none → stream.length ≤ maxHelloLineBytes
  handed : ∀ peers, s.settled = some peers → s.destroyed = false →
    s.queue.flatten = handed peers stream
  /-- Pids are reported once the first line is there. -/
  line : ∀ peers, s.settled = some peers → peers.pid.isSome = true → newline ∈ stream

theorem inv_start : Inv (start : HelloSocket ν) [] where
  buffered _ := rfl
  bufferedLength _ := rfl
  queue _ := rfl
  noLine _ := List.not_mem_nil
  short _ := Nat.zero_le _
  handed _ h := nomatch h
  line _ h := nomatch h

variable {d ofLiteral} {s}

theorem settle_of_none (h : s.settled = none) (peers : ClientPeerInfo ν)
    (putBack : Option Bytes) :
    s.settle peers putBack = { s with settled := some peers, queue := s.unshift putBack } := by
  rw [settle, h]
  rfl

theorem flatten_unshift (hqueue : s.queue = []) (hlive : s.destroyed = false) (bytes : Bytes) :
    (s.unshift (some bytes)).flatten = bytes := by
  rw [unshift, hqueue, hlive]
  cases bytes with
  | nil => rfl
  | cons b bytes => exact List.append_nil _

theorem flatten_tail (hqueue : s.queue = []) (hlive : s.destroyed = false) (tail : Bytes) :
    (s.unshift (if tail.length > 0 then some tail else none)).flatten = tail := by
  by_cases htail : tail.length > 0
  · rw [if_pos htail, flatten_unshift hqueue hlive]
  · rw [if_neg htail, unshift, hqueue, List.flatten_nil]
    exact (List.length_eq_zero_iff.mp (Nat.eq_zero_of_not_pos htail)).symm

/-- A promise that settles and leaves the transport the stream it is to have. -/
theorem Inv.settle {stream : Bytes} {peers : ClientPeerInfo ν} {putBack : Option Bytes}
    (hnone : s.settled = none)
    (hput : s.destroyed = false → (s.unshift putBack).flatten = HelloSocket.handed peers stream)
    (hline : peers.pid.isSome = true → newline ∈ stream) :
    Inv (s.settle peers putBack) stream := by
  rw [settle_of_none hnone]
  refine ⟨nofun, nofun, nofun, nofun, nofun, ?_, ?_⟩
  · intro peers' hpeers hlive
    obtain rfl := Option.some.inj hpeers
    exact hput hlive
  · intro peers' hpeers
    obtain rfl := Option.some.inj hpeers
    exact hline

theorem Inv.putBack {stream : Bytes} (hnone : s.settled = none) (hqueue : s.queue = []) :
    Inv (s.settle noPeers (some stream)) stream := by
  apply Inv.settle hnone
  · intro hlive
    exact flatten_unshift hqueue hlive stream
  · intro hpid
    cases hpid

theorem handed_append {peers : ClientPeerInfo ν} {stream : Bytes}
    (h : peers.pid.isSome = true → newline ∈ stream) (chunk : Bytes) :
    handed peers (stream ++ chunk) = handed peers stream ++ chunk := by
  by_cases hpid : peers.pid.isSome = true
  · obtain ⟨line, tail, rfl, hline⟩ := List.eq_append_cons_of_mem (h hpid)
    rw [handed, handed, if_pos hpid, if_pos hpid, afterFirstLine_line hline, List.append_assoc,
      List.cons_append, afterFirstLine_line hline]
  · rw [handed, handed, if_neg hpid, if_neg hpid]

theorem Inv.onTimeout {stream : Bytes} (hs : Inv s stream) (hnone : s.settled = none) :
    Inv s.onTimeout stream := by
  have hbuffered := hs.buffered hnone
  have hqueue := hs.queue hnone
  have hlength : s.bufferedLength = s.buffered.flatten.length := by
    rw [hbuffered, hs.bufferedLength hnone]
  by_cases hempty : s.buffered.length = 0
  · have hstream : stream = [] := by
      rw [← hbuffered, List.length_eq_zero_iff.mp hempty, List.flatten_nil]
    rw [HelloSocket.onTimeout, if_pos hempty, hstream]
    apply Inv.settle hnone
    · intro _
      rw [unshift, hqueue]
      rfl
    · intro hpid
      cases hpid
  · rw [HelloSocket.onTimeout, if_neg hempty, hlength, joined_eq, hbuffered]
    exact Inv.putBack hnone hqueue

/-- A settled promise is left alone. -/
theorem Inv.queued {stream : Bytes} (hs : Inv s stream) (hsettled : s.settled.isSome = true)
    (chunk : Bytes) : Inv { s with queue := s.queue ++ [chunk] } (stream ++ chunk) := by
  have hne : s.settled ≠ none := Option.isSome_iff_ne_none.mp hsettled
  refine ⟨fun h => absurd h hne, fun h => absurd h hne, fun h => absurd h hne,
    fun h => absurd h hne, fun h => absurd h hne, ?_, ?_⟩
  · intro peers hpeers hlive
    rw [List.flatten_append, hs.handed peers hpeers hlive, List.flatten_singleton,
      handed_append (hs.line peers hpeers)]
  · intro peers hpeers hpid
    exact List.mem_append_left _ (hs.line peers hpeers hpid)

variable [DecidableEq ν]

/-- What `onData` does with what has arrived so far. -/
theorem onData_of_inv {stream : Bytes} (hs : Inv s stream) (hnone : s.settled = none)
    (chunk : Bytes) :
    s.onData d ofLiteral chunk =
      let grown := { s with
        buffered := s.buffered ++ [chunk]
        bufferedLength := (stream ++ chunk).length }
      match (stream ++ chunk).idxOf? newline with
      | none =>
          if (stream ++ chunk).length > maxHelloLineBytes then
            grown.settle noPeers (some (stream ++ chunk))
          else { grown with buffered := [stream ++ chunk] }
      | some newlineAt =>
          match parseClientHelloLine ofLiteral
              (decodeUtf8 d ((stream ++ chunk).take newlineAt)) with
          | none => grown.settle noPeers (some (stream ++ chunk))
          | some peers =>
              let tail := (stream ++ chunk).drop (newlineAt + 1)
              grown.settle peers (if tail.length > 0 then some tail else none) := by
  have hflatten : (s.buffered ++ [chunk]).flatten = stream ++ chunk := by
    rw [List.flatten_append, hs.buffered hnone, List.flatten_singleton]
  have hlength : s.bufferedLength + chunk.length = (stream ++ chunk).length := by
    rw [hs.bufferedLength hnone, List.length_append]
  have hjoined : joined (s.buffered ++ [chunk]) (stream ++ chunk).length = stream ++ chunk := by
    rw [← hflatten, joined_eq]
  simp only [onData, hlength, hjoined]

theorem Inv.onData {stream : Bytes} (hs : Inv s stream) (hnone : s.settled = none)
    (chunk : Bytes) : Inv (s.onData d ofLiteral chunk) (stream ++ chunk) := by
  have hqueue := hs.queue hnone
  rw [onData_of_inv hs hnone]
  rcases segment_cases newline (stream ++ chunk) with hno | ⟨line, tail, heq, hline⟩
  · rw [List.idxOf?_eq_none_iff.mpr hno]
    simp only
    split
    · exact Inv.putBack hnone hqueue
    · rename_i hshort
      refine ⟨fun _ => ?_, fun _ => rfl, fun _ => hqueue, fun _ => hno, fun _ => ?_, ?_, ?_⟩
      · exact List.flatten_singleton
      · exact Nat.le_of_not_gt hshort
      · intro peers hpeers
        cases hnone.symm.trans hpeers
      · intro peers hpeers
        cases hnone.symm.trans hpeers
  · rw [heq, idxOf?_segment hline]
    simp only
    split
    · exact Inv.putBack hnone hqueue
    · rename_i peers hparse
      refine Inv.settle hnone ?_ fun _ => List.mem_append_right _ (List.mem_cons_self ..)
      intro hlive
      refine (flatten_tail hqueue hlive _).trans ?_
      rw [HelloSocket.handed, if_pos (pid_of_parseClientHelloLine ofLiteral hparse),
        afterFirstLine_line hline, drop_segment]

/-- One event keeps the bytes: what has arrived is read, put back or queued. -/
theorem Inv.step {stream : Bytes} (hs : Inv s stream) {e : Event} {t : HelloSocket ν}
    (h : HelloSocket.step d ofLiteral s e = some t) : Inv t (stream ++ e.bytes) := by
  cases e with
  | data chunk =>
      rw [HelloSocket.step] at h
      split at h
      · cases h
      split at h
      · rename_i hsettled
        obtain rfl := Option.some.inj h
        exact hs.queued hsettled chunk
      · rename_i hsettled
        obtain rfl := Option.some.inj h
        exact hs.onData (Option.not_isSome_iff_eq_none.mp hsettled) chunk
  | timeout =>
      rw [HelloSocket.step] at h
      split at h
      · cases h
      · rename_i hsettled
        obtain rfl := Option.some.inj h
        rw [Event.bytes, List.append_nil]
        exact hs.onTimeout (Option.not_isSome_iff_eq_none.mp hsettled)
  | destroy =>
      obtain rfl := Option.some.inj h
      rw [Event.bytes, List.append_nil]
      exact ⟨hs.buffered, hs.bufferedLength, hs.queue, hs.noLine, hs.short, fun _ _ => nofun,
        hs.line⟩
  | gone =>
      rw [HelloSocket.step] at h
      split at h
      · rename_i hdestroyed
        obtain rfl := Option.some.inj h
        rw [Event.bytes, List.append_nil, onSocketGone]
        cases hsettled : s.settled with
        | none =>
            apply Inv.settle hsettled
            · intro hlive
              exact absurd hdestroyed (by rw [hlive]; exact Bool.false_ne_true)
            · intro hpid
              cases hpid
        | some peers =>
            rw [HelloSocket.settle, hsettled]
            exact hs
      · cases h

theorem Inv.run {stream : Bytes} (hs : Inv s stream) {events : List Event} {t : HelloSocket ν}
    (h : (HelloSocket.step d ofLiteral).run s events = some t) :
    Inv t (stream ++ sent events) := by
  induction events generalizing s stream with
  | nil =>
      obtain rfl := Option.some.inj h
      rw [sent, List.flatMap_nil, List.append_nil]
      exact hs
  | cons e events ih =>
      obtain ⟨u, hu, hrest⟩ := Option.bind_eq_some_iff.mp h
      have hnext := ih (hs.step hu) hrest
      rwa [List.append_assoc] at hnext

/-! ## Which first lines are recognised -/

omit [DecidableEq ν] in
theorem settled_settle (h : s.settled = none) (peers : ClientPeerInfo ν)
    (putBack : Option Bytes) : (s.settle peers putBack).settled = some peers := by
  rw [settle_of_none h]

theorem settled_step (hsettled : s.settled.isSome = true) {e : Event} {t : HelloSocket ν}
    (h : step d ofLiteral s e = some t) : t.settled = s.settled := by
  cases e with
  | data chunk =>
      rw [step] at h
      split at h
      · cases h
      · obtain rfl := Option.some.inj h
        rfl
  | timeout =>
      rw [step, if_pos hsettled] at h
      cases h
  | destroy =>
      obtain rfl := Option.some.inj h
      rfl
  | gone =>
      rw [step] at h
      split at h
      · obtain rfl := Option.some.inj h
        rw [onSocketGone, settle, if_pos hsettled]
      · cases h

/-- A promise settles once. -/
theorem settled_run (hsettled : s.settled.isSome = true) {events : List Event}
    {t : HelloSocket ν} (h : (step d ofLiteral).run s events = some t) :
    t.settled = s.settled := by
  induction events generalizing s with
  | nil =>
      obtain rfl := Option.some.inj h
      rfl
  | cons e events ih =>
      obtain ⟨u, hu, hrest⟩ := Option.bind_eq_some_iff.mp h
      have hstep := settled_step hsettled hu
      rw [ih (by rw [hstep]; exact hsettled) hrest, hstep]

/-- A chunk after `before` has left more than the bound of a line unended. -/
def Oversized (before : Bytes) (chunks : List Bytes) : Prop :=
  ∃ first rest, chunks = first ++ rest ∧ newline ∉ before ++ first.flatten ∧
    (before ++ first.flatten).length > maxHelloLineBytes

theorem not_oversized_of_newline {before : Bytes} (hbefore : before.length ≤ maxHelloLineBytes)
    {chunk : Bytes} (hchunk : newline ∈ before ++ chunk) (chunks : List Bytes) :
    ¬ Oversized before (chunk :: chunks) := by
  rintro ⟨first, rest, heq, hno, hlong⟩
  cases first with
  | nil =>
      rw [List.flatten_nil, List.append_nil] at hlong
      exact absurd hbefore (Nat.not_le_of_gt hlong)
  | cons c first =>
      obtain ⟨rfl, -⟩ := List.cons.inj heq
      apply hno
      rw [List.flatten_cons, ← List.append_assoc]
      exact List.mem_append_left _ hchunk

theorem oversized_cons {before chunk : Bytes} (hbefore : before.length ≤ maxHelloLineBytes)
    {chunks : List Bytes} :
    Oversized before (chunk :: chunks) ↔ Oversized (before ++ chunk) chunks := by
  constructor
  · rintro ⟨first, rest, heq, hno, hlong⟩
    cases first with
    | nil =>
        rw [List.flatten_nil, List.append_nil] at hlong
        exact absurd hbefore (Nat.not_le_of_gt hlong)
    | cons c first =>
        obtain ⟨rfl, rfl⟩ := List.cons.inj heq
        rw [List.flatten_cons, ← List.append_assoc] at hno hlong
        exact ⟨first, rest, rfl, hno, hlong⟩
  · rintro ⟨first, rest, rfl, hno, hlong⟩
    refine ⟨chunk :: first, rest, rfl, ?_, ?_⟩
    · rwa [List.flatten_cons, ← List.append_assoc]
    · rwa [List.flatten_cons, ← List.append_assoc]

/-- What the chunks that bring a whole hello line leave behind. -/
theorem run_hello {before line tail : Bytes} {peers : ClientPeerInfo ν} {chunks : List Bytes}
    (hs : Inv s before) (hnone : s.settled = none)
    (hstream : before ++ chunks.flatten = line ++ newline :: tail) (hline : newline ∉ line)
    (hhello : parseClientHelloLine ofLiteral (decodeUtf8 d line) = some peers)
    {t : HelloSocket ν} (h : (step d ofLiteral).run s (chunks.map Event.data) = some t) :
    (Oversized before chunks ∧ t.settled = some noPeers) ∨
      (¬ Oversized before chunks ∧ t.settled = some peers) := by
  induction chunks generalizing s before with
  | nil =>
      rw [List.flatten_nil, List.append_nil] at hstream
      refine absurd ?_ (hs.noLine hnone)
      rw [hstream]
      exact List.mem_append_right _ (List.mem_cons_self ..)
  | cons chunk chunks ih =>
      obtain ⟨u, hu, hrest⟩ := Option.bind_eq_some_iff.mp h
      have hshort := hs.short hnone
      have hnext := hs.step hu
      rw [List.flatten_cons, ← List.append_assoc] at hstream
      have hu' : u = s.onData d ofLiteral chunk := by
        rw [step] at hu
        split at hu
        · cases hu
        · rw [hnone, Option.isSome_none, if_neg Bool.false_ne_true] at hu
          exact (Option.some.inj hu).symm
      rw [onData_of_inv hs hnone] at hu'
      rcases segment_cases newline (before ++ chunk) with hno | ⟨line', tail', heq, hline'⟩
      · rw [List.idxOf?_eq_none_iff.mpr hno] at hu'
        simp only at hu'
        split at hu'
        · rename_i hlong
          have hsettled : u.settled = some noPeers := by
            rw [hu']
            apply settled_settle
            exact hnone
          refine .inl ⟨⟨[chunk], chunks, rfl, ?_, ?_⟩, ?_⟩
          · rwa [List.flatten_singleton]
          · rwa [List.flatten_singleton]
          · rw [settled_run (by rw [hsettled]; rfl) hrest, hsettled]
        · have hopen : u.settled = none := by rw [hu', ← hnone]
          rw [oversized_cons hshort]
          exact ih hnext hopen hstream hrest
      · have hsame : line' = line := by
          rw [heq, List.append_assoc, List.cons_append] at hstream
          exact segment_unique hline' hline hstream
        rw [heq, idxOf?_segment hline'] at hu'
        simp only [List.take_left, hsame, hhello] at hu'
        have hsettled : u.settled = some peers := by
          rw [hu']
          apply settled_settle
          exact hnone
        refine .inr ⟨?_, ?_⟩
        · apply not_oversized_of_newline hshort
          rw [heq]
          exact List.mem_append_right _ (List.mem_cons_self ..)
        · rw [settled_run (by rw [hsettled]; rfl) hrest, hsettled]

omit [DecidableEq ν] in
/-- What has come without a newline is part of the first line. -/
theorem length_le_of_no_newline {bytes after line tail : Bytes} (hno : newline ∉ bytes)
    (heq : bytes ++ after = line ++ newline :: tail) : bytes.length ≤ line.length := by
  rcases List.append_eq_append_iff.mp heq with ⟨end_, hline, -⟩ | ⟨spill, hbytes, hafter⟩
  · rw [hline, List.length_append]
    exact Nat.le_add_right ..
  · cases spill with
    | nil => rw [hbytes, List.append_nil]
    | cons b spill =>
        obtain ⟨rfl, -⟩ := List.cons.inj hafter
        rw [hbytes] at hno
        exact absurd (List.mem_append_right _ (List.mem_cons_self ..)) hno

theorem not_oversized_of_short {line tail : Bytes} {chunks : List Bytes}
    (hstream : chunks.flatten = line ++ newline :: tail)
    (hshort : line.length ≤ maxHelloLineBytes) : ¬ Oversized [] chunks := by
  rintro ⟨first, rest, rfl, hno, hlong⟩
  rw [List.flatten_append] at hstream
  rw [List.nil_append] at hno hlong
  have hle := length_le_of_no_newline hno hstream
  omega

/-- Chunks are taken as long as the socket is not destroyed. -/
theorem run_data (d : Bytes.TextDecoder) (ofLiteral : JsString → ν) (s : HelloSocket ν)
    (hlive : s.destroyed = false) (chunks : List Bytes) :
    ∃ t, (step d ofLiteral).run s (chunks.map Event.data) = some t ∧ t.destroyed = false := by
  have settle_live : ∀ {u : HelloSocket ν} peers putBack, u.destroyed = false →
      (u.settle peers putBack).destroyed = false := by
    intro u peers putBack hu
    rw [settle]
    split
    · exact hu
    · exact hu
  induction chunks generalizing s with
  | nil => exact ⟨s, rfl, hlive⟩
  | cons chunk chunks ih =>
      obtain ⟨u, hu, hopen⟩ : ∃ u, step d ofLiteral s (.data chunk) = some u ∧
          u.destroyed = false := by
        rw [step, hlive, if_neg Bool.false_ne_true]
        split
        · exact ⟨_, rfl, rfl⟩
        · refine ⟨_, rfl, ?_⟩
          rw [onData]
          simp only
          split
          · split
            · exact settle_live _ _ hlive
            · exact hlive
          · split
            · exact settle_live _ _ hlive
            · exact settle_live _ _ hlive
      obtain ⟨t, ht, htlive⟩ := ih _ hopen
      exact ⟨t, by rw [List.map_cons, Machine.run_cons, hu]; exact ht, htlive⟩

end HelloSocket

open HelloSocket in
/-- As long as the socket is not destroyed, the transport gets the stream, less its first line if
that was recognised; and a hello that has arrived is recognised unless a chunk left too much of
it without its newline. -/
theorem readClientHello_hands_over {ν : Type} [DecidableEq ν] (d : Bytes.TextDecoder)
    (ofLiteral : JsString → ν) {events : List Event} {s : HelloSocket ν}
    (h : (step d ofLiteral).run start events = some s) :
    (∀ peers, s.settled = some peers → s.destroyed = false →
      s.queue.flatten = handed peers (sent events)) ∧
    ∀ chunks rest line tail peers, events = chunks.map Event.data ++ rest →
      chunks.flatten = line ++ newline :: tail → newline ∉ line →
      parseClientHelloLine ofLiteral (decodeUtf8 d line) = some peers →
        (s.settled = some peers ↔ ¬ Oversized [] chunks) ∧
          (line.length ≤ maxHelloLineBytes → s.settled = some peers) := by
  refine ⟨fun peers hpeers hlive => ?_, ?_⟩
  · have hrun := inv_start.run h
    exact hrun.handed peers hpeers hlive
  · rintro chunks rest line tail peers rfl hstream hline hhello
    rw [Machine.run_append] at h
    obtain ⟨u, hu, hrest⟩ := Option.bind_eq_some_iff.mp h
    have hpid := pid_of_parseClientHelloLine ofLiteral hhello
    have hne : (some noPeers : Option (ClientPeerInfo ν)) ≠ some peers := by
      rintro heq
      rw [← Option.some.inj heq] at hpid
      cases hpid
    have hcases := run_hello inv_start rfl hstream hline hhello hu
    have hiff : s.settled = some peers ↔ ¬ Oversized [] chunks := by
      rcases hcases with ⟨hlong, hsettled⟩ | ⟨hshort, hsettled⟩
      · rw [settled_run (by rw [hsettled]; rfl) hrest, hsettled]
        exact ⟨fun heq => absurd heq hne, fun hno => absurd hlong hno⟩
      · rw [settled_run (by rw [hsettled]; rfl) hrest, hsettled]
        exact ⟨fun _ => hshort, fun _ => rfl⟩
    exact ⟨hiff, fun hshort => hiff.mpr (not_oversized_of_short hstream hshort)⟩

/-! ## A hello in two chunks -/

def decimalLiteral (raw : JsString) : Nat := (wholeNumbers.ofLiteral raw).getD 0

def hello : Text := "\x7b\"afyx_graph_client\":1,\"pid\":7,\"hostPid\":null\x7d".toList

/-- The hello is cut inside and glued to the first message. -/
theorem readClientHello_hands_over_cut :
    ∃ s : HelloSocket Nat, s.settled = some ⟨some 7, none⟩ ∧ s.queue.flatten = [65, 66] := by
  let chunks : List Bytes :=
    [(Bytes.ofText hello).take 9, (Bytes.ofText hello).drop 9 ++ [newline, 65]]
  obtain ⟨s, hs, hlive⟩ := HelloSocket.run_data Bytes.strictDecoder decimalLiteral
    HelloSocket.start rfl (chunks ++ [[66]])
  obtain ⟨hbytes, hhello⟩ := readClientHello_hands_over Bytes.strictDecoder decimalLiteral hs
  have hsettled := (hhello chunks [.data [66]] (Bytes.ofText hello) [65] ⟨some 7, none⟩ rfl
    (by decide +kernel) (by decide +kernel) (by decide +kernel)).2 (by decide +kernel)
  refine ⟨s, hsettled, ?_⟩
  rw [hbytes _ hsettled hlive]
  decide +kernel

/-- A line that starts with blanks. -/
def indented (n : Nat) (t : Text) : Bytes := List.replicate n 0x20 ++ Bytes.ofText t

theorem decode_indented (d : Bytes.TextDecoder) (n : Nat) (t : Text) :
    decodeUtf8 d (indented n t) = codeUnits (List.replicate n ' ') ++ codeUnits t := by
  have hbytes : indented n t = Bytes.ofText (List.replicate n ' ' ++ t) := by
    rw [indented]
    induction n with
    | zero => rfl
    | succ n ih =>
        rw [List.replicate_succ, List.cons_append, ih]
        rfl
  rw [decodeUtf8, hbytes, d.decode_ofText]
  exact List.flatMap_append

theorem spaces_codeUnits (n : Nat) : Spaces (codeUnits (List.replicate n ' ')) := by
  intro c hc
  obtain ⟨blank, hblank, hunit⟩ := List.mem_flatMap.mp hc
  rw [List.eq_of_mem_replicate hblank] at hunit
  rw [List.mem_singleton.mp hunit]
  decide

theorem length_codeUnits_blanks (n : Nat) :
    (codeUnits (List.replicate n ' ')).length = n := by
  induction n with
  | zero => rfl
  | succ n ih => exact congrArg (· + 1) ih

/-- Blanks in front of a value are skipped. -/
theorem readValue_blanks {x : JsString} (hx : Spaces x) (s : JsString) (fuel : Nat) :
    readValue decimalLiteral (fuel + 1) (x ++ s) = readValue decimalLiteral (fuel + 1) s := by
  have hskip : skipSpace (x ++ s) = skipSpace s := List.dropWhile_append_of_pos hx
  rw [readValue, readValue, hskip]

theorem newline_not_mem_replicate (n : Nat) : newline ∉ List.replicate n (0x20 : UInt8) := by
  intro hmem
  exact absurd (List.eq_of_mem_replicate hmem) (by decide)

theorem newline_not_mem_indented (n : Nat) : newline ∉ indented n hello := by
  intro hmem
  rcases List.mem_append.mp hmem with hblank | hhello
  · exact newline_not_mem_replicate n hblank
  · exact absurd hhello (by decide +kernel)

theorem parseClientHelloLine_indented :
    parseClientHelloLine decimalLiteral
      (decodeUtf8 Bytes.strictDecoder (indented 4097 hello)) = some ⟨some 7, none⟩ := by
  have hfuel : 2 * (codeUnits (List.replicate 4097 ' ') ++ codeUnits hello).length + 1 =
      8286 + 1 := by
    rw [List.length_append, length_codeUnits_blanks]
    decide +kernel
  rw [decode_indented, parseClientHelloLine, parseJson, hfuel,
    readValue_blanks (spaces_codeUnits 4097)]
  decide +kernel

/-- A hello behind `n` blanks, cut between the two. -/
theorem run_indented {n : Nat} (hn : n > maxHelloLineBytes)
    (hhello : parseClientHelloLine decimalLiteral
      (decodeUtf8 Bytes.strictDecoder (indented n hello)) = some ⟨some 7, none⟩) :
    ∃ s, (HelloSocket.step Bytes.strictDecoder decimalLiteral).run HelloSocket.start
      [.data (List.replicate n 0x20), .data (Bytes.ofText hello ++ [newline])] = some s ∧
      s.settled = some noPeers := by
  obtain ⟨s, hs, -⟩ := HelloSocket.run_data Bytes.strictDecoder decimalLiteral HelloSocket.start rfl
    [List.replicate n 0x20, Bytes.ofText hello ++ [newline]]
  refine ⟨s, hs, ?_⟩
  have hstream : [] ++ [List.replicate n 0x20, Bytes.ofText hello ++ [newline]].flatten =
      indented n hello ++ newline :: [] := by
    rw [List.nil_append, List.flatten_cons, List.flatten_singleton, indented, List.append_assoc]
  rcases HelloSocket.run_hello HelloSocket.inv_start rfl hstream (newline_not_mem_indented n)
    hhello hs with ⟨-, hsettled⟩ | ⟨hshort, -⟩
  · exact hsettled
  · refine absurd ⟨[List.replicate n 0x20], [Bytes.ofText hello ++ [newline]], rfl, ?_, ?_⟩ hshort
    · rw [List.nil_append, List.flatten_singleton]
      exact newline_not_mem_replicate n
    · rwa [List.nil_append, List.flatten_singleton, List.length_replicate]

/-- A line that is a client hello and arrives in full, and no pids are reported. -/
theorem readClientHello_long_line :
    newline ∉ indented 4097 hello ∧
      parseClientHelloLine decimalLiteral
        (decodeUtf8 Bytes.strictDecoder (indented 4097 hello)) = some ⟨some 7, none⟩ ∧
      ∃ s, (HelloSocket.step Bytes.strictDecoder decimalLiteral).run HelloSocket.start
        [.data (List.replicate 4097 0x20), .data (Bytes.ofText hello ++ [newline])] = some s ∧
        s.settled = some noPeers :=
  ⟨newline_not_mem_indented 4097, parseClientHelloLine_indented,
    run_indented (by decide) parseClientHelloLine_indented⟩

end AfyxGraph.Mcp.ClientHello
