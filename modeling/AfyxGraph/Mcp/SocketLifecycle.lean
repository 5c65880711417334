import AfyxGraph.Core.Delimited
import AfyxGraph.Mcp.SocketTransport
import Mathlib.Data.List.Range

/-! # The life of a socket transport

What a run has brought is kept beside the transport: the text that has arrived, the requests that
are due, and the close handlers that were there before the socket closed. Lines and requests are
in order in every run. The close handlers are called if no `close` finds the transport stopped
with handlers that wait.
-/

namespace AfyxGraph.Mcp.SocketTransport

open AfyxGraph.Core AfyxGraph.Runtime
open AfyxGraph.UiServer (js trim)

variable {ν : Type} [DecidableEq ν] (ofLiteral : JsString → ν)

/-! ## What a run has brought -/

structure Record where
  received : JsString
  /-- The requests whose timeout has passed, whose response has come, or that were made before
  the end of the transport. -/
  due : List Nat
  /-- The close handlers that were registered before `close`. -/
  registered : List Nat

namespace Transport

omit [DecidableEq ν] in
/-- The requests made so far. -/
def made (s : Transport ν) : List Nat := List.range' 1 (s.nextRequestId - 1)

/-- The line is the response to a request. -/
def answers (s : Transport ν) (line : JsString) (n : Nat) : Bool :=
  match parseJson ofLiteral (trim line) with
  | some parsed => isResponse parsed && isText (s.requestId n) (field parsed "id")
  | none => false

/-- The requests that the next line of the loop answers. -/
def answered (s : Transport ν) : List Nat :=
  match s.buffer.idxOf? lineFeed with
  | some idx => s.made.filter (s.answers ofLiteral (s.buffer.take idx))
  | none => []

/-- The transport ends with the first stop, close or error. -/
def ended (s : Transport ν) : List Nat := if s.stopped then [] else s.made

def observe (s : Transport ν) (r : Record) : Event ν → Record
  | .data chunk => { r with received := r.received ++ chunk }
  | .line => { r with due := r.due ++ s.answered ofLiteral }
  | .timeout n => { r with due := r.due ++ [n] }
  | .stop | .close | .error => { r with due := r.due ++ s.ended }
  | .onClose => if s.closed then r else { r with registered := r.registered ++ [s.handlerCount] }
  | .request .. => r

/-- The transport and what its run has brought. -/
def watched : Machine (Transport ν × Record) (Event ν) := fun (s, r) e =>
  (s.step ofLiteral e).map fun t => (t, s.observe ofLiteral r e)

/-- How often the promise of a request was resolved or rejected. -/
def callsOf (s : Transport ν) (n : Nat) : Nat := (s.calls.map Prod.fst).count n

end Transport

open Transport

structure Lifecycle (s : Transport ν) (r : Record) : Prop where
  /-- Lines are handled once and in order, and between two chunks all of them are. -/
  lines : s.handled <+: segments lineFeed r.received
  allLines : s.idle = true → s.handled = segments lineFeed r.received
  /-- A promise settles once, and when it is due it has. -/
  once : ∀ n, s.callsOf n ≤ 1
  settled : ∀ n ∈ r.due, s.callsOf n = 1
  handlers : s.closed = true → ∀ h ∈ r.registered, s.called.count h = 1

/-- A `close` finds no handlers behind the `stopped` flag. -/
def CloseGuard (state : Transport ν × Record) : Event ν → Prop
  | .close => state.1.stopped = true → state.1.closeHandlers = []
  | _ => True

/-! ## Lines -/

structure Lines (s : Transport ν) (r : Record) : Prop where
  received : r.received = s.handled.flatMap (· ++ [lineFeed]) ++ s.buffer
  whole : ∀ line ∈ s.handled, lineFeed ∉ line

omit [DecidableEq ν] in
theorem Lines.segments {s : Transport ν} {r : Record} (h : Lines s r) :
    segments lineFeed r.received = s.handled ++ segments lineFeed s.buffer := by
  rw [h.received, segments_flatMap h.whole]

omit [DecidableEq ν] in
theorem Lines.idle {s : Transport ν} {r : Record} (h : Lines s r) (hidle : s.idle = true) :
    s.handled = AfyxGraph.Core.segments lineFeed r.received := by
  have hno : lineFeed ∉ s.buffer := by
    simpa [Transport.idle] using hidle
  rw [h.segments, segments_of_not_mem hno, List.append_nil]

omit [DecidableEq ν] in
theorem Lines.frame {s t : Transport ν} {r r' : Record} (h : Lines s r)
    (hhandled : t.handled = s.handled) (hbuffer : t.buffer = s.buffer)
    (hreceived : r'.received = r.received) : Lines t r' := by
  refine ⟨?_, ?_⟩
  · rw [hreceived, hhandled, hbuffer]
    exact h.received
  · rw [hhandled]
    exact h.whole

/-! ## Requests -/

/-- A request waits or its promise has settled. -/
structure Requests (s : Transport ν) (r : Record) : Prop where
  first : 1 ≤ s.nextRequestId
  ids : ∀ entry ∈ s.pending, entry.1 = s.requestId entry.2
  timerIds : ∀ t ∈ s.timers, t.id = s.requestId t.request
  armed : ∀ t ∈ s.timers, t.request ∈ s.pending.map Prod.snd
  counts : ∀ n, s.callsOf n + (s.pending.map Prod.snd).count n = if n ∈ s.made then 1 else 0
  due : ∀ n ∈ r.due, n ∈ s.made ∧ n ∉ s.pending.map Prod.snd

namespace Transport

omit [DecidableEq ν] in
theorem requestId_injective (s : Transport ν) {n m : Nat}
    (h : s.requestId n = s.requestId m) : n = m := by
  have hdigits : (Text.ofNat n).map unit = (Text.ofNat m).map unit := List.append_cancel_left h
  have hn := wholeNumbers.ofLiteral_toLiteral n
  have hm := wholeNumbers.ofLiteral_toLiteral m
  exact Option.some.inj (hn.symm.trans ((congrArg wholeNumbers.ofLiteral hdigits).trans hm))

omit [DecidableEq ν] in
theorem mem_made {s : Transport ν} {n : Nat} :
    n ∈ s.made ↔ 1 ≤ n ∧ n < s.nextRequestId := by
  rw [made, List.mem_range'_1]
  omega

omit [DecidableEq ν] in
theorem write_frame (s : Transport ν) (message : Outgoing ν) :
    ∃ written, s.write message = { s with written } := by
  rw [write]
  split
  · exact ⟨s.written, rfl⟩
  · exact ⟨_, rfl⟩

omit [DecidableEq ν] in
theorem foldl_settle (entries : List (JsString × Nat)) (outcome : Outcome ν) (s : Transport ν) :
    entries.foldl (fun s entry => s.settle entry.2 outcome) s =
      { s with
        timers := s.timers.filter (·.request ∉ entries.map Prod.snd)
        calls := s.calls ++ entries.map fun entry => (entry.2, outcome) } := by
  induction entries generalizing s with
  | nil =>
      have htimers : s.timers.filter (·.request ∉ ([] : List Nat)) = s.timers :=
        List.filter_eq_self.mpr fun t _ => by simp
      rw [List.foldl_nil, List.map_nil, List.map_nil, htimers, List.append_nil]
  | cons entry entries ih =>
      rw [List.foldl_cons, ih, settle, clearTimeout, call]
      simp only [List.filter_filter, List.map_cons, List.append_assoc, List.singleton_append,
        List.mem_cons, not_or, Bool.decide_and, Bool.and_comm, ne_eq]

omit [DecidableEq ν] in
theorem rejectPending_eq (s : Transport ν) (reason : JsString) :
    s.rejectPending reason =
      { s with
        pending := []
        timers := s.timers.filter (·.request ∉ s.pending.map Prod.snd)
        calls := s.calls ++ s.pending.map fun entry =>
          (entry.2, .rejected (.string reason)) } := by
  rw [rejectPending, foldl_settle]

end Transport

omit [DecidableEq ν] in
/-- The promises that have settled do not depend on what else a transport does. -/
theorem Requests.frame {s t : Transport ν} {r r' : Record} (h : Requests s r)
    (hids : t.idPrefix = s.idPrefix) (hnext : t.nextRequestId = s.nextRequestId)
    (hpending : t.pending = s.pending) (htimers : t.timers = s.timers)
    (hcalls : t.calls = s.calls) (hdue : r'.due = r.due) : Requests t r' := by
  have hmade : t.made = s.made := by rw [Transport.made, Transport.made, hnext]
  have hid : ∀ n, t.requestId n = s.requestId n := fun n => by
    rw [Transport.requestId, Transport.requestId, hids]
  refine ⟨hnext ▸ h.first, ?_, ?_, ?_, ?_, ?_⟩
  · intro entry hentry
    rw [hid]
    exact h.ids entry (hpending ▸ hentry)
  · intro timer htimer
    rw [hid]
    exact h.timerIds timer (htimers ▸ htimer)
  · intro timer htimer
    rw [hpending]
    exact h.armed timer (htimers ▸ htimer)
  · intro n
    rw [Transport.callsOf, hcalls, hpending, hmade]
    exact h.counts n
  · intro n hn
    rw [hmade, hpending]
    exact h.due n (hdue ▸ hn)

omit [DecidableEq ν] in
/-- More requests are due, if they have settled. -/
theorem Requests.moreDue {s : Transport ν} {r : Record} (h : Requests s r) {more : List Nat}
    (hmore : ∀ n ∈ more, n ∈ s.made ∧ n ∉ s.pending.map Prod.snd) :
    Requests s { r with due := r.due ++ more } := by
  refine ⟨h.first, h.ids, h.timerIds, h.armed, h.counts, ?_⟩
  intro n hn
  rcases List.mem_append.mp hn with hold | hnew
  · exact h.due n hold
  · exact hmore n hnew

omit [DecidableEq ν] in
theorem Requests.pending_made {s : Transport ν} {r : Record} (h : Requests s r) {n : Nat}
    (hn : n ∈ s.pending.map Prod.snd) : n ∈ s.made := by
  by_contra hno
  have hcount := h.counts n
  rw [if_neg hno] at hcount
  have hpos := List.count_pos_iff.mpr hn
  omega

omit [DecidableEq ν] in
theorem Requests.once {s : Transport ν} {r : Record} (h : Requests s r) (n : Nat) :
    s.callsOf n ≤ 1 := by
  have hcount := h.counts n
  split at hcount
  · omega
  · omega

omit [DecidableEq ν] in
theorem Requests.settled {s : Transport ν} {r : Record} (h : Requests s r) {n : Nat}
    (hn : n ∈ r.due) : s.callsOf n = 1 := by
  obtain ⟨hmade, hno⟩ := h.due n hn
  have hcount := h.counts n
  rwa [if_pos hmade, List.count_eq_zero_of_not_mem hno] at hcount

omit [DecidableEq ν] in
theorem Requests.deletePending {s : Transport ν} {r : Record} (h : Requests s r) (n : Nat) :
    (s.deletePending (s.requestId n)).pending.map Prod.snd =
      (s.pending.map Prod.snd).filter (· ≠ n) := by
  rw [Transport.deletePending, List.filter_map]
  apply congrArg (List.map Prod.snd)
  apply List.filter_congr
  intro entry hentry
  have hid := h.ids entry hentry
  by_cases heq : entry.2 = n
  · simp [hid, heq]
  · have hne : s.requestId entry.2 ≠ s.requestId n := fun h' => heq (s.requestId_injective h')
    simp [hid, heq, hne]

omit [DecidableEq ν] in
/-- A pending request settles: its entry and its timer are gone. -/
theorem Requests.settle {s : Transport ν} {r : Record} (h : Requests s r) {n : Nat}
    (hn : n ∈ s.pending.map Prod.snd) (outcome : Outcome ν) :
    Requests ((s.deletePending (s.requestId n)).settle n outcome) r := by
  have hnumbers := h.deletePending n
  refine ⟨h.first, ?_, ?_, ?_, ?_, ?_⟩
  · intro entry hentry
    exact h.ids entry (List.mem_filter.mp hentry).1
  · intro timer htimer
    exact h.timerIds timer (List.mem_filter.mp htimer).1
  · intro timer htimer
    obtain ⟨hmem, hne⟩ := List.mem_filter.mp htimer
    change timer.request ∈ (s.deletePending (s.requestId n)).pending.map Prod.snd
    rw [hnumbers]
    exact List.mem_filter.mpr ⟨h.armed timer hmem, hne⟩
  · intro m
    change ((s.calls ++ [(n, outcome)]).map Prod.fst).count m +
      ((s.deletePending (s.requestId n)).pending.map Prod.snd).count m = if m ∈ s.made then 1 else 0
    have hcount := h.counts m
    rw [Transport.callsOf] at hcount
    rw [hnumbers, List.map_append, List.count_append]
    by_cases hm : m = n
    · subst hm
      have hpos := List.count_pos_iff.mpr hn
      have hzero : ((s.pending.map Prod.snd).filter (· ≠ m)).count m = 0 :=
        List.count_eq_zero_of_not_mem fun hmem => by simpa using (List.mem_filter.mp hmem).2
      rw [if_pos (h.pending_made hn)] at hcount ⊢
      rw [hzero, List.map_singleton, List.count_singleton_self]
      omega
    · have hkeep : ((s.pending.map Prod.snd).filter (· ≠ n)).count m =
          (s.pending.map Prod.snd).count m := List.count_filter (by simpa using hm)
      have hother : ([(n, outcome)].map Prod.fst).count m = 0 :=
        List.count_eq_zero_of_not_mem (by simpa using hm)
      rw [hkeep, hother]
      exact hcount
  · intro m hm
    obtain ⟨hmade, hno⟩ := h.due m hm
    refine ⟨hmade, fun hmem => hno ?_⟩
    change m ∈ (s.deletePending (s.requestId n)).pending.map Prod.snd at hmem
    rw [hnumbers] at hmem
    exact (List.mem_filter.mp hmem).1

omit [DecidableEq ν] in
theorem Requests.not_pending {s : Transport ν} {r : Record} (h : Requests s r) (n : Nat) :
    n ∉ (s.deletePending (s.requestId n)).pending.map Prod.snd := by
  rw [h.deletePending]
  intro hmem
  simpa using (List.mem_filter.mp hmem).2

omit [DecidableEq ν] in
theorem Requests.request {s : Transport ν} {r : Record} (h : Requests s r)
    (method : JsString) (params : Option (Json ν)) (timeoutMs : Nat) :
    Requests (s.request method params timeoutMs) r := by
  have hfresh : s.nextRequestId ∉ s.pending.map Prod.snd := by
    intro hmem
    have hmade := Transport.mem_made.mp (h.pending_made hmem)
    omega
  have hkey : s.requestId s.nextRequestId ∉ s.pending.map Prod.fst := by
    intro hmem
    obtain ⟨entry, hentry, heq⟩ := List.mem_map.mp hmem
    rw [h.ids entry hentry] at heq
    exact hfresh (s.requestId_injective heq ▸ List.mem_map_of_mem hentry)
  rw [Transport.request, setEntry_of_not_mem _ hkey]
  obtain ⟨written, hwrite⟩ := Transport.write_frame
    { s with
      nextRequestId := s.nextRequestId + 1
      timers := s.timers ++
        [Timer.mk s.nextRequestId (s.requestId s.nextRequestId) method timeoutMs]
      pending := s.pending ++ [(s.requestId s.nextRequestId, s.nextRequestId)] }
    (.request (s.requestId s.nextRequestId) method params)
  rw [hwrite]
  have hfirst := h.first
  refine ⟨Nat.le_add_left .., ?_, ?_, ?_, ?_, ?_⟩
  · intro entry hentry
    rcases List.mem_append.mp hentry with hold | hnew
    · exact h.ids entry hold
    · rw [List.mem_singleton.mp hnew]
      rfl
  · intro timer htimer
    rcases List.mem_append.mp htimer with hold | hnew
    · exact h.timerIds timer hold
    · rw [List.mem_singleton.mp hnew]
      rfl
  · intro timer htimer
    simp only [List.map_append, List.mem_append]
    rcases List.mem_append.mp htimer with hold | hnew
    · exact .inl (h.armed timer hold)
    · rw [List.mem_singleton.mp hnew]
      exact .inr (List.mem_singleton.mpr rfl)
  · intro n
    have hcount := h.counts n
    simp only [Transport.callsOf, List.map_append, List.count_append, List.map_singleton,
      Transport.mem_made] at hcount ⊢
    by_cases hn : n = s.nextRequestId
    · subst hn
      rw [if_neg (by omega)] at hcount
      rw [List.count_singleton_self, if_pos (by omega)]
      omega
    · have hother : List.count n [s.nextRequestId] = 0 :=
        List.count_eq_zero_of_not_mem (by simpa using hn)
      rw [hother, ← Nat.add_assoc, hcount]
      by_cases hmade : 1 ≤ n ∧ n < s.nextRequestId
      · rw [if_pos hmade, if_pos (by omega)]
      · rw [if_neg hmade, if_neg (by omega)]
  · intro n hn
    obtain ⟨hmade, hno⟩ := h.due n hn
    rw [Transport.mem_made] at hmade
    refine ⟨Transport.mem_made.mpr ⟨hmade.1, Nat.lt_succ_of_lt hmade.2⟩, ?_⟩
    simp only [List.map_append, List.mem_append, List.map_singleton, List.mem_singleton, not_or]
    exact ⟨hno, Nat.ne_of_lt hmade.2⟩

omit [DecidableEq ν] in
/-- A timer that fires has a promise that waits. -/
theorem Requests.onTimeout {s : Transport ν} {r : Record} (h : Requests s r) {t : Timer}
    (ht : t ∈ s.timers) :
    Requests (s.onTimeout t) { r with due := r.due ++ [t.request] } := by
  have hpending := h.armed t ht
  have heq : s.onTimeout t = (s.deletePending (s.requestId t.request)).settle t.request
      (.rejected (.string (Transport.timeoutMessage t))) := by
    rw [← h.timerIds t ht]
    rfl
  rw [heq]
  apply (h.settle hpending _).moreDue
  intro n hn
  obtain rfl := List.mem_singleton.mp hn
  exact ⟨h.pending_made hpending, h.not_pending _⟩

omit [DecidableEq ν] in
/-- The end of a transport settles every request that waits. -/
theorem Requests.rejectPending {s : Transport ν} {r : Record} (h : Requests s r)
    (reason : JsString) :
    Requests (s.rejectPending reason) { r with due := r.due ++ s.made } := by
  have hrejected : Requests (s.rejectPending reason) r := by
    rw [Transport.rejectPending_eq]
    refine ⟨h.first, nofun, ?_, ?_, ?_, ?_⟩
    · intro timer htimer
      exact h.timerIds timer (List.mem_filter.mp htimer).1
    · intro timer htimer
      obtain ⟨hmem, hno⟩ := List.mem_filter.mp htimer
      exact absurd (h.armed timer hmem) (by simpa using hno)
    · intro n
      have hcount := h.counts n
      have hmap : (s.pending.map fun entry =>
          ((entry.2, Outcome.rejected (.string reason)) : Nat × Outcome ν)).map Prod.fst =
            s.pending.map Prod.snd := by
        rw [List.map_map]
        rfl
      rw [Transport.callsOf, List.map_append, hmap, List.count_append]
      exact hcount
    · intro n hn
      exact ⟨(h.due n hn).1, List.not_mem_nil⟩
  apply hrejected.moreDue
  intro n hn
  rw [Transport.rejectPending_eq]
  exact ⟨hn, List.not_mem_nil⟩

/-! ## What a line does to the requests -/

omit [DecidableEq ν] in
theorem Requests.lookup {s : Transport ν} {r : Record} (h : Requests s r) {id : JsString}
    {n : Nat} (hlookup : s.pending.lookup id = some n) :
    id = s.requestId n ∧ n ∈ s.pending.map Prod.snd := by
  obtain ⟨before, after, heq, -⟩ := List.lookup_eq_some_iff.mp hlookup
  have hmem : (id, n) ∈ s.pending := by
    rw [heq]
    exact List.mem_append_right _ (List.mem_cons_self ..)
  exact ⟨h.ids _ hmem, List.mem_map_of_mem hmem⟩

omit [DecidableEq ν] in
theorem Requests.lookup_none {s : Transport ν} {r : Record} (h : Requests s r) {n : Nat}
    (hlookup : s.pending.lookup (s.requestId n) = none) : n ∉ s.pending.map Prod.snd := by
  intro hmem
  obtain ⟨entry, hentry, rfl⟩ := List.mem_map.mp hmem
  have hne := List.lookup_eq_none_iff.mp hlookup entry hentry
  rw [h.ids entry hentry, bne_self_eq_false] at hne
  cases hne

omit [DecidableEq ν] in
theorem text_of_isText {text : JsString} {value : Option (Json ν)}
    (h : isText text value = true) : value = some (.string text) := by
  rw [isText.eq_def] at h
  split at h
  · rw [of_decide_eq_true h]
  · cases h

/-- A response settles the request that it names. -/
theorem Requests.handleResponse {s : Transport ν} {r : Record} (h : Requests s r)
    (msg : Json ν) :
    Requests (s.handleResponse ofLiteral msg) r ∧
      ∀ n, isText (s.requestId n) (field msg "id") = true →
        n ∉ (s.handleResponse ofLiteral msg).pending.map Prod.snd := by
  rw [Transport.handleResponse]
  split
  · rename_i id hid
    split
    · rename_i hnone
      refine ⟨h, fun n hn => h.lookup_none ?_⟩
      have heq := text_of_isText hn
      rw [hid, Option.some.injEq, Json.string.injEq] at heq
      rwa [← heq]
    · rename_i n hsome
      obtain ⟨rfl, hn⟩ := h.lookup hsome
      refine ⟨h.settle hn _, fun m hm => ?_⟩
      have heq := text_of_isText hm
      rw [hid, Option.some.injEq, Json.string.injEq] at heq
      rw [s.requestId_injective heq]
      exact s.requestId_injective heq ▸ h.not_pending n
  · rename_i hno
    refine ⟨h, fun n hn => ?_⟩
    exact absurd (text_of_isText hn) (hno _)

/-- All that a line can change. -/
theorem handleLine_changes (s : Transport ν) (line : JsString) :
    ∃ pending timers delivered written calls,
      s.handleLine ofLiteral line =
        { s with handled := s.handled ++ [line], pending, timers, delivered, written, calls } := by
  have hresponse : ∀ (u : Transport ν) (msg : Json ν), ∃ pending timers calls,
      u.handleResponse ofLiteral msg = { u with pending, timers, calls } := by
    intro u msg
    rw [Transport.handleResponse]
    split
    · split
      · exact ⟨_, _, _, rfl⟩
      · exact ⟨_, _, _, rfl⟩
    · exact ⟨_, _, _, rfl⟩
  have hwrite : ∀ message, ∃ written,
      ({ s with handled := s.handled ++ [line] }.write message) =
        { s with handled := s.handled ++ [line], written } :=
    fun message => Transport.write_frame _ message
  rw [Transport.handleLine]
  simp only
  split
  · exact ⟨_, _, _, _, _, rfl⟩
  · split
    · obtain ⟨written, heq⟩ := hwrite
        (.error .null ErrorCodes.parseError (js "Parse error: invalid JSON"))
      exact ⟨_, _, _, written, _, heq⟩
    · rename_i parsed _
      split
      · obtain ⟨pending, timers, calls, heq⟩ :=
          hresponse { s with handled := s.handled ++ [line] } parsed
        exact ⟨pending, timers, _, _, calls, heq⟩
      · split
        · obtain ⟨written, heq⟩ := hwrite (.error .null ErrorCodes.invalidRequest
            (js "Invalid Request: not a valid JSON-RPC 2.0 message"))
          exact ⟨_, _, _, written, _, heq⟩
        · exact ⟨_, _, _, _, _, rfl⟩

theorem Requests.handleLine {s : Transport ν} {r : Record} (h : Requests s r) (line : JsString) :
    Requests (s.handleLine ofLiteral line) r ∧
      ∀ n, s.answers ofLiteral line n = true →
        n ∉ (s.handleLine ofLiteral line).pending.map Prod.snd := by
  have hhandled : Requests { s with handled := s.handled ++ [line] } r :=
    h.frame rfl rfl rfl rfl rfl rfl
  have hwritten : ∀ message, Requests
      ({ s with handled := s.handled ++ [line] }.write message) r := by
    intro message
    obtain ⟨written, hwrite⟩ := Transport.write_frame
      { s with handled := s.handled ++ [line] } message
    rw [hwrite]
    exact h.frame rfl rfl rfl rfl rfl rfl
  rw [Transport.handleLine]
  cases hparse : parseJson ofLiteral (trim line) with
  | none =>
      have hno : ∀ n, s.answers ofLiteral line n = true → False := by
        intro n hn
        rw [Transport.answers, hparse] at hn
        cases hn
      simp only
      split
      · exact ⟨hhandled, fun n hn => (hno n hn).elim⟩
      · exact ⟨hwritten _, fun n hn => (hno n hn).elim⟩
  | some parsed =>
      have hne : (trim line).isEmpty = false := by
        cases htrim : trim line with
        | nil =>
            rw [htrim] at hparse
            cases hparse
        | cons c cs => rfl
      have hanswers : ∀ n, s.answers ofLiteral line n =
          (isResponse parsed && isText (s.requestId n) (field parsed "id")) := by
        intro n
        rw [Transport.answers, hparse]
      simp only [hne, Bool.false_eq_true, if_false]
      split
      · obtain ⟨hr, hnot⟩ := hhandled.handleResponse ofLiteral parsed
        refine ⟨hr, fun n hn => hnot n ?_⟩
        rw [hanswers, Bool.and_eq_true] at hn
        exact hn.2
      · rename_i hresponse
        have hno : ∀ n, s.answers ofLiteral line n = true → False := by
          intro n hn
          rw [hanswers, Bool.and_eq_true] at hn
          exact hresponse hn.1
        split
        · exact ⟨hwritten _, fun n hn => (hno n hn).elim⟩
        · exact ⟨h.frame rfl rfl rfl rfl rfl rfl, fun n hn => (hno n hn).elim⟩

/-- The turn of the loop that takes a line. -/
theorem drainLine_eq_some {s t : Transport ν} (h : s.drainLine ofLiteral = some t) :
    ∃ line rest, s.buffer = line ++ lineFeed :: rest ∧ lineFeed ∉ line ∧
      t = { s with buffer := rest }.handleLine ofLiteral line ∧
      s.answered ofLiteral = s.made.filter (s.answers ofLiteral line) := by
  rcases segment_cases lineFeed s.buffer with hno | ⟨line, rest, heq, hline⟩
  · rw [Transport.drainLine, List.idxOf?_eq_none_iff.mpr hno] at h
    cases h
  · have hindex := idxOf?_segment hline rest
    rw [← heq] at hindex
    rw [Transport.drainLine, hindex] at h
    have htake : s.buffer.take line.length = line := by
      rw [heq, List.take_left]
    have hdrop : s.buffer.drop (line.length + 1) = rest := by
      rw [heq, drop_segment]
    refine ⟨line, rest, heq, hline, ?_, ?_⟩
    · simp only [htake, hdrop, Option.some.injEq] at h
      exact h.symm
    · rw [Transport.answered, hindex]
      simp only [htake]

theorem Requests.drainLine {s t : Transport ν} {r : Record} (h : Requests s r)
    (hstep : s.drainLine ofLiteral = some t) :
    Requests t { r with due := r.due ++ s.answered ofLiteral } := by
  obtain ⟨line, rest, -, -, rfl, hanswered⟩ := drainLine_eq_some ofLiteral hstep
  have hbuffer : Requests { s with buffer := rest } r :=
    h.frame rfl rfl rfl rfl rfl rfl
  obtain ⟨hhandled, hsettled⟩ := hbuffer.handleLine ofLiteral line
  apply hhandled.moreDue
  intro n hn
  rw [hanswered] at hn
  obtain ⟨hmade, hanswers⟩ := List.mem_filter.mp hn
  refine ⟨?_, hsettled n hanswers⟩
  obtain ⟨pending, timers, delivered, written, calls, heq⟩ :=
    handleLine_changes ofLiteral { s with buffer := rest } line
  rw [heq]
  exact hmade

/-! ## Close handlers -/

/-- A handler waits or has been called. -/
structure Handlers (s : Transport ν) (r : Record) : Prop where
  counts : ∀ h, s.called.count h + s.closeHandlers.count h = if h < s.handlerCount then 1 else 0
  registered : s.closed = false → r.registered = List.range s.handlerCount
  known : ∀ h ∈ r.registered, h < s.handlerCount
  stopped : s.closed = true → s.stopped = true

omit [DecidableEq ν] in
/-- Nothing but `onClose` and the end of the socket is about the handlers. -/
theorem Handlers.frame {s t : Transport ν} {r r' : Record} (h : Handlers s r)
    (hcalled : t.called = s.called) (hwaiting : t.closeHandlers = s.closeHandlers)
    (hcount : t.handlerCount = s.handlerCount) (hclosed : t.closed = s.closed)
    (hstopped : s.stopped = true → t.stopped = true) (hregistered : r'.registered = r.registered) :
    Handlers t r' := by
  refine ⟨?_, ?_, ?_, ?_⟩
  · intro k
    rw [hcalled, hwaiting, hcount]
    exact h.counts k
  · intro hopen
    rw [hregistered, hcount]
    exact h.registered (hclosed ▸ hopen)
  · intro k hk
    rw [hcount]
    exact h.known k (hregistered ▸ hk)
  · intro hended
    exact hstopped (h.stopped (hclosed ▸ hended))

omit [DecidableEq ν] in
theorem Handlers.onClose {s : Transport ν} {r : Record} (h : Handlers s r) :
    Handlers s.onClose
      (if s.closed then r else { r with registered := r.registered ++ [s.handlerCount] }) := by
  refine ⟨?_, ?_, ?_, ?_⟩
  · intro k
    have hk := h.counts k
    change s.called.count k + (s.closeHandlers ++ [s.handlerCount]).count k =
      if k < s.handlerCount + 1 then 1 else 0
    rw [List.count_append]
    by_cases heq : k = s.handlerCount
    · subst heq
      rw [if_neg (Nat.lt_irrefl _)] at hk
      rw [List.count_singleton_self, if_pos (Nat.lt_succ_self _)]
      omega
    · have hother : List.count k [s.handlerCount] = 0 :=
        List.count_eq_zero_of_not_mem (by simpa using heq)
      rw [hother, Nat.add_zero, hk]
      by_cases hlt : k < s.handlerCount
      · rw [if_pos hlt, if_pos (Nat.lt_succ_of_lt hlt)]
      · rw [if_neg hlt, if_neg (by omega)]
  · intro hopen
    have hopen' : s.closed = false := hopen
    rw [hopen', if_neg Bool.false_ne_true]
    simp only [Transport.onClose, h.registered hopen', List.range_succ]
  · intro k hk
    simp only [Transport.onClose]
    split at hk
    · exact Nat.lt_succ_of_lt (h.known k hk)
    · rcases List.mem_append.mp hk with hold | hnew
      · exact Nat.lt_succ_of_lt (h.known k hold)
      · rw [List.mem_singleton.mp hnew]
        exact Nat.lt_succ_self _
  · exact h.stopped

omit [DecidableEq ν] in
/-- The end of a socket that was not stopped calls every handler that waits. -/
theorem Handlers.called_all {s t : Transport ν} {r r' : Record} (h : Handlers s r)
    (hcalled : t.called = s.called ++ s.closeHandlers) (hwaiting : t.closeHandlers = [])
    (hcount : t.handlerCount = s.handlerCount) (hopen : s.closed = false)
    (hstopped : t.stopped = true) (hregistered : r'.registered = r.registered) :
    Handlers t r' := by
  refine ⟨?_, ?_, ?_, fun _ => hstopped⟩
  · intro k
    rw [hcalled, hwaiting, hcount, List.count_append, List.count_nil, Nat.add_zero]
    exact h.counts k
  · intro _
    rw [hregistered, hcount]
    exact h.registered hopen
  · intro k hk
    rw [hcount]
    exact h.known k (hregistered ▸ hk)

omit [DecidableEq ν] in
/-- Every handler has been called when none waits. -/
theorem Handlers.all_called {s : Transport ν} {r : Record} (h : Handlers s r)
    (hwaiting : s.closeHandlers = []) {k : Nat} (hk : k ∈ r.registered) :
    s.called.count k = 1 := by
  have hcount := h.counts k
  rw [hwaiting, List.count_nil, Nat.add_zero, if_pos (h.known k hk)] at hcount
  exact hcount

/-! ## The end of the transport -/

omit [DecidableEq ν] in
theorem Requests.ended {s t : Transport ν} {r : Record} (h : Requests s r) {reason : JsString}
    (hstopped : s.stopped = true → t = s)
    (hended : s.stopped = false → t.idPrefix = s.idPrefix ∧ t.nextRequestId = s.nextRequestId ∧
      t.pending = (s.rejectPending reason).pending ∧ t.timers = (s.rejectPending reason).timers ∧
      t.calls = (s.rejectPending reason).calls) :
    Requests t { r with due := r.due ++ s.ended } := by
  cases hs : s.stopped with
  | true =>
      rw [Transport.ended, hs, if_pos rfl, List.append_nil, hstopped hs]
      exact h
  | false =>
      obtain ⟨hids, hnext, hpending, htimers, hcalls⟩ := hended hs
      rw [Transport.ended, hs, if_neg Bool.false_ne_true]
      refine (h.rejectPending reason).frame ?_ ?_ hpending htimers hcalls rfl
      · rw [hids, Transport.rejectPending_eq]
      · rw [hnext, Transport.rejectPending_eq]

omit [DecidableEq ν] in
theorem stop_changes (s : Transport ν) :
    (s.stopped = true → s.stop = s) ∧
      (s.stopped = false → s.stop =
        { s.rejectPending (js "Transport stopped") with stopped := true, destroyed := true }) := by
  rw [Transport.stop]
  refine ⟨fun h => if_pos h, fun h => ?_⟩
  rw [h, if_neg Bool.false_ne_true, Transport.rejectPending_eq, Transport.rejectPending_eq]

omit [DecidableEq ν] in
theorem handleSocketClose_changes (s : Transport ν) :
    (s.stopped = true → s.handleSocketClose = s) ∧
      (s.stopped = false → s.handleSocketClose =
        { s.rejectPending (js "Socket closed") with
          stopped := true
          called := s.called ++ s.closeHandlers
          closeHandlers := [] }) := by
  rw [Transport.handleSocketClose]
  refine ⟨fun h => if_pos h, fun h => ?_⟩
  rw [h, if_neg Bool.false_ne_true, Transport.rejectPending_eq, Transport.rejectPending_eq]

omit [DecidableEq ν] in
theorem request_changes (s : Transport ν) (method : JsString) (params : Option (Json ν))
    (timeoutMs : Nat) :
    ∃ nextRequestId timers pending written, s.request method params timeoutMs =
      { s with nextRequestId, timers, pending, written } := by
  rw [Transport.request]
  obtain ⟨written, hwrite⟩ := Transport.write_frame
    { s with
      nextRequestId := s.nextRequestId + 1
      timers := s.timers ++
        [Timer.mk s.nextRequestId (s.requestId s.nextRequestId) method timeoutMs]
      pending := setEntry s.pending (s.requestId s.nextRequestId) s.nextRequestId }
    (.request (s.requestId s.nextRequestId) method params)
  exact ⟨_, _, _, written, hwrite⟩

omit [DecidableEq ν] in
theorem handleSocketClose_closed (s : Transport ν) :
    s.handleSocketClose.closed = s.closed := by
  rw [Transport.handleSocketClose]
  split
  · rfl
  · rw [Transport.rejectPending_eq]

/-! ## Runs -/

structure Inv (s : Transport ν) (r : Record) : Prop where
  lines : Lines s r
  requests : Requests s r
  handlers : Handlers s r

omit [DecidableEq ν] in
theorem inv_start (idPrefix : JsString) :
    Inv (Transport.start idPrefix : Transport ν) ⟨[], [], []⟩ where
  lines := ⟨rfl, nofun⟩
  requests := by
    refine ⟨Nat.le_refl _, nofun, nofun, nofun, ?_, nofun⟩
    intro n
    rw [if_neg (by simp [Transport.made, Transport.start])]
    rfl
  handlers := by
    refine ⟨?_, fun _ => rfl, nofun, nofun⟩
    intro h
    exact (if_neg (Nat.not_lt_zero h)).symm

omit [DecidableEq ν] in
theorem Inv.stop {s : Transport ν} {r : Record} (h : Inv s r) :
    Inv s.stop { r with due := r.due ++ s.ended } := by
  obtain ⟨hstopped, hended⟩ := stop_changes s
  refine ⟨?_, ?_, ?_⟩
  · cases hs : s.stopped with
    | true =>
        rw [hstopped hs]
        exact h.lines.frame rfl rfl rfl
    | false =>
        rw [hended hs, Transport.rejectPending_eq]
        exact h.lines.frame rfl rfl rfl
  · apply h.requests.ended hstopped
    intro hs
    rw [hended hs, Transport.rejectPending_eq]
    exact ⟨rfl, rfl, rfl, rfl, rfl⟩
  · cases hs : s.stopped with
    | true =>
        rw [hstopped hs]
        exact h.handlers.frame rfl rfl rfl rfl id rfl
    | false =>
        rw [hended hs, Transport.rejectPending_eq]
        exact h.handlers.frame rfl rfl rfl rfl (fun _ => rfl) rfl

omit [DecidableEq ν] in
/-- The socket ends on its own: by an error, or for good. -/
theorem Inv.socketClose {s : Transport ν} {r : Record} (h : Inv s r) (hopen : s.closed = false)
    (closed : Bool) :
    Inv { s.handleSocketClose with destroyed := true, closed }
      { r with due := r.due ++ s.ended } := by
  obtain ⟨hstopped, hended⟩ := handleSocketClose_changes s
  have hrequests : Requests s.handleSocketClose { r with due := r.due ++ s.ended } := by
    apply h.requests.ended hstopped
    intro hs
    rw [hended hs, Transport.rejectPending_eq]
    exact ⟨rfl, rfl, rfl, rfl, rfl⟩
  refine ⟨?_, hrequests.frame rfl rfl rfl rfl rfl rfl, ?_⟩
  · cases hs : s.stopped with
    | true =>
        rw [hstopped hs]
        exact h.lines.frame rfl rfl rfl
    | false =>
        rw [hended hs, Transport.rejectPending_eq]
        exact h.lines.frame rfl rfl rfl
  · cases hs : s.stopped with
    | true =>
        rw [hstopped hs]
        exact ⟨h.handlers.counts, fun _ => h.handlers.registered hopen, h.handlers.known,
          fun _ => hs⟩
    | false =>
        rw [hended hs, Transport.rejectPending_eq]
        exact h.handlers.called_all rfl rfl rfl hopen rfl rfl

theorem Inv.step {s t : Transport ν} {r : Record} (h : Inv s r) {e : Event ν}
    (hstep : s.step ofLiteral e = some t) : Inv t (s.observe ofLiteral r e) := by
  cases e with
  | request method params timeoutMs =>
      obtain rfl := Option.some.inj hstep
      obtain ⟨nextRequestId, timers, pending, written, heq⟩ :=
        request_changes s method params timeoutMs
      refine ⟨?_, h.requests.request method params timeoutMs, ?_⟩
      · rw [heq]
        exact h.lines.frame rfl rfl rfl
      · rw [heq]
        exact h.handlers.frame rfl rfl rfl rfl id rfl
  | data chunk =>
      rw [Transport.step] at hstep
      split at hstep
      · obtain rfl := Option.some.inj hstep
        refine ⟨⟨?_, h.lines.whole⟩, h.requests.frame rfl rfl rfl rfl rfl rfl,
          h.handlers.frame rfl rfl rfl rfl id rfl⟩
        rw [Transport.observe, h.lines.received, List.append_assoc]
      · cases hstep
  | line =>
      have hrequests := h.requests.drainLine ofLiteral hstep
      obtain ⟨line, rest, hbuffer, hline, rfl, -⟩ := drainLine_eq_some ofLiteral hstep
      obtain ⟨pending, timers, delivered, written, calls, heq⟩ :=
        handleLine_changes ofLiteral { s with buffer := rest } line
      refine ⟨?_, hrequests, ?_⟩
      · rw [heq]
        refine ⟨?_, ?_⟩
        · simp only [Transport.observe]
          rw [h.lines.received, hbuffer, List.flatMap_append, List.flatMap_singleton]
          simp only [List.append_assoc, List.cons_append]
          rfl
        · intro other hother
          rcases List.mem_append.mp hother with hold | hnew
          · exact h.lines.whole other hold
          · rwa [List.mem_singleton.mp hnew]
      · rw [heq]
        exact h.handlers.frame rfl rfl rfl rfl id rfl
  | timeout n =>
      rw [Transport.step] at hstep
      split at hstep
      · obtain ⟨timer, htimer, rfl⟩ := Option.map_eq_some_iff.mp hstep
        have hn : timer.request = n := by simpa using List.find?_some htimer
        refine ⟨⟨h.lines.received, h.lines.whole⟩, ?_, h.handlers.frame rfl rfl rfl rfl id rfl⟩
        rw [Transport.observe, ← hn]
        exact h.requests.onTimeout (List.mem_of_find?_eq_some htimer)
      · cases hstep
  | stop =>
      obtain rfl := Option.some.inj hstep
      exact h.stop
  | onClose =>
      obtain rfl := Option.some.inj hstep
      refine ⟨?_, ?_, h.handlers.onClose⟩
      · rw [Transport.observe]
        split
        · exact h.lines.frame rfl rfl rfl
        · exact h.lines.frame rfl rfl rfl
      · rw [Transport.observe]
        split
        · exact h.requests.frame rfl rfl rfl rfl rfl rfl
        · exact h.requests.frame rfl rfl rfl rfl rfl rfl
  | close =>
      rw [Transport.step] at hstep
      split at hstep
      · rename_i hlive
        obtain rfl := Option.some.inj hstep
        simp only [Bool.and_eq_true, Bool.not_eq_true'] at hlive
        exact h.socketClose hlive.2 true
      · cases hstep
  | error =>
      rw [Transport.step] at hstep
      split at hstep
      · rename_i hlive
        obtain rfl := Option.some.inj hstep
        simp only [Bool.and_eq_true, Bool.not_eq_true'] at hlive
        have hinv := h.socketClose hlive.2 s.closed
        rwa [← handleSocketClose_closed] at hinv
      · cases hstep

theorem Inv.watched {state state' : Transport ν × Record} (h : Inv state.1 state.2)
    {e : Event ν} (hstep : Transport.watched ofLiteral state e = some state') :
    Inv state'.1 state'.2 := by
  obtain ⟨t, ht, rfl⟩ := Option.map_eq_some_iff.mp hstep
  exact h.step ofLiteral ht

omit [DecidableEq ν] in
/-- Only the handlers of a closed socket are not covered by the invariant. -/
theorem Inv.lifecycle_iff {s : Transport ν} {r : Record} (h : Inv s r) :
    Lifecycle s r ↔ (s.closed = true → ∀ k ∈ r.registered, s.called.count k = 1) := by
  constructor
  · exact Lifecycle.handlers
  · intro hhandlers
    refine ⟨?_, h.lines.idle, h.requests.once, fun n hn => h.requests.settled hn, hhandlers⟩
    rw [h.lines.segments]
    exact List.prefix_append ..

/-- A step other than `close` leaves the socket as it is, and a closed one keeps what has been
called and who was there. -/
theorem step_of_ne_close {s t : Transport ν} {r : Record} {e : Event ν} (he : e ≠ .close)
    (hended : s.closed = true → s.stopped = true) (hstep : s.step ofLiteral e = some t) :
    t.closed = s.closed ∧ (s.closed = true →
      t.called = s.called ∧ (s.observe ofLiteral r e).registered = r.registered) := by
  cases e with
  | request method params timeoutMs =>
      obtain rfl := Option.some.inj hstep
      obtain ⟨nextRequestId, timers, pending, written, heq⟩ :=
        request_changes s method params timeoutMs
      rw [heq]
      exact ⟨rfl, fun _ => ⟨rfl, rfl⟩⟩
  | data chunk =>
      rw [Transport.step] at hstep
      split at hstep
      · obtain rfl := Option.some.inj hstep
        exact ⟨rfl, fun _ => ⟨rfl, rfl⟩⟩
      · cases hstep
  | line =>
      obtain ⟨line, rest, -, -, rfl, -⟩ := drainLine_eq_some ofLiteral hstep
      obtain ⟨pending, timers, delivered, written, calls, heq⟩ :=
        handleLine_changes ofLiteral { s with buffer := rest } line
      rw [heq]
      exact ⟨rfl, fun _ => ⟨rfl, rfl⟩⟩
  | timeout n =>
      rw [Transport.step] at hstep
      split at hstep
      · obtain ⟨timer, -, rfl⟩ := Option.map_eq_some_iff.mp hstep
        exact ⟨rfl, fun _ => ⟨rfl, rfl⟩⟩
      · cases hstep
  | stop =>
      obtain rfl := Option.some.inj hstep
      obtain ⟨hstopped, hrunning⟩ := stop_changes s
      refine ⟨?_, fun hclosed => ?_⟩
      · cases hs : s.stopped with
        | true => rw [hstopped hs]
        | false => rw [hrunning hs, Transport.rejectPending_eq]
      · rw [hstopped (hended hclosed)]
        exact ⟨rfl, rfl⟩
  | onClose =>
      obtain rfl := Option.some.inj hstep
      refine ⟨rfl, fun hclosed => ⟨rfl, ?_⟩⟩
      rw [Transport.observe, if_pos hclosed]
  | close => exact absurd rfl he
  | error =>
      rw [Transport.step] at hstep
      split at hstep
      · rename_i hlive
        obtain rfl := Option.some.inj hstep
        simp only [Bool.and_eq_true, Bool.not_eq_true'] at hlive
        refine ⟨handleSocketClose_closed s, fun hclosed => ?_⟩
        rw [hlive.2] at hclosed
        cases hclosed
      · cases hstep

/-- What `close` does for the handlers. -/
theorem close_lifecycle_iff {s t : Transport ν} {r : Record} (h : Inv s r)
    (hstep : s.step ofLiteral .close = some t) :
    Lifecycle t (s.observe ofLiteral r .close) ↔
      (s.stopped = true → s.closeHandlers = []) := by
  have ht := h.step ofLiteral hstep
  rw [ht.lifecycle_iff]
  rw [Transport.step] at hstep
  split at hstep
  · rename_i hlive
    obtain rfl := Option.some.inj hstep
    simp only [Bool.and_eq_true, Bool.not_eq_true'] at hlive
    have hregistered := h.handlers.registered hlive.2
    obtain ⟨hstopped, hrunning⟩ := handleSocketClose_changes s
    cases hs : s.stopped with
    | false =>
        refine ⟨nofun, fun _ _ k hk => ht.handlers.all_called ?_ hk⟩
        simp only [hrunning hs]
    | true =>
        constructor
        · intro hall _
          refine List.eq_nil_iff_forall_not_mem.mpr fun k hk => ?_
          have hcount := h.handlers.counts k
          have hpos := List.count_pos_iff.mpr hk
          have hlt : k < s.handlerCount := by
            by_contra hge
            rw [if_neg hge] at hcount
            omega
          have hcalled := hall rfl k (by
            change k ∈ r.registered
            rw [hregistered]
            exact List.mem_range.mpr hlt)
          rw [hstopped hs] at hcalled
          change s.called.count k = 1 at hcalled
          rw [if_pos hlt] at hcount
          omega
        · intro hwaiting _ k hk
          refine ht.handlers.all_called ?_ hk
          rw [hstopped hs]
          exact hwaiting rfl
  · cases hstep

/-- Lines and requests are in order in every run; the close handlers have been called whenever
the socket is closed, exactly if no `close` found the transport stopped with handlers waiting. -/
theorem socketTransport_lifecycle_iff (idPrefix : JsString) (events : List (Event ν)) :
    (watched ofLiteral).Always (fun state => Lifecycle state.1 state.2)
        (Transport.start idPrefix, ⟨[], [], []⟩) events ↔
      (watched ofLiteral).Guarded CloseGuard
        (Transport.start idPrefix, ⟨[], [], []⟩) events := by
  apply Machine.always_iff_guarded (I := fun state => Inv state.1 state.2)
  · intro state e state' hinv _ hstep
    exact hinv.watched ofLiteral hstep
  · rintro ⟨s, r⟩ e state' hinv hholds hstep
    obtain ⟨t, ht, rfl⟩ := Option.map_eq_some_iff.mp hstep
    by_cases he : e = .close
    · subst he
      exact close_lifecycle_iff ofLiteral hinv ht
    · have hguard : CloseGuard (s, r) e := by
        cases e with
        | close => exact absurd rfl he
        | _ => trivial
      refine ⟨fun _ => hguard, fun _ => (hinv.step ofLiteral ht).lifecycle_iff.mpr ?_⟩
      obtain ⟨hsame, hkeeps⟩ := step_of_ne_close ofLiteral (r := r) he hinv.handlers.stopped ht
      intro hclosed k hk
      rw [hsame] at hclosed
      obtain ⟨hcalled, hregistered⟩ := hkeeps hclosed
      rw [hcalled]
      exact hholds.handlers hclosed k (hregistered ▸ hk)
  · exact inv_start idPrefix
  · rw [(inv_start idPrefix).lifecycle_iff]
    nofun

/-- A handler is registered, the session is stopped, and then the socket closes. -/
def stoppedRun : List (Event Nat) := [.onClose, .stop, .close]

/-- The handler is never called. -/
theorem socketTransport_misses_handler :
    ((watched fun _ => 0).run (Transport.start (js "afyx-sock"), ⟨[], [], []⟩) stoppedRun).map
        (fun state => (state.1.closed, state.2.registered, state.1.called)) =
        some (true, [0], []) ∧
      ¬ (watched fun _ => 0).Always (fun state => Lifecycle state.1 state.2)
        (Transport.start (js "afyx-sock"), ⟨[], [], []⟩) stoppedRun := by
  have hrun : ((watched fun _ => 0).run (Transport.start (js "afyx-sock"), ⟨[], [], []⟩)
      stoppedRun).map (fun state => (state.1.closed, state.2.registered, state.1.called)) =
        some (true, [0], []) := by decide +kernel
  refine ⟨hrun, fun h => ?_⟩
  obtain ⟨⟨s, r⟩, hlast, hstate⟩ := Option.map_eq_some_iff.mp hrun
  simp only [Prod.mk.injEq] at hstate
  obtain ⟨hclosed, hregistered, hcalled⟩ := hstate
  have hcount := (h.last hlast).handlers hclosed 0 (by rw [hregistered]; decide)
  rw [hcalled] at hcount
  cases hcount

end AfyxGraph.Mcp.SocketTransport
