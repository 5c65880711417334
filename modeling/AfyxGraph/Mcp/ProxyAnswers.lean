import AfyxGraph.Mcp.Proxy

/-! # Every request is answered once

A request the proxy has read is answered, buffered, in flight or being served, and in one
of these places only. The invariant says so by a permutation of the ids.
-/

namespace AfyxGraph.Mcp

open AfyxGraph.Core

variable {Id Params Result : Type} [DecidableEq Id]

/-- The id the line is still to be answered with once it has been routed. -/
def HostLine.owed : HostLine Id Params → Option Id
  | .message id (some method) _ => if method = "initialize" then none else id
  | _ => none

namespace LocalHandshakeSession

variable {parseToolCallParams : Params → Except String Unit}
  {s t : LocalHandshakeSession Id Params Result} {line : HostLine Id Params}
  {id : Id} {extra : List Id}

def awaiting (s : LocalHandshakeSession Id Params Result) : List Id :=
  s.pending.filterMap HostLine.owed ++ s.draining.toList.filterMap HostLine.owed ++
    s.inflight.map Prod.fst ++ s.serving.filterMap HostLine.owed

/-- `extra` are the ids of the line a handler has at hand. -/
structure Inv (extra : List Id) (s : LocalHandshakeSession Id Params Result) : Prop where
  answers : (s.responses ++ (s.awaiting ++ extra).map some).Perm (s.requested.map some)
  distinct : s.requested.Nodup
  tracked : ∀ entry ∈ s.inflight, entry.2.owed = some entry.1
  asked : ∀ line ∈ s.serving ++ s.draining.toList, line.isResponse = false
  primed : ∀ id, s.clientInitId = some id → some id ∈ s.responses
  connecting : s.daemonStatus = .connecting →
    s.inflight = [] ∧ s.serving = [] ∧ s.draining = none
  ready : s.daemonStatus = .ready → s.pending = [] ∧ s.serving = [] ∧ s.draining = none
  buffered : s.daemonStatus = .failed → ∀ line ∈ s.pending, line.isResponse = false

namespace Inv

omit [DecidableEq Id] in
theorem nodup (h : Inv extra s) : (s.responses ++ (s.awaiting ++ extra).map some).Nodup :=
  h.answers.nodup_iff.mpr (h.distinct.map (Option.some_injective Id))

theorem answersOnce (h : Inv [] s) : AnswersOnce s where
  sound response hresponse := by
    have hmem := h.answers.subset (List.mem_append_left _ hresponse)
    obtain ⟨id, hid, rfl⟩ := List.mem_map.mp hmem
    exact ⟨id, hid, rfl⟩
  once := (List.nodup_append.mp h.nodup).1
  complete hdrained id hid := by
    simp only [drained, Bool.and_eq_true, List.isEmpty_iff, Option.isNone_iff_eq_none] at hdrained
    obtain ⟨⟨⟨hpending, hinflight⟩, hserving⟩, hdraining⟩ := hdrained
    have hanswers := h.answers
    simp only [awaiting, hpending, hinflight, hserving, hdraining, Option.toList_none,
      List.filterMap_nil, List.map_nil, List.append_nil] at hanswers
    rw [hanswers.count_eq (some id)]
    exact List.count_eq_one_of_mem (h.distinct.map (Option.some_injective Id))
      (List.mem_map_of_mem hid)

/-! ## Single moves -/

/-- A request arrives. -/
theorem receive (h : Inv [] s) {new : Option Id} (hnew : new.any (· ∈ s.requested) = false) :
    Inv new.toList { s with requested := s.requested ++ new.toList } := by
  refine ⟨?_, ?_, h.tracked, h.asked, h.primed, h.connecting, h.ready,
    h.buffered⟩
  · have hanswers := h.answers.append_right (new.toList.map some)
    rw [List.append_nil, List.append_assoc, ← List.map_append, ← List.map_append] at hanswers
    exact hanswers
  · cases new with
    | none => simpa using h.distinct
    | some id =>
        refine List.nodup_append.mpr ⟨h.distinct, List.nodup_singleton id, ?_⟩
        rintro other hother _ hid rfl
        simp only [Option.toList_some, List.mem_singleton] at hid
        simp [← hid, hother] at hnew

omit [DecidableEq Id] in
theorem responses_concat (output : Output Id Result) :
    (s.writeClient output).responses = s.responses ++ output.responseId.toList := by
  simp only [responses, writeClient, List.filterMap_append]
  cases h : output.responseId <;> simp [h]

theorem write (h : Inv (id :: extra) s) {output : Output Id Result}
    (houtput : output.responseId = some (some id)) : Inv extra (s.writeClient output) := by
  have hresponses := responses_concat (s := s) output
  rw [houtput] at hresponses
  refine ⟨?_, h.distinct, h.tracked, h.asked, fun other hother => ?_, h.connecting, h.ready,
    h.buffered⟩
  · rw [hresponses]
    refine List.Perm.trans ?_ h.answers
    rw [List.perm_iff_count]
    intro other
    simp only [writeClient, awaiting, Option.toList_some, List.map_append, List.map_cons,
      List.count_append, List.count_cons, List.count_nil]
    omega
  · rw [hresponses]
    exact List.mem_append_left _ (h.primed other hother)

omit [DecidableEq Id] in
/-- A line that is not a response. -/
theorem relay (h : Inv extra s) {output : Output Id Result} (houtput : output.responseId = none) :
    Inv extra (s.writeClient output) := by
  have hresponses := responses_concat (s := s) output
  rw [houtput, Option.toList_none, List.append_nil] at hresponses
  refine ⟨?_, h.distinct, h.tracked, h.asked, fun other hother => ?_, h.connecting, h.ready,
    h.buffered⟩
  · rw [hresponses]
    exact h.answers
  · rw [hresponses]
    exact h.primed other hother

omit [DecidableEq Id] in
theorem not_tracked (h : Inv (id :: extra) s) : id ∉ s.inflight.map Prod.fst := by
  intro htracked
  have hnodup := (List.nodup_append.mp h.nodup).2.1
  rw [List.map_append] at hnodup
  refine (List.nodup_append.mp hnodup).2.2 (some id) (List.mem_map_of_mem ?_) (some id) (by simp) rfl
  simp only [awaiting, List.mem_append]
  exact Or.inl (Or.inr htracked)

/-- The line goes to the daemon. -/
theorem track (h : Inv (line.owed.toList ++ extra) s) (hstatus : s.daemonStatus = .ready) :
    Inv extra (s.trackInflight line) ∧ (s.trackInflight line).daemonStatus = .ready := by
  cases line with
  | unparseable => exact ⟨h, hstatus⟩
  | message id method params =>
      cases method with
      | none => cases id <;> exact ⟨h, hstatus⟩
      | some name =>
          cases id with
          | none =>
              have hnone : (HostLine.message (none : Option Id) (some name) params).owed = none := by
                simp [HostLine.owed]
              rw [hnone] at h
              exact ⟨h, hstatus⟩
          | some id =>
              by_cases hname : name = "initialize"
              · subst hname
                exact ⟨h, hstatus⟩
              · have howed : (HostLine.message (some id) (some name) params).owed = some id := by
                  simp [HostLine.owed, hname]
                rw [howed] at h
                have hkeep : s.inflight.filter (·.1 ≠ id) = s.inflight :=
                  filter_ne_of_not_mem Prod.fst h.not_tracked
                rw [trackInflight, if_pos hname, hkeep]
                refine ⟨⟨?_, h.distinct, ?_, h.asked, h.primed, ?_, h.ready, h.buffered⟩, hstatus⟩
                · refine List.Perm.trans ?_ h.answers
                  rw [List.perm_iff_count]
                  intro other
                  simp only [responses, awaiting, Option.toList_some, List.map_append, List.map_cons,
                    List.map_nil, List.count_append, List.count_cons, List.count_nil]
                  omega
                · intro entry hentry
                  rcases List.mem_append.mp hentry with hentry | hentry
                  · exact h.tracked entry hentry
                  · rw [List.mem_singleton.mp hentry]
                    exact howed
                · intro hconnecting
                  rw [hstatus] at hconnecting
                  cases hconnecting

theorem route (h : Inv line.owed.toList s)
    (hresponse : line.isResponse = true → s.daemonStatus ≠ .failed) :
    Inv [] (s.routeToDaemon line) := by
  unfold routeToDaemon
  cases hstatus : s.daemonStatus with
  | ready => exact (track (by simpa using h) hstatus).1
  | failed =>
      refine ⟨?_, h.distinct, h.tracked, fun other hother => ?_, h.primed, fun hconnecting => ?_,
        fun hready => ?_, fun _ => h.buffered hstatus⟩
      · refine List.Perm.trans ?_ h.answers
        rw [List.perm_iff_count]
        intro other
        cases howed : line.owed <;>
          simp only [responses, awaiting, List.filterMap_append, List.filterMap_cons, howed,
            List.filterMap_nil, Option.toList_some, Option.toList_none, List.map_append,
            List.map_cons, List.map_nil, List.count_append, List.count_cons, List.count_nil] <;>
          omega
      · simp only [List.mem_append, List.mem_singleton] at hother
        rcases hother with (hother | rfl) | hother
        · exact h.asked other (List.mem_append_left _ hother)
        · cases hline : other.isResponse with
          | false => rfl
          | true => exact absurd hstatus (hresponse hline)
        · exact h.asked other (List.mem_append_right _ hother)
      · cases hconnecting
      · cases hready
  | connecting =>
      refine ⟨?_, h.distinct, h.tracked, h.asked, h.primed, fun _ => h.connecting hstatus,
        fun hready => ?_, fun hfailed => ?_⟩
      · refine List.Perm.trans ?_ h.answers
        rw [List.perm_iff_count]
        intro other
        cases howed : line.owed <;>
          simp only [responses, awaiting, List.filterMap_append, List.filterMap_cons, howed,
            List.filterMap_nil, Option.toList_some, Option.toList_none, List.map_append,
            List.map_cons, List.map_nil, List.count_append, List.count_cons, List.count_nil] <;>
          omega
      · cases hready
      · cases hfailed

end Inv

omit [DecidableEq Id] in
/-- Served in process, a line that is no response is answered with the id it owes. -/
theorem responseId_of_local {outcome : Except String Result} (hline : line.isResponse = false) :
    (handleLocalFallbackMessage parseToolCallParams outcome line).bind Output.responseId =
      line.owed.map some := by
  cases line with
  | unparseable => rfl
  | message id method params =>
      cases id with
      | none =>
          cases method with
          | none => rfl
          | some name => simp [handleLocalFallbackMessage, HostLine.owed]
      | some id =>
          cases method with
          | none => cases hline
          | some name =>
              simp only [handleLocalFallbackMessage, HostLine.owed, Option.some.injEq]
              by_cases hcall : name = "tools/call"
              · subst hcall
                cases parseToolCallParams params with
                | error message => rfl
                | ok _ => cases outcome <;> rfl
              · by_cases hping : name = "ping"
                · subst hping
                  rfl
                · by_cases hinit : name = "initialize"
                  · subst hinit
                    rfl
                  · simp [hcall, hping, hinit, Output.responseId]

theorem Inv.finish (h : Inv line.owed.toList s) (hline : line.isResponse = false)
    (outcome : Except String Result) :
    Inv [] (s.finishLocally parseToolCallParams line outcome) := by
  have hid : (handleLocalFallbackMessage parseToolCallParams outcome line).bind
      Output.responseId = line.owed.map some := responseId_of_local hline
  unfold finishLocally
  cases hresponse : handleLocalFallbackMessage parseToolCallParams outcome line with
  | none =>
      rw [hresponse] at hid
      have hnone : line.owed = none := by simpa using hid.symm
      rw [hnone] at h
      exact h
  | some response =>
      rw [hresponse, Option.bind_some] at hid
      cases howed : line.owed with
      | none =>
          rw [howed] at h hid
          exact h.relay hid
      | some id =>
          rw [howed] at h hid
          exact h.write hid

omit [DecidableEq Id] in
theorem finishLocally_same (outcome : Except String Result) :
    (s.finishLocally parseToolCallParams line outcome).draining = s.draining ∧
      (s.finishLocally parseToolCallParams line outcome).daemonStatus = s.daemonStatus := by
  unfold finishLocally
  split <;> exact ⟨rfl, rfl⟩

omit [DecidableEq Id] in
theorem isResponse_of_owed (howed : line.owed = some id) : line.isResponse = false := by
  cases line with
  | unparseable => rfl
  | message id method params =>
      cases method with
      | none => cases howed
      | some name => cases id <;> rfl

/-! ## Handlers -/

theorem Inv.drainNext (h : Inv [] s) (hstatus : s.daemonStatus = .failed)
    (hdraining : s.draining = none) : Inv [] s.drainNext := by
  unfold LocalHandshakeSession.drainNext
  cases hpending : s.pending with
  | nil =>
      dsimp only
      rw [← hdraining]
      exact hpending ▸ h
  | cons line rest =>
      refine ⟨?_, h.distinct, h.tracked, fun other hother => ?_, h.primed, fun hconnecting => ?_,
        fun hready => ?_, fun _ other hother => ?_⟩
      · refine List.Perm.trans ?_ h.answers
        rw [List.perm_iff_count]
        intro other
        cases howed : line.owed <;>
          simp only [responses, awaiting, hpending, hdraining, List.filterMap_cons, howed,
            List.filterMap_nil, Option.toList_some, Option.toList_none, List.map_append,
            List.map_cons, List.map_nil, List.count_append, List.count_cons, List.count_nil]
        omega
      · simp only [Option.toList_some, List.mem_append, List.mem_singleton] at hother
        rcases hother with hother | rfl
        · exact h.asked other (List.mem_append_left _ hother)
        · exact h.buffered hstatus other (by simp [hpending])
      · simp [hstatus] at hconnecting
      · simp [hstatus] at hready
      · exact h.buffered hstatus other (by simp [hpending, hother])

theorem Inv.attach (h : Inv [] s) (hstatus : s.daemonStatus = .connecting) :
    Inv [] s.attachDaemonSocket := by
  obtain ⟨hinflight, hserving, hdraining⟩ := h.connecting hstatus
  have hfold : ∀ (lines : List (HostLine Id Params)) (s : LocalHandshakeSession Id Params Result),
      Inv (lines.filterMap HostLine.owed) s → s.daemonStatus = .ready →
        Inv [] (lines.foldl trackInflight s) := by
    intro lines
    induction lines with
    | nil => exact fun s hs _ => hs
    | cons line lines ih =>
        intro s hs hready
        have hsplit : Inv (line.owed.toList ++ lines.filterMap HostLine.owed) s := by
          cases howed : line.owed <;> simpa [howed] using hs
        obtain ⟨htracked, hstill⟩ := hsplit.track hready
        exact ih _ htracked hstill
  refine hfold s.pending _ ⟨?_, h.distinct, h.tracked, h.asked, h.primed, ?_, ?_, ?_⟩ rfl
  · have hanswers := h.answers
    simpa [responses, awaiting, hinflight, hserving, hdraining] using hanswers
  · intro hconnecting
    cases hconnecting
  · exact fun _ => ⟨rfl, hserving, hdraining⟩
  · intro hfailed
    cases hfailed

omit [DecidableEq Id] in
theorem Inv.lost (h : Inv [] s) (hstatus : s.daemonStatus = .ready) :
    Inv [] s.handleDaemonLost := by
  obtain ⟨hpending, hserving, hdraining⟩ := h.ready hstatus
  have howed : (s.inflight.map Prod.snd).filterMap HostLine.owed = s.inflight.map Prod.fst := by
    rw [List.filterMap_map, ← List.filterMap_eq_map]
    exact List.filterMap_congr h.tracked
  refine ⟨?_, h.distinct, by simp [handleDaemonLost], ?_, h.primed, ?_, ?_, ?_⟩
  · have hanswers := h.answers
    simpa [handleDaemonLost, responses, awaiting, hpending, hserving, hdraining, howed]
      using hanswers
  · intro line hline
    simp only [handleDaemonLost, hserving, hdraining, List.nil_append, Option.toList_none,
      List.append_nil] at hline
    obtain ⟨entry, hentry, rfl⟩ := List.mem_map.mp hline
    exact isResponse_of_owed (h.tracked entry hentry)
  · intro hconnecting
    cases hconnecting
  · intro hready
    cases hready
  · intro _ line hline
    simp [handleDaemonLost, hpending] at hline

omit [DecidableEq Id] in
theorem Inv.keys_nodup (h : Inv extra s) : (s.inflight.map Prod.fst).Nodup := by
  have hawaiting := List.Nodup.of_map _ (List.nodup_append.mp h.nodup).2.1
  have hplaces := (List.nodup_append.mp hawaiting).1
  unfold awaiting at hplaces
  exact (List.nodup_append.mp (List.nodup_append.mp hplaces).1).2.1

omit [DecidableEq Id] in
theorem Inv.not_inflight_of_answered (h : Inv extra s) (hid : some id ∈ s.responses) :
    id ∉ s.inflight.map Prod.fst := by
  intro hinflight
  refine (List.nodup_append.mp h.nodup).2.2 (some id) hid (some id) (List.mem_map_of_mem ?_) rfl
  simp only [awaiting, List.mem_append]
  exact Or.inl (Or.inl (Or.inr hinflight))

/-- The daemon answers a request that is in flight, or the initialize it was primed with. -/
theorem Inv.daemonAnswer (h : Inv [] s) {id : Id}
    (hid : id ∈ s.inflight.map Prod.fst ∨ s.clientInitId = some id) :
    Inv [] (s.handleDaemonLine (.message (some id) true)) := by
  unfold handleDaemonLine
  dsimp only
  split
  · rename_i hinit
    have hkeep : s.inflight.filter (·.1 ≠ id) = s.inflight :=
      filter_ne_of_not_mem Prod.fst (h.not_inflight_of_answered (h.primed id hinit))
    rw [hkeep]
    exact h
  · rename_i hother
    obtain ⟨entry, hentry, rfl⟩ := List.mem_map.mp (hid.resolve_right hother)
    have hsplit := perm_cons_filter_ne Prod.fst h.keys_nodup hentry
    refine @Inv.write _ _ _ _ _ entry.1 _ ?_ _ rfl
    refine ⟨?_, h.distinct, fun other hmem => h.tracked other (List.mem_of_mem_filter hmem),
      h.asked, h.primed, fun hconnecting => ?_, h.ready, h.buffered⟩
    · refine List.Perm.trans ?_ h.answers
      rw [List.perm_iff_count]
      intro response
      have hcount := ((hsplit.map Prod.fst).map some).count_eq response
      simp only [responses, awaiting, List.map_append, List.map_cons, List.map_nil,
        List.count_append, List.count_cons, List.count_nil] at hcount ⊢
      omega
    · have hnone := (h.connecting hconnecting).1
      rw [hnone] at hentry
      cases hentry

omit [DecidableEq Id] in
theorem owed_eq_requestId {id : Option Id} {method : Option String} (params : Params)
    (hinit : method ≠ some "initialize") :
    (HostLine.message id method params).owed = (HostLine.message id method params).requestId := by
  cases method with
  | none => rfl
  | some name =>
      have hname : name ≠ "initialize" := fun heq => hinit (congrArg some heq)
      simp [HostLine.owed, HostLine.requestId, hname]

omit [DecidableEq Id] in
theorem inv_init : Inv [] (init : LocalHandshakeSession Id Params Result) where
  answers := .refl _
  distinct := List.nodup_nil
  tracked := by simp [init]
  asked := by simp [init]
  primed _ hid := by cases hid
  connecting _ := ⟨rfl, rfl, rfl⟩
  ready hready := by cases hready
  buffered hfailed := by cases hfailed

theorem Inv.hostLine (h : Inv [] s) (hnew : line.requestId.any (· ∈ s.requested) = false)
    (hanswerable : answerable line = true)
    (hresponse : line.isResponse = true → s.daemonStatus ≠ .failed) :
    Inv [] ({ s with requested := s.requested ++ line.requestId.toList }.handleClientLine
      line) := by
  have hreceived := h.receive hnew
  cases line with
  | unparseable => exact @Inv.route _ _ _ _ _ .unparseable hreceived (by simp [HostLine.isResponse])
  | message id method params =>
      rw [handleClientLine]
      split
      · rename_i hinit
        subst hinit
        cases id with
        | none => cases hanswerable
        | some id =>
            have hwritten := @Inv.write _ _ _ _ _ id _ hreceived
              (.response (some id) .initializeResult) rfl
            refine Inv.route ⟨hwritten.answers, hwritten.distinct, hwritten.tracked,
              hwritten.asked, fun other hother => ?_, hwritten.connecting, hwritten.ready,
              hwritten.buffered⟩ (by simp [HostLine.isResponse])
            obtain rfl := Option.some.inj hother
            rw [Inv.responses_concat]
            exact List.mem_append_right _ (by simp [Output.responseId])
      · rename_i hinit
        have hroute : Inv (HostLine.message id method params).owed.toList { s with
            requested := s.requested ++ (HostLine.message id method params).requestId.toList } := by
          rw [owed_eq_requestId params hinit]
          exact hreceived
        cases method with
        | none => exact hroute.route hresponse
        | some name =>
            have hname : name ≠ "initialize" := fun heq => hinit (congrArg some heq)
            simp only [answerable, hname, if_false] at hanswerable
            rw [Option.map_some]
            cases hstatic : staticLocalResult name with
            | none => exact hroute.route hresponse
            | answers =>
                rw [hstatic] at hanswerable
                cases id with
                | none => cases hanswerable
                | some id => exact @Inv.write _ _ _ _ _ id _ hreceived _ rfl
            | throws =>
                rw [hstatic] at hanswerable
                cases hanswerable

variable [DecidableEq Params]

theorem step_inv {event : Event Id Params Result} (h : Inv [] s) (hallowed : s.Allowed event)
    (hs : step parseToolCallParams s event = some t) : Inv [] t := by
  simp only [step, Option.ite_none_left_eq_some] at hs
  obtain ⟨-, hs⟩ := hs
  cases event with
  | hostLine line =>
      simp only [Option.ite_none_left_eq_some, Option.some.injEq] at hs
      obtain ⟨hnew, rfl⟩ := hs
      simp only [Allowed, allowed, Bool.and_eq_true, Bool.not_eq_eq_eq_not, Bool.not_true,
        Bool.and_eq_false_iff, decide_eq_false_iff_not] at hallowed
      refine h.hostLine (Bool.not_eq_true _ ▸ hnew) hallowed.1 fun hresponse => ?_
      exact hallowed.2.resolve_left (by simp [hresponse])
  | daemonLine line =>
      simp only [Option.ite_none_right_eq_some, Option.some.injEq] at hs
      obtain ⟨-, rfl⟩ := hs
      cases line with
      | text => exact h.relay rfl
      | message id answers =>
          cases answers with
          | false => cases id <;> exact h.relay rfl
          | true =>
              cases id with
              | none => cases hallowed
              | some id =>
                  apply h.daemonAnswer
                  simpa [Allowed, allowed] using hallowed
  | attach =>
      simp only [Option.ite_none_right_eq_some, Option.some.injEq] at hs
      obtain ⟨hstatus, rfl⟩ := hs
      exact h.attach hstatus
  | fail =>
      simp only [Option.ite_none_right_eq_some, Option.some.injEq] at hs
      obtain ⟨hstatus, rfl⟩ := hs
      obtain ⟨hinflight, hserving, hdraining⟩ := h.connecting hstatus
      refine Inv.drainNext (s := { s with daemonStatus := .failed }) ?_ rfl hdraining
      refine ⟨h.answers, h.distinct, h.tracked, h.asked, h.primed, ?_, ?_, ?_⟩
      · intro hconnecting
        cases hconnecting
      · intro hready
        cases hready
      · simpa [Allowed, allowed] using hallowed
  | lost =>
      simp only [Option.ite_none_right_eq_some, Option.some.injEq] at hs
      obtain ⟨hstatus, rfl⟩ := hs
      exact h.lost hstatus
  | served line outcome =>
      simp only [Option.ite_none_right_eq_some, Option.some.injEq] at hs
      obtain ⟨hserving, rfl⟩ := hs
      have hsplit := List.perm_cons_erase hserving
      apply Inv.finish _ (h.asked line (List.mem_append_left _ hserving))
      refine ⟨?_, h.distinct, h.tracked, fun other hother => ?_, h.primed, fun hconnecting => ?_,
        fun hready => ?_, h.buffered⟩
      · refine List.Perm.trans ?_ h.answers
        rw [List.perm_iff_count]
        intro response
        have hcount := ((hsplit.filterMap HostLine.owed).map some).count_eq response
        cases howed : line.owed <;>
          simp only [responses, awaiting, howed, List.filterMap_cons, Option.toList_some,
            Option.toList_none, List.map_append, List.map_cons, List.map_nil, List.count_append,
            List.count_cons, List.count_nil] at hcount ⊢ <;>
          omega
      · apply h.asked
        rcases List.mem_append.mp hother with hother | hother
        · exact List.mem_append_left _ (List.mem_of_mem_erase hother)
        · exact List.mem_append_right _ hother
      · have hnone := (h.connecting hconnecting).2.1
        rw [hnone] at hserving
        cases hserving
      · have hnone := (h.ready hready).2.1
        rw [hnone] at hserving
        cases hserving
  | drained outcome =>
      dsimp only at hs
      split at hs
      · cases hs
      · rename_i line hdraining
        obtain rfl := Option.some.inj hs
        have hstatus : s.daemonStatus = .failed := by
          cases hstatus : s.daemonStatus with
          | connecting => simp [(h.connecting hstatus).2.2] at hdraining
          | ready => simp [(h.ready hstatus).2.2] at hdraining
          | failed => rfl
        have hline := h.asked line (by simp [hdraining])
        have hlocally : ∀ s' : LocalHandshakeSession Id Params Result,
            (s'.finishLocally parseToolCallParams line outcome).draining = s'.draining ∧
              (s'.finishLocally parseToolCallParams line outcome).daemonStatus =
                s'.daemonStatus := fun _ => finishLocally_same outcome
        obtain ⟨hsame, hstill⟩ := hlocally { s with draining := none }
        refine Inv.drainNext (Inv.finish ?_ hline outcome) (hstill.trans hstatus) hsame
        refine ⟨?_, h.distinct, h.tracked, fun other hother => ?_, h.primed, fun hconnecting => ?_,
          fun hready => ?_, h.buffered⟩
        · refine List.Perm.trans ?_ h.answers
          rw [List.perm_iff_count]
          intro response
          cases howed : line.owed <;>
            simp only [responses, awaiting, hdraining, howed, List.filterMap_cons,
              List.filterMap_nil, Option.toList_some, Option.toList_none, List.map_append,
              List.map_cons, List.map_nil, List.count_append, List.count_cons, List.count_nil]
          omega
        · apply h.asked
          simpa using Or.inl hother
        · simp [hstatus] at hconnecting
        · simp [hstatus] at hready

/-- While every step is allowed, the responses are those of received requests, no two of
one request, and one for each once nothing is left to do. -/
theorem always_answersOnce (parseToolCallParams : Params → Except String Unit)
    (events : List (Event Id Params Result))
    (h : (step parseToolCallParams).Guarded Allowed init events) :
    (step parseToolCallParams).Always AnswersOnce init events :=
  h.always (fun _ _ _ hs hallowed hstep => step_inv hs hallowed hstep)
    (fun _ hs => hs.answersOnce) inv_init

/-- A call in flight when the daemon is lost is served in process; the reply the daemon gave
to the primed initialize is not relayed. -/
theorem always_answersOnce_lost :
    (step fun _ => .ok ()).Always AnswersOnce
      (init : LocalHandshakeSession Nat Unit Unit)
      [.hostLine (.message (some 1) (some "initialize") ()),
        .hostLine (.message (some 2) (some "tools/call") ()), .attach,
        .daemonLine (.message (some 1) true), .lost,
        .served (.message (some 2) (some "tools/call") ()) (.ok ())] :=
  always_answersOnce _ _ (by decide)

/-- The host's answer to request 7 of the server arrives after the daemon is lost: it is
answered itself, under an id the host never asked with. -/
theorem answered_hostResponse :
    ∃ t, (step fun _ => .ok ()).run (init : LocalHandshakeSession Nat Unit Unit)
        [.attach, .daemonLine (.message (some 7) false), .lost,
          .hostLine (.message (some 7) none ()),
          .served (.message (some 7) none ()) (.ok ())] = some t ∧
      t.requested = [] ∧ t.responses = [some 7] ∧ ¬ AnswersOnce t := by
  refine ⟨_, rfl, rfl, rfl, fun honce => ?_⟩
  obtain ⟨id, hid, -⟩ := honce.sound (some 7) (by decide)
  cases hid

end LocalHandshakeSession

end AfyxGraph.Mcp
