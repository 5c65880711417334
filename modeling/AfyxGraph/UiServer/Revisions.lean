import AfyxGraph.UiServer.EventHub

/-! # The last revision sent

What the hub holds as the revision is what every client was sent last. It is the revision of the
index, unless a write is on its way to the hub or the hub missed it: a watcher that comes up
does not look at the index again, and a revision read for one client is not sent to the others.
-/

namespace AfyxGraph.UiServer

open AfyxGraph.Core

namespace System

/-- With the watcher up, no timer armed and every write notified, each client was last sent the
revision of the index. -/
def Fresh (s : System) : Prop :=
  ∀ client ∈ s.hub.clients, s.hub.indexUp = true → s.hub.indexTimer = false →
    s.unnotified = false → ∀ r, s.index = some r → lastRevision client.received = some r

/-- A request that attaches meets a hub whose revision is the one of the index, unless the
watcher is up or a timer is armed; and no client waits for a first revision that is there. -/
def Knows (s : System) : Label → Prop
  | .subscribe connection =>
      s.hub.closed = false → connection.head = false → ∀ r, s.index = some r →
        (s.hub.revision = none → s.hub.clients = []) ∧
          (s.hub.indexUp = false → s.hub.indexTimer = false →
            s.hub.revision = none ∨ s.hub.revision = some r)
  | _ => True

instance (s : System) (label : Label) : Decidable (s.Knows label) := by
  cases label with
  | subscribe connection =>
      cases hindex : s.index with
      | none =>
          refine isTrue ?_
          intro _ _ r hr
          rw [hindex] at hr
          cases hr
      | some r =>
          refine decidable_of_iff (s.hub.closed = false → connection.head = false →
            (s.hub.revision = none → s.hub.clients = []) ∧
              (s.hub.indexUp = false → s.hub.indexTimer = false →
                s.hub.revision = none ∨ s.hub.revision = some r)) ?_
          simp [Knows, hindex]
  | _ => exact isTrue trivial

/-! ## The invariant -/

structure Current (s : System) : Prop where
  sent : ∀ client ∈ s.hub.clients, lastRevision client.received = s.hub.revision
  idle : s.hub.clients = [] → s.hub.indexUp = false ∧ s.hub.indexTimer = false
  closed : s.hub.closed = true → s.hub.clients = []
  settled : s.hub.indexUp = true → s.hub.indexTimer = false → s.unnotified = false →
    ∀ r, s.index = some r → s.hub.revision = some r

theorem Current.fresh {s : System} (h : s.Current) : s.Fresh := by
  intro client hclient hup htimer hunnotified r hr
  rw [h.sent client hclient]
  exact h.settled hup htimer hunnotified r hr

theorem current_start (index : Option IndexRevision) : (start index).Current where
  sent _ hclient := by cases hclient
  idle _ := ⟨rfl, rfl⟩
  closed _ := rfl
  settled hup := by cases hup

variable {s : System} {hub : EventHub}

/-- What is dropped is clients; the watchers stay as they are or stop with the last client. -/
theorem drop_cases (hub : EventHub) (ids : List Nat) :
    hub.drop ids = { hub with clients := hub.clients.filter (·.id ∉ ids) } ∧
        (hub.clients ≠ [] → hub.clients.filter (·.id ∉ ids) ≠ []) ∨
      hub.drop ids =
        EventHub.stopWatching { hub with clients := hub.clients.filter (·.id ∉ ids) } := by
  unfold EventHub.drop
  by_cases hlast : (hub.clients.filter (·.id ∉ ids) = [] && hub.clients ≠ []) = true
  · apply Or.inr
    rw [if_pos hlast]
  · apply Or.inl
    rw [if_neg hlast]
    refine ⟨rfl, fun hclients hnil => hlast ?_⟩
    rw [hnil]
    simp [hclients]

theorem Current.drop (h : (s.withHub hub).Current) (ids : List Nat) :
    (s.withHub (hub.drop ids)).Current := by
  have hsent : ∀ client ∈ hub.clients.filter (·.id ∉ ids),
      lastRevision client.received = hub.revision :=
    fun client hclient => h.sent client (List.mem_filter.mp hclient).1
  have hclosed : hub.closed = true → hub.clients.filter (·.id ∉ ids) = [] := by
    intro hclosed
    have hnil : hub.clients = [] := h.closed hclosed
    rw [hnil]
    rfl
  rcases drop_cases hub ids with ⟨heq, hlast⟩ | heq
  · rw [heq]
    refine ⟨hsent, fun hnil => ?_, hclosed, h.settled⟩
    apply h.idle
    by_contra hclients
    exact hlast hclients hnil
  · rw [heq]
    exact ⟨hsent, fun _ => ⟨rfl, rfl⟩, hclosed, nofun⟩

/-- A frame that carries no revision changes nothing. -/
theorem Current.receive (h : (s.withHub hub).Current) {event : Event}
    (hevent : ∀ events, lastRevision (event :: events) = lastRevision events) :
    (s.withHub
      { hub with clients := hub.clients.map fun client => client.receive event }).Current where
  sent client hclient := by
    obtain ⟨old, hold, rfl⟩ := List.mem_map.mp hclient
    rw [Client.receive, hevent]
    exact h.sent old hold
  idle hnil := h.idle (List.map_eq_nil_iff.mp hnil)
  closed hclosed := List.map_eq_nil_iff.mpr (h.closed hclosed)
  settled := h.settled

theorem Current.withHub (h : s.Current) : (s.withHub s.hub).Current where
  sent := h.sent
  idle := h.idle
  closed := h.closed
  settled hup htimer hunnotified := by
    have hup' : s.hub.indexUp = true := hup
    have hunnotified' : (s.unnotified && s.hub.indexUp) = false := hunnotified
    rw [hup', Bool.and_true] at hunnotified'
    exact h.settled hup htimer hunnotified'

/-! ## Steps -/

/-- A client that comes is sent the revision the hub holds, and so were the others. -/
theorem Current.subscribe (h : s.Current) {connection : Connection}
    (hknows : s.Knows (.subscribe connection)) :
    (s.withHub (s.hub.subscribe s.index s.nextClient connection)).Current := by
  unfold EventHub.subscribe
  by_cases hrefused : (s.hub.closed || connection.head) = true
  · rw [if_pos hrefused]
    exact h.withHub
  · rw [if_neg hrefused]
    simp only [Bool.or_eq_true, not_or, Bool.not_eq_true] at hrefused
    obtain ⟨hopen, hhead⟩ := hrefused
    have hknows := hknows hopen hhead
    have hattached : (s.withHub { s.hub.ensureWatching s.index connection with
        clients := (s.hub.ensureWatching s.index connection).clients ++
          [⟨s.nextClient, [(s.hub.ensureWatching s.index connection).hello]⟩] }).Current := by
      have hensure : ∃ source sourceUp up,
          s.hub.ensureWatching s.index connection =
            { s.hub with
              revision := s.hub.revision.or s.index
              sourceWatcher := source
              sourceUp := sourceUp
              indexUp := up } ∧ (s.hub.indexUp = true → up = true) := by
        simp only [EventHub.ensureWatching, hopen, Bool.false_eq_true, if_false,
          EventHub.startSourceWatcher, EventHub.startIndexWatcher]
        split <;> split
        · exact ⟨_, _, _, rfl, id⟩
        · exact ⟨_, _, _, rfl, fun hup => absurd hup (by assumption)⟩
        · exact ⟨_, _, _, rfl, id⟩
        · exact ⟨_, _, _, rfl, fun hup => absurd hup (by assumption)⟩
      obtain ⟨source, sourceUp, up, hensure, hup⟩ := hensure
      rw [hensure]
      refine ⟨?_, ?_, ?_, ?_⟩
      · intro client hclient
        rcases List.mem_append.mp hclient with hclient | hclient
        · show _ = s.hub.revision.or s.index
          rw [h.sent client hclient]
          -- The revision is read for this client only where no other one waits for it.
          cases hrevision : s.hub.revision with
          | some r => rfl
          | none =>
              cases hindex : s.index with
              | none => rfl
              | some r =>
                  have hnone := (hknows r hindex).1 hrevision
                  rw [hnone] at hclient
                  cases hclient
        · rw [List.mem_singleton.mp hclient]
          rfl
      · intro hnil
        exact absurd (List.append_eq_nil_iff.mp hnil).2 (List.cons_ne_nil _ _)
      · intro hclosed
        have hclosed' : s.hub.closed = true := hclosed
        rw [hopen] at hclosed'
        cases hclosed'
      · intro _ htimer hunnotified r hr
        show s.hub.revision.or s.index = some r
        have hindex : s.index = some r := hr
        rw [hindex]
        cases hold : s.hub.indexUp with
        | true =>
            have hunnotified' : (s.unnotified && up) = false := hunnotified
            rw [hup hold, Bool.and_true] at hunnotified'
            rw [h.settled hold htimer hunnotified' r hindex]
            rfl
        | false =>
            rcases (hknows r hindex).2 hold htimer with hrevision | hrevision
            · rw [hrevision]
              rfl
            · rw [hrevision]
              rfl
    by_cases hthrows : connection.throws = true
    · simp only [hthrows, if_true]
      exact hattached.drop _
    · simp only [hthrows, Bool.false_eq_true, if_false]
      exact hattached

/-- The hub looks at the index, and all clients are sent what it sees. -/
theorem Current.settle (h : s.Current) (changed : Option (List String × Nat))
    (throws : List Nat) : (s.withHub (EventHub.checkIndex
      { s.hub with indexTimer := false } s.index changed throws)).Current := by
  unfold EventHub.checkIndex
  by_cases hidle : (s.hub.closed || decide (s.hub.clients = [])) = true
  · rw [if_pos hidle]
    have hnil : s.hub.clients = [] := by
      rcases Bool.or_eq_true_iff.mp hidle with hclosed | hnil
      · exact h.closed hclosed
      · exact of_decide_eq_true hnil
    have hup := (h.idle hnil).1
    refine ⟨h.sent, fun _ => ⟨hup, rfl⟩, h.closed, fun hup' => ?_⟩
    exact absurd (hup.symm.trans hup') nofun
  · rw [if_neg hidle]
    have hclients : s.hub.clients ≠ [] := by
      intro hnil
      simp [hnil] at hidle
    cases hindex : s.index with
    | none =>
        refine ⟨h.sent, fun hnil => absurd hnil hclients, h.closed, ?_⟩
        intro _ _ _ r hr
        have hr' : s.index = some r := hr
        rw [hindex] at hr'
        cases hr'
    | some next =>
        simp only
        by_cases hsame : s.hub.revision = some next
        · rw [if_pos hsame]
          refine ⟨?_, fun hnil => absurd hnil hclients, h.closed, ?_⟩
          · intro client hclient
            exact (h.sent client hclient).trans hsame
          · intro _ _ _ r hr
            exact hindex ▸ hr
        · rw [if_neg hsame]
          apply Current.drop
          refine ⟨?_, ?_, ?_, ?_⟩
          · intro client hclient
            obtain ⟨old, -, rfl⟩ := List.mem_map.mp hclient
            rfl
          · intro hnil
            exact absurd (List.map_eq_nil_iff.mp hnil) hclients
          · intro hclosed
            exact List.map_eq_nil_iff.mpr (h.closed hclosed)
          · intro _ _ _ r hr
            exact hindex ▸ hr

theorem Current.step (h : s.Current) {label : Label} (hknows : s.Knows label) {t : System}
    (ht : System.step s label = some t) : t.Current := by
  cases label with
  | subscribe connection =>
      obtain rfl := Option.some.inj ht
      have hsubscribe := h.subscribe hknows
      exact ⟨hsubscribe.sent, hsubscribe.idle, hsubscribe.closed, hsubscribe.settled⟩
  | leave client =>
      simp only [System.step, Option.ite_none_right_eq_some, Option.some.injEq] at ht
      obtain ⟨-, rfl⟩ := ht
      exact h.withHub.drop _
  | watcherFails =>
      simp only [System.step, Option.ite_none_right_eq_some, Option.some.injEq] at ht
      obtain ⟨-, rfl⟩ := ht
      exact ⟨h.sent, fun hnil => ⟨rfl, (h.idle hnil).2⟩, h.closed, nofun⟩
  | write index =>
      obtain rfl := Option.some.inj ht
      refine ⟨h.sent, h.idle, h.closed, ?_⟩
      intro hup _ hunnotified
      have hup' : s.hub.indexUp = true := hup
      have hunnotified' : (s.unnotified || s.hub.indexUp) = false := hunnotified
      rw [hup', Bool.or_true] at hunnotified'
      cases hunnotified'
  | notify =>
      simp only [System.step, Option.ite_none_right_eq_some, Option.some.injEq] at ht
      obtain ⟨hup, rfl⟩ := ht
      have hclients : s.hub.clients ≠ [] := by
        intro hnil
        rw [(h.idle hnil).1] at hup
        cases hup
      have hopen : s.hub.closed = false := by
        cases hclosed : s.hub.closed with
        | false => rfl
        | true => exact absurd (h.closed hclosed) hclients
      simp only [EventHub.scheduleProbe, hopen, Bool.false_eq_true, if_false]
      exact ⟨h.sent, fun hnil => absurd hnil hclients, nofun, fun _ htimer => nomatch htimer⟩
  | settle changed throws =>
      simp only [System.step, Option.ite_none_right_eq_some, Option.some.injEq] at ht
      obtain ⟨-, rfl⟩ := ht
      exact h.settle changed throws
  | sourceChanged paths throws =>
      simp only [System.step, Option.ite_none_right_eq_some, Option.some.injEq] at ht
      obtain ⟨-, rfl⟩ := ht
      exact (h.withHub.receive fun _ => rfl).drop throws
  | degraded reason throws =>
      simp only [System.step, Option.ite_none_right_eq_some, Option.some.injEq] at ht
      obtain ⟨-, rfl⟩ := ht
      have hdegraded : (s.withHub
          { s.hub with degraded := some reason, sourceUp := false }).Current :=
        ⟨h.sent, h.idle, h.closed, h.withHub.settled⟩
      exact (hdegraded.receive fun _ => rfl).drop throws
  | close =>
      obtain rfl := Option.some.inj ht
      exact ⟨nofun, fun _ => ⟨rfl, rfl⟩, fun _ => rfl, nofun⟩

/-! ## Runs -/

end System

end AfyxGraph.UiServer
