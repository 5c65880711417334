import AfyxGraph.Mcp.Daemon

/-! # The client count of the daemon

A client leaves in one way only: its connection is marked and `dropClient` is called. The
count can go wrong where a client comes in, and nowhere else.
-/

namespace AfyxGraph.Mcp

open AfyxGraph.Core

namespace Daemon

variable {opts : ActivityTimerOptions} {parseJson : List UInt8 → Option HelloFields}
  {s t : Daemon} {c : Nat}

/-! ## Updates -/

theorem conn_update (s : Daemon) (c : Nat) (f : Connection → Connection) (d : Nat) :
    (s.update c f).conn d = if c = d then (s.conn d).map f else s.conn d := by
  simp only [conn, update, List.getElem?_modify]
  by_cases h : c = d
  · simp [h]
  · simp [h]

theorem conn_update_ne {f : Connection → Connection} {d : Nat} (h : d ≠ c) :
    (s.update c f).conn d = s.conn d := by
  rw [conn_update, if_neg (Ne.symm h)]

theorem update_update (s : Daemon) (c : Nat) (f g : Connection → Connection) :
    (s.update c f).update c g = s.update c (g ∘ f) := by
  simp [update, List.modify_modify_eq]

variable (opts) in
theorem armIdleTimer_fields (s : Daemon) :
    (s.armIdleTimer opts).connections = s.connections ∧
      (s.armIdleTimer opts).clients = s.clients ∧
      (s.armIdleTimer opts).stopping = s.stopping := by
  unfold armIdleTimer
  split
  · exact ⟨rfl, rfl, rfl⟩
  · split <;> exact ⟨rfl, rfl, rfl⟩

theorem armIdleTimer_armed (hrunning : s.stopping = false) (henabled : opts.idleTimeoutMs ≠ 0) :
    (s.armIdleTimer opts).idleTimer = true := by
  unfold armIdleTimer
  split
  · rename_i harmed
    simpa [hrunning] using harmed
  · rfl

theorem dropClient_fields (s : Daemon) (c : Nat) :
    (s.dropClient opts c).connections = s.connections ∧
      (s.dropClient opts c).clients = s.clients.erase c ∧
      (s.dropClient opts c).stopping = s.stopping := by
  unfold dropClient
  split
  · dsimp only
    split
    · exact armIdleTimer_fields opts _
    · exact ⟨rfl, rfl, rfl⟩
  · rename_i hc
    exact ⟨rfl, (List.erase_of_not_mem hc).symm, rfl⟩

theorem conn_dropClient (s : Daemon) (c d : Nat) : (s.dropClient opts c).conn d = s.conn d := by
  simp only [conn, (dropClient_fields s c).1]

theorem dropClient_of_not_mem (hc : c ∉ s.clients) : s.dropClient opts c = s := if_neg hc

/-! ## The invariant -/

/-- A counted client is still attached, and only sessions are reaped. -/
structure Inv (s : Daemon) : Prop where
  attached : ∀ c ∈ s.clients, ∃ conn, s.conn c = some conn ∧ conn.attached = true
  reaped : ∀ c conn, s.conn c = some conn → conn.pastHello = false → conn.reaped = false

theorem live_iff : s.live c = true ↔ ∃ conn, s.conn c = some conn ∧ conn.live = true := by
  cases h : s.conn c with
  | none => simp [live, h]
  | some conn => simp [live, h]

theorem not_client (h : Inv s) {conn : Connection} (hconn : s.conn c = some conn)
    (hdetached : conn.attached = false) : c ∉ s.clients := by
  intro hc
  obtain ⟨other, hother, hattached⟩ := h.attached c hc
  rw [Option.some.inj (hother.symm.trans hconn), hdetached] at hattached
  cases hattached

/-! ## A client leaves -/

/-- The connection is marked as ended and its client dropped. -/
theorem leave_exact (h : Exact opts s) (hrunning : s.stopping = false)
    {f : Connection → Connection} (hf : ∀ conn, (f conn).live = false) :
    Exact opts ((s.update c f).dropClient opts c) := by
  have hclients : ((s.update c f).dropClient opts c).clients = s.clients.erase c :=
    (dropClient_fields (s.update c f) c).2.1
  refine ⟨fun d => ?_, ?_, ?_⟩
  · rw [hclients, List.Nodup.mem_erase_iff h.once, live_iff]
    simp only [conn_dropClient]
    by_cases hd : d = c
    · subst hd
      simp only [conn_update, if_true, Option.map_eq_some_iff]
      constructor
      · intro hleft
        exact absurd rfl hleft.1
      · rintro ⟨_, ⟨conn, _, rfl⟩, hlive⟩
        rw [hf conn] at hlive
        cases hlive
    · rw [conn_update_ne hd, ← live_iff, ← h.counted d]
      exact and_iff_right hd
  · rw [hclients]
    exact h.once.erase c
  · intro hempty henabled
    by_cases hc : c ∈ s.clients
    · unfold dropClient at hempty ⊢
      rw [if_pos (show c ∈ (s.update c f).clients from hc)] at hempty ⊢
      dsimp only at hempty ⊢
      split
      · exact armIdleTimer_armed hrunning henabled
      · rename_i hleft
        rw [if_neg hleft] at hempty
        exact absurd hempty hleft
    · rw [dropClient_of_not_mem (show c ∉ (s.update c f).clients from hc)] at hempty ⊢
      exact h.idle hempty henabled

theorem leave_inv (h : Inv s) (hexact : Exact opts s) {f : Connection → Connection}
    (hf : ∀ conn, s.conn c = some conn → (f conn).pastHello = false → (f conn).reaped = false) :
    Inv ((s.update c f).dropClient opts c) := by
  have hclients : ((s.update c f).dropClient opts c).clients = s.clients.erase c :=
    (dropClient_fields (s.update c f) c).2.1
  constructor
  · intro d hd
    rw [hclients] at hd
    obtain ⟨hne, hd⟩ := (List.Nodup.mem_erase_iff hexact.once).mp hd
    rw [conn_dropClient, conn_update_ne hne]
    exact h.attached d hd
  · intro d conn hconn hbefore
    rw [conn_dropClient] at hconn
    by_cases hd : d = c
    · subst hd
      rw [conn_update, if_pos rfl, Option.map_eq_some_iff] at hconn
      obtain ⟨old, hold, rfl⟩ := hconn
      exact hf old hold hbefore
    · rw [conn_update_ne hd] at hconn
      exact h.reaped d conn hconn hbefore

/-- `t` is `s` after the client of the connection has left. -/
def Leaves (opts : ActivityTimerOptions) (s t : Daemon) (c : Nat) : Prop :=
  ∃ f : Connection → Connection, (∀ conn, (f conn).live = false) ∧
    (∀ conn, s.conn c = some conn → (f conn).pastHello = false → (f conn).reaped = false) ∧
    t = (s.update c f).dropClient opts c

theorem Leaves.exact (h : Leaves opts s t c) (hexact : Exact opts s)
    (hrunning : s.stopping = false) : Exact opts t := by
  obtain ⟨f, hdead, -, rfl⟩ := h
  exact leave_exact hexact hrunning hdead

theorem Leaves.inv (h : Leaves opts s t c) (hinv : Inv s) (hexact : Exact opts s) : Inv t := by
  obtain ⟨f, -, hreaped, rfl⟩ := h
  exact leave_inv hinv hexact hreaped

theorem Leaves.running (h : Leaves opts s t c) : t.stopping = s.stopping := by
  obtain ⟨f, -, -, rfl⟩ := h
  exact (dropClient_fields _ c).2.2

/-- `close` and `error` record the end of the socket and nothing else. -/
structure Marks (mark : Connection → Connection) : Prop where
  gone : ∀ conn, (mark conn).gone = true
  phase : ∀ conn, (mark conn).phase = conn.phase
  reaped : ∀ conn, (mark conn).reaped = conn.reaped

theorem marks_close : Marks fun conn => { conn with closeSeen := true } :=
  ⟨fun _ => rfl, fun _ => rfl, fun _ => rfl⟩

theorem marks_error : Marks fun conn => { conn with errorSeen := true } :=
  ⟨fun conn => Bool.or_true conn.closeSeen, fun _ => rfl, fun _ => rfl⟩

theorem pastHello_congr {a b : Connection} (h : a.phase = b.phase) :
    a.pastHello = b.pastHello := by
  simp only [Connection.pastHello, h]

theorem live_of_gone {conn : Connection} (h : conn.gone = true) : conn.live = false := by
  simp [Connection.live, h]

/-- Without a session there is no client to drop. -/
theorem socketGone_leaves (h : Inv s) {conn : Connection} (hconn : s.conn c = some conn)
    {mark : Connection → Connection} (hmark : Marks mark) :
    Leaves opts s (s.socketGone opts c mark) c := by
  have hreaped : ∀ other, s.conn c = some other → (mark other).pastHello = false →
      (mark other).reaped = false := by
    intro other hother hbefore
    rw [pastHello_congr (hmark.phase other)] at hbefore
    rw [hmark.reaped other]
    exact h.reaped c other hother hbefore
  unfold socketGone
  rw [hconn]
  dsimp only
  cases hphase : conn.phase with
  | hello buffered =>
      have hout : c ∉ s.clients := not_client h hconn (by simp [Connection.attached, hphase])
      refine ⟨(fun conn => { conn with phase := .handedOver unknownPeers }) ∘ mark,
        fun _ => rfl, ?_, ?_⟩
      · intro other hother _
        obtain rfl := Option.some.inj (hconn.symm.trans hother)
        change (mark conn).reaped = false
        rw [hmark.reaped conn]
        exact h.reaped c conn hconn (by simp [Connection.pastHello, hphase])
      · rw [dropClient_of_not_mem (by exact hout)]
        exact update_update s c _ _
  | handedOver peers =>
      have hout : c ∉ s.clients := not_client h hconn (by simp [Connection.attached, hphase])
      refine ⟨mark, fun other => live_of_gone (hmark.gone other), hreaped, ?_⟩
      rw [dropClient_of_not_mem (by exact hout)]
  | session peers stopped =>
      cases stopped with
      | true =>
          have hout : c ∉ s.clients := not_client h hconn (by simp [Connection.attached, hphase])
          refine ⟨mark, fun other => live_of_gone (hmark.gone other), hreaped, ?_⟩
          rw [dropClient_of_not_mem (by exact hout)]
      | false =>
          refine ⟨(fun conn => { conn with phase := .session peers true }) ∘ mark, ?_, ?_, ?_⟩
          · intro other
            exact live_of_gone (hmark.gone other)
          · intro other _ hbefore
            cases hbefore
          · dsimp only
            rw [setPhase, update_update]

variable (opts) in
theorem reapClient_leaves {conn : Connection} (hconn : s.conn c = some conn)
    (hpast : conn.pastHello = true) : Leaves opts s (s.reapClient opts c) c := by
  unfold reapClient stopSession
  rw [hconn]
  obtain ⟨phase, closeSeen, errorSeen, reaped⟩ := conn
  cases phase with
  | hello buffered => cases hpast
  | handedOver peers => cases hpast
  | session peers stopped =>
      refine ⟨(fun conn => { conn with reaped := true }) ∘
        fun conn => { conn with phase := .session peers true }, fun other => ?_, ?_, ?_⟩
      · simp [Connection.live]
      · intro other _ hbefore
        cases hbefore
      · dsimp only
        rw [setPhase, update_update]

theorem Leaves.conn_ne (h : Leaves opts s t c) {d : Nat} (hd : d ≠ c) : t.conn d = s.conn d := by
  obtain ⟨f, -, -, rfl⟩ := h
  rw [conn_dropClient, conn_update_ne hd]

/-- What every state of a running daemon satisfies while the count is right. -/
structure Running (opts : ActivityTimerOptions) (s : Daemon) : Prop where
  inv : Inv s
  exact_ : Exact opts s
  running : s.stopping = false

theorem Leaves.keeps (h : Leaves opts s t c) (hs : Running opts s) : Running opts t :=
  ⟨h.inv hs.inv hs.exact_, h.exact hs.exact_ hs.running, h.running.trans hs.running⟩

theorem reapClients_running {dead : List Nat} (hs : Running opts s) (hnodup : dead.Nodup)
    (hpast : ∀ c ∈ dead, ∃ conn, s.conn c = some conn ∧ conn.pastHello = true) :
    Running opts (dead.foldl (reapClient opts) s) := by
  induction dead generalizing s with
  | nil => exact hs
  | cons c dead ih =>
      rw [List.nodup_cons] at hnodup
      obtain ⟨conn, hconn, hsession⟩ := hpast c (List.mem_cons_self ..)
      have hleaves := reapClient_leaves opts hconn hsession
      rw [List.foldl_cons]
      apply ih (hleaves.keeps hs) hnodup.2
      intro d hd
      have hne : d ≠ c := fun heq => hnodup.1 (heq ▸ hd)
      rw [hleaves.conn_ne hne]
      exact hpast d (List.mem_cons_of_mem _ hd)

theorem pastHello_of_attached {conn : Connection} (h : conn.attached = true) :
    conn.pastHello = true := by
  unfold Connection.attached at h
  unfold Connection.pastHello
  cases hphase : conn.phase with
  | session peers stopped => rfl
  | hello buffered => simp [hphase] at h
  | handedOver peers => simp [hphase] at h

theorem reapDeadClients_running (hs : Running opts s) (isAlive : Nat → Bool) :
    Running opts (s.reapDeadClients opts isAlive) := by
  apply reapClients_running hs (hs.exact_.once.filter _)
  intro c hc
  obtain ⟨conn, hconn, hattached⟩ := hs.inv.attached c (List.mem_of_mem_filter hc)
  exact ⟨conn, hconn, pastHello_of_attached hattached⟩

/-! ## Steps that leave the clients alone -/

/-- A connection that has no session yet stays without one. -/
theorem update_running (hs : Running opts s) {f : Connection → Connection}
    (hbefore : ∀ conn, s.conn c = some conn → conn.pastHello = false)
    (hafter : ∀ conn, (f conn).pastHello = false) (hreaped : ∀ conn, (f conn).reaped = conn.reaped) :
    Running opts (s.update c f) := by
  have hout : c ∉ s.clients := by
    intro hc
    obtain ⟨conn, hconn, hattached⟩ := hs.inv.attached c hc
    have hpast := pastHello_of_attached hattached
    rw [hbefore conn hconn] at hpast
    cases hpast
  have hleaves : Leaves opts s (s.update c f) c := by
    refine ⟨f, fun conn => ?_, fun conn hconn _ => ?_, ?_⟩
    · simp [Connection.live, hafter conn]
    · rw [hreaped conn]
      exact hs.inv.reaped c conn hconn (hbefore conn hconn)
    · rw [dropClient_of_not_mem (by exact hout)]
  exact hleaves.keeps hs

theorem onHelloData_running (hs : Running opts s) {buffered : List UInt8}
    (hbefore : ∀ conn, s.conn c = some conn → conn.pastHello = false) (chunk : List UInt8) :
    Running opts (s.onHelloData parseJson c buffered chunk) := by
  have hsettle : ∀ peers, Running opts (s.settleHello c peers) := fun peers =>
    update_running hs hbefore (fun _ => rfl) fun _ => rfl
  unfold onHelloData
  dsimp only
  split
  · split
    · exact hsettle _
    · exact update_running hs hbefore (fun _ => rfl) fun _ => rfl
  · split
    · exact hsettle _
    · exact hsettle _

theorem connect_running (hs : Running opts s) :
    Running opts
      { s with connections := s.connections ++ [⟨.hello [], false, false, false⟩] } := by
  have hconn : ∀ d, ({ s with connections := s.connections ++
      [⟨.hello [], false, false, false⟩] } : Daemon).conn d =
        if d = s.connections.length then some ⟨.hello [], false, false, false⟩ else s.conn d := by
    intro d
    simp only [conn]
    by_cases hd : d = s.connections.length
    · simp [hd]
    · rw [if_neg hd]
      rcases Nat.lt_or_gt_of_ne hd with hlt | hgt
      · exact List.getElem?_append_left hlt
      · rw [List.getElem?_eq_none (by simp; omega), List.getElem?_eq_none (by omega)]
  have hnew : s.conn s.connections.length = none := by simp [conn]
  refine ⟨⟨fun c hc => ?_, fun c conn => ?_⟩, ⟨fun c => ?_, hs.exact_.once, hs.exact_.idle⟩,
    hs.running⟩
  · obtain ⟨conn, hfound, hattached⟩ := hs.inv.attached c hc
    have hne : c ≠ s.connections.length := by
      rintro rfl
      rw [hnew] at hfound
      cases hfound
    exact ⟨conn, by rw [hconn, if_neg hne, hfound], hattached⟩
  · rw [hconn]
    split
    · rintro hfound _
      obtain rfl := Option.some.inj hfound
      rfl
    · exact hs.inv.reaped c conn
  · rw [live_iff]
    simp only [hconn]
    have hcounted := hs.exact_.counted c
    rw [live_iff] at hcounted
    split
    · rename_i heq
      subst heq
      simp only [hnew, reduceCtorEq, false_and, exists_false, iff_false] at hcounted
      simp [hcounted, Connection.live, Connection.pastHello]
    · exact hcounted

/-! ## A client comes in -/

theorem conn_acceptSession (s : Daemon) (c : Nat) (peers : ClientPeerInfo) (d : Nat) :
    (s.acceptSession c peers).conn d =
      if c = d then (s.conn d).map fun conn => { conn with phase := .session peers false }
      else s.conn d :=
  conn_update s c _ d

theorem acceptSession_inv (h : Inv s) {peers : ClientPeerInfo} {conn : Connection}
    (hconn : s.conn c = some conn) : Inv (s.acceptSession c peers) := by
  constructor
  · intro d hd
    rw [conn_acceptSession]
    by_cases hcd : c = d
    · subst hcd
      exact ⟨{ conn with phase := .session peers false }, by simp [hconn], rfl⟩
    · rw [if_neg hcd]
      rcases List.mem_append.mp hd with hd | hd
      · exact h.attached d hd
      · exact absurd (List.mem_singleton.mp hd).symm hcd
  · intro d other hother hbefore
    rw [conn_acceptSession] at hother
    by_cases hcd : c = d
    · rw [if_pos hcd, Option.map_eq_some_iff] at hother
      obtain ⟨old, -, rfl⟩ := hother
      cases hbefore
    · rw [if_neg hcd] at hother
      exact h.reaped d other hother hbefore

/-- The new client is a live one exactly when its socket has not ended before. -/
theorem acceptSession_exact_iff (hs : Running opts s) (peers : ClientPeerInfo)
    {conn : Connection} (hconn : s.conn c = some conn) (hphase : conn.pastHello = false) :
    Exact opts (s.acceptSession c peers) ↔ conn.gone = false := by
  have hout : c ∉ s.clients := by
    intro hc
    obtain ⟨other, hother, hattached⟩ := hs.inv.attached c hc
    have hpast := pastHello_of_attached hattached
    rw [Option.some.inj (hother.symm.trans hconn), hphase] at hpast
    cases hpast
  have hreaped := hs.inv.reaped c conn hconn hphase
  have hlive : (s.acceptSession c peers).live c = !conn.gone := by
    simp [live, conn_acceptSession, hconn, Connection.live, Connection.pastHello, hreaped,
      Connection.gone]
  have hclients : (s.acceptSession c peers).clients = s.clients ++ [c] := rfl
  constructor
  · intro h
    have hcounted := (h.counted c).mp (by simp [hclients])
    rw [hlive] at hcounted
    simpa using hcounted
  · intro hopen
    refine ⟨fun d => ?_, ?_, fun hempty => ?_⟩
    · rw [hclients, List.mem_append, List.mem_singleton]
      by_cases hcd : c = d
      · subst hcd
        simp [hlive, hopen]
      · have hsame : (s.acceptSession c peers).live d = s.live d := by
          simp [live, conn_acceptSession, hcd]
        rw [hsame, hs.exact_.counted d]
        exact or_iff_left (Ne.symm hcd)
    · rw [hclients]
      exact List.nodup_append.mpr ⟨hs.exact_.once, List.nodup_singleton c, by
        rintro d hd _ hnew rfl
        exact hout (List.mem_singleton.mp hnew ▸ hd)⟩
    · rw [hclients] at hempty
      simp at hempty

/-! ## Stopping -/

theorem stopSession_stopping (s : Daemon) (c : Nat) : (s.stopSession c).stopping = s.stopping := by
  unfold stopSession
  split <;> rfl

theorem stop_stopping (s : Daemon) : s.stop.stopping = true := by
  unfold stop
  split
  · assumption
  · have hfold : ∀ (clients : List Nat) (s : Daemon),
        (clients.foldl stopSession s).stopping = s.stopping := by
      intro clients
      induction clients with
      | nil => exact fun s => rfl
      | cons c clients ih => exact fun s => (ih _).trans (stopSession_stopping s c)
    exact hfold _ _

theorem socketGone_stopping (s : Daemon) (c : Nat) (mark : Connection → Connection) :
    (s.socketGone opts c mark).stopping = s.stopping := by
  unfold socketGone
  split
  · rfl
  · dsimp only
    split
    · rfl
    · rfl
    · rfl
    · exact (dropClient_fields _ c).2.2

/-- A daemon that stops goes on stopping. -/
theorem step_stopping {event : Event} (hstopping : s.stopping = true)
    (hs : step opts parseJson s event = some t) : t.stopping = true := by
  cases event with
  | connect => simp [step, hstopping] at hs
  | data c chunk now =>
      simp only [step] at hs
      split at hs
      · cases hs
        unfold onHelloData
        dsimp only
        split
        · split <;> exact hstopping
        · split <;> exact hstopping
      · cases hs
        exact hstopping
      · cases hs
  | helloTimeout c =>
      simp only [step] at hs
      split at hs
      · cases hs
        exact hstopping
      · cases hs
  | accept c =>
      simp only [step] at hs
      split at hs
      · cases hs
        exact hstopping
      · cases hs
  | close c =>
      simp only [step, Option.ite_none_right_eq_some, Option.some.injEq] at hs
      rw [← hs.2, socketGone_stopping]
      exact hstopping
  | error c =>
      simp only [step, Option.ite_none_right_eq_some, Option.some.injEq] at hs
      rw [← hs.2, socketGone_stopping]
      exact hstopping
  | sweep isAlive => simp [step, hstopping] at hs
  | backstop now isAlive => simp [step, hstopping] at hs
  | idleTimer =>
      simp only [step, Option.ite_none_right_eq_some, Option.some.injEq] at hs
      obtain ⟨-, rfl⟩ := hs
      split
      · exact stop_stopping _
      · exact (armIdleTimer_fields opts _).2.2.trans hstopping
  | stop =>
      cases hs
      exact stop_stopping s

/-! ## Runs -/

theorem socketGone_running (hs : Running opts s) {unseen : Connection → Bool}
    (hopen : (s.conn c).any unseen = true) {mark : Connection → Connection} (hmark : Marks mark) :
    Running opts (s.socketGone opts c mark) := by
  cases hconn : s.conn c with
  | none => simp [hconn] at hopen
  | some conn => exact (socketGone_leaves hs.inv hconn hmark).keeps hs

/-- The idle timer has fired under a client. -/
theorem rearm_running (hs : Running opts s) (hclients : s.clients ≠ []) :
    Running opts ({ s with idleTimer := false }.armIdleTimer opts) := by
  have hany : ∀ armed, Running opts { s with idleTimer := armed } := fun armed =>
    ⟨⟨hs.inv.attached, hs.inv.reaped⟩,
      ⟨hs.exact_.counted, hs.exact_.once, fun hempty => absurd hempty hclients⟩, hs.running⟩
  unfold armIdleTimer
  split
  · exact hany false
  · split
    · exact hany false
    · exact hany true

theorem backstopShouldExit_running (hs : Running opts s) (now : Nat) (isAlive : Nat → Bool) :
    Running opts (s.backstopShouldExit opts now isAlive).1 := by
  unfold backstopShouldExit
  split
  · exact hs
  · split
    · exact hs
    · dsimp only
      split <;> exact reapDeadClients_running hs isAlive

/-- A step of a running daemon that is not the guarded one stops it or leaves the count right. -/
theorem step_running {event : Event} (hs : Running opts s)
    (hstep : step opts parseJson s event = some t) (haccept : ∀ c, event ≠ .accept c) :
    t.stopping = true ∨ Running opts t := by
  cases event with
  | connect =>
      simp only [step, Option.ite_none_left_eq_some, Option.some.injEq] at hstep
      obtain ⟨-, rfl⟩ := hstep
      exact Or.inr (connect_running hs)
  | data c chunk now =>
      simp only [step] at hstep
      split at hstep
      · rename_i buffered _ _ _ hconn
        cases hstep
        refine Or.inr (onHelloData_running hs (fun conn hfound => ?_) chunk)
        obtain rfl := Option.some.inj (hconn.symm.trans hfound)
        rfl
      · cases hstep
        exact Or.inr ⟨⟨hs.inv.attached, hs.inv.reaped⟩,
          ⟨hs.exact_.counted, hs.exact_.once, hs.exact_.idle⟩, hs.running⟩
      · cases hstep
  | helloTimeout c =>
      simp only [step] at hstep
      split at hstep
      · rename_i hconn
        cases hstep
        refine Or.inr (update_running hs (fun conn hfound => ?_) (fun _ => rfl) fun _ => rfl)
        obtain rfl := Option.some.inj (hconn.symm.trans hfound)
        rfl
      · cases hstep
  | accept c => exact absurd rfl (haccept c)
  | close c =>
      simp only [step, Option.ite_none_right_eq_some, Option.some.injEq] at hstep
      obtain ⟨hopen, rfl⟩ := hstep
      exact Or.inr (socketGone_running hs hopen marks_close)
  | error c =>
      simp only [step, Option.ite_none_right_eq_some, Option.some.injEq] at hstep
      obtain ⟨hopen, rfl⟩ := hstep
      exact Or.inr (socketGone_running hs hopen marks_error)
  | sweep isAlive =>
      simp only [step, Option.ite_none_left_eq_some, Option.some.injEq] at hstep
      obtain ⟨-, rfl⟩ := hstep
      exact Or.inr (reapDeadClients_running hs isAlive)
  | backstop now isAlive =>
      simp only [step, Option.ite_none_left_eq_some, Option.some.injEq] at hstep
      obtain ⟨-, rfl⟩ := hstep
      split
      · exact Or.inl (stop_stopping _)
      · exact Or.inr (backstopShouldExit_running hs now isAlive)
  | idleTimer =>
      simp only [step, Option.ite_none_right_eq_some, Option.some.injEq] at hstep
      obtain ⟨-, rfl⟩ := hstep
      split
      · exact Or.inl (stop_stopping _)
      · rename_i hclients
        exact Or.inr (rearm_running hs (by simpa using hclients))
  | stop =>
      cases hstep
      exact Or.inl (stop_stopping s)

/-- The invariant of runs. -/
def RunInv (s : Daemon) : Prop := s.stopping = false → Inv s

theorem step_runInv {event : Event} (hi : RunInv s) (hp : CountExact opts s)
    (hstep : step opts parseJson s event = some t) : RunInv t := by
  intro htrunning
  cases hrunning : s.stopping with
  | true => simp [step_stopping hrunning hstep] at htrunning
  | false =>
      have hs : Running opts s := ⟨hi hrunning, hp hrunning, hrunning⟩
      by_cases haccept : ∃ c, event = .accept c
      · obtain ⟨c, rfl⟩ := haccept
        simp only [step] at hstep
        split at hstep
        · rename_i hconn
          cases hstep
          exact acceptSession_inv hs.inv hconn
        · cases hstep
      · rcases step_running hs hstep (fun c heq => haccept ⟨c, heq⟩) with hstop | ht
        · simp [hstop] at htrunning
        · exact ht.inv

theorem step_countExact_iff {event : Event} (hi : RunInv s) (hp : CountExact opts s)
    (hstep : step opts parseJson s event = some t) :
    CountExact opts t ↔ CountGuard s event := by
  cases hrunning : s.stopping with
  | true =>
      have htstopping := step_stopping hrunning hstep
      refine iff_of_true (fun htrunning => ?_) ?_
      · simp [htstopping] at htrunning
      · cases event <;> simp [CountGuard, hrunning]
  | false =>
      have hs : Running opts s := ⟨hi hrunning, hp hrunning, hrunning⟩
      by_cases haccept : ∃ c, event = .accept c
      · obtain ⟨c, rfl⟩ := haccept
        simp only [step] at hstep
        split at hstep
        · rename_i peers _ _ _ hconn
          cases hstep
          have hiff := acceptSession_exact_iff hs peers hconn rfl
          constructor
          · intro h _ conn hfound
            rw [← Option.some.inj (hconn.symm.trans hfound)]
            exact hiff.mp (h hrunning)
          · intro hguard _
            exact hiff.mpr (hguard hrunning _ hconn)
        · cases hstep
      · have hguard : CountGuard s event := by
          cases event with
          | accept c => exact absurd ⟨c, rfl⟩ haccept
          | _ => trivial
        refine iff_of_true (fun htrunning => ?_) hguard
        rcases step_running hs hstep (fun c heq => haccept ⟨c, heq⟩) with hstop | ht
        · simp [hstop] at htrunning
        · exact ht.exact_

/-- Along every run the count is exact in every state exactly when no session is made for a
socket that has already ended. -/
theorem always_countExact_iff (opts : ActivityTimerOptions)
    (parseJson : List UInt8 → Option HelloFields) (startedAt : Nat) (events : List Event) :
    (step opts parseJson).Always (CountExact opts) (init opts startedAt) events ↔
      (step opts parseJson).Guarded CountGuard (init opts startedAt) events := by
  have hfields := armIdleTimer_fields opts ⟨[], [], startedAt, false, false⟩
  have hinit : ∀ c, (init opts startedAt).conn c = none := by
    intro c
    simp [init, conn, hfields.1]
  have hclients : (init opts startedAt).clients = [] := hfields.2.1
  apply Machine.always_iff_guarded (fun _ _ _ hi hp hstep => step_runInv hi hp hstep)
    (fun _ _ _ hi hp hstep => step_countExact_iff hi hp hstep)
  · intro _
    refine ⟨by simp [hclients], fun c conn hconn => ?_⟩
    rw [hinit] at hconn
    cases hconn
  · intro _
    refine ⟨fun c => by simp [hclients, live, hinit], by simp [hclients], fun _ henabled => ?_⟩
    exact armIdleTimer_armed rfl henabled

/-- The socket closes while the hello is awaited: its session is counted all the same. -/
theorem phantom_client :
    ∃ t, (step ⟨300000, 1800000, 30000⟩ fun _ => none).run (init ⟨300000, 1800000, 30000⟩ 0)
        [.connect, .close 0, .accept 0] = some t ∧
      t.stopping = false ∧ t.clients = [0] ∧ t.live 0 = false ∧
      ¬ CountExact ⟨300000, 1800000, 30000⟩ t := by
  refine ⟨_, rfl, rfl, rfl, rfl, fun hexact => ?_⟩
  exact absurd (((hexact rfl).counted 0).mp (by decide)) (by decide)

end Daemon

end AfyxGraph.Mcp
