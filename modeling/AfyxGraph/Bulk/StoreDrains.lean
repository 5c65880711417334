import AfyxGraph.Bulk.StoreOrder

/-! # Drains of the store writer

What the messages in flight say about a drain: a `drain` in the inbox stands behind the payloads
posted before it, and a `drained` that no error comes ahead of says that these are stored. The
first is about the order of the inbox, the second about the order of the outbox.
-/

namespace AfyxGraph.Bulk.StoreWriter

open AfyxGraph.Core Extraction Store Admission

variable {env : Environment} {base : Tables} {s t : System} {event : System.Event}

/-- The payloads among the messages. -/
def payloads : List InMessage → List Payload
  | [] => []
  | .bundle payload :: rest => payload :: payloads rest
  | _ :: rest => payloads rest

theorem payloads_append (xs ys : List InMessage) :
    payloads (xs ++ ys) = payloads xs ++ payloads ys := by
  induction xs with
  | nil => rfl
  | cons x xs ih => cases x <;> simp [payloads, ih]

/-- An element of an extended list stands at its end or in the old list. -/
theorem split_concat {α : Type} {xs before after : List α} {x y : α}
    (h : xs ++ [y] = before ++ x :: after) :
    (x = y ∧ before = xs ∧ after = []) ∨
      ∃ rest, after = rest ++ [y] ∧ xs = before ++ x :: rest := by
  rcases List.eq_nil_or_concat after with rfl | ⟨rest, last, rfl⟩
  · obtain ⟨hxs, hy⟩ := List.append_inj' h rfl
    cases hy
    exact .inl ⟨rfl, hxs.symm, rfl⟩
  · rw [List.concat_eq_append, ← List.cons_append, ← List.append_assoc] at h
    obtain ⟨hxs, hy⟩ := List.append_inj' h rfl
    cases hy
    exact .inr ⟨rest, by simp, hxs⟩

namespace System

/-- What was posted before the drain is stored, in its order and before anything else. -/
def Stored (s : System) (id : Nat) : Prop :=
  ∀ n, (id, n) ∈ s.marks → s.posted.take n <+: s.worker.applied

def ids (s : System) (id : Nat) : Prop :=
  .drain id ∈ s.worker.inbox ∨ .drained id ∈ s.worker.outbox ∨ id ∈ s.client.resolved

structure Inv (env : Environment) (base : Tables) (s : System) : Prop where
  tables : storeAll env base s.worker.applied = some s.worker.tables
  posted : s.worker.alive = true → s.posted = s.worker.taken ++ payloads s.worker.inbox
  known : ∀ id, s.ids id → id < s.client.nextDrainId
  marked : ∀ mark ∈ s.marks, mark.1 < s.client.nextDrainId ∧ mark.2 ≤ s.posted.length
  waiting : ∀ before id after, s.worker.inbox = before ++ .drain id :: after →
    ∀ n, (id, n) ∈ s.marks → n = s.worker.taken.length + (payloads before).length
  clean : s.worker.applied = s.worker.taken ∨ s.client.firstError.isSome = true ∨
    ∃ message, .error message ∈ s.worker.outbox
  answered : ∀ before id after, s.worker.outbox = before ++ .drained id :: after →
    s.client.firstError.isSome = true ∨ (∃ message, .error message ∈ before) ∨ s.Stored id
  resolved : ∀ id ∈ s.client.resolved, s.Stored id

theorem inv_init (env : Environment) (base : Tables) : Inv env base (init base) := by
  constructor
  · rfl
  · intro _
    rfl
  · intro id hid
    simp [ids, init] at hid
  · simp [init]
  · intro before id after h
    have hmem : InMessage.drain id ∈ (init base).worker.inbox := h ▸ by simp
    simp [init] at hmem
  · exact .inl rfl
  · intro before id after h
    have hmem : OutMessage.drained id ∈ (init base).worker.outbox := h ▸ by simp
    simp [init] at hmem
  · simp [init]

/-! ## Calls -/

/-- More payloads, and more that is stored, take nothing away. -/
theorem Stored.mono {id : Nat} (h : s.Stored id) (hmarks : t.marks = s.marks)
    (hlength : ∀ mark ∈ s.marks, mark.2 ≤ s.posted.length) (hposted : s.posted <+: t.posted)
    (happlied : s.worker.applied <+: t.worker.applied) : t.Stored id := by
  intro n hn
  rw [hmarks] at hn
  obtain ⟨more, hmore⟩ := hposted
  rw [← hmore, List.take_append_of_le_length (hlength _ hn)]
  exact (h n hn).trans happlied

/-- A call that only changes what the client keeps for `waitBelow` and `close`. -/
theorem Inv.client (h : Inv env base s) (client : Client)
    (hfirst : client.firstError = s.client.firstError)
    (hnext : client.nextDrainId = s.client.nextDrainId)
    (hresolved : client.resolved = s.client.resolved) : Inv env base { s with client } := by
  obtain ⟨htables, hposted, hknown, hmarked, hwaiting, hclean, hanswered, hres⟩ := h
  refine ⟨htables, hposted, ?_, ?_, hwaiting, ?_, ?_, ?_⟩
  · intro id hid
    rw [hnext]
    exact hknown id (by simpa only [ids, hresolved] using hid)
  · rw [hnext]
    exact hmarked
  · rw [hfirst]
    exact hclean
  · rw [hfirst]
    exact hanswered
  · rw [hresolved]
    exact hres

/-- A message goes to the worker, or is lost; a drain comes after all that was posted. -/
theorem Inv.post (h : Inv env base s) (message : InMessage)
    (hdrain : ∀ id, message = .drain id → id < s.client.nextDrainId ∧
      ∀ n, (id, n) ∈ s.marks → n = s.posted.length) :
    Inv env base ({ s with posted := s.posted ++ payloads [message] }.postMessage message) := by
  obtain ⟨htables, hposted, hknown, hmarked, hwaiting, hclean, hanswered, hres⟩ := h
  have hmarked' : ∀ mark ∈ s.marks, mark.1 < s.client.nextDrainId ∧
      mark.2 ≤ (s.posted ++ payloads [message]).length := fun mark hm =>
    ⟨(hmarked mark hm).1, (hmarked mark hm).2.trans (by simp)⟩
  have hstored : ∀ {id : Nat} {u : System}, s.Stored id → u.marks = s.marks →
      u.posted = s.posted ++ payloads [message] → u.worker.applied = s.worker.applied →
      u.Stored id := by
    intro id u hid hmarks hpost happlied
    exact hid.mono hmarks (fun mark hm => (hmarked mark hm).2) (by simp [hpost])
      (by simp [happlied])
  unfold postMessage
  dsimp only
  split
  · rename_i halive
    refine ⟨htables, ?_, ?_, hmarked', ?_, hclean, ?_,
      fun id hid => hstored (hres id hid) rfl rfl rfl⟩
    · intro _
      rw [payloads_append, ← List.append_assoc, ← hposted halive]
    · intro id hid
      simp only [ids, List.mem_append, List.mem_singleton] at hid
      rcases hid with (hid | hid) | hid
      · exact hknown id (.inl hid)
      · exact (hdrain id hid.symm).1
      · exact hknown id (.inr hid)
    · intro before id after hsplit n hn
      rcases split_concat hsplit with ⟨heq, rfl, -⟩ | ⟨rest, -, hold⟩
      · rw [(hdrain id heq.symm).2 n hn, hposted halive, List.length_append]
      · exact hwaiting before id rest hold n hn
    · exact fun before id after hsplit => (hanswered before id after hsplit).imp_right
        (.imp_right fun hid => hstored hid rfl rfl rfl)
  · rename_i hdead
    exact ⟨htables, fun halive => absurd halive hdead, hknown, hmarked', hwaiting, hclean,
      fun before id after hsplit => (hanswered before id after hsplit).imp_right
        (.imp_right fun hid => hstored hid rfl rfl rfl),
      fun id hid => hstored (hres id hid) rfl rfl rfl⟩

theorem Inv.close (h : Inv env base s) : Inv env base s.close := by
  unfold System.close
  split
  · exact h
  · have hpost := (h.client { s.client with closers := s.client.closers + 1 } rfl rfl rfl).post
      .close (by simp)
    simpa [payloads] using hpost

theorem Inv.waitBelow (h : Inv env base s) (limit : Nat) : Inv env base (s.waitBelow limit) := by
  unfold System.waitBelow
  split
  · exact h
  · exact h.client _ rfl rfl rfl

theorem Inv.send (h : Inv env base s) (payload : Payload) : Inv env base (s.send payload) := by
  unfold System.send
  split
  · exact h
  · exact (h.client { s.client with outstanding := s.client.outstanding + 1 } rfl rfl rfl).post
      (.bundle payload) (by simp)

/-- A drain that was asked for earlier does not care about a new one. -/
theorem Stored.mark {id : Nat} (h : s.Stored id) (hid : id < s.client.nextDrainId)
    (client : Client) :
    System.Stored { s with
      client, marks := s.marks ++ [(s.client.nextDrainId, s.posted.length)] } id := by
  intro n hn
  rcases List.mem_append.mp hn with hn | hn
  · exact h n hn
  · cases List.mem_singleton.mp hn
    omega

/-- The id of a drain is new to the messages. -/
theorem Inv.mark (h : Inv env base s) (client : Client)
    (hfirst : client.firstError = s.client.firstError)
    (hnext : client.nextDrainId = s.client.nextDrainId + 1)
    (hresolved : client.resolved = s.client.resolved) :
    Inv env base
      { s with client, marks := s.marks ++ [(s.client.nextDrainId, s.posted.length)] } := by
  obtain ⟨htables, hposted, hknown, hmarked, hwaiting, hclean, hanswered, hres⟩ := h
  refine ⟨htables, hposted, ?_, ?_, ?_, hfirst ▸ hclean, ?_, ?_⟩
  · intro id hid
    rw [hnext]
    exact Nat.lt_succ_of_lt (hknown id (by simpa only [ids, hresolved] using hid))
  · intro mark hm
    rw [hnext]
    rcases List.mem_append.mp hm with hm | hm
    · exact ⟨Nat.lt_succ_of_lt (hmarked mark hm).1, (hmarked mark hm).2⟩
    · rw [List.mem_singleton.mp hm]
      exact ⟨Nat.lt_succ_self _, Nat.le_refl _⟩
  · intro before id after hsplit n hn
    have hid : id < s.client.nextDrainId := hknown id (.inl (hsplit ▸ by simp))
    rcases List.mem_append.mp hn with hn | hn
    · exact hwaiting before id after hsplit n hn
    · cases List.mem_singleton.mp hn
      omega
  · intro before id after hsplit
    have hid : id < s.client.nextDrainId := hknown id (.inr (.inl (hsplit ▸ by simp)))
    rw [hfirst]
    exact (hanswered before id after hsplit).imp_right (.imp_right (·.mark hid client))
  · rw [hresolved]
    exact fun id hid => (hres id hid).mark (hknown id (.inr (.inr hid))) client

theorem Inv.drain (h : Inv env base s) : Inv env base s.drain := by
  unfold System.drain
  split
  · exact h
  · have hpost := (h.mark { s.client with
        nextDrainId := s.client.nextDrainId + 1
        drainWaiters := s.client.drainWaiters ++ [s.client.nextDrainId] } rfl rfl rfl).post
      (.drain s.client.nextDrainId) ?_
    · simpa [payloads] using hpost
    · intro id heq
      cases heq
      refine ⟨Nat.lt_succ_self _, fun n hn => ?_⟩
      rcases List.mem_append.mp hn with hn | hn
      · exact absurd (h.marked _ hn).1 (Nat.lt_irrefl _)
      · cases List.mem_singleton.mp hn
        rfl

/-! ## The worker -/

/-- The thread ends: what it has stored and said stays. -/
theorem Inv.finish (h : Inv env base s) (failure : Option String) (code : Int) :
    Inv env base { s with worker := { s.worker with failure }.finish code } := by
  obtain ⟨htables, -, hknown, hmarked, -, hclean, hanswered, hres⟩ := h
  refine ⟨htables, fun halive => Bool.noConfusion halive, ?_, hmarked, ?_, ?_, ?_, hres⟩
  · intro id hid
    refine hknown id ?_
    simp only [ids, Worker.finish, Worker.post, List.not_mem_nil, false_or, List.mem_append,
      List.mem_singleton] at hid
    rcases hid with (hid | hid) | hid
    · exact .inr (.inl hid)
    · cases hid
    · exact .inr (.inr hid)
  · intro before id after hsplit
    simp [Worker.finish, Worker.post] at hsplit
  · rcases hclean with hsame | hfirst | ⟨message, herror⟩
    · exact .inl hsame
    · exact .inr (.inl hfirst)
    · exact .inr (.inr ⟨message, List.mem_append_left _ herror⟩)
  · intro before id after hsplit
    rcases split_concat hsplit with ⟨heq, -⟩ | ⟨rest, -, hold⟩
    · cases heq
    · exact hanswered before id rest hold

/-- The worker has taken a message and replies; a payload is stored, or its error is told. -/
theorem Inv.take (h : Inv env base s) (halive : s.worker.alive = true) {message : InMessage}
    {inbox : List InMessage} (hinbox : s.worker.inbox = message :: inbox) {worker : Worker}
    (hrest : worker.inbox = inbox) (htaken : worker.taken = s.worker.taken ++ payloads [message])
    (htables : storeAll env base worker.applied = some worker.tables)
    (happlied : s.worker.applied <+: worker.applied) (reply : OutMessage)
    (houtbox : worker.outbox = s.worker.outbox ++ [reply])
    (hreply : ∀ id, reply = .drained id → message = .drain id)
    (hclean : (s.worker.applied = s.worker.taken → worker.applied = worker.taken) ∨
      ∃ text, reply = .error text) :
    Inv env base { s with worker } := by
  obtain ⟨-, hposted, hknown, hmarked, hwaiting, hold, hanswered, hres⟩ := h
  have hpayloads : ∀ xs, payloads (message :: xs) = payloads [message] ++ payloads xs :=
    fun xs => payloads_append [message] xs
  have hkeeps : ∀ id, s.Stored id → System.Stored { s with worker } id := fun id hid =>
    hid.mono rfl (fun mark hm => (hmarked mark hm).2) List.prefix_rfl happlied
  refine ⟨htables, ?_, ?_, hmarked, ?_, ?_, ?_, fun id hid => hkeeps id (hres id hid)⟩
  · intro _
    show s.posted = worker.taken ++ payloads worker.inbox
    rw [hposted halive, hinbox, hpayloads, htaken, hrest, List.append_assoc]
  · intro id hid
    refine hknown id ?_
    simp only [ids, hrest, houtbox, List.mem_append, List.mem_singleton] at hid
    rw [ids, hinbox]
    rcases hid with hid | (hid | hid) | hid
    · exact .inl (List.mem_cons_of_mem _ hid)
    · exact .inr (.inl hid)
    · exact .inl (hreply id hid.symm ▸ List.mem_cons_self)
    · exact .inr (.inr hid)
  · intro before id after hsplit n hn
    have hfull : s.worker.inbox = (message :: before) ++ .drain id :: after := by
      rw [hinbox, ← hrest]
      exact congrArg (message :: ·) hsplit
    show n = worker.taken.length + _
    rw [hwaiting _ id after hfull n hn, hpayloads, htaken, List.length_append, List.length_append,
      Nat.add_assoc]
  · rcases hclean with hsame | ⟨text, rfl⟩
    · exact hold.imp hsame (.imp_right (.imp fun text hmem =>
        (houtbox ▸ List.mem_append_left _ hmem : OutMessage.error text ∈ worker.outbox)))
    · exact .inr (.inr ⟨text, (houtbox ▸ by simp : OutMessage.error text ∈ worker.outbox)⟩)
  · intro before id after hsplit
    rcases split_concat (houtbox ▸ hsplit) with ⟨heq, rfl, -⟩ | ⟨rest, -, hsplit⟩
    · -- the drain comes behind all that was posted before it
      cases hreply id heq.symm
      refine (or_left_comm.mp hold).imp_right fun hold => hold.symm.imp_right fun hsame n hn => ?_
      have hn' := hwaiting [] id inbox hinbox n hn
      simp only [payloads, List.length_nil, Nat.add_zero] at hn'
      have htake : s.posted.take n = s.worker.applied := by
        rw [hsame, hposted halive, hn', List.take_left]
      exact (show s.posted.take n <+: worker.applied from htake ▸ happlied)
    · exact (hanswered before id rest hsplit).imp_right (.imp_right (hkeeps id))

/-- The worker has taken a payload and stores it, or throws. -/
theorem Inv.store (h : Inv env base s) (halive : s.worker.alive = true) {payload : Payload}
    {inbox : List InMessage} (hinbox : s.worker.inbox = .bundle payload :: inbox)
    (fault : Option String) :
    Inv env base
      { s with worker := ({ s.worker with inbox } : Worker).store env payload fault } := by
  have herror : ∀ message, Inv env base { s with
      worker := { s.worker with inbox, taken := s.worker.taken ++ [payload] }.post
        (.error message) } := fun message =>
    h.take halive hinbox rfl rfl h.tables List.prefix_rfl (.error message) rfl (by simp)
      (.inr ⟨message, rfl⟩)
  unfold Worker.store
  dsimp only
  split
  · cases fault with
    | some message => exact herror message
    | none =>
        dsimp only
        split
        · exact herror _
        · rename_i tables hstore
          refine h.take halive hinbox rfl rfl ?_ (List.prefix_append ..) .ack rfl (by simp)
            (.inl (congrArg (· ++ [payload])))
          have htables := h.tables
          rw [storeAll] at htables ⊢
          simp only [Worker.post]
          rw [List.foldlM_append, htables]
          simp [hstore]
  · exact herror _

theorem Inv.work (h : Inv env base s) (halive : s.worker.alive = true) {fault : Option String}
    {worker : Worker} (hwork : s.worker.work env fault = some worker) :
    Inv env base { s with worker } := by
  unfold Worker.work at hwork
  split at hwork
  · cases hwork
  · rename_i message inbox hinbox
    cases message with
    | «open» =>
        cases fault with
        | some message =>
            cases hwork
            exact h.take halive hinbox rfl (List.append_nil _).symm h.tables List.prefix_rfl
              (.error message) rfl (by simp) (.inr ⟨message, rfl⟩)
        | none =>
            cases hwork
            exact h.take halive hinbox rfl (List.append_nil _).symm h.tables List.prefix_rfl
              .ready rfl (by simp) (.inl id)
    | bundle payload =>
        cases hwork
        exact h.store halive hinbox fault
    | drain id =>
        simp only [Option.ite_none_right_eq_some, Option.some.injEq] at hwork
        obtain ⟨-, rfl⟩ := hwork
        exact h.take halive hinbox rfl (List.append_nil _).symm h.tables List.prefix_rfl
          (.drained id) rfl (fun _ heq => congrArg InMessage.drain (OutMessage.drained.inj heq))
          (.inl fun hsame => hsame)
    | close =>
        simp only [Option.ite_none_right_eq_some, Option.some.injEq] at hwork
        obtain ⟨-, rfl⟩ := hwork
        exact h.finish s.worker.failure 0

/-! ## What the client hears -/

/-- An error stays, and a drain is resolved by its `drained` only while there was none. -/
theorem onMessage_spec (c : Client) (message : OutMessage) :
    (c.onMessage message).nextDrainId = c.nextDrainId ∧
      (c.firstError.isSome = true → (c.onMessage message).firstError.isSome = true) ∧
      ((c.onMessage message).resolved = c.resolved ∨
        ∃ id, message = .drained id ∧ c.firstError = none ∧
          (c.onMessage message).resolved = c.resolved ++ [id]) := by
  cases message with
  | drained id =>
      simp only [Client.onMessage, Client.onDrained]
      split
      · cases hfirst : c.firstError with
        | some error => exact ⟨rfl, fun _ => rfl, .inl rfl⟩
        | none => exact ⟨rfl, fun h => by simp at h, .inr ⟨id, rfl, rfl, rfl⟩⟩
      · exact ⟨rfl, fun h => h, .inl rfl⟩
  | error message => exact ⟨rfl, fun _ => rfl, .inl rfl⟩
  | exit code =>
      simp only [Client.onMessage, Client.onExit]
      split
      · exact ⟨rfl, fun _ => rfl, .inl rfl⟩
      · split
        · exact ⟨rfl, fun _ => rfl, .inl rfl⟩
        · exact ⟨rfl, fun h => h, .inl rfl⟩
  | _ => exact ⟨rfl, fun h => h, .inl rfl⟩

theorem Inv.hear (h : Inv env base s) {message : OutMessage} {outbox : List OutMessage}
    (houtbox : s.worker.outbox = message :: outbox) :
    Inv env base
      { s with client := s.client.onMessage message, worker := { s.worker with outbox } } := by
  obtain ⟨htables, hposted, hknown, hmarked, hwaiting, hclean, hanswered, hres⟩ := h
  obtain ⟨hnext, hkept, hresolved⟩ := onMessage_spec s.client message
  have herror : ∀ text, message = .error text →
      (s.client.onMessage message).firstError.isSome = true := by
    rintro text rfl
    rfl
  have hanswered' : ∀ before id after, outbox = before ++ .drained id :: after →
      (s.client.onMessage message).firstError.isSome = true ∨
        (∃ text, .error text ∈ before) ∨ s.Stored id := by
    intro before id after hsplit
    have hold : s.worker.outbox = (message :: before) ++ .drained id :: after := by
      rw [houtbox, hsplit]
      rfl
    rcases hanswered _ id after hold with hfirst | ⟨text, hmem⟩ | hstored
    · exact .inl (hkept hfirst)
    · rcases List.mem_cons.mp hmem with heq | hmem
      · exact .inl (herror text heq.symm)
      · exact .inr (.inl ⟨text, hmem⟩)
    · exact .inr (.inr hstored)
  refine ⟨htables, hposted, ?_, ?_, hwaiting, ?_, hanswered', ?_⟩
  · intro id hid
    rw [hnext]
    refine hknown id ?_
    rw [ids, houtbox]
    rcases hid with hid | hid | hid
    · exact .inl hid
    · exact .inr (.inl (List.mem_cons_of_mem _ hid))
    · rcases hresolved with heq | ⟨other, rfl, -, heq⟩
      · exact .inr (.inr (heq ▸ hid))
      · rw [heq, List.mem_append, List.mem_singleton] at hid
        rcases hid with hid | rfl
        · exact .inr (.inr hid)
        · exact .inr (.inl List.mem_cons_self)
  · rw [hnext]
    exact hmarked
  · rcases hclean with hsame | hfirst | ⟨text, hmem⟩
    · exact .inl hsame
    · exact .inr (.inl (hkept hfirst))
    · rw [houtbox] at hmem
      rcases List.mem_cons.mp hmem with heq | hmem
      · exact .inr (.inl (herror text heq.symm))
      · exact .inr (.inr ⟨text, hmem⟩)
  · intro id hid
    rcases hresolved with heq | ⟨other, rfl, hfirst, heq⟩
    · exact hres id (heq ▸ hid)
    · rw [heq, List.mem_append, List.mem_singleton] at hid
      rcases hid with hid | rfl
      · exact hres id hid
      · -- nothing stands before the message that was heard
        rcases hanswered [] id outbox houtbox with hsome | ⟨text, hmem⟩ | hstored
        · rw [hfirst] at hsome
          cases hsome
        · cases hmem
        · exact hstored

theorem Inv.hearFailure (h : Inv env base s) (error : String) :
    Inv env base
      { s with client := s.client.failAll error, worker := { s.worker with failure := none } } := by
  obtain ⟨htables, hposted, hknown, hmarked, hwaiting, hclean, hanswered, hres⟩ := h
  exact ⟨htables, hposted, hknown, hmarked, hwaiting, .inr (.inl rfl), fun _ _ _ _ => .inl rfl,
    hres⟩

theorem Inv.step (h : Inv env base s) (hstep : System.step env s event = some t) :
    Inv env base t := by
  cases event with
  | send payload => cases hstep; exact h.send payload
  | waitBelow limit => cases hstep; exact h.waitBelow limit
  | drain => cases hstep; exact h.drain
  | close => cases hstep; exact h.close
  | work fault =>
      simp only [System.step, Option.ite_none_right_eq_some, Option.map_eq_some_iff] at hstep
      obtain ⟨halive, worker, hwork, rfl⟩ := hstep
      exact h.work halive hwork
  | die error code =>
      simp only [System.step, Option.ite_none_right_eq_some, Option.some.injEq] at hstep
      obtain ⟨-, rfl⟩ := hstep
      exact h.finish error code
  | hear =>
      simp only [System.step, System.hear] at hstep
      split at hstep
      · cases hstep
      · rename_i message outbox houtbox
        split at hstep
        · cases hstep
        · cases hstep
          exact h.hear houtbox
  | hearFailure =>
      simp only [System.step, System.hearFailure] at hstep
      split at hstep
      · cases hstep
      · rename_i error _
        cases hstep
        exact h.hearFailure error
  | closeTimeout =>
      simp only [System.step, Option.ite_none_right_eq_some, Option.some.injEq] at hstep
      obtain ⟨-, rfl⟩ := hstep
      exact h.finish none 1

theorem inv_of_reaches (h : (System.step env).Reaches (init base) s) : Inv env base s :=
  h.invariant (fun _ _ _ hs hstep => hs.step hstep) (inv_init env base)

/-! ## A drain that resolves -/

theorem storeAll_append (env : Environment) (t : Tables) (xs ys : List Payload) :
    storeAll env t (xs ++ ys) = (storeAll env t xs).bind (storeAll env · ys) := by
  simp only [storeAll, List.foldlM_append]
  rfl

/-- The drain was asked for after `n` payloads and has resolved. -/
def Drained (s : System) (id n : Nat) : Prop := (id, n) ∈ s.marks ∧ id ∈ s.client.resolved

/-- Whatever order the two parties took their turns in, when a drain that was asked for after
`n` extractions has resolved, the tables hold what the main thread would have written for these,
with nothing but later payloads on top. -/
theorem drained_stores_admitted (hbase : base.Valid) {xs : List Extracted}
    (hnew : ∀ x ∈ xs, base.getFileByPath x.filePath = none)
    (hdistinct : (xs.map (·.filePath)).Nodup) (hannounced : ∀ x ∈ xs, Announced env x)
    (hreach : (System.step env).Reaches (init base) s) (hposted : s.posted = xs.map (payloadOf env))
    {id n : Nat} (hdrained : s.Drained id n) :
    ∃ tables later, admitAll env base (xs.take n) = some tables ∧
      s.worker.applied = (xs.take n).map (payloadOf env) ++ later ∧
      storeAll env tables later = some s.worker.tables := by
  have hinv := inv_of_reaches hreach
  obtain ⟨later, hlater⟩ := hinv.resolved id hdrained.2 n hdrained.1
  rw [hposted, ← List.map_take] at hlater
  have htables := hinv.tables
  rw [← hlater, storeAll_append, Option.bind_eq_some_iff] at htables
  obtain ⟨tables, hfirst, hrest⟩ := htables
  refine ⟨tables, later, ?_, hlater.symm, hrest⟩
  rw [admitAll_eq_storeAll hbase (fun x hx => hnew x (List.mem_of_mem_take hx)) ?_
    fun x hx => hannounced x (List.mem_of_mem_take hx)]
  · exact hfirst
  · rw [List.map_take]
    exact hdistinct.sublist (List.take_sublist n _)

/-! ### One file -/

/-- Contents are their own hashes and query rows come in table order. -/
def direct : Environment where
  hashContent content := content
  materializeKernelResult result _ _ := result
  rowOrder rows := rows
  rowOrder_perm _ := List.Perm.refl _

def oneFile : Extracted where
  filePath := "main.ts"
  content := "f()"
  language := .typescript
  size := 3
  mtimeMs := 1
  rawResult := ⟨[⟨"f", .function, "f", "f", "main.ts", .typescript, 1⟩], [], [], [], none⟩

/-- The drain is asked for while the worker has taken nothing yet. -/
def oneFileRun : List Event :=
  [.send (payloadOf direct oneFile), .drain, .work none, .work none, .hear, .work none, .hear,
    .hear]

def oneFileEnd : System := ((step direct).run (init {}) oneFileRun).getD (init {})

theorem drained_stores_admitted_oneFile :
    ∃ tables later, admitAll direct {} ([oneFile].take 1) = some tables ∧
      oneFileEnd.worker.applied = ([oneFile].take 1).map (payloadOf direct) ++ later ∧
      storeAll direct tables later = some oneFileEnd.worker.tables := by
  refine @drained_stores_admitted direct {} oneFileEnd ?_ [oneFile] ?_ ?_ ?_ ⟨oneFileRun, rfl⟩ rfl
    0 1 ⟨?_, ?_⟩
  · constructor <;> simp
  · intro x _
    rfl
  · simp
  · intro x hx
    rw [List.mem_singleton.mp hx]
    exact ⟨fun _ => rfl, fun _ h => (by cases h), rfl⟩
  · exact List.mem_cons_self
  · exact List.mem_cons_self

end System

end AfyxGraph.Bulk.StoreWriter
