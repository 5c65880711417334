import AfyxGraph.Graph.DirectedSides

/-! # The directed flow search finds shortest chains

The search meets at the first level at which the balls of the two sides have a node in common, and
the links of the node it meets at make a chain as long as its two distances. That is a shortest
chain as far as the neighbours tell of the calls and navigations there are.
-/

namespace AfyxGraph.Graph.GraphReader

open AfyxGraph.Core Extraction

variable {store : GraphReader} {source : Node} {destinationIds : DestinationIds}

/-! ## What the neighbours tell -/

theorem mem_callingEdges_outgoing {id : String} {e : Edge} :
    e ∈ store.callingEdges .outgoing id ↔ e ∈ store.outgoing id ∧ e.kind ∈ callingKinds := by
  simp [callingEdges, getOutgoingEdges, callingKinds]

theorem mem_callingEdges_incoming {id : String} {e : Edge} :
    e ∈ store.callingEdges .incoming id ↔ e ∈ store.incoming id ∧ e.kind ∈ callingKinds := by
  simp [callingEdges, getIncomingEdges, callingKinds]

/-- The neighbours that the search follows are the ones that are reported by flow edges. -/
theorem reports_iff (side : Side) (u v : String) : store.Reports side u v ↔
    ∃ r ∈ store.followCalls side u 1, r.edge.kind ∈ flowEdgeKinds ∧ r.node.id = v := by
  constructor
  · rintro ⟨hne, hsome, e, hfind, hkind⟩
    obtain ⟨n, hn⟩ := Option.isSome_iff_exists.mp hsome
    obtain rfl := getNodeById_id hn
    have hend : side.endOf e = n.id := by simpa using List.find?_some hfind
    exact ⟨⟨n, e⟩, mem_followCalls_one.mpr ⟨hne, hend ▸ hn, hfind⟩, hkind, rfl⟩
  · rintro ⟨r, hr, hkind, rfl⟩
    obtain ⟨hne, hnode, hfind⟩ := mem_followCalls_one.mp hr
    have hend : side.endOf r.edge = r.node.id := by simpa using List.find?_some hfind
    exact ⟨hne, by rw [← hend, hnode]; rfl, r.edge, hfind, hkind⟩

/-- A reported callee is reached by an edge of the store. -/
theorem callee_edge {u : String} {r : Reached} (hr : r ∈ store.calleesOf u 1) :
    r.edge ∈ store.outgoing u ∧ r.edge.target = r.node.id ∧
      store.getNodeById r.edge.target = some r.node := by
  obtain ⟨-, hnode, hfind⟩ := mem_followCalls_one.mp hr
  have hmem := mem_callingEdges_outgoing.mp (List.mem_of_find?_eq_some hfind)
  exact ⟨hmem.1, of_decide_eq_true (List.find?_some hfind :), hnode⟩

theorem caller_edge {u : String} {r : Reached} (hr : r ∈ store.callersOf u 1) :
    r.edge ∈ store.outgoing r.node.id ∧ r.edge.target = u ∧
      store.getNodeById r.node.id = some r.node := by
  obtain ⟨-, hnode, hfind⟩ := mem_followCalls_one.mp hr
  have hmem := (mem_callingEdges_incoming.mp (List.mem_of_find?_eq_some hfind)).1
  have hsource : r.edge.source = r.node.id := of_decide_eq_true (List.find?_some hfind :)
  have htarget := store.enters u r.edge hmem
  have hout := (store.agree r.edge).mpr (htarget.symm ▸ hmem)
  exact ⟨hsource ▸ hout, htarget, hsource ▸ hnode⟩

theorem flows_of_reports_outgoing {u v : String} (h : store.Reports .outgoing u v) :
    store.Flows u v := by
  obtain ⟨r, hr, hkind, rfl⟩ := (reports_iff .outgoing u v).mp h
  obtain ⟨hedge, htarget, hnode⟩ := callee_edge hr
  exact ⟨r.edge, hedge, hkind, htarget, by rw [← htarget, hnode]; rfl⟩

theorem flows_of_reports_incoming {u v : String} (h : store.Reports .incoming u v)
    (hu : (store.getNodeById u).isSome = true) : store.Flows v u := by
  obtain ⟨r, hr, hkind, rfl⟩ := (reports_iff .incoming u v).mp h
  obtain ⟨hedge, htarget, -⟩ := caller_edge hr
  exact ⟨r.edge, hedge, hkind, htarget, hu⟩

/-! ## Chains and walks -/

theorem FlowChain.length_pos {steps : List FlowStep} {last : Node}
    (h : store.FlowChain source steps last) : 0 < steps.length := by
  cases h <;> simp

theorem FlowChain.getLast {steps : List FlowStep} {last : Node}
    (h : store.FlowChain source steps last) : ∃ edge, steps.getLast? = some ⟨last, edge⟩ := by
  cases h with
  | start => exact ⟨none, rfl⟩
  | step => exact ⟨_, List.getLast?_concat⟩

theorem FlowChain.walk {steps : List FlowStep} {last : Node}
    (h : store.FlowChain source steps last) :
    Steps store.Flows (· = source.id) (steps.length - 1) last.id := by
  induction h with
  | start => exact .source rfl
  | @step steps node next e chain leaves kind enters ih =>
      rw [List.length_append, List.length_singleton, Nat.add_sub_cancel]
      have hlength := chain.length_pos
      have hid := getNodeById_id enters
      have hop : store.Flows node.id next.id :=
        ⟨e, leaves, kind, hid.symm, by rw [hid, enters]; rfl⟩
      have hwalk := Steps.step ih hop
      rwa [Nat.sub_add_cancel hlength] at hwalk

theorem exists_chain {k : Nat} {v : String} (h : Steps store.Flows (· = source.id) k v) :
    ∃ steps last, store.FlowChain source steps last ∧ last.id = v ∧ steps.length = k + 1 := by
  induction h with
  | source h => exact ⟨_, _, .start, h.symm, rfl⟩
  | @step k u v walk hop ih =>
      obtain ⟨steps, node, hchain, rfl, hlength⟩ := ih
      obtain ⟨e, hedge, hkind, rfl, hsome⟩ := hop
      obtain ⟨next, hnext⟩ := Option.isSome_iff_exists.mp hsome
      refine ⟨_, next, .step hchain hedge hkind hnext, getNodeById_id hnext, ?_⟩
      rw [List.length_append, hlength]
      rfl

/-- Chains to destinations, by their numbers of edges. -/
theorem flowTo_iff (hsource : source.id ∉ destinationIds.ids) {n : Nat} :
    (∃ steps, store.FlowTo source destinationIds steps ∧ steps.length = n) ↔
      ∃ k v, k + 1 = n ∧ store.Destination destinationIds v ∧
        Steps store.Flows (· = source.id) k v := by
  constructor
  · rintro ⟨steps, ⟨last, hchain, hlast⟩, rfl⟩
    have hlength := hchain.length_pos
    refine ⟨steps.length - 1, last.id, by omega, ⟨hlast, ?_⟩, hchain.walk⟩
    cases hchain with
    | start => exact absurd hlast hsource
    | step chain leaves kind enters =>
        rw [getNodeById_id enters, enters]
        rfl
  · rintro ⟨k, v, rfl, hdest, hwalk⟩
    obtain ⟨steps, last, hchain, rfl, hlength⟩ := exists_chain hwalk
    exact ⟨steps, ⟨last, hchain, hdest.1⟩, hlength⟩

/-! ## The links -/

/-- A forward entry leads one layer back. -/
def ParentOk (store : GraphReader) (source : Node) (id : String) (link : ParentLink) : Prop :=
  link = ⟨none, none, source⟩ ∧ id = source.id ∨
    ∃ p e k, link.previous = some p ∧ link.edge = some e ∧ store.ForwardAt source k p ∧
      store.ForwardAt source (k + 1) id ∧ e ∈ store.outgoing p ∧ e.kind ∈ flowEdgeKinds ∧
        store.getNodeById e.target = some link.node ∧ link.node.id = id

/-- A backward entry leads one layer on. -/
def NextOk (store : GraphReader) (destinationIds : DestinationIds) (id : String)
    (link : Option NextLink) : Prop :=
  link = none ∧ store.Destination destinationIds id ∨
    ∃ l k, link = some l ∧ store.BackwardAt destinationIds k l.next ∧
      store.BackwardAt destinationIds (k + 1) id ∧ l.edge ∈ store.outgoing id ∧
        l.edge.kind ∈ flowEdgeKinds ∧ l.edge.target = l.next

/-- The search after some levels forward and some backward. -/
structure SearchInv (store : GraphReader) (source : Node) (destinationIds : DestinationIds)
    (at_ : Nat × Nat) (s : DirectedSearch) : Prop where
  forward : SideInv (store.Reports .outgoing) (· = source.id) at_.1 s.forward
  backward : SideInv (store.Reports .incoming) (store.Destination destinationIds) at_.2 s.backward
  parents : ∀ entry ∈ s.forward.known, ParentOk store source entry.1 entry.2
  nexts : ∀ entry ∈ s.backward.known, NextOk store destinationIds entry.1 entry.2
  nodes : ∀ id ∈ s.backward.known.map Prod.fst, id ∈ s.backwardNodes.map Prod.fst
  stored : ∀ entry ∈ s.backwardNodes, store.getNodeById entry.1 = some entry.2

theorem searchInv_start (store : GraphReader) (source : Node) (destinationIds : DestinationIds) :
    SearchInv store source destinationIds (0, 0) (store.searchStart source destinationIds) := by
  have hids : ∀ v, v ∈ (destinationIds.ids.filterMap store.getNodeById).map (·.id) ↔
      store.Destination destinationIds v := by
    intro v
    rw [List.mem_map]
    constructor
    · rintro ⟨n, hn, rfl⟩
      obtain ⟨id, hid, hnode⟩ := List.mem_filterMap.mp hn
      rw [getNodeById_id hnode]
      exact ⟨hid, by rw [hnode]; rfl⟩
    · rintro ⟨hid, hsome⟩
      obtain ⟨n, hn⟩ := Option.isSome_iff_exists.mp hsome
      exact ⟨n, List.mem_filterMap.mpr ⟨v, hid, hn⟩, getNodeById_id hn⟩
  have hnodup : ((destinationIds.ids.filterMap store.getNodeById).map (·.id)).Nodup := by
    rw [List.map_filterMap]
    refine destinationIds.distinct.filterMap fun a b id ha hb => ?_
    obtain ⟨n, hn, rfl⟩ := Option.map_eq_some_iff.mp ha
    obtain ⟨m, hm, hid⟩ := Option.map_eq_some_iff.mp hb
    rw [← getNodeById_id hn, ← getNodeById_id hm, hid]
  have hkeys : ∀ {α : Type} (value : Node → α),
      ((destinationIds.ids.filterMap store.getNodeById).map fun n => (n.id, value n)).map Prod.fst =
        (destinationIds.ids.filterMap store.getNodeById).map (·.id) := by
    intro α value
    rw [List.map_map]
    rfl
  have hbackward : (store.searchStart source destinationIds).backward.known.map Prod.fst =
      (destinationIds.ids.filterMap store.getNodeById).map (·.id) := hkeys _
  constructor
  · constructor
    · intro v
      rw [near_zero_iff]
      exact List.mem_singleton
    · intro v
      rw [atDistance_zero_iff]
      exact List.mem_singleton
    · exact List.nodup_singleton _
    · exact List.nodup_singleton _
  · constructor
    · intro v
      rw [near_zero_iff, hbackward, hids]
    · intro v
      rw [atDistance_zero_iff]
      exact hids v
    · rw [hbackward]
      exact hnodup
    · exact hnodup
  · intro entry hentry
    obtain rfl := List.mem_singleton.mp hentry
    exact .inl ⟨rfl, rfl⟩
  · intro entry hentry
    obtain ⟨n, hn, rfl⟩ := List.mem_map.mp hentry
    exact .inl ⟨rfl, (hids _).mp (List.mem_map_of_mem hn)⟩
  · intro id hid
    rw [hbackward] at hid
    exact (hkeys fun n => n).symm ▸ hid
  · intro entry hentry
    obtain ⟨n, hn, rfl⟩ := List.mem_map.mp hentry
    obtain ⟨id, -, hnode⟩ := List.mem_filterMap.mp hn
    rw [getNodeById_id hnode]
    exact hnode

variable {at_ : Nat × Nat} {s s' : DirectedSearch}

theorem SearchInv.exists_node (h : SearchInv store source destinationIds at_ s) {id : String}
    (hid : id ∈ s.backward.known.map Prod.fst) :
    ∃ n, s.backwardNodes.lookup id = some n ∧ store.getNodeById id = some n := by
  cases hlookup : s.backwardNodes.lookup id with
  | none => exact absurd (h.nodes id hid) (not_mem_keys_of_lookup hlookup)
  | some n => exact ⟨n, rfl, h.stored _ (mem_of_lookup hlookup)⟩

/-- The links back make a chain from the source as long as the distance. -/
theorem SearchInv.chain_back (h : SearchInv store source destinationIds at_ s) {k : Nat}
    (hle : k ≤ at_.1) {id : String} (hid : store.ForwardAt source k id) {turns : Nat}
    (hturns : k < turns) : ∃ last, store.FlowChain source
      (stepsBack s.forward.known turns (some id)).reverse last ∧ last.id = id ∧
        (stepsBack s.forward.known turns (some id)).length = k + 1 := by
  induction k generalizing id turns with
  | zero =>
      obtain ⟨link, hentry, hlookup⟩ := h.forward.exists_entry ⟨0, hle, hid.1⟩
      obtain ⟨turns, rfl⟩ : ∃ t, turns = t + 1 := ⟨turns - 1, by omega⟩
      rcases h.parents _ hentry with ⟨rfl, hsource⟩ | ⟨p, e, k, -, -, -, hdist, -⟩
      · have hrest : stepsBack s.forward.known turns none = [] := by cases turns <;> rfl
        simp only [stepsBack, hlookup, hrest]
        exact ⟨source, .start, hsource.symm, rfl⟩
      · exact absurd (hid.unique hdist) (by omega)
  | succ k ih =>
      obtain ⟨link, hentry, hlookup⟩ := h.forward.exists_entry ⟨k + 1, hle, hid.1⟩
      obtain ⟨turns, rfl⟩ : ∃ t, turns = t + 1 := ⟨turns - 1, by omega⟩
      rcases h.parents _ hentry with ⟨-, hsource⟩ | ⟨p, e, k', hp, he, hk, hdist, hedge⟩
      · have hzero : store.ForwardAt source 0 id := atDistance_zero_iff.mpr hsource
        exact absurd (hid.unique hzero) (by omega)
      · obtain rfl : k' = k := Nat.succ.inj (hdist.unique hid)
        obtain ⟨node, hchain, rfl, hlength⟩ :=
          ih (Nat.le_of_succ_le hle) hk (show k' < turns by omega)
        obtain ⟨hleaves, hkind, henters, hnode⟩ := hedge
        have hback : stepsBack s.forward.known (turns + 1) (some id) =
            ⟨link.node, some e⟩ :: stepsBack s.forward.known turns (some node.id) := by
          rw [stepsBack, hlookup]
          show FlowStep.mk link.node link.edge :: stepsBack _ _ link.previous = _
          rw [show link.previous = some node.id from hp, show link.edge = some e from he]
        rw [hback, List.reverse_cons, List.length_cons, hlength]
        exact ⟨link.node, .step hchain hleaves hkind henters, hnode, rfl⟩

/-- The links on lead a chain to a destination. -/
theorem SearchInv.chain_on (h : SearchInv store source destinationIds at_ s) {k : Nat}
    (hle : k ≤ at_.2) {steps : List FlowStep} {node : Node}
    (hchain : store.FlowChain source steps node) (hid : store.BackwardAt destinationIds k node.id)
    {turns : Nat} (hturns : k ≤ turns) :
    store.FlowTo source destinationIds
        (steps ++ stepsOn s.backward.known s.backwardNodes turns node.id) ∧
      (stepsOn s.backward.known s.backwardNodes turns node.id).length = k := by
  induction k generalizing steps node turns with
  | zero =>
      obtain ⟨link, hentry, hlookup⟩ := h.backward.exists_entry ⟨0, hle, hid.1⟩
      have hnone : stepsOn s.backward.known s.backwardNodes turns node.id = [] := by
        rcases h.nexts _ hentry with ⟨rfl, -⟩ | ⟨l, k, -, -, hdist, -⟩
        · cases turns with
          | zero => rfl
          | succ turns => simp only [stepsOn, hlookup]
        · exact absurd (hid.unique hdist) (by omega)
      rw [hnone, List.append_nil]
      exact ⟨⟨node, hchain, (atDistance_zero_iff.mp hid).1⟩, rfl⟩
  | succ k ih =>
      obtain ⟨link, hentry, hlookup⟩ := h.backward.exists_entry ⟨k + 1, hle, hid.1⟩
      obtain ⟨turns, rfl⟩ : ∃ t, turns = t + 1 := ⟨turns - 1, by omega⟩
      rcases h.nexts _ hentry with ⟨-, hdest⟩ | ⟨l, k', rfl, hk, hdist, hleaves, hkind, htarget⟩
      · have hzero : store.BackwardAt destinationIds 0 node.id := atDistance_zero_iff.mpr hdest
        exact absurd (hid.unique hzero) (by omega)
      · obtain rfl : k' = k := Nat.succ.inj (hdist.unique hid)
        have hknown : l.next ∈ s.backward.known.map Prod.fst :=
          (h.backward.ball _).mpr ⟨k', Nat.le_of_succ_le hle, hk.1⟩
        obtain ⟨next, hnext, hstored⟩ := h.exists_node hknown
        have hnextId := getNodeById_id hstored
        rw [← htarget] at hstored
        rw [← hnextId] at hk
        have hrest := ih (Nat.le_of_succ_le hle) (.step hchain hleaves hkind hstored) hk
          (show k' ≤ turns by omega)
        rw [hnextId, List.append_assoc] at hrest
        simp only [stepsOn, hlookup, hnext, List.length_cons]
        exact ⟨hrest.1, congrArg Nat.succ hrest.2⟩

/-- At a node of both sides the links make a chain as long as its two distances. -/
theorem SearchInv.steps_meet (h : SearchInv store source destinationIds at_ s) {i j : Nat}
    (hi : i ≤ at_.1) (hj : j ≤ at_.2) {id : String} (hforward : store.ForwardAt source i id)
    (hbackward : store.BackwardAt destinationIds j id) :
    store.FlowTo source destinationIds (s.steps id) ∧ (s.steps id).length = i + 1 + j := by
  obtain ⟨node, hchain, rfl, hlength⟩ := h.chain_back hi hforward
    (h.forward.lt_length hi hforward)
  have hon := h.chain_on hj hchain hbackward (Nat.le_of_lt (h.backward.lt_length hj hbackward))
  refine ⟨hon.1, ?_⟩
  rw [DirectedSearch.steps, stepsFrom, List.length_append, List.length_reverse, hlength, hon.2]

/-! ## One level -/

variable (store source destinationIds) in
/-- The sides have a node in common after so many levels. -/
def Meets (level : Nat) : Prop :=
  ∃ v, Near (store.Reports .outgoing) (· = source.id)
      (store.split source destinationIds level).1 v ∧
    Near (store.Reports .incoming) (store.Destination destinationIds)
      (store.split source destinationIds level).2 v

variable (store source destinationIds) in
/-- The last layer of one of the sides is empty. -/
def Ended (level : Nat) : Prop :=
  (∀ v, ¬ store.ForwardAt source (store.split source destinationIds level).1 v) ∨
    ∀ v, ¬ store.BackwardAt destinationIds (store.split source destinationIds level).2 v

variable (store) in
def forwardNext (s : DirectedSearch) : SearchSide ParentLink :=
  s.forward.expand (store.calleesOf · 1) fun current r => ⟨some current, some r.edge, r.node⟩

variable (store) in
def backwardNext (s : DirectedSearch) : SearchSide (Option NextLink) :=
  s.backward.expand (store.callersOf · 1) fun current r => some ⟨current, r.edge⟩

theorem sideInv_forwardNext {k : Nat}
    (h : SideInv (store.Reports .outgoing) (· = source.id) k s.forward) :
    SideInv (store.Reports .outgoing) (· = source.id) (k + 1) (store.forwardNext s) :=
  h.expand (reports_iff .outgoing)

theorem sideInv_backwardNext {k : Nat}
    (h : SideInv (store.Reports .incoming) (store.Destination destinationIds) k s.backward) :
    SideInv (store.Reports .incoming) (store.Destination destinationIds) (k + 1)
      (store.backwardNext s) :=
  h.expand (reports_iff .incoming)

/-- A new entry is of a node that is not in the ball. -/
theorem not_near_of_new {α : Type} {R : String → String → Prop} {sources : String → Prop}
    {k : Nat} {side grown : SearchSide α} (h : SideInv R sources k side)
    (hgrown : SideInv R sources (k + 1) grown) (hold : ∀ entry ∈ side.known, entry ∈ grown.known)
    {entry : String × α} (hentry : entry ∈ grown.known) (hnew : entry ∉ side.known) :
    ¬ Near R sources k entry.1 := by
  intro hnear
  obtain ⟨a, ha, -⟩ := h.exists_entry hnear
  have hsame : (entry.1, a) = entry :=
    List.inj_on_of_nodup_map hgrown.distinct (hold _ ha) hentry rfl
  exact hnew (hsame ▸ ha)

theorem SearchInv.expand_forward (h : SearchInv store source destinationIds at_ s) :
    SearchInv store source destinationIds (at_.1 + 1, at_.2)
      { s with forward := store.forwardNext s } where
  forward := sideInv_forwardNext h.forward
  backward := h.backward
  parents entry hentry := by
    have hgrowth := growth_expand (store.calleesOf · 1)
      (fun current r => (⟨some current, some r.edge, r.node⟩ : ParentLink)) s.forward
    have hside := sideInv_forwardNext h.forward
    by_cases hold : entry ∈ s.forward.known
    · exact h.parents entry hold
    · have hfar := not_near_of_new h.forward hside hgrowth.old hentry hold
      obtain ⟨p, hp, hkind, rfl⟩ := (hgrowth.entry entry hentry).resolve_left hold
      obtain ⟨hlayer, hr⟩ := mem_reachedFrom.mp hp
      have hdist := (h.forward.layer _).mp hlayer
      obtain ⟨hleaves, htarget, henters⟩ := callee_edge hr
      have hop := (reports_iff .outgoing p.1 p.2.node.id).mpr ⟨p.2, hr, hkind, rfl⟩
      exact .inr ⟨p.1, p.2.edge, at_.1, rfl, rfl, hdist,
        atDistance_succ_iff.mpr ⟨⟨p.1, hdist, hop⟩, hfar⟩, hleaves, hkind, henters, rfl⟩
  nexts := h.nexts
  nodes := h.nodes
  stored := h.stored

theorem SearchInv.expand_backward (h : SearchInv store source destinationIds at_ s) :
    SearchInv store source destinationIds (at_.1, at_.2 + 1)
      { s with
        backward := store.backwardNext s
        backwardNodes := s.backwardNodes ++
          (store.backwardNext s).frontier.map fun n => (n.id, n) } where
  forward := h.forward
  backward := sideInv_backwardNext h.backward
  parents := h.parents
  nexts entry hentry := by
    have hgrowth := growth_expand (store.callersOf · 1)
      (fun current r => (some ⟨current, r.edge⟩ : Option NextLink)) s.backward
    have hside := sideInv_backwardNext h.backward
    by_cases hold : entry ∈ s.backward.known
    · exact h.nexts entry hold
    · have hfar := not_near_of_new h.backward hside hgrowth.old hentry hold
      obtain ⟨p, hp, hkind, rfl⟩ := (hgrowth.entry entry hentry).resolve_left hold
      obtain ⟨hlayer, hr⟩ := mem_reachedFrom.mp hp
      have hdist := (h.backward.layer _).mp hlayer
      obtain ⟨hleaves, htarget, -⟩ := caller_edge hr
      have hop := (reports_iff .incoming p.1 p.2.node.id).mpr ⟨p.2, hr, hkind, rfl⟩
      exact .inr ⟨⟨p.1, p.2.edge⟩, at_.2, rfl, hdist,
        atDistance_succ_iff.mpr ⟨⟨p.1, hdist, hop⟩, hfar⟩, hleaves, hkind, htarget⟩
  nodes id hid := by
    have hgrowth := growth_expand (store.callersOf · 1)
      (fun current r => (some ⟨current, r.edge⟩ : Option NextLink)) s.backward
    have hkeys : id ∈ s.backward.known.map Prod.fst ++
        (store.backwardNext s).frontier.map (·.id) := hgrowth.keys ▸ hid
    rw [List.map_append, List.mem_append]
    refine (List.mem_append.mp hkeys).imp (h.nodes id) fun hnew => ?_
    rw [List.map_map]
    exact hnew
  stored entry hentry := by
    have hgrowth := growth_expand (store.callersOf · 1)
      (fun current r => (some ⟨current, r.edge⟩ : Option NextLink)) s.backward
    rcases List.mem_append.mp hentry with hentry | hentry
    · exact h.stored entry hentry
    · obtain ⟨n, hn, rfl⟩ := List.mem_map.mp hentry
      obtain ⟨p, hp, -, rfl⟩ := hgrowth.node n hn
      exact (caller_edge (mem_reachedFrom.mp hp).2).2.2

theorem split_forward {level : Nat}
    (hle : {v | store.ForwardAt source (store.split source destinationIds level).1 v}.ncard ≤
      {v | store.BackwardAt destinationIds (store.split source destinationIds level).2 v}.ncard) :
    store.split source destinationIds (level + 1) =
      ((store.split source destinationIds level).1 + 1,
        (store.split source destinationIds level).2) := by
  rw [split]
  exact if_pos hle

theorem split_backward {level : Nat}
    (hlt : ¬ {v | store.ForwardAt source (store.split source destinationIds level).1 v}.ncard ≤
      {v | store.BackwardAt destinationIds (store.split source destinationIds level).2 v}.ncard) :
    store.split source destinationIds (level + 1) =
      ((store.split source destinationIds level).1,
        (store.split source destinationIds level).2 + 1) := by
  rw [split]
  exact if_neg hlt

/-- What a level does, when the search has come as far as the splits say. -/
theorem SearchInv.level {level : Nat}
    (h : SearchInv store source destinationIds (store.split source destinationIds level) s) :
    (store.directedLevel s = .exhausted → store.Ended source destinationIds (level + 1)) ∧
      ∀ s', store.directedLevel s = .grown s' →
        SearchInv store source destinationIds
          (store.split source destinationIds (level + 1)) s' := by
  have hlength := h.forward.length_frontier
  have hlength' := h.backward.length_frontier
  unfold directedLevel Ended
  by_cases hle : s.forward.frontier.length ≤ s.backward.frontier.length
  · rw [if_pos hle]
    rw [hlength, hlength'] at hle
    rw [split_forward hle]
    have hnext := h.expand_forward
    split
    · exact ⟨fun hend => by simp at hend, fun _ hend => by simp at hend⟩
    · simp only
      split
      · rename_i hempty
        exact ⟨fun _ => .inl (hnext.forward.frontier_eq_nil_iff.mp hempty),
          fun _ hend => by simp at hend⟩
      · refine ⟨fun hend => by simp at hend, fun s' hs' => ?_⟩
        obtain rfl := LevelEnd.grown.inj hs'
        exact hnext
  · rw [if_neg hle]
    rw [hlength, hlength'] at hle
    rw [split_backward hle]
    have hnext := h.expand_backward
    split
    · exact ⟨fun hend => by simp at hend, fun _ hend => by simp at hend⟩
    · simp only
      split
      · rename_i hempty
        exact ⟨fun _ => .inr (hnext.backward.frontier_eq_nil_iff.mp hempty),
          fun _ hend => by simp at hend⟩
      · refine ⟨fun hend => by simp at hend, fun s' hs' => ?_⟩
        obtain rfl := LevelEnd.grown.inj hs'
        exact hnext

/-! ## The levels -/

theorem SearchInv.meeting_some {level : Nat}
    (h : SearchInv store source destinationIds (store.split source destinationIds level) s)
    {meeting : String} (hmeet : s.meetingNode = some meeting) :
    Near (store.Reports .outgoing) (· = source.id)
        (store.split source destinationIds level).1 meeting ∧
      Near (store.Reports .incoming) (store.Destination destinationIds)
        (store.split source destinationIds level).2 meeting := by
  have hknown := List.mem_of_find?_eq_some hmeet
  have hother : meeting ∈ s.backward.known.map Prod.fst :=
    of_decide_eq_true (List.find?_some hmeet :)
  exact ⟨(h.forward.ball _).mp hknown, (h.backward.ball _).mp hother⟩

theorem SearchInv.meeting_none {level : Nat}
    (h : SearchInv store source destinationIds (store.split source destinationIds level) s)
    (hmeet : s.meetingNode = none) : ¬ store.Meets source destinationIds level := by
  rintro ⟨v, hforward, hbackward⟩
  have hnot := List.find?_eq_none.mp hmeet v ((h.forward.ball v).mpr hforward)
  exact hnot (decide_eq_true ((h.backward.ball v).mpr hbackward))

/-- How levels after the first ones can end. -/
inductive LevelsEnd (store : GraphReader) (source : Node) (destinationIds : DestinationIds)
    (before remaining : Nat) : SearchEnd → Prop
  | visits : LevelsEnd store source destinationIds before remaining .visits
  | exhausted {level : Nat} (from_ : before ≤ level) (within : level < before + remaining)
      (apart : ∀ l, before < l → l ≤ level → ¬ store.Meets source destinationIds l)
      (ended : store.Ended source destinationIds (level + 1)) :
      LevelsEnd store source destinationIds before remaining .exhausted
  | spent (apart : ∀ l, before < l → l ≤ before + remaining →
        ¬ store.Meets source destinationIds l) :
      LevelsEnd store source destinationIds before remaining .spent
  | met {level : Nat} {s : DirectedSearch} {meeting : String} (from_ : before < level)
      (within : level ≤ before + remaining)
      (apart : ∀ l, before < l → l < level → ¬ store.Meets source destinationIds l)
      (inv : SearchInv store source destinationIds (store.split source destinationIds level) s)
      (common : Near (store.Reports .outgoing) (· = source.id)
          (store.split source destinationIds level).1 meeting ∧
        Near (store.Reports .incoming) (store.Destination destinationIds)
          (store.split source destinationIds level).2 meeting) :
      LevelsEnd store source destinationIds before remaining (.met s meeting)

/-- A level more before, at which the sides have nothing in common. -/
theorem LevelsEnd.after {before remaining : Nat} {searchEnd : SearchEnd}
    (h : LevelsEnd store source destinationIds (before + 1) remaining searchEnd)
    (hapart : ¬ store.Meets source destinationIds (before + 1)) :
    LevelsEnd store source destinationIds before (remaining + 1) searchEnd := by
  have hfirst : ∀ {l : Nat}, before < l →
      (before + 1 < l → ¬ store.Meets source destinationIds l) →
        ¬ store.Meets source destinationIds l := by
    intro l hlt hrest
    rcases Nat.lt_or_eq_of_le (show before + 1 ≤ l from hlt) with hlt | rfl
    · exact hrest hlt
    · exact hapart
  cases h with
  | visits => exact .visits
  | exhausted from_ within between ended =>
      exact .exhausted (by omega) (by omega)
        (fun l hlt hle => hfirst hlt fun hlt' => between l hlt' hle) ended
  | spent between =>
      exact .spent fun l hlt hle => hfirst hlt fun hlt' => between l hlt' (by omega)
  | met from_ within between inv common =>
      exact .met (by omega) (by omega)
        (fun l hlt hlt'' => hfirst hlt fun hlt' => between l hlt' hlt'') inv common

theorem levelsEnd_directedLevels (remaining : Nat) {before : Nat}
    (h : SearchInv store source destinationIds (store.split source destinationIds before) s) :
    LevelsEnd store source destinationIds before remaining (store.directedLevels remaining s) := by
  induction remaining generalizing before s with
  | zero => exact .spent fun l hlt hle => by omega
  | succ remaining ih =>
      obtain ⟨hexhausted, hgrown⟩ := h.level
      rw [directedLevels]
      cases hlevel : store.directedLevel s with
      | visits => exact .visits
      | exhausted =>
          exact .exhausted (Nat.le_refl before) (by omega) (fun l hlt hle => by omega)
            (hexhausted hlevel)
      | grown s' =>
          have hnext := hgrown s' hlevel
          simp only
          cases hmeet : s'.meetingNode with
          | some meeting =>
              exact .met (Nat.lt_succ_self before) (by omega) (fun l hlt hlt' => by omega) hnext
                (hnext.meeting_some hmeet)
          | none =>
              exact (ih hnext).after (hnext.meeting_none hmeet)

variable (store source destinationIds) in
theorem levelsEnd_directedSearch (maxHops : Nat) :
    LevelsEnd store source destinationIds 0 (edgeBudget maxHops)
      (store.directedSearch source destinationIds maxHops) :=
  levelsEnd_directedLevels (edgeBudget maxHops) (searchInv_start store source destinationIds)

/-- With fewer levels the search does not come to the limit on visits earlier. -/
theorem visits_mono {few many : Nat} (hle : few ≤ many)
    (h : store.directedLevels few s = .visits) : store.directedLevels many s = .visits := by
  induction few generalizing many s with
  | zero => exact absurd h (by simp [directedLevels])
  | succ few ih =>
      obtain ⟨many, rfl⟩ : ∃ m, many = m + 1 := ⟨many - 1, by omega⟩
      rw [directedLevels] at h ⊢
      cases hlevel : store.directedLevel s with
      | visits => rfl
      | exhausted =>
          rw [hlevel] at h
          exact absurd h (by simp)
      | grown s' =>
          rw [hlevel] at h
          simp only at h ⊢
          cases hmeet : s'.meetingNode with
          | some meeting =>
              rw [hmeet] at h
              exact absurd h (by simp)
          | none =>
              rw [hmeet] at h
              exact ih (Nat.le_of_succ_le_succ hle) h

/-! ## Shortest chains -/

theorem exists_of_backward {j : Nat} {v : String}
    (h : Steps (store.Reports .incoming) (store.Destination destinationIds) j v) :
    (store.getNodeById v).isSome = true := by
  cases h with
  | source h => exact h.2
  | step walk hop => exact hop.2.1

/-- What is reported from both ends is a walk to a destination. -/
theorem walk_of_reported {i j : Nat} {v : String}
    (hforward : Steps (store.Reports .outgoing) (· = source.id) i v)
    (hbackward : Steps (store.Reports .incoming) (store.Destination destinationIds) j v) :
    ∃ u, store.Destination destinationIds u ∧ Steps store.Flows (· = source.id) (i + j) u := by
  have hwalk : Steps store.Flows (· = source.id) i v :=
    hforward.mono (fun _ _ hop => flows_of_reports_outgoing hop) fun _ h => h
  clear hforward
  induction j generalizing i v with
  | zero => exact ⟨v, steps_zero_iff.mp hbackward, hwalk⟩
  | succ j ih =>
      obtain ⟨u, hu, hop⟩ := steps_succ_iff.mp hbackward
      have hnext := ih hu (hwalk.step (flows_of_reports_incoming hop (exists_of_backward hu)))
      rw [Nat.add_assoc, Nat.add_comm 1 j] at hnext
      exact hnext

theorem exists_shortestFlow {k : Nat} {v : String} (hv : store.Destination destinationIds v)
    (hwalk : Steps store.Flows (· = source.id) k v) :
    ∃ edges ≤ k, store.ShortestFlow source destinationIds edges := by
  classical
  have hsome : ∃ k v, store.Destination destinationIds v ∧
      Steps store.Flows (· = source.id) k v := ⟨k, v, hv, hwalk⟩
  refine ⟨Nat.find hsome, Nat.find_min' hsome ⟨v, hv, hwalk⟩, Nat.find_spec hsome, ?_⟩
  exact fun other u hu hother => Nat.find_min' hsome ⟨u, hu, hother⟩

theorem ShortestFlow.pos {edges : Nat} (h : store.ShortestFlow source destinationIds edges)
    (hsource : source.id ∉ destinationIds.ids) : 0 < edges := by
  obtain ⟨⟨v, hv, hwalk⟩, -⟩ := h
  rcases Nat.eq_zero_or_pos edges with rfl | hpos
  · exact absurd (steps_zero_iff.mp hwalk ▸ hv.1) hsource
  · exact hpos

theorem ShortestFlow.le_length {edges : Nat} (h : store.ShortestFlow source destinationIds edges)
    (hsource : source.id ∉ destinationIds.ids) {steps : List FlowStep}
    (hleads : store.FlowTo source destinationIds steps) : edges + 1 ≤ steps.length := by
  obtain ⟨k, v, hk, hv, hwalk⟩ := (flowTo_iff hsource).mp ⟨steps, hleads, rfl⟩
  have hle := h.2 k v hv hwalk
  omega

variable (store source destinationIds) in
theorem split_sum (level : Nat) : (store.split source destinationIds level).1 +
    (store.split source destinationIds level).2 = level := by
  induction level with
  | zero => rfl
  | succ level ih =>
      by_cases hle : {v | store.ForwardAt source (store.split source destinationIds level).1
            v}.ncard ≤
          {v | store.BackwardAt destinationIds (store.split source destinationIds level).2 v}.ncard
      · rw [split_forward hle]
        simp only
        omega
      · rw [split_backward hle]
        simp only
        omega

variable (store source destinationIds) in
theorem split_mono {few many : Nat} (hle : few ≤ many) :
    (store.split source destinationIds few).1 ≤ (store.split source destinationIds many).1 ∧
      (store.split source destinationIds few).2 ≤ (store.split source destinationIds many).2 := by
  induction hle with
  | refl => exact ⟨Nat.le_refl _, Nat.le_refl _⟩
  | @step level _ ih =>
      by_cases hle : {v | store.ForwardAt source (store.split source destinationIds level).1
            v}.ncard ≤
          {v | store.BackwardAt destinationIds (store.split source destinationIds level).2 v}.ncard
      · rw [split_forward hle]
        exact ⟨Nat.le_succ_of_le ih.1, ih.2⟩
      · rw [split_backward hle]
        exact ⟨ih.1, Nat.le_succ_of_le ih.2⟩

/-! ## The answer -/

theorem directedWalk_eq_none {maxHops : Nat}
    (h : ∀ s meeting, store.directedSearch source destinationIds maxHops ≠ .met s meeting) :
    store.directedWalk source destinationIds maxHops = none := by
  rw [directedWalk]
  split
  · rfl
  · split
    · rfl
    · cases hend : store.directedSearch source destinationIds maxHops with
      | met s meeting => exact absurd hend (h s meeting)
      | visits => rfl
      | exhausted => rfl
      | spent => rfl

/-- A search that meets is answered by a chain as long as the two distances. -/
theorem directedWalk_met {maxHops : Nat} (hhops : 2 ≤ maxHops)
    (hsource : source.id ∉ destinationIds.ids) {s : DirectedSearch} {meeting : String}
    (hend : store.directedSearch source destinationIds maxHops = .met s meeting) :
    ∃ level i j, level ≤ edgeBudget maxHops ∧
      (∀ l, 0 < l → l < level → ¬ store.Meets source destinationIds l) ∧
      i ≤ (store.split source destinationIds level).1 ∧
      j ≤ (store.split source destinationIds level).2 ∧
      Steps (store.Reports .outgoing) (· = source.id) i meeting ∧
      Steps (store.Reports .incoming) (store.Destination destinationIds) j meeting ∧
      store.directedWalk source destinationIds maxHops = some (s.steps meeting) ∧
      store.FlowTo source destinationIds (s.steps meeting) ∧
      (s.steps meeting).length = i + j + 1 := by
  have hlevels := levelsEnd_directedSearch store source destinationIds maxHops
  rw [hend] at hlevels
  cases hlevels with
  | @met level s meeting from_ within apart inv common =>
      obtain ⟨i, hi, hforward⟩ := near_iff.mp common.1
      obtain ⟨j, hj, hbackward⟩ := near_iff.mp common.2
      obtain ⟨hleads, hlength⟩ := inv.steps_meet hi hj hforward hbackward
      refine ⟨level, i, j, by omega, apart, hi, hj, hforward.1, hbackward.1, ?_, hleads, by omega⟩
      have hsum := split_sum store source destinationIds level
      have hpositive : 0 < i + j := by
        rcases Nat.eq_zero_or_pos (i + j) with hzero | hpos
        · have hi0 : i = 0 := by omega
          have hj0 : j = 0 := by omega
          subst hi0 hj0
          have hdest := (atDistance_zero_iff.mp hbackward).1
          rw [hforward.eq_start] at hdest
          exact absurd hdest hsource
        · exact hpos
      have hnonempty : (store.searchStart source destinationIds).backward.frontier ≠ [] := by
        intro hempty
        obtain ⟨u, hu⟩ := hbackward.exists_nearer (Nat.zero_le j)
        exact (searchInv_start store source destinationIds).backward.frontier_eq_nil_iff.mp
          hempty u hu
      obtain ⟨last, hchain, hlast⟩ := hleads
      obtain ⟨edge, hgetLast⟩ := hchain.getLast
      rw [directedWalk, if_neg hsource, if_neg hnonempty, hend]
      simp only [hgetLast]
      unfold edgeBudget at within
      rw [if_neg (by rw [hlength, not_or, not_not]; exact ⟨by omega, hlast⟩), if_pos (by omega)]

/-- The answer of a search that has a shortest chain reported. -/
theorem directedWalk_shortest {maxHops edges : Nat} (hhops : 2 ≤ maxHops)
    (hsource : source.id ∉ destinationIds.ids)
    (hshortest : store.ShortestFlow source destinationIds edges) (hle : edges + 1 ≤ maxHops)
    (hvisits : store.WithinVisits source destinationIds maxHops) {v : String}
    (hforward : Steps (store.Reports .outgoing) (· = source.id)
      (store.split source destinationIds edges).1 v)
    (hbackward : Steps (store.Reports .incoming) (store.Destination destinationIds)
      (store.split source destinationIds edges).2 v) :
    ∃ steps, store.directedWalk source destinationIds maxHops = some steps ∧
      store.FlowTo source destinationIds steps ∧ steps.length = edges + 1 := by
  have hpos := hshortest.pos hsource
  have hbudget : edges ≤ edgeBudget maxHops := by
    unfold edgeBudget
    omega
  have hsum := split_sum store source destinationIds edges
  have hmeets : store.Meets source destinationIds edges :=
    ⟨v, near_of_steps hforward, near_of_steps hbackward⟩
  have hlevels := levelsEnd_directedSearch store source destinationIds maxHops
  cases hend : store.directedSearch source destinationIds maxHops with
  | visits => exact absurd hend hvisits
  | spent =>
      rw [hend] at hlevels
      cases hlevels with
      | spent apart => exact absurd hmeets (apart edges hpos (by omega))
  | exhausted =>
      rw [hend] at hlevels
      cases hlevels with
      | @exhausted level from_ within apart ended =>
          exfalso
          have hlt : level < edges := Nat.lt_of_not_le fun hge => apart edges hpos hge hmeets
          obtain ⟨hfirst, hsecond⟩ := split_mono store source destinationIds hlt
          rcases ended with hnone | hnone
          · have hdist : store.ForwardAt source (store.split source destinationIds edges).1 v := by
              refine ⟨hforward, fun i hi => ?_⟩
              obtain ⟨u, hu, hwalk⟩ := walk_of_reported hi hbackward
              have hleast := hshortest.2 _ u hu hwalk
              omega
            obtain ⟨u, hu⟩ := hdist.exists_nearer hfirst
            exact hnone u hu
          · have hdist : store.BackwardAt destinationIds
                (store.split source destinationIds edges).2 v := by
              refine ⟨hbackward, fun j hj => ?_⟩
              obtain ⟨u, hu, hwalk⟩ := walk_of_reported hforward hj
              have hleast := hshortest.2 _ u hu hwalk
              omega
            obtain ⟨u, hu⟩ := hdist.exists_nearer hsecond
            exact hnone u hu
  | met s meeting =>
      obtain ⟨level, i, j, -, hapart, hi, hj, -, -, hwalk, hleads, hlength⟩ :=
        directedWalk_met hhops hsource hend
      refine ⟨_, hwalk, hleads, ?_⟩
      have hlevel : level ≤ edges := Nat.le_of_not_lt fun hlt => hapart edges hpos hlt hmeets
      have hlevelSum := split_sum store source destinationIds level
      have hleast := hshortest.le_length hsource hleads
      omega

/-- The answers are right for every number of hops exactly when a shortest chain is reported. -/
theorem directedContract_iff (store : GraphReader) (source : Node)
    (destinationIds : DestinationIds) : store.DirectedContract source destinationIds ↔
      store.Reported source destinationIds := by
  constructor
  · intro hcontract hsource edges hshortest hvisits
    have hpos := hshortest.pos hsource
    have hhops : 2 ≤ edges + 1 := by omega
    obtain ⟨v, hv, hwalk⟩ := hshortest.1
    obtain ⟨steps, hleads, hlength⟩ := (flowTo_iff hsource).mpr ⟨edges, v, rfl, hv, hwalk⟩
    obtain ⟨found, hfound, hfoundLeads, -, -⟩ :=
      (hcontract (edges + 1) hhops hvisits).found hsource ⟨steps, hleads, by omega⟩
    cases hend : store.directedSearch source destinationIds (edges + 1) with
    | met s meeting =>
        obtain ⟨level, i, j, hlevel, -, hi, hj, hforward, hbackward, -, hmet, hmetLength⟩ :=
          directedWalk_met hhops hsource hend
        have hlevelSum := split_sum store source destinationIds level
        have hleast := hshortest.le_length hsource hmet
        have hbudget : edgeBudget (edges + 1) = edges := by
          unfold edgeBudget
          omega
        obtain rfl : level = edges := by omega
        obtain rfl : i = (store.split source destinationIds level).1 := by omega
        obtain rfl : j = (store.split source destinationIds level).2 := by omega
        exact ⟨meeting, hforward, hbackward⟩
    | visits => exact absurd hend hvisits
    | exhausted =>
        rw [directedWalk_eq_none fun s meeting => by rw [hend]; simp] at hfound
        exact absurd hfound (by simp)
    | spent =>
        rw [directedWalk_eq_none fun s meeting => by rw [hend]; simp] at hfound
        exact absurd hfound (by simp)
  · intro hreported maxHops hhops hvisits
    constructor
    · rintro (hsource | hnone)
      · rw [directedWalk, if_pos hsource]
      · by_cases hsource : source.id ∈ destinationIds.ids
        · rw [directedWalk, if_pos hsource]
        · refine directedWalk_eq_none fun s meeting hend => ?_
          obtain ⟨level, i, j, hlevel, -, hi, hj, -, -, -, hleads, hlength⟩ :=
            directedWalk_met hhops hsource hend
          have hlevelSum := split_sum store source destinationIds level
          unfold edgeBudget at hlevel
          exact hnone ⟨_, hleads, by omega⟩
    · rintro hsource ⟨steps, hleads, hlength⟩
      obtain ⟨k, u, hk, hu, hwalk⟩ := (flowTo_iff hsource).mp ⟨steps, hleads, rfl⟩
      obtain ⟨edges, hedges, hshortest⟩ := exists_shortestFlow hu hwalk
      have hfewer : store.WithinVisits source destinationIds (edges + 1) := by
        intro hfew
        refine hvisits (visits_mono ?_ hfew)
        unfold edgeBudget
        omega
      obtain ⟨v, hforward, hbackward⟩ := hreported hsource edges hshortest hfewer
      obtain ⟨found, hfound, hfoundLeads, hfoundLength⟩ := directedWalk_shortest hhops hsource
        hshortest (by omega) hvisits hforward hbackward
      refine ⟨found, hfound, hfoundLeads, by omega, fun other hother => ?_⟩
      rw [hfoundLength]
      exact hshortest.le_length hsource hother

/-! ## What is always reported, and what is not -/

/-- A shortest walk to a destination, part from the source and part from the destination. -/
theorem ShortestFlow.divide {edges : Nat}
    (h : store.ShortestFlow source destinationIds edges) {i j : Nat} (hsum : i + j = edges) :
    ∃ v, AtDistance store.Flows (· = source.id) i v ∧
      AtDistance (fun u v => store.Flows v u) (store.Destination destinationIds) j v := by
  -- any two walks that meet are a walk to a destination
  have hjoin : ∀ {i j : Nat} {v : String}, Steps store.Flows (· = source.id) i v →
      Steps (fun u v => store.Flows v u) (store.Destination destinationIds) j v →
        edges ≤ i + j := by
    intro i j
    induction j generalizing i with
    | zero =>
        intro v hwalk hback
        exact h.2 _ v (steps_zero_iff.mp hback) hwalk
    | succ j ih =>
        intro v hwalk hback
        obtain ⟨u, hu, hop⟩ := steps_succ_iff.mp hback
        have hle := ih (hwalk.step hop) hu
        omega
  obtain ⟨⟨v, hv, hwalk⟩, -⟩ := h
  rw [← hsum] at hwalk
  obtain ⟨u, hforward, hbackward⟩ := hwalk.divide (.source hv)
  refine ⟨u, ⟨hforward, fun k hk => ?_⟩, hbackward, fun k hk => ?_⟩
  · have hle := hjoin hk hbackward
    omega
  · have hle := hjoin hforward hk
    omega

/-- Where no other calling edge comes before a call or navigation, shortest chains are reported. -/
theorem reported_of_first
    (hcallees : ∀ u v, v ≠ u → store.Flows u v → store.Reports .outgoing u v)
    (hcallers : ∀ u v, v ≠ u → store.Flows v u → store.Reports .incoming u v) :
    store.Reported source destinationIds := by
  intro _ edges hshortest _
  obtain ⟨v, hforward, hbackward⟩ :=
    hshortest.divide (split_sum store source destinationIds edges)
  exact ⟨v, hforward.walk_of_distinct hcallees, hbackward.walk_of_distinct hcallers⟩

def shadowedNode (id : String) : Node := ⟨id, .function, id, id, "f.ts", .typescript, 1⟩

def shadowedEdge (kind : EdgeKind) : Edge := ⟨"a", "b", kind, none, none, none, none⟩

/-- `a` imports `b` and navigates to it. -/
def shadowed : GraphReader :=
  ofRows (["a", "b"].map shadowedNode) ([.imports, .navigates].map shadowedEdge) (by decide)

/-- The import comes first, so the navigation is not seen. -/
theorem directedContract_fails :
    ¬ shadowed.DirectedContract (shadowedNode "a") ⟨["b"], by decide⟩ := by
  intro hcontract
  have hvisits : shadowed.WithinVisits (shadowedNode "a") ⟨["b"], by decide⟩ 2 := by
    intro hend
    have hother : (match shadowed.directedSearch (shadowedNode "a") ⟨["b"], by decide⟩ 2 with
      | .visits => true
      | _ => false) = false := by decide
    rw [hend] at hother
    exact absurd hother (by decide)
  have hchain : shadowed.FlowChain (shadowedNode "a")
      ([⟨shadowedNode "a", none⟩] ++ [⟨shadowedNode "b", some (shadowedEdge .navigates)⟩])
        (shadowedNode "b") :=
    .step .start (by decide) (by decide) (by decide)
  obtain ⟨steps, hwalk, -⟩ := (hcontract 2 (by decide) hvisits).found (by decide)
    ⟨_, ⟨_, hchain, by decide⟩, by decide⟩
  have hnone : shadowed.directedWalk (shadowedNode "a") ⟨["b"], by decide⟩ 2 = none := by decide
  rw [hnone] at hwalk
  exact absurd hwalk (by simp)

end AfyxGraph.Graph.GraphReader
