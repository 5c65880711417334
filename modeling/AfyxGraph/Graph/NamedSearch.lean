import AfyxGraph.Graph.NamedFlow
import AfyxGraph.Graph.DirectedSearch

/-! # The named flow search finds the chains that come first

The queue of the search serves chains first come, and the links of a visited node make the chain
that came first to it. So what is reached has a chain, and a named node that a chain leads to is
missed where the first nodes on its way belong to chains with a longer run.
-/

namespace AfyxGraph.Graph.GraphReader

open AfyxGraph.Core Extraction

variable {store : GraphReader} {seed : Node} {namedIds : List String}
variable {maxHops maxBridge : CountLimit}

/-! ## The turn -/

/-- A callee that the search has not visited and may visit. -/
def Fresh (namedIds : List String) (maxBridge : CountLimit) (current : PendingNode)
    (visited : List String) (r : Reached) : Prop :=
  r.edge.kind ∈ flowEdgeKinds ∧ r.node.id ∉ visited ∧
    maxBridge.Allows (unnamedRunAt namedIds r.node current.unnamedRun)

instance (namedIds : List String) (maxBridge : CountLimit) (current : PendingNode)
    (visited : List String) (r : Reached) :
    Decidable (Fresh namedIds maxBridge current visited r) :=
  inferInstanceAs (Decidable (_ ∧ _ ∧ _))

/-- The walk with some callees visited. -/
def visitAll (namedIds : List String) (current : PendingNode) (w : NamedWalk)
    (rs : List Reached) : NamedWalk :=
  { w with
    parents := w.parents ++
      rs.map fun r => (r.node.id, ⟨some current.nodeId, some r.edge, r.node⟩)
    pending := w.pending ++
      rs.map fun r =>
        ⟨r.node.id, current.edges + 1, unnamedRunAt namedIds r.node current.unnamedRun⟩ }

theorem foldl_follow (current : PendingNode) {rs : List Reached}
    (hnodup : (rs.map (·.node.id)).Nodup) (w : NamedWalk) :
    rs.foldl (NamedWalk.follow namedIds maxBridge current) w =
      visitAll namedIds current w
        (rs.filter (Fresh namedIds maxBridge current (w.parents.map Prod.fst))) := by
  induction rs generalizing w with
  | nil => simp [visitAll]
  | cons r rs ih =>
      obtain ⟨hout, hrest⟩ := List.nodup_cons.mp hnodup
      rw [List.foldl_cons, ih hrest]
      by_cases hfresh : Fresh namedIds maxBridge current (w.parents.map Prod.fst) r
      · have ⟨hkind, hnew, hbridge⟩ := hfresh
        have hfollow : NamedWalk.follow namedIds maxBridge current w r =
            visitAll namedIds current w [r] := by
          rw [NamedWalk.follow, if_neg (not_or.mpr ⟨not_not.mpr hkind, hnew⟩),
            if_neg (not_not.mpr hbridge)]
          rfl
        -- the others are no sooner visited than before
        have hsame : ∀ x ∈ rs, decide (Fresh namedIds maxBridge current
            ((visitAll namedIds current w [r]).parents.map Prod.fst) x) =
              decide (Fresh namedIds maxBridge current (w.parents.map Prod.fst) x) := by
          intro x hx
          have hne : x.node.id ≠ r.node.id :=
            fun heq => hout (List.mem_map.mpr ⟨x, hx, heq⟩)
          refine decide_eq_decide.mpr (and_congr_right fun _ => and_congr_left fun _ => ?_)
          simp [visitAll, hne]
        rw [hfollow, List.filter_congr hsame, List.filter_cons_of_pos (by simpa using hfresh)]
        simp [visitAll]
      · have hfollow : NamedWalk.follow namedIds maxBridge current w r = w := by
          unfold NamedWalk.follow
          split
          · rfl
          · rename_i hskip
            obtain ⟨hkind, hnew⟩ := not_or.mp hskip
            exact if_pos (fun hbridge => hfresh ⟨not_not.mp hkind, hnew, hbridge⟩)
        rw [hfollow, List.filter_cons_of_neg (by simpa using hfresh)]

variable (store seed namedIds maxHops maxBridge) in
/-- What a turn visits. -/
def freshCallees (w : NamedWalk) (current : PendingNode) : List Reached :=
  if ¬ maxHops.Allows (current.edges + 2) then []
  else (store.calleesOf current.nodeId 1).filter
    (Fresh namedIds maxBridge current (w.parents.map Prod.fst))

variable (seed namedIds) in
def reachedAfter (reached : List String) (id : String) : List String :=
  if id ≠ seed.id ∧ id ∈ namedIds then reached ++ [id] else reached

variable {w w' : NamedWalk}

theorem namedTurn_cases (h : store.namedTurn seed namedIds maxHops maxBridge w = some w') :
    ∃ current pending, w.pending = current :: pending ∧ w.parents.length < namedVisits ∧
      w' = visitAll namedIds current
        ⟨w.parents, pending, reachedAfter seed namedIds w.reached current.nodeId⟩
        (store.freshCallees namedIds maxHops maxBridge w current) := by
  rw [namedTurn] at h
  cases hpending : w.pending with
  | nil => rw [hpending] at h; exact absurd h (by simp)
  | cons current pending =>
      rw [hpending] at h
      simp only at h
      split at h
      · rename_i hvisits
        refine ⟨current, pending, rfl, hvisits, ?_⟩
        rw [freshCallees]
        split at h
        · rename_i hhops
          rw [if_pos hhops, ← Option.some.inj h]
          simp [visitAll, reachedAfter]
        · rename_i hhops
          rw [if_neg hhops, ← Option.some.inj h]
          exact foldl_follow current nodup_followCalls_one _
      · exact absurd h (by simp)

theorem namedTurn_eq_none (h : store.namedTurn seed namedIds maxHops maxBridge w = none) :
    w.pending = [] ∨ namedVisits ≤ w.parents.length := by
  rw [namedTurn] at h
  cases hpending : w.pending with
  | nil => exact .inl rfl
  | cons current pending =>
      rw [hpending] at h
      simp only at h
      split at h
      · split at h <;> exact absurd h (by simp)
      · rename_i hvisits
        exact .inr (Nat.le_of_not_lt hvisits)

/-! ## The queue of chains -/

variable (store namedIds) in
/-- The entry of the queue for a chain. -/
def pendingOf : List String → Option PendingNode
  | [] => none
  | id :: chain => some ⟨id, chain.length, store.runAlong namedIds (id :: chain)⟩

/-- The search in terms of chains: `done` are the ones taken up, `line` the ones in the queue. -/
structure NamedInv (store : GraphReader) (seed : Node) (namedIds : List String)
    (maxHops maxBridge : CountLimit) (done line : List (List String)) (w : NamedWalk) : Prop where
  served : FirstServed (store.flowOffers seed namedIds maxHops maxBridge) done line
  visited : w.parents.map Prod.fst = taken (done ++ line)
  pending : w.pending = line.filterMap (store.pendingOf namedIds)
  reached : w.reached = (taken done).filter fun id => id ≠ seed.id ∧ id ∈ namedIds
  seedLink : (seed.id, ⟨none, none, seed⟩) ∈ w.parents
  links : ∀ id u chain, id :: u :: chain ∈ done ++ line → ∃ r ∈ store.calleesOf u 1,
    r.node.id = id ∧ r.edge.kind ∈ flowEdgeKinds ∧
      maxBridge.Allows (unnamedRunAt namedIds r.node (store.runAlong namedIds (u :: chain))) ∧
        (id, ⟨some u, some r.edge, r.node⟩) ∈ w.parents

theorem mem_flowOffers {id next : String} {chain : List String} :
    next ∈ store.flowOffers seed namedIds maxHops maxBridge (id :: chain) ↔
      maxHops.Allows (chain.length + 2) ∧
        ∃ r ∈ store.calleesOf id 1, r.edge.kind ∈ flowEdgeKinds ∧
          maxBridge.Allows (unnamedRunAt namedIds r.node (store.runAlong namedIds (id :: chain))) ∧
            r.node.id = next := by
  rw [flowOffers]
  split
  · rename_i hhops
    exact ⟨fun h => absurd h List.not_mem_nil, fun h => absurd h.1 hhops⟩
  · rename_i hhops
    rw [and_iff_right (not_not.mp hhops), List.mem_map]
    simp only [List.mem_filter, decide_eq_true_eq, and_assoc]

theorem nodup_flowOffers (chain : List String) :
    (store.flowOffers seed namedIds maxHops maxBridge chain).Nodup := by
  cases chain with
  | nil => exact List.nodup_singleton _
  | cons id chain =>
      rw [flowOffers]
      split
      · exact List.nodup_nil
      · exact nodup_followCalls_one.sublist (List.filter_sublist.map _)

theorem namedInv_start : NamedInv store seed namedIds maxHops maxBridge [[]] [[seed.id]]
    (namedStart seed) where
  served := firstServed_start (nodup_flowOffers [])
  visited := rfl
  pending := rfl
  reached := rfl
  seedLink := List.mem_singleton_self _
  links id u chain h := by
    simp at h

variable (store seed namedIds maxHops maxBridge) in
/-- What a turn visits is what the chain offers and has not been taken. -/
theorem freshCallees_ids (id : String) (chain : List String) {chains : List (List String)}
    (hvisited : w.parents.map Prod.fst = taken chains) :
    (store.freshCallees namedIds maxHops maxBridge w
        ⟨id, chain.length, store.runAlong namedIds (id :: chain)⟩).map (·.node.id) =
      untaken (store.flowOffers seed namedIds maxHops maxBridge) chains (id :: chain) := by
  rw [freshCallees, untaken, flowOffers]
  split
  · rfl
  · rw [List.filter_map, List.filter_filter, hvisited]
    congr 1
    refine List.filter_congr fun r _ => ?_
    rw [Function.comp_apply, ← Bool.decide_and]
    refine decide_eq_decide.mpr ?_
    rw [Fresh]
    tauto

theorem runAlong_callee {id : String} {chain : List String} {r : Reached}
    (hr : r ∈ store.calleesOf id 1) : store.runAlong namedIds (r.node.id :: id :: chain) =
      unnamedRunAt namedIds r.node (store.runAlong namedIds (id :: chain)) := by
  obtain ⟨-, htarget, hnode⟩ := callee_edge hr
  rw [htarget] at hnode
  rw [runAlong]
  · rw [hnode]
  · exact List.cons_ne_nil _ _

theorem freshCallees_subset {current : PendingNode} {r : Reached}
    (hr : r ∈ store.freshCallees namedIds maxHops maxBridge w current) :
    r ∈ store.calleesOf current.nodeId 1 ∧
      Fresh namedIds maxBridge current (w.parents.map Prod.fst) r := by
  rw [freshCallees] at hr
  split at hr
  · exact absurd hr List.not_mem_nil
  · exact ⟨List.mem_of_mem_filter hr, of_decide_eq_true (List.mem_filter.mp hr).2⟩

theorem taken_done_append (done : List (List String)) (id : String) (chain : List String) :
    taken (done ++ [id :: chain]) = taken done ++ [id] := by
  rw [taken_append]
  rfl

variable {done line : List (List String)}

/-- The entries for what a turn visits. -/
theorem pendingOf_fresh {id : String} {chain : List String} {rs : List Reached}
    (hrs : ∀ r ∈ rs, r ∈ store.calleesOf id 1) :
    ((rs.map (·.node.id)).map (· :: id :: chain)).filterMap (store.pendingOf namedIds) =
      rs.map fun r => ⟨r.node.id, chain.length + 1,
        unnamedRunAt namedIds r.node (store.runAlong namedIds (id :: chain))⟩ := by
  rw [List.map_map, List.filterMap_map, ← List.filterMap_eq_map]
  refine List.filterMap_congr fun r hr => ?_
  simp only [Function.comp_apply, pendingOf, runAlong_callee (hrs r hr), List.length_cons]

theorem reachedAfter_eq {reached : List String} {done : List (List String)} {id : String}
    {chain : List String}
    (h : reached = (taken done).filter fun id => id ≠ seed.id ∧ id ∈ namedIds) :
    reachedAfter seed namedIds reached id =
      (taken (done ++ [id :: chain])).filter fun id => id ≠ seed.id ∧ id ∈ namedIds := by
  rw [taken_done_append, List.filter_append, ← h, reachedAfter]
  split
  · rename_i hnamed
    simp [hnamed]
  · rename_i hnamed
    rw [List.filter_singleton, decide_eq_false hnamed, cond_false, List.append_nil]

theorem NamedInv.turn (h : NamedInv store seed namedIds maxHops maxBridge done line w)
    (hturn : store.namedTurn seed namedIds maxHops maxBridge w = some w') :
    ∃ done line, NamedInv store seed namedIds maxHops maxBridge done line w' := by
  obtain ⟨current, pending, hpending, -, rfl⟩ := namedTurn_cases hturn
  have hline := h.pending.symm.trans hpending
  cases line with
  | nil => exact absurd hline.symm (List.cons_ne_nil _ _)
  | cons c line =>
      cases c with
      | nil => exact absurd List.mem_cons_self h.served.nil_not_mem
      | cons id chain =>
          obtain ⟨rfl, rfl⟩ := List.cons.inj hline
          have hids :=
            freshCallees_ids store seed namedIds maxHops maxBridge id chain h.visited
          have hserved := h.served.turn (nodup_flowOffers (id :: chain))
          rw [← hids] at hserved
          generalize hfresh : store.freshCallees namedIds maxHops maxBridge w
            ⟨id, chain.length, store.runAlong namedIds (id :: chain)⟩ = fresh at hserved
          have hcallees : ∀ r ∈ fresh, r ∈ store.calleesOf id 1 ∧
              Fresh namedIds maxBridge ⟨id, chain.length, store.runAlong namedIds (id :: chain)⟩
                (w.parents.map Prod.fst) r :=
            fun r hr => freshCallees_subset (hfresh ▸ hr)
          have hsplit : done ++ [id :: chain] ++
              (line ++ (fresh.map (·.node.id)).map (· :: id :: chain)) =
                (done ++ (id :: chain) :: line) ++
                  (fresh.map (·.node.id)).map (· :: id :: chain) := by simp
          refine ⟨done ++ [id :: chain], line ++ (fresh.map (·.node.id)).map (· :: id :: chain),
            hserved, ?_, ?_, reachedAfter_eq h.reached, List.mem_append_left _ h.seedLink, ?_⟩
          · rw [hsplit, taken_append, taken_map_cons, ← h.visited]
            simp [visitAll]
          · rw [List.filterMap_append, pendingOf_fresh fun r hr => (hcallees r hr).1]
            rfl
          · rw [hsplit]
            intro id' u chain' hmem
            rcases List.mem_append.mp hmem with hmem | hmem
            · obtain ⟨r, hr, hid, hkind, hbridge, hlink⟩ := h.links id' u chain' hmem
              exact ⟨r, hr, hid, hkind, hbridge, List.mem_append_left _ hlink⟩
            · obtain ⟨_, hid, heq⟩ := List.mem_map.mp hmem
              obtain ⟨rfl, hrest⟩ := List.cons.inj heq
              obtain ⟨rfl, rfl⟩ := List.cons.inj hrest
              obtain ⟨r, hr, rfl⟩ := List.mem_map.mp hid
              obtain ⟨hcallee, hkind, -, hbridge⟩ := hcallees r hr
              refine ⟨r, hcallee, rfl, hkind, hbridge, List.mem_append_right _ ?_⟩
              exact List.mem_map.mpr ⟨r, hr, rfl⟩

variable (store seed namedIds maxHops maxBridge) in
theorem exists_namedInv : ∃ done line, NamedInv store seed namedIds maxHops maxBridge done line
    (store.namedWalk seed namedIds maxHops maxBridge) := by
  have hkeeps : ∀ w w', (∃ done line, NamedInv store seed namedIds maxHops maxBridge done line w) →
      store.namedTurn seed namedIds maxHops maxBridge w = some w' →
        ∃ done line, NamedInv store seed namedIds maxHops maxBridge done line w' := by
    rintro w w' ⟨done, line, h⟩ hturn
    exact h.turn hturn
  exact loop_invariant hkeeps _ ⟨[[]], [[seed.id]], namedInv_start⟩

/-! ## The end of the walk -/

/-- A turn takes one node off the queue and puts on it what it visits. -/
theorem namedTurn_lengths (h : store.namedTurn seed namedIds maxHops maxBridge w = some w') :
    w.parents.length < namedVisits ∧ ∃ visited, w'.parents.length = w.parents.length + visited ∧
      w'.pending.length + 1 = w.pending.length + visited := by
  obtain ⟨current, pending, hpending, hvisits, rfl⟩ := namedTurn_cases h
  refine ⟨hvisits, (store.freshCallees namedIds maxHops maxBridge w current).length, ?_, ?_⟩
  · simp [visitAll]
  · simp only [visitAll, List.length_append, List.length_map, hpending, List.length_cons]
    omega

theorem namedWalk_stops : store.namedTurn seed namedIds maxHops maxBridge
    (store.namedWalk seed namedIds maxHops maxBridge) = none := by
  apply @loop_stops _ _ (fun w => w.pending.length ≤ w.parents.length)
    (fun w => namedVisits - (w.parents.length - w.pending.length))
  · intro w w' hle hturn
    obtain ⟨-, visited, hparents, hpending⟩ := namedTurn_lengths hturn
    omega
  · intro w w' hle hturn
    obtain ⟨hvisits, visited, hparents, hpending⟩ := namedTurn_lengths hturn
    have hsome : w.pending.length ≠ 0 := by
      obtain ⟨current, pending, hcons, -⟩ := namedTurn_cases hturn
      rw [hcons]
      exact Nat.succ_ne_zero _
    omega
  · exact Nat.le_refl 1
  · exact Nat.sub_le _ _

/-- Below the limit on visits, the search ends with its queue. -/
theorem namedWithinVisits_of_lt
    (h : (store.namedWalk seed namedIds maxHops maxBridge).parents.length < namedVisits) :
    store.NamedWithinVisits seed namedIds maxHops maxBridge :=
  (namedTurn_eq_none namedWalk_stops).resolve_right (Nat.not_le_of_lt h)

/-- What a walk within the limit has taken up are the chains that come first. -/
theorem NamedInv.line_eq_nil (h : NamedInv store seed namedIds maxHops maxBridge done line w)
    (hend : w.pending = []) : line = [] := by
  have hnone := h.pending.symm.trans hend
  cases line with
  | nil => rfl
  | cons c line =>
      cases c with
      | nil => exact absurd List.mem_cons_self h.served.nil_not_mem
      | cons id chain => exact absurd hnone (List.cons_ne_nil _ _)

/-! ## The links -/

theorem NamedInv.lookup (h : NamedInv store seed namedIds maxHops maxBridge done line w)
    {id : String} {link : ParentLink} (hlink : (id, link) ∈ w.parents) :
    w.parents.lookup id = some link := by
  refine lookup_of_mem ?_ hlink
  rw [h.visited]
  exact h.served.nodup_taken

/-- The links back make the chain that came first. -/
theorem NamedInv.chain_back (h : NamedInv store seed namedIds maxHops maxBridge done line w)
    {id : String} {chain : List String} (hmem : id :: chain ∈ done ++ line) {turns : Nat}
    (hturns : chain.length < turns) :
    ∃ last, store.BridgedChain seed namedIds maxBridge
        (stepsBack w.parents turns (some id)).reverse last
          (store.runAlong namedIds (id :: chain)) ∧ last.id = id ∧
        (stepsBack w.parents turns (some id)).length = chain.length + 1 := by
  induction chain generalizing id turns with
  | nil =>
      obtain ⟨turns, rfl⟩ : ∃ t, turns = t + 1 := ⟨turns - 1, by omega⟩
      have hoffer := (firstCome_cons_iff.mp (h.served.first _ hmem)).2.1
      obtain rfl := List.mem_singleton.mp hoffer
      have hrest : stepsBack w.parents turns none = [] := by cases turns <;> rfl
      simp only [stepsBack, h.lookup h.seedLink, hrest]
      exact ⟨seed, .start, rfl, rfl⟩
  | cons u chain ih =>
      obtain ⟨turns, rfl⟩ : ∃ t, turns = t + 1 := ⟨turns - 1, by omega⟩
      obtain ⟨r, hr, rfl, hkind, hbridge, hlink⟩ := h.links id u chain hmem
      have hprefix := List.mem_append_left line (h.served.born _ _ hmem)
      obtain ⟨node, hchain, rfl, hlength⟩ := ih hprefix (show chain.length < turns by
        rw [List.length_cons] at hturns
        omega)
      obtain ⟨hleaves, -, henters⟩ := callee_edge hr
      simp only [stepsBack, h.lookup hlink, List.reverse_cons, List.length_cons, hlength]
      rw [runAlong_callee hr]
      exact ⟨r.node, .step hchain hleaves hkind henters hbridge, rfl, trivial⟩

/-- A chain of more than the seed keeps to the hops. -/
theorem FirstCome.length_le_hops {id u : String} {chain : List String}
    (h : FirstCome (store.flowOffers seed namedIds maxHops maxBridge) (id :: u :: chain)) :
    maxHops.Allows (chain.length + 2) :=
  (mem_flowOffers.mp (firstCome_cons_iff.mp h).2.1).1

theorem NamedInv.bridgedTo (h : NamedInv store seed namedIds maxHops maxBridge done line w)
    {id : String} {chain : List String} (hmem : id :: chain ∈ done ++ line) (hne : id ≠ seed.id) :
    store.BridgedTo seed namedIds maxHops maxBridge id (stepsFrom w.parents id) := by
  have hfirst := h.served.first _ hmem
  have hturns : chain.length < w.parents.length := by
    have hle := h.served.length_le hmem
    rw [← h.visited, List.length_map, List.length_cons] at hle
    exact hle
  obtain ⟨last, hchain, hid, hlength⟩ := h.chain_back hmem hturns
  refine ⟨last, _, hchain, hid, ?_⟩
  rw [stepsFrom, List.length_reverse, hlength]
  cases chain with
  | nil =>
      have hseed := List.mem_singleton.mp (firstCome_cons_iff.mp hfirst).2.1
      exact absurd hseed hne
  | cons u chain => exact FirstCome.length_le_hops hfirst

theorem NamedInv.mem_reached (h : NamedInv store seed namedIds maxHops maxBridge done line w)
    {id : String} : id ∈ w.reached ↔
      (∃ chain, id :: chain ∈ done) ∧ id ≠ seed.id ∧ id ∈ namedIds := by
  rw [h.reached, List.mem_filter, decide_eq_true_eq, mem_taken]

variable (store seed namedIds maxHops maxBridge) in
/-- What is reached is named and has a chain, whether the limit on visits is reached or not. -/
theorem reached_sound {id : String}
    (h : id ∈ (store.namedWalk seed namedIds maxHops maxBridge).reached) :
    id ∈ namedIds ∧ id ≠ seed.id ∧ store.BridgedTo seed namedIds maxHops maxBridge id
      (stepsFrom (store.namedWalk seed namedIds maxHops maxBridge).parents id) := by
  obtain ⟨done, line, hinv⟩ := exists_namedInv store seed namedIds maxHops maxBridge
  obtain ⟨⟨chain, hchain⟩, hne, hnamed⟩ := hinv.mem_reached.mp h
  exact ⟨hnamed, hne, hinv.bridgedTo (List.mem_append_left _ hchain) hne⟩

/-! ## What is reached -/

theorem mem_reached_iff (hvisits : store.NamedWithinVisits seed namedIds maxHops maxBridge)
    {id : String} : id ∈ (store.namedWalk seed namedIds maxHops maxBridge).reached ↔
      (∃ chain, FirstCome (store.flowOffers seed namedIds maxHops maxBridge) (id :: chain)) ∧
        id ≠ seed.id ∧ id ∈ namedIds := by
  obtain ⟨done, line, hinv⟩ := exists_namedInv store seed namedIds maxHops maxBridge
  obtain rfl := hinv.line_eq_nil hvisits
  rw [hinv.mem_reached]
  simp only [hinv.served.mem_done_iff]

/-- The search is right exactly where chains that come first lead to all that chains lead to. -/
theorem namedContract_iff (store : GraphReader) (seed : Node) (namedIds : List String)
    (maxHops maxBridge : CountLimit)
    (hvisits : store.NamedWithinVisits seed namedIds maxHops maxBridge) :
    store.NamedContract seed namedIds maxHops maxBridge ↔
      store.FirstComersSuffice seed namedIds maxHops maxBridge := by
  constructor
  · intro h id hnamed hne hchain
    exact ((mem_reached_iff hvisits).mp ((h.reached id hnamed hne).mpr hchain)).1
  · intro h
    refine ⟨fun id hnamed hne => ⟨fun hreached => ?_, fun hchain => ?_⟩, fun id => ?_⟩
    · exact ⟨_, (reached_sound store seed namedIds maxHops maxBridge hreached).2.2⟩
    · exact (mem_reached_iff hvisits).mpr ⟨h id hnamed hne hchain, hne, hnamed⟩
    · exact reached_sound store seed namedIds maxHops maxBridge

def bridgeNode (id : String) : Node :=
  ⟨id, if id = "x" then .route else .function, id, id, "f.ts", .typescript, 1⟩

def bridgeEdge (ends : String × String) : Edge := ⟨ends.1, ends.2, .calls, none, none, none, none⟩

/-- Two ways to the route `x`, over `u` and over `m`, and a way on from it over `y` to `t`. -/
def twoBridges : GraphReader :=
  ofRows (["s", "u", "m", "x", "y", "t"].map bridgeNode)
    ([("s", "u"), ("s", "m"), ("u", "x"), ("m", "x"), ("x", "y"), ("y", "t")].map bridgeEdge)
    (by decide)

def threeNamed : List String := ["s", "m", "t"]

theorem namedContract_iff_twoBridges :
    twoBridges.NamedContract (bridgeNode "s") threeNamed (.atMost 7) (.atMost 2) ↔
      twoBridges.FirstComersSuffice (bridgeNode "s") threeNamed (.atMost 7) (.atMost 2) :=
  namedContract_iff _ _ _ _ _ (show _ = _ by decide +kernel)

theorem step_twoBridges {steps : List FlowStep} {run : Nat} (u v : String)
    (chain : twoBridges.BridgedChain (bridgeNode "s") threeNamed (.atMost 1) steps (bridgeNode u)
      run)
    (leaves : bridgeEdge (u, v) ∈ twoBridges.outgoing u)
    (enters : twoBridges.getNodeById v = some (bridgeNode v))
    (within : (CountLimit.atMost 1).Allows (unnamedRunAt threeNamed (bridgeNode v) run)) :
    twoBridges.BridgedChain (bridgeNode "s") threeNamed (.atMost 1)
      (steps ++ [⟨bridgeNode v, some (bridgeEdge (u, v))⟩]) (bridgeNode v)
        (unnamedRunAt threeNamed (bridgeNode v) run) :=
  .step chain leaves (show EdgeKind.calls ∈ flowEdgeKinds by decide) enters within

/-- Over `u` the route comes first, with a run of one, so that `y` is a second unnamed node. -/
theorem namedContract_fails :
    twoBridges.NamedWithinVisits (bridgeNode "s") threeNamed (.atMost 7) (.atMost 1) ∧
      ¬ twoBridges.NamedContract (bridgeNode "s") threeNamed (.atMost 7) (.atMost 1) := by
  refine ⟨show _ = _ by decide +kernel, fun h => ?_⟩
  have hmissed : "t" ∉ (twoBridges.namedWalk (bridgeNode "s") threeNamed (.atMost 7)
      (.atMost 1)).reached := by decide +kernel
  have hm := step_twoBridges "s" "m" .start (by decide) (by decide) (by decide)
  have hx := step_twoBridges "m" "x" hm (by decide) (by decide) (by decide)
  have hy := step_twoBridges "x" "y" hx (by decide) (by decide) (by decide)
  have ht := step_twoBridges "y" "t" hy (by decide) (by decide) (by decide)
  exact hmissed ((h.reached "t" (by decide) (by decide)).mpr ⟨_, _, _, ht, by decide, by decide⟩)

/-! ## A bridge without bound -/

theorem exists_offered
    (hreports : ∀ u v, v ≠ u → store.Flows u v → store.Reports .outgoing u v)
    {steps : List FlowStep} {last : Node} {run : Nat}
    (h : store.BridgedChain seed namedIds .infinite steps last run)
    (hlength : maxHops.Allows steps.length) :
    ∃ q, Offered (store.flowOffers seed namedIds maxHops .infinite) (last.id :: q) ∧
      q.length + 1 ≤ steps.length := by
  induction h with
  | start => exact ⟨[], ⟨trivial, List.mem_singleton_self _⟩, Nat.le_refl 1⟩
  | @step steps node next e run chain leaves kind enters within ih =>
      rw [List.length_append, List.length_singleton] at hlength
      obtain ⟨q, hq, hle⟩ := ih (hlength.mono (Nat.le_succ _))
      have hid := getNodeById_id enters
      by_cases hsame : next.id = node.id
      · refine ⟨q, hsame ▸ hq, ?_⟩
        rw [List.length_append, List.length_singleton]
        omega
      · have hflows : store.Flows node.id next.id :=
          ⟨e, leaves, kind, hid.symm, by rw [hid, enters]; rfl⟩
        obtain ⟨r, hr, hkind, hrid⟩ := (reports_iff _ _ _).mp (hreports _ _ hsame hflows)
        have hhops : maxHops.Allows (q.length + 2) := hlength.mono (Nat.succ_le_succ hle)
        refine ⟨node.id :: q, ⟨hq, mem_flowOffers.mpr ⟨hhops, r, hr, hkind, trivial, hrid⟩⟩, ?_⟩
        rw [List.length_append, List.length_singleton, List.length_cons]
        omega

/-- With an infinite bridge the first chains suffice where all calls and navigations are
reported. -/
theorem firstComersSuffice_of_unbounded
    (hvisits : store.NamedWithinVisits seed namedIds maxHops .infinite)
    (hreports : ∀ u v, v ≠ u → store.Flows u v → store.Reports .outgoing u v) :
    store.FirstComersSuffice seed namedIds maxHops .infinite := by
  rintro id - - ⟨steps, last, run, hchain, rfl, hlength⟩
  obtain ⟨done, line, hinv⟩ := exists_namedInv store seed namedIds maxHops .infinite
  obtain rfl := hinv.line_eq_nil hvisits
  obtain ⟨q, hq, -⟩ := exists_offered hreports hchain hlength
  have hmore : ∀ {w : String} {p q : List String}, p.length ≤ q.length →
      store.flowOffers seed namedIds maxHops .infinite (w :: q) ⊆
        store.flowOffers seed namedIds maxHops .infinite (w :: p) := by
    intro w p q hle v hv
    obtain ⟨hhops, r, hr, hkind, -, hid⟩ := mem_flowOffers.mp hv
    exact mem_flowOffers.mpr ⟨hhops.mono (by omega), r, hr, hkind, trivial, hid⟩
  obtain ⟨p, hp, -⟩ := hinv.served.exists_firstCome (fun _ _ _ _ _ => hmore) hq
  exact ⟨p, hp⟩

/-! ## The paths -/

/-- The deeper of two paths is one of them and as long as both. -/
theorem deeper_spec (best : Option (List FlowStep)) (candidate : List FlowStep) :
    ∃ steps, deeper best candidate = some steps ∧ (steps = candidate ∨ best = some steps) ∧
      candidate.length ≤ steps.length ∧ ∀ c, best = some c → c.length ≤ steps.length := by
  cases best with
  | none => exact ⟨candidate, rfl, .inl rfl, Nat.le_refl _, nofun⟩
  | some steps =>
      by_cases hlt : steps.length < candidate.length
      · refine ⟨candidate, if_pos hlt, .inl rfl, Nat.le_refl _, fun c hc => ?_⟩
        obtain rfl := Option.some.inj hc
        exact Nat.le_of_lt hlt
      · refine ⟨steps, if_neg hlt, .inr rfl, Nat.le_of_not_lt hlt, fun c hc => ?_⟩
        obtain rfl := Option.some.inj hc
        exact Nat.le_refl _

theorem foldl_deeper {candidates : List (List FlowStep)} {best : Option (List FlowStep)}
    {path : List FlowStep} (h : candidates.foldl deeper best = some path) :
    (path ∈ candidates ∨ best = some path) ∧ (∀ c ∈ candidates, c.length ≤ path.length) ∧
      ∀ c, best = some c → c.length ≤ path.length := by
  induction candidates generalizing best with
  | nil =>
      have hbest : best = some path := h
      refine ⟨.inr hbest, fun c hc => absurd hc List.not_mem_nil, fun c hc => ?_⟩
      rw [Option.some.inj (hc.symm.trans hbest)]
  | cons candidate candidates ih =>
      obtain ⟨steps, hsteps, hone, hcandidate, hbest⟩ := deeper_spec best candidate
      obtain ⟨hmem, hlonger, hless⟩ := ih h
      have hle := hless steps hsteps
      refine ⟨?_, fun c hc => ?_, fun c hc => Nat.le_trans (hbest c hc) hle⟩
      · rcases hmem with hmem | hmem
        · exact .inl (List.mem_cons_of_mem _ hmem)
        · obtain rfl := Option.some.inj (hsteps.symm.trans hmem)
          rcases hone with rfl | hone
          · exact .inl List.mem_cons_self
          · exact .inr hone
      · rcases List.mem_cons.mp hc with rfl | hc
        · exact Nat.le_trans hcandidate hle
        · exact hlonger c hc

/-- A path is a longest one of the chains from a named symbol to the ones it reaches. -/
theorem namedPaths_chain {named : List (String × Node)} {path : List FlowStep}
    (h : path ∈ store.namedPaths named maxHops maxBridge) :
    ∃ seed ∈ named.map Prod.snd, ∃ id ∈ named.map Prod.fst, id ≠ seed.id ∧
      store.BridgedTo seed (named.map Prod.fst) maxHops maxBridge id path ∧
        ∀ other ∈ (store.namedWalk seed (named.map Prod.fst) maxHops maxBridge).reached,
          (stepsFrom (store.namedWalk seed (named.map Prod.fst) maxHops maxBridge).parents
            other).length ≤ path.length := by
  obtain ⟨seed, hseed, hpath⟩ := List.mem_filterMap.mp h
  obtain ⟨hmem, hlonger, -⟩ := foldl_deeper hpath
  obtain ⟨id, hreached, rfl⟩ := List.mem_map.mp (hmem.resolve_right (by simp))
  obtain ⟨hnamed, hne, hchain⟩ := reached_sound store seed _ maxHops maxBridge hreached
  refine ⟨seed, List.mem_of_mem_take hseed, id, hnamed, hne, hchain, fun other hother => ?_⟩
  exact hlonger _ (List.mem_map_of_mem hother)

end AfyxGraph.Graph.GraphReader
