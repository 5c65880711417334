import AfyxGraph.Core.Breadth
import AfyxGraph.Core.Loop
import AfyxGraph.Graph.WalkRequest
import Mathlib.Data.List.Perm.Subperm
import Mathlib.Data.List.Induction

/-! # The breadth-first walk

Every node is scheduled at most once, while each distinct edge is recorded once. The budget is
enforced when a node is added.
-/

namespace AfyxGraph.Graph

open AfyxGraph.Core Extraction

/-- Structural links ahead of everything else. -/
def structuralFirst (edges : List Edge) : List Edge :=
  edges.filter (fun e => e.kind = .contains) ++ edges.filter (fun e => e.kind = .calls) ++
    edges.filter fun e => e.kind ≠ .contains ∧ e.kind ≠ .calls

theorem mem_structuralFirst {edges : List Edge} {e : Edge} :
    e ∈ structuralFirst edges ↔ e ∈ edges := by
  simp only [structuralFirst, List.mem_append, List.mem_filter, decide_eq_true_eq]
  tauto

/-- `reached` in the order of the map. -/
structure FrontierWalk where
  reached : List Node
  recorded : List Edge
  scheduled : List String
  recordedEdges : List String
  line : List (Node × Nat)
  head : Nat

def FrontierWalk.record (w : FrontierWalk) (edge : Edge) : FrontierWalk :=
  if edgeIdentity edge ∈ w.recordedEdges then w
  else
    { w with
      recordedEdges := w.recordedEdges ++ [edgeIdentity edge]
      recorded := w.recorded ++ [edge] }

/-- One turn of the inner loop. -/
def FrontierWalk.follow (request : WalkRequest) (fetched : Found) (node : Node) (depth : Nat)
    (w : FrontierWalk) (edge : Edge) : FrontierWalk :=
  let neighbourId := farEnd edge node.id
  match (fetched.get neighbourId).or (Found.get w.reached neighbourId) with
  | none => w
  | some neighbour =>
      if ¬ request.passesKindFilter neighbour then w
      else if neighbourId ∈ w.scheduled then w.record edge
      else if request.limit ≤ w.reached.length then w
      else
        FrontierWalk.record
          { w with
            scheduled := w.scheduled ++ [neighbourId]
            reached := setNode w.reached neighbour
            line := w.line ++ [(neighbour, depth + 1)] }
          edge

namespace GraphReader

variable (store : GraphReader) (request : WalkRequest)

/-- One turn of the outer loop. -/
def frontierTurn (w : FrontierWalk) : Option FrontierWalk :=
  match w.line[w.head]? with
  | none => none
  | some (node, depth) =>
      if request.limit ≤ w.reached.length then none
      else if request.maxDepth ≤ depth then some { w with head := w.head + 1 }
      else
        let adjacent := structuralFirst (store.adjacent request node.id)
        let unseen := (adjacent.map (farEnd · node.id)).filter (· ∉ w.scheduled)
        let fetched := store.getNodesByIds unseen
        let w := adjacent.foldl (FrontierWalk.follow request fetched node depth) w
        some { w with head := w.head + 1 }

def frontierStart (start : Node) : FrontierWalk :=
  ⟨if request.includeStart then [start] else [], [], [start.id], [], [(start, 0)], 0⟩

/-- Every node is scheduled once. -/
def frontierWalk (start : Node) : FrontierWalk :=
  loop (store.frontierTurn request) (store.nodes.length + 1) (frontierStart request start)

def breadthFirst (startId : String) (options : TraversalOptions) : Subgraph :=
  let request := resolveWalkRequest options
  match store.getNodeById startId with
  | none => emptyView
  | some start =>
      let w := store.frontierWalk request start
      ⟨w.reached, w.recorded, [startId]⟩

/-! ## What it is to find -/

/-- An existing node within the depth, through nodes that pass the kind filter. -/
def InRange (startId : String) (node : Node) : Prop :=
  store.getNodeById node.id = some node ∧ (store.getNodeById startId).isSome = true ∧
    (∃ k : Nat, (k : ℕ∞) ≤ request.maxDepth ∧
      Steps (store.Hops request) (· = startId) k node.id) ∧
    (node.id = startId → request.includeStart = true)

/-- The contract of the walk; its edges are closed for the far ends that `into` allows. -/
structure BreadthContract (startId : String) (options : TraversalOptions) (into : Node → Prop) :
    Prop where
  ends : ∀ start, store.getNodeById startId = some start →
    store.frontierTurn (resolveWalkRequest options)
      (store.frontierWalk (resolveWalkRequest options) start) = none
  bounded : 1 ≤ (resolveWalkRequest options).limit →
    ((store.breadthFirst startId options).nodes.length : ℕ∞) ≤ (resolveWalkRequest options).limit
  keys : ((store.breadthFirst startId options).nodes.map (·.id)).Nodup
  joined : ∀ e ∈ (store.breadthFirst startId options).edges, ∀ id ∈ [e.source, e.target],
    id = startId ∨ id ∈ (store.breadthFirst startId options).nodes.map (·.id)
  distinct : ((store.breadthFirst startId options).edges.map edgeIdentity).Nodup
  exact_ : ((store.breadthFirst startId options).nodes.length : ℕ∞) <
      (resolveWalkRequest options).limit →
    ∀ n, n ∈ (store.breadthFirst startId options).nodes ↔
      store.InRange (resolveWalkRequest options) startId n
  closed : ((store.breadthFirst startId options).nodes.length : ℕ∞) <
      (resolveWalkRequest options).limit →
    ∀ u k, AtDistance (store.Hops (resolveWalkRequest options)) (· = startId) k u →
      (k : ℕ∞) < (resolveWalkRequest options).maxDepth →
      ∀ e ∈ store.adjacent (resolveWalkRequest options) u,
        ∀ n ∈ (store.breadthFirst startId options).nodes, farEnd e u = n.id → into n →
          ∃ r ∈ (store.breadthFirst startId options).edges, edgeIdentity r = edgeIdentity e

end GraphReader

/-! ## One node is expanded -/

/-- What following some of the edges has done, `new` being the nodes it has added. -/
structure Followed (request : WalkRequest) (fetched : Found) (node : Node) (depth : Nat)
    (around : List Edge) (w : FrontierWalk) (edges : List Edge) (v : FrontierWalk)
    (new : List Node) : Prop where
  line : v.line = w.line ++ new.map (·, depth + 1)
  scheduled : v.scheduled = w.scheduled ++ new.map (·.id)
  reached : v.reached = w.reached ++ new
  head : v.head = w.head
  once : (new.map (·.id)).Nodup
  fresh : ∀ n ∈ new, n.id ∉ w.scheduled ∧ fetched.get n.id = some n ∧
    request.passesKindFilter n ∧ ∃ e ∈ around, farEnd e node.id = n.id
  room : (w.reached.length : ℕ∞) ≤ request.limit → (v.reached.length : ℕ∞) ≤ request.limit
  identities : v.recordedEdges = v.recorded.map edgeIdentity
  distinct : v.recordedEdges.Nodup
  recorded : ∀ e ∈ v.recorded, e ∈ w.recorded ∨
    e ∈ around ∧ farEnd e node.id ∈ v.reached.map (·.id)
  kept : w.recordedEdges ⊆ v.recordedEdges
  all : (v.reached.length : ℕ∞) < request.limit → ∀ e ∈ edges, ∀ n,
    (fetched.get (farEnd e node.id)).or (Found.get w.reached (farEnd e node.id)) = some n →
    request.passesKindFilter n →
      farEnd e node.id ∈ v.scheduled ∧ edgeIdentity e ∈ v.recordedEdges

/-- What the walk keeps of its sets. -/
structure Tidy (w : FrontierWalk) : Prop where
  known : ∀ n ∈ w.reached, n.id ∈ w.scheduled
  identities : w.recordedEdges = w.recorded.map edgeIdentity
  distinct : w.recordedEdges.Nodup

section Follow

variable {request : WalkRequest} {fetched : Found} {node : Node} {depth : Nat}
  {w v : FrontierWalk} {around edges : List Edge} {new : List Node} {edge : Edge}

theorem Followed.start (h : Tidy w) : Followed request fetched node depth around w [] w [] where
  line := by simp
  scheduled := by simp
  reached := by simp
  head := rfl
  once := List.nodup_nil
  fresh n hn := absurd hn List.not_mem_nil
  room := id
  identities := h.identities
  distinct := h.distinct
  recorded e he := .inl he
  kept := List.Subset.refl _
  all _ e he := absurd he List.not_mem_nil

/-- An edge is passed over when the budget is used up, or it leads to nothing that counts. -/
theorem Followed.pass (h : Followed request fetched node depth around w edges v new)
    (hpass : (v.reached.length : ℕ∞) < request.limit → ∀ n,
      (fetched.get (farEnd edge node.id)).or (Found.get w.reached (farEnd edge node.id)) = some n →
      request.passesKindFilter n →
        farEnd edge node.id ∈ v.scheduled ∧ edgeIdentity edge ∈ v.recordedEdges) :
    Followed request fetched node depth around w (edges ++ [edge]) v new :=
  { h with
    all := by
      intro hroom e he n hn hfilter
      rcases List.mem_append.mp he with he | he
      · exact h.all hroom e he n hn hfilter
      · obtain rfl := List.mem_singleton.mp he
        exact hpass hroom n hn hfilter }

/-- An edge to a scheduled node that has been reached is recorded. -/
theorem Followed.record (h : Followed request fetched node depth around w edges v new)
    (haround : edge ∈ around) (hscheduled : farEnd edge node.id ∈ v.scheduled)
    (hreached : farEnd edge node.id ∈ v.reached.map (·.id)) :
    Followed request fetched node depth around w (edges ++ [edge]) (v.record edge) new := by
  unfold FrontierWalk.record
  split
  · rename_i hold
    exact h.pass fun _ n _ _ => ⟨hscheduled, hold⟩
  · rename_i hnew
    exact
      { line := h.line
        scheduled := h.scheduled
        reached := h.reached
        head := h.head
        once := h.once
        fresh := h.fresh
        room := h.room
        identities := by simp [h.identities]
        distinct := by
          refine List.nodup_append.mpr ⟨h.distinct, List.nodup_singleton _, fun a ha b hb => ?_⟩
          rw [List.mem_singleton.mp hb]
          rintro rfl
          exact hnew ha
        recorded := by
          intro e he
          rcases List.mem_append.mp he with he | he
          · exact h.recorded e he
          · rw [List.mem_singleton.mp he]
            exact .inr ⟨haround, hreached⟩
        kept := fun i hi => List.mem_append_left _ (h.kept hi)
        all := by
          intro hroom e he n hn hfilter
          rcases List.mem_append.mp he with he | he
          · obtain ⟨hmem, hid⟩ := h.all hroom e he n hn hfilter
            exact ⟨hmem, List.mem_append_left _ hid⟩
          · rw [List.mem_singleton.mp he]
            exact ⟨hscheduled, List.mem_append_right _ (List.mem_singleton_self _)⟩ }

/-- A node is scheduled while there is room. -/
theorem Followed.schedule (h : Followed request fetched node depth around w edges v new)
    (htidy : Tidy w) {neighbour : Node} (hget : fetched.get neighbour.id = some neighbour)
    (hfilter : request.passesKindFilter neighbour) (haround : edge ∈ around)
    (hend : farEnd edge node.id = neighbour.id) (hnew : neighbour.id ∉ v.scheduled)
    (hroom : ¬ request.limit ≤ (v.reached.length : ℕ∞)) :
    Followed request fetched node depth around w edges
      { v with
        scheduled := v.scheduled ++ [neighbour.id]
        reached := setNode v.reached neighbour
        line := v.line ++ [(neighbour, depth + 1)] } (new ++ [neighbour]) := by
  have hout : ¬ ∃ n ∈ v.reached, n.id = neighbour.id := by
    rintro ⟨n, hn, hid⟩
    apply hnew
    rw [h.scheduled, ← hid, List.mem_append]
    rw [h.reached] at hn
    rcases List.mem_append.mp hn with hn | hn
    · exact .inl (htidy.known n hn)
    · exact .inr (List.mem_map_of_mem hn)
  have hset : setNode v.reached neighbour = v.reached ++ [neighbour] := if_neg hout
  rw [hset]
  rw [h.scheduled, List.mem_append, not_or] at hnew
  exact
    { line := by simp [h.line]
      scheduled := by simp [h.scheduled]
      reached := by simp [h.reached]
      head := h.head
      once := by
        rw [List.map_append, List.nodup_append]
        refine ⟨h.once, List.nodup_singleton _, fun a ha b hb => ?_⟩
        rw [List.mem_singleton.mp hb]
        rintro rfl
        exact hnew.2 ha
      fresh := by
        intro n hn
        rcases List.mem_append.mp hn with hn | hn
        · exact h.fresh n hn
        · rw [List.mem_singleton.mp hn]
          exact ⟨hnew.1, hget, hfilter, edge, haround, hend⟩
      room := by
        intro _
        rw [List.length_append, List.length_singleton, Nat.cast_add, Nat.cast_one]
        exact Order.add_one_le_of_lt (lt_of_not_ge hroom)
      identities := h.identities
      distinct := h.distinct
      recorded := by
        intro e he
        refine (h.recorded e he).imp id fun ⟨hmem, hreached⟩ => ⟨hmem, ?_⟩
        rw [List.map_append]
        exact List.mem_append_left _ hreached
      kept := h.kept
      all := by
        intro hless e he n hn hpass
        have hbefore : (v.reached.length : ℕ∞) < request.limit := lt_of_not_ge hroom
        obtain ⟨hmem, hid⟩ := h.all hbefore e he n hn hpass
        exact ⟨List.mem_append_left _ hmem, hid⟩ }

/-- One more edge is followed. -/
theorem Followed.follow (h : Followed request fetched node depth around w edges v new)
    (htidy : Tidy w) (hfetched : ∀ id n, fetched.get id = some n → id ∉ w.scheduled)
    (haround : edge ∈ around) :
    ∃ new', Followed request fetched node depth around w (edges ++ [edge])
      (v.follow request fetched node depth edge) new' := by
  -- what was found before the loop is what is found in it
  have hsame : ∀ n, (fetched.get (farEnd edge node.id)).or
      (Found.get w.reached (farEnd edge node.id)) = some n →
      (fetched.get (farEnd edge node.id)).or (Found.get v.reached (farEnd edge node.id)) =
        some n := by
    intro n hn
    rcases Option.or_eq_some_iff.mp hn with hn | ⟨hnone, hn⟩
    · rw [hn, Option.some_or]
    · rw [hnone, Option.none_or, h.reached]
      exact Found.get_append_some hn
  cases hfound : (fetched.get (farEnd edge node.id)).or
      (Found.get v.reached (farEnd edge node.id)) with
  | none =>
      have hstep : v.follow request fetched node depth edge = v := by
        simp only [FrontierWalk.follow, hfound]
      rw [hstep]
      refine ⟨new, h.pass fun _ n hn _ => ?_⟩
      cases hfound.symm.trans (hsame n hn)
  | some neighbour =>
      have hid : neighbour.id = farEnd edge node.id := by
        rcases Option.or_eq_some_iff.mp hfound with hget | ⟨-, hget⟩ <;> exact Found.get_id hget
      by_cases hfilter : request.passesKindFilter neighbour
      · simp only [FrontierWalk.follow, hfound, hfilter, not_true_eq_false, if_false]
        by_cases hscheduled : farEnd edge node.id ∈ v.scheduled
        · rw [if_pos hscheduled]
          refine ⟨new, h.record haround hscheduled ?_⟩
          rw [h.scheduled] at hscheduled
          rw [h.reached, List.map_append]
          rcases List.mem_append.mp hscheduled with hold | hnew
          · rcases Option.or_eq_some_iff.mp hfound with hget | ⟨-, hget⟩
            · exact absurd hold (hfetched _ _ hget)
            · rw [← List.map_append, ← h.reached, ← hid]
              exact List.mem_map_of_mem (List.mem_of_find?_eq_some hget)
          · exact List.mem_append_right _ hnew
        · rw [if_neg hscheduled]
          by_cases hroom : request.limit ≤ (v.reached.length : ℕ∞)
          · rw [if_pos hroom]
            exact ⟨new, h.pass fun hless => absurd hroom (not_le_of_gt hless)⟩
          · rw [if_neg hroom]
            have hget : fetched.get neighbour.id = some neighbour := by
              rcases Option.or_eq_some_iff.mp hfound with hget | ⟨-, hget⟩
              · rwa [hid]
              · -- what is reached is scheduled
                exfalso
                have hmem := List.mem_of_find?_eq_some hget
                rw [← hid] at hscheduled
                apply hscheduled
                rw [h.scheduled, List.mem_append]
                rw [h.reached] at hmem
                rcases List.mem_append.mp hmem with hmem | hmem
                · exact .inl (htidy.known _ hmem)
                · exact .inr (List.mem_map_of_mem hmem)
            rw [← hid] at hscheduled ⊢
            have hnext := h.schedule htidy hget hfilter haround hid.symm hscheduled hroom
            refine ⟨_, hnext.record haround ?_ ?_⟩
            · rw [← hid]
              exact List.mem_append_right _ (List.mem_singleton_self _)
            · rw [hnext.reached, ← hid]
              simp
      · simp only [FrontierWalk.follow, hfound, hfilter, not_false_eq_true, if_true]
        refine ⟨new, h.pass fun _ n hn hpass => ?_⟩
        obtain rfl := Option.some.inj (hfound.symm.trans (hsame n hn))
        exact absurd hpass hfilter

/-- By induction from the back: the edges followed so far. -/
theorem followAll_spec (htidy : Tidy w)
    (hfetched : ∀ id n, fetched.get id = some n → id ∉ w.scheduled) (around : List Edge) :
    ∃ new, Followed request fetched node depth around w around
      (around.foldl (FrontierWalk.follow request fetched node depth) w) new := by
  have hpart : ∀ edges ⊆ around, ∃ new, Followed request fetched node depth around w edges
      (edges.foldl (FrontierWalk.follow request fetched node depth) w) new := by
    intro edges
    induction edges using List.reverseRecOn with
    | nil => exact fun _ => ⟨[], .start htidy⟩
    | append_singleton edges edge ih =>
        intro hsub
        obtain ⟨new, hnew⟩ := ih fun e he => hsub (List.mem_append_left _ he)
        rw [List.foldl_append]
        exact hnew.follow htidy hfetched
          (hsub (List.mem_append_right _ (List.mem_singleton_self edge)))
  exact hpart around (List.Subset.refl around)

end Follow

/-! ## The walk -/

/-- A place in the line with its depth. -/
def frontierKey (x : Node × Nat) : String × Nat := (x.1.id, x.2)

namespace GraphReader

/-- What holds between two turns, `rest` being the line behind the start. -/
structure FrontierInv (store : GraphReader) (request : WalkRequest) (start : Node)
    (w : FrontierWalk) (rest : List (Node × Nat)) : Prop where
  tidy : Tidy w
  line : w.line = (start, 0) :: rest
  reached : w.reached = (if request.includeStart then [start] else []) ++ rest.map (·.1)
  scheduled : w.scheduled = w.line.map (·.1.id)
  once : w.scheduled.Nodup
  head : w.head ≤ w.line.length
  stored : ∀ x ∈ w.line, store.getNodeById x.1.id = some x.1
  passes : ∀ x ∈ rest, request.passesKindFilter x.1
  room : 1 ≤ request.limit → (w.reached.length : ℕ∞) ≤ request.limit
  joined : ∀ e ∈ w.recorded, e.source ∈ w.scheduled ∧ e.target ∈ w.scheduled
  breadth : (w.reached.length : ℕ∞) < request.limit →
    Breadth.Line (store.Hops request) start.id request.maxDepth frontierKey w.line w.head
  closed : (w.reached.length : ℕ∞) < request.limit → ∀ x ∈ w.line.take w.head,
    (x.2 : ℕ∞) < request.maxDepth → ∀ e ∈ store.adjacent request x.1.id, ∀ n,
      store.getNodeById (farEnd e x.1.id) = some n → request.passesKindFilter n →
      (n.id = start.id → request.includeStart = true) → edgeIdentity e ∈ w.recordedEdges

variable {store : GraphReader} {request : WalkRequest} {start : Node} {w w' : FrontierWalk}
  {rest : List (Node × Nat)}

theorem frontierInv_start (h : store.getNodeById start.id = some start) :
    FrontierInv store request start (frontierStart request start) [] where
  tidy := by
    refine ⟨fun n hn => ?_, rfl, List.nodup_nil⟩
    simp only [frontierStart, List.mem_ite_nil_right, List.mem_singleton] at hn
    simp [frontierStart, hn.2]
  line := rfl
  reached := by simp [frontierStart]
  scheduled := rfl
  once := List.nodup_singleton _
  head := Nat.zero_le _
  stored x hx := by
    obtain rfl := List.mem_singleton.mp hx
    exact h
  passes x hx := absurd hx List.not_mem_nil
  room hlimit := by
    unfold frontierStart
    split
    · exact hlimit
    · exact zero_le
  joined e he := absurd he List.not_mem_nil
  breadth _ := Breadth.inv_init _ _ _
  closed _ x hx := absurd hx List.not_mem_nil

/-- A node at the depth limit is left, any other one is expanded. -/
theorem frontierTurn_cases (h : store.frontierTurn request w = some w') :
    ∃ node depth, w.line[w.head]? = some (node, depth) ∧
      ((request.maxDepth ≤ depth ∧ w' = { w with head := w.head + 1 }) ∨
        (¬ request.maxDepth ≤ depth ∧ ∃ fetched v, fetched = store.getNodesByIds
          (((structuralFirst (store.adjacent request node.id)).map (farEnd · node.id)).filter
            (· ∉ w.scheduled)) ∧
          v = (structuralFirst (store.adjacent request node.id)).foldl
            (FrontierWalk.follow request fetched node depth) w ∧
          w' = { v with head := v.head + 1 })) := by
  unfold frontierTurn at h
  cases hline : w.line[w.head]? with
  | none => simp [hline] at h
  | some x =>
      obtain ⟨node, depth⟩ := x
      simp only [hline, Option.ite_none_left_eq_some] at h
      refine ⟨node, depth, rfl, ?_⟩
      by_cases hdeep : request.maxDepth ≤ depth
      · simp only [hdeep, if_true, Option.some.injEq] at h
        exact .inl ⟨hdeep, h.2.symm⟩
      · simp only [hdeep, if_false, Option.some.injEq] at h
        exact .inr ⟨hdeep, _, _, rfl, rfl, h.2.symm⟩

theorem FrontierInv.start_included (h : FrontierInv store request start w rest) :
    ∀ n ∈ w.reached, n.id = start.id → request.includeStart = true := by
  intro n hn hid
  rw [h.reached, List.mem_append] at hn
  rcases hn with hn | hn
  · exact (List.mem_ite_nil_right.mp hn).1
  · exfalso
    have honce := h.once
    rw [h.scheduled, h.line, List.map_cons, List.nodup_cons] at honce
    apply honce.1
    obtain ⟨x, hx, rfl⟩ := List.mem_map.mp hn
    exact List.mem_map.mpr ⟨x, hx, hid⟩

/-- A scheduled node has been reached, the start if it is included. -/
theorem FrontierInv.get_reached (h : FrontierInv store request start w rest) {id : String}
    (hid : id ∈ w.scheduled) (hstart : id = start.id → request.includeStart = true) {n : Node}
    (hn : store.getNodeById id = some n) : Found.get w.reached id = some n := by
  have hmem : ∃ m ∈ w.reached, m.id = id := by
    rw [h.scheduled, h.line, List.map_cons] at hid
    rcases List.mem_cons.mp hid with rfl | hid
    · refine ⟨start, ?_, rfl⟩
      rw [h.reached, if_pos (hstart rfl)]
      exact List.mem_append_left _ (List.mem_singleton_self start)
    · obtain ⟨x, hx, rfl⟩ := List.mem_map.mp hid
      refine ⟨x.1, ?_, rfl⟩
      rw [h.reached]
      exact List.mem_append_right _ (List.mem_map_of_mem hx)
  cases hget : Found.get w.reached id with
  | none =>
      obtain ⟨m, hm, rfl⟩ := hmem
      have hnot := List.find?_eq_none.mp hget m hm
      simp at hnot
  | some m =>
      have hm := List.mem_of_find?_eq_some hget
      have hstored : store.getNodeById m.id = some m := by
        rw [h.reached] at hm
        rcases List.mem_append.mp hm with hm | hm
        · obtain rfl := List.mem_singleton.mp (List.mem_ite_nil_right.mp hm).2
          exact h.stored (m, 0) (h.line ▸ List.mem_cons_self ..)
        · obtain ⟨x, hx, rfl⟩ := List.mem_map.mp hm
          exact h.stored x (h.line ▸ List.mem_cons_of_mem _ hx)
      rw [Found.get_id hget] at hstored
      rw [← hstored, hn]

theorem frontierTurn_inv (h : FrontierInv store request start w rest)
    (hturn : store.frontierTurn request w = some w') :
    ∃ rest', FrontierInv store request start w' rest' ∧ w'.head = w.head + 1 := by
  obtain ⟨node, depth, hline, hcase⟩ := frontierTurn_cases hturn
  have hhead : w.head < w.line.length := (List.getElem?_eq_some_iff.mp hline).1
  have hkeys : w.line.map (fun x => (frontierKey x).1) = w.scheduled := h.scheduled.symm
  rcases hcase with ⟨hdeep, rfl⟩ | ⟨hdeep, fetched, v, hfetched, hv, rfl⟩
  · refine ⟨rest, { h with
      tidy := ⟨h.tidy.known, h.tidy.identities, h.tidy.distinct⟩
      head := hhead
      breadth := fun hless => ?_
      closed := fun hless => ?_ }, rfl⟩
    · have hclosed : ¬ ((frontierKey (node, depth)).2 : ℕ∞) < request.maxDepth :=
        not_lt_of_ge hdeep
      have hadvance : Breadth.Line (store.Hops request) start.id request.maxDepth frontierKey
          (w.line ++ []) (w.head + 1) :=
        (h.breadth hless).advance hline List.nodup_nil (fun a ha => absurd ha List.not_mem_nil)
          (fun a ha => absurd ha List.not_mem_nil) (fun hopen => absurd hopen hclosed)
      rwa [List.append_nil] at hadvance
    · intro x hx hopen
      have htake : w.line.take (w.head + 1) = w.line.take w.head ++ [(node, depth)] := by
        rw [List.take_add_one, hline]
        rfl
      change x ∈ w.line.take (w.head + 1) at hx
      rw [htake] at hx
      rcases List.mem_append.mp hx with hx | hx
      · exact h.closed hless x hx hopen
      · obtain rfl := List.mem_singleton.mp hx
        exact absurd hopen (not_lt_of_ge hdeep)
  · have hunscheduled : ∀ id n, fetched.get id = some n → id ∉ w.scheduled := by
      intro id n hget
      have hmem := List.mem_of_find?_eq_some hget
      rw [hfetched, getNodesByIds, List.mem_filter] at hmem
      have hid := Found.get_id hget
      simpa [hid] using (List.mem_filter.mp (of_decide_eq_true hmem.2)).2
    -- what is not scheduled yet is fetched as it is stored
    have hget : ∀ e ∈ store.adjacent request node.id, farEnd e node.id ∉ w.scheduled →
        fetched.get (farEnd e node.id) = store.getNodeById (farEnd e node.id) := by
      intro e he hout
      rw [hfetched]
      apply get_getNodesByIds
      refine List.mem_filter.mpr ⟨List.mem_map.mpr ⟨e, mem_structuralFirst.mpr he, rfl⟩, ?_⟩
      simpa using hout
    obtain ⟨new, hnew⟩ := @followAll_spec request fetched node depth w h.tidy hunscheduled
      (structuralFirst (store.adjacent request node.id))
    rw [← hv] at hnew
    have hstored : ∀ n ∈ new, store.getNodeById n.id = some n := by
      intro n hn
      obtain ⟨hout, hsome, -, e, he, hend⟩ := hnew.fresh n hn
      rw [← hend] at hout hsome ⊢
      rw [← hget e (mem_structuralFirst.mp he) hout, hsome]
    have hmono : (w.reached.length : ℕ∞) ≤ v.reached.length := by
      rw [hnew.reached, List.length_append]
      exact Nat.cast_le.mpr (Nat.le_add_right _ _)
    have hnode : node.id ∈ w.scheduled := by
      rw [h.scheduled]
      exact List.mem_map.mpr ⟨_, List.mem_of_getElem? hline, rfl⟩
    have hfound : ∀ e ∈ store.adjacent request node.id, ∀ n,
        store.getNodeById (farEnd e node.id) = some n →
        (n.id = start.id → request.includeStart = true) →
        (fetched.get (farEnd e node.id)).or (Found.get w.reached (farEnd e node.id)) =
          some n := by
      intro e he n hn hincluded
      by_cases hmem : farEnd e node.id ∈ w.scheduled
      · have hnone : fetched.get (farEnd e node.id) = none := by
          cases hsome : fetched.get (farEnd e node.id) with
          | none => rfl
          | some m => exact absurd hmem (hunscheduled _ m hsome)
        rw [hnone, Option.none_or]
        exact h.get_reached hmem (getNodeById_id hn ▸ hincluded) hn
      · rw [hget e he hmem, hn, Option.some_or]
    refine ⟨rest ++ new.map (·, depth + 1),
      ⟨?_, ?_, ?_, ?_, ?_, ?_, ?_, ?_, ?_, ?_, ?_, ?_⟩, congrArg (· + 1) hnew.head⟩
    · refine ⟨fun n hn => ?_, hnew.identities, hnew.distinct⟩
      change n ∈ v.reached at hn
      show n.id ∈ v.scheduled
      rw [hnew.reached] at hn
      rw [hnew.scheduled]
      rcases List.mem_append.mp hn with hn | hn
      · exact List.mem_append_left _ (h.tidy.known n hn)
      · exact List.mem_append_right _ (List.mem_map_of_mem hn)
    · show v.line = _
      rw [hnew.line, h.line, List.cons_append]
    · show v.reached = _
      rw [hnew.reached, h.reached, List.map_append, List.map_map, List.append_assoc]
      simp [Function.comp_def]
    · show v.scheduled = v.line.map (·.1.id)
      rw [hnew.scheduled, hnew.line, h.scheduled, List.map_append, List.map_map]
      rfl
    · show v.scheduled.Nodup
      rw [hnew.scheduled, List.nodup_append]
      refine ⟨h.once, hnew.once, fun a ha b hb heq => ?_⟩
      obtain ⟨n, hn, rfl⟩ := List.mem_map.mp hb
      exact (hnew.fresh n hn).1 (heq ▸ ha)
    · show v.head + 1 ≤ v.line.length
      rw [hnew.head, hnew.line, List.length_append]
      omega
    · intro x hx
      change x ∈ v.line at hx
      rw [hnew.line] at hx
      rcases List.mem_append.mp hx with hx | hx
      · exact h.stored x hx
      · obtain ⟨n, hn, rfl⟩ := List.mem_map.mp hx
        exact hstored n hn
    · intro x hx
      rcases List.mem_append.mp hx with hx | hx
      · exact h.passes x hx
      · obtain ⟨n, hn, rfl⟩ := List.mem_map.mp hx
        exact (hnew.fresh n hn).2.2.1
    · exact fun hlimit => hnew.room (h.room hlimit)
    · intro e he
      show e.source ∈ v.scheduled ∧ e.target ∈ v.scheduled
      have hold : ∀ id, id ∈ w.scheduled → id ∈ v.scheduled := by
        intro id hid
        rw [hnew.scheduled]
        exact List.mem_append_left _ hid
      rcases hnew.recorded e he with he | ⟨he, hfar⟩
      · exact ⟨hold _ (h.joined e he).1, hold _ (h.joined e he).2⟩
      · have hfar' : farEnd e node.id ∈ v.scheduled := by
          obtain ⟨n, hn, hid⟩ := List.mem_map.mp hfar
          rw [← hid, hnew.scheduled, List.mem_append]
          rw [hnew.reached] at hn
          exact (List.mem_append.mp hn).imp (h.tidy.known n) (fun hn => List.mem_map_of_mem hn)
        rcases ends_of_adjacent (mem_structuralFirst.mp he) with ⟨hs, ht⟩ | ⟨hs, ht⟩
        · exact ⟨hs ▸ hold _ hnode, ht ▸ hfar'⟩
        · exact ⟨hs ▸ hfar', ht ▸ hold _ hnode⟩
    · intro hless
      change (v.reached.length : ℕ∞) < request.limit at hless
      show Breadth.Line _ _ _ frontierKey v.line (v.head + 1)
      rw [hnew.line, hnew.head]
      refine (h.breadth (lt_of_le_of_lt hmono hless)).advance hline ?_ ?_ ?_ ?_
      · rw [List.map_map]
        exact hnew.once
      · intro x hx
        obtain ⟨n, -, rfl⟩ := List.mem_map.mp hx
        rfl
      · intro x hx
        obtain ⟨n, hn, rfl⟩ := List.mem_map.mp hx
        obtain ⟨hout, -, hfilter, e, he, hend⟩ := hnew.fresh n hn
        rw [hkeys]
        exact ⟨lt_of_not_ge hdeep, ⟨e, mem_structuralFirst.mp he, hend, n, hstored n hn, hfilter⟩,
          hout⟩
      · rintro - id ⟨e, he, rfl, n, hn, hfilter⟩
        rw [List.map_append, List.map_map, hkeys, List.mem_append]
        by_cases hmem : farEnd e node.id ∈ w.scheduled
        · exact .inl hmem
        · have hsome : (fetched.get (farEnd e node.id)).or
              (Found.get w.reached (farEnd e node.id)) = some n := by
            change store.getNodeById (farEnd e node.id) = some n at hn
            rw [hget e he hmem, hn, Option.some_or]
          have hall := (hnew.all hless e (mem_structuralFirst.mpr he) n hsome hfilter).1
          rw [hnew.scheduled, List.mem_append] at hall
          exact hall
    · intro hless x hx hopen e he n hn hfilter hincluded
      change (v.reached.length : ℕ∞) < request.limit at hless
      change x ∈ v.line.take (v.head + 1) at hx
      show edgeIdentity e ∈ v.recordedEdges
      rw [hnew.line, hnew.head, List.take_append_of_le_length hhead, List.take_add_one,
        hline] at hx
      rcases List.mem_append.mp hx with hx | hx
      · exact hnew.kept (h.closed (lt_of_le_of_lt hmono hless) x hx hopen e he n hn hfilter
          hincluded)
      · obtain rfl : x = (node, depth) := List.mem_singleton.mp hx
        exact (hnew.all hless e (mem_structuralFirst.mpr he) n (hfound e he n hn hincluded)
          hfilter).2

theorem FrontierInv.length_line_le (h : FrontierInv store request start w rest) :
    w.line.length ≤ store.nodes.length := by
  have hlength : w.scheduled.length ≤ (store.nodes.map (·.id)).length := by
    apply (List.subperm_of_subset h.once ?_).length_le
    intro id hid
    rw [h.scheduled] at hid
    obtain ⟨x, hx, rfl⟩ := List.mem_map.mp hid
    exact List.mem_map_of_mem (getNodeById_mem (h.stored x hx))
  rwa [h.scheduled, List.length_map, List.length_map] at hlength

theorem frontierWalk_end (hstart : store.getNodeById start.id = some start) :
    (∃ rest, FrontierInv store request start (store.frontierWalk request start) rest) ∧
      store.frontierTurn request (store.frontierWalk request start) = none := by
  have hkeeps : ∀ w w', (∃ rest, FrontierInv store request start w rest) →
      store.frontierTurn request w = some w' →
      ∃ rest, FrontierInv store request start w' rest := by
    rintro w w' ⟨rest, hinv⟩ hturn
    obtain ⟨rest', hinv', -⟩ := frontierTurn_inv hinv hturn
    exact ⟨rest', hinv'⟩
  have hfirst : ∃ rest, FrontierInv store request start (frontierStart request start) rest :=
    ⟨_, frontierInv_start hstart⟩
  refine ⟨loop_invariant hkeeps _ hfirst, ?_⟩
  apply @loop_stops _ _ _ (fun w => store.nodes.length + 1 - w.head) hkeeps ?_ _ _ hfirst
  · exact Nat.sub_le _ _
  · rintro w w' ⟨rest, hinv⟩ hturn
    obtain ⟨rest', hinv', hhead⟩ := frontierTurn_inv hinv hturn
    have hle := hinv'.length_line_le
    have hlast := hinv'.head
    omega

/-- With room left, the walk has ended behind the end of the line. -/
theorem line_used_up (hend : store.frontierTurn request w = none)
    (hroom : (w.reached.length : ℕ∞) < request.limit) : w.line.length ≤ w.head := by
  unfold frontierTurn at hend
  cases hline : w.line[w.head]? with
  | none => exact List.getElem?_eq_none_iff.mp hline
  | some x =>
      exfalso
      simp only [hline, not_le_of_gt hroom, if_false] at hend
      revert hend
      by_cases hdeep : request.maxDepth ≤ x.2 <;> simp [hdeep]

theorem FrontierInv.mem_reached (h : FrontierInv store request start w rest) {n : Node} :
    n ∈ w.reached ↔ n.id ∈ w.scheduled ∧ store.getNodeById n.id = some n ∧
      (n.id = start.id → request.includeStart = true) := by
  constructor
  · intro hn
    have hknown := h.tidy.known n hn
    refine ⟨hknown, ?_, h.start_included n hn⟩
    rw [h.reached] at hn
    rcases List.mem_append.mp hn with hn | hn
    · obtain rfl := List.mem_singleton.mp (List.mem_ite_nil_right.mp hn).2
      exact h.stored (n, 0) (h.line ▸ List.mem_cons_self ..)
    · obtain ⟨x, hx, rfl⟩ := List.mem_map.mp hn
      exact h.stored x (h.line ▸ List.mem_cons_of_mem _ hx)
  · rintro ⟨hid, hstored, hincluded⟩
    exact List.mem_of_find?_eq_some (h.get_reached hid hincluded hstored)

theorem FrontierInv.keys_nodup (h : FrontierInv store request start w rest) :
    (w.reached.map (·.id)).Nodup := by
  have honce := h.once
  rw [h.scheduled, h.line, List.map_cons] at honce
  rw [h.reached, List.map_append, List.map_map]
  split
  · exact honce
  · exact (List.nodup_cons.mp honce).2

/-- What the walk has scheduled when it ends with room left. -/
theorem FrontierInv.scheduled_iff (h : FrontierInv store request start w rest)
    (hend : store.frontierTurn request w = none)
    (hroom : (w.reached.length : ℕ∞) < request.limit) (id : String) :
    id ∈ w.scheduled ↔ ∃ k : Nat, (k : ℕ∞) ≤ request.maxDepth ∧
      Steps (store.Hops request) (· = start.id) k id := by
  have hcomplete : ∀ id k, (id, k) ∈ w.line.map frontierKey ↔ (k : ℕ∞) ≤ request.maxDepth ∧
      AtDistance (store.Hops request) (· = start.id) k id :=
    fun id k => Breadth.Line.complete (h.breadth hroom) (line_used_up hend hroom)
  have hmem : id ∈ w.scheduled ↔ ∃ k, (id, k) ∈ w.line.map frontierKey := by
    rw [h.scheduled]
    simp only [List.mem_map, frontierKey, Prod.mk.injEq]
    exact ⟨fun ⟨x, hx, hid⟩ => ⟨x.2, x, hx, hid, rfl⟩, fun ⟨k, x, hx, hid, _⟩ => ⟨x, hx, hid⟩⟩
  rw [hmem]
  constructor
  · rintro ⟨k, hk⟩
    obtain ⟨hle, hdist⟩ := (hcomplete id k).mp hk
    exact ⟨k, hle, hdist.1⟩
  · rintro ⟨k, hle, hsteps⟩
    obtain ⟨j, hj, hdist⟩ := hsteps.exists_distance
    exact ⟨j, (hcomplete id j).mpr ⟨le_trans (Nat.cast_le.mpr hj) hle, hdist⟩⟩

/-! ## The contract -/

theorem breadthFirst_of_start {startId : String} (options : TraversalOptions)
    (hstart : store.getNodeById startId = some start) :
    store.breadthFirst startId options =
      ⟨(store.frontierWalk (resolveWalkRequest options) start).reached,
        (store.frontierWalk (resolveWalkRequest options) start).recorded, [startId]⟩ := by
  rw [breadthFirst, hstart]

/-- For every store, start and options, with the edges into nodes that pass the kind filter. -/
theorem breadthFirst_contract (store : GraphReader) (startId : String)
    (options : TraversalOptions) :
    store.BreadthContract startId options (resolveWalkRequest options).passesKindFilter := by
  generalize hrequest : resolveWalkRequest options = request
  cases hstart : store.getNodeById startId with
  | none =>
      have hempty : store.breadthFirst startId options = emptyView := by
        rw [breadthFirst, hstart]
      constructor
      · intro start h
        cases hstart.symm.trans h
      · intro _
        rw [hempty]
        exact zero_le
      · rw [hempty]
        exact List.nodup_nil
      · rw [hempty]
        exact fun e he => absurd he List.not_mem_nil
      · rw [hempty]
        exact List.nodup_nil
      · intro _ n
        rw [hempty, InRange, hstart]
        simp [emptyView]
      · rw [hempty]
        exact fun _ u k _ _ e _ n hn => absurd hn List.not_mem_nil
  | some start =>
      obtain rfl := getNodeById_id hstart
      obtain ⟨⟨rest, hinv⟩, hend⟩ := @frontierWalk_end store request start hstart
      have hwalk := breadthFirst_of_start options hstart
      rw [hrequest] at hwalk
      have hiff := hinv.scheduled_iff hend
      constructor
      · intro start' h
        obtain rfl := Option.some.inj (hstart.symm.trans h)
        rw [hrequest]
        exact hend
      · rw [hwalk, hrequest]
        exact hinv.room
      · rw [hwalk]
        exact hinv.keys_nodup
      · rw [hwalk]
        intro e he id hid
        have hscheduled : id ∈ (store.frontierWalk request start).scheduled := by
          rcases List.mem_cons.mp hid with rfl | hid
          · exact (hinv.joined e he).1
          · rw [List.mem_singleton.mp hid]
            exact (hinv.joined e he).2
        rw [hinv.scheduled, hinv.line, List.map_cons] at hscheduled
        refine (List.mem_cons.mp hscheduled).imp_right fun hmem => ?_
        rw [hinv.reached, List.map_append, List.map_map]
        exact List.mem_append_right _ hmem
      · rw [hwalk, ← hinv.tidy.identities]
        exact hinv.tidy.distinct
      · rw [hwalk, hrequest]
        intro hroom n
        rw [hinv.mem_reached, hiff hroom, InRange, hstart, Option.isSome_some]
        constructor
        · exact fun ⟨hsteps, hstored, hincluded⟩ => ⟨hstored, rfl, hsteps, hincluded⟩
        · exact fun ⟨hstored, _, hsteps, hincluded⟩ => ⟨hsteps, hstored, hincluded⟩
      · rw [hwalk, hrequest]
        intro hroom u k hdist hopen e he n hn hid hfilter
        obtain ⟨-, hstored, hincluded⟩ := hinv.mem_reached.mp hn
        have hused := line_used_up hend hroom
        have hentry := (Breadth.Line.complete (hinv.breadth hroom) hused).mpr
          ⟨le_of_lt hopen, hdist⟩
        obtain ⟨x, hx, hkey⟩ := List.mem_map.mp hentry
        obtain ⟨rfl, rfl⟩ := Prod.mk.inj hkey
        have hclosed := hinv.closed hroom x (by rwa [List.take_of_length_le hused]) hopen e he n
          (hid ▸ hstored) hfilter hincluded
        rw [hinv.tidy.identities] at hclosed
        obtain ⟨r, hr, hsame⟩ := List.mem_map.mp hclosed
        exact ⟨r, hr, hsame⟩

/-- A class and a function that call each other. -/
def mutualCalls : GraphReader :=
  ofRows [⟨"s", .class, "s", "s", "f.ts", .typescript, 1⟩,
      ⟨"a", .function, "a", "a", "f.ts", .typescript, 2⟩]
    [⟨"s", "a", .calls, none, none, none, none⟩, ⟨"a", "s", .calls, none, none, none, none⟩]
    (by decide)

/-- The start is in the map although it does not pass the kind filter, and the edge back to it is
not recorded. -/
theorem breadthFirst_drops_edge :
    ¬ mutualCalls.BreadthContract "s" { nodeKinds := some [.function] } fun _ => True := by
  intro h
  have hop : mutualCalls.Hops (resolveWalkRequest { nodeKinds := some [.function] }) "s" "a" :=
    ⟨⟨"s", "a", .calls, none, none, none, none⟩, by decide, by decide,
      ⟨"a", .function, "a", "a", "f.ts", .typescript, 2⟩, by decide, by decide⟩
  have hdist : AtDistance (mutualCalls.Hops (resolveWalkRequest { nodeKinds := some [.function] }))
      (· = "s") 1 "a" := by
    refine ⟨.step (.source rfl) hop, fun j hj => ?_⟩
    cases j with
    | zero => exact absurd (steps_zero_iff.mp hj) (by decide)
    | succ j => omega
  obtain ⟨r, hr, hsame⟩ := h.closed (by decide) "a" 1 hdist (by decide)
    ⟨"a", "s", .calls, none, none, none, none⟩ (by decide)
    ⟨"s", .class, "s", "s", "f.ts", .typescript, 1⟩ (by decide) (by decide) trivial
  have hedges : (mutualCalls.breadthFirst "s" { nodeKinds := some [.function] }).edges =
      [⟨"s", "a", .calls, none, none, none, none⟩] := by decide
  rw [hedges, List.mem_singleton] at hr
  rw [hr] at hsame
  revert hsame
  decide

end GraphReader

end AfyxGraph.Graph
