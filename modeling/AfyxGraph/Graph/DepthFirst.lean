import AfyxGraph.Core.Descent
import AfyxGraph.Graph.BreadthFirst

/-! # The depth-first walk

A node is expanded at most once, at the depth at which it is first descended into. What it
expands is a `Descent` one level short of the depth limit; a node at the limit is reached and
left.
-/

namespace AfyxGraph.Graph

open AfyxGraph.Core Extraction

structure DescentFrame where
  node : Node
  depth : Nat
  adjacent : List Edge
  neighbours : Found
  cursor : Nat

/-- The top of the stack is its head. -/
structure DepthWalk where
  reached : List Node
  recorded : List Edge
  expanded : List String
  stack : List DescentFrame

namespace GraphReader

variable (store : GraphReader) (request : WalkRequest)

/-- The frame that `descend` makes, if it makes one, is pushed. -/
def descend (w : DepthWalk) (node : Node) (depth : Nat) : DepthWalk :=
  if node.id ∈ w.expanded ∨ request.limit ≤ w.reached.length ∨ request.maxDepth ≤ depth then w
  else
    let adjacent := store.adjacent request node.id
    let unseen := (adjacent.map (farEnd · node.id)).filter (· ∉ w.expanded ++ [node.id])
    { w with
      expanded := w.expanded ++ [node.id]
      stack := ⟨node, depth, adjacent, store.getNodesByIds unseen, 0⟩ :: w.stack }

/-- One turn of the loop. -/
def depthTurn (w : DepthWalk) : Option DepthWalk :=
  match w.stack with
  | [] => none
  | frame :: below =>
      match frame.adjacent[frame.cursor]? with
      | none => some { w with stack := below }
      | some edge =>
          if request.limit ≤ w.reached.length then some { w with stack := below }
          else
            let w := { w with stack := { frame with cursor := frame.cursor + 1 } :: below }
            let neighbourId := farEnd edge frame.node.id
            if neighbourId ∈ w.expanded then some w
            else
              match frame.neighbours.get neighbourId with
              | none => some w
              | some neighbour =>
                  if ¬ request.passesKindFilter neighbour then some w
                  else
                    some (store.descend request
                      { w with
                        reached := setNode w.reached neighbour
                        recorded := w.recorded ++ [edge] }
                      neighbour (frame.depth + 1))

def depthStart (start : Node) : DepthWalk :=
  store.descend request ⟨if request.includeStart then [start] else [], [], [], []⟩ start 0

/-- Every node is expanded once and its edges are passed one by one. -/
def depthTurns : Nat :=
  ((store.nodes.map (·.id)).map fun id => (store.adjacent request id).length + 1).sum

def depthWalk (start : Node) : DepthWalk :=
  loop (store.depthTurn request) (store.depthTurns request) (store.depthStart request start)

def depthFirst (startId : String) (options : TraversalOptions) : Subgraph :=
  let request := resolveWalkRequest options
  match store.getNodeById startId with
  | none => emptyView
  | some start =>
      let w := store.depthWalk request start
      ⟨w.reached, w.recorded, [startId]⟩

/-! ## What the walks are to agree on -/

def SameKeys (startId : String) (options : TraversalOptions) : Prop :=
  ∀ id, id ∈ (store.depthFirst startId options).nodes.map (·.id) ↔
    id ∈ (store.breadthFirst startId options).nodes.map (·.id)

/-- Where an edge around a node leads, if that exists and passes the kind filter. -/
def hopTarget (id : String) (edge : Edge) : Option String :=
  (store.getNodeById (farEnd edge id)).bind fun n =>
    if request.passesKindFilter n then some n.id else none

/-- The hops from a node, in the order of its edges. -/
def walkHops (id : String) : List (Hop String) :=
  (store.adjacent request id).filterMap fun e => (store.hopTarget request id e).map (⟨·, 1⟩)

/-- Every node within the depth, but the start, is one hop from a node with a leading trail of
fewer hops than the depth. -/
def Led (startId : String) (depth : Nat) : Prop :=
  ∃ lead, Descent.Leading (store.walkHops request) depth startId lead ∧
    ∀ v, v ≠ startId → (∃ k ≤ depth + 1, Steps (store.Hops request) (· = startId) k v) →
      ∃ u, (lead u).isSome = true ∧ store.Hops request u v

/-- Nothing is lost: the depth is no limit, leaves no room for a hop, or everything within it is
one hop from what is expanded. -/
def NoneLost (startId : String) (options : TraversalOptions) : Prop :=
  store.getNodeById startId = none ∨
    ∀ depth : Nat, (resolveWalkRequest options).maxDepth = depth + 1 →
      store.Led (resolveWalkRequest options) startId depth

/-! ## Hops -/

variable {store request} {start : Node} {w w' : DepthWalk}

theorem hopTarget_eq_some_iff {id v : String} {edge : Edge} :
    store.hopTarget request id edge = some v ↔ farEnd edge id = v ∧
      ∃ n, store.getNodeById v = some n ∧ request.passesKindFilter n := by
  unfold hopTarget
  constructor
  · intro h
    obtain ⟨n, hn, hif⟩ := Option.bind_eq_some_iff.mp h
    obtain ⟨hfilter, hid⟩ := Option.ite_none_right_eq_some.mp hif
    have hend : farEnd edge id = v := (getNodeById_id hn).symm.trans (Option.some.inj hid)
    exact ⟨hend, n, hend ▸ hn, hfilter⟩
  · rintro ⟨rfl, n, hn, hfilter⟩
    rw [hn, Option.bind_some, if_pos hfilter, getNodeById_id hn]

/-! ## What a turn can do -/

/-- A frame is left, an edge is passed over, or a node is reached. -/
theorem depthTurn_cases (h : store.depthTurn request w = some w') :
    ∃ frame below, w.stack = frame :: below ∧
      ((frame.adjacent[frame.cursor]? = none ∧ w' = { w with stack := below }) ∨
        ∃ edge, frame.adjacent[frame.cursor]? = some edge ∧
          ((request.limit ≤ w.reached.length ∧ w' = { w with stack := below }) ∨
            ¬ request.limit ≤ w.reached.length ∧
              (((farEnd edge frame.node.id ∈ w.expanded ∨ ∀ n,
                    frame.neighbours.get (farEnd edge frame.node.id) = some n →
                    ¬ request.passesKindFilter n) ∧
                  w' = { w with stack := { frame with cursor := frame.cursor + 1 } :: below }) ∨
                farEnd edge frame.node.id ∉ w.expanded ∧ ∃ neighbour,
                  frame.neighbours.get (farEnd edge frame.node.id) = some neighbour ∧
                  request.passesKindFilter neighbour ∧
                  w' = store.descend request
                    ⟨setNode w.reached neighbour, w.recorded ++ [edge], w.expanded,
                      { frame with cursor := frame.cursor + 1 } :: below⟩
                    neighbour (frame.depth + 1)))) := by
  unfold depthTurn at h
  cases hstack : w.stack with
  | nil => simp [hstack] at h
  | cons frame below =>
      refine ⟨frame, below, rfl, ?_⟩
      cases hedge : frame.adjacent[frame.cursor]? with
      | none =>
          simp only [hstack, hedge, Option.some.injEq] at h
          exact .inl ⟨rfl, h.symm⟩
      | some edge =>
          simp only [hstack, hedge] at h
          refine .inr ⟨edge, rfl, ?_⟩
          by_cases hlimit : request.limit ≤ w.reached.length
          · rw [if_pos hlimit, Option.some.injEq] at h
            exact .inl ⟨hlimit, h.symm⟩
          · rw [if_neg hlimit] at h
            refine .inr ⟨hlimit, ?_⟩
            by_cases hold : farEnd edge frame.node.id ∈ w.expanded
            · rw [if_pos hold, Option.some.injEq] at h
              exact .inl ⟨.inl hold, h.symm⟩
            · rw [if_neg hold] at h
              cases hget : frame.neighbours.get (farEnd edge frame.node.id) with
              | none =>
                  simp only [hget, Option.some.injEq] at h
                  exact .inl ⟨.inr (fun n hn => nomatch hn), h.symm⟩
              | some neighbour =>
                  simp only [hget] at h
                  by_cases hfilter : request.passesKindFilter neighbour
                  · simp only [hfilter, not_true_eq_false, if_false, Option.some.injEq] at h
                    exact .inr ⟨hold, neighbour, rfl, hfilter, h.symm⟩
                  · simp only [hfilter, not_false_eq_true, if_true, Option.some.injEq] at h
                    refine .inl ⟨.inr fun n hn => ?_, h.symm⟩
                    obtain rfl := Option.some.inj hn
                    exact hfilter

/-! ## The invariant -/

/-- The hops of a frame that are to be followed and descended into. -/
def DescentFrame.pending (store : GraphReader) (request : WalkRequest) (limit : Nat)
    (frame : DescentFrame) : List (String × Nat) :=
  if frame.depth < limit then
    (frame.adjacent.drop frame.cursor).filterMap fun e =>
      (store.hopTarget request frame.node.id e).map (·, frame.depth + 1)
  else []

/-- What a frame carries. -/
structure FrameInv (store : GraphReader) (request : WalkRequest) (start : Node)
    (expanded : List String) (frame : DescentFrame) : Prop where
  around : frame.adjacent = store.adjacent request frame.node.id
  met : frame.node.id ∈ expanded
  found : ∀ e ∈ frame.adjacent, farEnd e frame.node.id ∉ expanded →
    frame.neighbours.get (farEnd e frame.node.id) = store.getNodeById (farEnd e frame.node.id)
  shallow : (frame.depth : ℕ∞) < request.maxDepth
  steps : Steps (store.Hops request) (· = start.id) frame.depth frame.node.id

/-- An edge behind the cursor of a frame leads there. -/
def InFrame (stack : List DescentFrame) (u v : String) : Prop :=
  ∃ frame ∈ stack, frame.node.id = u ∧ ∃ e ∈ frame.adjacent.drop frame.cursor, farEnd e u = v

/-- What holds between two turns, whatever the limit. -/
structure DepthInv (store : GraphReader) (request : WalkRequest) (start : Node) (w : DepthWalk) :
    Prop where
  frames : ∀ frame ∈ w.stack, FrameInv store request start w.expanded frame
  rooted : w.stack ≠ [] → start.id ∈ w.expanded
  included : request.includeStart = true → start ∈ w.reached
  reached : ∀ n ∈ w.reached, store.getNodeById n.id = some n ∧
    (n = start ∧ request.includeStart = true ∨ n.id ≠ start.id ∧
      (∃ k : Nat, (k : ℕ∞) ≤ request.maxDepth ∧
        Steps (store.Hops request) (· = start.id) k n.id) ∧
      ∃ u ∈ w.expanded, store.Hops request u n.id)
  expanded : ∀ u ∈ w.expanded, u = start.id ∨ u ∈ w.reached.map (·.id)

/-- What holds while there is room. -/
structure RoomInv (store : GraphReader) (request : WalkRequest) (start : Node) (w : DepthWalk) :
    Prop where
  root : 0 < request.maxDepth → start.id ∈ w.expanded
  tried : ∀ u ∈ w.expanded, ∀ v, store.Hops request u v →
    v ∈ w.expanded ∨ v ∈ w.reached.map (·.id) ∨ InFrame w.stack u v
  deep : request.maxDepth = ⊤ → ∀ n ∈ w.reached, n.id ∈ w.expanded
  descends : ∀ limit : Nat, request.maxDepth = limit + 1 →
    ∃ s, Descent.Descends (store.walkHops request) limit start.id s ∧ s.nodes = w.expanded ∧
      s.costs = w.stack.flatMap (DescentFrame.pending store request limit)

theorem FrameInv.mono {expanded more : List String} {frame : DescentFrame}
    (h : FrameInv store request start expanded frame) (hsub : expanded ⊆ more) :
    FrameInv store request start more frame :=
  { h with
    met := hsub h.met
    found := fun e he hout => h.found e he fun hmem => hout (hsub hmem) }

/-- A cursor says nothing about what a frame carries. -/
theorem FrameInv.advance {expanded : List String} {frame : DescentFrame}
    (h : FrameInv store request start expanded frame) (cursor : Nat) :
    FrameInv store request start expanded { frame with cursor } :=
  ⟨h.around, h.met, h.found, h.shallow, h.steps⟩

theorem DepthInv.pop {frame : DescentFrame} {below : List DescentFrame}
    (h : DepthInv store request start w) (hstack : w.stack = frame :: below) :
    DepthInv store request start { w with stack := below } :=
  { h with
    frames := fun f hf => h.frames f (hstack ▸ List.mem_cons_of_mem _ hf)
    rooted := fun _ => h.rooted (by simp [hstack]) }

theorem DepthInv.advance {frame : DescentFrame} {below : List DescentFrame}
    (h : DepthInv store request start w) (hstack : w.stack = frame :: below) (cursor : Nat) :
    DepthInv store request start { w with stack := { frame with cursor } :: below } :=
  { h with
    frames := by
      intro f hf
      rcases List.mem_cons.mp hf with rfl | hf
      · exact (h.frames frame (hstack ▸ List.mem_cons_self ..)).advance cursor
      · exact h.frames f (hstack ▸ List.mem_cons_of_mem _ hf)
    rooted := fun _ => h.rooted (by simp [hstack]) }

theorem mem_setNode {nodes : List Node} {n m : Node}
    (hnodes : ∀ x ∈ nodes, store.getNodeById x.id = some x)
    (hn : store.getNodeById n.id = some n) : m ∈ setNode nodes n ↔ m ∈ nodes ∨ m = n := by
  unfold setNode
  split
  · rename_i hold
    have hsame : ∀ x ∈ nodes, (if x.id = n.id then n else x) = x := by
      intro x hx
      split
      · rename_i hid
        have hstored := hnodes x hx
        rw [hid, hn] at hstored
        exact Option.some.inj hstored
      · rfl
    have hmap : nodes.map (fun x => if x.id = n.id then n else x) = nodes := by
      conv_rhs => rw [← List.map_id nodes]
      exact List.map_congr_left hsame
    rw [hmap]
    refine ⟨.inl, fun h => h.elim (fun h => h) ?_⟩
    rintro rfl
    obtain ⟨x, hx, hid⟩ := hold
    have hstored := hnodes x hx
    rw [hid, hn] at hstored
    rw [Option.some.inj hstored]
    exact hx
  · simp

/-- A neighbour of the top frame is reached. -/
theorem DepthInv.reach {frame : DescentFrame} {below : List DescentFrame} {edge : Edge}
    {neighbour : Node} (h : DepthInv store request start w) (hstack : w.stack = frame :: below)
    (hedge : edge ∈ frame.adjacent) (hnew : farEnd edge frame.node.id ∉ w.expanded)
    (hget : frame.neighbours.get (farEnd edge frame.node.id) = some neighbour)
    (hfilter : request.passesKindFilter neighbour) :
    store.getNodeById neighbour.id = some neighbour ∧
      store.Hops request frame.node.id neighbour.id ∧
      Steps (store.Hops request) (· = start.id) (frame.depth + 1) neighbour.id ∧
      DepthInv store request start
        { w with reached := setNode w.reached neighbour, recorded := w.recorded ++ [edge] } := by
  have hframe := h.frames frame (hstack ▸ List.mem_cons_self ..)
  have hid := Found.get_id hget
  have hstored : store.getNodeById neighbour.id = some neighbour := by
    rw [hid, ← hframe.found edge hedge hnew, hget]
  have hop : store.Hops request frame.node.id neighbour.id :=
    ⟨edge, hframe.around ▸ hedge, hid.symm, neighbour, hstored, hfilter⟩
  have hsteps : Steps (store.Hops request) (· = start.id) (frame.depth + 1) neighbour.id :=
    .step hframe.steps hop
  have hmem : ∀ m, m ∈ setNode w.reached neighbour ↔ m ∈ w.reached ∨ m = neighbour :=
    fun m => mem_setNode (fun x hx => (h.reached x hx).1) hstored
  refine ⟨hstored, hop, hsteps, { h with included := ?_, reached := ?_, expanded := ?_ }⟩
  · exact fun hincluded => (hmem start).mpr (.inl (h.included hincluded))
  · intro n hn
    rcases (hmem n).mp hn with hn | rfl
    · exact h.reached n hn
    · refine ⟨hstored, .inr ⟨fun hstart => hnew ?_, ⟨frame.depth + 1, ?_, hsteps⟩, _, hframe.met,
        hop⟩⟩
      · rw [← hid, hstart]
        exact h.rooted (by simp [hstack])
      · rw [Nat.cast_add, Nat.cast_one]
        exact Order.add_one_le_of_lt hframe.shallow
  · intro u hu
    refine (h.expanded u hu).imp_right fun hmap => ?_
    obtain ⟨n, hn, rfl⟩ := List.mem_map.mp hmap
    exact List.mem_map_of_mem ((hmem n).mpr (.inl hn))

theorem descend_of_closed {node : Node} {depth : Nat} (h : request.maxDepth ≤ depth) :
    store.descend request w node depth = w := if_pos (.inr (.inr h))

theorem descend_of_open {node : Node} {depth : Nat} (hnew : node.id ∉ w.expanded)
    (hroom : ¬ request.limit ≤ w.reached.length) (hopen : ¬ request.maxDepth ≤ depth) :
    store.descend request w node depth =
      { w with
        expanded := w.expanded ++ [node.id]
        stack := ⟨node, depth, store.adjacent request node.id, store.getNodesByIds
          (((store.adjacent request node.id).map (farEnd · node.id)).filter
            (· ∉ w.expanded ++ [node.id])), 0⟩ :: w.stack } :=
  if_neg (by simp [hnew, hroom, hopen])

/-- Nothing but what is expanded and stacked changes. -/
theorem DepthInv.descend {node : Node} {depth : Nat} (h : DepthInv store request start w)
    (hsteps : Steps (store.Hops request) (· = start.id) depth node.id)
    (hknown : node.id = start.id ∨ node.id ∈ w.reached.map (·.id))
    (hroot : start.id ∈ w.expanded ∨ node.id = start.id) :
    DepthInv store request start (store.descend request w node depth) := by
  unfold GraphReader.descend
  split
  · exact h
  · rename_i hopen
    simp only [not_or] at hopen
    have hsub : w.expanded ⊆ w.expanded ++ [node.id] := List.subset_append_left _ _
    constructor
    · intro frame hframe
      rcases List.mem_cons.mp hframe with rfl | hframe
      · refine ⟨rfl, List.mem_append_right _ (List.mem_singleton_self _), fun e he hout => ?_,
          lt_of_not_ge hopen.2.2, hsteps⟩
        apply get_getNodesByIds
        exact List.mem_filter.mpr ⟨List.mem_map.mpr ⟨e, he, rfl⟩, by simpa using hout⟩
      · exact (h.frames frame hframe).mono hsub
    · intro _
      rcases hroot with hroot | hroot
      · exact hsub hroot
      · exact hroot ▸ List.mem_append_right _ (List.mem_singleton_self _)
    · exact h.included
    · intro n hn
      obtain ⟨hstored, hcase⟩ := h.reached n hn
      refine ⟨hstored, hcase.imp_right fun ⟨hne, hrange, u, hu, hop⟩ => ?_⟩
      exact ⟨hne, hrange, u, hsub hu, hop⟩
    · intro u hu
      rcases List.mem_append.mp hu with hu | hu
      · exact h.expanded u hu
      · rw [List.mem_singleton.mp hu]
        exact hknown

theorem drop_cursor {frame : DescentFrame} {edge : Edge}
    (h : frame.adjacent[frame.cursor]? = some edge) :
    frame.adjacent.drop frame.cursor = edge :: frame.adjacent.drop (frame.cursor + 1) := by
  obtain ⟨hlt, rfl⟩ := List.getElem?_eq_some_iff.mp h
  exact List.drop_eq_getElem_cons hlt

/-- An exhausted frame holds nothing. -/
theorem RoomInv.pop {frame : DescentFrame} {below : List DescentFrame}
    (h : RoomInv store request start w) (hstack : w.stack = frame :: below)
    (hdone : frame.adjacent[frame.cursor]? = none) :
    RoomInv store request start { w with stack := below } := by
  have hdrop : frame.adjacent.drop frame.cursor = [] :=
    List.drop_eq_nil_of_le (List.getElem?_eq_none_iff.mp hdone)
  refine ⟨h.root, fun u hu v hop => ?_, h.deep, fun limit hlimit => ?_⟩
  · refine (h.tried u hu v hop).imp_right fun hcase => hcase.imp_right ?_
    rintro ⟨f, hf, hfu, e, he, hend⟩
    rw [hstack] at hf
    rcases List.mem_cons.mp hf with rfl | hf
    · rw [hdrop] at he
      exact absurd he List.not_mem_nil
    · exact ⟨f, hf, hfu, e, he, hend⟩
  · obtain ⟨s, hs, hnodes, hcosts⟩ := h.descends limit hlimit
    have hnone : DescentFrame.pending store request limit frame = [] := by
      rw [DescentFrame.pending, hdrop]
      simp
    rw [hstack, List.flatMap_cons, hnone, List.nil_append] at hcosts
    exact ⟨s, hs, hnodes, hcosts⟩

/-- The pending hops of a frame, the next edge apart. -/
theorem pending_cons {frame : DescentFrame} {edge : Edge}
    (h : frame.adjacent[frame.cursor]? = some edge) (limit : Nat) :
    DescentFrame.pending store request limit frame =
      (if frame.depth < limit then
        ((store.hopTarget request frame.node.id edge).map (·, frame.depth + 1)).toList else []) ++
      DescentFrame.pending store request limit { frame with cursor := frame.cursor + 1 } := by
  unfold DescentFrame.pending
  by_cases hshallow : frame.depth < limit
  · simp only [hshallow, if_true]
    rw [drop_cursor h, List.filterMap_cons]
    cases store.hopTarget request frame.node.id edge <;> rfl
  · simp [hshallow]

/-- All hops of a new frame are pending. -/
theorem pending_start (node : Node) (depth : Nat) (found : Found) (limit : Nat) :
    DescentFrame.pending store request limit
        ⟨node, depth, store.adjacent request node.id, found, 0⟩ =
      if depth < limit then
        (store.walkHops request node.id).map fun h => (h.target, depth + h.cost)
      else [] := by
  unfold DescentFrame.pending walkHops
  rw [List.drop_zero, List.map_filterMap]
  simp only [Option.map_map]
  rfl

/-- An edge into an expanded node, or into none that counts, is passed over. -/
theorem RoomInv.skip {frame : DescentFrame} {below : List DescentFrame} {edge : Edge}
    (h : RoomInv store request start w) (hstack : w.stack = frame :: below)
    (hedge : frame.adjacent[frame.cursor]? = some edge)
    (hpass : ∀ v, store.hopTarget request frame.node.id edge = some v → v ∈ w.expanded) :
    RoomInv store request start
      { w with stack := { frame with cursor := frame.cursor + 1 } :: below } := by
  refine ⟨h.root, fun u hu v hop => ?_, h.deep, fun limit hlimit => ?_⟩
  · rcases h.tried u hu v hop with hmem | hmem | ⟨f, hf, rfl, e, he, rfl⟩
    · exact .inl hmem
    · exact .inr (.inl hmem)
    · rw [hstack] at hf
      rcases List.mem_cons.mp hf with rfl | hf
      · rw [drop_cursor hedge] at he
        rcases List.mem_cons.mp he with rfl | he
        · obtain ⟨-, -, -, n, hn, hfilter⟩ := hop
          exact .inl (hpass _ (hopTarget_eq_some_iff.mpr ⟨rfl, n, hn, hfilter⟩))
        · exact .inr (.inr ⟨_, List.mem_cons_self .., rfl, e, he, rfl⟩)
      · exact .inr (.inr ⟨f, List.mem_cons_of_mem _ hf, rfl, e, he, rfl⟩)
  · obtain ⟨s, hs, hnodes, hcosts⟩ := h.descends limit hlimit
    rw [hstack, List.flatMap_cons, pending_cons hedge] at hcosts
    by_cases hshallow : frame.depth < limit
    · rw [if_pos hshallow] at hcosts
      cases htarget : store.hopTarget request frame.node.id edge with
      | none =>
          rw [htarget] at hcosts
          exact ⟨s, hs, hnodes, hcosts⟩
      | some v =>
          rw [htarget] at hcosts
          obtain ⟨t, ht, hrest, hsame⟩ := hs.skip hcosts (hnodes ▸ hpass v htarget)
          exact ⟨t, ht, hsame.trans hnodes, hrest⟩
    · rw [if_neg hshallow] at hcosts
      exact ⟨s, hs, hnodes, hcosts⟩

/-- A neighbour is reached, and descended into unless it lies at the depth limit. -/
theorem RoomInv.reach {frame : DescentFrame} {below : List DescentFrame} {edge : Edge}
    {neighbour : Node} (h : RoomInv store request start w) (hstack : w.stack = frame :: below)
    (hedge : frame.adjacent[frame.cursor]? = some edge)
    (hstored : ∀ n ∈ w.reached, store.getNodeById n.id = some n)
    (hneighbour : store.getNodeById neighbour.id = some neighbour)
    (htarget : store.hopTarget request frame.node.id edge = some neighbour.id)
    (hnew : neighbour.id ∉ w.expanded)
    (hroom : ((setNode w.reached neighbour).length : ℕ∞) < request.limit) :
    RoomInv store request start
      (store.descend request
        ⟨setNode w.reached neighbour, w.recorded ++ [edge], w.expanded,
          { frame with cursor := frame.cursor + 1 } :: below⟩
        neighbour (frame.depth + 1)) := by
  have hmem : ∀ m, m ∈ setNode w.reached neighbour ↔ m ∈ w.reached ∨ m = neighbour :=
    fun m => mem_setNode hstored hneighbour
  have hkey : neighbour.id ∈ (setNode w.reached neighbour).map (·.id) :=
    List.mem_map_of_mem ((hmem neighbour).mpr (.inr rfl))
  have hend : farEnd edge frame.node.id = neighbour.id := (hopTarget_eq_some_iff.mp htarget).1
  -- the edge that is followed leads to what is reached
  have htried : ∀ u ∈ w.expanded, ∀ v, store.Hops request u v →
      v ∈ w.expanded ∨ v ∈ (setNode w.reached neighbour).map (·.id) ∨
        InFrame ({ frame with cursor := frame.cursor + 1 } :: below) u v := by
    intro u hu v hop
    rcases h.tried u hu v hop with hold | hold | ⟨f, hf, rfl, e, he, rfl⟩
    · exact .inl hold
    · obtain ⟨n, hn, rfl⟩ := List.mem_map.mp hold
      exact .inr (.inl (List.mem_map_of_mem ((hmem n).mpr (.inl hn))))
    · rw [hstack] at hf
      rcases List.mem_cons.mp hf with rfl | hf
      · rw [drop_cursor hedge] at he
        rcases List.mem_cons.mp he with rfl | he
        · exact .inr (.inl (hend ▸ hkey))
        · exact .inr (.inr ⟨_, List.mem_cons_self .., rfl, e, he, rfl⟩)
      · exact .inr (.inr ⟨f, List.mem_cons_of_mem _ hf, rfl, e, he, rfl⟩)
  by_cases hdeep : request.maxDepth ≤ ((frame.depth + 1 : Nat) : ℕ∞)
  · rw [descend_of_closed hdeep]
    refine ⟨h.root, htried, fun htop => ?_, fun limit hlimit => ?_⟩
    · rw [htop] at hdeep
      exact absurd hdeep (not_le_of_gt (WithTop.coe_lt_top _))
    · obtain ⟨s, hs, hnodes, hcosts⟩ := h.descends limit hlimit
      have hle : limit ≤ frame.depth := by
        rw [hlimit] at hdeep
        exact Nat.le_of_succ_le_succ (Nat.cast_le.mp hdeep)
      rw [hstack, List.flatMap_cons, pending_cons hedge, if_neg (by omega)] at hcosts
      exact ⟨s, hs, hnodes, hcosts⟩
  · have hopen := @descend_of_open store request
      ⟨setNode w.reached neighbour, w.recorded ++ [edge], w.expanded,
        { frame with cursor := frame.cursor + 1 } :: below⟩
      neighbour (frame.depth + 1) hnew (not_le_of_gt hroom) hdeep
    rw [hopen]
    have hsub : w.expanded ⊆ w.expanded ++ [neighbour.id] := List.subset_append_left _ _
    refine ⟨fun hpos => hsub (h.root hpos), fun u hu v hop => ?_, fun htop n hn => ?_,
      fun limit hlimit => ?_⟩
    · rcases List.mem_append.mp hu with hu | hu
      · rcases htried u hu v hop with hold | hold | ⟨f, hf, hrest⟩
        · exact .inl (hsub hold)
        · exact .inr (.inl hold)
        · exact .inr (.inr ⟨f, List.mem_cons_of_mem _ hf, hrest⟩)
      · obtain rfl := List.mem_singleton.mp hu
        obtain ⟨e, he, hfar, -⟩ := hop
        exact .inr (.inr ⟨_, List.mem_cons_self .., rfl, e, he, hfar⟩)
    · rcases (hmem n).mp hn with hn | rfl
      · exact hsub (h.deep htop n hn)
      · exact List.mem_append_right _ (List.mem_singleton_self _)
    · obtain ⟨s, hs, hnodes, hcosts⟩ := h.descends limit hlimit
      have hshallow : frame.depth < limit := by
        rw [hlimit] at hdeep
        have hlt : frame.depth + 1 < limit + 1 := Nat.cast_lt.mp (lt_of_not_ge hdeep)
        omega
      rw [hstack, List.flatMap_cons, pending_cons hedge, if_pos hshallow, htarget] at hcosts
      obtain ⟨t, ht, hrest, hmet⟩ := hs.meet hcosts (hnodes ▸ hnew)
      refine ⟨t, ht, by rw [hmet, hnodes], ?_⟩
      rw [hrest, List.flatMap_cons, pending_start]
      rfl

/-! ## The walk -/

theorem descend_reached (w : DepthWalk) (node : Node) (depth : Nat) :
    (store.descend request w node depth).reached = w.reached := by
  unfold GraphReader.descend
  split <;> rfl

theorem length_le_setNode (nodes : List Node) (n : Node) :
    nodes.length ≤ (setNode nodes n).length := by
  unfold setNode
  split
  · rw [List.length_map]
  · rw [List.length_append]
    omega

/-- What holds between two turns. -/
structure WalkInv (store : GraphReader) (request : WalkRequest) (start : Node) (w : DepthWalk) :
    Prop where
  depth : DepthInv store request start w
  room : (w.reached.length : ℕ∞) < request.limit → RoomInv store request start w

theorem walkInv_start (hstart : store.getNodeById start.id = some start) :
    WalkInv store request start (store.depthStart request start) := by
  have hbase : DepthInv store request start
      ⟨if request.includeStart then [start] else [], [], [], []⟩ := by
    refine ⟨fun f hf => absurd hf List.not_mem_nil, fun h => absurd rfl h, fun h => by simp [h],
      fun n hn => ?_, fun u hu => absurd hu List.not_mem_nil⟩
    obtain ⟨hincluded, hn⟩ := List.mem_ite_nil_right.mp hn
    obtain rfl := List.mem_singleton.mp hn
    exact ⟨hstart, .inl ⟨rfl, hincluded⟩⟩
  refine ⟨hbase.descend (.source rfl) (.inl rfl) (.inr rfl), fun hroom => ?_⟩
  rw [depthStart, descend_reached] at hroom
  by_cases hzero : request.maxDepth ≤ ((0 : Nat) : ℕ∞)
  · rw [depthStart, descend_of_closed hzero]
    refine ⟨fun hpos => absurd hzero (not_le_of_gt hpos), fun u hu => absurd hu List.not_mem_nil,
      fun htop => ?_, fun limit hlimit => ?_⟩
    · rw [htop] at hzero
      exact absurd hzero (not_le_of_gt (WithTop.coe_lt_top _))
    · rw [hlimit] at hzero
      exact absurd (Nat.cast_le.mp hzero) (Nat.not_succ_le_zero limit)
  · have hopen := @descend_of_open store request
      ⟨if request.includeStart then [start] else [], [], [], []⟩ start 0 List.not_mem_nil
      (not_le_of_gt hroom) hzero
    rw [depthStart, hopen]
    refine ⟨fun _ => List.mem_singleton_self _, fun u hu v hop => ?_, fun _ n hn => ?_,
      fun limit _ => ?_⟩
    · obtain rfl := List.mem_singleton.mp hu
      obtain ⟨e, he, hfar, -⟩ := hop
      exact .inr (.inr ⟨_, List.mem_cons_self .., rfl, e, he, hfar⟩)
    · obtain rfl := List.mem_singleton.mp (List.mem_ite_nil_right.mp hn).2
      exact List.mem_singleton_self _
    · obtain ⟨t, ht, hrest, hmet⟩ :=
        (@Descent.Descends.init _ _ (store.walkHops request) limit start.id).meet rfl
          List.not_mem_nil
      refine ⟨t, ht, hmet, ?_⟩
      rw [hrest, List.flatMap_cons, pending_start]
      rfl

/-- The turns that are left. -/
def depthLeft (store : GraphReader) (request : WalkRequest) (w : DepthWalk) : Nat :=
  unmarked (fun id => (store.adjacent request id).length + 1) (store.nodes.map (·.id)) w.expanded +
    (w.stack.map fun frame => frame.adjacent.length - frame.cursor + 1).sum

/-- Descending takes what it stacks off what is not expanded. -/
theorem depthLeft_descend {node : Node} {depth : Nat}
    (hstored : store.getNodeById node.id = some node) :
    depthLeft store request (store.descend request w node depth) ≤ depthLeft store request w := by
  unfold GraphReader.descend
  split
  · exact Nat.le_refl _
  · rename_i hopen
    simp only [not_or] at hopen
    have hmem : node.id ∈ store.nodes.map (·.id) := List.mem_map_of_mem (getNodeById_mem hstored)
    have hmark := @unmarked_mark String _ (fun id => (store.adjacent request id).length + 1) _ _ _
      hmem hopen.1
    simp only [depthLeft, List.map_cons, List.sum_cons, Nat.sub_zero]
    omega

theorem depthTurn_inv (h : WalkInv store request start w)
    (hturn : store.depthTurn request w = some w') :
    WalkInv store request start w' ∧ depthLeft store request w' < depthLeft store request w := by
  obtain ⟨frame, below, hstack, hcase⟩ := depthTurn_cases hturn
  have hframe := h.depth.frames frame (hstack ▸ List.mem_cons_self ..)
  have hpop : depthLeft store request { w with stack := below } < depthLeft store request w := by
    simp only [depthLeft, hstack, List.map_cons, List.sum_cons]
    omega
  rcases hcase with ⟨hdone, rfl⟩ | ⟨edge, hedge, hcase⟩
  · exact ⟨⟨h.depth.pop hstack, fun hroom => (h.room hroom).pop hstack hdone⟩, hpop⟩
  · have hlt := (List.getElem?_eq_some_iff.mp hedge).1
    have hmem : edge ∈ frame.adjacent := List.mem_of_getElem? hedge
    rcases hcase with ⟨hlimit, rfl⟩ | ⟨hlimit, hcase⟩
    · exact ⟨⟨h.depth.pop hstack, fun hroom => absurd hlimit (not_le_of_gt hroom)⟩, hpop⟩
    · rcases hcase with ⟨hpass, rfl⟩ | ⟨hnew, neighbour, hget, hfilter, rfl⟩
      · refine ⟨⟨h.depth.advance hstack _, fun hroom => ?_⟩, ?_⟩
        · refine (h.room hroom).skip hstack hedge fun v hv => ?_
          obtain ⟨hend, n, hn, hfilter⟩ := hopTarget_eq_some_iff.mp hv
          by_cases hold : v ∈ w.expanded
          · exact hold
          · subst hend
            rcases hpass with hpass | hpass
            · exact absurd hpass hold
            · exact absurd hfilter (hpass n (hframe.found edge hmem hold ▸ hn))
        · simp only [depthLeft, hstack, List.map_cons, List.sum_cons]
          omega
      · obtain ⟨hstored, hop, hsteps, hreach⟩ :=
          h.depth.reach hstack hmem hnew hget hfilter
        have hid := Found.get_id hget
        have hadvance := hreach.advance hstack (frame.cursor + 1)
        have hkey : neighbour.id ∈ (setNode w.reached neighbour).map (·.id) :=
          List.mem_map_of_mem
            ((mem_setNode (fun x hx => (h.depth.reached x hx).1) hstored).mpr (.inr rfl))
        refine ⟨⟨hadvance.descend hsteps (.inr hkey) (.inl (h.depth.rooted (by simp [hstack]))),
          fun hroom => ?_⟩, ?_⟩
        · rw [descend_reached] at hroom
          have hbefore : (w.reached.length : ℕ∞) < request.limit :=
            lt_of_le_of_lt (Nat.cast_le.mpr (length_le_setNode _ _)) hroom
          exact (h.room hbefore).reach hstack hedge (fun n hn => (h.depth.reached n hn).1) hstored
            (hopTarget_eq_some_iff.mpr ⟨hid.symm, neighbour, hstored, hfilter⟩) (hid ▸ hnew) hroom
        · refine Nat.lt_of_le_of_lt (depthLeft_descend hstored) ?_
          simp only [depthLeft, hstack, List.map_cons, List.sum_cons]
          omega

theorem depthWalk_end (hstart : store.getNodeById start.id = some start) :
    WalkInv store request start (store.depthWalk request start) ∧
      (store.depthWalk request start).stack = [] := by
  have hkeeps : ∀ w w', WalkInv store request start w → store.depthTurn request w = some w' →
      WalkInv store request start w' := fun w w' h hturn => (depthTurn_inv h hturn).1
  have hfirst := @walkInv_start store request start hstart
  refine ⟨loop_invariant hkeeps _ hfirst, ?_⟩
  have hnone : store.depthTurn request (store.depthWalk request start) = none := by
    apply @loop_stops _ _ _ (depthLeft store request) hkeeps ?_ _ _ hfirst
    · refine Nat.le_trans (depthLeft_descend hstart) ?_
      have hall := unmarked_le (fun id => (store.adjacent request id).length + 1)
        (store.nodes.map (·.id)) []
      exact hall
    · exact fun w w' h hturn => (depthTurn_inv h hturn).2
  unfold depthTurn at hnone
  cases hstack : (store.depthWalk request start).stack with
  | nil => rfl
  | cons frame below =>
      exfalso
      rw [hstack] at hnone
      dsimp only at hnone
      split at hnone
      · simp at hnone
      · split at hnone
        · simp at hnone
        · split at hnone
          · simp at hnone
          · split at hnone
            · simp at hnone
            · split at hnone <;> simp at hnone

/-! ## What the walk reaches -/

variable {id : String}

/-- With room left, what is reached besides the start is one hop from what is expanded. -/
theorem WalkInv.mem_iff (h : WalkInv store request start w) (hend : w.stack = [])
    (hroom : (w.reached.length : ℕ∞) < request.limit) (hne : id ≠ start.id) :
    id ∈ w.reached.map (·.id) ↔ ∃ u ∈ w.expanded, store.Hops request u id := by
  constructor
  · intro hmem
    obtain ⟨n, hn, rfl⟩ := List.mem_map.mp hmem
    rcases (h.depth.reached n hn).2 with ⟨rfl, -⟩ | ⟨-, -, hhop⟩
    · exact absurd rfl hne
    · exact hhop
  · rintro ⟨u, hu, hop⟩
    rcases (h.room hroom).tried u hu id hop with hmem | hmem | ⟨f, hf, -⟩
    · exact (h.depth.expanded id hmem).resolve_left hne
    · exact hmem
    · rw [hend] at hf
      exact absurd hf List.not_mem_nil

/-- Without a depth limit everything reachable is expanded. -/
theorem WalkInv.expanded_of_steps (h : WalkInv store request start w) (hend : w.stack = [])
    (hroom : (w.reached.length : ℕ∞) < request.limit) (htop : request.maxDepth = ⊤) {k : Nat}
    (hsteps : Steps (store.Hops request) (· = start.id) k id) : id ∈ w.expanded := by
  have hinv := h.room hroom
  induction hsteps with
  | source hsource =>
      subst hsource
      exact hinv.root (htop ▸ WithTop.coe_lt_top 0)
  | step _ hop ih =>
      rcases hinv.tried _ ih _ hop with hmem | hmem | ⟨f, hf, -⟩
      · exact hmem
      · obtain ⟨n, hn, rfl⟩ := List.mem_map.mp hmem
        exact hinv.deep htop n hn
      · rw [hend] at hf
        exact absurd hf List.not_mem_nil

/-- Every node in range is reached, if and only if nothing is lost. -/
theorem WalkInv.reaches_iff (h : WalkInv store request start w) (hend : w.stack = [])
    (hroom : (w.reached.length : ℕ∞) < request.limit) :
    (∀ v, v ≠ start.id → (∃ k : Nat, (k : ℕ∞) ≤ request.maxDepth ∧
        Steps (store.Hops request) (· = start.id) k v) → v ∈ w.reached.map (·.id)) ↔
      ∀ depth : Nat, request.maxDepth = depth + 1 → store.Led request start.id depth := by
  constructor
  · intro hall depth hdepth
    obtain ⟨s, hs, hnodes, hcosts⟩ := (h.room hroom).descends depth hdepth
    rw [hend] at hcosts
    have hpending : s.pending = [] := List.map_eq_nil_iff.mp hcosts
    refine ⟨_, hs.leading hpending, fun v hne ⟨k, hk, hsteps⟩ => ?_⟩
    have hrange : (k : ℕ∞) ≤ request.maxDepth := by
      rw [hdepth]
      exact Nat.cast_le.mpr hk
    obtain ⟨u, hu, hop⟩ := (h.mem_iff hend hroom hne).mp (hall v hne ⟨k, hrange, hsteps⟩)
    exact ⟨u, (hs.met_iff hpending (hs.leading hpending)).mp (hnodes ▸ hu), hop⟩
  · rintro hled v hne ⟨k, hk, hsteps⟩
    rw [h.mem_iff hend hroom hne]
    cases hdepth : request.maxDepth with
    | top =>
        cases hsteps with
        | source hsource => exact absurd hsource hne
        | step walk hop => exact ⟨_, h.expanded_of_steps hend hroom hdepth walk, hop⟩
    | coe depth =>
        rw [hdepth] at hk
        cases depth with
        | zero =>
            obtain rfl : k = 0 := Nat.le_zero.mp (Nat.cast_le.mp hk)
            exact absurd (steps_zero_iff.mp hsteps) hne
        | succ depth =>
            obtain ⟨s, hs, hnodes, hcosts⟩ := (h.room hroom).descends depth hdepth
            rw [hend] at hcosts
            have hpending : s.pending = [] := List.map_eq_nil_iff.mp hcosts
            obtain ⟨lead, hleading, hone⟩ := hled depth hdepth
            obtain ⟨u, hu, hop⟩ := hone v hne ⟨k, Nat.cast_le.mp hk, hsteps⟩
            exact ⟨u, hnodes ▸ (hs.met_iff hpending hleading).mpr hu, hop⟩

/-- What the breadth-first walk reaches besides the start. -/
theorem mem_breadthFirst_iff {options : TraversalOptions}
    (hstart : store.getNodeById start.id = some start)
    (hroom : ((store.breadthFirst start.id options).nodes.length : ℕ∞) <
      (resolveWalkRequest options).limit) (hne : id ≠ start.id) :
    id ∈ (store.breadthFirst start.id options).nodes.map (·.id) ↔
      ∃ k : Nat, (k : ℕ∞) ≤ (resolveWalkRequest options).maxDepth ∧
        Steps (store.Hops (resolveWalkRequest options)) (· = start.id) k id := by
  have hexact := (breadthFirst_contract store start.id options).exact_ hroom
  rw [List.mem_map]
  constructor
  · rintro ⟨n, hn, rfl⟩
    exact ((hexact n).mp hn).2.2.1
  · rintro ⟨k, hk, hsteps⟩
    cases hsteps with
    | source hsource => exact absurd hsource hne
    | step walk hop =>
        obtain ⟨n, hn, -⟩ := hop.choose_spec.2.2
        have hid := getNodeById_id hn
        refine ⟨n, (hexact n).mpr ⟨hid.symm ▸ hn, by rw [hstart]; rfl, ⟨_, hk, ?_⟩, ?_⟩, hid⟩
        · rw [hid]
          exact .step walk hop
        · exact fun hsame => absurd (hid ▸ hsame) hne

/-- Both walks reach the start when it is included. -/
theorem start_mem_breadthFirst {options : TraversalOptions}
    (hstart : store.getNodeById start.id = some start)
    (hroom : ((store.breadthFirst start.id options).nodes.length : ℕ∞) <
      (resolveWalkRequest options).limit) :
    start.id ∈ (store.breadthFirst start.id options).nodes.map (·.id) ↔
      (resolveWalkRequest options).includeStart = true := by
  have hexact := (breadthFirst_contract store start.id options).exact_ hroom
  rw [List.mem_map]
  constructor
  · rintro ⟨n, hn, hid⟩
    exact ((hexact n).mp hn).2.2.2 hid
  · intro hincluded
    exact ⟨start, (hexact start).mpr ⟨hstart, by rw [hstart]; rfl, ⟨0, zero_le, .source rfl⟩,
      fun _ => hincluded⟩, rfl⟩

theorem WalkInv.start_mem (h : WalkInv store request start w) :
    start.id ∈ w.reached.map (·.id) ↔ request.includeStart = true := by
  constructor
  · intro hmem
    obtain ⟨n, hn, hid⟩ := List.mem_map.mp hmem
    rcases (h.depth.reached n hn).2 with ⟨-, hincluded⟩ | ⟨hne, -⟩
    · exact hincluded
    · exact absurd hid hne
  · exact fun hincluded => List.mem_map_of_mem (h.depth.included hincluded)

/-- The walks agree when neither uses up its budget, exactly when nothing is lost. -/
theorem sameKeys_iff (store : GraphReader) (startId : String) (options : TraversalOptions)
    (hdepth : ((store.depthFirst startId options).nodes.length : ℕ∞) <
      (resolveWalkRequest options).limit)
    (hbreadth : ((store.breadthFirst startId options).nodes.length : ℕ∞) <
      (resolveWalkRequest options).limit) :
    store.SameKeys startId options ↔ store.NoneLost startId options := by
  cases hstart : store.getNodeById startId with
  | none =>
      refine ⟨fun _ => .inl hstart, fun _ id => ?_⟩
      simp only [depthFirst, breadthFirst, hstart]
  | some start =>
      obtain rfl := getNodeById_id hstart
      obtain ⟨hinv, hend⟩ := @depthWalk_end store (resolveWalkRequest options) start hstart
      have hwalk : store.depthFirst start.id options =
          ⟨(store.depthWalk (resolveWalkRequest options) start).reached,
            (store.depthWalk (resolveWalkRequest options) start).recorded, [start.id]⟩ := by
        rw [depthFirst, hstart]
      rw [hwalk] at hdepth
      have hiff := hinv.reaches_iff hend hdepth
      have hnone : store.NoneLost start.id options ↔ ∀ depth : Nat,
          (resolveWalkRequest options).maxDepth = depth + 1 →
            store.Led (resolveWalkRequest options) start.id depth := by
        rw [NoneLost, hstart]
        simp
      rw [hnone, ← hiff, SameKeys, hwalk]
      constructor
      · intro hsame v hne hrange
        exact (hsame v).mpr ((mem_breadthFirst_iff hstart hbreadth hne).mpr hrange)
      · intro hall v
        by_cases hne : v = start.id
        · rw [hne, hinv.start_mem, start_mem_breadthFirst hstart hbreadth]
        · rw [mem_breadthFirst_iff hstart hbreadth hne]
          refine ⟨fun hmem => ?_, hall v hne⟩
          obtain ⟨n, hn, rfl⟩ := List.mem_map.mp hmem
          rcases (hinv.depth.reached n hn).2 with ⟨rfl, -⟩ | ⟨-, hrange, -⟩
          · exact absurd rfl hne
          · exact hrange

/-- The diamond with one more call. -/
def longDiamond : GraphReader :=
  ofRows (["s", "a", "b", "c", "d"].map fun id => ⟨id, .function, id, id, "f.ts", .typescript, 1⟩)
    ([("s", "a"), ("s", "b"), ("a", "b"), ("b", "c"), ("c", "d")].map fun (source, target) =>
      ⟨source, target, .calls, none, none, none, none⟩)
    (by decide)

theorem sameKeys_iff_unlimited :
    longDiamond.SameKeys "s" {} ↔ longDiamond.NoneLost "s" {} :=
  sameKeys_iff longDiamond "s" {} (by decide) (by decide)

/-- Through `a`, the node `b` is expanded at depth 2, and `c` is reached at the limit. -/
theorem sameKeys_fails :
    ((longDiamond.depthFirst "s" { maxDepth := some 3 }).nodes.length : ℕ∞) < 1000 ∧
      ((longDiamond.breadthFirst "s" { maxDepth := some 3 }).nodes.length : ℕ∞) < 1000 ∧
      ¬ longDiamond.SameKeys "s" { maxDepth := some 3 } := by
  refine ⟨by decide, by decide, fun h => ?_⟩
  have hsame := h "d"
  revert hsame
  decide

end GraphReader

end AfyxGraph.Graph
