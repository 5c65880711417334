import AfyxGraph.Core.Descent
import AfyxGraph.Core.Loop
import AfyxGraph.Graph.Reader

/-! # Blast radius

`impactOf` follows dependency edges backwards and goes into the members of a
class-like node at no cost. It descends like `followCalls`, with one membership set,
and is a `Descent` with hops of cost zero and one.
-/

namespace AfyxGraph.Graph

open AfyxGraph.Core Extraction

def memberHoldingKinds : List NodeKind :=
  [.class, .interface, .struct, .union, .trait, .protocol, .module, .enum]

structure Subgraph where
  /-- In the order of the map. -/
  nodes : List Node
  edges : List Edge
  roots : List String
  deriving DecidableEq, Repr

def emptyView : Subgraph := ⟨[], [], []⟩

/-- `nodes.set(node.id, node)` -/
def setNode (nodes : List Node) (node : Node) : List Node :=
  if ∃ n ∈ nodes, n.id = node.id then nodes.map fun n => if n.id = node.id then node else n
  else nodes ++ [node]

namespace GraphReader

variable (store : GraphReader)

/-- The contained nodes of a member-holding node, each with its edge. -/
def memberEdges (node : Node) : List (Edge × Option Node) :=
  if node.kind ∈ memberHoldingKinds then
    let contained := store.getOutgoingEdges node.id [.contains]
    let found := store.getNodesByIds (contained.map (·.target))
    contained.map fun edge => (edge, found.get edge.target)
  else []

/-- The nodes that depend on a node, each with its edge. -/
def dependentEdges (node : Node) : List (Edge × Option Node) :=
  let incoming := (store.getIncomingEdges node.id []).filter fun edge => edge.kind ≠ .contains
  let found := store.getNodesByIds (incoming.map (·.source))
  incoming.map fun edge => (edge, found.get edge.source)

/-! ## The walk -/

/-- What is left of the two lists of a frame. -/
structure ReachFrame where
  depth : Nat
  members : List (Edge × Option Node)
  dependents : List (Edge × Option Node)

structure ImpactWalk where
  stack : List ReachFrame
  met : List String
  nodes : List Node
  edges : List Edge

def ImpactWalk.openFrame (maxDepth : Nat) (w : ImpactWalk) (node : Node) (depth : Nat) :
    ImpactWalk :=
  if node.id ∈ w.met then w
  else if maxDepth ≤ depth then { w with met := w.met ++ [node.id] }
  else
    { w with
      met := w.met ++ [node.id]
      stack := ⟨depth, store.memberEdges node, store.dependentEdges node⟩ :: w.stack }

/-- One turn of the `while` loop. -/
def impactOfTurn (maxDepth : Nat) (w : ImpactWalk) : Option ImpactWalk :=
  match w.stack with
  | [] => none
  | frame :: below =>
      match frame.members with
      | (edge, member) :: members =>
          let w := { w with stack := { frame with members } :: below }
          match member with
          | none => some w
          | some member =>
              if member.id ∈ w.met then some w
              else
                some (ImpactWalk.openFrame store maxDepth
                  { w with nodes := setNode w.nodes member, edges := w.edges ++ [edge] }
                  member frame.depth)
      | [] =>
          match frame.dependents with
          | (edge, dependent) :: dependents =>
              let w := { w with stack := { frame with dependents } :: below }
              match dependent with
              | none => some w
              | some dependent =>
                  let w := { w with edges := w.edges ++ [edge] }
                  if dependent.id ∈ w.met then some w
                  else
                    some (ImpactWalk.openFrame store maxDepth
                      { w with nodes := setNode w.nodes dependent } dependent (frame.depth + 1))
          | [] => some { w with stack := below }

/-- A frame takes a turn for each of its edges and one to be popped. -/
def frameTurns (node : Node) : Nat :=
  (store.memberEdges node).length + (store.dependentEdges node).length + 1

def turnsAt (id : String) : Nat := ((store.getNodeById id).map store.frameTurns).getD 0

/-- Every node is opened once. -/
def impactTurns : Nat := ((store.nodes.map (·.id)).map store.turnsAt).sum

def impactOf (nodeId : String) (maxDepth : Nat) : Subgraph :=
  match store.getNodeById nodeId with
  | none => emptyView
  | some focal =>
      let root := ImpactWalk.openFrame store maxDepth ⟨[], [], [focal], []⟩ focal 0
      let w := loop (store.impactOfTurn maxDepth) store.impactTurns root
      ⟨w.nodes, w.edges, [nodeId]⟩

/-! ## What is affected -/

/-- A walk from the focal node with its cost: from a member-holding node to a member for
nothing, or against a dependency edge. A node is left only below the limit. -/
inductive Affects (maxDepth : Nat) (focal : Node) : Nat → Node → Prop
  | focal : Affects maxDepth focal 0 focal
  | member {c : Nat} {node member : Node} {e : Edge} (walk : Affects maxDepth focal c node)
      (room : c < maxDepth) (holds : node.kind ∈ memberHoldingKinds)
      (mem : e ∈ store.getOutgoingEdges node.id [.contains])
      (exists_ : store.getNodeById e.target = some member) : Affects maxDepth focal c member
  | dependent {c : Nat} {node dependent : Node} {e : Edge}
      (walk : Affects maxDepth focal c node) (room : c < maxDepth)
      (mem : e ∈ store.getIncomingEdges node.id []) (kind : e.kind ≠ .contains)
      (exists_ : store.getNodeById e.source = some dependent) :
      Affects maxDepth focal (c + 1) dependent

/-- The nodes returned are those within the limit, the focal node among them. -/
def CompleteImpact (nodeId : String) (maxDepth : Nat) : Prop :=
  ∀ focal, store.getNodeById nodeId = some focal →
    focal ∈ (store.impactOf nodeId maxDepth).nodes ∧
      ∀ n, n ∈ (store.impactOf nodeId maxDepth).nodes ↔
        ∃ c ≤ maxDepth, store.Affects maxDepth focal c n

/-! ## The descent behind the walk -/

/-- The hops of a node: its members first. -/
def nodeHops (node : Node) : List (Hop String) :=
  (store.memberEdges node).filterMap (fun p => p.2.map fun n => ⟨n.id, 0⟩) ++
    (store.dependentEdges node).filterMap fun p => p.2.map fun n => ⟨n.id, 1⟩

def impactHops (id : String) : List (Hop String) :=
  ((store.getNodeById id).map store.nodeHops).getD []

/-- What a frame has still to try. -/
def ReachFrame.pending (frame : ReachFrame) : List (String × Nat) :=
  frame.members.filterMap (fun p => p.2.map fun n => (n.id, frame.depth)) ++
    frame.dependents.filterMap fun p => p.2.map fun n => (n.id, frame.depth + 1)

/-- The node is the stored one. -/
def IsStored (n : Node) : Prop := store.getNodeById n.id = some n

/-- The nodes a frame has looked up. -/
def ReachFrame.Known (frame : ReachFrame) : Prop :=
  ∀ p ∈ frame.members ++ frame.dependents, ∀ n, p.2 = some n → store.IsStored n

structure Follows (focal : Node) (maxDepth : Nat) (w : ImpactWalk) (s : Descent.State String) :
    Prop where
  descends : Descent.Descends store.impactHops maxDepth focal.id s
  met : s.nodes = w.met
  pending : s.costs = w.stack.flatMap ReachFrame.pending
  known : ∀ frame ∈ w.stack, ReachFrame.Known store frame

/-- What holds of the walk between two turns. -/
structure ImpactInv (focal : Node) (maxDepth : Nat) (w : ImpactWalk) : Prop where
  follows : ∃ s, store.Follows focal maxDepth w s
  nodes : w.nodes.map (·.id) = w.met
  stored : ∀ n ∈ w.nodes, store.IsStored n

variable {store} {focal : Node} {maxDepth : Nat}

theorem isStored_of_lookup {id : String} {n : Node} (h : store.getNodeById id = some n) :
    store.IsStored n := by
  rw [IsStored, getNodeById_id h, h]

theorem mem_memberEdges {node : Node} {e : Edge} {found : Option Node} :
    (e, found) ∈ store.memberEdges node ↔ node.kind ∈ memberHoldingKinds ∧
      e ∈ store.getOutgoingEdges node.id [.contains] ∧ store.getNodeById e.target = found := by
  unfold memberEdges
  split
  · rename_i hkind
    simp only [List.mem_map, Prod.mk.injEq, hkind, true_and]
    constructor
    · rintro ⟨edge, hedge, rfl, rfl⟩
      exact ⟨hedge, (get_getNodesByIds (List.mem_map_of_mem hedge)).symm⟩
    · rintro ⟨hedge, rfl⟩
      exact ⟨e, hedge, rfl, get_getNodesByIds (List.mem_map_of_mem hedge)⟩
  · rename_i hkind
    simp [hkind]

theorem mem_dependentEdges {node : Node} {e : Edge} {found : Option Node} :
    (e, found) ∈ store.dependentEdges node ↔ e ∈ store.getIncomingEdges node.id [] ∧
      e.kind ≠ .contains ∧ store.getNodeById e.source = found := by
  have hfound : ∀ edge ∈ (store.getIncomingEdges node.id []).filter fun e => e.kind ≠ .contains,
      (store.getNodesByIds (((store.getIncomingEdges node.id []).filter fun e =>
        e.kind ≠ .contains).map (·.source))).get edge.source = store.getNodeById edge.source :=
    fun edge hedge => get_getNodesByIds (List.mem_map_of_mem hedge)
  unfold dependentEdges
  dsimp only
  rw [List.mem_map]
  constructor
  · rintro ⟨edge, hedge, heq⟩
    obtain ⟨rfl, rfl⟩ := Prod.mk.inj heq
    obtain ⟨hin, hkind⟩ := List.mem_filter.mp hedge
    exact ⟨hin, by simpa using hkind, (hfound _ hedge).symm⟩
  · rintro ⟨hin, hkind, rfl⟩
    have hedge : e ∈ (store.getIncomingEdges node.id []).filter fun e => e.kind ≠ .contains :=
      List.mem_filter.mpr ⟨hin, decide_eq_true hkind⟩
    exact ⟨e, hedge, Prod.ext rfl (hfound e hedge)⟩

theorem setNode_new {nodes : List Node} {node : Node} (h : node.id ∉ nodes.map (·.id)) :
    setNode nodes node = nodes ++ [node] := by
  apply if_neg
  rintro ⟨n, hn, hid⟩
  exact h (List.mem_map.mpr ⟨n, hn, hid⟩)

theorem openFrame_impact_met {w : ImpactWalk} {node : Node} (depth : Nat)
    (h : node.id ∉ w.met) : (w.openFrame store maxDepth node depth).met = w.met ++ [node.id] := by
  unfold ImpactWalk.openFrame
  rw [if_neg h]
  split <;> rfl

theorem openFrame_impact_nodes (w : ImpactWalk) (node : Node) (depth : Nat) :
    (w.openFrame store maxDepth node depth).nodes = w.nodes := by
  unfold ImpactWalk.openFrame
  split
  · rfl
  · split <;> rfl

theorem openFrame_impact_stack {w : ImpactWalk} {node : Node} (depth : Nat)
    (h : node.id ∉ w.met) :
    (w.openFrame store maxDepth node depth).stack =
      if maxDepth ≤ depth then w.stack
      else ⟨depth, store.memberEdges node, store.dependentEdges node⟩ :: w.stack := by
  unfold ImpactWalk.openFrame
  rw [if_neg h]
  split <;> rfl

/-- A frame just opened has looked up stored nodes. -/
theorem known_opened (node : Node) (depth : Nat) :
    ReachFrame.Known store ⟨depth, store.memberEdges node, store.dependentEdges node⟩ := by
  rintro ⟨e, found⟩ hmem n rfl
  rcases List.mem_append.mp hmem with hmem | hmem
  · exact isStored_of_lookup (mem_memberEdges.mp hmem).2.2
  · exact isStored_of_lookup (mem_dependentEdges.mp hmem).2.2

/-- Opening a new node is what the descent does with the hop that leads to it. -/
theorem openFrame_follows {w : ImpactWalk} {s : Descent.State String} {node : Node} {depth : Nat}
    (hd : Descent.Descends store.impactHops maxDepth focal.id s) (hmet : s.nodes = w.met)
    (hcosts : s.costs = (node.id, depth) :: w.stack.flatMap ReachFrame.pending)
    (hknown : ∀ frame ∈ w.stack, ReachFrame.Known store frame) (hstored : store.IsStored node)
    (hnew : node.id ∉ w.met) :
    ∃ t, store.Follows focal maxDepth (w.openFrame store maxDepth node depth) t := by
  obtain ⟨t, ht, hpending, hnodes⟩ := hd.meet hcosts (hmet ▸ hnew)
  have hmet' : t.nodes = (w.openFrame store maxDepth node depth).met := by
    rw [openFrame_impact_met depth hnew, hnodes, hmet]
  refine ⟨t, ht, hmet', ?_, ?_⟩
  · rw [hpending, openFrame_impact_stack depth hnew]
    by_cases hdeep : maxDepth ≤ depth
    · rw [if_neg (by omega), if_pos hdeep, List.nil_append]
    · have hhops : store.impactHops node.id = store.nodeHops node := by
        rw [impactHops, hstored]
        rfl
      rw [if_pos (by omega), if_neg hdeep, List.flatMap_cons, ReachFrame.pending, hhops, nodeHops,
        List.map_append, List.map_filterMap, List.map_filterMap]
      simp only [Option.map_map]
      rfl
  · rw [openFrame_impact_stack depth hnew]
    split
    · exact hknown
    · intro frame hframe
      rcases List.mem_cons.mp hframe with rfl | hframe
      · exact known_opened node depth
      · exact hknown frame hframe

/-- What a turn can do with the next edge of a frame, once it is behind the cursor: `w`
is the walk after the cursor has moved, `found` the node the edge leads to, `depth` the
depth it is opened at. -/
inductive Tried (store : GraphReader) (maxDepth : Nat) (w : ImpactWalk) (found : Option Node)
    (depth : Nat) (w' : ImpactWalk) : Prop
  | missing (hfound : found = none) (hw : w' = w)
  | met (node : Node) (hfound : found = some node) (hmet : node.id ∈ w.met) (edges : List Edge)
      (hw : w' = { w with edges })
  | opened (node : Node) (hfound : found = some node) (hnew : node.id ∉ w.met) (edges : List Edge)
      (hw : w' = ImpactWalk.openFrame store maxDepth
        { w with nodes := setNode w.nodes node, edges } node depth)

theorem impactOfTurn_cases {w w' : ImpactWalk} (h : store.impactOfTurn maxDepth w = some w') :
    ∃ frame below, w.stack = frame :: below ∧
      ((frame.members = [] ∧ frame.dependents = [] ∧ w' = { w with stack := below }) ∨
        (∃ p members, frame.members = p :: members ∧
          Tried store maxDepth { w with stack := { frame with members } :: below } p.2 frame.depth
            w') ∨
        (frame.members = [] ∧ ∃ p dependents, frame.dependents = p :: dependents ∧
          Tried store maxDepth { w with stack := { frame with dependents } :: below } p.2
            (frame.depth + 1) w')) := by
  unfold impactOfTurn at h
  cases hstack : w.stack with
  | nil => simp [hstack] at h
  | cons frame below =>
      refine ⟨frame, below, rfl, ?_⟩
      rw [hstack] at h
      dsimp only at h
      cases hmembers : frame.members with
      | cons p members =>
          obtain ⟨edge, found⟩ := p
          right; left
          refine ⟨(edge, found), members, rfl, ?_⟩
          rw [hmembers] at h
          dsimp only at h ⊢
          cases found with
          | none => exact Tried.missing rfl (Option.some.inj h).symm
          | some node =>
              dsimp only at h
              by_cases hmet : node.id ∈ w.met
              · rw [if_pos hmet] at h
                exact Tried.met node rfl hmet w.edges (Option.some.inj h).symm
              · rw [if_neg hmet] at h
                exact Tried.opened node rfl hmet _ (Option.some.inj h).symm
      | nil =>
          rw [hmembers] at h
          dsimp only at h
          cases hdependents : frame.dependents with
          | nil =>
              left
              rw [hdependents] at h
              exact ⟨rfl, rfl, (Option.some.inj h).symm⟩
          | cons p dependents =>
              obtain ⟨edge, found⟩ := p
              right; right
              refine ⟨rfl, (edge, found), dependents, rfl, ?_⟩
              rw [hdependents] at h
              dsimp only at h ⊢
              cases found with
              | none => exact Tried.missing rfl (Option.some.inj h).symm
              | some node =>
                  dsimp only at h
                  by_cases hmet : node.id ∈ w.met
                  · rw [if_pos hmet] at h
                    exact Tried.met node rfl hmet _ (Option.some.inj h).symm
                  · rw [if_neg hmet] at h
                    exact Tried.opened node rfl hmet _ (Option.some.inj h).symm

/-- What the try of one edge keeps; `w` is the walk with the cursor behind it. -/
theorem Tried.inv {w w' : ImpactWalk} {found : Option Node} {depth : Nat}
    {s : Descent.State String} (h : Tried store maxDepth w found depth w')
    (hd : Descent.Descends store.impactHops maxDepth focal.id s) (hmet : s.nodes = w.met)
    (hcosts : s.costs = (found.map fun n => (n.id, depth)).toList ++
      w.stack.flatMap ReachFrame.pending)
    (hknown : ∀ frame ∈ w.stack, ReachFrame.Known store frame)
    (hfound : ∀ n, found = some n → store.IsStored n) (hnodes : w.nodes.map (·.id) = w.met)
    (hstored : ∀ n ∈ w.nodes, store.IsStored n) : store.ImpactInv focal maxDepth w' := by
  cases h with
  | missing hnone hw =>
      subst hw hnone
      exact ⟨⟨s, hd, hmet, hcosts, hknown⟩, hnodes, hstored⟩
  | met node hsome hin edges hw =>
      subst hw hsome
      obtain ⟨t, ht, hrest, htmet⟩ := hd.skip hcosts (hmet ▸ hin)
      exact ⟨⟨t, ht, htmet.trans hmet, hrest, hknown⟩, hnodes, hstored⟩
  | opened node hsome hnew edges hw =>
      subst hw hsome
      have hset : setNode w.nodes node = w.nodes ++ [node] :=
        setNode_new (by rw [hnodes]; exact hnew)
      refine ⟨openFrame_follows hd hmet hcosts hknown (hfound node rfl) hnew, ?_, ?_⟩
      · have hopen := @openFrame_impact_met store maxDepth
          { w with nodes := setNode w.nodes node, edges } node depth hnew
        rw [openFrame_impact_nodes, hopen, hset, List.map_append, hnodes]
        rfl
      · rw [openFrame_impact_nodes, hset]
        intro n hn
        rcases List.mem_append.mp hn with hn | hn
        · exact hstored n hn
        · obtain rfl := List.mem_singleton.mp hn
          exact hfound n rfl

theorem impactOfTurn_inv {w w' : ImpactWalk} (h : store.ImpactInv focal maxDepth w)
    (hturn : store.impactOfTurn maxDepth w = some w') : store.ImpactInv focal maxDepth w' := by
  obtain ⟨s, hs⟩ := h.follows
  obtain ⟨frame, below, hstack, hcase⟩ := impactOfTurn_cases hturn
  have hframe := hs.known frame (hstack ▸ List.mem_cons_self)
  have hbelow : ∀ f ∈ below, ReachFrame.Known store f := fun f hf =>
    hs.known f (hstack ▸ List.mem_cons_of_mem _ hf)
  have hcosts := hs.pending
  rw [hstack, List.flatMap_cons, ReachFrame.pending] at hcosts
  rcases hcase with ⟨hmembers, hdependents, rfl⟩ | ⟨p, members, hmembers, htried⟩ |
    ⟨hmembers, p, dependents, hdependents, htried⟩
  · rw [hmembers, hdependents] at hcosts
    exact ⟨⟨s, hs.descends, hs.met, hcosts, hbelow⟩, h.nodes, h.stored⟩
  · refine htried.inv hs.descends hs.met ?_ ?_ ?_ h.nodes h.stored
    · rw [hcosts, hmembers, List.filterMap_cons]
      cases p.2 <;> simp [ReachFrame.pending]
    · intro f hf
      rcases List.mem_cons.mp hf with rfl | hf
      · intro q hq
        apply hframe q
        rw [hmembers]
        exact List.mem_cons_of_mem _ hq
      · exact hbelow f hf
    · exact fun n hn => hframe p (by rw [hmembers]; exact List.mem_cons_self) n hn
  · refine htried.inv hs.descends hs.met ?_ ?_ ?_ h.nodes h.stored
    · rw [hcosts, hmembers, hdependents, List.filterMap_cons]
      cases p.2 <;> simp [ReachFrame.pending]
    · intro f hf
      rcases List.mem_cons.mp hf with rfl | hf
      · intro q hq
        apply hframe q
        rw [hdependents]
        rcases List.mem_append.mp hq with hq | hq
        · exact List.mem_append_left _ hq
        · exact List.mem_append_right _ (List.mem_cons_of_mem _ hq)
      · exact hbelow f hf
    · intro n hn
      apply hframe p _ n hn
      rw [hdependents]
      exact List.mem_append_right _ List.mem_cons_self

theorem impactInv_root (h : store.IsStored focal) :
    store.ImpactInv focal maxDepth
      (ImpactWalk.openFrame store maxDepth ⟨[], [], [focal], []⟩ focal 0) where
  follows := by
    apply openFrame_follows Descent.Descends.init rfl rfl
    · exact fun frame hframe => absurd hframe List.not_mem_nil
    · exact h
    · exact List.not_mem_nil
  nodes := by
    rw [openFrame_impact_nodes, openFrame_impact_met 0 List.not_mem_nil]
    rfl
  stored := by
    rw [openFrame_impact_nodes]
    intro n hn
    obtain rfl := List.mem_singleton.mp hn
    exact h

/-! ## The walk ends -/

theorem impact_stack_of_stopped {w : ImpactWalk} (h : store.impactOfTurn maxDepth w = none) :
    w.stack = [] := by
  unfold impactOfTurn at h
  cases hstack : w.stack with
  | nil => rfl
  | cons frame below =>
      rw [hstack] at h
      dsimp only at h
      split at h
      · split at h
        · simp at h
        · split at h <;> simp at h
      · split at h
        · split at h
          · simp at h
          · split at h <;> simp at h
        · simp at h

def ReachFrame.turns (frame : ReachFrame) : Nat :=
  frame.members.length + frame.dependents.length + 1

/-- Turns still to be taken at most. -/
def impactTurnsLeft (store : GraphReader) (w : ImpactWalk) : Nat :=
  (w.stack.map ReachFrame.turns).sum + unmarked store.turnsAt (store.nodes.map (·.id)) w.met

theorem impactTurnsLeft_openFrame {w : ImpactWalk} {node : Node} (depth : Nat)
    (hstored : store.IsStored node) (hnew : node.id ∉ w.met) :
    impactTurnsLeft store (w.openFrame store maxDepth node depth) ≤ impactTurnsLeft store w := by
  have hmark := @unmarked_mark _ _ store.turnsAt (store.nodes.map (·.id)) w.met node.id
    (List.mem_map_of_mem (getNodeById_mem hstored)) hnew
  have hturns : store.turnsAt node.id =
      ReachFrame.turns ⟨depth, store.memberEdges node, store.dependentEdges node⟩ := by
    rw [turnsAt, hstored]
    rfl
  unfold impactTurnsLeft
  rw [openFrame_impact_met depth hnew, openFrame_impact_stack depth hnew]
  split
  · omega
  · rw [List.map_cons, List.sum_cons]
    omega

theorem Tried.turnsLeft {w w' : ImpactWalk} {found : Option Node} {depth : Nat}
    (h : Tried store maxDepth w found depth w') (hfound : ∀ n, found = some n → store.IsStored n) :
    impactTurnsLeft store w' ≤ impactTurnsLeft store w := by
  cases h with
  | missing _ hw => rw [hw]
  | met _ _ _ edges hw =>
      rw [hw]
      exact le_refl _
  | opened node hsome hnew edges hw =>
      rw [hw]
      exact @impactTurnsLeft_openFrame store maxDepth
        { w with nodes := setNode w.nodes node, edges } node depth (hfound node hsome) hnew

theorem impactOfTurn_decreases {w w' : ImpactWalk} (h : store.ImpactInv focal maxDepth w)
    (hturn : store.impactOfTurn maxDepth w = some w') :
    impactTurnsLeft store w' < impactTurnsLeft store w := by
  obtain ⟨s, hs⟩ := h.follows
  obtain ⟨frame, below, hstack, hcase⟩ := impactOfTurn_cases hturn
  have hframe := hs.known frame (hstack ▸ List.mem_cons_self)
  have hleft : impactTurnsLeft store w = frame.turns + (below.map ReachFrame.turns).sum +
      unmarked store.turnsAt (store.nodes.map (·.id)) w.met := by
    rw [impactTurnsLeft, hstack, List.map_cons, List.sum_cons]
  have hshorter : ∀ shorter : ReachFrame, shorter.turns < frame.turns →
      impactTurnsLeft store { w with stack := shorter :: below } < impactTurnsLeft store w := by
    intro shorter hlt
    rw [hleft, impactTurnsLeft, List.map_cons, List.sum_cons]
    dsimp only
    omega
  rcases hcase with ⟨_, _, rfl⟩ | ⟨p, members, hmembers, htried⟩ |
    ⟨_, p, dependents, hdependents, htried⟩
  · rw [hleft, impactTurnsLeft, ReachFrame.turns]
    dsimp only
    omega
  · have hlt := hshorter { frame with members } (by
      simp only [ReachFrame.turns, hmembers, List.length_cons]
      omega)
    have hle := htried.turnsLeft fun n hn =>
      hframe p (by rw [hmembers]; exact List.mem_cons_self) n hn
    omega
  · have hlt := hshorter { frame with dependents } (by
      simp only [ReachFrame.turns, hdependents, List.length_cons]
      omega)
    have hle := htried.turnsLeft fun n hn => hframe p (by
      rw [hdependents]
      exact List.mem_append_right _ List.mem_cons_self) n hn
    omega

/-- The bound on the turns is never what ends the walk. -/
theorem impactOf_stops (h : store.IsStored focal) :
    store.impactOfTurn maxDepth (loop (store.impactOfTurn maxDepth) store.impactTurns
      (ImpactWalk.openFrame store maxDepth ⟨[], [], [focal], []⟩ focal 0)) = none := by
  apply loop_stops (fun _ _ => impactOfTurn_inv) (fun _ _ => impactOfTurn_decreases)
    (@impactInv_root store focal maxDepth h)
  have hopen := @impactTurnsLeft_openFrame store maxDepth ⟨[], [], [focal], []⟩ focal 0 h
    List.not_mem_nil
  have hall := unmarked_le store.turnsAt (store.nodes.map (·.id)) []
  have hstart : impactTurnsLeft store ⟨[], [], [focal], []⟩ =
      unmarked store.turnsAt (store.nodes.map (·.id)) [] := Nat.zero_add _
  rw [impactTurns]
  omega

/-! ## What the walk collects -/

theorem impactHops_of_stored {node : Node} (h : store.IsStored node) :
    store.impactHops node.id = store.nodeHops node := by
  rw [impactHops, h]
  rfl

theorem affects_stored (h : store.IsStored focal) {c : Nat} {n : Node}
    (hn : store.Affects maxDepth focal c n) : store.IsStored n := by
  cases hn with
  | focal => exact h
  | member _ _ _ _ exists_ => exact isStored_of_lookup exists_
  | dependent _ _ _ _ exists_ => exact isStored_of_lookup exists_

theorem affects_le {c : Nat} {n : Node} (h : store.Affects maxDepth focal c n) : c ≤ maxDepth := by
  cases h with
  | focal => exact Nat.zero_le _
  | member _ room _ _ _ => exact Nat.le_of_lt room
  | dependent _ room _ _ _ => exact room

theorem affects_of_within (h : store.IsStored focal) {c : Nat} {id : String}
    (hwalk : Descent.Within store.impactHops maxDepth focal.id c id) :
    ∃ n, n.id = id ∧ store.Affects maxDepth focal c n := by
  induction hwalk with
  | start => exact ⟨focal, rfl, Affects.focal⟩
  | hop walk room mem ih =>
      obtain ⟨node, rfl, hnode⟩ := ih
      rw [impactHops_of_stored (affects_stored h hnode)] at mem
      rcases List.mem_append.mp mem with mem | mem
      · obtain ⟨⟨e, found⟩, he, hhop⟩ := List.mem_filterMap.mp mem
        obtain ⟨member, rfl, rfl⟩ := Option.map_eq_some_iff.mp hhop
        obtain ⟨holds, hedge, hfound⟩ := mem_memberEdges.mp he
        exact ⟨member, rfl, hnode.member room holds hedge hfound⟩
      · obtain ⟨⟨e, found⟩, he, hhop⟩ := List.mem_filterMap.mp mem
        obtain ⟨dependent, rfl, rfl⟩ := Option.map_eq_some_iff.mp hhop
        obtain ⟨hedge, hkind, hfound⟩ := mem_dependentEdges.mp he
        exact ⟨dependent, rfl, hnode.dependent room hedge hkind hfound⟩

theorem within_of_affects (h : store.IsStored focal) {c : Nat} {n : Node}
    (hn : store.Affects maxDepth focal c n) :
    Descent.Within store.impactHops maxDepth focal.id c n.id := by
  induction hn with
  | focal => exact Descent.Within.start
  | member walk room holds mem exists_ ih =>
      rename_i c node member e
      have hhop : (⟨member.id, 0⟩ : Hop String) ∈ store.impactHops node.id := by
        rw [impactHops_of_stored (affects_stored h walk)]
        exact List.mem_append_left _ (List.mem_filterMap.mpr
          ⟨(e, some member), mem_memberEdges.mpr ⟨holds, mem, exists_⟩, rfl⟩)
      exact Descent.Within.hop ih room hhop
  | dependent walk room mem kind exists_ ih =>
      rename_i c node dependent e
      have hhop : (⟨dependent.id, 1⟩ : Hop String) ∈ store.impactHops node.id := by
        rw [impactHops_of_stored (affects_stored h walk)]
        exact List.mem_append_right _ (List.mem_filterMap.mpr
          ⟨(e, some dependent), mem_dependentEdges.mpr ⟨mem, kind, exists_⟩, rfl⟩)
      exact Descent.Within.hop ih room hhop

/-- The finished walk stands for a finished descent, and holds the stored node of each
id met. -/
theorem impactOf_descends {nodeId : String} (hfocal : store.getNodeById nodeId = some focal)
    (maxDepth : Nat) :
    ∃ s, Descent.Descends store.impactHops maxDepth focal.id s ∧ s.pending = [] ∧
      ∀ n, n ∈ (store.impactOf nodeId maxDepth).nodes ↔ store.IsStored n ∧ n.id ∈ s.nodes := by
  have h := isStored_of_lookup hfocal
  have hinv := loop_invariant (fun _ _ => impactOfTurn_inv) store.impactTurns
    (@impactInv_root store focal maxDepth h)
  obtain ⟨s, hs⟩ := hinv.follows
  have hcosts := hs.pending
  rw [impact_stack_of_stopped (impactOf_stops h)] at hcosts
  refine ⟨s, hs.descends, List.map_eq_nil_iff.mp hcosts, fun n => ?_⟩
  rw [hs.met, ← hinv.nodes]
  unfold impactOf
  rw [hfocal]
  constructor
  · exact fun hn => ⟨hinv.stored n hn, List.mem_map_of_mem hn⟩
  · rintro ⟨hstored, hid⟩
    obtain ⟨m, hm, hmid⟩ := List.mem_map.mp hid
    have hmstored := hinv.stored m hm
    rw [IsStored, hmid] at hmstored
    obtain rfl := Option.some.inj (hstored.symm.trans hmstored)
    exact hm

/-- The blast radius is complete exactly when nothing within the limit lies behind a node
that descent order meets at the limit although it costs less. -/
theorem completeImpact_iff (store : GraphReader) (nodeId : String) (maxDepth : Nat) :
    store.CompleteImpact nodeId maxDepth ↔
      ∀ focal, store.getNodeById nodeId = some focal →
        ∃ lead, Descent.Leading store.impactHops maxDepth focal.id lead ∧
          Descent.Unobstructed store.impactHops maxDepth focal.id lead := by
  refine forall_congr' fun focal => imp_congr_right fun hfocal => ?_
  have h := isStored_of_lookup hfocal
  obtain ⟨s, hs, hend, hnodes⟩ := impactOf_descends hfocal maxDepth
  rw [← hs.complete_iff hend]
  constructor
  · rintro ⟨_, hall⟩ c id hwalk
    obtain ⟨n, rfl, hn⟩ := affects_of_within h hwalk
    exact ((hnodes n).mp ((hall n).mpr ⟨c, affects_le hn, hn⟩)).2
  · intro hcomplete
    have hall : ∀ n, n ∈ (store.impactOf nodeId maxDepth).nodes ↔
        ∃ c ≤ maxDepth, store.Affects maxDepth focal c n := by
      intro n
      rw [hnodes n]
      constructor
      · rintro ⟨hstored, hmem⟩
        obtain ⟨c, hwalk⟩ := hs.within hend hmem
        obtain ⟨m, hid, hm⟩ := affects_of_within h hwalk
        have hmstored := affects_stored h hm
        rw [IsStored, hid] at hmstored
        obtain rfl := Option.some.inj (hstored.symm.trans hmstored)
        exact ⟨c, affects_le hm, hm⟩
      · rintro ⟨c, _, hn⟩
        exact ⟨affects_stored h hn, hcomplete c n.id (within_of_affects h hn)⟩
    exact ⟨(hall focal).mpr ⟨0, Nat.zero_le _, Affects.focal⟩, hall⟩

/-- A function is called by two others, of which the second one also calls the first,
and is called by a fourth. -/
def nearCaller : GraphReader :=
  ofRows (["f", "a", "b", "c"].map fun id => ⟨id, .function, id, id, "f.ts", .typescript, 1⟩)
    ([("a", "f"), ("b", "f"), ("b", "a"), ("c", "b")].map fun (source, target) =>
      ⟨source, target, .calls, none, none, none, none⟩)
    (by decide)

theorem completeImpact_fails : ¬ nearCaller.CompleteImpact "f" 2 := by
  intro h
  obtain ⟨_, hall⟩ := h ⟨"f", .function, "f", "f", "f.ts", .typescript, 1⟩ (by decide)
  have hc : nearCaller.Affects 2 ⟨"f", .function, "f", "f", "f.ts", .typescript, 1⟩ 2
      ⟨"c", .function, "c", "c", "f.ts", .typescript, 1⟩ := by
    have hb : nearCaller.Affects 2 ⟨"f", .function, "f", "f", "f.ts", .typescript, 1⟩ 1
        ⟨"b", .function, "b", "b", "f.ts", .typescript, 1⟩ :=
      @Affects.dependent _ _ _ _ _ _ ⟨"b", "f", .calls, none, none, none, none⟩ Affects.focal
        (by decide) (by decide) (by decide) (by decide)
    exact @Affects.dependent _ _ _ _ _ _ ⟨"c", "b", .calls, none, none, none, none⟩ hb
      (by decide) (by decide) (by decide) (by decide)
  have hmem := (hall _).mpr ⟨2, le_refl 2, hc⟩
  revert hmem
  decide

end GraphReader

end AfyxGraph.Graph
