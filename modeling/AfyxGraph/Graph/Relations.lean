import AfyxGraph.Core.Descent
import AfyxGraph.Core.Loop
import AfyxGraph.Graph.Reader

/-! # Callers and callees

`followCalls` is a pre-order descent with one membership set: a node met at the depth
boundary is reported, not expanded, and not expanded later either when a shorter way
leads to it. The walk is a `Descent` with hops of cost one.
-/

namespace AfyxGraph.Graph

open AfyxGraph.Core Extraction

def callingKinds : List EdgeKind := [.calls, .references, .imports, .instantiates, .navigates]

inductive Side where
  | incoming
  | outgoing
  deriving DecidableEq, Repr

def Side.endOf : Side → Edge → String
  | .incoming, e => e.source
  | .outgoing, e => e.target

namespace GraphReader

variable (store : GraphReader) (side : Side)

/-- The calling edges at a node on one side. -/
def callingEdges (id : String) : List Edge :=
  match side with
  | .incoming => store.getIncomingEdges id callingKinds
  | .outgoing => store.getOutgoingEdges id callingKinds

/-! ## The walk -/

/-- `edges` are those from the cursor on. -/
structure HopFrame where
  depth : Nat
  edges : List Edge
  found : Found

/-- `stack` has the last frame in front. -/
structure CallWalk where
  stack : List HopFrame
  met : List String
  out : List Reached

def CallWalk.openFrame (maxDepth : Nat) (w : CallWalk) (id : String) (depth : Nat) : CallWalk :=
  if id ∈ w.met then w
  else if maxDepth ≤ depth then { w with met := w.met ++ [id] }
  else
    let edges := store.callingEdges side id
    if edges = [] then { w with met := w.met ++ [id] }
    else
      { w with
        met := w.met ++ [id]
        stack := ⟨depth, edges, store.getNodesByIds (edges.map side.endOf)⟩ :: w.stack }

/-- One turn of the `while` loop. -/
def followCallsTurn (maxDepth : Nat) (w : CallWalk) : Option CallWalk :=
  match w.stack with
  | [] => none
  | frame :: below =>
      match frame.edges with
      | [] => some { w with stack := below }
      | edge :: edges =>
          let w := { w with stack := { frame with edges } :: below }
          match frame.found.get (side.endOf edge) with
          | none => some w
          | some node =>
              if node.id ∈ w.met then some w
              else
                some (CallWalk.openFrame store side maxDepth
                  { w with out := w.out ++ [⟨node, edge⟩] } node.id (frame.depth + 1))

/-- A frame takes a turn for each edge and one to be popped, and every node is opened
once. -/
def callTurns (startId : String) : Nat :=
  ((startId :: store.nodes.map (·.id)).map fun id => (store.callingEdges side id).length + 1).sum

def followCalls (startId : String) (maxDepth : Nat) : List Reached :=
  let root := CallWalk.openFrame store side maxDepth ⟨[], [], []⟩ startId 0
  (loop (store.followCallsTurn side maxDepth) (store.callTurns side startId) root).out

def callersOf (nodeId : String) (maxDepth : Nat) : List Reached :=
  store.followCalls .incoming nodeId maxDepth

def calleesOf (nodeId : String) (maxDepth : Nat) : List Reached :=
  store.followCalls .outgoing nodeId maxDepth

/-! ## What it is to report -/

/-- A directed walk of calling edges through existing nodes, with its length. -/
inductive CallPath (startId : String) : Nat → String → Prop
  | start : CallPath startId 0 startId
  | edge {k : Nat} {id : String} {e : Edge} {n : Node} (walk : CallPath startId k id)
      (mem : e ∈ store.callingEdges side id) (exists_ : store.getNodeById (side.endOf e) = some n) :
      CallPath startId (k + 1) n.id

/-- The nodes other than the start that some walk of at most `maxDepth` calling edges
reaches are reported, no others, and each once. -/
structure ExactNeighbourhood (startId : String) (maxDepth : Nat) : Prop where
  reported : ∀ id, id ≠ startId →
    ((∃ r ∈ store.followCalls side startId maxDepth, r.node.id = id) ↔
      ∃ k ≤ maxDepth, store.CallPath side startId k id)
  once : ((store.followCalls side startId maxDepth).map fun r => r.node.id).Nodup

/-! ## The descent behind the walk -/

/-- The existing ends of the calling edges of a node. -/
def callHops (id : String) : List (Hop String) :=
  (store.callingEdges side id).filterMap fun e =>
    (store.getNodeById (side.endOf e)).map fun n => ⟨n.id, 1⟩

/-- What a frame has still to try. -/
def HopFrame.pending (frame : HopFrame) : List (String × Nat) :=
  frame.edges.filterMap fun e =>
    (store.getNodeById (side.endOf e)).map fun n => (n.id, frame.depth + 1)

/-- The walk between two turns stands for a descent. -/
structure Simulates (startId : String) (maxDepth : Nat) (w : CallWalk)
    (s : Descent.State String) : Prop where
  descends : Descent.Descends (store.callHops side) maxDepth startId s
  met : s.nodes = w.met
  pending : s.costs = w.stack.flatMap (HopFrame.pending store side)
  found : ∀ frame ∈ w.stack, ∀ e ∈ frame.edges,
    frame.found.get (side.endOf e) = store.getNodeById (side.endOf e)

/-- What holds of the walk between two turns. -/
structure CallInv (startId : String) (maxDepth : Nat) (w : CallWalk) : Prop where
  simulates : ∃ s, store.Simulates side startId maxDepth w s
  out : w.met = startId :: w.out.map fun r => r.node.id

variable {store side} {startId : String} {maxDepth : Nat}

theorem openFrame_met {w : CallWalk} {id : String} (depth : Nat) (h : id ∉ w.met) :
    (w.openFrame store side maxDepth id depth).met = w.met ++ [id] := by
  unfold CallWalk.openFrame
  rw [if_neg h]
  split
  · rfl
  · dsimp only
    split <;> rfl

theorem openFrame_out (w : CallWalk) (id : String) (depth : Nat) :
    (w.openFrame store side maxDepth id depth).out = w.out := by
  unfold CallWalk.openFrame
  split
  · rfl
  · split
    · rfl
    · dsimp only
      split <;> rfl

theorem openFrame_stack {w : CallWalk} {id : String} (depth : Nat) (h : id ∉ w.met) :
    (w.openFrame store side maxDepth id depth).stack =
      if maxDepth ≤ depth ∨ store.callingEdges side id = [] then w.stack
      else
        ⟨depth, store.callingEdges side id,
          store.getNodesByIds ((store.callingEdges side id).map side.endOf)⟩ :: w.stack := by
  unfold CallWalk.openFrame
  rw [if_neg h]
  by_cases hdeep : maxDepth ≤ depth
  · simp [hdeep]
  · by_cases hnone : store.callingEdges side id = [] <;> simp [hdeep, hnone]

/-- Opening a new node is what the descent does with the hop that leads to it. -/
theorem openFrame_simulates {w : CallWalk} {s : Descent.State String} {id : String} {depth : Nat}
    (hd : Descent.Descends (store.callHops side) maxDepth startId s) (hmet : s.nodes = w.met)
    (hcosts : s.costs = (id, depth) :: w.stack.flatMap (HopFrame.pending store side))
    (hfound : ∀ frame ∈ w.stack, ∀ e ∈ frame.edges,
      frame.found.get (side.endOf e) = store.getNodeById (side.endOf e))
    (hnew : id ∉ w.met) :
    ∃ t, store.Simulates side startId maxDepth (w.openFrame store side maxDepth id depth) t := by
  obtain ⟨t, ht, hpending, hnodes⟩ := hd.meet hcosts (hmet ▸ hnew)
  have hmet' : t.nodes = (w.openFrame store side maxDepth id depth).met := by
    rw [openFrame_met depth hnew, hnodes, hmet]
  refine ⟨t, ht, hmet', ?_, ?_⟩
  · rw [hpending, openFrame_stack depth hnew]
    by_cases hdeep : maxDepth ≤ depth
    · rw [if_neg (by omega), if_pos (Or.inl hdeep), List.nil_append]
    · rw [if_pos (by omega)]
      by_cases hnone : store.callingEdges side id = []
      · rw [if_pos (Or.inr hnone), callHops, hnone]
        rfl
      · rw [if_neg (by simp [hdeep, hnone]), List.flatMap_cons, HopFrame.pending, callHops,
          List.map_filterMap]
        simp only [Option.map_map]
        rfl
  · rw [openFrame_stack depth hnew]
    split
    · exact hfound
    · intro frame hframe e he
      rcases List.mem_cons.mp hframe with rfl | hframe
      · exact get_getNodesByIds (List.mem_map_of_mem he)
      · exact hfound frame hframe e he

theorem callInv_root :
    store.CallInv side startId maxDepth
      (CallWalk.openFrame store side maxDepth ⟨[], [], []⟩ startId 0) where
  simulates := by
    apply openFrame_simulates Descent.Descends.init rfl rfl
    · exact fun frame hframe => absurd hframe (List.not_mem_nil)
    · exact List.not_mem_nil
  out := by
    rw [openFrame_met 0 List.not_mem_nil, openFrame_out]
    rfl

/-- What a turn can do. -/
theorem followCallsTurn_cases {w w' : CallWalk}
    (h : store.followCallsTurn side maxDepth w = some w') :
    ∃ frame below, w.stack = frame :: below ∧
      ((frame.edges = [] ∧ w' = { w with stack := below }) ∨
        ∃ edge edges, frame.edges = edge :: edges ∧
          ((frame.found.get (side.endOf edge) = none ∧
              w' = { w with stack := { frame with edges } :: below }) ∨
            ∃ node, frame.found.get (side.endOf edge) = some node ∧
              ((node.id ∈ w.met ∧ w' = { w with stack := { frame with edges } :: below }) ∨
                (node.id ∉ w.met ∧
                  w' = CallWalk.openFrame store side maxDepth
                    ⟨{ frame with edges } :: below, w.met, w.out ++ [⟨node, edge⟩]⟩ node.id
                    (frame.depth + 1))))) := by
  unfold followCallsTurn at h
  cases hstack : w.stack with
  | nil => simp [hstack] at h
  | cons frame below =>
      refine ⟨frame, below, rfl, ?_⟩
      rw [hstack] at h
      dsimp only at h
      cases hedges : frame.edges with
      | nil =>
          left
          simpa [hedges, eq_comm] using h
      | cons edge edges =>
          right
          refine ⟨edge, edges, rfl, ?_⟩
          rw [hedges] at h
          dsimp only at h
          cases hget : frame.found.get (side.endOf edge) with
          | none =>
              left
              simpa [hget, eq_comm] using h
          | some node =>
              right
              refine ⟨node, rfl, ?_⟩
              rw [hget] at h
              dsimp only at h
              by_cases hmet : node.id ∈ w.met
              · left
                simpa [hmet, eq_comm] using h
              · right
                rw [if_neg hmet] at h
                exact ⟨hmet, (Option.some.inj h).symm⟩

/-- Behind the cursor of the top frame nothing else changes. -/
theorem Simulates.of_top {w : CallWalk} {s : Descent.State String} {frame : HopFrame}
    {below : List HopFrame} {edges : List Edge} {edge : Edge}
    (h : store.Simulates side startId maxDepth w s) (hstack : w.stack = frame :: below)
    (hedges : frame.edges = edge :: edges) :
    ∀ f ∈ { frame with edges } :: below, ∀ e ∈ f.edges,
      f.found.get (side.endOf e) = store.getNodeById (side.endOf e) := by
  intro f hf e he
  rcases List.mem_cons.mp hf with rfl | hf
  · exact h.found frame (hstack ▸ List.mem_cons_self) e (hedges ▸ List.mem_cons_of_mem _ he)
  · exact h.found f (hstack ▸ List.mem_cons_of_mem _ hf) e he

theorem followCallsTurn_inv {w w' : CallWalk} (h : store.CallInv side startId maxDepth w)
    (hturn : store.followCallsTurn side maxDepth w = some w') :
    store.CallInv side startId maxDepth w' := by
  obtain ⟨s, hs⟩ := h.simulates
  obtain ⟨frame, below, hstack, hcase⟩ := followCallsTurn_cases hturn
  rcases hcase with ⟨hedges, rfl⟩ | ⟨edge, edges, hedges, hcase⟩
  · refine ⟨⟨s, hs.descends, hs.met, ?_, ?_⟩, h.out⟩
    · rw [hs.pending, hstack, List.flatMap_cons, HopFrame.pending, hedges]
      rfl
    · exact fun f hf => hs.found f (hstack ▸ List.mem_cons_of_mem _ hf)
  · have htop := hs.of_top hstack hedges
    have hget : frame.found.get (side.endOf edge) = store.getNodeById (side.endOf edge) :=
      hs.found frame (hstack ▸ List.mem_cons_self) edge (hedges ▸ List.mem_cons_self)
    have hcosts := hs.pending
    rw [hstack, List.flatMap_cons, HopFrame.pending, hedges, List.filterMap_cons, ← hget] at hcosts
    rcases hcase with ⟨hnone, rfl⟩ | ⟨node, hsome, hcase⟩
    · rw [hnone] at hcosts
      exact ⟨⟨s, hs.descends, hs.met, hcosts, htop⟩, h.out⟩
    · rw [hsome] at hcosts
      rcases hcase with ⟨hmet, rfl⟩ | ⟨hmet, rfl⟩
      · obtain ⟨t, ht, hrest, hnodes⟩ := hs.descends.skip hcosts (hs.met ▸ hmet)
        exact ⟨⟨t, ht, hnodes.trans hs.met, hrest, htop⟩, h.out⟩
      · refine ⟨openFrame_simulates hs.descends hs.met hcosts htop hmet, ?_⟩
        have hnew : node.id ∉ (CallWalk.mk ({ frame with edges } :: below) w.met
            (w.out ++ [⟨node, edge⟩])).met := hmet
        rw [openFrame_met _ hnew, openFrame_out, h.out]
        simp

/-! ## The walk ends -/

theorem stack_of_stopped {w : CallWalk} (h : store.followCallsTurn side maxDepth w = none) :
    w.stack = [] := by
  unfold followCallsTurn at h
  cases hstack : w.stack with
  | nil => rfl
  | cons frame below =>
      rw [hstack] at h
      dsimp only at h
      split at h
      · simp at h
      · split at h
        · simp at h
        · split at h <;> simp at h

/-- Turns still to be taken at most. -/
def turnsLeft (store : GraphReader) (side : Side) (w : CallWalk) : Nat :=
  (w.stack.map fun frame => frame.edges.length + 1).sum +
    unmarked (fun id => (store.callingEdges side id).length + 1) (store.nodes.map (·.id)) w.met

theorem turnsLeft_openFrame {w : CallWalk} {id : String} (depth : Nat) (hnew : id ∉ w.met) :
    turnsLeft store side (w.openFrame store side maxDepth id depth) ≤
      (w.stack.map fun frame => frame.edges.length + 1).sum +
        ((store.callingEdges side id).length + 1) +
        unmarked (fun id => (store.callingEdges side id).length + 1) (store.nodes.map (·.id))
          (w.met ++ [id]) := by
  unfold turnsLeft
  rw [openFrame_met depth hnew, openFrame_stack depth hnew]
  split
  · omega
  · rw [List.map_cons, List.sum_cons]
    dsimp only
    omega

theorem followCallsTurn_decreases {w w' : CallWalk} (h : store.CallInv side startId maxDepth w)
    (hturn : store.followCallsTurn side maxDepth w = some w') :
    turnsLeft store side w' < turnsLeft store side w := by
  obtain ⟨s, hs⟩ := h.simulates
  obtain ⟨frame, below, hstack, hcase⟩ := followCallsTurn_cases hturn
  have hleft : turnsLeft store side w = frame.edges.length + 1 +
      (below.map fun frame => frame.edges.length + 1).sum +
      unmarked (fun id => (store.callingEdges side id).length + 1) (store.nodes.map (·.id))
        w.met := by
    rw [turnsLeft, hstack, List.map_cons, List.sum_cons]
  rcases hcase with ⟨hedges, rfl⟩ | ⟨edge, edges, hedges, hcase⟩
  · rw [hleft, turnsLeft]
    dsimp only
    omega
  · have hlength : frame.edges.length = edges.length + 1 := by rw [hedges, List.length_cons]
    have hdrop : turnsLeft store side { w with stack := { frame with edges } :: below } <
        turnsLeft store side w := by
      rw [hleft, turnsLeft, List.map_cons, List.sum_cons]
      dsimp only
      omega
    rcases hcase with ⟨_, rfl⟩ | ⟨node, hsome, ⟨_, rfl⟩ | ⟨hmet, rfl⟩⟩
    · exact hdrop
    · exact hdrop
    · have hget := hs.found frame (hstack ▸ List.mem_cons_self) edge (hedges ▸ List.mem_cons_self)
      have hnode : node.id ∈ store.nodes.map (·.id) :=
        List.mem_map_of_mem (getNodeById_mem (hget.symm.trans hsome))
      have hopen := @turnsLeft_openFrame store side maxDepth
        ⟨{ frame with edges } :: below, w.met, w.out ++ [⟨node, edge⟩]⟩ node.id (frame.depth + 1)
        hmet
      have hmark := @unmarked_mark _ _ (fun id => (store.callingEdges side id).length + 1)
        (store.nodes.map (·.id)) w.met node.id hnode hmet
      rw [List.map_cons, List.sum_cons] at hopen
      dsimp only at hopen hmark
      omega

/-- The bound on the turns is never what ends the walk. -/
theorem followCalls_stops :
    store.followCallsTurn side maxDepth
      (loop (store.followCallsTurn side maxDepth) (store.callTurns side startId)
        (CallWalk.openFrame store side maxDepth ⟨[], [], []⟩ startId 0)) = none := by
  apply loop_stops (fun _ _ => followCallsTurn_inv) (fun _ _ => followCallsTurn_decreases)
    (@callInv_root store side startId maxDepth)
  have hopen := @turnsLeft_openFrame store side maxDepth ⟨[], [], []⟩ startId 0 List.not_mem_nil
  have hall := unmarked_le (fun id => (store.callingEdges side id).length + 1)
    (store.nodes.map (·.id)) ([] ++ [startId])
  rw [callTurns, List.map_cons, List.sum_cons]
  simp only [List.map_nil, List.sum_nil, Nat.zero_add] at hopen
  omega

/-! ## What the walk reports -/

theorem callPath_of_within {c : Nat} {id : String}
    (h : Descent.Within (store.callHops side) maxDepth startId c id) :
    store.CallPath side startId c id ∧ c ≤ maxDepth := by
  induction h with
  | start => exact ⟨CallPath.start, Nat.zero_le _⟩
  | hop walk room mem ih =>
      obtain ⟨e, he, hhop⟩ := List.mem_filterMap.mp mem
      obtain ⟨n, hn, rfl⟩ := Option.map_eq_some_iff.mp hhop
      exact ⟨CallPath.edge ih.1 he hn, room⟩

theorem within_of_callPath {k : Nat} {id : String} (h : store.CallPath side startId k id)
    (hk : k ≤ maxDepth) : Descent.Within (store.callHops side) maxDepth startId k id := by
  induction h with
  | start => exact Descent.Within.start
  | edge walk mem exists_ ih =>
      rename_i k id e n
      have hhop : (⟨n.id, 1⟩ : Hop String) ∈ store.callHops side id :=
        List.mem_filterMap.mpr ⟨e, mem, by rw [exists_]; rfl⟩
      exact Descent.Within.hop (ih (by omega)) hk hhop

/-- The finished walk stands for a finished descent. -/
theorem followCalls_descends (store : GraphReader) (side : Side) (startId : String)
    (maxDepth : Nat) :
    ∃ s, Descent.Descends (store.callHops side) maxDepth startId s ∧ s.pending = [] ∧
      s.nodes = startId :: (store.followCalls side startId maxDepth).map fun r => r.node.id := by
  have hinv := loop_invariant (fun _ _ => followCallsTurn_inv) (store.callTurns side startId)
    (@callInv_root store side startId maxDepth)
  have hstop := @followCalls_stops store side startId maxDepth
  obtain ⟨s, hs⟩ := hinv.simulates
  refine ⟨s, hs.descends, ?_, hs.met.trans hinv.out⟩
  have hcosts := hs.pending
  rw [stack_of_stopped hstop] at hcosts
  exact List.map_eq_nil_iff.mp hcosts

/-- The walk reports the neighbourhood exactly when nothing within the distance lies
behind a node that descent order meets at the boundary although it is nearer. -/
theorem exactNeighbourhood_iff (store : GraphReader) (side : Side) (startId : String)
    (maxDepth : Nat) :
    store.ExactNeighbourhood side startId maxDepth ↔
      ∃ lead, Descent.Leading (store.callHops side) maxDepth startId lead ∧
        Descent.Unobstructed (store.callHops side) maxDepth startId lead := by
  obtain ⟨s, hs, hend, hnodes⟩ := store.followCalls_descends side startId maxDepth
  have hreported : ∀ id, id ≠ startId → (id ∈ s.nodes ↔
      ∃ r ∈ store.followCalls side startId maxDepth, r.node.id = id) := by
    intro id hid
    rw [hnodes, List.mem_cons, List.mem_map]
    simp [hid]
  have honce := hs.inv.once
  rw [hnodes, List.nodup_cons] at honce
  rw [← hs.complete_iff hend]
  constructor
  · intro h c id hwalk
    by_cases hid : id = startId
    · rw [hnodes, hid]
      exact List.mem_cons_self
    · obtain ⟨hpath, hle⟩ := callPath_of_within hwalk
      exact (hreported id hid).mpr ((h.reported id hid).mpr ⟨c, hle, hpath⟩)
  · intro h
    refine ⟨fun id hid => ?_, honce.2⟩
    rw [← hreported id hid]
    constructor
    · intro hmem
      obtain ⟨c, hwalk⟩ := hs.within hend hmem
      obtain ⟨hpath, hle⟩ := callPath_of_within hwalk
      exact ⟨c, hle, hpath⟩
    · rintro ⟨k, hk, hpath⟩
      exact h k id (within_of_callPath hpath hk)

/-- A function calls two others, of which the first calls the second, and the second
one calls a fourth. -/
def diamond : GraphReader :=
  ofRows (["s", "a", "b", "c"].map fun id => ⟨id, .function, id, id, "f.ts", .typescript, 1⟩)
    ([("s", "a"), ("s", "b"), ("a", "b"), ("b", "c")].map fun (source, target) =>
      ⟨source, target, .calls, none, none, none, none⟩)
    (by decide)

theorem exactNeighbourhood_fails : ¬ diamond.ExactNeighbourhood .outgoing "s" 2 := by
  intro h
  have hpath : diamond.CallPath .outgoing "s" 2 "c" := by
    have hb : diamond.CallPath .outgoing "s" 1 "b" :=
      @CallPath.edge _ _ _ _ _ ⟨"s", "b", .calls, none, none, none, none⟩ ⟨"b", .function, "b", "b",
        "f.ts", .typescript, 1⟩ CallPath.start (by decide) (by decide)
    exact @CallPath.edge _ _ _ _ _ ⟨"b", "c", .calls, none, none, none, none⟩ ⟨"c", .function, "c",
      "c", "f.ts", .typescript, 1⟩ hb (by decide) (by decide)
  have hreported := (h.reported "c" (by decide)).mpr ⟨2, le_refl 2, hpath⟩
  revert hreported
  decide

end GraphReader

end AfyxGraph.Graph
