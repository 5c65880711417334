import AfyxGraph.Core.FirstCome
import AfyxGraph.Graph.DirectedFlow

/-! # Flows among named symbols

A search breadth first from one named symbol for the others. It passes a bounded number of nodes,
and a bounded run of nodes that are not named: a named node ends a run and a route does not count.
A node belongs to the chain that gets to it first, whatever the run of that chain is.
-/

namespace AfyxGraph.Graph

open AfyxGraph.Core Extraction

def namedVisits : Nat := 1500

def namedSeeds : Nat := 8

/-- A bound on a count. -/
inductive CountLimit where
  | atMost (bound : Int)
  | infinite
  deriving DecidableEq, Repr

def CountLimit.Allows : CountLimit → Nat → Prop
  | .atMost bound, count => (count : Int) ≤ bound
  | .infinite, _ => True

instance (limit : CountLimit) (count : Nat) : Decidable (limit.Allows count) :=
  match limit with
  | .atMost bound => inferInstanceAs (Decidable ((count : Int) ≤ bound))
  | .infinite => inferInstanceAs (Decidable True)

theorem CountLimit.Allows.mono {limit : CountLimit} {count fewer : Nat} (h : limit.Allows count)
    (hle : fewer ≤ count) : limit.Allows fewer := by
  cases limit with
  | atMost bound => exact Int.le_trans (Int.ofNat_le.mpr hle) h
  | infinite => trivial

structure PendingNode where
  nodeId : String
  edges : Nat
  unnamedRun : Nat

/-- The search between two turns; `pending` are the nodes from the cursor on. -/
structure NamedWalk where
  parents : List (String × ParentLink)
  pending : List PendingNode
  reached : List String

/-- The unnamed run at a node that is entered after a run. -/
def unnamedRunAt (namedIds : List String) (node : Node) (run : Nat) : Nat :=
  if node.id ∈ namedIds then 0
  else if node.kind = .route then run
  else run + 1

/-- A callee of the current node. -/
def NamedWalk.follow (namedIds : List String) (maxBridge : CountLimit) (current : PendingNode)
    (w : NamedWalk) (r : Reached) : NamedWalk :=
  if r.edge.kind ∉ flowEdgeKinds ∨ r.node.id ∈ w.parents.map Prod.fst then w
  else
    let unnamedRun := unnamedRunAt namedIds r.node current.unnamedRun
    if ¬ maxBridge.Allows unnamedRun then w
    else
      { w with
        parents := w.parents ++ [(r.node.id, ⟨some current.nodeId, some r.edge, r.node⟩)]
        pending := w.pending ++ [⟨r.node.id, current.edges + 1, unnamedRun⟩] }

namespace GraphReader

variable (store : GraphReader)

section Walk

variable (seed : Node) (namedIds : List String) (maxHops maxBridge : CountLimit)

/-- One turn of the `while` loop. -/
def namedTurn (w : NamedWalk) : Option NamedWalk :=
  match w.pending with
  | [] => none
  | current :: pending =>
      if w.parents.length < namedVisits then
        let reached :=
          if current.nodeId ≠ seed.id ∧ current.nodeId ∈ namedIds then
            w.reached ++ [current.nodeId]
          else w.reached
        let w := { w with pending, reached }
        -- `current.edges >= maxHops - 1`: no room for one more node
        if ¬ maxHops.Allows (current.edges + 2) then some w
        else
          some ((store.calleesOf current.nodeId 1).foldl
            (NamedWalk.follow namedIds maxBridge current) w)
      else none

def namedStart : NamedWalk := ⟨[(seed.id, ⟨none, none, seed⟩)], [⟨seed.id, 0, 0⟩], []⟩

/-- Every turn takes up a visited node, so the limit on visits bounds the turns. -/
def namedWalk : NamedWalk :=
  loop (store.namedTurn seed namedIds maxHops maxBridge) namedVisits (namedStart seed)

end Walk

/-- The longer of two paths, the earlier one of two that are as long. -/
def deeper (deepest : Option (List FlowStep)) (candidate : List FlowStep) :
    Option (List FlowStep) :=
  match deepest with
  | none => some candidate
  | some steps => if steps.length < candidate.length then some candidate else some steps

def namedPaths (named : List (String × Node)) (maxHops maxBridge : CountLimit) :
    List (List FlowStep) :=
  let namedIds := named.map Prod.fst
  ((named.map Prod.snd).take namedSeeds).filterMap fun seed =>
    let walk := store.namedWalk seed namedIds maxHops maxBridge
    (walk.reached.map (stepsFrom walk.parents)).foldl deeper none

/-! ## What it is to find -/

variable (seed : Node) (namedIds : List String) (maxHops maxBridge : CountLimit)

/-- A chain of calls and navigations up to its last node, with the unnamed run there. The run does
not exceed the bridge at any node. -/
inductive BridgedChain : List FlowStep → Node → Nat → Prop
  | start : BridgedChain [⟨seed, none⟩] seed 0
  | step {steps : List FlowStep} {node next : Node} {e : Edge} {run : Nat}
      (chain : BridgedChain steps node run) (leaves : e ∈ store.outgoing node.id)
      (kind : e.kind ∈ flowEdgeKinds) (enters : store.getNodeById e.target = some next)
      (within : maxBridge.Allows (unnamedRunAt namedIds next run)) :
      BridgedChain (steps ++ [⟨next, some e⟩]) next (unnamedRunAt namedIds next run)

/-- A chain of no more nodes than the hops allow. -/
def BridgedTo (id : String) (steps : List FlowStep) : Prop :=
  ∃ last run, store.BridgedChain seed namedIds maxBridge steps last run ∧ last.id = id ∧
    maxHops.Allows steps.length

/-- The search ends with its queue, and not at the limit on visits. -/
def NamedWithinVisits : Prop :=
  (store.namedWalk seed namedIds maxHops maxBridge).pending = []

/-- The named nodes that chains lead to are reached, with a chain for each of them. -/
structure NamedContract : Prop where
  reached : ∀ id, id ∈ namedIds → id ≠ seed.id →
    (id ∈ (store.namedWalk seed namedIds maxHops maxBridge).reached ↔
      ∃ steps, store.BridgedTo seed namedIds maxHops maxBridge id steps)
  steps : ∀ id ∈ (store.namedWalk seed namedIds maxHops maxBridge).reached,
    id ∈ namedIds ∧ id ≠ seed.id ∧ store.BridgedTo seed namedIds maxHops maxBridge id
      (stepsFrom (store.namedWalk seed namedIds maxHops maxBridge).parents id)

/-! ## Which chain comes first -/

/-- The unnamed run along a chain of ids, the last one first. -/
def runAlong : List String → Nat
  | [] => 0
  | [_] => 0
  | id :: chain =>
      match store.getNodeById id with
      | none => 0
      | some node => unnamedRunAt namedIds node (runAlong chain)

/-- The callees that may follow a chain, in their order. -/
def flowOffers : List String → List String
  | [] => [seed.id]
  | id :: chain =>
      if ¬ maxHops.Allows (chain.length + 2) then []
      else
        let run := store.runAlong namedIds (id :: chain)
        ((store.calleesOf id 1).filter fun r => r.edge.kind ∈ flowEdgeKinds ∧
          maxBridge.Allows (unnamedRunAt namedIds r.node run)).map (·.node.id)

/-- Where a chain leads to a named node, one comes first to it. -/
def FirstComersSuffice : Prop :=
  ∀ id ∈ namedIds, id ≠ seed.id →
    (∃ steps, store.BridgedTo seed namedIds maxHops maxBridge id steps) →
      ∃ chain, FirstCome (store.flowOffers seed namedIds maxHops maxBridge) (id :: chain)

end GraphReader

end AfyxGraph.Graph
