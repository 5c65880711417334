import AfyxGraph.Core.Distance
import AfyxGraph.Graph.Impact
import Mathlib.Data.ENat.Basic

/-! # Walk requests

How traversal options become a plan, and how a direction turns into the edges to follow from a
node.
-/

namespace AfyxGraph.Graph

open AfyxGraph.Core Extraction

inductive Direction where
  | outgoing
  | incoming
  | both
  deriving DecidableEq, Repr

/-- A traversal request with every knob resolved; `⊤` is `Infinity`. -/
structure WalkRequest where
  maxDepth : ℕ∞
  edgeKinds : List EdgeKind
  nodeKinds : List NodeKind
  direction : Direction
  limit : ℕ∞
  includeStart : Bool

/-- The keys a caller passes. A key passed as `undefined` is compared as it is: the walks then
treat it like `⊤`, an empty list, `both` and `false`. -/
structure TraversalOptions where
  maxDepth : Option ℕ∞ := none
  edgeKinds : Option (List EdgeKind) := none
  nodeKinds : Option (List NodeKind) := none
  direction : Option Direction := none
  limit : Option ℕ∞ := none
  includeStart : Option Bool := none

def BASELINE_REQUEST : WalkRequest := ⟨⊤, [], [], .outgoing, 1000, true⟩

def resolveWalkRequest (options : TraversalOptions) : WalkRequest where
  maxDepth := options.maxDepth.getD BASELINE_REQUEST.maxDepth
  edgeKinds := options.edgeKinds.getD BASELINE_REQUEST.edgeKinds
  nodeKinds := options.nodeKinds.getD BASELINE_REQUEST.nodeKinds
  direction := options.direction.getD BASELINE_REQUEST.direction
  limit := options.limit.getD BASELINE_REQUEST.limit
  includeStart := options.includeStart.getD BASELINE_REQUEST.includeStart

/-- The endpoint of an edge that is not `from_` (the target, for a self edge). -/
def farEnd (edge : Edge) (from_ : String) : String :=
  if edge.source = from_ then edge.target else edge.source

def WalkRequest.passesKindFilter (request : WalkRequest) (node : Node) : Prop :=
  request.nodeKinds = [] ∨ node.kind ∈ request.nodeKinds

instance (request : WalkRequest) (node : Node) : Decidable (request.passesKindFilter node) :=
  inferInstanceAs (Decidable (_ ∨ _))

def kindText : EdgeKind → String
  | .contains => "contains"
  | .calls => "calls"
  | .imports => "imports"
  | .exports => "exports"
  | .extends => "extends"
  | .implements => "implements"
  | .references => "references"
  | .typeOf => "type_of"
  | .returns => "returns"
  | .instantiates => "instantiates"
  | .overrides => "overrides"
  | .decorates => "decorates"
  | .navigates => "navigates"

def positionText : Option Nat → String
  | none => "-1"
  | some n => toString n

/-- Two edges are the same edge when endpoint, kind and call-site position all agree. -/
def edgeIdentity (edge : Edge) : String :=
  "|".intercalate [edge.source, edge.target, kindText edge.kind, positionText edge.line,
    positionText edge.column]

namespace GraphReader

variable (store : GraphReader)

/-- Outgoing edges are listed before incoming ones. -/
def edgesAround (nodeId : String) : (direction : Direction) → (kinds : List EdgeKind) → List Edge
  | .outgoing, kinds => store.getOutgoingEdges nodeId kinds
  | .incoming, kinds => store.getIncomingEdges nodeId kinds
  | .both, kinds => store.getOutgoingEdges nodeId kinds ++ store.getIncomingEdges nodeId kinds

/-- The edges that a request follows from a node. -/
def adjacent (request : WalkRequest) (id : String) : List Edge :=
  store.edgesAround id request.direction request.edgeKinds

/-- Over one edge to an existing node that passes the kind filter. -/
def Hops (request : WalkRequest) (u v : String) : Prop :=
  ∃ e ∈ store.adjacent request u, farEnd e u = v ∧
    ∃ n, store.getNodeById v = some n ∧ request.passesKindFilter n

variable {store}

/-- An edge around a node has it for one of its ends and the far end for the other. -/
theorem ends_of_adjacent {request : WalkRequest} {id : String} {e : Edge}
    (h : e ∈ store.adjacent request id) :
    (e.source = id ∧ e.target = farEnd e id) ∨ (e.source = farEnd e id ∧ e.target = id) := by
  have hout : e ∈ store.getOutgoingEdges id request.edgeKinds →
      e.source = id ∧ e.target = farEnd e id := by
    intro hmem
    have hsource := store.leaves id e (List.mem_of_mem_filter hmem)
    exact ⟨hsource, by rw [farEnd, if_pos hsource]⟩
  have hin : e ∈ store.getIncomingEdges id request.edgeKinds →
      (e.source = id ∧ e.target = farEnd e id) ∨ (e.source = farEnd e id ∧ e.target = id) := by
    intro hmem
    have htarget := store.enters id e (List.mem_of_mem_filter hmem)
    by_cases hsource : e.source = id
    · exact .inl ⟨hsource, by rw [farEnd, if_pos hsource]⟩
    · exact .inr ⟨by rw [farEnd, if_neg hsource], htarget⟩
  unfold adjacent edgesAround at h
  split at h
  · exact .inl (hout h)
  · exact hin h
  · exact (List.mem_append.mp h).elim (fun h => .inl (hout h)) hin

end GraphReader

end AfyxGraph.Graph
