import AfyxGraph.Extraction.Types
import Mathlib.Data.List.Nodup

/-! # The read surface of the graph

What a walk over the graph can ask of the store. The adjacency lists are in the order
in which the store returns them; a kind filter keeps that order.
-/

namespace AfyxGraph.Graph

open Extraction

/-- A finite store whose node and edge lookups agree with each other. -/
structure GraphReader where
  nodes : List Node
  /-- Edges that leave a node. -/
  outgoing : String → List Edge
  /-- Edges that enter a node. -/
  incoming : String → List Edge
  ids : (nodes.map (·.id)).Nodup
  leaves : ∀ id, ∀ e ∈ outgoing id, e.source = id
  enters : ∀ id, ∀ e ∈ incoming id, e.target = id
  agree : ∀ e, e ∈ outgoing e.source ↔ e ∈ incoming e.target

/-- A node reached through an edge. -/
structure Reached where
  node : Node
  edge : Edge
  deriving DecidableEq, Repr

/-- The nodes of a result by id; `get` is by id, and the order is that of the store. -/
abbrev Found := List Node

def Found.get (found : Found) (id : String) : Option Node := found.find? fun n => n.id = id

theorem Found.get_id {found : Found} {id : String} {node : Node} (h : found.get id = some node) :
    node.id = id := by
  simpa using List.find?_some h

theorem Found.get_append_some {found more : Found} {id : String} {n : Node}
    (h : found.get id = some n) : Found.get (found ++ more) id = some n := by
  rw [Found.get, List.find?_append]
  exact Option.or_eq_some_iff.mpr (.inl h)

namespace GraphReader

variable (store : GraphReader)

def getNodeById (id : String) : Option Node := store.nodes.find? fun n => n.id = id

/-- Unknown ids are absent from the result. -/
def getNodesByIds (ids : List String) : Found := store.nodes.filter fun n => n.id ∈ ids

/-- All kinds when `kinds` is empty. -/
def getOutgoingEdges (id : String) (kinds : List EdgeKind) : List Edge :=
  (store.outgoing id).filter fun e => kinds = [] ∨ e.kind ∈ kinds

def getIncomingEdges (id : String) (kinds : List EdgeKind) : List Edge :=
  (store.incoming id).filter fun e => kinds = [] ∨ e.kind ∈ kinds

variable {store}

theorem getNodeById_id {id : String} {n : Node} (h : store.getNodeById id = some n) :
    n.id = id := by
  simpa using List.find?_some h

theorem getNodeById_mem {id : String} {n : Node} (h : store.getNodeById id = some n) :
    n ∈ store.nodes := List.mem_of_find?_eq_some h

/-- A bulk lookup answers for each of its ids what the single one does. -/
theorem get_getNodesByIds {ids : List String} {id : String} (h : id ∈ ids) :
    (store.getNodesByIds ids).get id = store.getNodeById id := by
  unfold getNodesByIds Found.get getNodeById
  rw [List.find?_filter]
  congr 1
  funext n
  by_cases hn : n.id = id <;> simp [hn, h]

/-- The reader over lists of rows. -/
def ofRows (nodes : List Node) (edges : List Edge) (ids : (nodes.map (·.id)).Nodup) :
    GraphReader where
  nodes
  outgoing id := edges.filter fun e => e.source = id
  incoming id := edges.filter fun e => e.target = id
  ids
  leaves id e he := by simpa using (List.mem_filter.mp he).2
  enters id e he := by simpa using (List.mem_filter.mp he).2
  agree e := by simp

end GraphReader

end AfyxGraph.Graph
