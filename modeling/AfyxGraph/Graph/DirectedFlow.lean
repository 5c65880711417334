import AfyxGraph.Core.Distance
import AfyxGraph.Graph.NearestCalls
import Mathlib.Data.Set.Card

/-! # A flow between two symbols

The search for a chain of calls and navigations from a source to one of several destinations. It
grows from both ends, the end with the smaller frontier first, and stops at the first level after
which the two sides have a node in common.
-/

namespace AfyxGraph.Graph

open AfyxGraph.Core Extraction

def flowEdgeKinds : List EdgeKind := [.calls, .navigates]

def directedVisitsPerSide : Nat := 12000

structure FlowStep where
  node : Node
  edge : Option Edge
  deriving DecidableEq, Repr

structure ParentLink where
  previous : Option String
  edge : Option Edge
  node : Node

/-- What follows a node on the way to a destination. -/
structure NextLink where
  next : String
  edge : Edge

/-- A set of ids in the order in which they were added. -/
structure DestinationIds where
  ids : List String
  distinct : ids.Nodup

/-! ## The two sides -/

/-- The nodes of one side with their links, and the ones of the last level. -/
structure SearchSide (α : Type) where
  known : List (String × α)
  frontier : List Node

section Side

variable {α : Type}

/-- A neighbour of a frontier node; `grown` has the next frontier. -/
def SearchSide.reach (link : Reached → α) (grown : SearchSide α) (r : Reached) : SearchSide α :=
  if r.edge.kind ∉ flowEdgeKinds ∨ r.node.id ∈ grown.known.map Prod.fst then grown
  else ⟨grown.known ++ [(r.node.id, link r)], grown.frontier ++ [r.node]⟩

/-- The side one level on. -/
def SearchSide.expand (near : String → List Reached) (link : String → Reached → α)
    (s : SearchSide α) : SearchSide α :=
  s.frontier.foldl (fun grown current =>
    (near current.id).foldl (SearchSide.reach (link current.id)) grown) ⟨s.known, []⟩

end Side

structure DirectedSearch where
  forward : SearchSide ParentLink
  /-- No link at a destination. -/
  backward : SearchSide (Option NextLink)
  backwardNodes : List (String × Node)

def DirectedSearch.meetingNode (s : DirectedSearch) : Option String :=
  (s.forward.known.map Prod.fst).find? fun id => id ∈ s.backward.known.map Prod.fst

/-- The way back to the source, under a bound. -/
def stepsBack (parents : List (String × ParentLink)) : Nat → Option String → List FlowStep
  | 0, _ => []
  | _ + 1, none => []
  | turns + 1, some cursor =>
      match parents.lookup cursor with
      | none => []
      | some link => ⟨link.node, link.edge⟩ :: stepsBack parents turns link.previous

def stepsFrom (parents : List (String × ParentLink)) (targetId : String) : List FlowStep :=
  (stepsBack parents parents.length (some targetId)).reverse

/-- The way on to a destination, under a bound. -/
def stepsOn (backward : List (String × Option NextLink)) (backwardNodes : List (String × Node)) :
    Nat → String → List FlowStep
  | 0, _ => []
  | turns + 1, id =>
      match backward.lookup id with
      | some (some link) =>
          match backwardNodes.lookup link.next with
          | none => []
          | some node => ⟨node, some link.edge⟩ :: stepsOn backward backwardNodes turns link.next
      | _ => []

def DirectedSearch.steps (s : DirectedSearch) (meeting : String) : List FlowStep :=
  stepsFrom s.forward.known meeting ++
    stepsOn s.backward.known s.backwardNodes s.backward.known.length meeting

/-- How a level ends: a `break` for either reason, or the search one level on. -/
inductive LevelEnd where
  | visits
  | exhausted
  | grown (s : DirectedSearch)

/-- How the levels end. -/
inductive SearchEnd where
  | visits
  | exhausted
  | spent
  | met (s : DirectedSearch) (meeting : String)

namespace GraphReader

variable (store : GraphReader)

def directedLevel (s : DirectedSearch) : LevelEnd :=
  if s.forward.frontier.length ≤ s.backward.frontier.length then
    if directedVisitsPerSide < s.forward.known.length then .visits
    else
      let next := s.forward.expand (store.calleesOf · 1)
        fun current r => ⟨some current, some r.edge, r.node⟩
      if next.frontier = [] then .exhausted else .grown { s with forward := next }
  else if directedVisitsPerSide < s.backward.known.length then .visits
  else
    let next := s.backward.expand (store.callersOf · 1) fun current r => some ⟨current, r.edge⟩
    if next.frontier = [] then .exhausted
    else
      .grown { s with
        backward := next
        backwardNodes := s.backwardNodes ++ next.frontier.map fun n => (n.id, n) }

/-- The levels that the edge budget leaves. -/
def directedLevels : (remaining : Nat) → DirectedSearch → SearchEnd
  | 0, _ => .spent
  | remaining + 1, s =>
      match store.directedLevel s with
      | .visits => .visits
      | .exhausted => .exhausted
      | .grown s =>
          match s.meetingNode with
          | none => directedLevels remaining s
          | some meeting => .met s meeting

variable (source : Node) (destinationIds : DestinationIds)

def searchStart : DirectedSearch :=
  let found := destinationIds.ids.filterMap store.getNodeById
  { forward := ⟨[(source.id, ⟨none, none, source⟩)], [source]⟩
    backward := ⟨found.map fun n => (n.id, none), found⟩
    backwardNodes := found.map fun n => (n.id, n) }

def edgeBudget (maxHops : Nat) : Nat := max 1 (maxHops - 1)

def directedSearch (maxHops : Nat) : SearchEnd :=
  store.directedLevels (edgeBudget maxHops) (store.searchStart source destinationIds)

def directedWalk (maxHops : Nat) : Option (List FlowStep) :=
  if source.id ∈ destinationIds.ids then none
  else if (store.searchStart source destinationIds).backward.frontier = [] then none
  else
    match store.directedSearch source destinationIds maxHops with
    | .met s meeting =>
        let steps := s.steps meeting
        match steps.getLast? with
        | none => none
        | some last =>
            if steps.length < 2 ∨ last.node.id ∉ destinationIds.ids then none
            else if steps.length ≤ maxHops then some steps else none
    | _ => none

/-! ## What it is to find -/

/-- A chain of calls and navigations through existing nodes, up to its last node. -/
inductive FlowChain : List FlowStep → Node → Prop
  | start : FlowChain [⟨source, none⟩] source
  | step {steps : List FlowStep} {node next : Node} {e : Edge} (chain : FlowChain steps node)
      (leaves : e ∈ store.outgoing node.id) (kind : e.kind ∈ flowEdgeKinds)
      (enters : store.getNodeById e.target = some next) :
      FlowChain (steps ++ [⟨next, some e⟩]) next

/-- A chain to a destination. -/
def FlowTo (steps : List FlowStep) : Prop :=
  ∃ last, store.FlowChain source steps last ∧ last.id ∈ destinationIds.ids

/-- The answer is a chain with the fewest nodes, and there is none only where it is to be. -/
structure FlowContract (maxHops : Nat) : Prop where
  absent : (source.id ∈ destinationIds.ids ∨
      ¬ ∃ steps, store.FlowTo source destinationIds steps ∧ steps.length ≤ maxHops) →
    store.directedWalk source destinationIds maxHops = none
  found : source.id ∉ destinationIds.ids →
    (∃ steps, store.FlowTo source destinationIds steps ∧ steps.length ≤ maxHops) →
      ∃ steps, store.directedWalk source destinationIds maxHops = some steps ∧
        store.FlowTo source destinationIds steps ∧ steps.length ≤ maxHops ∧
          ∀ other, store.FlowTo source destinationIds other → steps.length ≤ other.length

/-- The limit on visits does not end the search. -/
def WithinVisits (maxHops : Nat) : Prop :=
  store.directedSearch source destinationIds maxHops ≠ .visits

/-- The answer is right for every number of hops. -/
def DirectedContract : Prop :=
  ∀ maxHops, 2 ≤ maxHops → store.WithinVisits source destinationIds maxHops →
    store.FlowContract source destinationIds maxHops

/-! ## What the neighbours tell -/

/-- One symbol calls or navigates to another. -/
def Flows (u v : String) : Prop :=
  ∃ e ∈ store.outgoing u, e.kind ∈ flowEdgeKinds ∧ e.target = v ∧
    (store.getNodeById v).isSome = true

/-- The first calling edge between a symbol and its neighbour is a call or navigation. -/
def Reports (side : Side) (u v : String) : Prop :=
  v ≠ u ∧ (store.getNodeById v).isSome = true ∧
    ∃ e, (store.callingEdges side u).find? (fun e => side.endOf e = v) = some e ∧
      e.kind ∈ flowEdgeKinds

def Destination (v : String) : Prop :=
  v ∈ destinationIds.ids ∧ (store.getNodeById v).isSome = true

/-- The nodes of a side at so many levels. -/
def ForwardAt (i : Nat) (v : String) : Prop :=
  AtDistance (store.Reports .outgoing) (· = source.id) i v

def BackwardAt (j : Nat) (v : String) : Prop :=
  AtDistance (store.Reports .incoming) (store.Destination destinationIds) j v

/-- How many levels are forward and how many backward, the side with fewer nodes first. -/
noncomputable def split : Nat → Nat × Nat
  | 0 => (0, 0)
  | level + 1 =>
      let (i, j) := split level
      if {v | store.ForwardAt source i v}.ncard ≤ {v | store.BackwardAt destinationIds j v}.ncard
        then (i + 1, j)
        else (i, j + 1)

/-- The number of edges of the shortest chains to a destination. -/
def ShortestFlow (edges : Nat) : Prop :=
  (∃ v, store.Destination destinationIds v ∧ Steps store.Flows (· = source.id) edges v) ∧
    ∀ other v, store.Destination destinationIds v → Steps store.Flows (· = source.id) other v →
      edges ≤ other

/-- A shortest chain is reported: its first edges by the callees, the others by the callers. -/
def Reported : Prop :=
  source.id ∉ destinationIds.ids → ∀ edges, store.ShortestFlow source destinationIds edges →
    store.WithinVisits source destinationIds (edges + 1) →
      ∃ v, Steps (store.Reports .outgoing) (· = source.id)
          (store.split source destinationIds edges).1 v ∧
        Steps (store.Reports .incoming) (store.Destination destinationIds)
          (store.split source destinationIds edges).2 v

end GraphReader

end AfyxGraph.Graph
