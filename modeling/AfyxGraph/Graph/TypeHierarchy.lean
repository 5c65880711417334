import AfyxGraph.Core.Distance
import AfyxGraph.Core.Entries
import AfyxGraph.Core.Loop
import AfyxGraph.Graph.Reader
import Mathlib.Data.Set.Card

/-! # Subtypes of a type

The downward walk of the type hierarchy: one batched edge read per layer, a cap on the rows and a
cap on the depth. What the caps leave out is counted at the entry it would stand under.
-/

namespace AfyxGraph.Graph

open AfyxGraph.Core Extraction

inductive HierarchyRelation where
  | extends
  | implements
  deriving DecidableEq, Repr

/-- One type in the tree, and the single edge that puts it there. -/
structure HierarchyEntry where
  node : Node
  depth : Nat
  parentId : String
  relation : HierarchyRelation
  edge : Edge
  synthesized : Bool
  hiddenSubtypes : Nat
  deriving DecidableEq, Repr

/-- The batched lookups, over the nodes and edges of one graph. The order of the edges of a read is
open. -/
structure HierarchySource where
  node : String → Option Node
  edges : List Edge
  getNodesByIds : List String → Found
  /-- All kinds when there are none. -/
  getIncomingEdgesTo : List String → List EdgeKind → List Edge
  ids : ∀ id n, node id = some n → n.id = id
  found : ∀ ids id, (getNodesByIds ids).get id = if id ∈ ids then node id else none
  incoming : ∀ ids kinds e, e ∈ getIncomingEdgesTo ids kinds ↔
    e ∈ edges ∧ e.target ∈ ids ∧ (kinds = [] ∨ e.kind ∈ kinds)

/-- What the downward walk takes of the policy. -/
structure TypeHierarchyPolicy where
  relationKinds : List EdgeKind
  descendantDepth : Nat
  descendantRows : Nat

def HIERARCHY_EDGE_KINDS : List EdgeKind := [.extends, .implements]

def MAX_DESCENDANT_DEPTH : Nat := 6

def MAX_DESCENDANTS : Nat := 400

def TYPE_HIERARCHY_POLICY : TypeHierarchyPolicy :=
  ⟨HIERARCHY_EDGE_KINDS, MAX_DESCENDANT_DEPTH, MAX_DESCENDANTS⟩

def relationOf (edge : Edge) : HierarchyRelation :=
  if edge.kind = .implements then .implements else .extends

def asEntry (node : Node) (depth : Nat) (parentId : String) (edge : Edge) : HierarchyEntry :=
  ⟨node, depth, parentId, relationOf edge, edge, edge.provenance = some "heuristic", 0⟩

/-- `Number(relation === 'implements')` -/
def HierarchyRelation.rank : HierarchyRelation → Nat
  | .extends => 0
  | .implements => 1

section Walk

variable (localeCompare : String → String → Ordering)

def presentOrder (left right : HierarchyRelation × Node) : Bool :=
  ((compare left.1.rank right.1.rank).then
    ((localeCompare left.2.name right.2.name).then
      ((localeCompare left.2.filePath right.2.filePath).then
        (compare left.2.startLine right.2.startLine)))).isLE

/-- Stable presentation order for rows discovered in one breadth-first layer. -/
def present (entries : List HierarchyEntry) : List HierarchyEntry :=
  entries.mergeSort fun left right =>
    presentOrder localeCompare (left.relation, left.node) (right.relation, right.node)

structure DescendantResult where
  entries : List HierarchyEntry
  direct : Nat
  implementers : Nat
  bounded : Bool
  deriving DecidableEq, Repr

/-- The walk between two layers. -/
structure ChildrenWalk extends DescendantResult where
  discovered : List String
  current : List String

/-- One layer while its links are read. -/
structure LayerScan where
  layer : List HierarchyEntry
  hiddenByParent : List (String × List String)
  direct : Nat
  implementers : Nat
  bounded : Bool

/-- An entry that two links put in the layer extends if one of them does. -/
def upgrade (layer : List HierarchyEntry) (id : String) (link : Edge) : List HierarchyEntry :=
  layer.map fun e =>
    if e.node.id = id ∧ e.relation = .implements ∧ link.kind = .extends then
      { e with
        relation := .extends
        edge := link
        synthesized := link.provenance = some "heuristic" }
    else e

/-- The identities hidden under a parent. -/
def hiddenAt (hiddenByParent : List (String × List String)) (parent : String) : List String :=
  (hiddenByParent.lookup parent).getD []

def hide (hiddenByParent : List (String × List String)) (parent id : String) :
    List (String × List String) :=
  setEntry hiddenByParent parent (addNew (hiddenAt hiddenByParent parent) id)

/-- One link of a layer; `rows` are the entries before it. -/
def scanLink (policy : TypeHierarchyPolicy) (nodes : Found) (discovered : List String)
    (depth rows : Nat) (s : LayerScan) (link : Edge) : LayerScan :=
  match nodes.get link.source with
  | none => s
  | some node =>
      if node.id ∈ discovered then s
      else if ∃ e ∈ s.layer, e.node.id = node.id then
        { s with layer := upgrade s.layer node.id link }
      else if node.id ∈ hiddenAt s.hiddenByParent link.target then s
      else
        let s := if depth = 1 then
            { s with
              direct := s.direct + 1
              implementers := if link.kind = .implements then s.implementers + 1
                else s.implementers }
          else s
        if policy.descendantRows ≤ rows + s.layer.length then
          { s with
            bounded := true
            hiddenByParent := hide s.hiddenByParent link.target node.id }
        else { s with layer := s.layer ++ [asEntry node depth link.target link] }

/-- `parent.hiddenSubtypes += hidden.size` for every parent that has an entry. -/
def addHidden (entries : List HierarchyEntry) (hiddenByParent : List (String × List String)) :
    List HierarchyEntry :=
  hiddenByParent.foldl (fun entries p => entries.map fun e =>
    if e.node.id = p.1 then { e with hiddenSubtypes := e.hiddenSubtypes + p.2.length } else e)
    entries

namespace HierarchySource

variable (source : HierarchySource) (policy : TypeHierarchyPolicy)

/-- The links from direct subtypes to given types. -/
def relations (ids : List String) : List Edge :=
  (source.getIncomingEdgesTo ids policy.relationKinds).filter fun e =>
    e.kind = .extends ∨ e.kind = .implements

def scanLayer (depth : Nat) (w : ChildrenWalk) (links : List Edge) : LayerScan :=
  let nodes := source.getNodesByIds (links.map (·.source))
  links.foldl (scanLink policy nodes w.discovered depth w.entries.length)
    ⟨[], [], w.direct, w.implementers, w.bounded⟩

def takeLayer (depth : Nat) (w : ChildrenWalk) (links : List Edge) : ChildrenWalk :=
  let s := source.scanLayer policy depth w links
  let ordered := present localeCompare s.layer
  { entries := addHidden (w.entries ++ ordered) s.hiddenByParent
    direct := s.direct
    implementers := s.implementers
    bounded := s.bounded
    discovered := w.discovered ++ ordered.map (·.node.id)
    current := ordered.map (·.node.id) }

/-- The look-ahead at the depth cap. -/
def lookAhead (w : ChildrenWalk) : ChildrenWalk :=
  if w.current = [] then w
  else
    let links := (source.relations policy w.current).filter (·.source ∉ w.discovered)
    let hiddenByParent := links.foldl (fun hidden e => hide hidden e.target e.source) []
    { w with
      bounded := w.bounded || !links.isEmpty
      entries := addHidden w.entries hiddenByParent }

/-- The layers that the depth cap leaves. -/
def childrenLayers : (remaining : Nat) → ChildrenWalk → ChildrenWalk
  | 0, w => w
  | remaining + 1, w =>
      if w.current = [] then w
      else
        let links := source.relations policy w.current
        if links = [] then w
        else
          let w := source.takeLayer localeCompare policy (policy.descendantDepth - remaining) w
            links
          if w.bounded then w
          else childrenLayers remaining (if remaining = 0 then source.lookAhead policy w else w)

def childrenOf (focus : Node) : DescendantResult :=
  (source.childrenLayers localeCompare policy policy.descendantDepth
    ⟨⟨[], 0, 0, false⟩, [focus.id], [focus.id]⟩).toDescendantResult

/-! ## What it is to find -/

/-- A link that the policy follows. -/
def Links (e : Edge) : Prop :=
  e ∈ source.edges ∧ (policy.relationKinds = [] ∨ e.kind ∈ policy.relationKinds) ∧
    (e.kind = .extends ∨ e.kind = .implements)

/-- An existing direct subtype. -/
def Below (u v : String) : Prop :=
  ∃ e, source.Links policy e ∧ e.target = u ∧ e.source = v ∧ (source.node v).isSome = true

/-- The existing direct subtypes, other than the focus and what is listed. -/
def unlisted (focus : Node) (id : String) : Set String :=
  {v | source.Below policy id v ∧ v ≠ focus.id ∧
    ∀ e ∈ (source.childrenOf localeCompare policy focus).entries, e.node.id ≠ v}

/-- The contract of the downward walk. -/
structure HierarchyContract (focus : Node) : Prop where
  once : ((source.childrenOf localeCompare policy focus).entries.map (·.node.id)).Nodup
  proper : ∀ e ∈ (source.childrenOf localeCompare policy focus).entries, e.node.id ≠ focus.id
  ordered : (source.childrenOf localeCompare policy focus).entries.Pairwise
    fun a b => a.depth ≤ b.depth
  nearest : ∀ e ∈ (source.childrenOf localeCompare policy focus).entries,
    AtDistance (source.Below policy) (· = focus.id) e.depth e.node.id ∧
      ∃ depth, e.depth = depth + 1 ∧
        AtDistance (source.Below policy) (· = focus.id) depth e.parentId ∧
        source.Below policy e.parentId e.node.id
  direct : 0 < policy.descendantDepth →
    (source.childrenOf localeCompare policy focus).direct =
      {v | source.Below policy focus.id v ∧ v ≠ focus.id}.ncard
  complete : 0 < policy.descendantDepth →
    (source.childrenOf localeCompare policy focus).bounded = false →
    ∀ v, v ≠ focus.id → (∃ k, Steps (source.Below policy) (· = focus.id) k v) →
      ∃ e ∈ (source.childrenOf localeCompare policy focus).entries, e.node.id = v

/-- What an entry says it hides is what it hides. -/
def HiddenExact (focus : Node) : Prop :=
  ∀ e ∈ (source.childrenOf localeCompare policy focus).entries,
    e.hiddenSubtypes = (source.unlisted localeCompare policy focus e.node.id).ncard

end HierarchySource

end Walk

end AfyxGraph.Graph
