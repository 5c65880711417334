import AfyxGraph.Core.Groups
import AfyxGraph.Extraction.Types
import AfyxGraph.Store.Tables
import Mathlib.Data.List.Nodup

/-! # Budgets of an expanded context

The policies applied to a context in order: the node limit, the cap on the nodes of one file, the
cap on non-production nodes, and the recovery of edges among the nodes that are left. The map of
nodes is the list of its values, whose ids are its keys, in the order of insertion.
-/

namespace AfyxGraph.Context

open AfyxGraph.Core AfyxGraph.Extraction

/-! ## Requests, graphs and storage -/

structure FindSettings where
  maxNodes : Nat

structure Request where
  settings : FindSettings
  mentionsTests : Bool
  isTestFile : String → Bool

def nodeIds (nodes : List Node) : List String := nodes.map (·.id)

def getNode (nodes : List Node) (id : String) : Option Node := nodes.find? (·.id = id)

def deleteNode (nodes : List Node) (id : String) : List Node := nodes.filter (·.id ≠ id)

/-- What `addRoot`, `addNode` and `addEdge` build up: every root's node is set, and no entry point
is added twice. -/
structure ContextGraph where
  nodes : List Node
  roots : List String
  edges : List Edge
  nodup_nodes : (nodeIds nodes).Nodup
  nodup_roots : roots.Nodup
  roots_mem : ∀ id ∈ roots, id ∈ nodeIds nodes

/-- The rows of the edge table, in the order in which a query reads them. -/
structure QueryBuilder where
  rows : List Edge

def QueryBuilder.findEdgesBetweenNodes (queries : QueryBuilder) (ids : List String)
    (kinds : List EdgeKind) : List Edge :=
  if ids = [] then []
  else queries.rows.filter fun edge =>
    edge.source ∈ ids ∧ edge.target ∈ ids ∧ (kinds = [] ∨ edge.kind ∈ kinds)

/-! ## Constants -/

/-- In percent. -/
def FILE_SHARE := 20
def MIN_PER_FILE := 5
/-- In percent. -/
def NON_PRODUCTION_SHARE := 15
def MIN_NON_PRODUCTION := 3
def ENTRY_WEIGHT := 10

/-- Higher survives a cut within a file: type definitions, then callables, then data. -/
def KIND_WEIGHT : NodeKind → Nat
  | .class | .interface | .struct | .trait | .protocol | .enum => 3
  | .method | .function => 1
  | _ => 0

def RECOVERED_KINDS : List EdgeKind :=
  [.calls, .extends, .implements, .references, .overrides, .navigates]

/-- `Math.ceil(maxNodes * share)` -/
def shareOf (percent maxNodes : Nat) : Nat := (maxNodes * percent + 99) / 100

def perFileCap (maxNodes : Nat) : Nat := max MIN_PER_FILE (shareOf FILE_SHARE maxNodes)

def nonProductionCap (maxNodes : Nat) : Nat :=
  max MIN_NON_PRODUCTION (shareOf NON_PRODUCTION_SHARE maxNodes)

theorem perFileCap_eq (maxNodes : Nat) : perFileCap maxNodes = max 5 ((maxNodes + 4) / 5) := by
  rw [perFileCap, shareOf, MIN_PER_FILE, FILE_SHARE]
  congr 1
  omega

theorem nonProductionCap_eq (maxNodes : Nat) :
    nonProductionCap maxNodes = max 3 ((15 * maxNodes + 99) / 100) := by
  rw [nonProductionCap, shareOf, MIN_NON_PRODUCTION, NON_PRODUCTION_SHARE, Nat.mul_comm]

/-! ## The policies -/

/-- `Set.add` -/
def addId (ids : List String) (id : String) : List String := if id ∈ ids then ids else ids ++ [id]

def visitEdge (priority : List String) (edge : Edge) : List String :=
  let forward := if edge.source ∈ priority then addId priority edge.target else priority
  if edge.target ∈ forward then addId forward edge.source else forward

/-- Entry points, then everything one hop from the growing set. -/
def priorityOrder (graph : ContextGraph) : List String := graph.edges.foldl visitEdge graph.roots

/-- No id comes up twice in the priority order, so that setting it adds it at the end. -/
def keepPriority (graph : ContextGraph) (maxNodes : Nat) (kept : List Node) (id : String) :
    List Node :=
  match getNode graph.nodes id with
  | some node => if kept.length < maxNodes then kept ++ [node] else kept
  | none => kept

def fillDiscovered (maxNodes : Nat) : (kept nodes : List Node) → List Node
  | kept, [] => kept
  | kept, node :: nodes =>
      if maxNodes ≤ kept.length then kept
      else if node.id ∈ nodeIds kept then fillDiscovered maxNodes kept nodes
      else fillDiscovered maxNodes (kept ++ [node]) nodes

def limitNodes (graph : ContextGraph) (maxNodes : Nat) : List Node :=
  if graph.nodes.length ≤ maxNodes then graph.nodes
  else fillDiscovered maxNodes
    ((priorityOrder graph).foldl (keepPriority graph maxNodes) []) graph.nodes

def weight (nodes : List Node) (roots : List String) (id : String) : Nat :=
  (if id ∈ roots then ENTRY_WEIGHT else 0) + ((getNode nodes id).map (KIND_WEIGHT ·.kind)).getD 0

/-- A group is sorted before any of its nodes is deleted, so its weights are those of `nodes`. -/
def capPerFile (nodes : List Node) (roots : List String) (maxNodes : Nat) : List Node :=
  let cap := perFileCap maxNodes
  let idsByFile := groupBy (·.filePath) (·.id) nodes
  idsByFile.foldl (fun kept entry =>
    if entry.2.length ≤ cap then kept
    else (beyond (weight nodes roots) cap entry.2).foldl deleteNode kept) nodes

/-- The nodes, and the roots of the graph, which lose the demoted ones. -/
def capNonProduction (req : Request) (nodes : List Node) (roots : List String) (maxNodes : Nat) :
    List Node × List String :=
  if req.mentionsTests then (nodes, roots)
  else
    let cap := nonProductionCap maxNodes
    let nonProduction := nodeIds (nodes.filter fun node => req.isTestFile node.filePath)
    if nonProduction.length ≤ cap then (nodes, roots)
    else (nonProduction.drop cap).foldl (fun kept id => (deleteNode kept.1 id, kept.2.erase id))
      (nodes, roots)

def edgeKey (edge : Edge) : String :=
  edge.source ++ "\u0000" ++ edge.target ++ "\u0000" ++ Store.kindText edge.kind

/-- The rows whose key is not yet known. -/
def recoverEdges : (known : List String) → (rows : List Edge) → List Edge
  | _, [] => []
  | known, edge :: rows =>
      if edgeKey edge ∈ known then recoverEdges known rows
      else edge :: recoverEdges (edgeKey edge :: known) rows

structure Subgraph where
  nodes : List Node
  edges : List Edge
  roots : List String
  deriving DecidableEq

/-- Edges with both ends among the nodes. -/
def edgesAmong (edges : List Edge) (nodes : List Node) : List Edge :=
  edges.filter fun edge => edge.source ∈ nodeIds nodes ∧ edge.target ∈ nodeIds nodes

/-- The nodes and the edges, and what is then left in the roots of the graph. -/
def applyBudgets (graph : ContextGraph) (req : Request) (queries : QueryBuilder) : Subgraph :=
  let maxNodes := req.settings.maxNodes
  let limited := limitNodes graph maxNodes
  let capped := capNonProduction req (capPerFile limited graph.roots maxNodes) graph.roots maxNodes
  let edges := edgesAmong graph.edges capped.1
  let rows := queries.findEdgesBetweenNodes (nodeIds capped.1) RECOVERED_KINDS
  { nodes := capped.1, edges := edges ++ recoverEdges (edges.map edgeKey) rows, roots := capped.2 }

/-! ## Nodes by id -/

section Nodes

variable {nodes : List Node} {node : Node} {id : String} {ids : List String}

theorem nodup_append_one (hid : id ∉ ids) : (ids ++ [id]).Nodup ↔ ids.Nodup := by
  rw [← List.concat_eq_append, List.nodup_concat]
  exact and_iff_right hid

theorem mem_nodeIds : id ∈ nodeIds nodes ↔ ∃ node ∈ nodes, node.id = id := List.mem_map

theorem id_mem_nodeIds (h : node ∈ nodes) : node.id ∈ nodeIds nodes := List.mem_map_of_mem h

theorem eq_of_id_eq (h : (nodeIds nodes).Nodup) {other : Node} (hnode : node ∈ nodes)
    (hother : other ∈ nodes) (heq : node.id = other.id) : node = other :=
  List.inj_on_of_nodup_map h hnode hother heq

theorem getNode_eq_some (h : getNode nodes id = some node) : node ∈ nodes ∧ node.id = id :=
  ⟨List.mem_of_find?_eq_some h, by simpa using List.find?_some h⟩

/-- Ids that are keys of the map read their nodes, one after the other. -/
theorem nodeIds_filterMap_getNode (h : ∀ id ∈ ids, id ∈ nodeIds nodes) :
    nodeIds (ids.filterMap (getNode nodes)) = ids := by
  induction ids with
  | nil => rfl
  | cons id ids ih =>
      cases hget : getNode nodes id with
      | none =>
          obtain ⟨node, hnode, hid⟩ := mem_nodeIds.mp (h id List.mem_cons_self)
          exact absurd hid (by simpa using List.find?_eq_none.mp hget node hnode)
      | some node =>
          rw [List.filterMap_cons_some hget, nodeIds, List.map_cons, (getNode_eq_some hget).2]
          exact congrArg _ (ih fun other hother => h other (List.mem_cons_of_mem _ hother))

theorem nodeIds_filterMap_getNode_sublist (ids : List String) (nodes : List Node) :
    (nodeIds (ids.filterMap (getNode nodes))).Sublist ids := by
  induction ids with
  | nil => exact List.Sublist.slnil
  | cons id ids ih =>
      cases hget : getNode nodes id with
      | none =>
          rw [List.filterMap_cons_none hget]
          exact ih.cons _
      | some node =>
          rw [List.filterMap_cons_some hget, nodeIds, List.map_cons, (getNode_eq_some hget).2]
          exact ih.cons_cons _

theorem foldl_deleteNode (ids : List String) (nodes : List Node) :
    ids.foldl deleteNode nodes = nodes.filter (·.id ∉ ids) := by
  induction ids generalizing nodes with
  | nil => simp
  | cons id ids ih =>
      rw [List.foldl_cons, ih, deleteNode, List.filter_filter]
      refine List.filter_congr fun node _ => ?_
      simp only [List.mem_cons, not_or, ← Bool.decide_and, and_comm]

end Nodes

/-! ## The node limit -/

section Limit

variable {graph : ContextGraph} {maxNodes : Nat} {kept nodes : List Node} {node : Node}

/-- What adding an id keeps, the priority order keeps of the entry points. -/
theorem priorityOrder_induction {P : List String → Prop} (hroots : P graph.roots)
    (hadd : ∀ ids id, P ids → P (addId ids id)) : P (priorityOrder graph) := by
  have hvisit : ∀ priority edge, P priority → P (visitEdge priority edge) := by
    intro priority edge h
    unfold visitEdge
    by_cases hsource : edge.source ∈ priority
    · simp only [if_pos hsource]
      split
      · exact hadd _ _ (hadd _ _ h)
      · exact hadd _ _ h
    · simp only [if_neg hsource]
      split
      · exact hadd _ _ h
      · exact h
  have hfold : ∀ (edges : List Edge) priority, P priority → P (edges.foldl visitEdge priority) := by
    intro edges
    induction edges with
    | nil => exact fun _ h => h
    | cons edge edges ih => exact fun priority h => ih _ (hvisit priority edge h)
  exact hfold graph.edges graph.roots hroots

/-- The entry points come first in the priority order. -/
theorem roots_prefix_priorityOrder (graph : ContextGraph) :
    graph.roots <+: priorityOrder graph := by
  refine priorityOrder_induction (List.prefix_refl _) fun ids id h => ?_
  unfold addId
  split
  · exact h
  · exact h.trans (List.prefix_append _ _)

theorem nodup_priorityOrder (graph : ContextGraph) : (priorityOrder graph).Nodup := by
  refine priorityOrder_induction graph.nodup_roots fun ids id h => ?_
  unfold addId
  split
  · exact h
  · next hid => exact (nodup_append_one hid).mpr h

/-- The first fill takes the nodes of the ids in order, as many as there is room for. -/
theorem foldl_keepPriority (graph : ContextGraph) (maxNodes : Nat) (ids : List String)
    (kept : List Node) : ids.foldl (keepPriority graph maxNodes) kept =
      kept ++ (ids.filterMap (getNode graph.nodes)).take (maxNodes - kept.length) := by
  induction ids generalizing kept with
  | nil => simp
  | cons id ids ih =>
      rw [List.foldl_cons, ih, keepPriority]
      cases hget : getNode graph.nodes id with
      | none => rw [List.filterMap_cons_none hget]
      | some node =>
          rw [List.filterMap_cons_some hget]
          simp only
          split
          · next hroom =>
              obtain ⟨room, hlength⟩ : ∃ room, maxNodes - kept.length = room + 1 :=
                ⟨maxNodes - kept.length - 1, by omega⟩
              have hrest : maxNodes - (kept ++ [node]).length = room := by
                rw [List.length_append, List.length_singleton]
                omega
              rw [hlength, hrest, List.take_succ_cons, List.append_assoc, List.singleton_append]
          · next hfull =>
              rw [show maxNodes - kept.length = 0 by omega, List.take_zero, List.take_zero]

/-- What a fill may go through: distinct ids, of nodes of the graph, within the limit. -/
structure Kept (graph : ContextGraph) (maxNodes : Nat) (kept : List Node) : Prop where
  nodup : (nodeIds kept).Nodup
  subset : kept ⊆ graph.nodes
  length_le : kept.length ≤ maxNodes

theorem kept_fillDiscovered (h : Kept graph maxNodes kept) (hnodes : nodes ⊆ graph.nodes) :
    Kept graph maxNodes (fillDiscovered maxNodes kept nodes) := by
  induction nodes generalizing kept with
  | nil => exact h
  | cons node nodes ih =>
      have hrest := fun other hother => hnodes (List.mem_cons_of_mem node (a := other) hother)
      unfold fillDiscovered
      split
      · exact h
      · next hroom =>
          split
          · exact ih h hrest
          · next hnew =>
              refine ih ⟨?_, ?_, ?_⟩ hrest
              · rw [nodeIds, List.map_append]
                exact (nodup_append_one hnew).mpr h.nodup
              · exact List.append_subset.mpr
                  ⟨h.subset, fun other hother => hnodes (by simp_all)⟩
              · rw [List.length_append, List.length_singleton]
                omega

theorem prefix_fillDiscovered (maxNodes : Nat) (kept nodes : List Node) :
    kept <+: fillDiscovered maxNodes kept nodes := by
  induction nodes generalizing kept with
  | nil => exact List.prefix_refl _
  | cons node nodes ih =>
      unfold fillDiscovered
      split
      · exact List.prefix_refl _
      · split
        · exact ih kept
        · exact (List.prefix_append _ _).trans (ih _)

theorem kept_limitNodes (graph : ContextGraph) (maxNodes : Nat) :
    Kept graph maxNodes (limitNodes graph maxNodes) := by
  unfold limitNodes
  split
  · next hfits => exact ⟨graph.nodup_nodes, fun _ h => h, hfits⟩
  · rw [foldl_keepPriority, List.nil_append]
    refine kept_fillDiscovered ⟨?_, ?_, ?_⟩ fun _ h => h
    · rw [nodeIds, List.map_take]
      refine List.Nodup.sublist (List.take_sublist _ _) ?_
      exact (nodup_priorityOrder graph).sublist (nodeIds_filterMap_getNode_sublist _ _)
    · intro node hnode
      obtain ⟨id, -, hid⟩ := List.mem_filterMap.mp (List.mem_of_mem_take hnode)
      exact (getNode_eq_some hid).1
    · exact List.length_take_le _ _

/-- All entry points are within the limit exactly if there are not too many of them. -/
theorem roots_mem_limitNodes_iff (graph : ContextGraph) (maxNodes : Nat) :
    (∀ id ∈ graph.roots, id ∈ nodeIds (limitNodes graph maxNodes)) ↔
      graph.roots.length ≤ maxNodes := by
  constructor
  · intro hroots
    have hlength := (List.subperm_of_subset graph.nodup_roots hroots).length_le
    rw [nodeIds, List.length_map] at hlength
    exact Nat.le_trans hlength (kept_limitNodes graph maxNodes).length_le
  · intro hfew id hid
    unfold limitNodes
    split
    · exact graph.roots_mem id hid
    · rw [foldl_keepPriority, List.nil_append]
      obtain ⟨more, hmore⟩ := roots_prefix_priorityOrder graph
      have hread := nodeIds_filterMap_getNode graph.roots_mem
      have hlength := congrArg List.length hread
      rw [nodeIds, List.length_map] at hlength
      have hmem : id ∈ nodeIds (graph.roots.filterMap (getNode graph.nodes)) := by rwa [hread]
      obtain ⟨node, hnode, rfl⟩ := mem_nodeIds.mp hmem
      refine id_mem_nodeIds ((prefix_fillDiscovered _ _ _).subset ?_)
      rw [← hmore, List.filterMap_append, List.length_nil, Nat.sub_zero,
        List.take_append, List.take_of_length_le (by omega)]
      exact List.mem_append_left _ hnode

end Limit

/-! ## The cap on one file -/

section PerFile

variable {nodes : List Node} {roots : List String} {maxNodes cap : Nat} {file a b : String}

theorem KIND_WEIGHT_le (kind : NodeKind) : KIND_WEIGHT kind ≤ 3 := by
  cases kind <;> decide

/-- An entry point outweighs everything that is none, whatever the kinds. -/
theorem weight_lt (ha : a ∈ roots) (hb : b ∉ roots) :
    weight nodes roots b < weight nodes roots a := by
  have hkind : ((getNode nodes b).map (KIND_WEIGHT ·.kind)).getD 0 ≤ 3 := by
    cases getNode nodes b with
    | none => exact Nat.zero_le _
    | some node => exact KIND_WEIGHT_le node.kind
  rw [weight, weight, if_pos ha, if_neg hb, ENTRY_WEIGHT]
  omega

def idsIn (nodes : List Node) (file : String) : List String :=
  nodeIds (nodes.filter (·.filePath = file))

theorem mem_idsIn {id : String} :
    id ∈ idsIn nodes file ↔ ∃ node ∈ nodes, node.filePath = file ∧ node.id = id := by
  simp only [idsIn, mem_nodeIds, List.mem_filter, decide_eq_true_eq, and_assoc]

theorem nodup_idsIn (h : (nodeIds nodes).Nodup) (file : String) : (idsIn nodes file).Nodup :=
  h.sublist (List.filter_sublist.map _)

/-- A node with one of a file's ids is a node of the file. -/
theorem filePath_of_mem_idsIn (h : (nodeIds nodes).Nodup) {node : Node} (hnode : node ∈ nodes)
    (hid : node.id ∈ idsIn nodes file) : node.filePath = file := by
  obtain ⟨other, hother, hfile, heq⟩ := mem_idsIn.mp hid
  rwa [← eq_of_id_eq h hother hnode heq]

theorem foldl_deleteGroups {rank : String → Nat} (groups : List (String × List String))
    (kept : List Node) :
    groups.foldl (fun kept entry =>
      if entry.2.length ≤ cap then kept
      else (beyond rank cap entry.2).foldl deleteNode kept) kept =
    kept.filter fun node => ∀ entry ∈ groups, node.id ∉ beyond rank cap entry.2 := by
  induction groups generalizing kept with
  | nil => simp
  | cons entry groups ih =>
      have hdelete : (if entry.2.length ≤ cap then kept
          else (beyond rank cap entry.2).foldl deleteNode kept) =
          kept.filter (·.id ∉ beyond rank cap entry.2) := by
        split
        · next hshort =>
            have hnone : beyond rank cap entry.2 = [] := by
              refine List.drop_eq_nil_of_le ?_
              rwa [(byRank_perm rank entry.2).length_eq]
            simp [hnone]
        · exact foldl_deleteNode _ _
      rw [List.foldl_cons, hdelete, ih, List.filter_filter]
      refine List.filter_congr fun node _ => ?_
      simp only [List.forall_mem_cons, Bool.decide_and, Bool.and_comm]

/-- A node stays unless it is beyond the cap of its own file. -/
theorem mem_capPerFile (h : (nodeIds nodes).Nodup) {node : Node} :
    node ∈ capPerFile nodes roots maxNodes ↔ node ∈ nodes ∧
      node.id ∉ beyond (weight nodes roots) (perFileCap maxNodes) (idsIn nodes node.filePath) := by
  unfold capPerFile
  simp only [foldl_deleteGroups, List.mem_filter, decide_eq_true_eq]
  refine and_congr_right fun hnode => ?_
  constructor
  · intro hall
    refine hall (node.filePath, idsIn nodes node.filePath) (mem_groupBy.mpr ⟨?_, rfl⟩)
    exact List.mem_map.mpr ⟨node, hnode, rfl⟩
  · rintro hown ⟨file, ids⟩ hentry hbeyond
    obtain ⟨-, rfl⟩ := mem_groupBy.mp hentry
    rw [← filePath_of_mem_idsIn h hnode (mem_of_mem_beyond hbeyond)] at hbeyond
    exact hown hbeyond

theorem capPerFile_sublist (nodes : List Node) (roots : List String) (maxNodes : Nat) :
    (capPerFile nodes roots maxNodes).Sublist nodes := by
  unfold capPerFile
  simp only [foldl_deleteGroups]
  exact List.filter_sublist

theorem length_filter_capPerFile (h : (nodeIds nodes).Nodup) (file : String) :
    ((capPerFile nodes roots maxNodes).filter (·.filePath = file)).length ≤
      perFileCap maxNodes := by
  have hsub : idsIn (capPerFile nodes roots maxNodes) file ⊆ (idsIn nodes file).filter
      (· ∉ beyond (weight nodes roots) (perFileCap maxNodes) (idsIn nodes file)) := by
    intro id hid
    obtain ⟨node, hnode, rfl, rfl⟩ := mem_idsIn.mp hid
    obtain ⟨hnode, hkept⟩ := (mem_capPerFile h).mp hnode
    exact List.mem_filter.mpr ⟨mem_idsIn.mpr ⟨node, hnode, rfl, rfl⟩, by simpa using hkept⟩
  have hnodup := nodup_idsIn (h.sublist ((capPerFile_sublist nodes roots maxNodes).map _)) file
  have hlength := (List.subperm_of_subset hnodup hsub).length_le
  rw [idsIn, nodeIds, List.length_map] at hlength
  exact Nat.le_trans hlength (length_filter_not_mem_beyond (nodup_idsIn h file))

/-- All entry points survive exactly if no file has more of them than its cap. -/
theorem roots_mem_capPerFile_iff (h : (nodeIds nodes).Nodup)
    (hroots : ∀ id ∈ roots, id ∈ nodeIds nodes) :
    (∀ id ∈ roots, id ∈ nodeIds (capPerFile nodes roots maxNodes)) ↔
      ∀ file, ((idsIn nodes file).filter (· ∈ roots)).length ≤ perFileCap maxNodes := by
  have hfits : ∀ file, (∀ id ∈ idsIn nodes file, id ∈ roots →
        id ∉ beyond (weight nodes roots) (perFileCap maxNodes) (idsIn nodes file)) ↔
      ((idsIn nodes file).filter (· ∈ roots)).length ≤ perFileCap maxNodes := fun file =>
    forall_not_mem_beyond_iff (nodup_idsIn h file) fun a b => weight_lt
  simp only [← hfits]
  constructor
  · intro hall file id hid hroot
    obtain ⟨node, hnode, rfl⟩ := mem_nodeIds.mp (hall id hroot)
    obtain ⟨hnode, hkept⟩ := (mem_capPerFile h).mp hnode
    rwa [← filePath_of_mem_idsIn h hnode hid]
  · intro hall id hroot
    obtain ⟨node, hnode, rfl⟩ := mem_nodeIds.mp (hroots id hroot)
    refine id_mem_nodeIds ((mem_capPerFile h).mpr ⟨hnode, ?_⟩)
    exact hall node.filePath node.id (mem_idsIn.mpr ⟨node, hnode, rfl, rfl⟩) hroot

end PerFile

/-! ## The cap on non-production nodes -/

section NonProduction

variable {req : Request} {nodes : List Node} {roots : List String} {maxNodes : Nat}

def nonProductionIds (req : Request) (nodes : List Node) : List String :=
  nodeIds (nodes.filter fun node => req.isTestFile node.filePath)

def demoted (req : Request) (nodes : List Node) (maxNodes : Nat) : List String :=
  if req.mentionsTests then [] else (nonProductionIds req nodes).drop (nonProductionCap maxNodes)

theorem mem_of_mem_demoted {id : String} (h : id ∈ demoted req nodes maxNodes) :
    id ∈ nodeIds nodes := by
  unfold demoted at h
  split at h
  · cases h
  · exact (List.filter_sublist.map _).subset (List.mem_of_mem_drop h)

theorem capNonProduction_eq (req : Request) (nodes : List Node) (roots : List String)
    (maxNodes : Nat) : capNonProduction req nodes roots maxNodes =
      (nodes.filter (·.id ∉ demoted req nodes maxNodes),
        roots.diff (demoted req nodes maxNodes)) := by
  have hfold : ∀ (ids : List String) (nodes : List Node) (roots : List String),
      ids.foldl (fun kept id => (deleteNode kept.1 id, kept.2.erase id)) (nodes, roots) =
        (ids.foldl deleteNode nodes, ids.foldl List.erase roots) := by
    intro ids
    induction ids with
    | nil => exact fun _ _ => rfl
    | cons id ids ih => exact fun nodes roots => ih _ _
  unfold capNonProduction demoted
  split
  · simp
  · simp only [hfold, foldl_deleteNode, ← List.diff_eq_foldl]
    split
    · next hshort =>
        have hnone : (nonProductionIds req nodes).drop (nonProductionCap maxNodes) = [] :=
          List.drop_eq_nil_of_le hshort
        simp [hnone]
    · rfl

theorem length_filter_capNonProduction (h : (nodeIds nodes).Nodup)
    (hreq : req.mentionsTests = false) :
    ((capNonProduction req nodes roots maxNodes).1.filter
      fun node => req.isTestFile node.filePath).length ≤ nonProductionCap maxNodes := by
  have hnodup : (nonProductionIds req nodes).Nodup := h.sublist (List.filter_sublist.map _)
  rw [capNonProduction_eq, List.filter_filter]
  have hids : nodeIds (nodes.filter fun node =>
      req.isTestFile node.filePath && decide (node.id ∉ demoted req nodes maxNodes)) =
      (nonProductionIds req nodes).filter (· ∉ demoted req nodes maxNodes) := by
    rw [nonProductionIds, nodeIds, nodeIds, List.filter_map, List.filter_filter]
    exact congrArg _ (List.filter_congr fun node _ => Bool.and_comm _ _)
  have hlength := congrArg List.length hids
  rw [nodeIds, List.length_map] at hlength
  rw [hlength, demoted, if_neg (by simp [hreq]), filter_not_mem_drop hnodup]
  exact List.length_take_le _ _

/-- Ids are taken out of the roots and out of the nodes together. -/
theorem roots_mem_capNonProduction_iff (h : roots.Nodup) :
    (∀ id ∈ (capNonProduction req nodes roots maxNodes).2,
      id ∈ nodeIds (capNonProduction req nodes roots maxNodes).1) ↔
      ∀ id ∈ roots, id ∈ nodeIds nodes := by
  rw [capNonProduction_eq]
  constructor
  · intro hall id hid
    by_cases hdemoted : id ∈ demoted req nodes maxNodes
    · exact mem_of_mem_demoted hdemoted
    · have hkept := hall id (h.mem_sdiff_iff.mpr ⟨hid, hdemoted⟩)
      exact (List.filter_sublist.map _).subset hkept
  · intro hall id hid
    obtain ⟨hroot, hkept⟩ := h.mem_sdiff_iff.mp hid
    obtain ⟨node, hnode, rfl⟩ := mem_nodeIds.mp (hall id hroot)
    exact id_mem_nodeIds (List.mem_filter.mpr ⟨hnode, by simpa using hkept⟩)

end NonProduction

/-! ## Recovered edges -/

section Recovery

variable {edge other : Edge} {known : List String} {rows : List Edge}

def SameEdge (edge other : Edge) : Prop :=
  edge.source = other.source ∧ edge.target = other.target ∧ edge.kind = other.kind

theorem SameEdge.edgeKey_eq (h : SameEdge edge other) : edgeKey edge = edgeKey other := by
  obtain ⟨hsource, htarget, hkind⟩ := h
  rw [edgeKey, hsource, htarget, hkind, ← edgeKey]

theorem recoverEdges_sublist (known : List String) (rows : List Edge) :
    (recoverEdges known rows).Sublist rows := by
  induction rows generalizing known with
  | nil => exact List.Sublist.slnil
  | cons edge rows ih =>
      unfold recoverEdges
      split
      · exact (ih known).cons _
      · exact (ih _).cons_cons _

theorem edgeKey_not_mem_known (h : edge ∈ recoverEdges known rows) : edgeKey edge ∉ known := by
  induction rows generalizing known with
  | nil => cases h
  | cons row rows ih =>
      unfold recoverEdges at h
      split at h
      · exact ih h
      · next hrow =>
          rcases List.mem_cons.mp h with rfl | h
          · exact hrow
          · exact fun hmem => ih h (List.mem_cons_of_mem _ hmem)

theorem pairwise_recoverEdges (known : List String) (rows : List Edge) :
    (recoverEdges known rows).Pairwise (fun edge other => edgeKey edge ≠ edgeKey other) := by
  induction rows generalizing known with
  | nil => exact List.Pairwise.nil
  | cons row rows ih =>
      unfold recoverEdges
      split
      · exact ih known
      · refine List.pairwise_cons.mpr ⟨fun other hother heq => ?_, ih _⟩
        exact edgeKey_not_mem_known hother (heq ▸ List.mem_cons_self)

theorem ends_of_mem_findEdgesBetweenNodes {queries : QueryBuilder} {ids : List String}
    {kinds : List EdgeKind} (h : edge ∈ queries.findEdgesBetweenNodes ids kinds) :
    edge.source ∈ ids ∧ edge.target ∈ ids := by
  unfold QueryBuilder.findEdgesBetweenNodes at h
  split at h
  · cases h
  · have hends := (List.mem_filter.mp h).2
    simp only [decide_eq_true_eq] at hends
    exact ⟨hends.1, hends.2.1⟩

end Recovery

/-! ## All budgets together -/

/-- What a subgraph trimmed to its budgets is like. The shares are rounded up. -/
structure Subgraph.WithinBudgets (result : Subgraph) (graph : ContextGraph) (req : Request) :
    Prop where
  nodes_le : result.nodes.length ≤ req.settings.maxNodes
  file_le : ∀ file, (result.nodes.filter (·.filePath = file)).length ≤
    max 5 ((req.settings.maxNodes + 4) / 5)
  nonProduction_le : req.mentionsTests = false →
    (result.nodes.filter fun node => req.isTestFile node.filePath).length ≤
      max 3 ((15 * req.settings.maxNodes + 99) / 100)
  closed : ∀ edge ∈ result.edges,
    edge.source ∈ nodeIds result.nodes ∧ edge.target ∈ nodeIds result.nodes
  recovered : ∃ recovered, result.edges = edgesAmong graph.edges result.nodes ++ recovered ∧
    (∀ edge ∈ recovered, ∀ other ∈ edgesAmong graph.edges result.nodes, ¬ SameEdge edge other) ∧
    recovered.Pairwise fun edge other => ¬ SameEdge edge other
  roots : ∀ id ∈ result.roots, id ∈ nodeIds result.nodes

def entryPointsIn (graph : ContextGraph) (file : String) : List Node :=
  graph.nodes.filter fun node => node.filePath = file ∧ node.id ∈ graph.roots

section Together

variable {graph : ContextGraph} {req : Request} {queries : QueryBuilder}

/-- The node limit leaves a file's entry points as they are if it leaves all of them. -/
theorem length_entryPoints_limited {maxNodes : Nat}
    (h : ∀ id ∈ graph.roots, id ∈ nodeIds (limitNodes graph maxNodes)) (file : String) :
    ((idsIn (limitNodes graph maxNodes) file).filter (· ∈ graph.roots)).length =
      (entryPointsIn graph file).length := by
  have hkept := kept_limitNodes graph maxNodes
  have hnodup : (nodeIds (entryPointsIn graph file)).Nodup :=
    graph.nodup_nodes.sublist (List.filter_sublist.map _)
  have hperm : ((idsIn (limitNodes graph maxNodes) file).filter (· ∈ graph.roots)).Perm
      (nodeIds (entryPointsIn graph file)) := by
    refine (List.perm_ext_iff_of_nodup ((nodup_idsIn hkept.nodup file).filter _) hnodup).mpr
      fun id => ?_
    simp only [List.mem_filter, mem_idsIn, mem_nodeIds, entryPointsIn, decide_eq_true_eq]
    constructor
    · rintro ⟨⟨node, hnode, hfile, rfl⟩, hroot⟩
      exact ⟨node, ⟨hkept.subset hnode, hfile, hroot⟩, rfl⟩
    · rintro ⟨node, ⟨hnode, hfile, hroot⟩, rfl⟩
      obtain ⟨other, hother, heq⟩ := mem_nodeIds.mp (h node.id hroot)
      have hsame := eq_of_id_eq graph.nodup_nodes (hkept.subset hother) hnode heq
      exact ⟨⟨node, hsame ▸ hother, hfile, rfl⟩, hroot⟩
  rw [hperm.length_eq, nodeIds, List.length_map]

theorem roots_mem_applyBudgets_iff :
    (∀ id ∈ (applyBudgets graph req queries).roots,
      id ∈ nodeIds (applyBudgets graph req queries).nodes) ↔
      graph.roots.length ≤ req.settings.maxNodes ∧
        ∀ file, (entryPointsIn graph file).length ≤ perFileCap req.settings.maxNodes := by
  have hkept := kept_limitNodes graph req.settings.maxNodes
  refine (roots_mem_capNonProduction_iff graph.nodup_roots).trans ?_
  rw [← roots_mem_limitNodes_iff]
  constructor
  · intro hall
    have hlimited : ∀ id ∈ graph.roots, id ∈ nodeIds (limitNodes graph req.settings.maxNodes) :=
      fun id hid => ((capPerFile_sublist _ _ _).map _).subset (hall id hid)
    have hfiles := (roots_mem_capPerFile_iff hkept.nodup hlimited).mp hall
    exact ⟨hlimited, fun file => length_entryPoints_limited hlimited file ▸ hfiles file⟩
  · rintro ⟨hlimited, hfiles⟩
    refine (roots_mem_capPerFile_iff hkept.nodup hlimited).mpr fun file => ?_
    exact (length_entryPoints_limited hlimited file).symm ▸ hfiles file

/-- What is left is a part of what the caps before left. -/
theorem applyBudgets_nodes_sublist : (applyBudgets graph req queries).nodes.Sublist
    (capPerFile (limitNodes graph req.settings.maxNodes) graph.roots req.settings.maxNodes) := by
  unfold applyBudgets
  simp only [capNonProduction_eq]
  exact List.filter_sublist

theorem nodes_applyBudgets_le (graph : ContextGraph) (req : Request) (queries : QueryBuilder) :
    (applyBudgets graph req queries).nodes.length ≤ req.settings.maxNodes := by
  have hlimited := (kept_limitNodes graph req.settings.maxNodes).length_le
  have hcapped := (capPerFile_sublist (limitNodes graph req.settings.maxNodes) graph.roots
    req.settings.maxNodes).length_le
  exact Nat.le_trans applyBudgets_nodes_sublist.length_le (Nat.le_trans hcapped hlimited)

theorem file_applyBudgets_le (graph : ContextGraph) (req : Request) (queries : QueryBuilder)
    (file : String) : ((applyBudgets graph req queries).nodes.filter (·.filePath = file)).length ≤
      perFileCap req.settings.maxNodes := by
  have hcapped : ((capPerFile (limitNodes graph req.settings.maxNodes) graph.roots
      req.settings.maxNodes).filter (·.filePath = file)).length ≤
        perFileCap req.settings.maxNodes :=
    length_filter_capPerFile (kept_limitNodes graph req.settings.maxNodes).nodup file
  exact Nat.le_trans (applyBudgets_nodes_sublist.filter _).length_le hcapped

theorem nonProduction_applyBudgets_le (graph : ContextGraph) (req : Request)
    (queries : QueryBuilder) (h : req.mentionsTests = false) :
    ((applyBudgets graph req queries).nodes.filter fun node =>
      req.isTestFile node.filePath).length ≤ nonProductionCap req.settings.maxNodes := by
  refine length_filter_capNonProduction ?_ h
  exact (kept_limitNodes graph req.settings.maxNodes).nodup.sublist
    ((capPerFile_sublist _ _ _).map _)

theorem closed_applyBudgets {edge : Edge} (h : edge ∈ (applyBudgets graph req queries).edges) :
    edge.source ∈ nodeIds (applyBudgets graph req queries).nodes ∧
      edge.target ∈ nodeIds (applyBudgets graph req queries).nodes := by
  rcases List.mem_append.mp h with hkept | hrecovered
  · exact of_decide_eq_true (List.mem_filter.mp hkept).2
  · exact ends_of_mem_findEdgesBetweenNodes ((recoverEdges_sublist _ _).subset hrecovered)

/-- The roots may be too many; every other budget holds of every graph. -/
theorem applyBudgets_withinBudgets_iff (graph : ContextGraph) (req : Request)
    (queries : QueryBuilder) :
    (applyBudgets graph req queries).WithinBudgets graph req ↔
      graph.roots.length ≤ req.settings.maxNodes ∧
        ∀ file, (entryPointsIn graph file).length ≤ max 5 ((req.settings.maxNodes + 4) / 5) := by
  simp only [← perFileCap_eq]
  refine ⟨fun h => roots_mem_applyBudgets_iff.mp h.roots, fun h => ?_⟩
  exact {
    nodes_le := nodes_applyBudgets_le graph req queries
    file_le := fun file => perFileCap_eq _ ▸ file_applyBudgets_le graph req queries file
    nonProduction_le := fun hreq =>
      nonProductionCap_eq _ ▸ nonProduction_applyBudgets_le graph req queries hreq
    closed := fun _ hedge => closed_applyBudgets hedge
    recovered := ⟨_, rfl,
      fun edge hedge other hother hsame => edgeKey_not_mem_known hedge
        (List.mem_map.mpr ⟨other, hother, hsame.edgeKey_eq.symm⟩),
      (pairwise_recoverEdges _ _).imp fun hne hsame => hne hsame.edgeKey_eq⟩
    roots := roots_mem_applyBudgets_iff.mpr h }

/-- Three entry points in files of their own. -/
def threeEntries : ContextGraph where
  nodes := ["a", "b", "c"].map fun id => ⟨id, .function, id, id, id ++ ".ts", .typescript, 1⟩
  roots := ["a", "b", "c"]
  edges := []
  nodup_nodes := by decide
  nodup_roots := by decide
  roots_mem := by decide

/-- With room for two nodes the third entry point is cut, and yet it stays a root. -/
theorem threeEntries_leaves_root :
    ¬ (applyBudgets threeEntries ⟨⟨2⟩, false, fun _ => false⟩ ⟨[]⟩).WithinBudgets threeEntries
      ⟨⟨2⟩, false, fun _ => false⟩ := by
  intro h
  have hroots : ¬ ∀ id ∈ (applyBudgets threeEntries ⟨⟨2⟩, false, fun _ => false⟩ ⟨[]⟩).roots,
      id ∈ nodeIds (applyBudgets threeEntries ⟨⟨2⟩, false, fun _ => false⟩ ⟨[]⟩).nodes := by
    decide +kernel
  exact hroots h.roots

end Together

end AfyxGraph.Context
