import AfyxGraph.Core.Keyed
import AfyxGraph.Extraction.Types
import Mathlib.Data.List.Nodup

/-! # The graph tables

Rows of the SQLite store in insertion order, and the writers over them. A
writer that can break a foreign key answers nothing: its transaction rolls back
and throws. `Graph` is a store whose keys are unique and whose foreign keys hold.
-/

namespace AfyxGraph.Store

open AfyxGraph.Core Extraction

/-- The text of an edge kind, as the `kind` column has it. -/
def kindText : EdgeKind → String
  | .contains => "contains"
  | .calls => "calls"
  | .imports => "imports"
  | .exports => "exports"
  | .extends => "extends"
  | .implements => "implements"
  | .references => "references"
  | .typeOf => "type_of"
  | .returns => "returns"
  | .instantiates => "instantiates"
  | .overrides => "overrides"
  | .decorates => "decorates"
  | .navigates => "navigates"

structure FileRecord where
  path : String
  contentHash : String
  language : Language
  size : Nat
  modifiedAt : Nat
  nodeCount : Nat
  errors : List ExtractionError
  deriving DecidableEq, Repr

/-- A row of `unresolved_refs`. -/
structure ReferenceRow where
  fromNodeId : String
  referenceName : String
  referenceKind : String
  line : Nat
  column : Nat
  filePath : String
  language : Language
  deriving DecidableEq, Repr

/-- The columns of a reference; a missing file path is empty and a missing
language unknown. -/
def toRow (ref : UnresolvedReference) : ReferenceRow where
  fromNodeId := ref.fromNodeId
  referenceName := ref.referenceName
  referenceKind := ref.referenceKind
  line := ref.line
  column := ref.column
  filePath := ref.filePath.getD ""
  language := ref.language.getD .unknown

/-- What `idx_edges_identity` keeps unique. -/
structure EdgeIdentity where
  source : String
  target : String
  kind : EdgeKind
  line : Option Nat
  column : Option Nat
  deriving DecidableEq, Repr

def identity (e : Edge) : EdgeIdentity := ⟨e.source, e.target, e.kind, e.line, e.column⟩

/-- The fields without which a node cannot be stored. -/
def isStorable (n : Node) : Bool := n.id != "" && n.name != "" && n.filePath != ""

structure Tables where
  nodes : List Node := []
  edges : List Edge := []
  refs : List ReferenceRow := []
  files : List FileRecord := []
  deriving DecidableEq, Repr

namespace Tables

def Stored (t : Tables) (id : String) : Prop := ∃ n ∈ t.nodes, n.id = id

instance (t : Tables) (id : String) : Decidable (t.Stored id) :=
  inferInstanceAs (Decidable (∃ n ∈ t.nodes, n.id = id))

def getFileByPath (t : Tables) (path : String) : Option FileRecord :=
  t.files.find? fun file => file.path = path

/-! ## Writers -/

/-- Delete node rows; edges and references follow by cascade. -/
def deleteNodes (t : Tables) (gone : Node → Bool) : Tables :=
  let ids := (t.nodes.filter gone).map (·.id)
  { t with
    nodes := t.nodes.filter fun n => !gone n
    edges := t.edges.filter fun e => e.source ∉ ids ∧ e.target ∉ ids
    refs := t.refs.filter fun r => r.fromNodeId ∉ ids }

def deleteFile (t : Tables) (path : String) : Tables :=
  let t := t.deleteNodes fun n => n.filePath = path
  { t with files := t.files.filter fun file => file.path ≠ path }

/-- `INSERT OR REPLACE`: a row with the same id is deleted first. -/
def insertNode (t : Tables) (n : Node) : Tables :=
  if isStorable n then
    let t := t.deleteNodes fun old => old.id = n.id
    { t with nodes := t.nodes ++ [n] }
  else t

def insertNodes (t : Tables) (nodes : List Node) : Tables := nodes.foldl insertNode t

/-- `INSERT OR IGNORE`, endpoints unchecked; the foreign keys are enforced. -/
def insertTrusted (t : Tables) (edges : List Edge) : Option Tables :=
  let rows := insertAllOrIgnore identity t.edges edges
  if ∀ e ∈ rows, t.Stored e.source ∧ t.Stored e.target then some { t with edges := rows } else none

/-- Edges whose source or target is not a stored node are dropped. -/
def insertEdges (t : Tables) (edges : List Edge) : Option Tables :=
  t.insertTrusted (edges.filter fun e => t.Stored e.source ∧ t.Stored e.target)

def insertUnresolvedRefsBatch (t : Tables) (refs : List UnresolvedReference) : Option Tables :=
  if ∀ r ∈ refs, t.Stored r.fromNodeId then some { t with refs := t.refs ++ refs.map toRow }
  else none

def upsertFile (t : Tables) (file : FileRecord) : Tables :=
  { t with files :=
      if ∃ old ∈ t.files, old.path = file.path then
        t.files.map fun old => if old.path = file.path then file else old
      else t.files ++ [file] }

/-! ## The constraints of the schema -/

structure Valid (t : Tables) : Prop where
  ids : (t.nodes.map (·.id)).Nodup
  identities : (t.edges.map identity).Nodup
  endpoints : ∀ e ∈ t.edges, t.Stored e.source ∧ t.Stored e.target
  origins : ∀ r ∈ t.refs, t.Stored r.fromNodeId
  paths : (t.files.map (·.path)).Nodup

theorem Valid.node_unique {t : Tables} (h : t.Valid) {m n : Node} (hm : m ∈ t.nodes)
    (hn : n ∈ t.nodes) (hid : m.id = n.id) : m = n :=
  List.inj_on_of_nodup_map h.ids hm hn hid

/-! ### Deleting nodes -/

theorem mem_deleteNodes_nodes {t : Tables} {gone : Node → Bool} {n : Node} :
    n ∈ (t.deleteNodes gone).nodes ↔ n ∈ t.nodes ∧ gone n = false := by
  simp [deleteNodes]

theorem mem_deleteNodes_edges {t : Tables} {gone : Node → Bool} {e : Edge} :
    e ∈ (t.deleteNodes gone).edges ↔ e ∈ t.edges ∧
      (∀ n ∈ t.nodes, gone n = true → n.id ≠ e.source ∧ n.id ≠ e.target) := by
  simp only [deleteNodes, List.mem_filter, List.mem_map, decide_eq_true_eq]
  constructor
  · rintro ⟨he, hsource, htarget⟩
    exact ⟨he, fun n hn hgone => ⟨fun h => hsource ⟨n, ⟨hn, hgone⟩, h⟩,
      fun h => htarget ⟨n, ⟨hn, hgone⟩, h⟩⟩⟩
  · rintro ⟨he, hkept⟩
    refine ⟨he, ?_, ?_⟩
    · rintro ⟨n, ⟨hn, hgone⟩, h⟩
      exact (hkept n hn hgone).1 h
    · rintro ⟨n, ⟨hn, hgone⟩, h⟩
      exact (hkept n hn hgone).2 h

theorem mem_deleteNodes_refs {t : Tables} {gone : Node → Bool} {r : ReferenceRow} :
    r ∈ (t.deleteNodes gone).refs ↔ r ∈ t.refs ∧
      (∀ n ∈ t.nodes, gone n = true → n.id ≠ r.fromNodeId) := by
  simp only [deleteNodes, List.mem_filter, List.mem_map, decide_eq_true_eq]
  constructor
  · rintro ⟨hr, hkept⟩
    exact ⟨hr, fun n hn hgone h => hkept ⟨n, ⟨hn, hgone⟩, h⟩⟩
  · rintro ⟨hr, hkept⟩
    refine ⟨hr, ?_⟩
    rintro ⟨n, ⟨hn, hgone⟩, h⟩
    exact hkept n hn hgone h

theorem Valid.deleteNodes {t : Tables} (h : t.Valid) (gone : Node → Bool) :
    (t.deleteNodes gone).Valid where
  ids := h.ids.sublist (List.filter_sublist.map _)
  identities := h.identities.sublist (List.filter_sublist.map _)
  endpoints := by
    intro e he
    obtain ⟨he, hkept⟩ := mem_deleteNodes_edges.mp he
    obtain ⟨⟨m, hm, hsource⟩, n, hn, htarget⟩ := h.endpoints e he
    refine ⟨⟨m, mem_deleteNodes_nodes.mpr ⟨hm, ?_⟩, hsource⟩,
      n, mem_deleteNodes_nodes.mpr ⟨hn, ?_⟩, htarget⟩
    · exact Bool.eq_false_iff.mpr fun hgone => (hkept m hm hgone).1 hsource
    · exact Bool.eq_false_iff.mpr fun hgone => (hkept n hn hgone).2 htarget
  origins := by
    intro r hr
    obtain ⟨hr, hkept⟩ := mem_deleteNodes_refs.mp hr
    obtain ⟨n, hn, hid⟩ := h.origins r hr
    exact ⟨n, mem_deleteNodes_nodes.mpr
      ⟨hn, Bool.eq_false_iff.mpr fun hgone => hkept n hn hgone hid⟩, hid⟩
  paths := h.paths

theorem Valid.deleteFile {t : Tables} (h : t.Valid) (path : String) : (t.deleteFile path).Valid :=
  { h.deleteNodes _ with paths := h.paths.sublist (List.filter_sublist.map _) }

/-! ### Inserting nodes -/

theorem Valid.insertNode {t : Tables} (h : t.Valid) (n : Node) : (t.insertNode n).Valid := by
  unfold Tables.insertNode
  split
  · have hd := h.deleteNodes fun old => old.id = n.id
    refine { hd with ids := ?_, endpoints := fun e he => ?_, origins := fun r hr => ?_ }
    · rw [List.map_append, List.nodup_append]
      refine ⟨hd.ids, by simp, fun a ha b hb => ?_⟩
      obtain ⟨m, hm, rfl⟩ := List.mem_map.mp ha
      rw [List.map_singleton, List.mem_singleton] at hb
      rw [hb]
      exact of_decide_eq_false (mem_deleteNodes_nodes.mp hm).2
    · obtain ⟨⟨m, hm, hsource⟩, k, hk, htarget⟩ := hd.endpoints e he
      exact ⟨⟨m, List.mem_append_left _ hm, hsource⟩, k, List.mem_append_left _ hk, htarget⟩
    · obtain ⟨m, hm, hid⟩ := hd.origins r hr
      exact ⟨m, List.mem_append_left _ hm, hid⟩
  · exact h

theorem Valid.insertNodes {t : Tables} (h : t.Valid) (nodes : List Node) :
    (t.insertNodes nodes).Valid := by
  induction nodes generalizing t with
  | nil => exact h
  | cons n nodes ih => exact ih (h.insertNode n)

theorem insertNodes_concat (t : Tables) (nodes : List Node) (n : Node) :
    t.insertNodes (nodes ++ [n]) = (t.insertNodes nodes).insertNode n := by
  simp [insertNodes]

theorem insertNodes_append (t : Tables) (nodes more : List Node) :
    t.insertNodes (nodes ++ more) = (t.insertNodes nodes).insertNodes more := by
  simp [insertNodes]

@[simp] theorem insertNode_files (t : Tables) (n : Node) : (t.insertNode n).files = t.files := by
  unfold insertNode
  split <;> rfl

@[simp] theorem insertNodes_files (t : Tables) (nodes : List Node) :
    (t.insertNodes nodes).files = t.files := by
  induction nodes generalizing t with
  | nil => rfl
  | cons n nodes ih => exact (ih (t.insertNode n)).trans (t.insertNode_files n)

/-- Of the rows with one id the last one inserted is kept. -/
theorem mem_insertNodes_nodes {t : Tables} {nodes : List Node} (hs : ∀ n ∈ nodes, isStorable n)
    {m : Node} : m ∈ (t.insertNodes nodes).nodes ↔
      (m ∈ t.nodes ∧ ∀ n ∈ nodes, n.id ≠ m.id) ∨ LastWith (fun n => n.id = m.id) nodes m := by
  induction nodes using List.reverseRecOn with
  | nil => simp [insertNodes, not_lastWith_nil]
  | append_singleton nodes last ih =>
      have hlast : isStorable last := hs last (by simp)
      have hnodes : ∀ n ∈ nodes, isStorable n := fun n hn => hs n (by simp [hn])
      rw [insertNodes_concat, insertNode, if_pos hlast, lastWith_append_singleton]
      simp only [List.mem_append, List.mem_singleton, mem_deleteNodes_nodes, ih hnodes,
        decide_eq_false_iff_not]
      constructor
      · rintro (⟨⟨hm, hnone⟩ | hfound, hne⟩ | rfl)
        · refine Or.inl ⟨hm, fun n hn => ?_⟩
          rcases hn with hn | rfl
          · exact hnone n hn
          · exact Ne.symm hne
        · exact Or.inr (Or.inr ⟨Ne.symm hne, hfound⟩)
        · exact Or.inr (Or.inl ⟨rfl, trivial⟩)
      · rintro (⟨hm, hnone⟩ | ⟨rfl, _⟩ | ⟨hne, hfound⟩)
        · exact Or.inl ⟨Or.inl ⟨hm, fun n hn => hnone n (Or.inl hn)⟩,
            Ne.symm (hnone last (Or.inr rfl))⟩
        · exact Or.inr rfl
        · exact Or.inl ⟨Or.inr hfound, Ne.symm hne⟩

theorem stored_insertNodes {t : Tables} {nodes : List Node} (hs : ∀ n ∈ nodes, isStorable n)
    {id : String} : (t.insertNodes nodes).Stored id ↔ t.Stored id ∨ ∃ n ∈ nodes, n.id = id := by
  constructor
  · rintro ⟨m, hm, rfl⟩
    rcases (mem_insertNodes_nodes hs).mp hm with ⟨hm, _⟩ | hlast
    · exact Or.inl ⟨m, hm, rfl⟩
    · exact Or.inr ⟨m, hlast.mem, rfl⟩
  · intro h
    by_cases hnew : ∃ n ∈ nodes, n.id = id
    · obtain ⟨n, hn, rfl⟩ := hnew
      obtain ⟨last, hlast⟩ := exists_lastWith (p := fun k : Node => k.id = n.id) hn rfl
      have hid : last.id = n.id := hlast.holds
      refine ⟨last, (mem_insertNodes_nodes hs).mpr (Or.inr ?_), hid⟩
      simpa only [hid] using hlast
    · rcases h with ⟨m, hm, rfl⟩ | h
      · exact ⟨m, (mem_insertNodes_nodes hs).mpr
          (Or.inl ⟨hm, fun n hn hid => hnew ⟨n, hn, hid⟩⟩), rfl⟩
      · exact (hnew h).elim

/-- The edges of a replaced node go with it. -/
theorem mem_insertNodes_edges {t : Tables} (h : t.Valid) {nodes : List Node}
    (hs : ∀ n ∈ nodes, isStorable n) {e : Edge} : e ∈ (t.insertNodes nodes).edges ↔
      e ∈ t.edges ∧ ∀ n ∈ nodes, n.id ≠ e.source ∧ n.id ≠ e.target := by
  induction nodes using List.reverseRecOn with
  | nil => simp [insertNodes]
  | append_singleton nodes last ih =>
      have hlast : isStorable last := hs last (by simp)
      have hnodes : ∀ n ∈ nodes, isStorable n := fun n hn => hs n (by simp [hn])
      rw [insertNodes_concat, insertNode, if_pos hlast]
      simp only [mem_deleteNodes_edges, ih hnodes, decide_eq_true_eq]
      constructor
      · rintro ⟨⟨he, hkept⟩, hnew⟩
        obtain ⟨hsource, htarget⟩ := (h.insertNodes nodes).endpoints e
          ((ih hnodes).mpr ⟨he, hkept⟩)
        refine ⟨he, fun n hn => ?_⟩
        rcases List.mem_append.mp hn with hn | hn
        · exact hkept n hn
        · rw [List.mem_singleton.mp hn]
          constructor
          · rintro hid
            obtain ⟨m, hm, hsame⟩ := hsource
            exact (hnew m hm (hsame.trans hid.symm)).1 hsame
          · rintro hid
            obtain ⟨m, hm, hsame⟩ := htarget
            exact (hnew m hm (hsame.trans hid.symm)).2 hsame
      · rintro ⟨he, hkept⟩
        refine ⟨⟨he, fun n hn => hkept n (by simp [hn])⟩, fun m _ hid => ?_⟩
        rw [hid]
        exact hkept last (by simp)

theorem mem_insertNodes_refs {t : Tables} (h : t.Valid) {nodes : List Node}
    (hs : ∀ n ∈ nodes, isStorable n) {r : ReferenceRow} : r ∈ (t.insertNodes nodes).refs ↔
      r ∈ t.refs ∧ ∀ n ∈ nodes, n.id ≠ r.fromNodeId := by
  induction nodes using List.reverseRecOn with
  | nil => simp [insertNodes]
  | append_singleton nodes last ih =>
      have hlast : isStorable last := hs last (by simp)
      have hnodes : ∀ n ∈ nodes, isStorable n := fun n hn => hs n (by simp [hn])
      rw [insertNodes_concat, insertNode, if_pos hlast]
      simp only [mem_deleteNodes_refs, ih hnodes, decide_eq_true_eq]
      constructor
      · rintro ⟨⟨hr, hkept⟩, hnew⟩
        obtain ⟨m, hm, hsame⟩ := (h.insertNodes nodes).origins r ((ih hnodes).mpr ⟨hr, hkept⟩)
        refine ⟨hr, fun n hn => ?_⟩
        rcases List.mem_append.mp hn with hn | hn
        · exact hkept n hn
        · rw [List.mem_singleton.mp hn]
          intro hid
          exact hnew m hm (hsame.trans hid.symm) hsame
      · rintro ⟨hr, hkept⟩
        refine ⟨⟨hr, fun n hn => hkept n (by simp [hn])⟩, fun m _ hid => ?_⟩
        rw [hid]
        exact hkept last (by simp)

end Tables

/-- A store as the schema keeps it. -/
structure Graph extends Tables where
  valid : toTables.Valid

end AfyxGraph.Store
