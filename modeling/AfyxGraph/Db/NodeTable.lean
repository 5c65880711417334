import AfyxGraph.Store.Tables

/-! # Rows of the nodes table

The table under its primary key, as the statements of `NodeWriter` change it and the lookups
by id see it. A row is represented by the node it decodes to.
-/

namespace AfyxGraph.Db

open Extraction Store

structure NodeTable where
  rows : List Node
  ids : (rows.map (·.id)).Nodup

namespace NodeTable

def find (t : NodeTable) (id : String) : Option Node := t.rows.find? (·.id = id)

/-- `INSERT OR REPLACE`: the conflicting row goes first. -/
def insert (t : NodeTable) (node : Node) : NodeTable where
  rows := t.rows.filter (·.id ≠ node.id) ++ [node]
  ids := by
    rw [List.map_append, List.map_singleton, ← List.concat_eq_append, List.nodup_concat]
    refine ⟨?_, t.ids.sublist (List.filter_sublist.map _)⟩
    simp

def insertAll (t : NodeTable) (nodes : List Node) : NodeTable := nodes.foldl insert t

/-- `UPDATE … WHERE id = ?` -/
def update (t : NodeTable) (node : Node) : NodeTable where
  rows := t.rows.map fun row => if row.id = node.id then node else row
  ids := by
    have hids : (t.rows.map fun row => if row.id = node.id then node else row).map (·.id) =
        t.rows.map (·.id) := by
      rw [List.map_map]
      apply List.map_congr_left
      intro row _
      by_cases h : row.id = node.id <;> simp [h]
    rw [hids]
    exact t.ids

def filter (t : NodeTable) (keep : Node → Bool) : NodeTable where
  rows := t.rows.filter keep
  ids := t.ids.sublist (List.filter_sublist.map _)

def delete (t : NodeTable) (id : String) : NodeTable := t.filter (·.id ≠ id)

def deleteByFile (t : NodeTable) (filePath : String) : NodeTable := t.filter (·.filePath ≠ filePath)

variable {t : NodeTable} {id : String} {node : Node}

theorem find_id (h : t.find id = some node) : node.id = id := by
  simpa using List.find?_some h

theorem find_of_mem (h : node ∈ t.rows) : t.find node.id = some node := by
  have hsome : (t.find node.id).isSome = true := by
    rw [find, List.find?_isSome]
    exact ⟨node, h, by simp⟩
  obtain ⟨row, hrow⟩ := Option.isSome_iff_exists.mp hsome
  have hmem : row ∈ t.rows := List.mem_of_find?_eq_some hrow
  rw [hrow, List.inj_on_of_nodup_map t.ids hmem h (find_id hrow)]

theorem find_insert_ne (h : id ≠ node.id) : (t.insert node).find id = t.find id := by
  rw [find, insert, List.find?_append, List.find?_filter]
  have hlast : [node].find? (·.id = id) = none := by simp [Ne.symm h]
  rw [hlast, Option.or_none, find]
  congr 1
  funext row
  by_cases hrow : row.id = id
  · simp [hrow, h]
  · simp [hrow]

theorem find_insertAll_ne (nodes : List Node) (h : ∀ node ∈ nodes, id ≠ node.id) :
    (t.insertAll nodes).find id = t.find id := by
  induction nodes generalizing t with
  | nil => rfl
  | cons node nodes ih =>
      have hrest := ih (t := t.insert node) fun n hn => h n (List.mem_cons_of_mem _ hn)
      rw [insertAll] at hrest ⊢
      rw [List.foldl_cons, hrest, find_insert_ne (h node (List.mem_cons_self ..))]

theorem find_update_ne (h : id ≠ node.id) : (t.update node).find id = t.find id := by
  rw [find, update, List.find?_map, find]
  have hrow : t.rows.find? ((fun row => decide (row.id = id)) ∘
      fun row => if row.id = node.id then node else row) = t.rows.find? (·.id = id) := by
    congr 1
    funext row
    by_cases hid : row.id = node.id
    · simp [hid]
    · simp [hid]
  rw [hrow]
  cases hfound : t.rows.find? (·.id = id) with
  | none => rfl
  | some row =>
      have hid : row.id = id := by simpa using List.find?_some hfound
      have hne : row.id ≠ node.id := by rw [hid]; exact h
      simp [hne]

/-- A row that a deletion keeps is found as before. -/
theorem find_filter {keep : Node → Bool} (h : t.find id = some node) (hkeep : keep node = true) :
    (t.filter keep).find id = some node := by
  have hmem : node ∈ (t.filter keep).rows :=
    List.mem_filter.mpr ⟨List.mem_of_find?_eq_some h, hkeep⟩
  have hid := find_id h
  rw [← hid]
  exact find_of_mem hmem

end NodeTable

end AfyxGraph.Db
