import AfyxGraph.Core.Transition
import AfyxGraph.Store.Tables
import Mathlib.Algebra.Order.Group.Multiset
import Mathlib.Tactic.Abel

/-! # The full-text index of the nodes

`nodes_fts` holds terms only; its entries are kept in step with the nodes table by three
triggers, or rebuilt at the end of a load window that has dropped them. A node is inserted
with `INSERT OR REPLACE`, and the row it replaces goes without a delete trigger unless
`recursive_triggers` is on.
-/

namespace AfyxGraph.Db.FullTextIndex

open AfyxGraph.Core Store

/-- A node with the columns that are indexed besides. -/
structure Node extends Extraction.Node where
  docstring : Option String
  signature : Option String
  deriving DecidableEq, Repr

structure NodeRow where
  rowid : Nat
  node : Node
  deriving DecidableEq, Repr

structure FtsEntry where
  rowid : Nat
  id : String
  name : String
  qualifiedName : String
  docstring : Option String
  signature : Option String
  deriving DecidableEq, Repr

/-- What the triggers and `rebuild` read of a row. -/
def NodeRow.entry (row : NodeRow) : FtsEntry where
  rowid := row.rowid
  id := row.node.id
  name := row.node.name
  qualifiedName := row.node.qualifiedName
  docstring := row.node.docstring
  signature := row.node.signature

/-- The pragmas of a connection. -/
def tuneConnection (walHealThresholdBytes : Nat) : List (String × String) :=
  [("busy_timeout", "5000"), ("foreign_keys", "ON"), ("journal_mode", "WAL"),
    ("synchronous", "NORMAL"), ("cache_size", "-64000"), ("temp_store", "MEMORY"),
    ("mmap_size", "268435456"), ("journal_size_limit", toString walHealThresholdBytes)]

/-- The delete trigger fires for rows that `REPLACE` removes. -/
def recursiveTriggers (pragmas : List (String × String)) : Bool :=
  pragmas.any fun pragma => pragma.1 = "recursive_triggers" && pragma.2 = "ON"

/-- `triggers`: the three triggers are in the schema. -/
structure State where
  rows : List NodeRow
  fts : Multiset FtsEntry
  triggers : Bool
  deriving DecidableEq

/-- One entry for each row. -/
def mirror (rows : List NodeRow) : Multiset FtsEntry := rows.map (·.entry)

namespace State

/-! ## The triggers -/

/-- `nodes_ai` -/
def afterInsert (s : State) (row : NodeRow) : State :=
  if s.triggers then { s with fts := {row.entry} + s.fts } else s

/-- `nodes_ad`, for each row -/
def afterDelete (s : State) (rows : List NodeRow) : State :=
  if s.triggers then { s with fts := s.fts - mirror rows } else s

/-- `nodes_au`, for each row -/
def afterUpdate (s : State) (old new : List NodeRow) : State :=
  if s.triggers then { s with fts := s.fts - mirror old + mirror new } else s

/-! ## `NodeWriter` -/

/-- The rowid is the choice of the database: any that no other row has. -/
def insert (pragmas : List (String × String)) (s : State) (node : Node) (rowid : Nat) :
    Option State :=
  if !isStorable node.toNode then some s
  else
    let replaced := s.rows.filter (·.node.id = node.id)
    let others := s.rows.filter (·.node.id ≠ node.id)
    if rowid ∈ others.map (·.rowid) then none
    else
      let s := if recursiveTriggers pragmas then s.afterDelete replaced else s
      some (State.afterInsert { s with rows := others ++ [⟨rowid, node⟩] } ⟨rowid, node⟩)

def insertMany (pragmas : List (String × String)) (s : State) : List (Node × Nat) → Option State
  | [] => some s
  | (node, rowid) :: nodes =>
      (s.insert pragmas node rowid).bind fun s => s.insertMany pragmas nodes

def update (s : State) (node : Node) : State :=
  if !isStorable node.toNode then s
  else
    let old := s.rows.filter (·.node.id = node.id)
    let rows := s.rows.map fun row =>
      if row.node.id = node.id then { row with node := node } else row
    State.afterUpdate { s with rows } old (old.map fun row => { row with node := node })

def deleteRows (s : State) (gone : NodeRow → Bool) : State :=
  State.afterDelete { s with rows := s.rows.filter fun row => !gone row } (s.rows.filter gone)

def delete (s : State) (id : String) : State := s.deleteRows (·.node.id = id)

def deleteByFile (s : State) (filePath : String) : State := s.deleteRows (·.node.filePath = filePath)

/-! ## Load windows -/

def beginNodeLoad (s : State) : State := { s with triggers := false }

def endNodeLoad (s : State) : State := { s with fts := mirror s.rows, triggers := true }

def healTriggers (s : State) : State := if s.triggers then s else s.endNodeLoad

end State

inductive Event where
  | insert (node : Node) (rowid : Nat)
  | insertMany (nodes : List (Node × Nat))
  | update (node : Node)
  | delete (id : String)
  | deleteByFile (filePath : String)
  | beginNodeLoad
  | endNodeLoad
  | healTriggers
  deriving DecidableEq, Repr

def machine (pragmas : List (String × String)) : Machine State Event := fun s e =>
  match e with
  | .insert node rowid => s.insert pragmas node rowid
  | .insertMany nodes => s.insertMany pragmas nodes
  | .update node => some (s.update node)
  | .delete id => some (s.delete id)
  | .deleteByFile filePath => some (s.deleteByFile filePath)
  | .beginNodeLoad => some s.beginNodeLoad
  | .endNodeLoad => some s.endNodeLoad
  | .healTriggers => some s.healTriggers

/-- A database whose index is in step. -/
def opened (rows : List NodeRow) : State := ⟨rows, mirror rows, true⟩

/-! ## The mirror -/

/-- Outside a load window the index has exactly one entry for each row. -/
def Mirrored (s : State) : Prop := s.triggers = true → s.fts = mirror s.rows

/-- The ids of the nodes that are stored. -/
def storedIds (nodes : List Node) : List String :=
  (nodes.filter fun node => isStorable node.toNode).map (·.id)

def State.ids (s : State) : List String := s.rows.map (·.node.id)

/-- The ids are new, and none comes twice. -/
def Fresh (s : State) (ids : List String) : Prop := ids.Nodup ∧ ∀ id ∈ ids, id ∉ s.ids

/-- Outside a load window no row is replaced. -/
def InsertsFresh (s : State) : Event → Prop
  | .insert node _ => s.triggers = true → Fresh s (storedIds [node])
  | .insertMany nodes => s.triggers = true → Fresh s (storedIds (nodes.map Prod.fst))
  | _ => True

theorem recursiveTriggers_tuneConnection (walHealThresholdBytes : Nat) :
    recursiveTriggers (tuneConnection walHealThresholdBytes) = false := by
  simp [recursiveTriggers, tuneConnection]

variable {s t : State} {walHealThresholdBytes : Nat}

theorem mirror_append (rows more : List NodeRow) :
    mirror (rows ++ more) = mirror rows + mirror more := by
  simp [mirror]

theorem mirror_filter (rows : List NodeRow) (keep : NodeRow → Bool) :
    mirror (rows.filter keep) + mirror (rows.filter fun row => !keep row) = mirror rows := by
  rw [← mirror_append]
  exact Multiset.coe_eq_coe.mpr ((List.filter_append_perm keep rows).map _)

theorem mirror_eq_zero {rows : List NodeRow} : mirror rows = 0 ↔ rows = [] := by
  simp [mirror]

/-! ## Inserts -/

/-- An insert adds the entry of its row and leaves those of the rows that it replaces. -/
theorem insert_excess {node : Node} {rowid : Nat} (htriggers : s.triggers = true)
    (ht : s.insert (tuneConnection walHealThresholdBytes) node rowid = some t)
    {excess : Multiset FtsEntry} (h : s.fts = mirror s.rows + excess) :
    t.triggers = true ∧
      (∀ id, id ∈ t.ids ↔ id ∈ s.ids ∨ id ∈ storedIds [node]) ∧
      ∃ more, t.fts = mirror t.rows + (excess + more) ∧
        (more = 0 ↔ ∀ id ∈ storedIds [node], id ∉ s.ids) := by
  unfold State.insert at ht
  cases hstorable : isStorable node.toNode with
  | false =>
      rw [hstorable] at ht
      cases ht
      have hnone : storedIds [node] = [] := by simp [storedIds, hstorable]
      refine ⟨htriggers, fun id => by simp [hnone], 0, by rw [add_zero, h], ?_⟩
      simp [hnone]
  | true =>
      simp only [hstorable, Bool.not_true, Bool.false_eq_true, if_false,
        Option.ite_none_left_eq_some, recursiveTriggers_tuneConnection, Option.some.injEq] at ht
      obtain ⟨-, rfl⟩ := ht
      have hone : storedIds [node] = [node.id] := by simp [storedIds, hstorable]
      have hsplit := mirror_filter s.rows (·.node.id ≠ node.id)
      simp only [ne_eq, decide_not, Bool.not_not] at hsplit
      refine ⟨by simp [State.afterInsert, htriggers], fun id => ?_,
        mirror (s.rows.filter (·.node.id = node.id)), ?_, ?_⟩
      · simp only [State.ids, State.afterInsert, htriggers, if_true, hone, List.map_append,
          List.mem_append, List.mem_map, List.mem_filter, List.mem_singleton]
        constructor
        · rintro (⟨row, ⟨hrow, -⟩, rfl⟩ | ⟨row, rfl, rfl⟩)
          · exact .inl ⟨row, hrow, rfl⟩
          · exact .inr rfl
        · rintro (⟨row, hrow, rfl⟩ | rfl)
          · by_cases hid : row.node.id = node.id
            · exact .inr ⟨_, rfl, hid.symm⟩
            · exact .inl ⟨row, ⟨hrow, by simpa using hid⟩, rfl⟩
          · exact .inr ⟨_, rfl, rfl⟩
      · simp only [State.afterInsert, htriggers, if_true, h, mirror_append]
        rw [← hsplit]
        simp only [mirror, ne_eq, decide_not, List.map_singleton, Multiset.coe_singleton]
        abel
      · rw [mirror_eq_zero, hone]
        simp only [List.filter_eq_nil_iff, decide_eq_true_eq, List.mem_singleton, forall_eq,
          State.ids, List.mem_map, not_exists, not_and]

theorem storedIds_cons (node : Node) (nodes : List Node) :
    storedIds (node :: nodes) = storedIds [node] ++ storedIds nodes := by
  rw [storedIds, storedIds, storedIds, ← List.map_append, ← List.filter_append,
    List.singleton_append]

theorem nodup_storedIds_singleton (node : Node) : (storedIds [node]).Nodup := by
  unfold storedIds
  cases h : isStorable node.toNode <;> simp [h]

/-- Ids are new in a row when the first are, and the others once the first are stored. -/
theorem fresh_append {first more : List String} (hfirst : first.Nodup)
    (hids : ∀ id, id ∈ t.ids ↔ id ∈ s.ids ∨ id ∈ first) :
    Fresh s (first ++ more) ↔ (∀ id ∈ first, id ∉ s.ids) ∧ Fresh t more := by
  simp only [Fresh, List.nodup_append, List.mem_append, hids]
  constructor
  · rintro ⟨⟨-, hmore, hdisjoint⟩, hnew⟩
    refine ⟨fun id hid => hnew id (.inl hid), hmore, fun id hid => ?_⟩
    rintro (hstored | hfirst')
    · exact hnew id (.inr hid) hstored
    · exact hdisjoint id hfirst' id hid rfl
  · rintro ⟨hnew, hmore, hrest⟩
    refine ⟨⟨hfirst, hmore, ?_⟩, ?_⟩
    · rintro id hid other hother rfl
      exact hrest id hother (.inr hid)
    · rintro id (hid | hid)
      · exact hnew id hid
      · exact fun hstored => hrest id hid (.inl hstored)

/-- The entries that a bulk insert leaves behind: none exactly when all its ids are new. -/
theorem insertMany_excess {nodes : List (Node × Nat)} (htriggers : s.triggers = true)
    (ht : s.insertMany (tuneConnection walHealThresholdBytes) nodes = some t)
    {excess : Multiset FtsEntry} (h : s.fts = mirror s.rows + excess) :
    t.triggers = true ∧ ∃ more, t.fts = mirror t.rows + (excess + more) ∧
      (more = 0 ↔ Fresh s (storedIds (nodes.map Prod.fst))) := by
  induction nodes generalizing s excess with
  | nil =>
      cases ht
      refine ⟨htriggers, 0, by rw [add_zero, h], ?_⟩
      simp [Fresh, storedIds]
  | cons first nodes ih =>
      obtain ⟨node, rowid⟩ := first
      obtain ⟨u, hu, hrest⟩ := Option.bind_eq_some_iff.mp ht
      obtain ⟨hutriggers, hids, more, hfts, hmore⟩ := insert_excess htriggers hu h
      obtain ⟨httriggers, rest, hrestfts, hrestmore⟩ := ih hutriggers hrest hfts
      refine ⟨httriggers, more + rest, by rw [hrestfts, add_assoc], ?_⟩
      rw [List.map_cons, storedIds_cons,
        fresh_append (nodup_storedIds_singleton node) hids, ← hmore, ← hrestmore]
      rw [← Multiset.card_eq_zero, Multiset.card_add, Nat.add_eq_zero_iff, Multiset.card_eq_zero,
        Multiset.card_eq_zero]

/-- No insert restores the triggers. -/
theorem insert_triggers {node : Node} {rowid : Nat} {pragmas : List (String × String)}
    (htriggers : s.triggers = false) (ht : s.insert pragmas node rowid = some t) :
    t.triggers = false := by
  unfold State.insert at ht
  split at ht
  · cases ht
    exact htriggers
  · simp only [Option.ite_none_left_eq_some, Option.some.injEq] at ht
    obtain ⟨-, rfl⟩ := ht
    cases hpragmas : recursiveTriggers pragmas <;>
      simp [State.afterInsert, State.afterDelete, htriggers]

theorem insertMany_triggers {nodes : List (Node × Nat)} {pragmas : List (String × String)}
    (htriggers : s.triggers = false) (ht : s.insertMany pragmas nodes = some t) :
    t.triggers = false := by
  induction nodes generalizing s with
  | nil =>
      cases ht
      exact htriggers
  | cons first nodes ih =>
      obtain ⟨u, hu, hrest⟩ := Option.bind_eq_some_iff.mp ht
      exact ih (insert_triggers htriggers hu) hrest

/-! ## Updates and deletes -/

@[simp] theorem afterUpdate_triggers (old new : List NodeRow) :
    (s.afterUpdate old new).triggers = s.triggers := by
  unfold State.afterUpdate
  split <;> rfl

@[simp] theorem afterDelete_triggers (rows : List NodeRow) :
    (s.afterDelete rows).triggers = s.triggers := by
  unfold State.afterDelete
  split <;> rfl

theorem mirror_map (rows : List NodeRow) (changed : NodeRow → Bool) (f : NodeRow → NodeRow) :
    mirror (rows.map fun row => if changed row then f row else row) =
      mirror ((rows.filter changed).map f) + mirror (rows.filter fun row => !changed row) := by
  induction rows with
  | nil => rfl
  | cons row rows ih =>
      have hcons : ∀ (r : NodeRow) (rs : List NodeRow), mirror (r :: rs) = {r.entry} + mirror rs :=
        fun r rs => rfl
      cases hrow : changed row with
      | true =>
          simp only [List.map_cons, hrow, if_true, List.filter_cons_of_pos, hcons, ih, Bool.not_true,
            Bool.false_eq_true, not_false_eq_true, List.filter_cons_of_neg, add_assoc]
      | false =>
          simp only [List.map_cons, hrow, Bool.false_eq_true, if_false, not_false_eq_true,
            List.filter_cons_of_neg, Bool.not_false, List.filter_cons_of_pos, hcons, ih]
          abel

theorem mirrored_update (h : Mirrored s) (node : Node) : Mirrored (s.update node) := by
  unfold State.update
  split
  · exact h
  · intro htriggers
    have hold : s.triggers = true := by simpa using htriggers
    have hsplit := mirror_filter s.rows (·.node.id = node.id)
    have hmap := mirror_map s.rows (·.node.id = node.id) fun row => { row with node := node }
    simp only [decide_eq_true_eq] at hmap
    simp only [State.afterUpdate, hold, if_true, h hold]
    rw [hmap, ← hsplit, add_tsub_cancel_left]
    abel

theorem mirrored_deleteRows (h : Mirrored s) (gone : NodeRow → Bool) :
    Mirrored (s.deleteRows gone) := by
  intro htriggers
  have hold : s.triggers = true := by simpa [State.deleteRows] using htriggers
  have hsplit := mirror_filter s.rows gone
  simp only [State.deleteRows, State.afterDelete, hold, if_true, h hold]
  rw [← hsplit, add_tsub_cancel_left]

/-! ## Every step, every run -/

theorem mirrored_of_excess (htriggers : t.triggers = true) {more : Multiset FtsEntry}
    (h : t.fts = mirror t.rows + (0 + more)) : Mirrored t ↔ more = 0 := by
  rw [zero_add] at h
  constructor
  · intro hmirrored
    have hsame := hmirrored htriggers
    rw [h] at hsame
    simpa using hsame
  · rintro rfl _
    rw [h, add_zero]

theorem mirrored_step {e : Event} (h : Mirrored s)
    (ht : machine (tuneConnection walHealThresholdBytes) s e = some t) :
    Mirrored t ↔ InsertsFresh s e := by
  have hopen : ∀ {g : Prop}, t.triggers = false → s.triggers = false →
      (Mirrored t ↔ (s.triggers = true → g)) := by
    intro g htt hst
    refine iff_of_true (fun htriggers => ?_) (fun htriggers => ?_)
    · rw [htt] at htriggers
      cases htriggers
    · rw [hst] at htriggers
      cases htriggers
  cases e with
  | insert node rowid =>
      cases hs : s.triggers with
      | false => exact hopen (insert_triggers hs ht) hs
      | true =>
          have hexcess : s.fts = mirror s.rows + 0 := by rw [add_zero, h hs]
          obtain ⟨htriggers, -, more, hfts, hmore⟩ := insert_excess hs ht hexcess
          rw [mirrored_of_excess htriggers hfts, hmore]
          exact ⟨fun hnew _ => ⟨nodup_storedIds_singleton node, hnew⟩, fun hfresh => (hfresh hs).2⟩
  | insertMany nodes =>
      cases hs : s.triggers with
      | false => exact hopen (insertMany_triggers hs ht) hs
      | true =>
          have hexcess : s.fts = mirror s.rows + 0 := by rw [add_zero, h hs]
          obtain ⟨htriggers, more, hfts, hmore⟩ := insertMany_excess hs ht hexcess
          rw [mirrored_of_excess htriggers hfts, hmore]
          exact ⟨fun hfresh _ => hfresh, fun hfresh => hfresh hs⟩
  | update node =>
      cases ht
      exact iff_of_true (mirrored_update h node) trivial
  | delete id =>
      cases ht
      exact iff_of_true (mirrored_deleteRows h _) trivial
  | deleteByFile filePath =>
      cases ht
      exact iff_of_true (mirrored_deleteRows h _) trivial
  | beginNodeLoad =>
      cases ht
      exact iff_of_true nofun trivial
  | endNodeLoad =>
      cases ht
      exact iff_of_true (fun _ => rfl) trivial
  | healTriggers =>
      cases ht
      refine iff_of_true ?_ trivial
      unfold State.healTriggers
      split
      · exact h
      · exact fun _ => rfl

/-- Along a run the index mirrors the table outside load windows exactly as long as no insert
outside a window concerns a stored id, or one id twice. -/
theorem mirrored_iff_insertsFresh (walHealThresholdBytes : Nat) (rows : List NodeRow)
    (events : List Event) :
    (machine (tuneConnection walHealThresholdBytes)).Always Mirrored (opened rows) events ↔
      (machine (tuneConnection walHealThresholdBytes)).Guarded InsertsFresh (opened rows)
        events :=
  Machine.always_iff_guarded (I := fun _ => True) (fun _ _ _ _ _ _ => trivial)
    (fun _ _ _ _ h ht => mirrored_step h ht) trivial (fun _ => rfl) events

/-- A node and the same node with another signature. -/
def parse (signature : String) : Node :=
  ⟨⟨"f1", .function, "parse", "parse", "src/a.ts", .typescript, 1⟩, none, some signature⟩

/-- The node is inserted again, with the next rowid. -/
def insertedTwice : List Event := [.insert (parse "(a)") 1, .insert (parse "(a, b)") 2]

theorem not_mirrored_insertedTwice :
    ¬ (machine (tuneConnection 0)).Always Mirrored (opened []) insertedTwice := by
  intro h
  have hend : ((machine (tuneConnection 0)).run (opened []) insertedTwice).any
      (fun t => t.triggers && t.fts ≠ mirror t.rows) = true := by decide
  obtain ⟨t, ht, hboth⟩ := (Option.any_eq_true _ _).mp hend
  rw [Bool.and_eq_true] at hboth
  exact of_decide_eq_true hboth.2 (h.last ht hboth.1)

end AfyxGraph.Db.FullTextIndex
