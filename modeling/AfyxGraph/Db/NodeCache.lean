import AfyxGraph.Core.Transition
import AfyxGraph.Core.Entries
import AfyxGraph.Core.Places
import AfyxGraph.Core.Transaction
import AfyxGraph.Db.NodeTable
import AfyxGraph.Admission.Admit

/-! # The node identity cache

`NodeReader` answers a lookup by id from a bounded cache of decoded rows. Reads fill it and
the hooks of the writers drop what they change; the transaction that a write is part of may
still roll back. All operations are those of one connection, and any statement may throw.
-/

namespace AfyxGraph.Db.NodeCache

open AfyxGraph.Core Extraction

def NODE_CACHE_CAPACITY : Nat := 1000

def SQLITE_PARAM_CHUNK_SIZE : Nat := 500

def chunked (items : List String) : List (List String) :=
  Admission.slicesFuel SQLITE_PARAM_CHUNK_SIZE items.length items

/-! ## The cache -/

/-- The entries in the order of the map. -/
abbrev NodeIdentityCache := List (String × Node)

namespace NodeIdentityCache

/-- The entry that is read moves to the end. -/
def read (cache : NodeIdentityCache) (id : String) : Option Node × NodeIdentityCache :=
  match cache.lookup id with
  | none => (none, cache)
  | some node => (some node, cache.filter (·.1 ≠ id) ++ [(id, node)])

def evict (cache : NodeIdentityCache) : NodeIdentityCache :=
  match cache with
  | [] => []
  | (oldest, _) :: _ => if oldest ≠ "" then cache.filter (·.1 ≠ oldest) else cache

def remember (cache : NodeIdentityCache) (node : Node) : NodeIdentityCache :=
  setEntry (if NODE_CACHE_CAPACITY ≤ cache.length then evict cache else cache) node.id node

def drop (cache : NodeIdentityCache) (id : String) : NodeIdentityCache := cache.filter (·.1 ≠ id)

def dropFile (cache : NodeIdentityCache) (filePath : String) : NodeIdentityCache :=
  cache.filter (·.2.filePath ≠ filePath)

end NodeIdentityCache

open NodeIdentityCache

structure State where
  session : Session NodeTable
  cache : NodeIdentityCache := []

namespace State

/-! ## Readers -/

def getNodeById (s : State) (id : String) : Option Node × State :=
  let cache := (read s.cache id).2
  match (read s.cache id).1 with
  | some node => (some node, { s with cache })
  | none =>
      match s.session.data.find id with
      | none => (none, { s with cache })
      | some node => (some node, { s with cache := remember cache node })

/-- The result, the ids to ask the table for, and the cache. -/
structure Batch where
  result : List (String × Node) := []
  pending : List String := []
  cache : NodeIdentityCache

def readCached (b : Batch) (id : String) : Batch :=
  let cache := (read b.cache id).2
  match (read b.cache id).1 with
  | none => { b with pending := b.pending ++ [id], cache }
  | some node => { b with result := setEntry b.result id node, cache }

def takeRow (b : Batch) (node : Node) : Batch :=
  { b with result := setEntry b.result node.id node, cache := remember b.cache node }

/-- The rows of one `IN` list. -/
def readChunk (table : NodeTable) (b : Batch) (ids : List String) : Batch :=
  (table.rows.filter (·.id ∈ ids)).foldl takeRow b

/-- The result maps each id that is found. -/
def getNodesByIds (s : State) (ids : List String) : List (String × Node) × State :=
  let b := ids.foldl readCached { cache := s.cache }
  let b := (chunked b.pending).foldl (readChunk s.session.data) b
  (b.result, { s with cache := b.cache })

/-! ## Writers -/

def forgetNode (s : State) (id : String) : State := { s with cache := drop s.cache id }

def write (s : State) (f : NodeTable → NodeTable) : State := { s with session := s.session.write f }

/-- `written`: the statement does not throw. -/
def insert (s : State) (node : Node) (written : Bool) : State :=
  if !Store.isStorable node then s
  else if written then (s.forgetNode node.id).write (·.insert node)
  else s.forgetNode node.id

/-- `throws` is the number of rows that are in the table when a statement throws. -/
def insertMany (s : State) (nodes : List Node) (throws : Option Nat) : State :=
  let nodes := nodes.filter Store.isStorable
  let s := nodes.foldl (fun s node => s.forgetNode node.id) { s with session := s.session.enter }
  match throws with
  | none => { s with session := (s.session.write (·.insertAll nodes)).leave }
  | some rows => { s with session := (s.session.write (·.insertAll (nodes.take rows))).fail }

def update (s : State) (node : Node) (written : Bool) : State :=
  let s := s.forgetNode node.id
  if !Store.isStorable node then s
  else if written then s.write (·.update node)
  else s

def delete (s : State) (id : String) (written : Bool) : State :=
  if written then (s.forgetNode id).write (·.delete id) else s.forgetNode id

def deleteByFile (s : State) (filePath : String) (written : Bool) : State :=
  let s := { s with cache := dropFile s.cache filePath }
  if written then s.write (·.deleteByFile filePath) else s

end State

/-- What happens on the connection: the boundaries of transactions, reads and writes. -/
inductive Event where
  | enters
  | leaves
  | throws
  | getNodeById (id : String)
  | getNodesByIds (ids : List String)
  | insert (node : Node) (written : Bool)
  | insertMany (nodes : List Node) (throws : Option Nat)
  | update (node : Node) (written : Bool)
  | delete (id : String) (written : Bool)
  | deleteByFile (filePath : String) (written : Bool)
  deriving DecidableEq, Repr

def machine : Machine State Event := fun s e =>
  match e with
  | .enters => some { s with session := s.session.enter }
  | .leaves => if s.session.depth = 0 then none else some { s with session := s.session.leave }
  | .throws => if s.session.depth = 0 then none else some { s with session := s.session.fail }
  | .getNodeById id => some (s.getNodeById id).2
  | .getNodesByIds ids => some (s.getNodesByIds ids).2
  | .insert node written => some (s.insert node written)
  | .insertMany nodes throws => some (s.insertMany nodes throws)
  | .update node written => some (s.update node written)
  | .delete id written => some (s.delete id written)
  | .deleteByFile filePath written => some (s.deleteByFile filePath written)

/-- A fresh reader on a table. -/
def opened (table : NodeTable) : State := { session := { data := table } }

/-! ## Coherence -/

/-- Whatever is asked for, the answer is what the table holds. -/
structure Coherent (s : State) : Prop where
  single : ∀ id, (s.getNodeById id).1 = s.session.data.find id
  batch : ∀ ids id, (s.getNodesByIds ids).1.lookup id =
    if id ∈ ids then s.session.data.find id else none

/-- Every cached node is the row of its id. -/
def Matches (cache : NodeIdentityCache) (table : NodeTable) : Prop :=
  ∀ entry ∈ cache, table.find entry.1 = some entry.2

/-- A rollback takes no row back that is cached as the transaction has left it. -/
def RollsBackUncached (s : State) : Event → Prop
  | .throws => s.session.depth = 1 → ∀ saved, s.session.saved = some saved →
      ∀ entry ∈ s.cache, saved.find entry.1 = s.session.data.find entry.1
  | _ => True

/-! ## What the cache keeps -/

section Cache

variable {cache : NodeIdentityCache} {table : NodeTable}

theorem Matches.filter (h : Matches cache table) (keep : String × Node → Bool) :
    Matches (cache.filter keep) table := fun entry he => h entry (List.mem_of_mem_filter he)

theorem Matches.read (h : Matches cache table) (id : String) :
    Matches (NodeIdentityCache.read cache id).2 table ∧
      ∀ node, (NodeIdentityCache.read cache id).1 = some node → table.find id = some node := by
  rw [NodeIdentityCache.read]
  cases hlookup : cache.lookup id with
  | none => exact ⟨h, fun node hnode => by cases hnode⟩
  | some node =>
      have hfound : table.find id = some node := h _ (mem_of_lookup hlookup)
      refine ⟨fun entry he => ?_, fun other hother => ?_⟩
      · rcases List.mem_append.mp he with he | he
        · exact h.filter _ entry he
        · obtain rfl := List.mem_singleton.mp he
          exact hfound
      · cases hother
        exact hfound

theorem Matches.nil : Matches [] table := fun _ he => absurd he List.not_mem_nil

theorem Matches.evict (h : Matches cache table) :
    Matches (NodeIdentityCache.evict cache) table := by
  unfold NodeIdentityCache.evict
  split
  · exact .nil
  · split
    · exact h.filter _
    · exact h

theorem Matches.remember (h : Matches cache table) {node : Node}
    (hnode : table.find node.id = some node) :
    Matches (NodeIdentityCache.remember cache node) table := by
  intro entry he
  rcases mem_setEntry he with rfl | he
  · exact hnode
  · split at he
    · exact h.evict entry he
    · exact h entry he

end Cache

/-! ## Reads under a matching cache -/

namespace State

variable {s : State} {table : NodeTable}

theorem getNodeById_session (s : State) (id : String) :
    (s.getNodeById id).2.session = s.session := by
  rw [getNodeById]
  cases (read s.cache id).1 with
  | some node => rfl
  | none => cases s.session.data.find id <;> rfl

theorem getNodeById_of_matches (h : Matches s.cache s.session.data) (id : String) :
    (s.getNodeById id).1 = s.session.data.find id ∧
      Matches (s.getNodeById id).2.cache s.session.data := by
  obtain ⟨hcache, hcached⟩ := h.read id
  rw [getNodeById]
  cases hread : (read s.cache id).1 with
  | some node => exact ⟨(hcached node hread).symm, hcache⟩
  | none =>
      cases hfind : s.session.data.find id with
      | none => exact ⟨rfl, hcache⟩
      | some node =>
          refine ⟨rfl, hcache.remember ?_⟩
          rw [NodeTable.find_id hfind]
          exact hfind

/-- Where a batch stands: what it has found is right, and what it has not is pending. -/
structure Batch.Sound (table : NodeTable) (asked : List String) (b : Batch) : Prop where
  cache : Matches b.cache table
  found : ∀ id node, b.result.lookup id = some node → id ∈ asked ∧ table.find id = some node
  pending : ∀ id ∈ b.pending, id ∈ asked
  covered : ∀ id ∈ asked, id ∈ b.pending ∨ b.result.lookup id = table.find id

theorem Batch.Sound.readCached {b : Batch} {asked : List String} (h : b.Sound table asked)
    (id : String) : (State.readCached b id).Sound table (asked ++ [id]) := by
  obtain ⟨hcache, hcached⟩ := h.cache.read id
  have hwiden : ∀ other ∈ asked, other ∈ asked ++ [id] := fun other ho =>
    List.mem_append_left _ ho
  rw [State.readCached]
  cases hread : (read b.cache id).1 with
  | none =>
      refine ⟨hcache, fun other node hother => ?_, fun other ho => ?_, fun other ho => ?_⟩
      · exact ⟨hwiden other (h.found other node hother).1, (h.found other node hother).2⟩
      · rcases List.mem_append.mp ho with ho | ho
        · exact hwiden other (h.pending other ho)
        · exact List.mem_append_right _ ho
      · rcases List.mem_append.mp ho with ho | ho
        · exact (h.covered other ho).imp_left fun hp => List.mem_append_left _ hp
        · exact .inl (List.mem_append_right _ ho)
  | some node =>
      have hfind := hcached node hread
      refine ⟨hcache, fun other node' hother => ?_, fun other ho => ?_, fun other ho => ?_⟩
      · by_cases hid : other = id
        · subst hid
          rw [lookup_setEntry_self, Option.some.injEq] at hother
          exact ⟨List.mem_append_right _ (List.mem_singleton_self _), hother ▸ hfind⟩
        · rw [lookup_setEntry_ne _ _ hid] at hother
          exact ⟨hwiden other (h.found other node' hother).1, (h.found other node' hother).2⟩
      · exact hwiden other (h.pending other ho)
      · by_cases hid : other = id
        · subst hid
          right
          rw [lookup_setEntry_self, hfind]
        · rw [lookup_setEntry_ne _ _ hid]
          rcases List.mem_append.mp ho with ho | ho
          · exact h.covered other ho
          · exact (hid (List.mem_singleton.mp ho)).elim

theorem sound_foldl_readCached {cache : NodeIdentityCache} (h : Matches cache table)
    (ids : List String) : (ids.foldl State.readCached { cache }).Sound table ids := by
  have hstep : ∀ (rest asked : List String) (b : Batch), b.Sound table asked →
      (rest.foldl State.readCached b).Sound table (asked ++ rest) := by
    intro rest
    induction rest with
    | nil =>
        intro asked b hb
        simpa using hb
    | cons id rest ih =>
        intro asked b hb
        have hrest := ih (asked ++ [id]) _ (hb.readCached id)
        simpa using hrest
  have hstart : Batch.Sound table [] { cache } :=
    ⟨h, fun _ _ hnode => by simp at hnode, fun _ hid => absurd hid List.not_mem_nil,
      fun _ hid => absurd hid List.not_mem_nil⟩
  simpa using hstep ids [] _ hstart

/-- The rows of a query, one after the other. -/
theorem foldl_takeRow (rows : List Node) (hrows : ∀ row ∈ rows, row ∈ table.rows) (b : Batch)
    (hcache : Matches b.cache table) :
    Matches (rows.foldl takeRow b).cache table ∧ ∀ id,
      (rows.foldl takeRow b).result.lookup id =
        if id ∈ rows.map (·.id) then table.find id else b.result.lookup id := by
  induction rows generalizing b with
  | nil => exact ⟨hcache, fun id => rfl⟩
  | cons row rows ih =>
      have hrow : table.find row.id = some row :=
        NodeTable.find_of_mem (hrows row (List.mem_cons_self ..))
      obtain ⟨hmatches, hlookup⟩ := ih (fun r hr => hrows r (List.mem_cons_of_mem _ hr))
        (takeRow b row) (hcache.remember hrow)
      refine ⟨hmatches, fun id => ?_⟩
      rw [List.foldl_cons, hlookup id, List.map_cons]
      by_cases hrest : id ∈ rows.map (·.id)
      · rw [if_pos hrest, if_pos (List.mem_cons_of_mem _ hrest)]
      · rw [if_neg hrest]
        by_cases hid : id = row.id
        · subst hid
          rw [if_pos (List.mem_cons_self ..), hrow]
          exact lookup_setEntry_self _ _ _
        · rw [if_neg (by simpa [hid] using hrest)]
          exact lookup_setEntry_ne _ _ hid

theorem foldl_readChunk (chunks : List (List String)) (b : Batch) :
    chunks.foldl (readChunk table) b =
      (chunks.flatMap fun ids => table.rows.filter (·.id ∈ ids)).foldl takeRow b := by
  induction chunks generalizing b with
  | nil => rfl
  | cons ids chunks ih =>
      rw [List.foldl_cons, ih, List.flatMap_cons, List.foldl_append]
      rfl

theorem flatten_chunked (items : List String) : (chunked items).flatten = items :=
  Admission.slicesFuel_flatten (by decide) (Nat.le_refl _)

theorem getNodesByIds_of_matches (h : Matches s.cache s.session.data) (ids : List String) :
    (∀ id, (s.getNodesByIds ids).1.lookup id =
        if id ∈ ids then s.session.data.find id else none) ∧
      Matches (s.getNodesByIds ids).2.cache s.session.data := by
  have hsound := sound_foldl_readCached h ids
  generalize hb : ids.foldl State.readCached { cache := s.cache } = b at hsound
  have hasked : ∀ row, row ∈ (chunked b.pending).flatMap
      (fun ids => s.session.data.rows.filter (·.id ∈ ids)) ↔
        row ∈ s.session.data.rows ∧ row.id ∈ b.pending := by
    intro row
    rw [← flatten_chunked b.pending, List.mem_flatten]
    simp only [List.mem_flatMap, List.mem_filter, decide_eq_true_eq]
    constructor
    · rintro ⟨chunk, hchunk, hrow, hid⟩
      rw [flatten_chunked] at hchunk
      exact ⟨hrow, chunk, hchunk, hid⟩
    · rintro ⟨hrow, chunk, hchunk, hid⟩
      rw [flatten_chunked]
      exact ⟨chunk, hchunk, hrow, hid⟩
  obtain ⟨hcache, hlookup⟩ := foldl_takeRow _ (fun row hrow => ((hasked row).mp hrow).1) b
    hsound.cache
  rw [getNodesByIds, hb, foldl_readChunk]
  refine ⟨fun id => ?_, hcache⟩
  rw [hlookup id]
  by_cases hrow : id ∈ ((chunked b.pending).flatMap
      fun ids => s.session.data.rows.filter (·.id ∈ ids)).map (·.id)
  · obtain ⟨row, hmem, rfl⟩ := List.mem_map.mp hrow
    rw [if_pos hrow, if_pos (hsound.pending _ ((hasked row).mp hmem).2)]
  · rw [if_neg hrow]
    by_cases hid : id ∈ ids
    · rw [if_pos hid]
      rcases hsound.covered id hid with hpending | hfound
      · cases hfind : s.session.data.find id with
        | none =>
            cases hresult : b.result.lookup id with
            | none => rfl
            | some node =>
                rw [(hsound.found id node hresult).2] at hfind
                cases hfind
        | some node =>
            have hnode := NodeTable.find_id hfind
            refine (hrow (List.mem_map.mpr ⟨node, (hasked node).mpr ⟨?_, ?_⟩, hnode⟩)).elim
            · exact List.mem_of_find?_eq_some hfind
            · rw [hnode]
              exact hpending
      · exact hfound
    · rw [if_neg hid]
      cases hresult : b.result.lookup id with
      | none => rfl
      | some node => exact (hid (hsound.found id node hresult).1).elim

end State

/-! ## The cache and its answers -/

/-- A map has one entry for a key. -/
def Distinct (cache : NodeIdentityCache) : Prop := (cache.map Prod.fst).Nodup

section Cache

variable {cache : NodeIdentityCache}

theorem Distinct.filter (h : Distinct cache) (keep : String × Node → Bool) :
    Distinct (cache.filter keep) :=
  h.sublist (List.filter_sublist.map _)

theorem Distinct.read (h : Distinct cache) (id : String) :
    Distinct (NodeIdentityCache.read cache id).2 := by
  rw [NodeIdentityCache.read]
  cases cache.lookup id with
  | none => exact h
  | some node =>
      show ((cache.filter (·.1 ≠ id) ++ [(id, node)]).map Prod.fst).Nodup
      rw [List.map_append, List.map_singleton, ← List.concat_eq_append, List.nodup_concat]
      refine ⟨?_, h.filter _⟩
      simp

theorem Distinct.remember (h : Distinct cache) (node : Node) :
    Distinct (NodeIdentityCache.remember cache node) := by
  apply nodup_keys_setEntry
  split
  · unfold NodeIdentityCache.evict
    split
    · exact List.nodup_nil
    · split
      · exact h.filter _
      · exact h
  · exact h

end Cache

section Answers

variable {s : State}

theorem Matches.coherent (h : Matches s.cache s.session.data) : Coherent s where
  single id := (State.getNodeById_of_matches h id).1
  batch ids := (State.getNodesByIds_of_matches h ids).1

/-- Right answers come from a cache that holds the rows. -/
theorem Coherent.matches (h : Coherent s) (hdistinct : Distinct s.cache) :
    Matches s.cache s.session.data := by
  intro entry he
  obtain ⟨id, node⟩ := entry
  have hlookup : s.cache.lookup id = some node := lookup_of_mem hdistinct he
  have hanswer : (s.getNodeById id).1 = some node := by
    rw [State.getNodeById, NodeIdentityCache.read, hlookup]
  rw [← h.single id, hanswer]

end Answers

/-! ## Single operations -/

namespace State

variable {s : State}

theorem distinct_getNodeById (h : Distinct s.cache) (id : String) :
    Distinct (s.getNodeById id).2.cache := by
  rw [getNodeById]
  cases (read s.cache id).1 with
  | some node => exact h.read id
  | none =>
      cases s.session.data.find id with
      | none => exact h.read id
      | some node => exact (h.read id).remember node

theorem distinct_foldl_readCached (ids : List String) (b : Batch) (h : Distinct b.cache) :
    Distinct (ids.foldl readCached b).cache := by
  induction ids generalizing b with
  | nil => exact h
  | cons id ids ih =>
      apply ih
      rw [readCached]
      cases (read b.cache id).1 with
      | none => exact h.read id
      | some node => exact h.read id

theorem distinct_foldl_takeRow (rows : List Node) (b : Batch) (h : Distinct b.cache) :
    Distinct (rows.foldl takeRow b).cache := by
  induction rows generalizing b with
  | nil => exact h
  | cons row rows ih => exact ih _ (h.remember row)

theorem distinct_getNodesByIds (h : Distinct s.cache) (ids : List String) :
    Distinct (s.getNodesByIds ids).2.cache := by
  rw [getNodesByIds, foldl_readChunk]
  exact distinct_foldl_takeRow _ _ (distinct_foldl_readCached ids _ h)

theorem foldl_forgetNode (nodes : List Node) (s : State) :
    nodes.foldl (fun s node => s.forgetNode node.id) s =
      { s with cache := s.cache.filter fun entry => nodes.all fun node => entry.1 ≠ node.id } := by
  induction nodes generalizing s with
  | nil => simp
  | cons node nodes ih =>
      rw [List.foldl_cons, ih]
      simp only [forgetNode, drop, List.filter_filter, List.all_cons, Bool.and_comm]

/-- What a write may do to a cache that matches the table. -/
theorem matches_write {cache : NodeIdentityCache} {table table' : NodeTable}
    (h : Matches cache table) {keep : String × Node → Bool}
    (hkeep : ∀ entry, keep entry = true → table.find entry.1 = some entry.2 →
      table'.find entry.1 = some entry.2) : Matches (cache.filter keep) table' := by
  intro entry he
  obtain ⟨hmem, hkept⟩ := List.mem_filter.mp he
  exact hkeep entry hkept (h entry hmem)

theorem matches_insert (h : Matches s.cache s.session.data) (node : Node) (written : Bool) :
    Matches (s.insert node written).cache (s.insert node written).session.data := by
  rw [insert]
  split
  · exact h
  · cases written with
    | false => exact h.filter _
    | true =>
        refine matches_write h fun entry hne hfind => ?_
        show (s.session.data.insert node).find entry.1 = _
        rw [NodeTable.find_insert_ne (by simpa using hne), hfind]

theorem matches_update (h : Matches s.cache s.session.data) (node : Node) (written : Bool) :
    Matches (s.update node written).cache (s.update node written).session.data := by
  rw [update]
  split
  · exact h.filter _
  · cases written with
    | false => exact h.filter _
    | true =>
        refine matches_write h fun entry hne hfind => ?_
        show (s.session.data.update node).find entry.1 = _
        rw [NodeTable.find_update_ne (by simpa using hne), hfind]

theorem matches_delete (h : Matches s.cache s.session.data) (id : String) (written : Bool) :
    Matches (s.delete id written).cache (s.delete id written).session.data := by
  cases written with
  | false => exact h.filter _
  | true =>
      refine matches_write h fun entry hne hfind => NodeTable.find_filter hfind ?_
      rw [NodeTable.find_id hfind]
      exact hne

theorem matches_deleteByFile (h : Matches s.cache s.session.data) (filePath : String)
    (written : Bool) : Matches (s.deleteByFile filePath written).cache
      (s.deleteByFile filePath written).session.data := by
  cases written with
  | false => exact h.filter _
  | true => exact matches_write h fun entry hne hfind => NodeTable.find_filter hfind hne

theorem matches_insertMany (h : Matches s.cache s.session.data) (nodes : List Node)
    (throws : Option Nat) :
    Matches (s.insertMany nodes throws).cache (s.insertMany nodes throws).session.data := by
  have hwritten : ∀ rows : List Node, (∀ row ∈ rows, row ∈ nodes.filter Store.isStorable) →
      Matches (s.cache.filter fun entry =>
          (nodes.filter Store.isStorable).all fun node => entry.1 ≠ node.id)
        (s.session.data.insertAll rows) := by
    intro rows hrows
    refine matches_write h fun entry hne hfind => ?_
    rw [NodeTable.find_insertAll_ne rows, hfind]
    intro row hrow
    simpa using List.all_eq_true.mp hne row (hrows row hrow)
  simp only [insertMany, foldl_forgetNode]
  cases throws with
  | none => exact hwritten _ fun row hrow => hrow
  | some rows =>
      by_cases hdepth : s.session.depth = 0
      · show Matches _ (((s.session.enter).write _).fail).data
        rw [Session.fail_write_enter _ hdepth]
        exact h.filter _
      · show Matches _ (((s.session.enter).write _).fail).data
        rw [Session.fail_write_enter_of_pos _ (Nat.pos_of_ne_zero hdepth)]
        exact hwritten _ fun row hrow => List.mem_of_mem_take hrow

theorem distinct_insertMany (h : Distinct s.cache) (nodes : List Node) (throws : Option Nat) :
    Distinct (s.insertMany nodes throws).cache := by
  simp only [insertMany, foldl_forgetNode]
  cases throws <;> exact h.filter _

theorem wellFormed_insertMany (h : s.session.WellFormed) (nodes : List Node)
    (throws : Option Nat) : (s.insertMany nodes throws).session.WellFormed := by
  simp only [insertMany, foldl_forgetNode]
  cases throws with
  | none => exact (h.enter.write _).leave
  | some rows => exact (h.enter.write _).fail

end State

/-! ## Every step, every run -/

/-- What holds whether or not the answers are right. -/
structure Regular (s : State) : Prop where
  session : s.session.WellFormed
  cache : Distinct s.cache

theorem Regular.step {s t : State} {e : Event} (h : Regular s) (ht : machine s e = some t) :
    Regular t := by
  obtain ⟨hsession, hcache⟩ := h
  cases e with
  | enters =>
      cases ht
      exact ⟨hsession.enter, hcache⟩
  | leaves =>
      simp only [machine, Option.ite_none_left_eq_some, Option.some.injEq] at ht
      obtain ⟨-, rfl⟩ := ht
      exact ⟨hsession.leave, hcache⟩
  | throws =>
      simp only [machine, Option.ite_none_left_eq_some, Option.some.injEq] at ht
      obtain ⟨-, rfl⟩ := ht
      exact ⟨hsession.fail, hcache⟩
  | getNodeById id =>
      cases ht
      refine ⟨?_, State.distinct_getNodeById hcache id⟩
      rw [State.getNodeById_session]
      exact hsession
  | getNodesByIds ids =>
      cases ht
      exact ⟨hsession, State.distinct_getNodesByIds hcache ids⟩
  | insert node written =>
      cases ht
      rw [State.insert]
      split
      · exact ⟨hsession, hcache⟩
      · cases written <;> exact ⟨hsession, hcache.filter _⟩
  | insertMany nodes throws =>
      cases ht
      exact ⟨State.wellFormed_insertMany hsession nodes throws,
        State.distinct_insertMany hcache nodes throws⟩
  | update node written =>
      cases ht
      rw [State.update]
      split
      · exact ⟨hsession, hcache.filter _⟩
      · cases written <;> exact ⟨hsession, hcache.filter _⟩
  | delete id written =>
      cases ht
      cases written <;> exact ⟨hsession, hcache.filter _⟩
  | deleteByFile filePath written =>
      cases ht
      cases written <;> exact ⟨hsession, hcache.filter _⟩

/-- A rollback keeps the cache right exactly when it takes back no row that is cached. -/
theorem matches_fail {s : State} (hs : Regular s) (h : Matches s.cache s.session.data) :
    Matches s.cache s.session.fail.data ↔ RollsBackUncached s .throws := by
  by_cases hdepth : s.session.depth = 1
  · obtain ⟨saved, hsaved⟩ := Option.isSome_iff_exists.mp (hs.session.mpr (by omega))
    have hdata : s.session.fail.data = saved := by
      simp [Session.fail, hdepth, hsaved]
    rw [hdata]
    constructor
    · intro hmatches _ other hother entry he
      cases hsaved.symm.trans hother
      rw [hmatches entry he, h entry he]
    · intro hguard entry he
      rw [hguard hdepth saved hsaved entry he, h entry he]
  · rw [Session.fail_data_of_ne hdepth]
    exact ⟨fun _ hone => (hdepth hone).elim, fun _ => h⟩

theorem matches_step {s t : State} {e : Event} (hs : Regular s)
    (h : Matches s.cache s.session.data) (ht : machine s e = some t) :
    Matches t.cache t.session.data ↔ RollsBackUncached s e := by
  have always : Matches t.cache t.session.data →
      (Matches t.cache t.session.data ↔ True) := fun hmatches => iff_true_intro hmatches
  cases e with
  | throws =>
      simp only [machine, Option.ite_none_left_eq_some, Option.some.injEq] at ht
      obtain ⟨-, rfl⟩ := ht
      exact matches_fail hs h
  | enters =>
      cases ht
      exact always h
  | leaves =>
      simp only [machine, Option.ite_none_left_eq_some, Option.some.injEq] at ht
      obtain ⟨-, rfl⟩ := ht
      exact always h
  | getNodeById id =>
      cases ht
      apply always
      rw [State.getNodeById_session]
      exact (State.getNodeById_of_matches h id).2
  | getNodesByIds ids =>
      cases ht
      exact always (State.getNodesByIds_of_matches h ids).2
  | insert node written =>
      cases ht
      exact always (State.matches_insert h node written)
  | insertMany nodes throws =>
      cases ht
      exact always (State.matches_insertMany h nodes throws)
  | update node written =>
      cases ht
      exact always (State.matches_update h node written)
  | delete id written =>
      cases ht
      exact always (State.matches_delete h id written)
  | deleteByFile filePath written =>
      cases ht
      exact always (State.matches_deleteByFile h filePath written)

/-- Along a run all lookups answer from the table exactly as long as no rollback takes back a
row that has been read since it was written. -/
theorem coherent_iff_rollsBackUncached (table : NodeTable) (events : List Event) :
    machine.Always Coherent (opened table) events ↔
      machine.Guarded RollsBackUncached (opened table) events := by
  have hregular : Regular (opened table) := by
    refine ⟨?_, List.nodup_nil⟩
    simp [Session.WellFormed, opened]
  have hmatches : Matches (opened table).cache (opened table).session.data := .nil
  refine Machine.always_iff_guarded (fun _ _ _ hs _ ht => hs.step ht) ?_ hregular
    hmatches.coherent events
  intro s e t hs hcoherent ht
  rw [← matches_step hs (hcoherent.matches hs.cache) ht]
  exact ⟨fun h => h.matches (hs.step ht).cache, Matches.coherent⟩

/-- A table of one function. -/
def oneFunction : NodeTable where
  rows := [⟨"f1", .function, "get", "get", "src/a.ts", .typescript, 1⟩]
  ids := by decide

/-- The function is renamed and read in a transaction that rolls back. -/
def renamedAndReadBack : List Event :=
  [.enters, .update ⟨"f1", .function, "fetch", "fetch", "src/a.ts", .typescript, 1⟩ true,
    .getNodeById "f1", .throws]

theorem not_coherent_renamedAndReadBack :
    ¬ machine.Always Coherent (opened oneFunction) renamedAndReadBack := by
  intro h
  have hend : (machine.run (opened oneFunction) renamedAndReadBack).any (fun t =>
      (t.getNodeById "f1").1 ≠ t.session.data.find "f1") = true := by decide
  obtain ⟨t, ht, hdiffers⟩ := (Option.any_eq_true _ _).mp hend
  exact absurd ((h.last ht).single "f1") (of_decide_eq_true hdiffers)

end AfyxGraph.Db.NodeCache
