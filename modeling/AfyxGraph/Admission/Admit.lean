import AfyxGraph.Core.Transition
import AfyxGraph.Store.Tables

/-! # Admitting an extraction result

`admitFile` decides from the file record what to delete and which incoming edges to
save, and then commits one transaction after the other. The model keeps that
shape: `writes` is the list of transactions, `step` commits one of them, and an
admission is the run of its list. An admission that is cut off is the run of a
prefix.
-/

namespace AfyxGraph.Admission

open AfyxGraph.Core Extraction Store

/-- One file's complete store payload. -/
structure StoreBundle where
  nodes : List Node
  edges : List Edge
  refs : List UnresolvedReference
  file : FileRecord

/-- A transaction of the write side. -/
inductive Write where
  | deleteFile (path : String)
  | storeFileBundle (bundle : StoreBundle)
  | insertNodes (nodes : List Node)
  | insertEdges (edges : List Edge)
  | insertUnresolvedRefsBatch (refs : List UnresolvedReference)
  | upsertFile (file : FileRecord)

/-- Nodes, edges, references and the file record in one transaction. -/
def storeBundle (t : Tables) (bundle : StoreBundle) : Option Tables := do
  let t ← (t.insertNodes bundle.nodes).insertTrusted bundle.edges
  let t ← t.insertUnresolvedRefsBatch bundle.refs
  return t.upsertFile bundle.file

/-- Commit one transaction; a broken foreign key throws. -/
def step : Machine Tables Write
  | t, .deleteFile path => some (t.deleteFile path)
  | t, .storeFileBundle bundle => storeBundle t bundle
  | t, .insertNodes nodes => some (t.insertNodes nodes)
  | t, .insertEdges edges => t.insertEdges edges
  | t, .insertUnresolvedRefsBatch refs => t.insertUnresolvedRefsBatch refs
  | t, .upsertFile file => some (t.upsertFile file)

/-- An edge with what the query reads of its endpoints. -/
structure IncomingEdge where
  edge : Edge
  targetKind : NodeKind
  targetName : String
  sourceFilePath : String
  sourceLanguage : Language
  deriving DecidableEq

/-- The join of `incomingAcrossFiles`. -/
def incomingAcrossFiles (t : Tables) (path : String) : List IncomingEdge :=
  t.edges.flatMap fun e =>
    (t.nodes.filter fun target => target.id = e.target ∧ target.filePath = path).flatMap
      fun target =>
        (t.nodes.filter fun source =>
          source.id = e.source ∧ e.kind ≠ .contains ∧ source.filePath ≠ path).map
            fun source => ⟨e, target.kind, target.name, source.filePath, source.language⟩

/-- What an admission takes from outside: the content hash, the decoder of kernel
tables, and the order in which the store gives the rows of a query. -/
structure Environment where
  hashContent : String → String
  materializeKernelResult : ExtractionResult → String → Language → ExtractionResult
  rowOrder : List IncomingEdge → List IncomingEdge
  rowOrder_perm : ∀ rows, (rowOrder rows).Perm rows

/-- The arguments of `admitFile`. -/
structure Extracted where
  filePath : String
  content : String
  language : Language
  size : Nat
  mtimeMs : Nat
  rawResult : ExtractionResult

def STORE_CHUNK : Nat := 2000

/-- A missing or empty stamp means the reference cannot be recovered. -/
def recoverUnresolvedReference (incoming : IncomingEdge) : Option UnresolvedReference :=
  match incoming.edge.metadata.bind (·.refName) with
  | none => none
  | some refName =>
      if refName = "" then none
      else some {
        fromNodeId := incoming.edge.source
        referenceName := refName
        referenceKind :=
          (incoming.edge.metadata.bind (·.refKind)).getD (kindText incoming.edge.kind)
        line := incoming.edge.line.getD 0
        column := incoming.edge.column.getD 0
        filePath := some incoming.sourceFilePath
        language := some incoming.sourceLanguage }

/-- The value of the map `targetByIdentity` at a kind and a name. -/
def targetByIdentity (nodes : List Node) (kind : NodeKind) (name : String) : Option String :=
  nodes.foldl
    (fun found n => if n.kind = kind ∧ n.name = name then some n.id else found) none

/-- The edge an incoming edge is replaced by. -/
def reattached (nodes : List Node) (incoming : IncomingEdge) : Option Edge :=
  (targetByIdentity nodes incoming.targetKind incoming.targetName).map fun target =>
    { incoming.edge with target }

/-- The reference an incoming edge falls back to. -/
def reopened (nodes : List Node) (incoming : IncomingEdge) : Option UnresolvedReference :=
  match targetByIdentity nodes incoming.targetKind incoming.targetName with
  | some _ => none
  | none => recoverUnresolvedReference incoming

def reattachIncoming (edges : List IncomingEdge) (nodes : List Node) : List Write :=
  let reinserted := edges.filterMap (reattached nodes)
  let unresolved := edges.filterMap (reopened nodes)
  (if reinserted = [] then [] else [.insertEdges reinserted]) ++
    (if unresolved = [] then [] else [.insertUnresolvedRefsBatch unresolved])

/-- The slices of at most `size` rows of a loop over offsets; `fuel` bounds the
number of turns. -/
def slicesFuel {α : Type} (size : Nat) : Nat → List α → List (List α)
  | 0, _ => []
  | _, [] => []
  | fuel + 1, rows => rows.take size :: slicesFuel size fuel (rows.drop size)

def slices {α : Type} (rows : List α) : List (List α) := slicesFuel STORE_CHUNK rows.length rows

/-- Nodes without an identity are dropped, and what refers to a dropped node. -/
def finalizeStoreBundle (result : ExtractionResult) (filePath : String) (language : Language)
    (file : FileRecord) : StoreBundle :=
  let validNodes := result.nodes.filter isStorable
  let insertedIds := validNodes.map (·.id)
  { nodes := validNodes
    edges := result.edges.filter fun e => e.source ∈ insertedIds ∧ e.target ∈ insertedIds
    refs := (result.unresolvedReferences.filter fun ref => ref.fromNodeId ∈ insertedIds).map
      fun ref => { ref with
        filePath := some (ref.filePath.getD filePath)
        language := some (ref.language.getD language) }
    file }

namespace Environment

variable (env : Environment)

def result (x : Extracted) : ExtractionResult :=
  env.materializeKernelResult x.rawResult x.filePath x.language

def fileRecord (x : Extracted) : FileRecord where
  path := x.filePath
  contentHash := env.hashContent x.content
  language := x.language
  size := x.size
  modifiedAt := x.mtimeMs
  nodeCount := (env.result x).nodes.length
  errors := (env.result x).errors

def bundle (x : Extracted) : StoreBundle :=
  finalizeStoreBundle (env.result x) x.filePath x.language (env.fileRecord x)

def fitsOneChunk (x : Extracted) : Bool :=
  decide ((env.bundle x).nodes.length ≤ STORE_CHUNK) &&
    decide ((env.bundle x).edges.length ≤ STORE_CHUNK) &&
    decide ((env.bundle x).refs.length ≤ STORE_CHUNK)

/-- The transactions behind the deletion. -/
def storeWrites (x : Extracted) (incoming : List IncomingEdge) : List Write :=
  let bundle := env.bundle x
  if env.fitsOneChunk x then
    .storeFileBundle bundle :: reattachIncoming incoming bundle.nodes
  else
    (slices bundle.nodes).map .insertNodes ++ (slices bundle.edges).map .insertEdges ++
      reattachIncoming incoming bundle.nodes ++
      (slices bundle.refs).map .insertUnresolvedRefsBatch ++ [.upsertFile bundle.file]

/-- `admitFile` leaves the stored facts alone: the content is the recorded one, and
the record is no marker that a result with nodes replaces. -/
def upToDate (existing : FileRecord) (x : Extracted) : Bool :=
  decide (existing.contentHash = env.hashContent x.content) &&
    !(decide (existing.nodeCount = 0) && !existing.errors.isEmpty &&
      decide ((env.result x).nodes.length ≠ 0))

/-- The edges `admitFile` saves before the deletion. -/
def savedEdges (t : Tables) (x : Extracted) : List IncomingEdge :=
  env.rowOrder (incomingAcrossFiles t x.filePath)

def writes (t : Tables) (x : Extracted) : List Write :=
  match t.getFileByPath x.filePath with
  | none => env.storeWrites x []
  | some existing =>
      if env.upToDate existing x then []
      else .deleteFile x.filePath :: env.storeWrites x (env.savedEdges t x)

/-- An admission that is not cut off. -/
def admitFile (t : Tables) (x : Extracted) : Option Tables := step.run t (env.writes t x)

end Environment

/-! ## Small facts about the definitions -/

theorem slicesFuel_flatten {α : Type} {size : Nat} (hsize : 0 < size) {fuel : Nat}
    {rows : List α} (h : rows.length ≤ fuel) : (slicesFuel size fuel rows).flatten = rows := by
  induction fuel generalizing rows with
  | zero =>
      obtain rfl : rows = [] := by simpa using h
      rfl
  | succ fuel ih =>
      cases rows with
      | nil => rfl
      | cons row rows =>
          have hrest : ((row :: rows).drop size).length ≤ fuel := by
            simp only [List.length_drop, List.length_cons] at h ⊢
            omega
          rw [slicesFuel, List.flatten_cons, ih hrest, List.take_append_drop]
          simp

@[simp] theorem slices_flatten {α : Type} (rows : List α) : (slices rows).flatten = rows :=
  slicesFuel_flatten (by decide) (Nat.le_refl _)

/-- The map holds the last node with a kind and a name. -/
theorem targetByIdentity_eq_some {nodes : List Node} {kind : NodeKind} {name id : String} :
    targetByIdentity nodes kind name = some id ↔
      ∃ n, LastWith (fun n => n.kind = kind ∧ n.name = name) nodes n ∧ n.id = id := by
  induction nodes using List.reverseRecOn with
  | nil => simp [targetByIdentity, not_lastWith_nil]
  | append_singleton nodes last ih =>
      have hfold : targetByIdentity (nodes ++ [last]) kind name =
          if last.kind = kind ∧ last.name = name then some last.id
          else targetByIdentity nodes kind name := by
        simp [targetByIdentity]
      simp only [hfold, lastWith_append_singleton]
      split
      · rename_i hlast
        constructor
        · intro h
          exact ⟨last, Or.inl ⟨rfl, hlast⟩, Option.some.inj h⟩
        · rintro ⟨n, ⟨rfl, _⟩ | ⟨hnot, _⟩, rfl⟩
          · rfl
          · exact (hnot hlast).elim
      · rename_i hlast
        rw [ih]
        constructor
        · rintro ⟨n, hn, hid⟩
          exact ⟨n, Or.inr ⟨hlast, hn⟩, hid⟩
        · rintro ⟨n, ⟨rfl, hp⟩ | ⟨_, hn⟩, hid⟩
          · exact (hlast hp).elim
          · exact ⟨n, hn, hid⟩

/-- The incoming edges of a file are the edges into it from nodes of other files. -/
theorem mem_incomingAcrossFiles {t : Tables} {path : String} {incoming : IncomingEdge} :
    incoming ∈ incomingAcrossFiles t path ↔
      incoming.edge ∈ t.edges ∧ incoming.edge.kind ≠ .contains ∧
      (∃ target ∈ t.nodes, target.id = incoming.edge.target ∧ target.filePath = path ∧
        target.kind = incoming.targetKind ∧ target.name = incoming.targetName) ∧
      ∃ source ∈ t.nodes, source.id = incoming.edge.source ∧ source.filePath ≠ path ∧
        source.filePath = incoming.sourceFilePath ∧ source.language = incoming.sourceLanguage := by
  simp only [incomingAcrossFiles, List.mem_flatMap, List.mem_filter, List.mem_map,
    decide_eq_true_eq]
  constructor
  · rintro ⟨e, he, target, ⟨htarget, htid, htpath⟩, source, ⟨hsource, hsid, hkind, hspath⟩, rfl⟩
    exact ⟨he, hkind, ⟨target, htarget, htid, htpath, rfl, rfl⟩,
      source, hsource, hsid, hspath, rfl, rfl⟩
  · rintro ⟨he, hkind, ⟨target, htarget, htid, htpath, htk, htn⟩,
      source, hsource, hsid, hspath, hsp, hsl⟩
    refine ⟨incoming.edge, he, target, ⟨htarget, htid, htpath⟩, source,
      ⟨hsource, hsid, hkind, hspath⟩, ?_⟩
    rw [htk, htn, hsp, hsl]

namespace Environment

variable {env : Environment} {x : Extracted}

theorem bundle_nodes_storable : ∀ n ∈ (env.bundle x).nodes, isStorable n := by
  intro n hn
  exact (List.mem_filter.mp hn).2

theorem bundle_edges_closed {e : Edge} (he : e ∈ (env.bundle x).edges) :
    (∃ n ∈ (env.bundle x).nodes, n.id = e.source) ∧
      ∃ n ∈ (env.bundle x).nodes, n.id = e.target := by
  have h := of_decide_eq_true (List.mem_filter.mp he).2
  exact ⟨List.mem_map.mp h.1, List.mem_map.mp h.2⟩

theorem bundle_refs_closed {r : UnresolvedReference} (hr : r ∈ (env.bundle x).refs) :
    ∃ n ∈ (env.bundle x).nodes, n.id = r.fromNodeId := by
  obtain ⟨ref, href, rfl⟩ := List.mem_map.mp hr
  exact List.mem_map.mp (of_decide_eq_true (List.mem_filter.mp href).2)

theorem mem_savedEdges {t : Tables} {incoming : IncomingEdge} :
    incoming ∈ env.savedEdges t x ↔ incoming ∈ incomingAcrossFiles t x.filePath :=
  (env.rowOrder_perm _).mem_iff

end Environment

/-! ## The constraints hold after every transaction -/

theorem valid_insertTrusted {t t' : Tables} (h : t.Valid) {edges : List Edge}
    (ht : t.insertTrusted edges = some t') : t'.Valid := by
  simp only [Tables.insertTrusted, Option.ite_none_right_eq_some, Option.some.injEq] at ht
  obtain ⟨hstored, rfl⟩ := ht
  exact { h with identities := nodup_insertAllOrIgnore h.identities, endpoints := hstored }

theorem valid_insertUnresolvedRefsBatch {t t' : Tables} (h : t.Valid)
    {refs : List UnresolvedReference} (ht : t.insertUnresolvedRefsBatch refs = some t') :
    t'.Valid := by
  simp only [Tables.insertUnresolvedRefsBatch, Option.ite_none_right_eq_some,
    Option.some.injEq] at ht
  obtain ⟨hstored, rfl⟩ := ht
  refine { h with origins := fun r hr => ?_ }
  rcases List.mem_append.mp hr with hr | hr
  · exact h.origins r hr
  · obtain ⟨ref, href, rfl⟩ := List.mem_map.mp hr
    exact hstored ref href

theorem valid_upsertFile {t : Tables} (h : t.Valid) (file : FileRecord) :
    (t.upsertFile file).Valid := by
  refine { h with paths := ?_ }
  rw [Tables.upsertFile]
  dsimp only
  split
  · have hpaths : (fun old : FileRecord => (if old.path = file.path then file else old).path) =
        fun old => old.path := by
      funext old
      split
      · rename_i hpath
        exact hpath.symm
      · rfl
    rw [List.map_map, Function.comp_def, hpaths]
    exact h.paths
  · rename_i hnone
    rw [List.map_append, List.nodup_append]
    refine ⟨h.paths, by simp, fun a ha b hb => ?_⟩
    obtain ⟨old, hold, rfl⟩ := List.mem_map.mp ha
    rw [List.map_singleton, List.mem_singleton] at hb
    rintro rfl
    exact hnone ⟨old, hold, hb⟩

/-- A committed transaction keeps the constraints of the schema. -/
theorem step_valid {t t' : Tables} (h : t.Valid) {w : Write} (ht : step t w = some t') :
    t'.Valid := by
  cases w with
  | deleteFile path => cases ht; exact h.deleteFile path
  | storeFileBundle bundle =>
      simp only [step, storeBundle, Option.bind_eq_bind, Option.bind_eq_some_iff] at ht
      obtain ⟨u, hu, v, hv, hlast⟩ := ht
      cases hlast
      exact valid_upsertFile
        (valid_insertUnresolvedRefsBatch (valid_insertTrusted (h.insertNodes _) hu) hv) _
  | insertNodes nodes => cases ht; exact h.insertNodes nodes
  | insertEdges edges => exact valid_insertTrusted h ht
  | insertUnresolvedRefsBatch refs => exact valid_insertUnresolvedRefsBatch h ht
  | upsertFile file => cases ht; exact valid_upsertFile h file

/-- Wherever a list of transactions is cut off, the constraints hold. -/
theorem run_valid {t t' : Tables} (h : t.Valid) {ws : List Write} (ht : step.run t ws = some t') :
    t'.Valid :=
  Machine.run_invariant (fun _ _ _ hs hstep => step_valid hs hstep) h ht

end AfyxGraph.Admission
