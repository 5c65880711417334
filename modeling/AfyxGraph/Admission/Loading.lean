import AfyxGraph.Admission.Admit

/-! # What a list of transactions leaves in the tables

An admission writes nodes before the edges and references that need them. Of a
list of transactions in such an order, and of every prefix of it, the tables
show the payload: the nodes by `OR REPLACE`, the edges by `OR IGNORE` in the order
of the list, the references appended.
-/

namespace AfyxGraph.Admission

open AfyxGraph.Core Extraction Store

namespace Write

/-! ## The payload of a transaction -/

def nodes : Write → List Node
  | .storeFileBundle bundle => bundle.nodes
  | .insertNodes nodes => nodes
  | _ => []

def edges : Write → List Edge
  | .storeFileBundle bundle => bundle.edges
  | .insertEdges edges => edges
  | _ => []

def refs : Write → List UnresolvedReference
  | .storeFileBundle bundle => bundle.refs
  | .insertUnresolvedRefsBatch refs => refs
  | _ => []

def files : Write → List FileRecord
  | .storeFileBundle bundle => [bundle.file]
  | .upsertFile file => [file]
  | _ => []

end Write

/-- Both endpoints are stored, or come with these nodes. -/
def Closed (base : Tables) (nodes : List Node) (e : Edge) : Prop :=
  (base.insertNodes nodes).Stored e.source ∧ (base.insertNodes nodes).Stored e.target

/-- `w` may follow the transactions `before`. -/
def Allowed (base : Tables) (before : List Write) : Write → Prop
  | .deleteFile _ => False
  | .storeFileBundle bundle =>
      before = [] ∧ (∀ n ∈ bundle.nodes, isStorable n) ∧
        (∀ e ∈ bundle.edges, Closed base bundle.nodes e) ∧
        ∀ r ∈ bundle.refs, (base.insertNodes bundle.nodes).Stored r.fromNodeId
  | .insertNodes nodes =>
      (∀ n ∈ nodes, isStorable n) ∧ ∀ v ∈ before, ∃ earlier, v = .insertNodes earlier
  | .insertEdges edges => ∀ e ∈ edges, Closed base (before.flatMap Write.nodes) e
  | .insertUnresolvedRefsBatch refs =>
      ∀ r ∈ refs, (base.insertNodes (before.flatMap Write.nodes)).Stored r.fromNodeId
  | .upsertFile _ => True

/-- Every transaction comes after what it needs. -/
def Orderly (base : Tables) (ws : List Write) : Prop :=
  ∀ before w after, ws = before ++ w :: after → Allowed base before w

theorem Orderly.of_append {base : Tables} {ws rest : List Write} (h : Orderly base (ws ++ rest)) :
    Orderly base ws := by
  intro before w after hws
  exact h before w (after ++ rest) (by simp [hws])

theorem Orderly.last {base : Tables} {ws : List Write} {w : Write} (h : Orderly base (ws ++ [w])) :
    Allowed base ws w :=
  h ws w [] rfl

theorem orderly_concat {base : Tables} {ws : List Write} {w : Write} (h : Orderly base ws)
    (hw : Allowed base ws w) : Orderly base (ws ++ [w]) := by
  intro before v after hsplit
  rcases List.eq_nil_or_concat after with rfl | ⟨after', last, rfl⟩
  · obtain ⟨rfl, hv⟩ := List.append_inj' hsplit rfl
    cases hv
    exact hw
  · rw [List.concat_eq_append, ← List.cons_append, ← List.append_assoc] at hsplit
    obtain ⟨rfl, _⟩ := List.append_inj' hsplit rfl
    exact h before v after' rfl

theorem orderly_nil (base : Tables) : Orderly base [] := by
  intro before w after h
  simp at h

/-- The tables show this payload on top of `base`. -/
structure Written (base : Tables) (ns : List Node) (es : List Edge)
    (rs : List UnresolvedReference) (fs : List FileRecord) (t : Tables) : Prop where
  nodes : t.nodes = (base.insertNodes ns).nodes
  edges : t.edges = insertAllOrIgnore identity (base.insertNodes ns).edges es
  refs : t.refs = (base.insertNodes ns).refs ++ rs.map toRow
  files : t.files = (fs.foldl Tables.upsertFile base).files

theorem Written.stored {base t : Tables} {ns : List Node} {es : List Edge}
    {rs : List UnresolvedReference} {fs : List FileRecord} (h : Written base ns es rs fs t)
    (id : String) : t.Stored id ↔ (base.insertNodes ns).Stored id := by
  rw [Tables.Stored, h.nodes]
  rfl

/-- Trusted edges go in when their endpoints are stored. -/
theorem insertTrusted_eq {t : Tables} (h : t.Valid) {edges : List Edge}
    (hedges : ∀ e ∈ edges, t.Stored e.source ∧ t.Stored e.target) :
    t.insertTrusted edges = some { t with edges := insertAllOrIgnore identity t.edges edges } := by
  rw [Tables.insertTrusted, if_pos]
  intro e he
  rcases mem_of_mem_insertAllOrIgnore he with he | he
  · exact h.endpoints e he
  · exact hedges e he

theorem insertEdges_eq {t : Tables} (h : t.Valid) {edges : List Edge}
    (hedges : ∀ e ∈ edges, t.Stored e.source ∧ t.Stored e.target) :
    t.insertEdges edges = some { t with edges := insertAllOrIgnore identity t.edges edges } := by
  have hall : (edges.filter fun e => t.Stored e.source ∧ t.Stored e.target) = edges :=
    List.filter_eq_self.mpr fun e he => decide_eq_true (hedges e he)
  rw [Tables.insertEdges, hall]
  exact insertTrusted_eq h hedges

theorem insertUnresolvedRefsBatch_eq {t : Tables} {refs : List UnresolvedReference}
    (hrefs : ∀ r ∈ refs, t.Stored r.fromNodeId) :
    t.insertUnresolvedRefsBatch refs = some { t with refs := t.refs ++ refs.map toRow } :=
  if_pos hrefs

@[simp] theorem upsertFile_nodes (t : Tables) (file : FileRecord) :
    (t.upsertFile file).nodes = t.nodes := rfl

@[simp] theorem upsertFile_edges (t : Tables) (file : FileRecord) :
    (t.upsertFile file).edges = t.edges := rfl

@[simp] theorem upsertFile_refs (t : Tables) (file : FileRecord) :
    (t.upsertFile file).refs = t.refs := rfl

/-- The file records do not depend on the other tables. -/
theorem upsertFile_files_congr {t u : Tables} (h : t.files = u.files) (file : FileRecord) :
    (t.upsertFile file).files = (u.upsertFile file).files := by
  simp only [Tables.upsertFile, h]

theorem storeBundle_eq {base : Tables} (h : base.Valid) {bundle : StoreBundle}
    (hedges : ∀ e ∈ bundle.edges, Closed base bundle.nodes e)
    (hrefs : ∀ r ∈ bundle.refs, (base.insertNodes bundle.nodes).Stored r.fromNodeId) :
    storeBundle base bundle = some (Tables.upsertFile
      { base.insertNodes bundle.nodes with
        edges := insertAllOrIgnore identity (base.insertNodes bundle.nodes).edges bundle.edges
        refs := (base.insertNodes bundle.nodes).refs ++ bundle.refs.map toRow } bundle.file) := by
  rw [storeBundle, insertTrusted_eq (h.insertNodes _) hedges]
  simp only [Option.bind_eq_bind, Option.bind_some]
  rw [insertUnresolvedRefsBatch_eq]
  · rfl
  · exact hrefs

/-- One more transaction that is allowed adds its payload. -/
theorem Written.step {base t : Tables} {ws : List Write} {w : Write} (ht : t.Valid)
    (h : Written base (ws.flatMap Write.nodes) (ws.flatMap Write.edges) (ws.flatMap Write.refs)
      (ws.flatMap Write.files) t)
    (hbase : ws = [] → t = base) (hw : Allowed base ws w) :
    ∃ t', Admission.step t w = some t' ∧
      Written base ((ws ++ [w]).flatMap Write.nodes) ((ws ++ [w]).flatMap Write.edges)
        ((ws ++ [w]).flatMap Write.refs) ((ws ++ [w]).flatMap Write.files) t' := by
  cases w with
  | deleteFile path => exact hw.elim
  | storeFileBundle bundle =>
      obtain ⟨rfl, _, hedges, hrefs⟩ := hw
      obtain rfl := hbase rfl
      refine ⟨_, storeBundle_eq ht hedges hrefs, ?_⟩
      constructor
      · simp [Write.nodes]
      · simp [Write.nodes, Write.edges]
      · simp [Write.nodes, Write.refs]
      · exact upsertFile_files_congr (Tables.insertNodes_files _ _) _
  | insertNodes nodes =>
      -- only node batches so far, so the state is the base with these nodes
      obtain ⟨_, hbefore⟩ := hw
      have hnone : ws.flatMap Write.edges = [] ∧ ws.flatMap Write.refs = [] ∧
          ws.flatMap Write.files = [] := by
        refine ⟨?_, ?_, ?_⟩ <;>
        · rw [List.flatMap_eq_nil_iff]
          intro v hv
          obtain ⟨earlier, rfl⟩ := hbefore v hv
          rfl
      obtain ⟨he, hr, hf⟩ := hnone
      have hsame : t = base.insertNodes (ws.flatMap Write.nodes) := by
        cases t
        have hn := h.nodes
        have hedges := h.edges
        have hrefs := h.refs
        have hfiles := h.files
        rw [he] at hedges
        rw [hr] at hrefs
        rw [hf] at hfiles
        simp only [insertAllOrIgnore, List.foldl_nil, List.map_nil, List.append_nil] at *
        rw [← Tables.insertNodes_files base (ws.flatMap Write.nodes)] at hfiles
        subst hn hedges hrefs hfiles
        rfl
      refine ⟨_, rfl, ?_⟩
      rw [hsame, ← Tables.insertNodes_append]
      constructor
      · simp [Write.nodes]
      · simp [Write.nodes, Write.edges, he, insertAllOrIgnore]
      · simp [Write.nodes, Write.refs, hr]
      · simp [Write.files, hf]
  | insertEdges edges =>
      refine ⟨_, insertEdges_eq ht fun e he => ?_, ?_⟩
      · rw [h.stored, h.stored]
        exact hw e he
      · constructor
        · simpa [Write.nodes] using h.nodes
        · simp [Write.nodes, Write.edges, insertAllOrIgnore_append, h.edges]
        · simpa [Write.nodes, Write.refs] using h.refs
        · simpa [Write.files] using h.files
  | insertUnresolvedRefsBatch refs =>
      refine ⟨_, insertUnresolvedRefsBatch_eq fun r hr => ?_, ?_⟩
      · rw [h.stored]
        exact hw r hr
      · constructor
        · simpa [Write.nodes] using h.nodes
        · simpa [Write.nodes, Write.edges] using h.edges
        · simp [Write.nodes, Write.refs, h.refs]
        · simpa [Write.files] using h.files
  | upsertFile file =>
      refine ⟨_, rfl, ?_⟩
      constructor
      · simpa [Write.nodes] using h.nodes
      · simpa [Write.nodes, Write.edges] using h.edges
      · simpa [Write.nodes, Write.refs] using h.refs
      · rw [List.flatMap_append, List.foldl_append]
        exact upsertFile_files_congr h.files file

/-- An orderly list commits to its end, and the tables show its payload. -/
theorem Orderly.run {base : Tables} (hbase : base.Valid) {ws : List Write}
    (h : Orderly base ws) : ∃ t, Admission.step.run base ws = some t ∧ t.Valid ∧
      Written base (ws.flatMap Write.nodes) (ws.flatMap Write.edges) (ws.flatMap Write.refs)
        (ws.flatMap Write.files) t := by
  induction ws using List.reverseRecOn with
  | nil =>
      exact ⟨base, rfl, hbase, by simp [Tables.insertNodes],
        by simp [Tables.insertNodes, insertAllOrIgnore], by simp [Tables.insertNodes], rfl⟩
  | append_singleton ws w ih =>
      obtain ⟨t, hrun, hvalid, hwritten⟩ := ih h.of_append
      have hfirst : ws = [] → t = base := by
        rintro rfl
        exact (Option.some.inj hrun).symm
      obtain ⟨t', hstep, hwritten'⟩ := hwritten.step hvalid hfirst h.last
      refine ⟨t', ?_, step_valid hvalid hstep, hwritten'⟩
      rw [Machine.run_append, hrun]
      simp [hstep]

/-! ## The transactions of an admission -/

/-- `w` needs nothing but these nodes on top of `base`. -/
def Needs (base : Tables) (ns : List Node) : Write → Prop
  | .insertEdges edges => ∀ e ∈ edges, Closed base ns e
  | .insertUnresolvedRefsBatch refs => ∀ r ∈ refs, (base.insertNodes ns).Stored r.fromNodeId
  | .upsertFile _ => True
  | _ => False

theorem Needs.nodes {base : Tables} {ns : List Node} {w : Write} (h : Needs base ns w) :
    w.nodes = [] := by
  cases w with
  | insertNodes nodes => exact h.elim
  | storeFileBundle bundle => exact h.elim
  | _ => rfl

theorem Needs.allowed {base : Tables} {ns : List Node} {before : List Write} {w : Write}
    (h : Needs base ns w) (hns : before.flatMap Write.nodes = ns) : Allowed base before w := by
  subst hns
  cases w with
  | insertEdges edges => exact h
  | insertUnresolvedRefsBatch refs => exact h
  | upsertFile file => trivial
  | _ => exact h.elim

/-- What only needs the nodes may come behind them in any order. -/
theorem orderly_append {base : Tables} {ns : List Node} {ws vs : List Write}
    (h : Orderly base ws) (hns : ws.flatMap Write.nodes = ns) (hvs : ∀ v ∈ vs, Needs base ns v) :
    Orderly base (ws ++ vs) := by
  induction vs using List.reverseRecOn with
  | nil => simpa using h
  | append_singleton vs v ih =>
      rw [← List.append_assoc]
      refine orderly_concat (ih fun w hw => hvs w (by simp [hw])) ?_
      refine (hvs v (by simp)).allowed ?_
      have hnone : vs.flatMap Write.nodes = [] :=
        List.flatMap_eq_nil_iff.mpr fun w hw => (hvs w (by simp [hw])).nodes
      rw [List.flatMap_append, hnone, List.append_nil, hns]

theorem orderly_nodes {base : Tables} {batches : List (List Node)}
    (hs : ∀ batch ∈ batches, ∀ n ∈ batch, isStorable n) :
    Orderly base (batches.map .insertNodes) := by
  intro before w after h
  obtain ⟨earlier, rest, rfl, rfl, hrest⟩ := List.map_eq_append_iff.mp h
  obtain ⟨batch, later, rfl, rfl, _⟩ := List.map_eq_cons_iff.mp hrest
  refine ⟨hs batch (by simp), fun v hv => ?_⟩
  obtain ⟨ns, _, rfl⟩ := List.mem_map.mp hv
  exact ⟨ns, rfl⟩

/-- Transactions that each carry a batch carry the batches one after the other. -/
theorem payload_batches {β : Type} {carry : List β → Write} {payload : Write → List β}
    (h : ∀ batch, payload (carry batch) = batch) (batches : List (List β)) :
    (batches.map carry).flatMap payload = batches.flatten := by
  induction batches with
  | nil => rfl
  | cons batch batches ih => simp [h, ih]

theorem payload_none {β γ : Type} {carry : List β → Write} {payload : Write → List γ}
    (h : ∀ batch, payload (carry batch) = []) (batches : List (List β)) :
    (batches.map carry).flatMap payload = [] := by
  induction batches with
  | nil => rfl
  | cons batch batches ih => simp [h, ih]

namespace Environment

variable {env : Environment} {x : Extracted}

theorem mem_of_mem_slices {α : Type} {rows slice : List α} {row : α} (hs : slice ∈ slices rows)
    (hr : row ∈ slice) : row ∈ rows := by
  rw [← slices_flatten rows]
  exact List.mem_flatten.mpr ⟨slice, hs, hr⟩

theorem bundle_edge_closed (base : Tables) {e : Edge} (he : e ∈ (env.bundle x).edges) :
    Closed base (env.bundle x).nodes e := by
  obtain ⟨hsource, htarget⟩ := bundle_edges_closed he
  exact ⟨(Tables.stored_insertNodes bundle_nodes_storable).mpr (Or.inr hsource),
    (Tables.stored_insertNodes bundle_nodes_storable).mpr (Or.inr htarget)⟩

theorem bundle_ref_stored (base : Tables) {r : UnresolvedReference}
    (hr : r ∈ (env.bundle x).refs) :
    (base.insertNodes (env.bundle x).nodes).Stored r.fromNodeId :=
  (Tables.stored_insertNodes bundle_nodes_storable).mpr (Or.inr (bundle_refs_closed hr))

theorem reattached_target {nodes : List Node} {incoming : IncomingEdge} {e : Edge}
    (h : reattached nodes incoming = some e) :
    ∃ n, LastWith (fun n => n.kind = incoming.targetKind ∧ n.name = incoming.targetName) nodes n ∧
      e = { incoming.edge with target := n.id } := by
  obtain ⟨id, hid, rfl⟩ := Option.map_eq_some_iff.mp h
  obtain ⟨n, hn, rfl⟩ := targetByIdentity_eq_some.mp hid
  exact ⟨n, hn, rfl⟩

theorem recovered_source {incoming : IncomingEdge} {ref : UnresolvedReference}
    (h : recoverUnresolvedReference incoming = some ref) :
    ref.fromNodeId = incoming.edge.source := by
  unfold recoverUnresolvedReference at h
  split at h
  · cases h
  · split at h
    · cases h
    · cases h
      rfl

theorem reopened_source {nodes : List Node} {incoming : IncomingEdge} {r : UnresolvedReference}
    (h : reopened nodes incoming = some r) : r.fromNodeId = incoming.edge.source := by
  unfold reopened at h
  split at h
  · cases h
  · exact recovered_source h

theorem reattachIncoming_needs {base : Tables} {incoming : List IncomingEdge}
    (hs : ∀ i ∈ incoming, base.Stored i.edge.source) {w : Write}
    (hw : w ∈ reattachIncoming incoming (env.bundle x).nodes) :
    Needs base (env.bundle x).nodes w := by
  have hsource : ∀ i ∈ incoming,
      (base.insertNodes (env.bundle x).nodes).Stored i.edge.source := fun i hi =>
    (Tables.stored_insertNodes bundle_nodes_storable).mpr (Or.inl (hs i hi))
  simp only [reattachIncoming, List.mem_append] at hw
  rcases hw with hw | hw
  · split at hw
    · simp at hw
    · rw [List.mem_singleton.mp hw]
      intro e he
      obtain ⟨i, hi, hre⟩ := List.mem_filterMap.mp he
      obtain ⟨n, hn, rfl⟩ := reattached_target hre
      exact ⟨hsource i hi,
        (Tables.stored_insertNodes bundle_nodes_storable).mpr (Or.inr ⟨n, hn.mem, rfl⟩)⟩
  · split at hw
    · simp at hw
    · rw [List.mem_singleton.mp hw]
      intro r hr
      obtain ⟨i, hi, hre⟩ := List.mem_filterMap.mp hr
      rw [reopened_source hre]
      exact hsource i hi

/-- The transactions behind the deletion come in an order that commits. -/
theorem storeWrites_orderly {base : Tables} {incoming : List IncomingEdge}
    (hs : ∀ i ∈ incoming, base.Stored i.edge.source) :
    Orderly base (env.storeWrites x incoming) := by
  unfold storeWrites
  dsimp only
  split
  · rw [← List.singleton_append]
    refine @orderly_append _ (env.bundle x).nodes _ _ ?_ (by simp [Write.nodes])
      fun w hw => reattachIncoming_needs hs hw
    refine @orderly_concat _ [] _ (orderly_nil base) ⟨rfl, bundle_nodes_storable, ?_, ?_⟩
    · exact fun e he => bundle_edge_closed base he
    · exact fun r hr => bundle_ref_stored base hr
  · simp only [List.append_assoc]
    refine @orderly_append _ (env.bundle x).nodes _ _ ?_ ?_ fun w hw => ?_
    · exact orderly_nodes fun batch hb n hn => bundle_nodes_storable n (mem_of_mem_slices hb hn)
    · rw [payload_batches fun _ => rfl, slices_flatten]
    · simp only [List.mem_append, List.mem_map, List.mem_singleton] at hw
      rcases hw with ⟨batch, hb, rfl⟩ | hw | ⟨batch, hb, rfl⟩ | rfl
      · exact fun e he => bundle_edge_closed base (mem_of_mem_slices hb he)
      · exact reattachIncoming_needs hs hw
      · exact fun r hr => bundle_ref_stored base (mem_of_mem_slices hb hr)
      · trivial

/-! ### The payload of an admission -/

theorem reattachIncoming_nodes (incoming : List IncomingEdge) (nodes : List Node) :
    (reattachIncoming incoming nodes).flatMap Write.nodes = [] := by
  unfold reattachIncoming
  dsimp only
  split <;> split <;> simp [Write.nodes]

theorem reattachIncoming_edges (incoming : List IncomingEdge) (nodes : List Node) :
    (reattachIncoming incoming nodes).flatMap Write.edges =
      incoming.filterMap (reattached nodes) := by
  unfold reattachIncoming
  dsimp only
  split <;> rename_i h <;> split <;> simp [Write.edges, h]

theorem reattachIncoming_refs (incoming : List IncomingEdge) (nodes : List Node) :
    (reattachIncoming incoming nodes).flatMap Write.refs =
      incoming.filterMap (reopened nodes) := by
  unfold reattachIncoming
  dsimp only
  split <;> split <;> rename_i h <;> simp [Write.refs, h]

theorem reattachIncoming_files (incoming : List IncomingEdge) (nodes : List Node) :
    (reattachIncoming incoming nodes).flatMap Write.files = [] := by
  unfold reattachIncoming
  dsimp only
  split <;> split <;> simp [Write.files]

theorem storeWrites_nodes (incoming : List IncomingEdge) :
    (env.storeWrites x incoming).flatMap Write.nodes = (env.bundle x).nodes := by
  unfold storeWrites
  dsimp only
  split
  · simp [Write.nodes, reattachIncoming_nodes]
  · simp only [List.flatMap_append]
    rw [payload_batches fun _ => rfl, payload_none fun _ => rfl, payload_none fun _ => rfl,
      reattachIncoming_nodes, slices_flatten]
    simp [Write.nodes]

theorem storeWrites_edges (incoming : List IncomingEdge) :
    (env.storeWrites x incoming).flatMap Write.edges =
      (env.bundle x).edges ++ incoming.filterMap (reattached (env.bundle x).nodes) := by
  unfold storeWrites
  dsimp only
  split
  · simp [Write.edges, reattachIncoming_edges]
  · simp only [List.flatMap_append]
    rw [payload_none fun _ => rfl, payload_batches fun _ => rfl, payload_none fun _ => rfl,
      reattachIncoming_edges, slices_flatten]
    simp [Write.edges]

theorem storeWrites_refs (incoming : List IncomingEdge) :
    ((env.storeWrites x incoming).flatMap Write.refs).Perm
      ((env.bundle x).refs ++ incoming.filterMap (reopened (env.bundle x).nodes)) := by
  unfold storeWrites
  dsimp only
  split
  · simp [Write.refs, reattachIncoming_refs]
  · simp only [List.flatMap_append]
    rw [payload_none fun _ => rfl, payload_none fun _ => rfl, payload_batches fun _ => rfl,
      reattachIncoming_refs, slices_flatten]
    simpa [Write.refs] using List.perm_append_comm

theorem storeWrites_files (incoming : List IncomingEdge) :
    (env.storeWrites x incoming).flatMap Write.files = [env.fileRecord x] := by
  unfold storeWrites
  dsimp only
  split
  · rw [List.flatMap_cons, reattachIncoming_files]
    rfl
  · simp only [List.flatMap_append]
    rw [payload_none fun _ => rfl, payload_none fun _ => rfl, payload_none fun _ => rfl,
      reattachIncoming_files]
    simp [Write.files, bundle, finalizeStoreBundle]

/-! ### The transactions before the store -/

variable (env)

/-- The file is tracked, and `admitFile` does not leave its facts alone. -/
def Replaces (t : Tables) (x : Extracted) : Prop :=
  ∃ existing, t.getFileByPath x.filePath = some existing ∧ env.upToDate existing x = false

/-- `admitFile` stores the result. -/
def Admits (t : Tables) (x : Extracted) : Prop :=
  t.getFileByPath x.filePath = none ∨ env.Replaces t x

/-- A tracked file is deleted first. -/
def removal (t : Tables) (x : Extracted) : List Write :=
  if t.getFileByPath x.filePath = none then [] else [.deleteFile x.filePath]

/-- The tables the result is stored into. -/
def base (t : Tables) (x : Extracted) : Tables :=
  if t.getFileByPath x.filePath = none then t else t.deleteFile x.filePath

/-- The edges that are carried over: none of a file without a record. -/
def carriedEdges (t : Tables) (x : Extracted) : List IncomingEdge :=
  if t.getFileByPath x.filePath = none then [] else env.savedEdges t x

variable {env} {t : Tables}

theorem writes_of_admits (h : env.Admits t x) :
    env.writes t x = removal t x ++ env.storeWrites x (env.carriedEdges t x) := by
  rcases h with h | ⟨existing, hfile, hstale⟩
  · simp [writes, removal, carriedEdges, h]
  · simp [writes, removal, carriedEdges, hfile, hstale]

/-- Behind the removal a run goes on from the base. -/
theorem run_removal (t : Tables) (x : Extracted) (ws : List Write) :
    Admission.step.run t (removal t x ++ ws) = Admission.step.run (base t x) ws := by
  unfold removal base
  split
  · rfl
  · simp [Admission.step]

theorem base_valid (ht : t.Valid) (x : Extracted) : (base t x).Valid := by
  unfold base
  split
  · exact ht
  · exact ht.deleteFile _

/-- The sources of the edges that are carried over survive the removal. -/
theorem carried_stored {i : IncomingEdge} (hi : i ∈ env.carriedEdges t x) :
    (base t x).Stored i.edge.source := by
  unfold carriedEdges at hi
  unfold base
  split at hi
  · simp at hi
  · rename_i htracked
    obtain ⟨_, _, _, source, hsource, hid, hpath, _⟩ :=
      mem_incomingAcrossFiles.mp (mem_savedEdges.mp hi)
    rw [if_neg htracked]
    exact ⟨source, Tables.mem_deleteNodes_nodes.mpr ⟨hsource, decide_eq_false hpath⟩, hid⟩

/-- Whatever part of the store an admission comes to, it shows in the tables. -/
theorem run_initial (ht : t.Valid) (x : Extracted) {ws rest : List Write}
    (h : ws ++ rest = env.storeWrites x (env.carriedEdges t x)) :
    ∃ t', Admission.step.run t (removal t x ++ ws) = some t' ∧ t'.Valid ∧
      Written (base t x) (ws.flatMap Write.nodes) (ws.flatMap Write.edges)
        (ws.flatMap Write.refs) (ws.flatMap Write.files) t' := by
  have horderly : Orderly (base t x) ws :=
    (h ▸ storeWrites_orderly fun i hi => @carried_stored env x _ _ hi).of_append
  rw [run_removal]
  exact horderly.run (base_valid ht x)

/-- Everything an admission stores shows in the tables. -/
theorem admitFile_of_admits (ht : t.Valid) (h : env.Admits t x) :
    ∃ t' rs, env.admitFile t x = some t' ∧ t'.Valid ∧
      Written (base t x) (env.bundle x).nodes
        ((env.bundle x).edges ++ (env.carriedEdges t x).filterMap (reattached (env.bundle x).nodes))
        rs [env.fileRecord x] t' ∧
      rs.Perm ((env.bundle x).refs ++
        (env.carriedEdges t x).filterMap (reopened (env.bundle x).nodes)) := by
  obtain ⟨t', hrun, hvalid, hwritten⟩ := @run_initial env _ ht x _ _ (List.append_nil _)
  rw [storeWrites_nodes, storeWrites_edges, storeWrites_files] at hwritten
  refine ⟨t', _, ?_, hvalid, hwritten, storeWrites_refs _⟩
  rw [admitFile, writes_of_admits h]
  exact hrun

end Environment

end AfyxGraph.Admission
