import AfyxGraph.Admission.Reattach

/-! # An admission that is cut off

Between two transactions of an admission the process may end. A later sync looks
at the file record and admits the file again. This module says what is left of
the edges that other files had into the file, for every point of the cut and
every later result.
-/

namespace AfyxGraph.Admission

open AfyxGraph.Core Extraction Store

/-! ## What a later sync decides -/

/-- What reconciliation sees of a current file: size and time, and its content. -/
structure SourceSeen where
  stat : Option (Nat × Nat)
  content : Option String

inductive Verdict where
  | unchanged
  | added
  | modified
  | failed
  deriving DecidableEq

/-- The turn of `reconcileSources` for one current file. -/
def reconcileFile (hash : String → String) (tracked : Option FileRecord) (seen : SourceSeen) :
    Verdict :=
  match tracked with
  | none => if seen.content.isSome then .added else .failed
  | some record =>
      match seen.stat with
      | none => .failed
      | some (size, mtimeMs) =>
          if size = record.size ∧ mtimeMs = record.modifiedAt then .unchanged
          else
            match seen.content with
            | none => .failed
            | some content => if record.contentHash ≠ hash content then .modified else .unchanged

/-- A file that reconciliation lists is stored by its admission. -/
theorem admits_of_reconcile {env : Environment} {t : Tables} {x : Extracted} {seen : SourceSeen}
    (hcontent : seen.content = some x.content)
    (h : reconcileFile env.hashContent (t.getFileByPath x.filePath) seen = .added ∨
      reconcileFile env.hashContent (t.getFileByPath x.filePath) seen = .modified) :
    env.Admits t x := by
  cases hfile : t.getFileByPath x.filePath with
  | none => exact Or.inl hfile
  | some record =>
      right
      refine ⟨record, hfile, ?_⟩
      rw [hfile] at h
      simp only [reconcileFile, hcontent] at h
      cases hstat : seen.stat with
      | none => simp [hstat] at h
      | some stat =>
          obtain ⟨size, mtimeMs⟩ := stat
          simp only [hstat] at h
          split at h
          · simp at h
          · split at h
            · rename_i hhash
              simp [Environment.upToDate, hhash]
            · simp at h

/-! ## The property -/

/-- The same reference as far as the claim on it goes. -/
def SameRef (ref other : UnresolvedReference) : Prop :=
  other.fromNodeId = ref.fromNodeId ∧ other.referenceName = ref.referenceName ∧
    other.referenceKind = ref.referenceKind

/-- A row has the source, the name and the kind of the reference. -/
def Waiting (t : Tables) (ref : UnresolvedReference) : Prop :=
  ∃ row ∈ t.refs, row.fromNodeId = ref.fromNodeId ∧ row.referenceName = ref.referenceName ∧
    row.referenceKind = ref.referenceKind

/-- An edge from the same spot leads to a row of the file. -/
def Connected (t : Tables) (path : String) (incoming : IncomingEdge) : Prop :=
  ∃ e ∈ t.edges, SameSpot incoming e ∧ ∃ n ∈ fileNodes t path, n.id = e.target

namespace Environment

variable (env : Environment)

/-- The nodes of a result name its file, and no other file has their ids: an id
is made from the path. -/
def OwnIds (t : Tables) (x : Extracted) : Prop :=
  ∀ n ∈ (env.bundle x).nodes, n.filePath = x.filePath ∧
    ∀ m ∈ t.nodes, m.id = n.id → m.filePath = x.filePath

end Environment

/-- An admission that is cut off between two of its transactions, and what the
same file is later admitted with. -/
structure Interruption (env : Environment) (g : Graph) where
  first : Extracted
  later : Extracted
  cut : Nat
  samePath : later.filePath = first.filePath
  firstOwn : env.OwnIds g.toTables first
  laterOwn : env.OwnIds g.toTables later
  started : 0 < cut
  unfinished : cut < (env.writes g.toTables first).length

namespace Interruption

variable {env : Environment} {g : Graph} (i : Interruption env g)

/-- The transactions committed before the cut. -/
def done : List Write := (env.writes g.toTables i.first).take i.cut

/-- Once the file has been admitted again, its rows are those of the later result
and every stamped edge into it is an edge again or a waiting reference. -/
def Survives : Prop :=
  ∃ t, step.run g.toTables i.done = some t ∧ (env.Admits t i.later →
    ∃ t', env.admitFile t i.later = some t' ∧
      (∀ n, n ∈ fileNodes t' i.first.filePath ↔ env.IsNew i.later n) ∧
      ∀ incoming ∈ incomingAcrossFiles g.toTables i.first.filePath, ∀ ref,
        recoverUnresolvedReference incoming = some ref →
          Connected t' i.first.filePath incoming ∨ Waiting t' ref)

/-! ## The condition -/

/-- The file record was written before the cut. -/
def RecordWritten : Prop := i.done.flatMap Write.files ≠ []

/-- The later admission does not take the file for up to date. -/
def Readmitted : Prop :=
  i.RecordWritten → env.upToDate (env.fileRecord i.first) i.later = false

/-- The rows the file has at the cut: those it had without a record, and those
written before the cut. -/
def rowsAtCut : List Node :=
  (if g.toTables.getFileByPath i.first.filePath = none then
    fileNodes g.toTables i.first.filePath else []) ++ i.done.flatMap Write.nodes

/-- `j` is an edge of another file, written before the cut into a new row. -/
def Moved (j : IncomingEdge) : Prop :=
  FirstWith (fun e => identity e = identity j.edge) (i.done.flatMap Write.edges) j.edge ∧
    j.edge.kind ≠ .contains ∧
    (∃ n, env.IsNew i.first n ∧ n.id = j.edge.target ∧ n.kind = j.targetKind ∧
      n.name = j.targetName) ∧
    ∃ s ∈ g.nodes, s.id = j.edge.source ∧ s.filePath ≠ i.first.filePath ∧
      s.filePath = j.sourceFilePath ∧ s.language = j.sourceLanguage

/-- `rows`: without a record the later result must replace every row that is left.
`refs`: the reference of a stamped edge was waiting all along or was written before
the cut; or the record and the moved edges were, and one of these goes on from the
same spot or is reopened as the same reference. -/
structure Recovers : Prop where
  rows : ¬ i.RecordWritten → ∀ m ∈ i.rowsAtCut, ∃ n ∈ (env.bundle i.later).nodes, n.id = m.id
  refs : ∀ incoming ∈ incomingAcrossFiles g.toTables i.first.filePath, ∀ ref,
    recoverUnresolvedReference incoming = some ref →
      Waiting g.toTables ref ∨ (∃ r ∈ i.done.flatMap Write.refs, SameRef ref r) ∨
      (i.RecordWritten ∧ ∃ j, i.Moved j ∧
        ((SameSpot incoming j.edge ∧ ∃ n, env.GoesTo i.later j n) ∨
          ∃ r, reopened (env.bundle i.later).nodes j = some r ∧ SameRef ref r))

/-! ## Nodes of other files -/

/-- `id` is stored, in another file. -/
def Foreign (t : Tables) (path id : String) : Prop := ∃ s ∈ t.nodes, s.id = id ∧ s.filePath ≠ path

theorem foreign_of_incoming {t : Tables} {path : String} {incoming : IncomingEdge}
    (h : incoming ∈ incomingAcrossFiles t path) : Foreign t path incoming.edge.source := by
  obtain ⟨_, _, _, s, hs, hid, hpath, _⟩ := mem_incomingAcrossFiles.mp h
  exact ⟨s, hs, hid, hpath⟩

theorem foreign_of_recovered {t : Tables} {path : String} {incoming : IncomingEdge}
    (hi : incoming ∈ incomingAcrossFiles t path) {ref : UnresolvedReference}
    (h : recoverUnresolvedReference incoming = some ref) : Foreign t path ref.fromNodeId := by
  rw [Environment.recovered_source h]
  exact foreign_of_incoming hi

theorem Foreign.not_own {t : Tables} {x : Extracted} {id : String}
    (h : Foreign t x.filePath id) (hown : env.OwnIds t x) :
    ∀ n ∈ (env.bundle x).nodes, n.id ≠ id := by
  intro n hn hid
  obtain ⟨s, hs, hsid, hpath⟩ := h
  exact hpath ((hown n hn).2 s hs (hsid.trans hid.symm))

theorem Foreign.base {t : Tables} {x : Extracted} {id : String} (h : Foreign t x.filePath id) :
    Foreign (Environment.base t x) x.filePath id := by
  obtain ⟨s, hs, hid, hpath⟩ := h
  refine ⟨s, ?_, hid, hpath⟩
  unfold Environment.base
  split
  · exact hs
  · exact Tables.mem_deleteNodes_nodes.mpr ⟨hs, decide_eq_false hpath⟩

theorem Foreign.written {base t : Tables} {path id : String} {ns : List Node} {es : List Edge}
    {rs : List UnresolvedReference} {fs : List FileRecord} (h : Foreign base path id)
    (hs : ∀ n ∈ ns, isStorable n) (hns : ∀ n ∈ ns, n.id ≠ id)
    (hw : Written base ns es rs fs t) : Foreign t path id := by
  obtain ⟨s, hmem, rfl, hpath⟩ := h
  refine ⟨s, ?_, rfl, hpath⟩
  rw [hw.nodes]
  exact (Tables.mem_insertNodes_nodes hs).mpr (Or.inl ⟨hmem, hns⟩)

/-- What waits for a node of another file waits across the removal. -/
theorem waiting_base {t : Tables} (ht : t.Valid) {x : Extracted} {ref : UnresolvedReference}
    (h : Foreign t x.filePath ref.fromNodeId) :
    Waiting (Environment.base t x) ref ↔ Waiting t ref := by
  obtain ⟨s, hs, hid, hpath⟩ := h
  unfold Environment.base
  split
  · rfl
  · constructor
    · rintro ⟨row, hrow, hsame⟩
      exact ⟨row, (Tables.mem_deleteNodes_refs.mp hrow).1, hsame⟩
    · rintro ⟨row, hrow, hfrom, hsame⟩
      refine ⟨row, Tables.mem_deleteNodes_refs.mpr ⟨hrow, fun n hn hgone hnid => ?_⟩, hfrom, hsame⟩
      obtain rfl := ht.node_unique hn hs (hnid.trans (hfrom.trans hid.symm))
      exact hpath (of_decide_eq_true hgone)

/-- What waits for a node that is not written again still waits, and so does what is written. -/
theorem waiting_written {base t : Tables} (hbase : base.Valid) {ns : List Node} {es : List Edge}
    {rs : List UnresolvedReference} {fs : List FileRecord} {ref : UnresolvedReference}
    (hs : ∀ n ∈ ns, isStorable n) (hns : ∀ n ∈ ns, n.id ≠ ref.fromNodeId)
    (hw : Written base ns es rs fs t) :
    Waiting t ref ↔ Waiting base ref ∨ ∃ r ∈ rs, SameRef ref r := by
  rw [Waiting, hw.refs]
  constructor
  · rintro ⟨row, hrow, hsame⟩
    rcases List.mem_append.mp hrow with hrow | hrow
    · exact Or.inl ⟨row, ((Tables.mem_insertNodes_refs hbase hs).mp hrow).1, hsame⟩
    · obtain ⟨r, hr, rfl⟩ := List.mem_map.mp hrow
      exact Or.inr ⟨r, hr, hsame⟩
  · rintro (⟨row, hrow, hsame⟩ | ⟨r, hr, hsame⟩)
    · refine ⟨row, List.mem_append_left _ ((Tables.mem_insertNodes_refs hbase hs).mpr
        ⟨hrow, fun n hn hid => hns n hn (hid.trans hsame.1)⟩), hsame⟩
    · exact ⟨toRow r, List.mem_append_right _ (List.mem_map.mpr ⟨r, hr, rfl⟩), hsame⟩

/-! ## The state at the cut -/

/-- The cut leaves the removal and a proper part of the store behind it. -/
theorem done_eq : ∃ ws rest, i.done = Environment.removal g.toTables i.first ++ ws ∧
    ws ++ rest = env.storeWrites i.first (env.carriedEdges g.toTables i.first) ∧ rest ≠ [] := by
  have hadmits : env.Admits g.toTables i.first := by
    by_contra hnot
    have hnone : env.writes g.toTables i.first = [] := by
      cases hfile : g.toTables.getFileByPath i.first.filePath with
      | none => exact absurd (Or.inl hfile) hnot
      | some existing =>
          have hup : env.upToDate existing i.first = true := by
            by_contra hstale
            exact hnot (Or.inr ⟨existing, hfile, Bool.eq_false_iff.mpr hstale⟩)
          simp [Environment.writes, hfile, hup]
    have := i.unfinished
    simp [hnone] at this
  have hwrites := Environment.writes_of_admits hadmits
  have hlen : (Environment.removal g.toTables i.first).length ≤ 1 := by
    unfold Environment.removal
    split <;> simp
  have hstarted := i.started
  have hunfinished := i.unfinished
  rw [hwrites, List.length_append] at hunfinished
  refine ⟨_, _, ?_, List.take_append_drop
    (i.cut - (Environment.removal g.toTables i.first).length) _, ?_⟩
  · rw [done, hwrites, List.take_append, List.take_of_length_le (by omega)]
  · rw [Ne, List.drop_eq_nil_iff]
    omega

theorem removal_payload (t : Tables) (x : Extracted) :
    (Environment.removal t x).flatMap Write.nodes = [] ∧
      (Environment.removal t x).flatMap Write.edges = [] ∧
      (Environment.removal t x).flatMap Write.refs = [] ∧
      (Environment.removal t x).flatMap Write.files = [] := by
  unfold Environment.removal
  split <;> exact ⟨rfl, rfl, rfl, rfl⟩

/-- The tables at the cut show what was done. -/
theorem cut_written : ∃ t, step.run g.toTables i.done = some t ∧ t.Valid ∧
    Written (Environment.base g.toTables i.first) (i.done.flatMap Write.nodes)
      (i.done.flatMap Write.edges) (i.done.flatMap Write.refs) (i.done.flatMap Write.files) t := by
  obtain ⟨ws, rest, hdone, hsplit, _⟩ := i.done_eq
  obtain ⟨hn, he, hr, hf⟩ := removal_payload g.toTables i.first
  obtain ⟨t, hrun, hvalid, hwritten⟩ := @Environment.run_initial env _ g.valid i.first _ _ hsplit
  refine ⟨t, by rw [hdone]; exact hrun, hvalid, ?_⟩
  rw [hdone]
  simpa only [List.flatMap_append, hn, he, hr, hf, List.nil_append] using hwritten

/-- What was written before the cut is part of the result. -/
theorem done_nodes_subset : ∀ n ∈ i.done.flatMap Write.nodes, n ∈ (env.bundle i.first).nodes := by
  obtain ⟨ws, rest, hdone, hsplit, _⟩ := i.done_eq
  obtain ⟨hn, _⟩ := removal_payload g.toTables i.first
  intro n hmem
  rw [hdone, List.flatMap_append, hn, List.nil_append] at hmem
  rw [← Environment.storeWrites_nodes (env.carriedEdges g.toTables i.first), ← hsplit,
    List.flatMap_append]
  exact List.mem_append_left _ hmem

theorem done_nodes_storable : ∀ n ∈ i.done.flatMap Write.nodes, isStorable n := fun n hn =>
  Environment.bundle_nodes_storable n (i.done_nodes_subset n hn)

theorem done_files : i.done.flatMap Write.files = [] ∨
    i.done.flatMap Write.files = [env.fileRecord i.first] := by
  obtain ⟨ws, rest, hdone, hsplit, _⟩ := i.done_eq
  obtain ⟨_, _, _, hf⟩ := removal_payload g.toTables i.first
  have hall := @Environment.storeWrites_files env i.first
    (env.carriedEdges g.toTables i.first)
  rw [← hsplit, List.flatMap_append] at hall
  rw [hdone, List.flatMap_append, hf, List.nil_append]
  cases hws : ws.flatMap Write.files with
  | nil => exact Or.inl rfl
  | cons file files =>
      rw [hws] at hall
      simp only [List.cons_append, List.cons.injEq, List.append_eq_nil_iff] at hall
      rw [hall.1, hall.2.1]
      exact Or.inr rfl

/-- The record is written before the cut only with the whole file, of a file that
was tracked. -/
theorem done_of_recordWritten (h : i.RecordWritten) :
    g.toTables.getFileByPath i.first.filePath ≠ none ∧
      i.done.flatMap Write.nodes = (env.bundle i.first).nodes := by
  obtain ⟨ws, rest, hdone, hsplit, hrest⟩ := i.done_eq
  obtain ⟨hn, _, _, hf⟩ := removal_payload g.toTables i.first
  rw [RecordWritten, hdone, List.flatMap_append, hf, List.nil_append] at h
  rw [hdone, List.flatMap_append, hn, List.nil_append]
  unfold Environment.storeWrites at hsplit
  dsimp only at hsplit
  split at hsplit
  · cases ws with
    | nil => exact (h rfl).elim
    | cons w ws =>
        simp only [List.cons_append, List.cons.injEq] at hsplit
        obtain ⟨rfl, hsplit⟩ := hsplit
        constructor
        · intro huntracked
          simp only [Environment.carriedEdges, huntracked, if_true] at hsplit
          have hnil : ws ++ rest = [] := hsplit.trans rfl
          exact hrest (List.append_eq_nil_iff.mp hnil).2
        · have hnone := Environment.reattachIncoming_nodes
            (env.carriedEdges g.toTables i.first) (env.bundle i.first).nodes
          rw [← hsplit, List.flatMap_append, List.append_eq_nil_iff] at hnone
          rw [List.flatMap_cons, hnone.1, List.append_nil]
          rfl
  · -- in the chunked case the record comes last, so the cut is before it
    rcases List.eq_nil_or_concat rest with rfl | ⟨rest', last, rfl⟩
    · exact (hrest rfl).elim
    · rw [List.concat_eq_append, ← List.append_assoc] at hsplit
      obtain ⟨hinit, _⟩ := List.append_inj' hsplit rfl
      have hnone : (ws ++ rest').flatMap Write.files = [] := by
        rw [hinit]
        simp only [List.flatMap_append]
        rw [payload_none fun _ => rfl, payload_none fun _ => rfl, payload_none fun _ => rfl,
          Environment.reattachIncoming_files]
        rfl
      rw [List.flatMap_append, List.append_eq_nil_iff] at hnone
      exact (h hnone.1).elim

theorem base_untracked (t : Tables) (x : Extracted) :
    (Environment.base t x).getFileByPath x.filePath = none := by
  unfold Environment.base
  split
  · assumption
  · simp [Tables.getFileByPath, Tables.deleteFile]

theorem getFileByPath_upsertFile {t : Tables} {file : FileRecord}
    (h : t.getFileByPath file.path = none) :
    (t.upsertFile file).getFileByPath file.path = some file := by
  have hnone : ¬ ∃ old ∈ t.files, old.path = file.path := by
    rintro ⟨old, hold, hpath⟩
    have hne := List.find?_eq_none.mp h old hold
    simp [hpath] at hne
  have hfind : t.files.find? (fun old => old.path = file.path) = none := h
  simp [Tables.getFileByPath, Tables.upsertFile, hnone, hfind]

section AtCut

variable {i} {t : Tables}
variable (hw : Written (Environment.base g.toTables i.first) (i.done.flatMap Write.nodes)
  (i.done.flatMap Write.edges) (i.done.flatMap Write.refs) (i.done.flatMap Write.files) t)

include hw

theorem untracked_at_cut (h : ¬ i.RecordWritten) :
    t.getFileByPath i.first.filePath = none := by
  have hfiles := hw.files
  rw [not_not.mp h] at hfiles
  rw [Tables.getFileByPath, hfiles]
  exact base_untracked g.toTables i.first

theorem tracked_at_cut (h : i.RecordWritten) :
    t.getFileByPath i.first.filePath = some (env.fileRecord i.first) := by
  have hfiles := hw.files
  rcases i.done_files with hnone | hone
  · exact (h hnone).elim
  · rw [hone] at hfiles
    rw [Tables.getFileByPath, hfiles]
    exact @getFileByPath_upsertFile _ (env.fileRecord i.first)
      (base_untracked g.toTables i.first)

theorem admits_at_cut : env.Admits t i.later ↔ i.Readmitted := by
  rw [Environment.Admits, Environment.Replaces, i.samePath]
  by_cases h : i.RecordWritten
  · rw [tracked_at_cut hw h]
    constructor
    · rintro (hnone | ⟨existing, hsome, hstale⟩) _
      · cases hnone
      · cases hsome
        exact hstale
    · intro hr
      exact Or.inr ⟨_, rfl, hr h⟩
  · constructor
    · intro _ hr
      exact (h hr).elim
    · intro _
      exact Or.inl (untracked_at_cut hw h)

/-- A node of another file is still there at the cut. -/
theorem foreign_at_cut {id : String} (h : Foreign g.toTables i.first.filePath id) :
    Foreign t i.first.filePath id :=
  h.base.written i.done_nodes_storable
    (fun n hn => h.not_own i.firstOwn n (i.done_nodes_subset n hn)) hw

theorem ownIds_at_cut : env.OwnIds t i.later := by
  intro n hn
  obtain ⟨hpath, hother⟩ := i.laterOwn n hn
  refine ⟨hpath, fun m hm hid => ?_⟩
  rw [hw.nodes, Tables.mem_insertNodes_nodes i.done_nodes_storable] at hm
  rcases hm with ⟨hm, _⟩ | hlast
  · unfold Environment.base at hm
    split at hm
    · exact hother m hm hid
    · exact hother m (Tables.mem_deleteNodes_nodes.mp hm).1 hid
  · rw [i.samePath]
    exact (i.firstOwn m (i.done_nodes_subset m hlast.mem)).1

theorem waiting_at_cut {ref : UnresolvedReference}
    (h : Foreign g.toTables i.first.filePath ref.fromNodeId) :
    Waiting t ref ↔ Waiting g.toTables ref ∨ ∃ r ∈ i.done.flatMap Write.refs, SameRef ref r := by
  rw [waiting_written (Environment.base_valid g.valid i.first) i.done_nodes_storable
    (fun n hn => h.not_own i.firstOwn n (i.done_nodes_subset n hn)) hw, waiting_base g.valid h]

/-- The ids of the file's rows at the cut. -/
theorem row_at_cut_iff {id : String} : (∃ n ∈ fileNodes t i.first.filePath, n.id = id) ↔
    ∃ m ∈ i.rowsAtCut, m.id = id := by
  have hmem : ∀ n, n ∈ fileNodes t i.first.filePath ↔ n.filePath = i.first.filePath ∧
      ((n ∈ (Environment.base g.toTables i.first).nodes ∧
        ∀ m ∈ i.done.flatMap Write.nodes, m.id ≠ n.id) ∨
        LastWith (fun m => m.id = n.id) (i.done.flatMap Write.nodes) n) := by
    intro n
    rw [fileNodes, List.mem_filter, hw.nodes, Tables.mem_insertNodes_nodes i.done_nodes_storable,
      decide_eq_true_eq]
    exact And.comm
  have hleft : ∀ n, n.filePath = i.first.filePath →
      (n ∈ (Environment.base g.toTables i.first).nodes ↔
        n ∈ if g.toTables.getFileByPath i.first.filePath = none then
          fileNodes g.toTables i.first.filePath else []) := by
    intro n hpath
    unfold Environment.base
    split
    · simp [fileNodes, hpath]
    · constructor
      · intro hn
        exact absurd hpath (of_decide_eq_false (Tables.mem_deleteNodes_nodes.mp hn).2)
      · intro hn
        simp at hn
  constructor
  · rintro ⟨n, hn, rfl⟩
    obtain ⟨hpath, ⟨hold, _⟩ | hlast⟩ := (hmem n).mp hn
    · exact ⟨n, List.mem_append_left _ ((hleft n hpath).mp hold), rfl⟩
    · exact ⟨n, List.mem_append_right _ hlast.mem, rfl⟩
  · rintro ⟨m, hm, rfl⟩
    by_cases hnew : ∃ n ∈ i.done.flatMap Write.nodes, n.id = m.id
    · obtain ⟨n, hn, hid⟩ := hnew
      obtain ⟨last, hlast⟩ := exists_lastWith (p := fun k : Node => k.id = m.id) hn hid
      have hlastid : last.id = m.id := hlast.holds
      refine ⟨last, (hmem last).mpr ⟨?_, Or.inr ?_⟩, hlastid⟩
      · exact (i.firstOwn last (i.done_nodes_subset last hlast.mem)).1
      · simpa only [hlastid] using hlast
    · rcases List.mem_append.mp hm with hm | hm
      · have hpath : m.filePath = i.first.filePath := by
          split at hm
          · exact of_decide_eq_true (List.mem_filter.mp hm).2
          · simp at hm
        exact ⟨m, (hmem m).mpr ⟨hpath, Or.inl ⟨(hleft m hpath).mpr hm,
          fun n hn hid => hnew ⟨n, hn, hid⟩⟩⟩, rfl⟩
      · exact (hnew ⟨m, hm, rfl⟩).elim

/-- With the record, the incoming edges at the cut are the moved ones. -/
theorem incoming_at_cut (h : i.RecordWritten) {j : IncomingEdge} :
    j ∈ incomingAcrossFiles t i.first.filePath ↔ i.Moved j := by
  obtain ⟨htracked, hnodes⟩ := i.done_of_recordWritten h
  have hbase : Environment.base g.toTables i.first = g.toTables.deleteFile i.first.filePath :=
    if_neg htracked
  rw [hbase, hnodes] at hw
  have hrow : ∀ n, (n ∈ t.nodes ∧ n.filePath = i.first.filePath) ↔ env.IsNew i.first n := by
    intro n
    rw [← Environment.mem_fileNodes_of_written hw, fileNodes, List.mem_filter, decide_eq_true_eq]
  have hsource : ∀ s, s.filePath ≠ i.first.filePath → (s ∈ t.nodes ↔ s ∈ g.nodes) := by
    intro s hpath
    rw [hw.nodes, Tables.mem_insertNodes_nodes Environment.bundle_nodes_storable]
    constructor
    · rintro (⟨hs, _⟩ | hlast)
      · exact (Tables.mem_deleteNodes_nodes.mp hs).1
      · exact absurd (i.firstOwn s hlast.mem).1 hpath
    · intro hs
      refine Or.inl ⟨Tables.mem_deleteNodes_nodes.mpr ⟨hs, decide_eq_false hpath⟩, ?_⟩
      exact Foreign.not_own ⟨s, hs, rfl, hpath⟩ i.firstOwn
  rw [mem_incomingAcrossFiles, Moved]
  constructor
  · rintro ⟨hedge, hkind, ⟨n, hn, hid, hpath, hnk, hnn⟩, s, hs, hsid, hspath, hsp, hsl⟩
    have hnew := (hrow n).mp ⟨hn, hpath⟩
    exact ⟨(Environment.mem_edges_of_written g.valid hw ⟨n, hnew.2.mem, hid⟩).mp hedge, hkind,
      ⟨n, hnew, hid, hnk, hnn⟩, s, (hsource s hspath).mp hs, hsid, hspath, hsp, hsl⟩
  · rintro ⟨hfirst, hkind, ⟨n, hnew, hid, hnk, hnn⟩, s, hs, hsid, hspath, hsp, hsl⟩
    obtain ⟨hn, hpath⟩ := (hrow n).mpr hnew
    exact ⟨(Environment.mem_edges_of_written g.valid hw ⟨n, hnew.2.mem, hid⟩).mpr hfirst, hkind,
      ⟨n, hn, hid, hpath, hnk, hnn⟩, s, (hsource s hspath).mpr hs, hsid, hspath, hsp, hsl⟩

end AtCut

/-! ## The later admission -/

section Later

variable {i} {t : Tables} (ht : t.Valid)
variable (hw : Written (Environment.base g.toTables i.first) (i.done.flatMap Write.nodes)
  (i.done.flatMap Write.edges) (i.done.flatMap Write.refs) (i.done.flatMap Write.files) t)

include ht hw

/-- Without a record nothing is carried over: the rows are right when none of the
old ones is left, and then only the references that wait at the cut remain. -/
theorem later_without_record (h : ¬ i.RecordWritten) :
    ∃ t', env.admitFile t i.later = some t' ∧
      ((∀ n, n ∈ fileNodes t' i.first.filePath ↔ env.IsNew i.later n) ↔
        ∀ m ∈ i.rowsAtCut, ∃ n ∈ (env.bundle i.later).nodes, n.id = m.id) ∧
      ((∀ m ∈ i.rowsAtCut, ∃ n ∈ (env.bundle i.later).nodes, n.id = m.id) →
        ∀ incoming ∈ incomingAcrossFiles g.toTables i.first.filePath, ∀ ref,
          recoverUnresolvedReference incoming = some ref →
            (Connected t' i.first.filePath incoming ∨ Waiting t' ref ↔ Waiting t ref)) := by
  have huntracked : t.getFileByPath i.later.filePath = none := by
    rw [i.samePath]
    exact untracked_at_cut hw h
  obtain ⟨t', rs, hdone, hvalid, hw', hrs⟩ :=
    @Environment.admitFile_of_admits env _ _ ht (Or.inl huntracked)
  simp only [Environment.base, Environment.carriedEdges, huntracked, if_true, List.filterMap_nil,
    List.append_nil] at hw' hrs
  have hstorable := @Environment.bundle_nodes_storable env i.later
  have hrow : ∀ n, n ∈ fileNodes t' i.first.filePath ↔ n.filePath = i.first.filePath ∧
      ((n ∈ t.nodes ∧ ∀ m ∈ (env.bundle i.later).nodes, m.id ≠ n.id) ∨
        LastWith (fun m => m.id = n.id) (env.bundle i.later).nodes n) := by
    intro n
    rw [fileNodes, List.mem_filter, hw'.nodes, Tables.mem_insertNodes_nodes hstorable,
      decide_eq_true_eq]
    exact And.comm
  refine ⟨t', hdone, ⟨fun hrows m hm => ?_, fun hrows n => ?_⟩, fun hrows incoming hi ref hrec => ?_⟩
  · obtain ⟨n, hn, hid⟩ := (row_at_cut_iff hw).mpr ⟨m, hm, rfl⟩
    by_contra hnone
    have hold : n ∈ fileNodes t' i.first.filePath :=
      (hrow n).mpr ⟨of_decide_eq_true (List.mem_filter.mp hn).2,
        Or.inl ⟨(List.mem_filter.mp hn).1, fun k hk hkid => hnone ⟨k, hk, hkid.trans hid⟩⟩⟩
    exact hnone ⟨n, ((hrows n).mp hold).2.mem, hid⟩
  · rw [hrow, Environment.IsNew, i.samePath]
    refine and_congr_right fun hpath => ⟨?_, Or.inr⟩
    rintro (⟨hold, hkept⟩ | hlast)
    · have hat : n ∈ fileNodes t i.first.filePath :=
        List.mem_filter.mpr ⟨hold, decide_eq_true hpath⟩
      obtain ⟨m, hm, hid⟩ := (row_at_cut_iff hw).mp ⟨n, hat, rfl⟩
      obtain ⟨k, hk, hkid⟩ := hrows m hm
      exact (hkept k hk (hkid.trans hid)).elim
    · exact hlast
  · -- no edge of another file into the file is left
    have hforeign := foreign_of_incoming hi
    have hnot := (foreign_at_cut hw hforeign)
    rw [← i.samePath] at hnot
    have hsource := hnot.not_own (ownIds_at_cut hw)
    have hfrom : ref.fromNodeId = incoming.edge.source := Environment.recovered_source hrec
    have hwaiting : Waiting t' ref ↔ Waiting t ref := by
      rw [waiting_written ht hstorable (by rw [hfrom]; exact hsource) hw']
      constructor
      · rintro (hwait | ⟨r, hr, hsame⟩)
        · exact hwait
        · obtain ⟨n, hn, hid⟩ := Environment.bundle_refs_closed (hrs.mem_iff.mp hr)
          exact (hsource n hn (hid.trans (hsame.1.trans hfrom))).elim
      · exact Or.inl
    rw [hwaiting, or_iff_right_iff_imp]
    rintro ⟨e, he, hspot, n, hn, hid⟩
    exfalso
    rw [hw'.edges, mem_insertAllOrIgnore] at he
    rcases he with he | ⟨_, hfirst⟩
    · have hkept := ((Tables.mem_insertNodes_edges ht hstorable).mp he).2
      obtain ⟨hpath, ⟨hold, _⟩ | hlast⟩ := (hrow n).mp hn
      · have hat : n ∈ fileNodes t i.first.filePath :=
          List.mem_filter.mpr ⟨hold, decide_eq_true hpath⟩
        obtain ⟨m, hm, hmid⟩ := (row_at_cut_iff hw).mp ⟨n, hat, rfl⟩
        obtain ⟨k, hk, hkid⟩ := hrows m hm
        exact (hkept k hk).2 (hkid.trans (hmid.trans hid))
      · exact (hkept n hlast.mem).2 hid
    · obtain ⟨⟨k, hk, hkid⟩, _⟩ := Environment.bundle_edges_closed hfirst.mem
      exact hsource k hk (hkid.trans hspot.1)

/-- With the record the later admission carries the moved edges over. -/
theorem later_with_record (h : i.RecordWritten) (hr : i.Readmitted) :
    ∃ t', env.admitFile t i.later = some t' ∧
      (∀ n, n ∈ fileNodes t' i.first.filePath ↔ env.IsNew i.later n) ∧
      ∀ incoming ∈ incomingAcrossFiles g.toTables i.first.filePath, ∀ ref,
        recoverUnresolvedReference incoming = some ref →
          (Connected t' i.first.filePath incoming ↔
            ∃ j, i.Moved j ∧ SameSpot incoming j.edge ∧ ∃ n, env.GoesTo i.later j n) ∧
          (Waiting t' ref ↔ Waiting t ref ∨
            ∃ j, i.Moved j ∧ ∃ r, reopened (env.bundle i.later).nodes j = some r ∧
              SameRef ref r) := by
  have htracked : t.getFileByPath i.later.filePath ≠ none := by
    rw [i.samePath, tracked_at_cut hw h]
    simp
  obtain ⟨t', rs, hdone, hvalid, hw', hrs⟩ :=
    @Environment.admitFile_of_admits env _ _ ht ((admits_at_cut hw).mpr hr)
  have hcarried : ∀ j, j ∈ env.carriedEdges t i.later ↔ i.Moved j := by
    intro j
    rw [Environment.carriedEdges, if_neg htracked, Environment.mem_savedEdges, i.samePath]
    exact incoming_at_cut hw h
  have hbase : Environment.base t i.later = t.deleteFile i.later.filePath := if_neg htracked
  have hstorable := @Environment.bundle_nodes_storable env i.later
  have hdel := hw'
  rw [hbase] at hdel
  have hrows : ∀ n, n ∈ fileNodes t' i.first.filePath ↔ env.IsNew i.later n := by
    intro n
    rw [← i.samePath]
    exact Environment.mem_fileNodes_of_written hdel
  refine ⟨t', hdone, hrows, fun incoming hi ref hrec => ⟨?_, ?_⟩⟩
  · have hnot := foreign_at_cut hw (foreign_of_incoming hi)
    rw [← i.samePath] at hnot
    have hsource := hnot.not_own (ownIds_at_cut hw)
    constructor
    · rintro ⟨e, he, hspot, n, hn, hid⟩
      have hnew := (hrows n).mp hn
      have hfirst := (Environment.mem_edges_of_written ht hdel ⟨n, hnew.2.mem, hid⟩).mp he
      rcases List.mem_append.mp hfirst.mem with hown | hmoved
      · obtain ⟨⟨k, hk, hkid⟩, _⟩ := Environment.bundle_edges_closed hown
        exact (hsource k hk (hkid.trans hspot.1)).elim
      · obtain ⟨j, hj, hre⟩ := List.mem_filterMap.mp hmoved
        obtain ⟨last, hlast, rfl⟩ := Environment.reattached_target hre
        exact ⟨j, (hcarried j).mp hj, hspot, last, last, hlast, rfl⟩
    · rintro ⟨j, hj, hspot, n, last, hlast, _⟩
      have hre : reattached (env.bundle i.later).nodes j =
          some { j.edge with target := last.id } :=
        Environment.reattached_iff_goesTo.mpr ⟨last, hlast, rfl⟩
      have hmem : { j.edge with target := last.id } ∈ (env.bundle i.later).edges ++
          (env.carriedEdges t i.later).filterMap (reattached (env.bundle i.later).nodes) :=
        List.mem_append_right _ (List.mem_filterMap.mpr ⟨j, (hcarried j).mpr hj, hre⟩)
      obtain ⟨e, he, hsame⟩ := @exists_key_insertAllOrIgnore _ _ _ identity _ _ _
        (List.mem_append_right
          ((Environment.base t i.later).insertNodes (env.bundle i.later).nodes).edges hmem)
      simp only [identity, EdgeIdentity.mk.injEq] at hsame
      obtain ⟨hs, htarget, hkind, hline, hcolumn⟩ := hsame
      obtain ⟨row, hrow⟩ := exists_lastWith (p := fun k : Node => k.id = last.id) hlast.mem rfl
      have hrowid : row.id = last.id := hrow.holds
      refine ⟨e, by rw [hw'.edges]; exact he, ⟨hs.trans hspot.1, hkind.trans hspot.2.1,
        hline.trans hspot.2.2.1, hcolumn.trans hspot.2.2.2⟩, row, (hrows row).mpr ⟨?_, ?_⟩,
        hrowid.trans htarget.symm⟩
      · exact (i.laterOwn row hrow.mem).1
      · simpa only [hrowid] using hrow
  · have hfrom : ref.fromNodeId = incoming.edge.source := Environment.recovered_source hrec
    have hforeign : Foreign t i.later.filePath ref.fromNodeId := by
      rw [i.samePath, hfrom]
      exact foreign_at_cut hw (foreign_of_incoming hi)
    have hsource := hforeign.not_own (ownIds_at_cut hw)
    rw [waiting_written (Environment.base_valid ht i.later) hstorable hsource hw',
      waiting_base ht hforeign]
    refine or_congr_right ⟨?_, ?_⟩
    · rintro ⟨r, hr', hsame⟩
      rcases List.mem_append.mp (hrs.mem_iff.mp hr') with hown | hmoved
      · obtain ⟨k, hk, hkid⟩ := Environment.bundle_refs_closed hown
        exact (hsource k hk (hkid.trans hsame.1)).elim
      · obtain ⟨j, hj, hre⟩ := List.mem_filterMap.mp hmoved
        exact ⟨j, (hcarried j).mp hj, r, hre, hsame⟩
    · rintro ⟨j, hj, r, hre, hsame⟩
      exact ⟨r, hrs.mem_iff.mpr (List.mem_append_right _
        (List.mem_filterMap.mpr ⟨j, (hcarried j).mpr hj, hre⟩)), hsame⟩

end Later

theorem survives_of_recovers (h : i.Readmitted → i.Recovers) : i.Survives := by
  obtain ⟨t, hrun, ht, hw⟩ := i.cut_written
  refine ⟨t, hrun, fun hadmits => ?_⟩
  have hr := (admits_at_cut hw).mp hadmits
  obtain ⟨hrows, hrefs⟩ := h hr
  by_cases hrecord : i.RecordWritten
  · obtain ⟨t', hdone, hnew, hstamped⟩ := later_with_record ht hw hrecord hr
    refine ⟨t', hdone, hnew, fun incoming hi ref hrec => ?_⟩
    obtain ⟨hconnected, hwaiting⟩ := hstamped incoming hi ref hrec
    rw [hconnected, hwaiting, waiting_at_cut hw (foreign_of_recovered hi hrec)]
    rcases hrefs incoming hi ref hrec with hwait | hdone | ⟨_, j, hj, hspot | hre⟩
    · exact Or.inr (Or.inl (Or.inl hwait))
    · exact Or.inr (Or.inl (Or.inr hdone))
    · exact Or.inl ⟨j, hj, hspot⟩
    · exact Or.inr (Or.inr ⟨j, hj, hre⟩)
  · obtain ⟨t', hdone, hnew, hstamped⟩ := later_without_record ht hw hrecord
    refine ⟨t', hdone, hnew.mpr (hrows hrecord), fun incoming hi ref hrec => ?_⟩
    rw [hstamped (hrows hrecord) incoming hi ref hrec,
      waiting_at_cut hw (foreign_of_recovered hi hrec)]
    rcases hrefs incoming hi ref hrec with hwait | hdone | ⟨hwritten, _⟩
    · exact Or.inl hwait
    · exact Or.inr hdone
    · exact (hrecord hwritten).elim

theorem recovers_of_survives (h : i.Survives) (hr : i.Readmitted) : i.Recovers := by
  obtain ⟨t, hrun, ht, hw⟩ := i.cut_written
  obtain ⟨u, hrun', hlater⟩ := h
  obtain rfl : t = u := Option.some.inj (hrun.symm.trans hrun')
  obtain ⟨t', hdone, hnew, hedges⟩ := hlater ((admits_at_cut hw).mpr hr)
  by_cases hrecord : i.RecordWritten
  · obtain ⟨u, hdone', _, hstamped⟩ := later_with_record ht hw hrecord hr
    obtain rfl : t' = u := Option.some.inj (hdone.symm.trans hdone')
    refine ⟨fun hnot => (hnot hrecord).elim, fun incoming hi ref hrec => ?_⟩
    obtain ⟨hconnected, hwaiting⟩ := hstamped incoming hi ref hrec
    have hkept := hedges incoming hi ref hrec
    rw [hconnected, hwaiting, waiting_at_cut hw (foreign_of_recovered hi hrec)] at hkept
    rcases hkept with ⟨j, hj, hspot⟩ | (hwait | hdone) | ⟨j, hj, hre⟩
    · exact Or.inr (Or.inr ⟨hrecord, j, hj, Or.inl hspot⟩)
    · exact Or.inl hwait
    · exact Or.inr (Or.inl hdone)
    · exact Or.inr (Or.inr ⟨hrecord, j, hj, Or.inr hre⟩)
  · obtain ⟨u, hdone', hrows, hstamped⟩ := later_without_record ht hw hrecord
    obtain rfl : t' = u := Option.some.inj (hdone.symm.trans hdone')
    refine ⟨fun _ => hrows.mp hnew, fun incoming hi ref hrec => ?_⟩
    have hkept := hedges incoming hi ref hrec
    rw [hstamped (hrows.mp hnew) incoming hi ref hrec,
      waiting_at_cut hw (foreign_of_recovered hi hrec)] at hkept
    rcases hkept with hwait | hdone
    · exact Or.inl hwait
    · exact Or.inr (Or.inl hdone)

/-- The incoming edges outlive an interruption exactly when what is left at the
cut is enough to recover them. -/
theorem survives_iff (i : Interruption env g) : i.Survives ↔ (i.Readmitted → i.Recovers) :=
  ⟨i.recovers_of_survives, i.survives_of_recovers⟩

/-! ## A cut right after the removal -/

/-- The edit that moves both methods of `ab.ts` is admitted, cut off behind its
first transaction, and admitted again. -/
def afterRemoval : Interruption Environment.plain Environment.twoClasses where
  first := Environment.shifted
  later := Environment.shifted
  cut := 1
  samePath := rfl
  firstOwn := by unfold Environment.OwnIds; decide
  laterOwn := by unfold Environment.OwnIds; decide
  started := by decide
  unfinished := by decide

/-- The record is gone with the edge, so the later sync saves nothing. -/
theorem survives_fails : ¬ ∀ (env : Environment) (g : Graph) (i : Interruption env g),
    i.Survives := by
  intro h
  have hdone : afterRemoval.done = [.deleteFile "ab.ts"] := rfl
  have hrecord : ¬ afterRemoval.RecordWritten := by
    rw [RecordWritten, hdone]
    exact fun hfiles => hfiles rfl
  have hrecovers := recovers_of_survives afterRemoval (h _ _ _)
    fun hwritten => (hrecord hwritten).elim
  rcases hrecovers.refs
      ⟨⟨"f", "m2", .calls, some ⟨some "a.m", none, ""⟩, some 3, some 0, none⟩, .method, "m",
        "main.ts", .typescript⟩ (by decide)
      ⟨"f", "a.m", "calls", 3, 0, some "main.ts", some .typescript⟩ (by decide) with
    ⟨row, hrow, _⟩ | ⟨r, hr, _⟩ | ⟨hwritten, _⟩
  · simp [Environment.twoClasses] at hrow
  · rw [hdone] at hr
    simp [Write.refs] at hr
  · exact hrecord hwritten

end Interruption

end AfyxGraph.Admission
