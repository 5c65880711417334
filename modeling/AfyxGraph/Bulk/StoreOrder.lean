import AfyxGraph.Admission.Loading
import AfyxGraph.Bulk.StoreWriter

/-! # What a drain promises

A drain that resolves comes behind every payload posted before it, and none of these failed:
the worker has stored them in the order of the posts. For the extractions of a fresh index the
tables are then the ones the main thread would have written with one admission after the other.
-/

namespace AfyxGraph.Bulk.StoreWriter

open AfyxGraph.Core Extraction Store Admission

variable {env : Environment}

/-! ## The path without a writer thread -/

theorem written_unique {base t u : Tables} {ns : List Node} {es : List Edge}
    {rs : List UnresolvedReference} {fs : List FileRecord} (ht : Written base ns es rs fs t)
    (hu : Written base ns es rs fs u) : t = u := by
  cases t
  cases u
  obtain ⟨hn, he, hr, hf⟩ := ht
  obtain ⟨hn', he', hr', hf'⟩ := hu
  simp only at hn he hr hf hn' he' hr' hf'
  rw [hn, he, hr, hf, hn', he', hr', hf']

/-- The transactions of a file without a record carry its references in their order. -/
theorem storeWrites_nil_refs (x : Extracted) :
    (env.storeWrites x []).flatMap Write.refs = (env.bundle x).refs := by
  unfold Environment.storeWrites
  dsimp only
  split
  · simp [Write.refs, reattachIncoming]
  · simp only [List.flatMap_append]
    rw [payload_none fun _ => rfl, payload_none fun _ => rfl, payload_batches fun _ => rfl,
      slices_flatten]
    simp [Write.refs, reattachIncoming]

/-- Admitting a file without a record leaves what storing its bundle at once leaves. -/
theorem admitFile_eq_storeBundle {base : Tables} (hbase : base.Valid) {x : Extracted}
    (hfresh : base.getFileByPath x.filePath = none) :
    env.admitFile base x = storeBundle base (env.bundle x) := by
  have hwrites : env.writes base x = env.storeWrites x [] := by
    simp only [Environment.writes, hfresh]
  have hchunks : Orderly base (env.storeWrites x []) :=
    Environment.storeWrites_orderly (by simp)
  have hwhole : Orderly base [.storeFileBundle (env.bundle x)] := by
    refine @orderly_concat _ [] _ (orderly_nil base)
      ⟨rfl, Environment.bundle_nodes_storable, ?_, ?_⟩
    · exact fun e he => Environment.bundle_edge_closed base he
    · exact fun r hr => Environment.bundle_ref_stored base hr
  obtain ⟨t, hrun, -, hwritten⟩ := hchunks.run hbase
  obtain ⟨u, hrun', -, hwritten'⟩ := hwhole.run hbase
  rw [Environment.storeWrites_nodes, Environment.storeWrites_edges, storeWrites_nil_refs,
    Environment.storeWrites_files] at hwritten
  have hsame : t = u := by
    refine written_unique hwritten ?_
    change Written base _ _ _ [(env.bundle x).file] u
    simpa [Write.nodes, Write.edges, Write.refs, Write.files] using hwritten'
  rw [Environment.admitFile, hwrites, hrun, hsame, ← hrun']
  simp [Admission.step]

/-- `storeResult` without a writer, for one file after the other. -/
def admitAll (env : Environment) (t : Tables) (xs : List Extracted) : Option Tables :=
  xs.foldlM env.admitFile t

/-- The bundles stored one after the other. -/
def storeAll (env : Environment) (t : Tables) (payloads : List Payload) : Option Tables :=
  payloads.foldlM (fun t payload => storeBundle t (Worker.decoded env payload)) t

/-- What `storeResult` posts: the tables of a kernel result are still encoded, and its record is
made from the counts the kernel announced. -/
def payloadOf (env : Environment) (x : Extracted) : Payload :=
  match x.rawResult.kernelCounts with
  | some (nodes, _) =>
      .kernel x.filePath x.language x.rawResult
        { env.fileRecord x with nodeCount := nodes, errors := x.rawResult.errors }
  | none =>
      .bundle (finalizeStoreBundle x.rawResult x.filePath x.language
        { env.fileRecord x with
          nodeCount := x.rawResult.nodes.length
          errors := x.rawResult.errors })

/-- A result without encoded tables is its own decoding, and the decoding of the others has the
node count and the errors that were read of them before. -/
structure Announced (env : Environment) (x : Extracted) : Prop where
  plain : x.rawResult.kernelCounts = none → env.result x = x.rawResult
  nodes : ∀ counts, x.rawResult.kernelCounts = some counts →
    (env.result x).nodes.length = counts.1
  errors : (env.result x).errors = x.rawResult.errors

theorem Announced.decoded_payloadOf {x : Extracted} (h : Announced env x) :
    Worker.decoded env (payloadOf env x) = env.bundle x := by
  unfold payloadOf
  split
  · rename_i nodes edges hcounts
    have hrecord : { env.fileRecord x with nodeCount := nodes, errors := x.rawResult.errors } =
        env.fileRecord x := by
      simp only [Environment.fileRecord, h.nodes _ hcounts, h.errors]
    rw [hrecord]
    rfl
  · rename_i hcounts
    have hplain := h.plain hcounts
    have hrecord : { env.fileRecord x with
        nodeCount := x.rawResult.nodes.length, errors := x.rawResult.errors } =
        env.fileRecord x := by
      simp only [Environment.fileRecord, hplain]
    rw [hrecord, Worker.decoded, Environment.bundle, hplain]

theorem getFileByPath_eq_none {t : Tables} {path : String} :
    t.getFileByPath path = none ↔ path ∉ t.files.map (·.path) := by
  simp [Tables.getFileByPath, List.find?_eq_none]

/-- Storing a bundle adds its path to the records and no other. -/
theorem storeBundle_paths {t u : Tables} {bundle : StoreBundle}
    (h : storeBundle t bundle = some u) {path : String} (hpath : path ≠ bundle.file.path)
    (hnot : path ∉ t.files.map (·.path)) : path ∉ u.files.map (·.path) := by
  simp only [storeBundle, Option.bind_eq_bind, Option.bind_eq_some_iff] at h
  obtain ⟨v, hv, w, hw, hlast⟩ := h
  have hvfiles : v.files = t.files := by
    simp only [Tables.insertTrusted, Option.ite_none_right_eq_some, Option.some.injEq] at hv
    rw [← hv.2]
    exact Tables.insertNodes_files _ _
  have hwfiles : w.files = t.files := by
    simp only [Tables.insertUnresolvedRefsBatch, Option.ite_none_right_eq_some,
      Option.some.injEq] at hw
    rw [← hw.2]
    exact hvfiles
  cases hlast
  simp only [Tables.upsertFile, hwfiles]
  split
  · simp only [List.map_map, List.mem_map, not_exists, not_and, Function.comp_apply] at hnot ⊢
    intro old hold heq
    split at heq
    · exact hpath heq.symm
    · exact hnot old hold heq
  · simpa [hpath] using hnot

/-- For files that are all new and different, storing the payloads is admitting the files. -/
theorem admitAll_eq_storeAll {t : Tables} (ht : t.Valid) {xs : List Extracted}
    (hnew : ∀ x ∈ xs, t.getFileByPath x.filePath = none)
    (hdistinct : (xs.map (·.filePath)).Nodup) (hannounced : ∀ x ∈ xs, Announced env x) :
    admitAll env t xs = storeAll env t (xs.map (payloadOf env)) := by
  induction xs generalizing t with
  | nil => rfl
  | cons x xs ih =>
      obtain ⟨hx, hrest⟩ := List.nodup_cons.mp (List.map_cons ▸ hdistinct)
      have hfirst : env.admitFile t x = storeBundle t (env.bundle x) :=
        admitFile_eq_storeBundle ht (hnew x List.mem_cons_self)
      have hpayload := (hannounced x List.mem_cons_self).decoded_payloadOf
      rw [admitAll, storeAll, List.map_cons, List.foldlM_cons, List.foldlM_cons, hfirst, hpayload]
      cases hstore : storeBundle t (env.bundle x) with
      | none => rfl
      | some u =>
          have hu : u.Valid := step_valid ht (w := .storeFileBundle (env.bundle x)) hstore
          refine ih hu (fun y hy => ?_) hrest fun y hy => hannounced y (List.mem_cons_of_mem _ hy)
          have hne : y.filePath ≠ x.filePath := fun heq =>
            hx (heq ▸ List.mem_map_of_mem hy)
          refine getFileByPath_eq_none.mpr (storeBundle_paths hstore hne ?_)
          exact getFileByPath_eq_none.mp (hnew y (List.mem_cons_of_mem _ hy))

end AfyxGraph.Bulk.StoreWriter
