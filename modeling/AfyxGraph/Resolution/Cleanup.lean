import AfyxGraph.Resolution.Enumeration
import Mathlib.Algebra.Order.BigOperators.Group.List
import Mathlib.Algebra.Order.Group.Nat

/-! # The cleanup of a batch

An answer is about the rows of its batch, each of which it has once. The cleanup transactions
change no other rows, and the first of them does change one while the rows are still there.
-/

namespace AfyxGraph.Resolution

open AfyxGraph.Core

/-! ## Answers -/

/-- An answer for the rows with these ids. -/
structure Answers (rowIds : List Nat) (r : ResolutionResult) : Prop where
  resolved : ∀ found ∈ r.resolved, ∃ id ∈ rowIds, found.original.rowId = some id
  unresolved : ∀ ref ∈ r.unresolved, ∃ id ∈ rowIds, ref.rowId = some id
  length : r.resolved.length + r.unresolved.length = rowIds.length

variable {setup : Setup} {rowIds : List Nat} {r : ResolutionResult}

theorem answers_empty : Answers [] .empty where
  resolved _ hfound := by cases hfound
  unresolved _ href := by cases href
  length := rfl

theorem Answers.resolve (h : Answers rowIds r) {found : ResolvedRef} {id : Nat}
    (hid : found.original.rowId = some id) : Answers (rowIds ++ [id]) (r.resolve found) where
  resolved other hother := by
    rcases List.mem_append.mp hother with hother | hother
    · obtain ⟨otherId, hmem, hotherId⟩ := h.resolved other hother
      exact ⟨otherId, List.mem_append_left _ hmem, hotherId⟩
    · obtain rfl := List.mem_singleton.mp hother
      exact ⟨id, by simp, hid⟩
  unresolved ref href := by
    obtain ⟨refId, hmem, hrefId⟩ := h.unresolved ref href
    exact ⟨refId, List.mem_append_left _ hmem, hrefId⟩
  length := by
    have hlength := h.length
    simp only [ResolutionResult.resolve, List.length_append, List.length_singleton]
    omega

theorem Answers.fail (h : Answers rowIds r) {ref : UnresolvedRef} {id : Nat}
    (hid : ref.rowId = some id) : Answers (rowIds ++ [id]) (r.fail ref) where
  resolved found hfound := by
    obtain ⟨foundId, hmem, hfoundId⟩ := h.resolved found hfound
    exact ⟨foundId, List.mem_append_left _ hmem, hfoundId⟩
  unresolved other hother := by
    rcases List.mem_append.mp hother with hother | hother
    · obtain ⟨otherId, hmem, hotherId⟩ := h.unresolved other hother
      exact ⟨otherId, List.mem_append_left _ hmem, hotherId⟩
    · obtain rfl := List.mem_singleton.mp hother
      exact ⟨id, by simp, hid⟩
  length := by
    have hlength := h.length
    simp only [ResolutionResult.fail, List.length_append, List.length_singleton]
    omega

variable (setup) in
theorem Answers.attempt (h : Answers rowIds r) (s : Session) (raw : RefRow) :
    Answers (rowIds ++ [raw.id]) (setup.attempt s r raw).2 := by
  have hraw : (setup.toRef raw).rowId = some raw.id := rfl
  unfold Setup.attempt
  cases hverdict : setup.resolver.resolveOne s.edges (setup.toRef raw) with
  | resolved found =>
      simp only [hverdict]
      exact h.resolve ((setup.resolver.original_rowId hverdict).trans hraw)
  | failed | deferredChain | deferredThisMember =>
      simp only [hverdict]
      exact h.fail hraw

variable (setup) in
/-- An attempt leaves the tables as they are. -/
theorem attempt_toStore (s : Session) (r : ResolutionResult) (raw : RefRow) :
    (setup.attempt s r raw).1.toStore = s.toStore := by
  unfold Setup.attempt
  cases hverdict : setup.resolver.resolveOne s.edges (setup.toRef raw) <;>
    simp only [hverdict, Session.deferChain, Session.deferThisMember]

theorem attempt_attempted (s : Session) (r : ResolutionResult) (raw : RefRow) :
    (setup.attempt s r raw).1.attempted = s.attempted ++ [raw.id] := by
  unfold Setup.attempt
  cases hverdict : setup.resolver.resolveOne s.edges (setup.toRef raw) <;>
    simp only [hverdict, Session.deferChain, Session.deferThisMember]

variable (setup) in
theorem Answers.attemptAll (h : Answers rowIds r) (s : Session) (batch : List RefRow) :
    Answers (rowIds ++ batch.map (·.id)) (setup.attemptAll s r batch).2 := by
  unfold Setup.attemptAll
  induction batch generalizing rowIds r s with
  | nil => simpa using h
  | cons raw batch ih =>
      have hrest := ih (h.attempt setup s raw) (setup.attempt s r raw).1
      simpa using hrest

/-! ## Cleanup transactions -/

/-- A transaction on references that changes no rows but those with these ids. -/
def Cleans (rowIds : List Nat) : Write → Prop
  | .insertEdges _ => False
  | w => Touches rowIds w

theorem Cleans.touches {w : Write} (h : Cleans rowIds w) : Touches rowIds w := by
  cases w with
  | insertEdges => exact h.elim
  | _ => exact h

theorem Cleans.edges {w : Write} (h : Cleans rowIds w)
    (getNodeById : String → Option Extraction.Node) (store : Store) :
    (store.write getNodeById w).1.edges = store.edges := by
  cases w with
  | insertEdges => exact h.elim
  | _ => rfl

/-- The rows are in the table. -/
def Present (refs : List RefRow) (rowIds : List Nat) : Prop :=
  ∀ id ∈ rowIds, ∃ row ∈ refs, row.id = id

section Slices

variable {α : Type} {xs : List α}

theorem persistChunk_pos : 0 < PERSIST_CHUNK := by decide

theorem persist_slices (hxs : xs ≠ []) : ∃ part parts,
    slices PERSIST_CHUNK xs = part :: parts ∧ part ≠ [] ∧ ∀ x ∈ part, x ∈ xs := by
  refine ⟨_, _, slices_of_ne_nil persistChunk_pos hxs, ?_, ?_⟩
  · rw [ne_eq, List.take_eq_nil_iff]
    have hpos := persistChunk_pos
    rintro (hzero | hnil)
    · omega
    · exact hxs hnil
  · intro x hx
    exact List.mem_of_mem_take hx

end Slices

theorem Answers.legacyKeys (h : Answers rowIds r) : (resolvedCleanup r.resolved).legacyKeys = [] := by
  simp only [resolvedCleanup, List.map_eq_nil_iff, List.filter_eq_nil_iff]
  intro found hfound
  obtain ⟨id, -, hid⟩ := h.resolved found hfound
  simp [hid]

theorem Answers.mem_rowIds (h : Answers rowIds r) {id : Nat}
    (hid : id ∈ (resolvedCleanup r.resolved).rowIds) : id ∈ rowIds := by
  obtain ⟨found, hfound, hfoundId⟩ := List.mem_filterMap.mp hid
  obtain ⟨id', hmem, hid'⟩ := h.resolved found hfound
  rw [hfoundId, Option.some.injEq] at hid'
  exact hid' ▸ hmem

theorem Answers.cleans_deleteWrites (h : Answers rowIds r) {w : Write}
    (hw : w ∈ deleteWrites r) : Cleans rowIds w := by
  simp only [deleteWrites, h.legacyKeys, slices_nil, List.map_nil, List.append_nil,
    List.mem_map] at hw
  obtain ⟨part, hpart, rfl⟩ := hw
  intro id hid
  exact h.mem_rowIds (mem_of_mem_slices persistChunk_pos hpart hid)

/-- Of an answer that has a match, the first deletion finds its rows. -/
theorem Answers.deleteWrites_changes (h : Answers rowIds r) (hresolved : r.resolved ≠ [])
    (getNodeById : String → Option Extraction.Node) {s : Session} (hpresent : Present s.refs rowIds) :
    ∃ w writes, deleteWrites r = w :: writes ∧ 0 < s.changes getNodeById w := by
  have hne : (resolvedCleanup r.resolved).rowIds ≠ [] := by
    obtain ⟨found, hfound⟩ := List.exists_mem_of_ne_nil _ hresolved
    obtain ⟨id, -, hid⟩ := h.resolved found hfound
    exact List.ne_nil_of_mem (List.mem_filterMap.mpr ⟨found, hfound, hid⟩)
  obtain ⟨part, parts, hslices, hpart, hsub⟩ := persist_slices hne
  obtain ⟨id, hid⟩ := List.exists_mem_of_ne_nil _ hpart
  obtain ⟨row, hrow, hrowId⟩ := hpresent id (h.mem_rowIds (hsub id hid))
  refine ⟨_, _, by rw [deleteWrites, hslices, List.map_cons, List.cons_append], ?_⟩
  apply List.countP_pos_iff.mpr
  exact ⟨row, hrow, decide_eq_true (hrowId ▸ hid)⟩

section Failures

variable {failures : List UnresolvedRef}

/-- Failures of rows with these ids. -/
def AllOf (rowIds : List Nat) (failures : List UnresolvedRef) : Prop :=
  ∀ ref ∈ failures, ∃ id ∈ rowIds, ref.rowId = some id

theorem Answers.nonDeferredFailures (h : Answers rowIds r) (s : Session) :
    AllOf rowIds (s.nonDeferredFailures r.unresolved) :=
  fun ref href => h.unresolved ref (List.mem_of_mem_filter href)

theorem AllOf.legacyKeys (h : AllOf rowIds failures) : (failedCleanup failures).legacyKeys = [] := by
  simp only [failedCleanup, List.map_eq_nil_iff, List.filter_eq_nil_iff]
  intro ref href
  obtain ⟨id, -, hid⟩ := h ref href
  simp [hid]

theorem AllOf.mem_byRowId (h : AllOf rowIds failures) {mark : Nat × String}
    (hmark : mark ∈ (failedCleanup failures).byRowId) : mark.1 ∈ rowIds := by
  obtain ⟨ref, href, hmap⟩ := List.mem_filterMap.mp hmark
  obtain ⟨id, hid, hrefId⟩ := h ref href
  rw [hrefId, Option.map_some, Option.some.injEq] at hmap
  exact hmap ▸ hid

theorem AllOf.cleans_parkWrites (h : AllOf rowIds failures) {w : Write}
    (hw : w ∈ parkWrites failures) : Cleans rowIds w := by
  simp only [parkWrites, h.legacyKeys, slices_nil, List.map_nil, List.append_nil,
    List.mem_map] at hw
  obtain ⟨part, hpart, rfl⟩ := hw
  intro mark hmark
  exact h.mem_byRowId (mem_of_mem_slices persistChunk_pos hpart hmark)

/-- If there are failures, the first rows to park are found. -/
theorem AllOf.parkWrites_changes (h : AllOf rowIds failures) (hfailures : failures ≠ [])
    (getNodeById : String → Option Extraction.Node) {s : Session} (hpresent : Present s.refs rowIds) :
    ∃ w writes, parkWrites failures = w :: writes ∧ 0 < s.changes getNodeById w := by
  have hne : (failedCleanup failures).byRowId ≠ [] := by
    obtain ⟨ref, href⟩ := List.exists_mem_of_ne_nil _ hfailures
    obtain ⟨id, -, hid⟩ := h ref href
    exact List.ne_nil_of_mem (List.mem_filterMap.mpr ⟨ref, href, by rw [hid]; rfl⟩)
  obtain ⟨part, parts, hslices, hpart, hsub⟩ := persist_slices hne
  obtain ⟨mark, hmark⟩ := List.exists_mem_of_ne_nil _ hpart
  obtain ⟨row, hrow, hrowId⟩ := hpresent mark.1 (h.mem_byRowId (hsub mark hmark))
  refine ⟨_, _, by rw [parkWrites, hslices, List.map_cons, List.cons_append], ?_⟩
  have hcount : 0 < s.refs.countP (·.id = mark.1) :=
    List.countP_pos_iff.mpr ⟨row, hrow, decide_eq_true hrowId⟩
  have hsum : s.refs.countP (·.id = mark.1) ≤
      (part.map fun ref => s.refs.countP (·.id = ref.1)).sum :=
    List.single_le_sum (fun _ _ => Nat.zero_le _) _ (List.mem_map_of_mem hmark)
  exact Nat.lt_of_lt_of_le hcount hsum

end Failures

end AfyxGraph.Resolution
