import AfyxGraph.Resolution.Sequential

/-! # The order of the rows

The cursor gives the pending rows in batches, prerequisites first, and the transactions for
one batch change nothing of the batches behind it.
-/

namespace AfyxGraph.Resolution

open AfyxGraph.Core

variable {refs : List RefRow} {batchSize : Nat} {c : Cursor}

def Sorted (refs : List RefRow) : Prop := (refs.map (·.id)).Pairwise (· < ·)

theorem Sorted.sublist {rows : List RefRow} (h : Sorted refs) (hsub : rows.Sublist refs) :
    Sorted rows := List.Pairwise.sublist (hsub.map _) h

theorem Sorted.nodup (h : Sorted refs) : (refs.map (·.id)).Nodup :=
  h.imp fun hlt => Nat.ne_of_lt hlt

theorem sorted_pendingRows (h : Sorted refs) (afterRowId : Nat) (prerequisites : Bool) :
    Sorted (pendingRows refs afterRowId prerequisites) := h.sublist List.filter_sublist

theorem mem_pendingRows {row : RefRow} {afterRowId : Nat} {prerequisites : Bool} :
    row ∈ pendingRows refs afterRowId prerequisites ↔ row ∈ refs ∧ row.isPending = true ∧
      afterRowId < row.id ∧ row.isPrerequisite = prerequisites := by
  simp [pendingRows, and_assoc]

/-! ## Reading on -/

/-- Behind the last row of a batch come the rows that the limit cut off. -/
theorem pendingRows_after (h : Sorted refs) {afterRowId limit : Nat} {prerequisites : Bool}
    {last : RefRow}
    (hlast : ((pendingRows refs afterRowId prerequisites).take limit).getLast? = some last) :
    pendingRows refs last.id prerequisites =
      (pendingRows refs afterRowId prerequisites).drop limit := by
  have hmem : last ∈ pendingRows refs afterRowId prerequisites :=
    List.mem_of_mem_take (List.mem_of_getLast? hlast)
  have hafter := (mem_pendingRows.mp hmem).2.2.1
  have hrefine : pendingRows refs last.id prerequisites =
      (pendingRows refs afterRowId prerequisites).filter fun row => decide (last.id < row.id) := by
    rw [pendingRows, pendingRows, List.filter_filter]
    apply List.filter_congr
    intro row _
    by_cases hrow : last.id < row.id
    · have hrow' : afterRowId < row.id := by omega
      simp [hrow, hrow']
    · simp [hrow]
  have hsorted := sorted_pendingRows h afterRowId prerequisites
  rw [hrefine]
  generalize pendingRows refs afterRowId prerequisites = rows at hlast hsorted
  obtain ⟨init, hinit⟩ := List.getLast?_eq_some_iff.mp hlast
  have hsplit : rows = init ++ [last] ++ rows.drop limit := by
    rw [← hinit, List.take_append_drop]
  rw [Sorted, hsplit, List.map_append, List.pairwise_append, List.map_append,
    List.pairwise_append] at hsorted
  obtain ⟨⟨-, -, hbefore⟩, -, hbehind⟩ := hsorted
  conv_lhs => rw [hsplit]
  rw [List.filter_append, List.filter_eq_nil_iff.mpr, List.filter_eq_self.mpr, List.nil_append]
  · intro row hrow
    exact decide_eq_true (hbehind last.id (by simp) row.id (List.mem_map_of_mem hrow))
  · intro row hrow
    rcases List.mem_append.mp hrow with hrow | hrow
    · have hlt := hbefore row.id (List.mem_map_of_mem hrow) last.id (by simp)
      simp only [decide_eq_true_eq]
      omega
    · rw [List.mem_singleton.mp hrow]
      simp

theorem pendingRows_batch (hsize : 0 < batchSize) (h : Sorted refs) {afterRowId : Nat}
    {prerequisites : Bool} {last : RefRow}
    (hlast : (getUnresolvedReferencesBatchAfter refs afterRowId batchSize
      prerequisites).getLast? = some last) :
    slices batchSize (pendingRows refs afterRowId prerequisites) =
      getUnresolvedReferencesBatchAfter refs afterRowId batchSize prerequisites ::
        slices batchSize (pendingRows refs last.id prerequisites) := by
  rw [pendingRows_after h hlast, slices_of_ne_nil hsize]
  · rfl
  · intro hnil
    have hempty : getUnresolvedReferencesBatchAfter refs afterRowId batchSize prerequisites = [] :=
      List.take_eq_nil_iff.mpr (Or.inr hnil)
    rw [hempty] at hlast
    cases hlast

theorem pendingRows_of_batch_nil (hsize : 0 < batchSize) {afterRowId : Nat} {prerequisites : Bool}
    (h : getUnresolvedReferencesBatchAfter refs afterRowId batchSize prerequisites = []) :
    pendingRows refs afterRowId prerequisites = [] := by
  rcases List.take_eq_nil_iff.mp h with hzero | hnil
  · omega
  · exact hnil

/-- The next batch is the first of those ahead, and the cursor moves behind it. -/
theorem readNextBatch_spec (hsize : 0 < batchSize) (h : Sorted refs) :
    ((readNextBatch refs batchSize c).1 = [] ∧ batchesAhead refs batchSize c = [] ∧
        batchesAhead refs batchSize (readNextBatch refs batchSize c).2 = []) ∨
      ((readNextBatch refs batchSize c).1 ≠ [] ∧ batchesAhead refs batchSize c =
        (readNextBatch refs batchSize c).1 ::
          batchesAhead refs batchSize (readNextBatch refs batchSize c).2) := by
  have hcase : ∀ afterRowId prerequisites,
      getUnresolvedReferencesBatchAfter refs afterRowId batchSize prerequisites ≠ [] →
      ∃ last, (getUnresolvedReferencesBatchAfter refs afterRowId batchSize
        prerequisites).getLast? = some last := by
    intro afterRowId prerequisites hne
    exact ⟨_, List.getLast?_eq_some_getLast hne⟩
  obtain ⟨prerequisites, afterRowId⟩ := c
  unfold readNextBatch
  by_cases hnil : getUnresolvedReferencesBatchAfter refs afterRowId batchSize prerequisites = []
  · have hrows := pendingRows_of_batch_nil hsize hnil
    cases prerequisites with
    | false => simp [hnil, batchesAhead, hrows]
    | true =>
        by_cases hother : getUnresolvedReferencesBatchAfter refs 0 batchSize false = []
        · have hothers := pendingRows_of_batch_nil hsize hother
          simp [hnil, hother, batchesAhead, hrows, hothers]
        · obtain ⟨last, hlast⟩ := hcase 0 false hother
          simp [hnil, hother, hlast, batchesAhead, hrows, pendingRows_batch hsize h hlast]
  · obtain ⟨last, hlast⟩ := hcase afterRowId prerequisites hnil
    cases prerequisites with
    | false => simp [hnil, hlast, batchesAhead, pendingRows_batch hsize h hlast]
    | true => simp [hnil, hlast, batchesAhead, pendingRows_batch hsize h hlast]

/-! ## Transactions for rows that are not ahead -/

/-- A transaction that changes no rows but those with these ids. -/
def Touches (rowIds : List Nat) : Write → Prop
  | .insertEdges _ => True
  | .deleteReferencesByRowIds ids => ∀ id ∈ ids, id ∈ rowIds
  | .deleteSpecificResolvedReferences keys => keys = []
  | .markReferencesFailedByRowIds marks => ∀ mark ∈ marks, mark.1 ∈ rowIds
  | .markReferencesFailed keys => keys = []

theorem pendingRows_markFailed (refs : List RefRow) (hit : RefRow → Bool) (name : String)
    (afterRowId : Nat) (prerequisites : Bool) :
    pendingRows (markFailed refs hit name) afterRowId prerequisites =
      (pendingRows refs afterRowId prerequisites).filter fun row => !hit row := by
  induction refs with
  | nil => rfl
  | cons row refs ih =>
      have htail : markFailed (row :: refs) hit name =
          (if hit row then
            { row with status := .failed, nameTail := referenceNameTail name }
          else row) :: markFailed refs hit name := rfl
      unfold pendingRows at ih ⊢
      rw [htail, List.filter_cons, List.filter_cons, ih]
      by_cases hrow : hit row = true
      · rw [if_pos hrow, if_neg (by simp [RefRow.isPending])]
        by_cases hold : (row.isPending && decide (afterRowId < row.id) &&
            row.isPrerequisite == prerequisites) = true
        · rw [if_pos hold, List.filter_cons, if_neg (by simp [hrow])]
        · rw [if_neg hold]
      · rw [if_neg hrow]
        by_cases hold : (row.isPending && decide (afterRowId < row.id) &&
            row.isPrerequisite == prerequisites) = true
        · rw [if_pos hold, if_pos hold, List.filter_cons, if_pos (by simp [hrow])]
        · rw [if_neg hold, if_neg hold]

theorem markFailed_ids (refs : List RefRow) (hit : RefRow → Bool) (name : String) :
    (markFailed refs hit name).map (·.id) = refs.map (·.id) := by
  rw [markFailed, List.map_map]
  apply List.map_congr_left
  intro row _
  simp only [Function.comp_apply]
  split <;> rfl

theorem mem_markFailed {refs : List RefRow} {hit : RefRow → Bool} {row : RefRow} (name : String)
    (hrow : row ∈ refs) (hhit : hit row = false) : row ∈ markFailed refs hit name :=
  List.mem_map.mpr ⟨row, hrow, by simp [hhit]⟩

variable {getNodeById : String → Option Extraction.Node} {store : Store} {rowIds : List Nat}
  {w : Write}

theorem pendingRows_write (hw : Touches rowIds w) {afterRowId : Nat} {prerequisites : Bool}
    (hahead : ∀ row ∈ pendingRows store.refs afterRowId prerequisites, row.id ∉ rowIds) :
    pendingRows (store.write getNodeById w).1.refs afterRowId prerequisites =
      pendingRows store.refs afterRowId prerequisites := by
  cases w with
  | insertEdges => rfl
  | deleteReferencesByRowIds ids =>
      show (store.refs.filter _).filter _ = _
      rw [List.filter_comm]
      apply List.filter_eq_self.mpr
      intro row hrow
      exact decide_eq_true fun hid => hahead row hrow (hw _ hid)
  | deleteSpecificResolvedReferences keys =>
      obtain rfl : keys = [] := hw
      simp [Store.write]
  | markReferencesFailedByRowIds marks =>
      show pendingRows (marks.foldl _ store.refs) _ _ = _
      generalize store.refs = refs at hahead
      induction marks generalizing refs with
      | nil => rfl
      | cons mark marks ih =>
          have hmark := pendingRows_markFailed refs (fun row => decide (row.id = mark.1)) mark.2
            afterRowId prerequisites
          have hsame : pendingRows (markFailed refs (fun row => decide (row.id = mark.1)) mark.2)
              afterRowId prerequisites = pendingRows refs afterRowId prerequisites := by
            rw [hmark]
            apply List.filter_eq_self.mpr
            intro row hrow
            have hne : row.id ≠ mark.1 := fun hid =>
              hahead row hrow (hid ▸ hw mark (List.mem_cons_self ..))
            simp [hne]
          rw [List.foldl_cons, ih (fun m hm => hw m (List.mem_cons_of_mem _ hm)), hsame]
          rw [hsame]
          exact hahead
  | markReferencesFailed keys =>
      obtain rfl : keys = [] := hw
      rfl

theorem sorted_write (h : Sorted store.refs) (w : Write) :
    Sorted (store.write getNodeById w).1.refs := by
  have hmark : ∀ {α : Type} (f : α → RefRow → Bool) (g : α → String) (xs : List α) (refs),
      Sorted refs → Sorted (xs.foldl (fun rows x => markFailed rows (f x) (g x)) refs) := by
    intro α f g xs
    induction xs with
    | nil => exact fun _ h => h
    | cons x xs ih =>
        intro refs hrefs
        apply ih
        rw [Sorted, markFailed_ids]
        exact hrefs
  cases w with
  | insertEdges => exact h
  | deleteReferencesByRowIds => exact h.sublist List.filter_sublist
  | deleteSpecificResolvedReferences => exact h.sublist List.filter_sublist
  | markReferencesFailedByRowIds marks => exact hmark (fun m row => row.id = m.1) (·.2) marks _ h
  | markReferencesFailed keys =>
      exact hmark (fun key row => row.key = key) (·.referenceName) keys _ h

theorem mem_write (hw : Touches rowIds w) {row : RefRow} (hrow : row ∈ store.refs)
    (hid : row.id ∉ rowIds) : row ∈ (store.write getNodeById w).1.refs := by
  cases w with
  | insertEdges => exact hrow
  | deleteReferencesByRowIds ids =>
      exact List.mem_filter.mpr ⟨hrow, decide_eq_true fun hmem => hid (hw _ hmem)⟩
  | deleteSpecificResolvedReferences keys =>
      obtain rfl : keys = [] := hw
      simpa [Store.write] using hrow
  | markReferencesFailedByRowIds marks =>
      show row ∈ marks.foldl _ store.refs
      generalize store.refs = refs at hrow
      induction marks generalizing refs with
      | nil => exact hrow
      | cons mark marks ih =>
          apply ih (fun m hm => hw m (List.mem_cons_of_mem _ hm))
          apply mem_markFailed _ hrow
          have hne : row.id ≠ mark.1 := fun heq => hid (heq ▸ hw mark (List.mem_cons_self ..))
          simp [hne]
  | markReferencesFailed keys =>
      obtain rfl : keys = [] := hw
      exact hrow

/-- The batches ahead stay what they are. -/
theorem batchesAhead_write (hsize : 0 < batchSize) (hw : Touches rowIds w)
    (hahead : ∀ batch ∈ batchesAhead store.refs batchSize c, ∀ row ∈ batch, row.id ∉ rowIds) :
    batchesAhead (store.write getNodeById w).1.refs batchSize c =
      batchesAhead store.refs batchSize c := by
  have hrows : ∀ rows : List RefRow, (∀ batch ∈ slices batchSize rows, ∀ row ∈ batch,
      row.id ∉ rowIds) → ∀ row ∈ rows, row.id ∉ rowIds := by
    intro rows hslices row hrow
    rw [← slices_flatten hsize rows] at hrow
    obtain ⟨batch, hbatch, hrow⟩ := List.mem_flatten.mp hrow
    exact hslices batch hbatch row hrow
  obtain ⟨prerequisites, afterRowId⟩ := c
  unfold batchesAhead at hahead ⊢
  cases prerequisites with
  | false =>
      simp only [Bool.false_eq_true, if_false] at hahead ⊢
      rw [pendingRows_write hw (hrows _ hahead)]
  | true =>
      simp only [if_true] at hahead ⊢
      have hphase := hrows _ fun batch hbatch => hahead batch (List.mem_append_left _ hbatch)
      have hothers := hrows _ fun batch hbatch => hahead batch (List.mem_append_right _ hbatch)
      rw [pendingRows_write hw hphase, pendingRows_write hw hothers]

end AfyxGraph.Resolution
