import AfyxGraph.Core.EditScript
import AfyxGraph.Runtime.Json

/-! # Bounded edit distance

The distance of two strings by code units when it is within a bound, and more than the bound
otherwise.
-/

namespace AfyxGraph.Search

open AfyxGraph.Core AfyxGraph.Runtime

/-- The rest of a row: `diagonal` and `left` are the cells above and beside the next one. -/
def editRow (rowChar : CodeUnit) : (diagonal left : Nat) → (above : List Nat) → JsString → List Nat
  | diagonal, left, up :: above, c :: b =>
      let substitution := diagonal + if rowChar = c then 0 else 1
      let best := min (min substitution (up + 1)) (left + 1)
      best :: editRow rowChar up best above b
  | _, _, _, _ => []

/-- The rows of the table from `row` on; the scan stops when a whole row exceeds the bound. -/
def editRows (maxDistance : Nat) (b : JsString) : (row : Nat) → (above : List Nat) → JsString → Nat
  | _, above, [] => above.getLast?.getD 0
  | row, above, rowChar :: a =>
      let rest := editRow rowChar (above.head?.getD 0) row above.tail b
      if maxDistance < rest.foldl min row then maxDistance + 1
      else editRows maxDistance b (row + 1) (row :: rest) a

def boundedEditDistance (a b : JsString) (maxDistance : Nat) : Nat :=
  if a = b then 0
  else if maxDistance < max (a.length - b.length) (b.length - a.length) then maxDistance + 1
  else if a = [] then b.length
  else if b = [] then a.length
  else editRows maxDistance b 1 (List.range (b.length + 1)) a

/-! ## The rows are distances -/

/-- The cells of a row behind the column of `b`, whose prefixes are read from the back. -/
def cells (a : JsString) : (b : JsString) → JsString → List Nat
  | _, [] => []
  | b, c :: rest => levenshtein a (c :: b) :: cells a (c :: b) rest

theorem editRow_cells (rowChar : CodeUnit) (a b rest : JsString) :
    editRow rowChar (levenshtein a b) (levenshtein (rowChar :: a) b) (cells a b rest) rest =
      cells (rowChar :: a) b rest := by
  induction rest generalizing b with
  | nil => rfl
  | cons c rest ih =>
      simp only [cells, editRow]
      rw [← levenshtein_cons, ih]

theorem cells_first (b rest : JsString) :
    levenshtein [] b :: cells [] b rest = List.range' b.length (rest.length + 1) := by
  induction rest generalizing b with
  | nil => simp [cells]
  | cons c rest ih =>
      rw [cells, ih, levenshtein_nil_left, List.length_cons, List.length_cons]
      exact List.range'_succ.symm

theorem cells_last (a b rest : JsString) :
    (levenshtein a b :: cells a b rest).getLast? = some (levenshtein a (rest.reverse ++ b)) := by
  induction rest generalizing b with
  | nil => rfl
  | cons c rest ih =>
      rw [cells, List.getLast?_cons_cons, ih, List.reverse_cons, List.append_assoc]
      rfl

theorem mem_cells (a b front rest : JsString) :
    levenshtein a (front.reverse ++ b) ∈ levenshtein a b :: cells a b (front ++ rest) := by
  induction front generalizing b with
  | nil => exact List.mem_cons_self ..
  | cons c front ih =>
      rw [List.cons_append, cells, List.reverse_cons, List.append_assoc]
      exact List.mem_cons_of_mem _ (ih (c :: b))

theorem foldl_min_le {smallest : Nat} {row : List Nat} :
    ∀ cell ∈ smallest :: row, row.foldl min smallest ≤ cell := by
  induction row generalizing smallest with
  | nil =>
      intro cell hcell
      exact Nat.le_of_eq (List.mem_singleton.mp hcell).symm
  | cons best row ih =>
      intro cell hcell
      rw [List.foldl_cons]
      have hhead := ih (min smallest best) (List.mem_cons_self ..)
      rcases List.mem_cons.mp hcell with rfl | hcell
      · omega
      · rcases List.mem_cons.mp hcell with rfl | hcell
        · omega
        · exact ih cell (List.mem_cons_of_mem _ hcell)

/-- With a row over the bound, so is every row after it: an end of what is still to come is no
farther from some column. -/
theorem lt_levenshtein_of_row {maxDistance : Nat} {a b : JsString} (more : JsString)
    (h : maxDistance < (cells a [] b).foldl min (levenshtein a [])) :
    maxDistance < levenshtein (more ++ a) b.reverse := by
  obtain ⟨other, rest, hb, hle⟩ := exists_levenshtein_suffix_le more a b.reverse
  have hsplit : b = rest.reverse ++ other.reverse := by
    rw [← List.reverse_append, ← hb, List.reverse_reverse]
  have hmem := mem_cells a [] rest.reverse other.reverse
  rw [← hsplit, List.reverse_reverse, List.append_nil] at hmem
  have hcell := foldl_min_le _ hmem
  omega

/-- By induction on the rows that are left, the ones before read from the back. -/
theorem editRows_agrees (maxDistance : Nat) (b before a : JsString) :
    (levenshtein (a.reverse ++ before) b.reverse ≤ maxDistance →
      editRows maxDistance b (before.length + 1) (levenshtein before [] :: cells before [] b) a =
        levenshtein (a.reverse ++ before) b.reverse) ∧
    (maxDistance < levenshtein (a.reverse ++ before) b.reverse →
      maxDistance < editRows maxDistance b (before.length + 1)
        (levenshtein before [] :: cells before [] b) a) := by
  induction a generalizing before with
  | nil =>
      have hlast : editRows maxDistance b (before.length + 1)
          (levenshtein before [] :: cells before [] b) [] = levenshtein before b.reverse := by
        rw [editRows, cells_last, List.append_nil]
        rfl
      rw [hlast]
      exact ⟨fun _ => rfl, id⟩
  | cons rowChar a ih =>
      have hwhole : (rowChar :: a).reverse ++ before = a.reverse ++ rowChar :: before := by simp
      have hrow : before.length + 1 = levenshtein (rowChar :: before) [] := by simp
      have hrest : editRow rowChar (levenshtein before []) (before.length + 1)
          (cells before [] b) b = cells (rowChar :: before) [] b := by
        rw [hrow]
        exact editRow_cells rowChar before [] b
      have hstep : editRows maxDistance b (before.length + 1)
          (levenshtein before [] :: cells before [] b) (rowChar :: a) =
          if maxDistance < (cells (rowChar :: before) [] b).foldl min
            (levenshtein (rowChar :: before) []) then maxDistance + 1
          else editRows maxDistance b ((rowChar :: before).length + 1)
            (levenshtein (rowChar :: before) [] :: cells (rowChar :: before) [] b) a := by
        simp only [editRows, List.head?_cons, Option.getD_some, List.tail_cons, hrest]
        rw [← hrow]
        rfl
      rw [hstep, hwhole]
      by_cases hover : maxDistance < (cells (rowChar :: before) [] b).foldl min
          (levenshtein (rowChar :: before) [])
      · rw [if_pos hover]
        have hfar := lt_levenshtein_of_row a.reverse hover
        exact ⟨fun hle => absurd hfar (Nat.not_lt_of_le hle), fun _ => Nat.lt_succ_self _⟩
      · rw [if_neg hover]
        exact ih (rowChar :: before)

/-- The result is the least number of edits, or over the bound with it. -/
theorem boundedEditDistance_agrees (a b : JsString) (maxDistance : Nat) :
    ∃ d, IsDistance a b d ∧
      (d ≤ maxDistance → boundedEditDistance a b maxDistance = d) ∧
      (maxDistance < d → maxDistance < boundedEditDistance a b maxDistance) := by
  refine ⟨levenshtein a b, isDistance_levenshtein a b, ?_⟩
  have hlength := (aligned_levenshtein a b).length_le
  unfold boundedEditDistance
  split
  · rename_i hsame
    rw [hsame, levenshtein_self]
    exact ⟨fun _ => rfl, fun h => absurd h (Nat.not_lt_zero _)⟩
  · split
    · rename_i hfar
      exact ⟨fun hle => by omega, fun _ => Nat.lt_succ_self _⟩
    · split
      · rename_i hnil
        rw [hnil, levenshtein_nil_left]
        exact ⟨fun _ => rfl, id⟩
      · split
        · rename_i hnil
          rw [hnil, levenshtein_nil_right]
          exact ⟨fun _ => rfl, id⟩
        · have hrows := editRows_agrees maxDistance b [] a
          have hfirst : levenshtein ([] : JsString) [] :: cells [] [] b =
              List.range (b.length + 1) := by
            rw [cells_first, List.range_eq_range']
            rfl
          rw [hfirst, List.append_nil, levenshtein_reverse] at hrows
          exact hrows

example : boundedEditDistance [1, 2, 3] [1, 3, 3, 4] 2 = 2 := by decide

example : boundedEditDistance [1, 2, 3] [4, 5, 6] 2 = 3 := by decide

end AfyxGraph.Search
