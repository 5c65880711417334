import Mathlib.Data.List.Basic

/-! # Lists that are cut at a delimiter

A segment is what stands in front of a delimiter and has none itself. What is behind the last
delimiter is no segment yet.
-/

namespace AfyxGraph.Core

universe u

variable {α : Type u} [DecidableEq α] {d : α} {segment other tail rest : List α}

/-! ## The first segment -/

theorem idxOf?_segment (h : d ∉ segment) (tail : List α) :
    (segment ++ d :: tail).idxOf? d = some segment.length := by
  induction segment with
  | nil =>
      rw [List.nil_append, List.idxOf?_cons, beq_self_eq_true, if_pos rfl]
      rfl
  | cons a segment ih =>
      have ha : (a == d) = false := by
        rw [beq_eq_false_iff_ne]
        exact fun heq => h (heq ▸ List.mem_cons_self ..)
      rw [List.cons_append, List.idxOf?_cons, ha, if_neg Bool.false_ne_true,
        ih fun hmem => h (List.mem_cons_of_mem _ hmem)]
      rfl

omit [DecidableEq α] in
theorem drop_segment (segment : List α) (d : α) (tail : List α) :
    (segment ++ d :: tail).drop (segment.length + 1) = tail := by
  rw [List.drop_append, List.drop_of_length_le (Nat.le_succ _), Nat.add_sub_cancel_left]
  rfl

theorem segment_unique (h : d ∉ segment) (h' : d ∉ other)
    (heq : segment ++ d :: tail = other ++ d :: rest) : segment = other := by
  have hindex := idxOf?_segment h tail
  rw [heq, idxOf?_segment h' rest] at hindex
  exact (List.append_inj heq (Option.some.inj hindex).symm).1

/-- A list has no delimiter, or a first segment. -/
theorem segment_cases (d : α) (l : List α) :
    d ∉ l ∨ ∃ segment tail, l = segment ++ d :: tail ∧ d ∉ segment := by
  by_cases h : d ∈ l
  · exact .inr (List.eq_append_cons_of_mem h)
  · exact .inl h

/-! ## All segments -/

/-- The segments of a list, behind what has been read of the first one. -/
def segmentsFrom (d : α) (read : List α) : List α → List (List α)
  | [] => []
  | a :: l => if a = d then read :: segmentsFrom d [] l else segmentsFrom d (read ++ [a]) l

def segments (d : α) (l : List α) : List (List α) := segmentsFrom d [] l

theorem segmentsFrom_of_not_mem (h : d ∉ segment) (read : List α) :
    segmentsFrom d read segment = [] := by
  induction segment generalizing read with
  | nil => rfl
  | cons a segment ih =>
      have ha : a ≠ d := fun heq => h (heq ▸ List.mem_cons_self ..)
      rw [segmentsFrom, if_neg ha]
      exact ih (fun hmem => h (List.mem_cons_of_mem _ hmem)) _

theorem segments_of_not_mem (h : d ∉ segment) : segments d segment = [] :=
  segmentsFrom_of_not_mem h []

theorem segmentsFrom_segment (h : d ∉ segment) (read tail : List α) :
    segmentsFrom d read (segment ++ d :: tail) = (read ++ segment) :: segments d tail := by
  induction segment generalizing read with
  | nil =>
      rw [List.nil_append, segmentsFrom, if_pos rfl, List.append_nil]
      rfl
  | cons a segment ih =>
      have ha : a ≠ d := fun heq => h (heq ▸ List.mem_cons_self ..)
      rw [List.cons_append, segmentsFrom, if_neg ha,
        ih (fun hmem => h (List.mem_cons_of_mem _ hmem)), List.append_assoc]
      rfl

theorem segments_segment (h : d ∉ segment) (tail : List α) :
    segments d (segment ++ d :: tail) = segment :: segments d tail :=
  segmentsFrom_segment h [] tail

/-- Segments that are written one after the other are read back. -/
theorem segments_flatMap {lines : List (List α)} (h : ∀ line ∈ lines, d ∉ line)
    (rest : List α) :
    segments d (lines.flatMap (· ++ [d]) ++ rest) = lines ++ segments d rest := by
  induction lines with
  | nil => rfl
  | cons line lines ih =>
      rw [List.flatMap_cons, List.append_assoc, List.append_assoc, List.singleton_append,
        segments_segment (h line (List.mem_cons_self ..)),
        ih fun other hother => h other (List.mem_cons_of_mem _ hother)]
      rfl

end AfyxGraph.Core
