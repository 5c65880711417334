import AfyxGraph.Core.Distance
import Mathlib.Order.MinMax

/-! # Edit distance

The distance of two lists is the least number of insertions, deletions and replacements of one
entry that lead from one to the other. An alignment reads off such edits from the front, and the
recursion on both lists finds the cheapest one.
-/

namespace AfyxGraph.Core

universe u

variable {α : Type u}

/-- One entry is inserted, deleted or replaced, at the head or further on. -/
inductive Edit : List α → List α → Prop
  | insert (x : α) (a : List α) : Edit a (x :: a)
  | delete (x : α) (a : List α) : Edit (x :: a) a
  | replace (x y : α) (a : List α) : Edit (x :: a) (y :: a)
  | tail (x : α) {a b : List α} (h : Edit a b) : Edit (x :: a) (x :: b)

/-- The least number of edits. -/
def IsDistance (a b : List α) (d : Nat) : Prop := AtDistance Edit (· = a) d b

/-- An alignment with its cost. -/
inductive Aligned : Nat → List α → List α → Prop
  | nil : Aligned 0 [] []
  | keep {k : Nat} {a b : List α} (x : α) (h : Aligned k a b) : Aligned k (x :: a) (x :: b)
  | replace {k : Nat} {a b : List α} (x y : α) (h : Aligned k a b) :
      Aligned (k + 1) (x :: a) (y :: b)
  | delete {k : Nat} {a b : List α} (x : α) (h : Aligned k a b) : Aligned (k + 1) (x :: a) b
  | insert {k : Nat} {a b : List α} (y : α) (h : Aligned k a b) : Aligned (k + 1) a (y :: b)

variable {a b c d : List α} {j k : Nat}

/-! ## Alignments and edits -/

theorem Aligned.refl (a : List α) : Aligned 0 a a := by
  induction a with
  | nil => exact .nil
  | cons x a ih => exact .keep x ih

theorem Steps.editTail (x : α) (h : Steps Edit (· = a) k b) :
    Steps Edit (· = x :: a) k (x :: b) := by
  induction h with
  | source h => exact .source (congrArg (x :: ·) h)
  | step _ hop ih => exact .step ih (.tail x hop)

theorem Aligned.steps (h : Aligned k a b) : Steps Edit (· = a) k b := by
  induction h with
  | nil => exact .source rfl
  | keep x _ ih => exact ih.editTail x
  | replace x y _ ih => exact .step (ih.editTail x) (.replace x y _)
  | delete x _ ih => exact .step (ih.editTail x) (.delete x _)
  | insert y _ ih => exact .step ih (.insert y _)

/-- One more edit costs one more at most. -/
theorem Aligned.edit (h : Aligned k a b) (hedit : Edit b c) : ∃ j ≤ k + 1, Aligned j a c := by
  induction h generalizing c with
  | nil =>
      cases hedit with
      | insert y => exact ⟨1, by omega, .insert y .nil⟩
  | @keep k a b x h ih =>
      cases hedit with
      | insert y => exact ⟨k + 1, by omega, .insert y (.keep x h)⟩
      | delete => exact ⟨k + 1, by omega, .delete x h⟩
      | replace _ y => exact ⟨k + 1, by omega, .replace x y h⟩
      | tail _ hrest =>
          obtain ⟨j, hj, halign⟩ := ih hrest
          exact ⟨j, hj, .keep x halign⟩
  | @replace k a b x y h ih =>
      cases hedit with
      | insert z => exact ⟨k + 1 + 1, by omega, .insert z (.replace x y h)⟩
      | delete => exact ⟨k + 1, by omega, .delete x h⟩
      | replace _ z => exact ⟨k + 1, by omega, .replace x z h⟩
      | tail _ hrest =>
          obtain ⟨j, hj, halign⟩ := ih hrest
          exact ⟨j + 1, by omega, .replace x y halign⟩
  | @delete k a b x h ih =>
      obtain ⟨j, hj, halign⟩ := ih hedit
      exact ⟨j + 1, by omega, .delete x halign⟩
  | @insert k a b y h ih =>
      cases hedit with
      | insert z => exact ⟨k + 1 + 1, by omega, .insert z (.insert y h)⟩
      | delete => exact ⟨k, by omega, h⟩
      | replace _ z => exact ⟨k + 1, by omega, .insert z h⟩
      | tail _ hrest =>
          obtain ⟨j, hj, halign⟩ := ih hrest
          exact ⟨j + 1, by omega, .insert y halign⟩

theorem Steps.aligned (h : Steps Edit (· = a) k b) : ∃ j ≤ k, Aligned j a b := by
  induction h with
  | source h =>
      subst h
      exact ⟨0, Nat.le_refl 0, .refl _⟩
  | step _ hop ih =>
      obtain ⟨j, hj, halign⟩ := ih
      obtain ⟨i, hi, halign'⟩ := halign.edit hop
      exact ⟨i, by omega, halign'⟩

/-! ## Alignments of parts -/

theorem Aligned.append (h : Aligned k a b) (h' : Aligned j c d) :
    Aligned (k + j) (a ++ c) (b ++ d) := by
  induction h with
  | nil => simpa using h'
  | keep x _ ih => exact .keep x ih
  | @replace k _ _ x y _ ih => exact (Nat.add_right_comm k 1 j) ▸ .replace x y ih
  | @delete k _ _ x _ ih => exact (Nat.add_right_comm k 1 j) ▸ .delete x ih
  | @insert k _ _ y _ ih => exact (Nat.add_right_comm k 1 j) ▸ .insert y ih

theorem Aligned.reverse (h : Aligned k a b) : Aligned k a.reverse b.reverse := by
  induction h with
  | nil => exact .nil
  | keep x _ ih =>
      rw [List.reverse_cons, List.reverse_cons]
      exact ih.append (.refl [x])
  | replace x y _ ih =>
      rw [List.reverse_cons, List.reverse_cons]
      exact ih.append (.replace x y .nil)
  | delete x _ ih =>
      have happend := ih.append (.delete x .nil)
      rw [List.reverse_cons]
      simpa using happend
  | insert y _ ih =>
      have happend := ih.append (.insert y .nil)
      rw [List.reverse_cons]
      simpa using happend

/-- The end of one list is aligned, for no more, with an end of the other. -/
theorem Aligned.suffix {front : List α} (h : Aligned k (front ++ a) b) :
    ∃ j ≤ k, ∃ other rest, b = other ++ rest ∧ Aligned j a rest := by
  generalize hwhole : front ++ a = whole at h
  induction h generalizing front with
  | nil =>
      obtain ⟨-, rfl⟩ := List.append_eq_nil_iff.mp hwhole
      exact ⟨0, Nat.le_refl 0, [], [], rfl, .nil⟩
  | @keep k a' b x h ih =>
      cases front with
      | nil =>
          obtain rfl : a = x :: a' := hwhole
          exact ⟨k, Nat.le_refl k, [], x :: b, rfl, .keep x h⟩
      | cons _ front =>
          obtain ⟨j, hj, other, rest, rfl, halign⟩ := ih (List.cons.inj hwhole).2
          exact ⟨j, hj, x :: other, rest, rfl, halign⟩
  | @replace k a' b x y h ih =>
      cases front with
      | nil =>
          obtain rfl : a = x :: a' := hwhole
          exact ⟨k + 1, Nat.le_refl _, [], y :: b, rfl, .replace x y h⟩
      | cons _ front =>
          obtain ⟨j, hj, other, rest, rfl, halign⟩ := ih (List.cons.inj hwhole).2
          exact ⟨j, by omega, y :: other, rest, rfl, halign⟩
  | @delete k a' b x h ih =>
      cases front with
      | nil =>
          obtain rfl : a = x :: a' := hwhole
          exact ⟨k + 1, Nat.le_refl _, [], b, rfl, .delete x h⟩
      | cons _ front =>
          obtain ⟨j, hj, other, rest, rfl, halign⟩ := ih (List.cons.inj hwhole).2
          exact ⟨j, by omega, other, rest, rfl, halign⟩
  | insert y h ih =>
      obtain ⟨j, hj, other, rest, rfl, halign⟩ := ih hwhole
      exact ⟨j, by omega, y :: other, rest, rfl, halign⟩

theorem Aligned.length_le (h : Aligned k a b) :
    a.length ≤ b.length + k ∧ b.length ≤ a.length + k := by
  induction h <;> simp only [List.length_nil, List.length_cons] <;> omega

/-! ## The cheapest alignment -/

section Levenshtein

variable [DecidableEq α]

def levenshtein : List α → List α → Nat
  | [], b => b.length
  | x :: a, [] => a.length + 1
  | x :: a, y :: b =>
      min (min (levenshtein a b + if x = y then 0 else 1) (levenshtein a (y :: b) + 1))
        (levenshtein (x :: a) b + 1)

@[simp] theorem levenshtein_nil_left (b : List α) : levenshtein [] b = b.length := by
  rw [levenshtein]

@[simp] theorem levenshtein_nil_right (a : List α) : levenshtein a [] = a.length := by
  cases a <;> simp [levenshtein]

theorem levenshtein_cons (x y : α) (a b : List α) : levenshtein (x :: a) (y :: b) =
    min (min (levenshtein a b + if x = y then 0 else 1) (levenshtein a (y :: b) + 1))
      (levenshtein (x :: a) b + 1) := by
  rw [levenshtein]

theorem aligned_levenshtein (a b : List α) : Aligned (levenshtein a b) a b := by
  induction a generalizing b with
  | nil =>
      rw [levenshtein_nil_left]
      induction b with
      | nil => exact .nil
      | cons y b ih => exact .insert y ih
  | cons x a ih =>
      induction b with
      | nil =>
          have hdelete := Aligned.delete x (ih [])
          rwa [levenshtein_nil_right] at hdelete ⊢
      | cons y b ihb =>
          rw [levenshtein_cons]
          rcases min_choice (min (levenshtein a b + if x = y then 0 else 1)
            (levenshtein a (y :: b) + 1)) (levenshtein (x :: a) b + 1) with h | h
          · rw [h]
            rcases min_choice (levenshtein a b + if x = y then 0 else 1)
              (levenshtein a (y :: b) + 1) with h' | h'
            · rw [h']
              by_cases hxy : x = y
              · rw [if_pos hxy, hxy]
                exact .keep y (ih b)
              · rw [if_neg hxy]
                exact .replace x y (ih b)
            · rw [h']
              exact .delete x (ih (y :: b))
          · rw [h]
            exact .insert y ihb

theorem Aligned.levenshtein_le (h : Aligned k a b) : levenshtein a b ≤ k := by
  induction h with
  | nil => simp
  | keep x _ ih =>
      rw [levenshtein_cons, if_pos rfl]
      omega
  | replace x y _ ih =>
      rw [levenshtein_cons]
      split <;> omega
  | @delete k a b x _ ih =>
      cases b with
      | nil =>
          rw [levenshtein_nil_right] at ih ⊢
          exact Nat.succ_le_succ ih
      | cons y b =>
          rw [levenshtein_cons]
          omega
  | @insert k a b y _ ih =>
      cases a with
      | nil =>
          rw [levenshtein_nil_left] at ih ⊢
          exact Nat.succ_le_succ ih
      | cons x a =>
          rw [levenshtein_cons]
          omega

theorem isDistance_levenshtein (a b : List α) : IsDistance a b (levenshtein a b) := by
  refine ⟨(aligned_levenshtein a b).steps, fun j hj => ?_⟩
  obtain ⟨i, hi, halign⟩ := hj.aligned
  exact Nat.le_trans halign.levenshtein_le hi

/-- Read from the back, the distance is the same. -/
theorem levenshtein_reverse (a b : List α) :
    levenshtein a.reverse b.reverse = levenshtein a b := by
  apply Nat.le_antisymm
  · exact (aligned_levenshtein a b).reverse.levenshtein_le
  · have halign := (aligned_levenshtein a.reverse b.reverse).reverse
    rw [List.reverse_reverse, List.reverse_reverse] at halign
    exact halign.levenshtein_le

theorem levenshtein_self (a : List α) : levenshtein a a = 0 :=
  Nat.le_zero.mp (Aligned.refl a).levenshtein_le

/-- An end of one list is no farther from some end of the other. -/
theorem exists_levenshtein_suffix_le (front a b : List α) :
    ∃ other rest, b = other ++ rest ∧ levenshtein a rest ≤ levenshtein (front ++ a) b := by
  obtain ⟨j, hj, other, rest, hb, halign⟩ := (aligned_levenshtein (front ++ a) b).suffix
  exact ⟨other, rest, hb, Nat.le_trans halign.levenshtein_le hj⟩

end Levenshtein

end AfyxGraph.Core
