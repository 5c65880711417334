import Mathlib.Data.List.Infix
import Mathlib.Data.List.Basic

/-! # Where one list occurs in another

An occurrence is a position from which the part can be read. `indexOf` is the first one and
`lastIndexOf` the last one up to a bound. Parts that never overlap each other are found at the
same positions whatever stands around them.
-/

namespace AfyxGraph.Core

universe u

variable {α : Type u}

def OccursAt (part text : List α) (i : Nat) : Prop := part <+: text.drop i

instance [DecidableEq α] (part text : List α) : DecidablePred (OccursAt part text) :=
  fun i => inferInstanceAs (Decidable (part <+: text.drop i))

variable {part text before after : List α} {i j : Nat}

theorem occursAt_length (part after : List α) (before : List α) :
    OccursAt part (before ++ (part ++ after)) before.length := by
  rw [OccursAt, List.drop_left]
  exact List.prefix_append part after

theorem OccursAt.split (h : OccursAt part text i) (hi : i ≤ text.length) :
    ∃ before after, text = before ++ (part ++ after) ∧ before.length = i := by
  obtain ⟨after, hafter⟩ := h
  refine ⟨text.take i, after, ?_, List.length_take_of_le hi⟩
  rw [hafter, List.take_append_drop]

theorem OccursAt.le_length (h : OccursAt part text i) (hpart : part ≠ []) :
    i + part.length ≤ text.length := by
  have hle := h.length_le
  have hpos := List.length_pos_iff.mpr hpart
  rw [List.length_drop] at hle
  omega

theorem occursAt_append_right (before : List α) :
    OccursAt part (before ++ text) (before.length + i) ↔ OccursAt part text i := by
  rw [OccursAt, OccursAt, ← List.drop_drop, List.drop_left]

theorem occursAt_append_left (h : i + part.length ≤ text.length) :
    OccursAt part (text ++ after) i ↔ OccursAt part text i := by
  have hi : i ≤ text.length := by omega
  rw [OccursAt, OccursAt, List.drop_append_of_le_length hi]
  constructor
  · intro hp
    refine List.prefix_of_prefix_length_le hp (List.prefix_append _ _) ?_
    rw [List.length_drop]
    omega
  · intro hp
    exact hp.trans (List.prefix_append _ _)

theorem OccursAt.append (h : OccursAt part text i) (hpart : part ≠ []) (after : List α) :
    OccursAt part (text ++ after) i := (occursAt_append_left (h.le_length hpart)).mpr h

/-! ## Parts that never overlap -/

/-- No occurrence of `other` begins inside one of `part`, unless both begin at one position. -/
def Clear (part other : List α) : Prop :=
  ∀ k < part.length, 0 < k → ¬ part.drop k <+: other ∧ ¬ other <+: part.drop k

instance [DecidableEq α] (part other : List α) : Decidable (Clear part other) :=
  inferInstanceAs (Decidable (∀ k < part.length, 0 < k →
    ¬ part.drop k <+: other ∧ ¬ other <+: part.drop k))

theorem Clear.apart {other : List α} (h : Clear part other) (hpart : OccursAt part text i)
    (hother : OccursAt other text j) (hij : i < j) : i + part.length ≤ j := by
  by_contra hlt
  obtain ⟨hfront, hback⟩ := h (j - i) (by omega) (by omega)
  have hrest : part.drop (j - i) <+: text.drop j := by
    have hdrop := List.IsPrefix.drop hpart (j - i)
    rwa [List.drop_drop, show i + (j - i) = j by omega] at hdrop
  rcases List.prefix_or_prefix_of_prefix hrest hother with hle | hle
  · exact hfront hle
  · exact hback hle

/-! ## The first and the last occurrence -/

section Search

variable [DecidableEq α]

/-- `text.indexOf(part)` -/
def indexOf (text part : List α) : Option Nat :=
  (List.range (text.length + 1)).find? fun i => OccursAt part text i

/-- `text.lastIndexOf(part, position)` -/
def lastIndexOf (text part : List α) : (position : Nat) → Option Nat
  | 0 => if OccursAt part text 0 then some 0 else none
  | position + 1 =>
      if OccursAt part text (position + 1) then some (position + 1)
      else lastIndexOf text part position

theorem indexOf_eq_none_iff : indexOf text part = none ↔
    ∀ i ≤ text.length, ¬ OccursAt part text i := by
  simp only [indexOf, List.find?_eq_none, List.mem_range, decide_eq_true_eq]
  exact forall_congr' fun i => by rw [Nat.lt_succ_iff]

theorem indexOf_eq_some_iff : indexOf text part = some i ↔
    i ≤ text.length ∧ OccursAt part text i ∧ ∀ j < i, ¬ OccursAt part text j := by
  rw [indexOf, List.find?_range_eq_some]
  simp only [decide_eq_true_eq, List.mem_range, Nat.lt_succ_iff, Bool.not_eq_true',
    decide_eq_false_iff_not]
  tauto

theorem indexOf_eq_none_iff_forall (hpart : part ≠ []) : indexOf text part = none ↔
    ∀ i, ¬ OccursAt part text i := by
  rw [indexOf_eq_none_iff]
  constructor
  · intro h i hocc
    have hle := hocc.le_length hpart
    exact h i (by omega) hocc
  · exact fun h i _ => h i

theorem indexOf_eq_some_iff_first (hpart : part ≠ []) : indexOf text part = some i ↔
    OccursAt part text i ∧ ∀ j < i, ¬ OccursAt part text j := by
  rw [indexOf_eq_some_iff]
  constructor
  · exact fun h => h.2
  · rintro ⟨hocc, hfirst⟩
    have hle := hocc.le_length hpart
    exact ⟨by omega, hocc, hfirst⟩

theorem indexOf_eq_none_iff_infix : indexOf text part = none ↔ ¬ part <:+: text := by
  rw [indexOf_eq_none_iff]
  constructor
  · rintro h ⟨before, after, rfl⟩
    refine h before.length (by simp) ?_
    rw [List.append_assoc]
    exact occursAt_length part after before
  · intro h i hi hocc
    obtain ⟨before, after, rfl, -⟩ := hocc.split hi
    exact h ⟨before, after, by simp⟩

theorem indexOf_congr {other : List α} (hpart : part ≠ [])
    (h : ∀ i, OccursAt part text i ↔ OccursAt part other i) :
    indexOf text part = indexOf other part := by
  cases hother : indexOf other part with
  | none =>
      rw [indexOf_eq_none_iff_forall hpart] at hother ⊢
      exact fun i hocc => hother i ((h i).mp hocc)
  | some i =>
      rw [indexOf_eq_some_iff_first hpart] at hother ⊢
      exact ⟨(h i).mpr hother.1, fun j hj hocc => hother.2 j hj ((h j).mp hocc)⟩

/-- The first occurrence is one of the text in front, or the first one behind it. -/
theorem indexOf_append (hpart : part ≠ []) (hocc : OccursAt part after i)
    (hfirst : ∀ j < i, ¬ OccursAt part after j)
    (hfront : ∀ j < before.length, OccursAt part (before ++ after) j →
      j + part.length ≤ before.length) :
    indexOf (before ++ after) part = some ((indexOf before part).getD (before.length + i)) := by
  rw [indexOf_eq_some_iff_first hpart]
  cases hbefore : indexOf before part with
  | none =>
      rw [indexOf_eq_none_iff_forall hpart] at hbefore
      refine ⟨(occursAt_append_right before).mpr hocc, fun j hj hother => ?_⟩
      rcases Nat.lt_or_ge j before.length with hlt | hge
      · exact hbefore j ((occursAt_append_left (hfront j hlt hother)).mp hother)
      · obtain ⟨k, rfl⟩ := Nat.exists_eq_add_of_le hge
        simp only [Option.getD_none] at hj
        exact hfirst k (by omega) ((occursAt_append_right before).mp hother)
  | some k =>
      rw [indexOf_eq_some_iff_first hpart] at hbefore
      have hle := hbefore.1.le_length hpart
      refine ⟨hbefore.1.append hpart after, fun j hj hother => ?_⟩
      simp only [Option.getD_some] at hj
      have hpos := List.length_pos_iff.mpr hpart
      exact hbefore.2 j hj ((occursAt_append_left (hfront j (by omega) hother)).mp hother)

theorem lastIndexOf_eq_none_iff {position : Nat} : lastIndexOf text part position = none ↔
    ∀ i ≤ position, ¬ OccursAt part text i := by
  induction position with
  | zero => simp [lastIndexOf]
  | succ position ih =>
      rw [lastIndexOf]
      split
      · rename_i h
        simp only [reduceCtorEq, false_iff, not_forall, not_not]
        exact ⟨position + 1, Nat.le_refl _, h⟩
      · rename_i h
        rw [ih]
        constructor
        · intro hnone i hi
          rcases Nat.le_succ_iff.mp hi with hi | rfl
          · exact hnone i hi
          · exact h
        · intro hnone i hi
          exact hnone i (Nat.le_succ_of_le hi)

theorem lastIndexOf_eq_some_iff {position : Nat} : lastIndexOf text part position = some i ↔
    i ≤ position ∧ OccursAt part text i ∧
      ∀ j, i < j → j ≤ position → ¬ OccursAt part text j := by
  induction position with
  | zero =>
      rw [lastIndexOf]
      constructor
      · intro h
        split at h
        · rename_i hocc
          obtain rfl := Option.some.inj h
          exact ⟨Nat.le_refl 0, hocc, fun j hj hle => by omega⟩
        · cases h
      · rintro ⟨hi, hocc, -⟩
        obtain rfl := Nat.le_zero.mp hi
        rw [if_pos hocc]
  | succ position ih =>
      rw [lastIndexOf]
      split
      · rename_i hlast
        constructor
        · intro h
          obtain rfl := Option.some.inj h
          exact ⟨Nat.le_refl _, hlast, fun j hj hle => by omega⟩
        · rintro ⟨hi, -, hafter⟩
          rcases Nat.lt_or_ge i (position + 1) with hlt | hge
          · exact absurd hlast (hafter _ hlt (Nat.le_refl _))
          · rw [Nat.le_antisymm hi hge]
      · rename_i hlast
        rw [ih]
        constructor
        · rintro ⟨hi, hocc, hafter⟩
          refine ⟨Nat.le_succ_of_le hi, hocc, fun j hj hle => ?_⟩
          rcases Nat.le_succ_iff.mp hle with hle | rfl
          · exact hafter j hj hle
          · exact hlast
        · rintro ⟨hi, hocc, hafter⟩
          rcases Nat.le_succ_iff.mp hi with hi | rfl
          · exact ⟨hi, hocc, fun j hj hle => hafter j hj (Nat.le_succ_of_le hle)⟩
          · exact absurd hocc hlast

end Search

end AfyxGraph.Core
