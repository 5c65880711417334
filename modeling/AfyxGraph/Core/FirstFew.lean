import Mathlib.Data.List.Nodup

/-! # The first few in order

A listing that goes through its keys in order and stops after so many answers. Whether a key is
reached depends on how many of the keys before it answer.
-/

namespace AfyxGraph.Core

universe u v

variable {κ : Type u} {α : Type v} {read : κ → Option α} {limit : Nat} {keys : List κ}
  {key : κ} {x : α}

/-! ## Answers in a row -/

theorem mem_take_filterMap : x ∈ (keys.filterMap read).take limit ↔
    ∃ before key after, keys = before ++ key :: after ∧ read key = some x ∧
      (before.filterMap read).length < limit := by
  induction keys generalizing limit with
  | nil => simp
  | cons first keys ih =>
      have hrest : ∀ {n m : Nat}, (∀ before : List κ, (before.filterMap read).length < n ↔
          ((first :: before).filterMap read).length < m) →
          (x ∈ (keys.filterMap read).take n ↔ ∃ before key after,
            first :: keys = (first :: before) ++ key :: after ∧ read key = some x ∧
              ((first :: before).filterMap read).length < m) := by
        intro n m hcount
        simp only [ih, List.cons_append, List.cons.injEq, true_and, hcount]
      cases hfirst : read first with
      | none =>
          rw [List.filterMap_cons_none hfirst, hrest (n := limit) (m := limit) fun before => by
            rw [List.filterMap_cons_none hfirst]]
          constructor
          · rintro ⟨before, key, after, heq, hkey, hcount⟩
            exact ⟨first :: before, key, after, heq, hkey, hcount⟩
          · rintro ⟨before, key, after, heq, hkey, hcount⟩
            cases before with
            | nil =>
                obtain ⟨rfl, -⟩ := List.cons.inj heq
                rw [hfirst] at hkey
                cases hkey
            | cons other before =>
                obtain ⟨rfl, -⟩ := List.cons.inj heq
                exact ⟨before, key, after, heq, hkey, hcount⟩
      | some y =>
          rw [List.filterMap_cons_some hfirst]
          cases limit with
          | zero => simp
          | succ n =>
              rw [List.take_succ_cons, List.mem_cons, hrest (n := n) (m := n + 1) fun before => by
                rw [List.filterMap_cons_some hfirst, List.length_cons, Nat.succ_lt_succ_iff]]
              constructor
              · rintro (rfl | ⟨before, key, after, heq, hkey, hcount⟩)
                · exact ⟨[], first, keys, rfl, hfirst, Nat.succ_pos n⟩
                · exact ⟨first :: before, key, after, heq, hkey, hcount⟩
              · rintro ⟨before, key, after, heq, hkey, hcount⟩
                cases before with
                | nil =>
                    obtain ⟨rfl, -⟩ := List.cons.inj heq
                    rw [hfirst, Option.some.injEq] at hkey
                    exact .inl hkey.symm
                | cons other before =>
                    obtain ⟨rfl, -⟩ := List.cons.inj heq
                    exact .inr ⟨before, key, after, heq, hkey, hcount⟩

/-! ## Answers in order -/

section Order

variable [LE κ] [DecidableLE κ]

def inOrder (keys : List κ) : List κ := keys.mergeSort fun a b => a ≤ b

def firstFew (limit : Nat) (read : κ → Option α) (keys : List κ) : List α :=
  ((inOrder keys).filterMap read).take limit

theorem inOrder_perm (keys : List κ) : (inOrder keys).Perm keys := List.mergeSort_perm keys _

variable [Std.IsLinearOrder κ]

theorem pairwise_inOrder (keys : List κ) : (inOrder keys).Pairwise (· ≤ ·) := by
  have hsorted := @List.pairwise_mergeSort κ (fun a b => decide (a ≤ b))
    (fun a b c hab hbc => by
      rw [decide_eq_true_eq] at hab hbc ⊢
      exact Std.le_trans hab hbc)
    (fun a b => by
      rw [Bool.or_eq_true, decide_eq_true_eq, decide_eq_true_eq]
      exact Std.le_total) keys
  exact hsorted.imp of_decide_eq_true

variable [LT κ] [DecidableLT κ] [Std.LawfulOrderLT κ]

/-- What stands before a key in order are the keys below it. -/
theorem before_perm_filter (hnodup : keys.Nodup) {before after : List κ}
    (h : inOrder keys = before ++ key :: after) : before.Perm (keys.filter (· < key)) := by
  have hperm := inOrder_perm keys
  rw [h] at hperm
  have hsorted := pairwise_inOrder keys
  rw [h] at hsorted
  have hdistinct : (before ++ key :: after).Nodup := hperm.nodup_iff.mpr hnodup
  have hbelow : ∀ other ∈ before, other < key := by
    intro other hother
    have hle := (List.pairwise_append.mp hsorted).2.2 other hother key (List.mem_cons_self ..)
    have hne : other ≠ key := by
      rintro rfl
      exact (List.nodup_append.mp hdistinct).2.2 other hother other (List.mem_cons_self ..) rfl
    exact Std.lt_of_le_of_ne hle hne
  have habove : ∀ other ∈ key :: after, ¬ other < key := by
    intro other hother
    rcases List.mem_cons.mp hother with rfl | hother
    · exact Std.lt_irrefl
    · have hle := (List.pairwise_cons.mp (List.pairwise_append.mp hsorted).2.1).1 other hother
      exact fun hlt => Std.not_le_of_gt hlt hle
  have hfilter := hperm.filter (· < key)
  rw [List.filter_append, List.filter_eq_self.mpr (by simpa using hbelow),
    List.filter_eq_nil_iff.mpr (by simpa using habove), List.append_nil] at hfilter
  exact hfilter

/-- An answer is among the first few when not too many of the keys below its key answer. -/
theorem mem_firstFew (hnodup : keys.Nodup) : x ∈ firstFew limit read keys ↔
    ∃ key ∈ keys, read key = some x ∧
      ((keys.filter (· < key)).filterMap read).length < limit := by
  rw [firstFew, mem_take_filterMap]
  constructor
  · rintro ⟨before, key, after, heq, hkey, hcount⟩
    have hmem : key ∈ inOrder keys := by simp [heq]
    refine ⟨key, (inOrder_perm keys).mem_iff.mp hmem, hkey, ?_⟩
    rwa [← ((before_perm_filter hnodup heq).filterMap read).length_eq]
  · rintro ⟨key, hmem, hkey, hcount⟩
    obtain ⟨before, after, heq⟩ := List.append_of_mem ((inOrder_perm keys).mem_iff.mpr hmem)
    refine ⟨before, key, after, heq, hkey, ?_⟩
    rwa [((before_perm_filter hnodup heq).filterMap read).length_eq]

end Order

end AfyxGraph.Core
