import Mathlib.Data.List.Dedup
import Mathlib.Data.List.Infix
import Mathlib.Data.List.Nodup
import Mathlib.Data.List.Perm.Subperm

/-! # The first few distinct items

Items are collected in order, each once, until there are as many as the limit.
-/

namespace AfyxGraph.Core

universe u

variable {α : Type u} [DecidableEq α] {limit : Nat} {found items : List α} {x : α}

def collectDistinct (limit : Nat) : (found items : List α) → List α
  | found, [] => found
  | found, item :: items =>
      if limit ≤ found.length then found
      else if item ∈ found then collectDistinct limit found items
      else collectDistinct limit (found ++ [item]) items

theorem collectDistinct_of_full (h : limit ≤ found.length) (items : List α) :
    collectDistinct limit found items = found := by
  cases items with
  | nil => rfl
  | cons item items => rw [collectDistinct, if_pos h]

theorem collectDistinct_append (limit : Nat) (found items more : List α) :
    collectDistinct limit found (items ++ more) =
      collectDistinct limit (collectDistinct limit found items) more := by
  induction items generalizing found with
  | nil => rfl
  | cons item items ih =>
      by_cases hfull : limit ≤ found.length
      · rw [collectDistinct_of_full hfull, collectDistinct_of_full hfull,
          collectDistinct_of_full hfull]
      · rw [List.cons_append, collectDistinct, collectDistinct, if_neg hfull, if_neg hfull]
        split
        · exact ih found
        · exact ih _

theorem prefix_collectDistinct (limit : Nat) (found items : List α) :
    found <+: collectDistinct limit found items := by
  induction items generalizing found with
  | nil => exact List.prefix_refl _
  | cons item items ih =>
      unfold collectDistinct
      split
      · exact List.prefix_refl _
      · split
        · exact ih found
        · exact (List.prefix_append _ _).trans (ih _)

theorem mem_of_mem_collectDistinct (h : x ∈ collectDistinct limit found items) :
    x ∈ found ∨ x ∈ items := by
  induction items generalizing found with
  | nil => exact .inl h
  | cons item items ih =>
      unfold collectDistinct at h
      split at h
      · exact .inl h
      · split at h
        · exact (ih h).imp_right (List.mem_cons_of_mem _)
        · rcases ih h with hfound | hitems
          · rcases List.mem_append.mp hfound with hfound | hitem
            · exact .inl hfound
            · rw [List.mem_singleton.mp hitem]
              exact .inr List.mem_cons_self
          · exact .inr (List.mem_cons_of_mem _ hitems)

theorem nodup_collectDistinct (h : found.Nodup) : (collectDistinct limit found items).Nodup := by
  induction items generalizing found with
  | nil => exact h
  | cons item items ih =>
      unfold collectDistinct
      split
      · exact h
      · split
        · exact ih h
        · next hnew =>
            refine ih (List.nodup_append.mpr ⟨h, by simp, fun other hother last hlast => ?_⟩)
            rw [List.mem_singleton.mp hlast]
            rintro rfl
            exact hnew hother

theorem length_collectDistinct_le (h : found.length ≤ limit) :
    (collectDistinct limit found items).length ≤ limit := by
  induction items generalizing found with
  | nil => exact h
  | cons item items ih =>
      unfold collectDistinct
      split
      · exact h
      · split
        · exact ih h
        · refine ih ?_
          rw [List.length_append, List.length_singleton]
          omega

/-- An item that is not collected came when the limit was reached. -/
theorem mem_collectDistinct_or_full (h : x ∈ items) :
    x ∈ collectDistinct limit found items ∨ limit ≤ (collectDistinct limit found items).length := by
  induction items generalizing found with
  | nil => cases h
  | cons item items ih =>
      by_cases hfull : limit ≤ found.length
      · rw [collectDistinct_of_full hfull]
        exact .inr hfull
      · rw [collectDistinct, if_neg hfull]
        rcases List.mem_cons.mp h with rfl | h
        · refine .inl ?_
          split
          · next hfound => exact (prefix_collectDistinct _ _ _).subset hfound
          · exact (prefix_collectDistinct _ _ _).subset (by simp)
        · split
          · exact ih h
          · exact ih h

/-- The limit is reached exactly if there are as many distinct items. -/
theorem collectDistinct_full_iff :
    limit ≤ (collectDistinct limit [] items).length ↔ limit ≤ items.dedup.length := by
  constructor
  · intro hfull
    have hsub : collectDistinct limit [] items ⊆ items.dedup := fun x hx =>
      List.mem_dedup.mpr ((mem_of_mem_collectDistinct hx).resolve_left List.not_mem_nil)
    have hlength := (List.subperm_of_subset (nodup_collectDistinct List.nodup_nil) hsub).length_le
    exact Nat.le_trans hfull hlength
  · intro hmany
    by_contra hroom
    have hsub : items.dedup ⊆ collectDistinct limit [] items := fun x hx =>
      (mem_collectDistinct_or_full (List.mem_dedup.mp hx)).resolve_right hroom
    have hlength := (List.subperm_of_subset (List.nodup_dedup items) hsub).length_le
    omega

end AfyxGraph.Core
