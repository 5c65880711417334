import Mathlib.Data.List.Perm.Basic
import Mathlib.Data.List.Nodup

/-! # Taking one member out of a list

A list whose keys are distinct splits into the member with a key and the members without
it. A table from keys to values is such a list, with the key first.
-/

namespace AfyxGraph.Core

universe u v

variable {α : Type u} {κ : Type v} [DecidableEq κ] (key : α → κ)

theorem filter_ne_of_not_mem {l : List α} {k : κ} (h : k ∉ l.map key) :
    l.filter (key · ≠ k) = l := by
  apply List.filter_eq_self.mpr
  intro a ha
  simp only [ne_eq, decide_not, Bool.not_eq_eq_eq_not, Bool.not_true, decide_eq_false_iff_not]
  intro hk
  exact h (hk ▸ List.mem_map_of_mem ha)

/-- The member with the key, and the rest. -/
theorem perm_cons_filter_ne {l : List α} (hkeys : (l.map key).Nodup) {a : α} (ha : a ∈ l) :
    l.Perm (a :: l.filter (key · ≠ key a)) := by
  induction l with
  | nil => simp at ha
  | cons b l ih =>
      rw [List.map_cons, List.nodup_cons] at hkeys
      by_cases hb : key b = key a
      · rw [List.filter_cons_of_neg (by simp [hb]),
          filter_ne_of_not_mem key (hb ▸ hkeys.1)]
        rcases List.mem_cons.mp ha with rfl | ha
        · exact List.Perm.refl _
        · exact absurd (hb ▸ List.mem_map_of_mem ha) hkeys.1
      · rw [List.filter_cons_of_pos (by simp [hb])]
        have ha : a ∈ l := by
          rcases List.mem_cons.mp ha with rfl | ha
          · exact absurd rfl hb
          · exact ha
        exact ((ih hkeys.2 ha).cons b).trans (List.Perm.swap a b _)

/-- One more member passes. -/
theorem length_filter_insert {l : List κ} (hl : l.Nodup) {x : κ} (hx : x ∈ l) {p q : κ → Bool}
    (hq : ∀ u ∈ l, q u = true ↔ u = x ∨ p u = true) (hp : p x = false) :
    (l.filter q).length = (l.filter p).length + 1 := by
  have hmem : x ∈ l.filter q := List.mem_filter.mpr ⟨hx, (hq x hx).mpr (Or.inl rfl)⟩
  have hkeys : ((l.filter q).map id).Nodup := by
    rw [List.map_id]
    exact hl.filter q
  have hrest : (l.filter q).filter (id · ≠ id x) = l.filter p := by
    rw [List.filter_filter]
    refine List.filter_congr fun u hu => ?_
    rw [Bool.eq_iff_iff, Bool.and_eq_true, decide_eq_true_eq, hq u hu]
    constructor
    · rintro ⟨hne, heq | hpu⟩
      · exact absurd heq hne
      · exact hpu
    · intro hpu
      refine ⟨fun heq => ?_, Or.inr hpu⟩
      rw [show u = x from heq, hp] at hpu
      cases hpu
  rw [(perm_cons_filter_ne id hkeys hmem).length_eq, List.length_cons, hrest]

/-! ## Tables -/

section Tables

variable {ι : Type v} [BEq ι] [LawfulBEq ι] {ν : Type u} {l : List (ι × ν)} {k : ι} {v : ν}

theorem mem_of_lookup (h : l.lookup k = some v) : (k, v) ∈ l := by
  obtain ⟨before, after, rfl, _⟩ := List.lookup_eq_some_iff.mp h
  simp

theorem lookup_of_mem (hkeys : (l.map Prod.fst).Nodup) (h : (k, v) ∈ l) :
    l.lookup k = some v := by
  cases hlookup : l.lookup k with
  | none =>
      have := List.lookup_eq_none_iff.mp hlookup (k, v) h
      simp at this
  | some other =>
      have hsame := List.inj_on_of_nodup_map hkeys (mem_of_lookup hlookup) h rfl
      exact congrArg some (congrArg Prod.snd hsame)

theorem not_mem_keys_of_lookup (h : l.lookup k = none) : k ∉ l.map Prod.fst := by
  intro hk
  obtain ⟨entry, hentry, rfl⟩ := List.mem_map.mp hk
  have := List.lookup_eq_none_iff.mp h entry hentry
  simp at this

end Tables

theorem perm_of_lookup {ν : Type u} {l : List (κ × ν)} {k : κ} {v : ν}
    (hkeys : (l.map Prod.fst).Nodup) (h : l.lookup k = some v) :
    l.Perm ((k, v) :: l.filter (·.1 ≠ k)) :=
  perm_cons_filter_ne Prod.fst hkeys (mem_of_lookup h)

end AfyxGraph.Core
