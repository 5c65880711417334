import AfyxGraph.Core.Entries
import AfyxGraph.Core.Places
import Mathlib.Data.List.Induction
import Mathlib.Data.List.Perm.Subperm

/-! # Groups and cuts

A listing grouped by a key, with the groups and their members in the order in which they were
met. And a listing put in the order of a rank and cut after so many: what is kept is bounded, and
those of high rank are all kept exactly if there are not too many of them.
-/

namespace AfyxGraph.Core

universe u v w

/-! ## Groups -/

section Group

variable {α : Type u} {κ : Type v} {ι : Type w} [DecidableEq κ] [BEq κ]
  {key : α → κ} {value : α → ι}
  {items : List α} {k : κ} {members : List ι}

/-- Adds a member to its group, or starts the group with it. -/
def addMember (groups : List (κ × List ι)) (k : κ) (member : ι) : List (κ × List ι) :=
  setEntry groups k ((groups.lookup k).getD [] ++ [member])

def groupBy (key : α → κ) (value : α → ι) (items : List α) : List (κ × List ι) :=
  items.foldl (fun groups item => addMember groups (key item) (value item)) []

theorem groupBy_append_one (items : List α) (item : α) :
    groupBy key value (items ++ [item]) =
      addMember (groupBy key value items) (key item) (value item) := by
  rw [groupBy, List.foldl_append]
  rfl

theorem nodup_keys_groupBy (key : α → κ) (value : α → ι) (items : List α) :
    ((groupBy key value items).map Prod.fst).Nodup := by
  induction items using List.reverseRecOn with
  | nil => exact List.nodup_nil
  | append_singleton items item ih =>
      rw [groupBy_append_one]
      exact nodup_keys_setEntry ih _ _

variable [LawfulBEq κ]

/-- A key's group holds its members in order, and no group is empty. -/
theorem lookup_groupBy (key : α → κ) (value : α → ι) (items : List α) (k : κ) :
    (groupBy key value items).lookup k =
      if k ∈ items.map key then some ((items.filter (key · = k)).map value) else none := by
  induction items using List.reverseRecOn with
  | nil => simp [groupBy]
  | append_singleton items item ih =>
      rw [groupBy_append_one, addMember]
      by_cases hk : k = key item
      · subst hk
        rw [lookup_setEntry_self, ih]
        by_cases hmem : key item ∈ items.map key
        · rw [if_pos hmem, if_pos (by simp)]
          simp
        · have hnone : items.filter (key · = key item) = [] := by
            refine List.filter_eq_nil_iff.mpr fun other hother => ?_
            have hne : key other ≠ key item := fun heq => hmem (heq ▸ List.mem_map_of_mem hother)
            simpa using hne
          rw [if_neg hmem, if_pos (by simp), List.filter_append, hnone]
          simp
      · have hne : key item ≠ k := Ne.symm hk
        rw [lookup_setEntry_ne _ _ hk, ih]
        simp [hk, hne, List.filter_append]

theorem mem_groupBy : (k, members) ∈ groupBy key value items ↔
    k ∈ items.map key ∧ members = (items.filter (key · = k)).map value := by
  have hlookup := lookup_groupBy key value items k
  constructor
  · intro hmem
    rw [lookup_of_mem (nodup_keys_groupBy key value items) hmem] at hlookup
    by_cases hk : k ∈ items.map key
    · rw [if_pos hk] at hlookup
      exact ⟨hk, Option.some.inj hlookup⟩
    · rw [if_neg hk] at hlookup
      cases hlookup
  · rintro ⟨hk, rfl⟩
    rw [if_pos hk] at hlookup
    exact mem_of_lookup hlookup

end Group

/-! ## Cuts -/

section Cut

variable {α : Type u} {items : List α} {limit : Nat}

/-- The highest rank first, and equals in order. -/
def byRank (rank : α → Nat) (items : List α) : List α :=
  items.mergeSort fun a b => rank b ≤ rank a

variable {rank : α → Nat}

theorem byRank_perm (rank : α → Nat) (items : List α) : (byRank rank items).Perm items :=
  List.mergeSort_perm _ _

theorem byRank_pairwise (rank : α → Nat) (items : List α) :
    (byRank rank items).Pairwise fun a b => rank b ≤ rank a := by
  have htrans : ∀ a b c, decide (rank b ≤ rank a) = true → decide (rank c ≤ rank b) = true →
      decide (rank c ≤ rank a) = true := by
    intro a b c hab hbc
    simp only [decide_eq_true_eq] at *
    omega
  have htotal : ∀ a b, (decide (rank b ≤ rank a) || decide (rank a ≤ rank b)) = true := by
    intro a b
    simp only [Bool.or_eq_true, decide_eq_true_eq]
    omega
  have hsorted := List.pairwise_mergeSort htrans htotal items
  exact hsorted.imp fun h => by simpa using h

/-- What a cut after `limit` takes away. -/
def beyond (rank : α → Nat) (limit : Nat) (items : List α) : List α :=
  (byRank rank items).drop limit

theorem mem_of_mem_beyond {x : α} (h : x ∈ beyond rank limit items) : x ∈ items :=
  (byRank_perm rank items).mem_iff.mp (List.mem_of_mem_drop h)

variable [DecidableEq α]

/-- Taking out what lies beyond the limit leaves what comes before it. -/
theorem filter_not_mem_drop (h : items.Nodup) (limit : Nat) :
    items.filter (· ∉ items.drop limit) = items.take limit := by
  have hsplit := List.take_append_drop limit items
  have hdisjoint : ∀ x ∈ items.take limit, x ∉ items.drop limit := by
    rw [← hsplit] at h
    exact fun x hx hx' => (List.nodup_append.mp h).2.2 x hx x hx' rfl
  conv_lhs =>
    arg 2
    rw [← hsplit]
  rw [List.filter_append, List.filter_eq_self.mpr fun x hx => by simpa using hdisjoint x hx,
    List.filter_eq_nil_iff.mpr fun x hx => by simpa using hx, List.append_nil]

theorem filter_not_mem_beyond_perm (rank : α → Nat) (limit : Nat) (h : items.Nodup) :
    (items.filter (· ∉ beyond rank limit items)).Perm ((byRank rank items).take limit) := by
  have hperm := byRank_perm rank items
  rw [← filter_not_mem_drop (hperm.nodup_iff.mpr h)]
  exact (hperm.filter _).symm

theorem length_filter_not_mem_beyond (h : items.Nodup) :
    (items.filter (· ∉ beyond rank limit items)).length ≤ limit := by
  rw [(filter_not_mem_beyond_perm rank limit h).length_eq]
  exact List.length_take_le _ _

/-- Items that outrank all others are kept exactly if they fit in the limit. -/
theorem forall_not_mem_beyond_iff {p : α → Prop} [DecidablePred p] (h : items.Nodup)
    (hrank : ∀ a b, p a → ¬ p b → rank b < rank a) :
    (∀ x ∈ items, p x → x ∉ beyond rank limit items) ↔ (items.filter (p ·)).length ≤ limit := by
  have hkept := filter_not_mem_beyond_perm rank limit h
  constructor
  · intro hall
    have hsub : items.filter (p ·) ⊆ items.filter (· ∉ beyond rank limit items) := by
      intro x hx
      obtain ⟨hx, hp⟩ := List.mem_filter.mp hx
      exact List.mem_filter.mpr ⟨hx, by simpa using hall x hx (by simpa using hp)⟩
    have hle := (List.subperm_of_subset (h.filter _) hsub).length_le
    exact Nat.le_trans hle (length_filter_not_mem_beyond h)
  · intro hcount x hx hp hbeyond
    have hlong : limit < (byRank rank items).length := by
      by_contra hshort
      rw [beyond, List.drop_eq_nil_of_le (by omega)] at hbeyond
      cases hbeyond
    -- All that come before `x` rank as high, so there is one too many of them.
    have hbefore : ∀ y ∈ (byRank rank items).take limit, p y := by
      intro y hy
      by_contra hnot
      have hsorted := byRank_pairwise rank items
      rw [← List.take_append_drop limit (byRank rank items)] at hsorted
      have hle := (List.pairwise_append.mp hsorted).2.2 y hy x hbeyond
      exact absurd (hrank x y hp hnot) (by omega)
    have hnodup : (x :: (byRank rank items).take limit).Nodup := by
      refine List.nodup_cons.mpr ⟨fun hmem => ?_, ?_⟩
      · exact absurd hbeyond (by simpa using (List.mem_filter.mp (hkept.mem_iff.mpr hmem)).2)
      · exact hkept.nodup_iff.mp (h.filter _)
    have hsub : x :: (byRank rank items).take limit ⊆ items.filter (p ·) := by
      intro y hy
      rcases List.mem_cons.mp hy with rfl | hy
      · exact List.mem_filter.mpr ⟨hx, by simpa using hp⟩
      · have hitem := (byRank_perm rank items).mem_iff.mp (List.mem_of_mem_take hy)
        exact List.mem_filter.mpr ⟨hitem, by simpa using hbefore y hy⟩
    have hlength := (List.subperm_of_subset hnodup hsub).length_le
    rw [List.length_cons, List.length_take] at hlength
    omega

end Cut

end AfyxGraph.Core
