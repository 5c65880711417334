import AfyxGraph.Core.Entries

/-! # Counts by key

A tally as entries in the order in which the keys were first counted. Counting by parts
and adding up the parts is counting the whole.
-/

namespace AfyxGraph.Core

universe u

variable {κ : Type u} [DecidableEq κ]

abbrev Counts (κ : Type u) := List (κ × Nat)

namespace Counts

/-- `counts[key] = (counts[key] || 0) + n` -/
def add (counts : Counts κ) (key : κ) (n : Nat) : Counts κ :=
  setEntry counts key ((counts.lookup key).getD 0 + n)

def merge (counts more : Counts κ) : Counts κ :=
  more.foldl (fun counts entry => counts.add entry.1 entry.2) counts

theorem add_add (counts : Counts κ) (key : κ) (n k : Nat) :
    (counts.add key n).add key k = counts.add key (n + k) := by
  unfold add
  rw [lookup_setEntry_self, setEntry_setEntry, Option.getD_some, Nat.add_assoc]

/-- A key that was counted already is counted to the same effect before or after another. -/
theorem add_comm {counts : Counts κ} {key : κ} (hkey : key ∈ counts.map Prod.fst) (other : κ)
    (n k : Nat) : (counts.add key n).add other k = (counts.add other k).add key n := by
  by_cases hne : other = key
  · subst hne
    rw [add_add, add_add, Nat.add_comm]
  · unfold add
    rw [lookup_setEntry_ne _ _ hne, lookup_setEntry_ne _ _ (Ne.symm hne),
      setEntry_comm _ _ hne hkey]

theorem mem_keys_add (counts : Counts κ) (key other : κ) (n : Nat) :
    other ∈ (counts.add key n).map Prod.fst ↔ other = key ∨ other ∈ counts.map Prod.fst :=
  mem_keys_setEntry _ _ _ _

@[simp] theorem merge_nil (counts : Counts κ) : counts.merge [] = counts := rfl

theorem merge_cons (counts : Counts κ) (entry : κ × Nat) (more : Counts κ) :
    counts.merge (entry :: more) = (counts.add entry.1 entry.2).merge more := rfl

theorem merge_add_left {counts : Counts κ} {key : κ} (hkey : key ∈ counts.map Prod.fst) (n : Nat)
    (more : Counts κ) : (counts.add key n).merge more = (counts.merge more).add key n := by
  induction more generalizing counts with
  | nil => rfl
  | cons entry more ih =>
      rw [merge_cons, merge_cons, add_comm hkey, ih]
      rw [mem_keys_add]
      exact Or.inr hkey

/-- To count one more in a part is to count one more in the sum. -/
theorem merge_add (counts more : Counts κ) (key : κ) (n : Nat) :
    counts.merge (more.add key n) = (counts.merge more).add key n := by
  induction more generalizing counts with
  | nil => simp [add, merge]
  | cons entry more ih =>
      obtain ⟨other, k⟩ := entry
      by_cases h : other = key
      · subst h
        have hhead : add ((other, k) :: more) other n = (other, k + n) :: more := by
          simp [add, setEntry_cons_self]
        have hkey : other ∈ (counts.add other k).map Prod.fst := by
          rw [mem_keys_add]
          exact Or.inl rfl
        rw [hhead, merge_cons, merge_cons, ← add_add, merge_add_left hkey]
      · have hbeq : (key == other) = false := beq_eq_false_iff_ne.mpr (Ne.symm h)
        have htail : add ((other, k) :: more) key n = (other, k) :: add more key n := by
          simp [add, setEntry_cons_ne _ _ _ h, List.lookup_cons, hbeq]
        rw [htail, merge_cons, merge_cons, ih]

end Counts

end AfyxGraph.Core
