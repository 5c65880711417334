import AfyxGraph.Core.Distance

/-! # Distances from seeds

Sources that start at numbers of their own: a walk ends at the number of its seed and one more for
every step. The least number of a node is that of a shortest walk from one of the seeds, so it is
bounded by the largest seed and the number of nodes.
-/

namespace AfyxGraph.Core

universe u

variable {ν : Type u}

/-- A walk from a seed. -/
inductive Seeded (R : ν → ν → Prop) (seeds : List (ν × Nat)) : Nat → ν → Prop
  | seed {v : ν} {d : Nat} (h : (v, d) ∈ seeds) : Seeded R seeds d v
  | step {k : Nat} {u v : ν} (walk : Seeded R seeds k u) (hop : R u v) : Seeded R seeds (k + 1) v

/-- The least number a walk from a seed ends at. -/
def LeastSeeded (R : ν → ν → Prop) (seeds : List (ν × Nat)) (k : Nat) (v : ν) : Prop :=
  Seeded R seeds k v ∧ ∀ j, Seeded R seeds j v → k ≤ j

variable {R : ν → ν → Prop} {seeds : List (ν × Nat)} {k j : Nat} {u v : ν}

theorem seeded_iff_steps : Seeded R seeds k v ↔
    ∃ s d l, (s, d) ∈ seeds ∧ Steps R (· = s) l v ∧ k = d + l := by
  constructor
  · intro h
    induction h with
    | seed h => exact ⟨_, _, 0, h, .source rfl, rfl⟩
    | step _ hop ih =>
        obtain ⟨s, d, l, hs, hwalk, rfl⟩ := ih
        exact ⟨s, d, l + 1, hs, .step hwalk hop, rfl⟩
  · rintro ⟨s, d, l, hs, hwalk, rfl⟩
    induction hwalk with
    | source h =>
        subst h
        exact .seed hs
    | step _ hop ih => exact .step ih hop

theorem LeastSeeded.unique (h : LeastSeeded R seeds k v) (h' : LeastSeeded R seeds j v) : k = j :=
  Nat.le_antisymm (h.2 j h'.1) (h'.2 k h.1)

theorem Seeded.exists_least (h : Seeded R seeds k v) : ∃ j ≤ k, LeastSeeded R seeds j v := by
  classical
  have hsome : ∃ j, Seeded R seeds j v := ⟨k, h⟩
  exact ⟨Nat.find hsome, Nat.find_min' hsome h, Nat.find_spec hsome,
    fun j hj => Nat.find_min' hsome hj⟩

/-- A least number is that of a seed, or one more than that of a node before. -/
theorem LeastSeeded.cases_last (h : LeastSeeded R seeds k v) :
    (v, k) ∈ seeds ∨ ∃ j u, k = j + 1 ∧ LeastSeeded R seeds j u ∧ R u v := by
  obtain ⟨hwalk, hleast⟩ := h
  cases hwalk with
  | seed h => exact Or.inl h
  | step walk hop =>
      rename_i j u
      refine Or.inr ⟨j, u, rfl, ⟨walk, fun i hi => ?_⟩, hop⟩
      have hle := hleast (i + 1) (.step hi hop)
      omega

/-- From one seed at zero, least numbers are distances. -/
theorem leastSeeded_single_iff {s : ν} : LeastSeeded R [(s, 0)] k v ↔ AtDistance R (· = s) k v := by
  have hiff : ∀ j, Seeded R [(s, 0)] j v ↔ Steps R (· = s) j v := by
    intro j
    rw [seeded_iff_steps]
    constructor
    · rintro ⟨t, d, l, ht, hwalk, rfl⟩
      obtain ⟨rfl, rfl⟩ := Prod.mk.inj (List.mem_singleton.mp ht)
      rwa [Nat.zero_add]
    · exact fun hwalk => ⟨s, 0, j, List.mem_singleton_self _, hwalk, (Nat.zero_add j).symm⟩
  simp only [LeastSeeded, AtDistance, hiff]

/-- No least number is larger than the largest seed and the number of nodes. -/
theorem LeastSeeded.lt_add (h : LeastSeeded R seeds k v) {top : Nat} {nodes : List ν}
    (htop : ∀ s d, (s, d) ∈ seeds → s ∈ nodes ∧ d ≤ top) (hnodes : ∀ u w, R u w → w ∈ nodes) :
    k < top + nodes.length := by
  obtain ⟨s, d, l, hs, hwalk, rfl⟩ := seeded_iff_steps.mp h.1
  have hdistance : AtDistance R (· = s) l v := by
    refine ⟨hwalk, fun j hj => ?_⟩
    have hle := h.2 (d + j) (seeded_iff_steps.mpr ⟨s, d, j, hs, hj, rfl⟩)
    omega
  have hlt : l < nodes.length := by
    refine hdistance.lt_length fun u hu => ?_
    obtain ⟨j, -, hu⟩ := hu
    cases hu with
    | source h => exact h ▸ (htop s d hs).1
    | step _ hop => exact hnodes _ _ hop
  have hle := (htop s d hs).2
  omega

end AfyxGraph.Core
