import Mathlib.Data.List.Nodup
import Mathlib.Data.List.Perm.Subperm
import Mathlib.Data.Nat.Find

/-! # Distances in a relation

Walks by their number of steps from a set of sources, and the least number that leads somewhere.
A layer of a given distance is what one step leads to from the layer before it, less what is
nearer.
-/

namespace AfyxGraph.Core

universe u

variable {ν : Type u}

/-- A walk of so many steps from one of the sources. -/
inductive Steps (R : ν → ν → Prop) (sources : ν → Prop) : Nat → ν → Prop
  | source {v : ν} (h : sources v) : Steps R sources 0 v
  | step {k : Nat} {u v : ν} (walk : Steps R sources k u) (hop : R u v) :
      Steps R sources (k + 1) v

/-- The least number of steps. -/
def AtDistance (R : ν → ν → Prop) (sources : ν → Prop) (k : Nat) (v : ν) : Prop :=
  Steps R sources k v ∧ ∀ j, Steps R sources j v → k ≤ j

/-- At most so many steps away. -/
def Near (R : ν → ν → Prop) (sources : ν → Prop) (k : Nat) (v : ν) : Prop :=
  ∃ j ≤ k, Steps R sources j v

variable {R : ν → ν → Prop} {sources : ν → Prop} {k j : Nat} {u v : ν}

theorem steps_zero_iff : Steps R sources 0 v ↔ sources v := by
  constructor
  · rintro ⟨h⟩
    exact h
  · exact .source

theorem steps_succ_iff : Steps R sources (k + 1) v ↔ ∃ u, Steps R sources k u ∧ R u v := by
  constructor
  · rintro (_ | ⟨walk, hop⟩)
    exact ⟨_, walk, hop⟩
  · rintro ⟨u, walk, hop⟩
    exact .step walk hop

/-- The same walks in a wider relation from more sources. -/
theorem Steps.mono {S : ν → ν → Prop} {more : ν → Prop} (hstep : ∀ u v, R u v → S u v)
    (hsource : ∀ v, sources v → more v) (h : Steps R sources k v) : Steps S more k v := by
  induction h with
  | source h => exact .source (hsource _ h)
  | step walk hop ih => exact .step ih (hstep _ _ hop)

theorem AtDistance.unique (h : AtDistance R sources k v) (h' : AtDistance R sources j v) : k = j :=
  Nat.le_antisymm (h.2 j h'.1) (h'.2 k h.1)

theorem Steps.exists_distance (h : Steps R sources k v) : ∃ j ≤ k, AtDistance R sources j v := by
  classical
  have hsome : ∃ j, Steps R sources j v := ⟨k, h⟩
  refine ⟨Nat.find hsome, Nat.find_min' hsome h, Nat.find_spec hsome, fun j hj => ?_⟩
  exact Nat.find_min' hsome hj

theorem near_iff : Near R sources k v ↔ ∃ j ≤ k, AtDistance R sources j v := by
  constructor
  · rintro ⟨j, hj, walk⟩
    obtain ⟨i, hi, hdist⟩ := walk.exists_distance
    exact ⟨i, Nat.le_trans hi hj, hdist⟩
  · rintro ⟨j, hj, hdist⟩
    exact ⟨j, hj, hdist.1⟩

theorem Near.mono (h : Near R sources k v) (hle : k ≤ j) : Near R sources j v := by
  obtain ⟨i, hi, walk⟩ := h
  exact ⟨i, Nat.le_trans hi hle, walk⟩

theorem near_zero_iff : Near R sources 0 v ↔ sources v := by
  constructor
  · rintro ⟨j, hj, walk⟩
    obtain rfl := Nat.le_zero.mp hj
    exact steps_zero_iff.mp walk
  · exact fun h => ⟨0, Nat.le_refl 0, .source h⟩

theorem atDistance_zero_iff : AtDistance R sources 0 v ↔ sources v := by
  constructor
  · exact fun h => steps_zero_iff.mp h.1
  · exact fun h => ⟨.source h, fun j _ => Nat.zero_le j⟩

theorem AtDistance.eq_start {start : ν} (h : AtDistance R (· = start) 0 v) : v = start := by
  obtain ⟨heq⟩ := h.1
  exact heq

/-- One step from the layer before leads to everything that is not nearer. -/
theorem atDistance_succ_iff : AtDistance R sources (k + 1) v ↔
    (∃ u, AtDistance R sources k u ∧ R u v) ∧ ¬ Near R sources k v := by
  constructor
  · rintro ⟨walk, hleast⟩
    obtain ⟨u, hu, hop⟩ := steps_succ_iff.mp walk
    refine ⟨⟨u, ⟨hu, fun j hj => ?_⟩, hop⟩, ?_⟩
    · exact Nat.le_of_succ_le_succ (hleast (j + 1) (.step hj hop))
    · rintro ⟨j, hj, hwalk⟩
      have hle := hleast j hwalk
      omega
  · rintro ⟨⟨u, hu, hop⟩, hfar⟩
    refine ⟨.step hu.1 hop, fun j hj => ?_⟩
    have hnot : ¬ j ≤ k := fun hle => hfar ⟨j, hle, hj⟩
    omega

/-- What is near is near before, or one step from the last layer. -/
theorem near_succ_iff : Near R sources (k + 1) v ↔
    Near R sources k v ∨ ∃ u, AtDistance R sources k u ∧ R u v := by
  constructor
  · intro h
    obtain ⟨j, hj, hdist⟩ := near_iff.mp h
    rcases Nat.lt_or_eq_of_le hj with hlt | rfl
    · exact .inl ⟨j, Nat.le_of_lt_succ hlt, hdist.1⟩
    · exact .inr (atDistance_succ_iff.mp hdist).1
  · rintro (h | ⟨u, hu, hop⟩)
    · exact h.mono (Nat.le_succ k)
    · exact ⟨k + 1, Nat.le_refl _, .step hu.1 hop⟩

theorem near_of_steps (h : Steps R sources k v) : Near R sources k v := ⟨k, Nat.le_refl k, h⟩

theorem AtDistance.not_near (h : AtDistance R sources k v) (hlt : j < k) :
    ¬ Near R sources j v := by
  rintro ⟨i, hi, walk⟩
  have hle := h.2 i walk
  omega

/-- A walk to a layer passes through the nearer ones. -/
theorem AtDistance.exists_nearer (h : AtDistance R sources k v) (hle : j ≤ k) :
    ∃ u, AtDistance R sources j u := by
  induction k generalizing v with
  | zero =>
      obtain rfl := Nat.le_zero.mp hle
      exact ⟨v, h⟩
  | succ k ih =>
      rcases Nat.lt_or_eq_of_le hle with hlt | rfl
      · obtain ⟨⟨u, hu, -⟩, -⟩ := atDistance_succ_iff.mp h
        exact ih hu (Nat.le_of_lt_succ hlt)
      · exact ⟨v, h⟩

/-- Beyond an empty layer there is nothing. -/
theorem Steps.near_of_empty (hempty : ∀ u, ¬ AtDistance R sources k u) (h : Steps R sources j v) :
    Near R sources (k - 1) v := by
  obtain ⟨i, -, hdist⟩ := h.exists_distance
  by_cases hle : k ≤ i
  · obtain ⟨u, hu⟩ := hdist.exists_nearer hle
    exact absurd hu (hempty u)
  · exact ⟨i, by omega, hdist.1⟩

/-- A list that has all layers up to one is longer than that. -/
theorem AtDistance.lt_length (h : AtDistance R sources k v) {known : List ν}
    (hall : ∀ u, Near R sources k u → u ∈ known) : k < known.length := by
  have hlayers : ∀ j, ∃ u, j ≤ k → AtDistance R sources j u := by
    intro j
    by_cases hle : j ≤ k
    · obtain ⟨u, hu⟩ := h.exists_nearer hle
      exact ⟨u, fun _ => hu⟩
    · exact ⟨v, fun hle' => absurd hle' hle⟩
  choose f hf using hlayers
  have hle : ∀ {j : Nat}, j ∈ List.range (k + 1) → j ≤ k :=
    fun hj => Nat.le_of_lt_succ (List.mem_range.mp hj)
  have hnodup : ((List.range (k + 1)).map f).Nodup := by
    refine List.Nodup.map_on (fun i hi j hj heq => ?_) List.nodup_range
    exact (hf i (hle hi)).unique (heq ▸ hf j (hle hj))
  have hsub : (List.range (k + 1)).map f ⊆ known := by
    intro u hu
    obtain ⟨j, hj, rfl⟩ := List.mem_map.mp hu
    exact hall _ ⟨j, hle hj, (hf j (hle hj)).1⟩
  have hlength := (List.subperm_of_subset hnodup hsub).length_le
  rw [List.length_map, List.length_range] at hlength
  exact hlength

/-- Between layers a walk does not stay where it is. -/
theorem AtDistance.walk_of_distinct {S : ν → ν → Prop} (hstep : ∀ u v, v ≠ u → R u v → S u v)
    (h : AtDistance R sources k v) : Steps S sources k v := by
  induction k generalizing v with
  | zero => exact .source (atDistance_zero_iff.mp h)
  | succ k ih =>
      obtain ⟨⟨u, hu, hop⟩, hfar⟩ := atDistance_succ_iff.mp h
      refine .step (ih hu) (hstep u v ?_ hop)
      rintro rfl
      exact hfar (near_of_steps hu.1)

/-- Distances do not see the steps that stay where they are. -/
theorem atDistance_iff_of_distinct {S : ν → ν → Prop} (hsub : ∀ u v, S u v → R u v)
    (hstep : ∀ u v, v ≠ u → R u v → S u v) :
    AtDistance S sources k v ↔ AtDistance R sources k v := by
  have hwider : ∀ j, Steps S sources j v → Steps R sources j v :=
    fun j hj => hj.mono hsub fun _ hsource => hsource
  constructor
  · rintro ⟨hwalk, hleast⟩
    refine ⟨hwider k hwalk, fun j hj => ?_⟩
    obtain ⟨i, hi, hdist⟩ := hj.exists_distance
    exact Nat.le_trans (hleast i (hdist.walk_of_distinct hstep)) hi
  · exact fun h => ⟨h.walk_of_distinct hstep, fun j hj => h.2 j (hwider j hj)⟩

/-- A walk from the sources to the targets, walked from both ends. -/
theorem Steps.divide {targets : ν → Prop} {i l : Nat} (h : Steps R sources (i + k) v)
    (back : Steps (fun u v => R v u) targets l v) :
    ∃ u, Steps R sources i u ∧ Steps (fun u v => R v u) targets (k + l) u := by
  induction k generalizing l v with
  | zero => exact ⟨v, h, by rwa [Nat.zero_add]⟩
  | succ k ih =>
      obtain ⟨u, hu, hop⟩ := steps_succ_iff.mp h
      obtain ⟨w, hw, hrest⟩ := ih hu (back.step hop)
      refine ⟨w, hw, ?_⟩
      rwa [Nat.add_right_comm]

end AfyxGraph.Core
