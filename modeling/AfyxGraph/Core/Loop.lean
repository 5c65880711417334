import Mathlib.Data.List.Nodup
import Mathlib.Data.Set.Card
import Mathlib.Algebra.BigOperators.Group.List.Basic

/-! # While loops

A loop body answers the next state or stops. The loop runs it under a bound; with a
measure that every turn decreases the bound is not reached. The second section is the
measure of loops that mark the members of a list one by one.
-/

namespace AfyxGraph.Core

universe u

variable {σ : Type u}

/-- At most `turns` turns of the body. -/
def loop (body : σ → Option σ) : (turns : Nat) → σ → σ
  | 0, s => s
  | turns + 1, s =>
      match body s with
      | none => s
      | some t => loop body turns t

theorem loop_invariant {body : σ → Option σ} {Inv : σ → Prop}
    (keeps : ∀ s t, Inv s → body s = some t → Inv t) (turns : Nat) {s : σ} (hs : Inv s) :
    Inv (loop body turns s) := by
  induction turns generalizing s with
  | zero => exact hs
  | succ turns ih =>
      rw [loop]
      cases h : body s with
      | none => exact hs
      | some t => exact ih (keeps s t hs h)

/-- With enough turns the body has stopped. -/
theorem loop_stops {body : σ → Option σ} {Inv : σ → Prop} {measure : σ → Nat}
    (keeps : ∀ s t, Inv s → body s = some t → Inv t)
    (decreases : ∀ s t, Inv s → body s = some t → measure t < measure s) {turns : Nat} {s : σ}
    (hs : Inv s) (henough : measure s ≤ turns) : body (loop body turns s) = none := by
  induction turns generalizing s with
  | zero =>
      cases h : body s with
      | none => exact h
      | some t =>
          have hlt := decreases s t hs h
          omega
  | succ turns ih =>
      rw [loop]
      cases h : body s with
      | none => exact h
      | some t =>
          have hlt := decreases s t hs h
          exact ih (keeps s t hs h) (by omega)

/-! ## What is not marked yet -/

variable {ν : Type u} [DecidableEq ν]

/-- The weight of what is not marked. -/
def unmarked (weight : ν → Nat) (all marked : List ν) : Nat :=
  ((all.filter (· ∉ marked)).map weight).sum

theorem unmarked_cons (weight : ν → Nat) (v : ν) (all marked : List ν) :
    unmarked weight (v :: all) marked =
      (if v ∈ marked then 0 else weight v) + unmarked weight all marked := by
  by_cases hv : v ∈ marked <;> simp [unmarked, hv]

theorem unmarked_congr (weight : ν → Nat) (all : List ν) {marked others : List ν}
    (h : ∀ v, v ∈ marked ↔ v ∈ others) :
    unmarked weight all marked = unmarked weight all others := by
  have hfilter : all.filter (· ∉ marked) = all.filter (· ∉ others) :=
    List.filter_congr fun v _ => decide_eq_decide.mpr (not_congr (h v))
  rw [unmarked, unmarked, hfilter]

theorem unmarked_le (weight : ν → Nat) (all marked : List ν) :
    unmarked weight all marked ≤ (all.map weight).sum := by
  induction all with
  | nil => exact Nat.zero_le _
  | cons w all ih =>
      rw [unmarked_cons, List.map_cons, List.sum_cons]
      split <;> omega

theorem unmarked_mono (weight : ν → Nat) (all marked : List ν) (v : ν) :
    unmarked weight all (marked ++ [v]) ≤ unmarked weight all marked := by
  induction all with
  | nil => simp [unmarked]
  | cons w all ih =>
      rw [unmarked_cons, unmarked_cons]
      by_cases hw : w ∈ marked
      · simpa [hw] using ih
      · by_cases hwv : w = v
        · simp only [hwv, List.mem_append, List.mem_singleton, or_true, if_true]
          omega
        · simpa [hw, hwv] using ih

/-- Marking a new member takes its weight off. -/
theorem unmarked_mark {weight : ν → Nat} {all marked : List ν} {v : ν} (hall : v ∈ all)
    (hnew : v ∉ marked) :
    unmarked weight all (marked ++ [v]) + weight v ≤ unmarked weight all marked := by
  induction all with
  | nil => simp at hall
  | cons w all ih =>
      rw [unmarked_cons, unmarked_cons]
      by_cases hwv : w = v
      · have hrest := unmarked_mono weight all marked v
        simp only [hwv, List.mem_append, List.mem_singleton, or_true, if_true, hnew, if_false]
        omega
      · have hv : v ∈ all := by simpa [Ne.symm hwv] using hall
        have hrest := ih hv
        simp only [List.mem_append, List.mem_singleton, hwv, or_false]
        omega

/-! ## Marking in order -/

/-- `Set.add` on a set in insertion order. -/
def addNew (marked : List ν) (v : ν) : List ν := if v ∈ marked then marked else marked ++ [v]

@[simp] theorem mem_addNew {marked : List ν} {v w : ν} :
    w ∈ addNew marked v ↔ w ∈ marked ∨ w = v := by
  unfold addNew
  split
  · rename_i hv
    exact ⟨.inl, fun h => h.elim id fun h => h ▸ hv⟩
  · simp

theorem nodup_addNew {marked : List ν} (h : marked.Nodup) (v : ν) : (addNew marked v).Nodup := by
  unfold addNew
  split
  · exact h
  · rename_i hv
    refine List.nodup_append.mpr ⟨h, List.nodup_singleton v, fun a ha b hb => ?_⟩
    rw [List.mem_singleton.mp hb]
    rintro rfl
    exact hv ha

/-! ## Sets by lists -/

/-- A finite set by a list of its elements. -/
theorem ncard_eq_length {vs : List ν} (hnodup : vs.Nodup) {P : ν → Prop}
    (hmem : ∀ v, v ∈ vs ↔ P v) : {v | P v}.ncard = vs.length := by
  have hset : {v | P v} = ↑vs.toFinset := by
    ext v
    rw [Set.mem_ofPred_eq, ← hmem, Finset.mem_coe, List.mem_toFinset]
  rw [hset, Set.ncard_coe_finset, List.toFinset_card_of_nodup hnodup]

/-- A list that has all elements of a set is as long only if it has no others. -/
theorem length_eq_ncard_iff {vs : List ν} (hnodup : vs.Nodup) {P : ν → Prop}
    (hsub : ∀ v, P v → v ∈ vs) : vs.length = {v | P v}.ncard ↔ ∀ v ∈ vs, P v := by
  have hlength : {v | v ∈ vs}.ncard = vs.length := ncard_eq_length hnodup fun _ => Iff.rfl
  constructor
  · intro heq
    have hset : {v | P v} = {v | v ∈ vs} := Set.eq_of_subset_of_ncard_le
      (fun v hv => hsub v hv) (Nat.le_of_eq (hlength.trans heq)) (List.finite_toSet vs)
    intro v hv
    have hmem : v ∈ {v | v ∈ vs} := hv
    rw [← hset] at hmem
    exact hmem
  · intro hall
    exact (ncard_eq_length hnodup fun v => ⟨hall v, hsub v⟩).symm

end AfyxGraph.Core
