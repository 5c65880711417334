import AfyxGraph.Core.Distance
import Mathlib.Logic.Relation
import Mathlib.Order.Bounds.Basic

/-! # Longest paths

A number for each node is the length of the longest path that ends at it when it is the length of
some path and rises along every link. Raising numbers link by link gets there: after so many
passes every path of that length is accounted for.
-/

namespace AfyxGraph.Core.LongestPath

universe u

variable {ν : Type u} (R : ν → ν → Prop)

/-- A path of so many links ends at the node. -/
def EndsAfter (k : Nat) (v : ν) : Prop := Steps R (fun _ => True) k v

def Acyclic : Prop := ∀ v, ¬ Relation.TransGen R v v

/-- Every number is the length of some path. -/
def Supported (depth : ν → Nat) : Prop := ∀ v, EndsAfter R (depth v) v

/-- No link is left that would raise a number. -/
def Settled (depth : ν → Nat) : Prop := ∀ u v, R u v → depth u < depth v

/-- The numbers account for all paths up to a length. -/
def Covers (passes : Nat) (depth : ν → Nat) : Prop :=
  ∀ k ≤ passes, ∀ v, EndsAfter R k v → k ≤ depth v

variable {R} {depth depth' : ν → Nat} {passes k : Nat} {v : ν}

theorem Settled.le_of_endsAfter (h : Settled R depth) (hpath : EndsAfter R k v) : k ≤ depth v := by
  induction hpath with
  | source => exact Nat.zero_le _
  | step walk hop ih =>
      have hlt := h _ _ hop
      omega

theorem isGreatest_of_settled (hsupported : Supported R depth) (hsettled : Settled R depth)
    (v : ν) : IsGreatest {k | EndsAfter R k v} (depth v) :=
  ⟨hsupported v, fun _ hpath => hsettled.le_of_endsAfter hpath⟩

theorem Settled.lt_of_transGen (h : Settled R depth) {u v : ν} (hpath : Relation.TransGen R u v) :
    depth u < depth v := by
  induction hpath with
  | single hop => exact h _ _ hop
  | tail _ hop ih => exact Nat.lt_trans ih (h _ _ hop)

theorem Settled.acyclic (h : Settled R depth) : Acyclic R :=
  fun v hcycle => Nat.lt_irrefl (depth v) (h.lt_of_transGen hcycle)

/-- The nodes of a path are distinct when there is no cycle. -/
theorem EndsAfter.exists_nodup (hacyclic : Acyclic R) (hpath : EndsAfter R k v) :
    ∃ path : List ν, path.length = k + 1 ∧ path.Nodup ∧
      ∀ u ∈ path, Relation.ReflTransGen R u v ∧ (u = v ∨ ∃ w, R u w) := by
  induction hpath with
  | source =>
      rename_i v _
      refine ⟨[v], rfl, List.nodup_singleton v, fun u hu => ?_⟩
      obtain rfl := List.mem_singleton.mp hu
      exact ⟨Relation.ReflTransGen.refl, Or.inl rfl⟩
  | step walk hop ih =>
      rename_i u w
      obtain ⟨path, hlength, hnodup, hreach⟩ := ih
      refine ⟨w :: path, by rw [List.length_cons, hlength], List.nodup_cons.mpr ⟨?_, hnodup⟩, ?_⟩
      · intro hmem
        exact hacyclic w (Relation.TransGen.tail' (hreach w hmem).1 hop)
      · intro x hx
        rcases List.mem_cons.mp hx with rfl | hx
        · exact ⟨Relation.ReflTransGen.refl, Or.inl rfl⟩
        · obtain ⟨hto, hnext⟩ := hreach x hx
          refine ⟨hto.tail hop, Or.inr ?_⟩
          rcases hnext with rfl | hnext
          · exact ⟨w, hop⟩
          · exact hnext

theorem EndsAfter.lt_length (hacyclic : Acyclic R) {nodes : List ν}
    (hnodes : ∀ u w, R u w → u ∈ nodes) (hv : v ∈ nodes) (hpath : EndsAfter R k v) :
    k < nodes.length := by
  obtain ⟨path, hlength, hnodup, hreach⟩ := hpath.exists_nodup hacyclic
  have hsubset : path ⊆ nodes := by
    intro u hu
    rcases (hreach u hu).2 with rfl | ⟨w, hw⟩
    · exact hv
    · exact hnodes u w hw
  have hle := (hnodup.subperm hsubset).length_le
  omega

/-- Without cycles going back from node to node comes to an end. -/
theorem Acyclic.not_of_pred (hacyclic : Acyclic R) {nodes : List ν}
    (hnodes : ∀ u w, R u w → u ∈ nodes) {S : ν → Prop}
    (hS : ∀ v, S v → v ∈ nodes ∧ ∃ u, S u ∧ R u v) (v : ν) : ¬ S v := by
  intro hv
  have hlong : ∀ k v, S v → EndsAfter R k v := by
    intro k
    induction k with
    | zero => exact fun v _ => Steps.source trivial
    | succ k ih =>
        intro v hv
        obtain ⟨-, u, hu, hop⟩ := hS v hv
        exact Steps.step (ih u hu) hop
  exact Nat.lt_irrefl _ ((hlong nodes.length v hv).lt_length hacyclic hnodes (hS v hv).1)

/-! ## Passes -/

theorem covers_zero (R : ν → ν → Prop) (depth : ν → Nat) : Covers R 0 depth :=
  fun k hk v _ => Nat.le_trans hk (Nat.zero_le (depth v))

theorem Covers.pass (h : Covers R passes depth) (hlinks : ∀ u v, R u v → depth u < depth' v) :
    Covers R (passes + 1) depth' := by
  intro k hk v hpath
  cases hpath with
  | source => exact Nat.zero_le _
  | step walk hop =>
      rename_i j u
      have hle := h j (by omega) u walk
      have hlt := hlinks u v hop
      omega

/-- When all paths are accounted for, nothing is left to raise. -/
theorem Covers.settled (h : Covers R passes depth) (hsupported : Supported R depth)
    (hshort : ∀ k v, EndsAfter R (k + 1) v → k + 1 ≤ passes) : Settled R depth := by
  intro u v hop
  have hpath : EndsAfter R (depth u + 1) v := Steps.step (hsupported u) hop
  exact h _ (hshort _ v hpath) v hpath

theorem supported_zero (R : ν → ν → Prop) : Supported R fun _ => 0 :=
  fun _ => Steps.source trivial

/-- Raising one number along a link keeps every number the length of a path. -/
theorem Supported.update [DecidableEq ν] (h : Supported R depth) {u v : ν} (hop : R u v) :
    Supported R (Function.update depth v (depth u + 1)) := by
  intro w
  by_cases hw : w = v
  · subst hw
    rw [Function.update_self]
    exact Steps.step (h u) hop
  · rw [Function.update_of_ne hw]
    exact h w

end AfyxGraph.Core.LongestPath
