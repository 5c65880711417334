import Mathlib.Data.List.Basic
import Mathlib.Data.List.Pairwise
import Mathlib.Logic.Relation

/-! # Components of a relation

Two nodes are in one component when each leads to the other. A depth-first search keeps the nodes
whose components are not closed on a stack, in the order they were met, and among them the path it
is inside of. Where nothing above a node of the path leads below it, the node and what is above it
are a component.
-/

namespace AfyxGraph.Core

universe u

variable {ν : Type u} (R : ν → ν → Prop)

def SameComponent (u v : ν) : Prop :=
  Relation.ReflTransGen R u v ∧ Relation.ReflTransGen R v u

/-- The nodes are the whole of a component. -/
def IsComponent (nodes : List ν) : Prop := ∃ v, ∀ w, w ∈ nodes ↔ SameComponent R v w

/-- The stack and the path have their latest node first. -/
structure OpenStack (rank : ν → Nat) (path stack : List ν) (closed : ν → Prop) : Prop where
  ordered : stack.Pairwise fun u v => rank v < rank u
  rising : path.Pairwise fun u v => rank v < rank u
  onStack : ∀ x ∈ path, x ∈ stack
  /-- A node of the path leads to all that was met after it. -/
  leads : ∀ x ∈ path, ∀ y ∈ stack, rank x ≤ rank y → Relation.ReflTransGen R x y
  /-- Every open node leads back to the path. -/
  back : ∀ y ∈ stack, ∃ x ∈ path, rank x ≤ rank y ∧ Relation.ReflTransGen R y x
  apart : ∀ v ∈ stack, ¬ closed v
  stays : ∀ u v, closed u → R u v → closed v
  met : ∀ u ∈ stack, u ∉ path → ∀ v, R u v → v ∈ stack ∨ closed v

variable {R} {rank : ν → Nat} {path stack above below : List ν} {closed : ν → Prop} {id : ν}

theorem SameComponent.refl (v : ν) : SameComponent R v v :=
  ⟨Relation.ReflTransGen.refl, Relation.ReflTransGen.refl⟩

theorem SameComponent.symm {u v : ν} (h : SameComponent R u v) : SameComponent R v u := ⟨h.2, h.1⟩

theorem SameComponent.trans {u v w : ν} (h : SameComponent R u v) (h' : SameComponent R v w) :
    SameComponent R u w := ⟨h.1.trans h'.1, h'.2.trans h.2⟩

namespace OpenStack

theorem closed_of_reach (h : OpenStack R rank path stack closed) {u v : ν} (hu : closed u)
    (hreach : Relation.ReflTransGen R u v) : closed v := by
  induction hreach with
  | refl => exact hu
  | tail _ hop ih => exact h.stays _ _ ih hop

theorem nodup (h : OpenStack R rank path stack closed) : stack.Nodup := by
  refine List.Pairwise.imp ?_ h.ordered
  rintro u _ hlt rfl
  exact Nat.lt_irrefl _ hlt

/-- Only the ranks on the stack matter. -/
theorem congr {rank' : ν → Nat} {closed' : ν → Prop} (h : OpenStack R rank path stack closed)
    (hrank : ∀ v ∈ stack, rank' v = rank v) (hclosed : ∀ v, closed' v ↔ closed v) :
    OpenStack R rank' path stack closed' where
  ordered := h.ordered.imp_of_mem fun hu hv hlt => by rwa [hrank _ hu, hrank _ hv]
  rising := h.rising.imp_of_mem fun hu hv hlt => by
    rwa [hrank _ (h.onStack _ hu), hrank _ (h.onStack _ hv)]
  onStack := h.onStack
  leads := fun x hx y hy hle => h.leads x hx y hy (by
    rwa [hrank x (h.onStack x hx), hrank y hy] at hle)
  back := by
    intro y hy
    obtain ⟨x, hx, hle, hreach⟩ := h.back y hy
    exact ⟨x, hx, by rwa [hrank x (h.onStack x hx), hrank y hy], hreach⟩
  apart := fun v hv hclosed' => h.apart v hv ((hclosed v).mp hclosed')
  stays := fun u v hu hop => (hclosed v).mpr (h.stays u v ((hclosed u).mp hu) hop)
  met := fun u hu hpath v hop => (h.met u hu hpath v hop).imp_right (hclosed v).mpr

/-- The search enters a node that its path leads to. -/
theorem push (h : OpenStack R rank path stack closed) (hnew : ¬ closed id)
    (hlater : ∀ v ∈ stack, rank v < rank id)
    (hlead : ∀ x ∈ path, Relation.ReflTransGen R x id) :
    OpenStack R rank (id :: path) (id :: stack) closed where
  ordered := List.pairwise_cons.mpr ⟨hlater, h.ordered⟩
  rising := List.pairwise_cons.mpr ⟨fun x hx => hlater x (h.onStack x hx), h.rising⟩
  onStack := by
    intro x hx
    rcases List.mem_cons.mp hx with rfl | hx
    · exact List.mem_cons_self
    · exact List.mem_cons_of_mem id (h.onStack x hx)
  leads := by
    intro x hx y hy hle
    rcases List.mem_cons.mp hx with rfl | hpath
    · rcases List.mem_cons.mp hy with rfl | hstack
      · exact Relation.ReflTransGen.refl
      · exact absurd (hlater y hstack) (Nat.not_lt.mpr hle)
    · rcases List.mem_cons.mp hy with rfl | hstack
      · exact hlead x hpath
      · exact h.leads x hpath y hstack hle
  back := by
    intro y hy
    rcases List.mem_cons.mp hy with rfl | hy
    · exact ⟨y, List.mem_cons_self, Nat.le_refl _, Relation.ReflTransGen.refl⟩
    · obtain ⟨x, hx, hle, hreach⟩ := h.back y hy
      exact ⟨x, List.mem_cons_of_mem id hx, hle, hreach⟩
  apart := by
    intro v hv
    rcases List.mem_cons.mp hv with rfl | hv
    · exact hnew
    · exact h.apart v hv
  stays := h.stays
  met := by
    intro u hu hpath v hop
    rw [List.mem_cons, not_or] at hpath
    rcases List.mem_cons.mp hu with rfl | hu
    · exact absurd rfl hpath.1
    · exact (h.met u hu hpath.2 v hop).imp_left (List.mem_cons_of_mem id)

/-- The search leaves a node that leads to an earlier open one. -/
theorem leave (h : OpenStack R rank (id :: path) stack closed)
    (hmet : ∀ v, R id v → v ∈ stack ∨ closed v) {z : ν} (hz : z ∈ stack)
    (hearlier : rank z < rank id) (hreach : Relation.ReflTransGen R id z) :
    OpenStack R rank path stack closed where
  ordered := h.ordered
  rising := (List.pairwise_cons.mp h.rising).2
  onStack := fun x hx => h.onStack x (List.mem_cons_of_mem id hx)
  leads := fun x hx => h.leads x (List.mem_cons_of_mem id hx)
  back := by
    intro y hy
    obtain ⟨x, hx, hle, hback⟩ := h.back y hy
    rcases List.mem_cons.mp hx with rfl | hx
    · -- Back to the node that is left, and on through `z` to what is still on the path.
      obtain ⟨x', hx', hle', hback'⟩ := h.back z hz
      rcases List.mem_cons.mp hx' with rfl | hx'
      · omega
      · exact ⟨x', hx', by omega, (hback.trans hreach).trans hback'⟩
    · exact ⟨x, hx, hle, hback⟩
  apart := h.apart
  stays := h.stays
  met := by
    intro u hu hpath v hop
    by_cases hid : u = id
    · exact hmet v (hid ▸ hop)
    · exact h.met u hu (by rw [List.mem_cons, not_or]; exact ⟨hid, hpath⟩) v hop

variable (hmet : ∀ v, R id v → v ∈ above ++ id :: below ∨ closed v)
  (hnone : ∀ u ∈ above ++ [id], ∀ v ∈ below, ¬ R u v)

theorem mem_parts (v : ν) : v ∈ above ++ id :: below ↔ v ∈ above ++ [id] ∨ v ∈ below := by
  simp only [List.mem_append, List.mem_cons, List.not_mem_nil, or_false]
  exact (or_assoc).symm

include hmet hnone

/-- What leads out of the top of the stack is closed. -/
theorem stays_top (h : OpenStack R rank (id :: path) (above ++ id :: below) closed) {u v : ν}
    (hu : u ∈ above ++ [id] ∨ closed u) (hop : R u v) : v ∈ above ++ [id] ∨ closed v := by
  rcases hu with hu | hu
  · have hseen : v ∈ above ++ id :: below ∨ closed v := by
      by_cases hid : u = id
      · exact hmet v (hid ▸ hop)
      · refine h.met u ((mem_parts u).mpr (Or.inl hu)) ?_ v hop
        intro hpath
        have hearlier := (List.pairwise_cons.mp h.rising).1 u
          ((List.mem_cons.mp hpath).resolve_left hid)
        have hmem : u ∈ above := by
          simpa [hid] using hu
        have hlater := (List.pairwise_append.mp h.ordered).2.2 u hmem id List.mem_cons_self
        omega
    rcases hseen with hseen | hseen
    · refine ((mem_parts v).mp hseen).imp_right fun hbelow => ?_
      exact absurd hop (hnone u hu v hbelow)
    · exact Or.inr hseen
  · exact Or.inr (h.stays u v hu hop)

/-- The top of the stack is a component where nothing leads below it. -/
theorem isComponent (h : OpenStack R rank (id :: path) (above ++ id :: below) closed) :
    ∀ w, w ∈ above ++ [id] ↔ SameComponent R id w := by
  have hid : id ∈ above ++ id :: below := by simp
  have hlater : ∀ w ∈ above ++ [id], rank id ≤ rank w := by
    intro w hw
    rcases List.mem_append.mp hw with hw | hw
    · exact Nat.le_of_lt ((List.pairwise_append.mp h.ordered).2.2 w hw id List.mem_cons_self)
    · exact Nat.le_of_eq (congrArg rank (List.mem_singleton.mp hw).symm)
  intro w
  constructor
  · intro hw
    have hmem : w ∈ above ++ id :: below := (mem_parts w).mpr (Or.inl hw)
    refine ⟨h.leads id List.mem_cons_self w hmem (hlater w hw), ?_⟩
    obtain ⟨x, hx, -, hback⟩ := h.back w hmem
    rcases List.mem_cons.mp hx with rfl | hx'
    · exact hback
    · have hearlier := (List.pairwise_cons.mp h.rising).1 x hx'
      exact hback.trans (h.leads x hx id hid (Nat.le_of_lt hearlier))
  · rintro ⟨hto, hback⟩
    have hreach : w ∈ above ++ [id] ∨ closed w := by
      clear hback
      induction hto with
      | refl => exact Or.inl (by simp)
      | tail _ hop ih => exact h.stays_top hmet hnone ih hop
    refine hreach.resolve_right fun hclosed => ?_
    exact h.apart id hid (h.closed_of_reach hclosed hback)

/-- The component is taken off the stack and closed. -/
theorem pop (h : OpenStack R rank (id :: path) (above ++ id :: below) closed) :
    OpenStack R rank path below fun v => v ∈ above ++ [id] ∨ closed v where
  ordered := (List.pairwise_cons.mp (List.pairwise_append.mp h.ordered).2.1).2
  rising := (List.pairwise_cons.mp h.rising).2
  onStack := by
    intro x hx
    have hearlier := (List.pairwise_cons.mp h.rising).1 x hx
    rcases (mem_parts x).mp (h.onStack x (List.mem_cons_of_mem id hx)) with hmem | hmem
    · rcases List.mem_append.mp hmem with hmem | hmem
      · have hlater := (List.pairwise_append.mp h.ordered).2.2 x hmem id List.mem_cons_self
        omega
      · rw [List.mem_singleton.mp hmem] at hearlier
        omega
    · exact hmem
  leads := fun x hx y hy =>
    h.leads x (List.mem_cons_of_mem id hx) y ((mem_parts y).mpr (Or.inr hy))
  back := by
    intro y hy
    have hearlier := (List.pairwise_cons.mp (List.pairwise_append.mp h.ordered).2.1).1 y hy
    obtain ⟨x, hx, hle, hback⟩ := h.back y ((mem_parts y).mpr (Or.inr hy))
    rcases List.mem_cons.mp hx with rfl | hx
    · omega
    · exact ⟨x, hx, hle, hback⟩
  apart := by
    rintro v hv (hmem | hclosed)
    · have hearlier := (List.pairwise_cons.mp (List.pairwise_append.mp h.ordered).2.1).1 v hv
      rcases List.mem_append.mp hmem with hmem | hmem
      · have hlater := (List.pairwise_append.mp h.ordered).2.2 v hmem id List.mem_cons_self
        omega
      · rw [List.mem_singleton.mp hmem] at hearlier
        omega
    · exact h.apart v ((mem_parts v).mpr (Or.inr hv)) hclosed
  stays := fun u v hu hop => h.stays_top hmet hnone hu hop
  met := by
    intro u hu hpath v hop
    have hearlier := (List.pairwise_cons.mp (List.pairwise_append.mp h.ordered).2.1).1 u hu
    have hne : u ≠ id := by
      rintro rfl
      exact Nat.lt_irrefl _ hearlier
    rcases h.met u ((mem_parts u).mpr (Or.inr hu)) (by simp [hne, hpath]) v hop with hmem | hclosed
    · exact ((mem_parts v).mp hmem).symm.imp_right Or.inl
    · exact Or.inr (Or.inr hclosed)

end OpenStack

end AfyxGraph.Core
