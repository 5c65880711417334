import AfyxGraph.Core.Distance
import Mathlib.Data.ENat.Basic
import Mathlib.Data.List.Nodup

/-! # Breadth first

A queue of nodes with their depths: the head is expanded, and what it leads to that has not been
queued before is queued one level deeper. Every depth is then the distance from the start, and
when the queue is used up it has held what is within the limit.
-/

namespace AfyxGraph.Core

universe u

variable {ν : Type u}

namespace Breadth

variable (R : ν → ν → Prop) (start : ν) (limit : ℕ∞)

/-- `done` are the nodes that have been expanded, `pending` the ones in the queue. -/
structure Inv (done pending : List (ν × Nat)) : Prop where
  once : ((done ++ pending).map Prod.fst).Nodup
  root : (start, 0) ∈ done ++ pending
  distance : ∀ x ∈ done ++ pending, AtDistance R (· = start) x.2 x.1
  within : ∀ x ∈ done ++ pending, (x.2 : ℕ∞) ≤ limit
  ordered : (done ++ pending).Pairwise fun x y => x.2 ≤ y.2
  close : ∀ x ∈ pending.head?, ∀ y ∈ pending, y.2 ≤ x.2 + 1
  closed : ∀ x ∈ done, (x.2 : ℕ∞) < limit → ∀ w, R x.1 w →
    w ∈ (done ++ pending).map Prod.fst

variable {R start limit} {done pending fresh : List (ν × Nat)}

theorem inv_init (R : ν → ν → Prop) (start : ν) (limit : ℕ∞) :
    Inv R start limit [] [(start, 0)] where
  once := List.nodup_singleton _
  root := List.mem_singleton_self _
  distance x hx := by
    obtain rfl := List.mem_singleton.mp hx
    exact atDistance_zero_iff.mpr rfl
  within x hx := by
    obtain rfl := List.mem_singleton.mp hx
    exact zero_le
  ordered := List.pairwise_singleton _ _
  close x hx y hy := by
    obtain rfl := List.mem_singleton.mp hy
    exact Nat.zero_le _
  closed x hx := absurd hx List.not_mem_nil

/-- Everything that is no farther than the head has been queued. -/
theorem Inv.mem_of_near {v w : ν} {d : Nat} {rest : List (ν × Nat)}
    (h : Inv R start limit done ((v, d) :: rest)) (hw : Near R (· = start) d w) :
    w ∈ (done ++ (v, d) :: rest).map Prod.fst := by
  obtain ⟨j, hj, hdist⟩ := near_iff.mp hw
  induction j generalizing w with
  | zero =>
      obtain rfl := hdist.eq_start
      exact List.mem_map_of_mem h.root
  | succ j ih =>
      obtain ⟨⟨u, hu, hop⟩, -⟩ := atDistance_succ_iff.mp hdist
      have hmem := ih ⟨j, by omega, hu.1⟩ (by omega) hu
      obtain ⟨⟨u', e⟩, hentry, rfl⟩ := List.mem_map.mp hmem
      obtain rfl : e = j := (h.distance _ hentry).unique hu
      rcases List.mem_append.mp hentry with hdone | hpending
      · have hlt : ((e : Nat) : ℕ∞) < limit := by
          have hd := h.within (v, d) (List.mem_append_right _ (List.mem_cons_self ..))
          exact lt_of_lt_of_le (Nat.cast_lt.mpr hj) hd
        exact h.closed _ hdone hlt w hop
      · -- what is in the queue is as far as the head
        have hle : d ≤ e := by
          rcases List.mem_cons.mp hpending with heq | hrest
          · exact Nat.le_of_eq (Prod.mk.inj heq).2.symm
          · have hordered := (List.pairwise_append.mp h.ordered).2.1
            exact (List.pairwise_cons.mp hordered).1 _ hrest
        omega

/-- The head is expanded. -/
theorem Inv.expand {v : ν} {d : Nat} {rest : List (ν × Nat)} {fresh : List ν}
    (h : Inv R start limit done ((v, d) :: rest)) (hnodup : fresh.Nodup)
    (hsound : ∀ w ∈ fresh, (d : ℕ∞) < limit ∧ R v w ∧ w ∉ (done ++ (v, d) :: rest).map Prod.fst)
    (hcomplete : (d : ℕ∞) < limit → ∀ w, R v w →
      w ∈ (done ++ (v, d) :: rest).map Prod.fst ∨ w ∈ fresh) :
    Inv R start limit (done ++ [(v, d)]) (rest ++ fresh.map (·, d + 1)) := by
  have hsplit : done ++ [(v, d)] ++ (rest ++ fresh.map (·, d + 1)) =
      (done ++ (v, d) :: rest) ++ fresh.map (·, d + 1) := by simp
  have hkeys : ((done ++ [(v, d)] ++ (rest ++ fresh.map (·, d + 1))).map Prod.fst) =
      (done ++ (v, d) :: rest).map Prod.fst ++ fresh := by
    rw [hsplit, List.map_append, List.map_map]
    simp [Function.comp_def]
  have hhead : (v, d) ∈ done ++ (v, d) :: rest := List.mem_append_right _ (List.mem_cons_self ..)
  have hdepth : ∀ x ∈ done ++ (v, d) :: rest, x.2 ≤ d + 1 := by
    intro x hx
    rcases List.mem_append.mp hx with hx | hx
    · have hle := (List.pairwise_append.mp h.ordered).2.2 x hx (v, d) (List.mem_cons_self ..)
      exact Nat.le_succ_of_le hle
    · exact h.close (v, d) rfl x hx
  constructor
  · rw [hkeys, List.nodup_append]
    refine ⟨h.once, hnodup, fun a ha b hb heq => ?_⟩
    exact (hsound b hb).2.2 (heq ▸ ha)
  · rw [hsplit]
    exact List.mem_append_left _ h.root
  · rw [hsplit]
    intro x hx
    rcases List.mem_append.mp hx with hx | hx
    · exact h.distance x hx
    · obtain ⟨w, hw, rfl⟩ := List.mem_map.mp hx
      obtain ⟨-, hop, hnew⟩ := hsound w hw
      refine atDistance_succ_iff.mpr ⟨⟨v, h.distance _ hhead, hop⟩, fun hnear => ?_⟩
      exact hnew (h.mem_of_near hnear)
  · rw [hsplit]
    intro x hx
    rcases List.mem_append.mp hx with hx | hx
    · exact h.within x hx
    · obtain ⟨w, hw, rfl⟩ := List.mem_map.mp hx
      show ((d + 1 : Nat) : ℕ∞) ≤ limit
      rw [Nat.cast_add, Nat.cast_one]
      exact Order.add_one_le_of_lt (hsound w hw).1
  · rw [hsplit, List.pairwise_append]
    refine ⟨h.ordered, ?_, fun x hx y hy => ?_⟩
    · rw [List.pairwise_map]
      exact List.pairwise_of_forall fun _ _ => Nat.le_refl _
    · obtain ⟨w, -, rfl⟩ := List.mem_map.mp hy
      exact hdepth x hx
  · intro x hx y hy
    have hx' : d ≤ x.2 := by
      have hmem := List.mem_of_head? hx
      rcases List.mem_append.mp hmem with hmem | hmem
      · have hordered := (List.pairwise_append.mp h.ordered).2.1
        exact (List.pairwise_cons.mp hordered).1 x hmem
      · obtain ⟨w, -, rfl⟩ := List.mem_map.mp hmem
        exact Nat.le_succ d
    have hy' : y.2 ≤ d + 1 := by
      rcases List.mem_append.mp hy with hy | hy
      · exact hdepth y (List.mem_append_right _ (List.mem_cons_of_mem _ hy))
      · obtain ⟨w, -, rfl⟩ := List.mem_map.mp hy
        exact Nat.le_refl _
    omega
  · rw [hkeys]
    intro x hx hopen w hop
    rw [List.mem_append]
    rcases List.mem_append.mp hx with hx | hx
    · exact .inl (h.closed x hx hopen w hop)
    · obtain rfl := List.mem_singleton.mp hx
      exact hcomplete hopen w hop

/-- Nodes that lead nowhere are expanded to nothing. -/
theorem Inv.skip {front rest : List (ν × Nat)} (h : Inv R start limit done (front ++ rest))
    (hstuck : ∀ x ∈ front, ∀ w, ¬ R x.1 w) : Inv R start limit (done ++ front) rest := by
  induction front generalizing done with
  | nil => simpa using h
  | cons x front ih =>
      have hexpand : Inv R start limit (done ++ [x]) (front ++ rest) := by
        have hnone := h.expand List.nodup_nil (fun w hw => absurd hw List.not_mem_nil)
          (fun _ w hop => absurd hop (hstuck x (List.mem_cons_self ..) w))
        simpa using hnone
      have hall := ih hexpand fun y hy => hstuck y (List.mem_cons_of_mem _ hy)
      simpa using hall

/-- When the queue is used up, it has held what is within the limit. -/
theorem Inv.complete (h : Inv R start limit done []) {w : ν} {k : Nat} :
    (w, k) ∈ done ↔ (k : ℕ∞) ≤ limit ∧ AtDistance R (· = start) k w := by
  have happend : done ++ [] = done := List.append_nil done
  constructor
  · intro hw
    have hmem : (w, k) ∈ done ++ [] := by simpa using hw
    exact ⟨h.within _ hmem, h.distance _ hmem⟩
  · rintro ⟨hlimit, hdist⟩
    have hkey : w ∈ done.map Prod.fst := by
      induction k generalizing w with
      | zero =>
          obtain rfl := hdist.eq_start
          exact List.mem_map_of_mem (happend ▸ h.root)
      | succ k ih =>
          obtain ⟨⟨u, hu, hop⟩, -⟩ := atDistance_succ_iff.mp hdist
          have hlt : (k : ℕ∞) < limit :=
            lt_of_lt_of_le (Nat.cast_lt.mpr (Nat.lt_succ_self k)) hlimit
          obtain ⟨⟨u', e⟩, hentry, rfl⟩ := List.mem_map.mp (ih (le_of_lt hlt) hu)
          obtain rfl : e = k := (h.distance _ (happend.symm ▸ hentry)).unique hu
          have hclosed := h.closed _ hentry hlt w hop
          rwa [happend] at hclosed
    obtain ⟨⟨w', e⟩, hentry, rfl⟩ := List.mem_map.mp hkey
    obtain rfl : e = k := (h.distance _ (happend.symm ▸ hentry)).unique hdist
    exact hentry

/-! ## A line with a head

The queue as one list that grows at its end, and the place of the next node to be expanded.
-/

variable {α : Type*} {key : α → ν × Nat} {queue new : List α} {head : Nat} {x : α}

variable (R start limit key) in
def Line (queue : List α) (head : Nat) : Prop :=
  Inv R start limit ((queue.take head).map key) ((queue.drop head).map key)

theorem Line.once (h : Line R start limit key queue head) :
    (queue.map fun a => (key a).1).Nodup := by
  have honce := Inv.once h
  rw [← List.map_append, List.take_append_drop, List.map_map] at honce
  exact honce

theorem Line.distance (h : Line R start limit key queue head) :
    ∀ a ∈ queue, AtDistance R (· = start) (key a).2 (key a).1 := by
  intro a ha
  apply Inv.distance h
  rw [← List.map_append, List.take_append_drop]
  exact List.mem_map_of_mem ha

theorem Line.within (h : Line R start limit key queue head) :
    ∀ a ∈ queue, ((key a).2 : ℕ∞) ≤ limit := by
  intro a ha
  apply Inv.within h
  rw [← List.map_append, List.take_append_drop]
  exact List.mem_map_of_mem ha

/-- The node at the head is expanded. -/
theorem Line.advance (h : Line R start limit key queue head) (hx : queue[head]? = some x)
    (hnodup : (new.map fun a => (key a).1).Nodup) (hdepth : ∀ a ∈ new, (key a).2 = (key x).2 + 1)
    (hsound : ∀ a ∈ new, ((key x).2 : ℕ∞) < limit ∧ R (key x).1 (key a).1 ∧
      (key a).1 ∉ queue.map fun a => (key a).1)
    (hcomplete : ((key x).2 : ℕ∞) < limit → ∀ w, R (key x).1 w →
      w ∈ (queue ++ new).map fun a => (key a).1) :
    Line R start limit key (queue ++ new) (head + 1) := by
  obtain ⟨hhead, rfl⟩ := List.getElem?_eq_some_iff.mp hx
  have hkeys : ((queue.take head).map key ++ (queue.drop head).map key).map Prod.fst =
      queue.map fun a => (key a).1 := by
    rw [← List.map_append, List.take_append_drop, List.map_map]
    rfl
  have hinv : Inv R start limit ((queue.take head).map key)
      (((key queue[head]).1, (key queue[head]).2) :: (queue.drop (head + 1)).map key) := by
    have hdrop : queue.drop head = queue[head] :: queue.drop (head + 1) :=
      List.drop_eq_getElem_cons hhead
    have hmap := h
    rw [Line, hdrop, List.map_cons] at hmap
    exact hmap
  have hkeys' : ((queue.take head).map key ++ ((key queue[head]).1, (key queue[head]).2) ::
      (queue.drop (head + 1)).map key).map Prod.fst = queue.map fun a => (key a).1 := by
    rw [← hkeys, List.drop_eq_getElem_cons hhead, List.map_cons]
  have hnew : (new.map fun a => (key a).1).map (·, (key queue[head]).2 + 1) = new.map key := by
    rw [List.map_map]
    exact List.map_congr_left fun a ha => Prod.ext rfl (hdepth a ha).symm
  have hexpand := hinv.expand hnodup
    (fun w hw => by
      obtain ⟨a, ha, rfl⟩ := List.mem_map.mp hw
      rw [hkeys']
      exact hsound a ha)
    (fun hopen w hop => by
      rw [hkeys']
      have hmem := hcomplete hopen w hop
      rwa [List.map_append, List.mem_append] at hmem)
  rw [hnew] at hexpand
  rw [Line, List.take_append_of_le_length hhead, List.drop_append_of_le_length hhead,
    List.take_add_one, List.getElem?_eq_getElem hhead, List.map_append, List.map_append]
  exact hexpand

/-- Behind the end of the line everything within the limit has been in it. -/
theorem Line.complete (h : Line R start limit key queue head) (hend : queue.length ≤ head) {w : ν}
    {k : Nat} : (w, k) ∈ queue.map key ↔ (k : ℕ∞) ≤ limit ∧ AtDistance R (· = start) k w := by
  have hdone := h
  rw [Line, List.take_of_length_le hend, List.drop_eq_nil_of_le hend] at hdone
  exact Inv.complete hdone

end Breadth

end AfyxGraph.Core
