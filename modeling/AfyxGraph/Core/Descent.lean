import Mathlib.Data.List.Nodup
import Mathlib.Data.List.Lex

/-! # Depth-limited descent

A pre-order descent over a weighted graph with ordered hops: a node is met once, by
the first hop in descent order that leads to it, and it is expanded if the cost of
its trail is below the limit. Trails are compared by the positions of their hops, so
what the descent meets is described without running it: every trail is the least
extension of another trail. A node the limit allows can still be lost, behind a node
whose leading trail is longer than it need be.
-/

namespace AfyxGraph.Core

universe u

/-- A step of a weighted graph. -/
structure Hop (ν : Type u) where
  target : ν
  cost : Nat

/-- The positions of the hops taken from the start, and their cost. -/
structure Trail where
  positions : List Nat
  cost : Nat
  deriving DecidableEq, Repr

def Trail.empty : Trail := ⟨[], 0⟩

def Trail.extend (t : Trail) (position cost : Nat) : Trail :=
  ⟨t.positions ++ [position], t.cost + cost⟩

namespace Descent

variable {ν : Type u}

/-! ## What the limit allows -/

/-- A walk with its cost; a node is left only while the cost is below the limit. -/
inductive Within (hops : ν → List (Hop ν)) (limit : Nat) (start : ν) : Nat → ν → Prop
  | start : Within hops limit start 0 start
  | hop {c : Nat} {v : ν} {h : Hop ν} (walk : Within hops limit start c v) (room : c < limit)
      (mem : h ∈ hops v) : Within hops limit start (c + h.cost) h.target

variable (hops : ν → List (Hop ν)) (limit : Nat) (start : ν)

/-! ## Leading trails -/

/-- Where a node's hops lead, with the trails that get there through it. -/
def arrivals (v : ν) (t : Trail) : List (ν × Trail) :=
  if t.cost < limit then
    (hops v).zipIdx.map fun (h, position) => (h.target, t.extend position h.cost)
  else []

/-- Every node that has a trail has the least one, in descent order, that extends the
trail of a node by one hop. -/
structure Leading (lead : ν → Option Trail) : Prop where
  root : lead start = some Trail.empty
  parent : ∀ v t, v ≠ start → lead v = some t →
    ∃ u r, lead u = some r ∧ (v, t) ∈ arrivals hops limit u r
  least : ∀ u r v t, lead u = some r → (v, t) ∈ arrivals hops limit u r →
    ∃ s, lead v = some s ∧ s.positions ≤ t.positions

/-- Behind a node that is met at the limit, though it lies within it, nothing is lost. -/
def Unobstructed (lead : ν → Option Trail) : Prop :=
  ∀ u t, lead u = some t → limit ≤ t.cost → (∃ c < limit, Within hops limit start c u) →
    ∀ h ∈ hops u, (lead h.target).isSome

variable {hops limit start}

/-! ## Trails -/

theorem mem_arrivals {u v : ν} {r t : Trail} :
    (v, t) ∈ arrivals hops limit u r ↔ r.cost < limit ∧
      ∃ position h, (hops u)[position]? = some h ∧ v = h.target ∧ t = r.extend position h.cost := by
  unfold arrivals
  split
  · rename_i hroom
    simp only [List.mem_map, Prod.exists, Prod.mk.injEq, hroom, true_and]
    constructor
    · rintro ⟨h, position, hmem, rfl, rfl⟩
      exact ⟨position, h, List.mem_zipIdx_iff_getElem?.mp hmem, rfl, rfl⟩
    · rintro ⟨position, h, hget, rfl, rfl⟩
      exact ⟨h, position, List.mem_zipIdx_iff_getElem?.mpr hget, rfl, rfl⟩
  · rename_i hroom
    simp [hroom]

/-- The one list branches off to the left of the other. -/
def Before (p q : List Nat) : Prop :=
  ∃ front a b x y, p = front ++ a :: x ∧ q = front ++ b :: y ∧ a < b

theorem Before.lt {p q : List Nat} (h : Before p q) : p < q := by
  obtain ⟨front, a, b, x, y, rfl, rfl, hab⟩ := h
  exact List.Lex.append_left _ (List.Lex.rel hab) front

theorem Before.extend {p q : List Nat} (h : Before p q) (i : Nat) : Before (p ++ [i]) q := by
  obtain ⟨front, a, b, x, y, rfl, rfl, hab⟩ := h
  exact ⟨front, a, b, x ++ [i], y, by simp, rfl, hab⟩

theorem lt_extend (p : List Nat) (i : Nat) : p < p ++ [i] := by
  have h : List.Lex (· < ·) (p ++ []) (p ++ [i]) := List.Lex.append_left _ List.Lex.nil p
  rwa [List.append_nil] at h

theorem arrivals_before (u : ν) (r : Trail) :
    (arrivals hops limit u r).Pairwise fun a b => Before a.2.positions b.2.positions := by
  unfold arrivals
  split
  · rw [List.pairwise_map, List.pairwise_iff_getElem]
    intro i j hi hj hij
    simp only [List.getElem_zipIdx, Nat.zero_add]
    exact ⟨r.positions, i, j, [], [], rfl, rfl, hij⟩
  · exact List.Pairwise.nil

/-! ## The descent -/

section Machine

variable (hops limit start)

/-- Hops still to be tried, next one first, and the nodes met, in order. -/
structure State (ν : Type u) where
  pending : List (ν × Trail)
  met : List (ν × Trail)

def init : State ν := ⟨[(start, Trail.empty)], []⟩

def State.nodes (s : State ν) : List ν := s.met.map Prod.fst

/-- What is pending, without the positions. -/
def State.costs (s : State ν) : List (ν × Nat) := s.pending.map fun p => (p.1, p.2.cost)

variable [DecidableEq ν]

def step (s : State ν) : Option (State ν) :=
  match s.pending with
  | [] => none
  | (v, t) :: rest =>
      if v ∈ s.nodes then some { s with pending := rest }
      else some ⟨arrivals hops limit v t ++ rest, s.met ++ [(v, t)]⟩

end Machine

section Run

theorem costs_arrivals (v : ν) (t : Trail) :
    (arrivals hops limit v t).map (fun p => (p.1, p.2.cost)) =
      if t.cost < limit then (hops v).map fun h => (h.target, t.cost + h.cost) else [] := by
  unfold arrivals
  split
  · rw [List.map_map]
    have hfst : ((fun p : ν × Trail => (p.1, p.2.cost)) ∘ fun x : Hop ν × Nat =>
        (x.1.target, t.extend x.2 x.1.cost)) =
        (fun h : Hop ν => (h.target, t.cost + h.cost)) ∘ Prod.fst := rfl
    rw [hfst, ← List.map_map, List.zipIdx_map_fst]
  · rfl

/-- What holds of the descent between two hops. -/
structure Inv (hops : ν → List (Hop ν)) (limit : Nat) (start : ν) (s : State ν) : Prop where
  sorted : s.pending.Pairwise fun a b => Before a.2.positions b.2.positions
  ahead : ∀ m ∈ s.met, ∀ p ∈ s.pending, m.2.positions < p.2.positions
  once : s.nodes.Nodup
  origin : ∀ a, a ∈ s.pending ∨ a ∈ s.met →
    a = (start, Trail.empty) ∨ ∃ m ∈ s.met, a ∈ arrivals hops limit m.1 m.2
  tried : ∀ m ∈ s.met, ∀ a ∈ arrivals hops limit m.1 m.2,
    a ∈ s.pending ∨ ∃ q, (a.1, q) ∈ s.met ∧ q.positions ≤ a.2.positions
  root : s = init start ∨ (start, Trail.empty) ∈ s.met

theorem inv_init : Inv hops limit start (init start) where
  sorted := List.pairwise_singleton _ _
  ahead := by simp [init]
  once := List.nodup_nil
  origin a ha := by
    left
    simpa [init] using ha
  tried := by simp [init]
  root := Or.inl rfl

theorem mem_nodes {s : State ν} {v : ν} : v ∈ s.nodes ↔ ∃ t, (v, t) ∈ s.met := by
  simp [State.nodes]

theorem Inv.skip {s : State ν} {v : ν} {t : Trail} {rest : List (ν × Trail)}
    (h : Inv hops limit start s) (hp : s.pending = (v, t) :: rest) (hv : v ∈ s.nodes) :
    Inv hops limit start { s with pending := rest } where
  sorted := by
    have hsorted := h.sorted
    rw [hp] at hsorted
    exact hsorted.of_cons
  ahead m hm p hpr := h.ahead m hm p (hp ▸ List.mem_cons_of_mem _ hpr)
  once := h.once
  origin a ha := h.origin a (ha.imp_left fun hr => hp ▸ List.mem_cons_of_mem _ hr)
  tried m hm a ha := by
    rcases h.tried m hm a ha with hpending | hmet
    · rw [hp] at hpending
      rcases List.mem_cons.mp hpending with rfl | hrest
      · obtain ⟨q, hq⟩ := mem_nodes.mp hv
        have hlt := h.ahead _ hq (v, t) (hp ▸ List.mem_cons_self)
        exact Or.inr ⟨q, hq, le_of_lt hlt⟩
      · exact Or.inl hrest
    · exact Or.inr hmet
  root := by
    right
    rcases h.root with rfl | hroot
    · simp [State.nodes, init] at hv
    · exact hroot

theorem Inv.meet {s : State ν} {v : ν} {t : Trail} {rest : List (ν × Trail)}
    (h : Inv hops limit start s) (hp : s.pending = (v, t) :: rest) (hv : v ∉ s.nodes) :
    Inv hops limit start ⟨arrivals hops limit v t ++ rest, s.met ++ [(v, t)]⟩ := by
  have hsorted := h.sorted
  rw [hp, List.pairwise_cons] at hsorted
  have hextend : ∀ a ∈ arrivals hops limit v t, ∃ i, a.2.positions = t.positions ++ [i] := by
    rintro ⟨w, q⟩ ha
    obtain ⟨_, i, _, _, _, rfl⟩ := mem_arrivals.mp ha
    exact ⟨i, rfl⟩
  have hroot : (start, Trail.empty) ∈ s.met ++ [(v, t)] := by
    rcases h.root with rfl | hroot
    · simp only [init, List.cons.injEq] at hp
      rw [← hp.1]
      simp [init]
    · exact List.mem_append_left _ hroot
  refine ⟨?_, ?_, ?_, ?_, ?_, Or.inr hroot⟩
  · refine List.pairwise_append.mpr ⟨arrivals_before v t, hsorted.2, fun a ha b hb => ?_⟩
    obtain ⟨i, hi⟩ := hextend a ha
    rw [hi]
    exact (hsorted.1 b hb).extend i
  · intro m hm p hpend
    have hle : m.2.positions ≤ t.positions := by
      rcases List.mem_append.mp hm with hm | hm
      · exact le_of_lt (h.ahead m hm (v, t) (hp ▸ List.mem_cons_self))
      · obtain rfl := List.mem_singleton.mp hm
        exact le_refl _
    have hlt : t.positions < p.2.positions := by
      rcases List.mem_append.mp hpend with harrival | hrest
      · obtain ⟨i, hi⟩ := hextend p harrival
        rw [hi]
        exact lt_extend _ i
      · exact (hsorted.1 p hrest).lt
    exact lt_of_le_of_lt hle hlt
  · simp only [State.nodes, List.map_append, List.map_cons, List.map_nil]
    refine List.nodup_append.mpr ⟨h.once, List.nodup_singleton v, fun w hw u hu => ?_⟩
    obtain rfl := List.mem_singleton.mp hu
    rintro rfl
    exact hv hw
  · have hold : ∀ a, a ∈ s.pending ∨ a ∈ s.met → a = (start, Trail.empty) ∨
        ∃ m ∈ s.met ++ [(v, t)], a ∈ arrivals hops limit m.1 m.2 := by
      intro a ha
      exact (h.origin a ha).imp_right fun ⟨m, hm, harrival⟩ =>
        ⟨m, List.mem_append_left _ hm, harrival⟩
    rintro a (ha | ha)
    · rcases List.mem_append.mp ha with harrival | hrest
      · exact Or.inr ⟨(v, t), by simp, harrival⟩
      · exact hold a (Or.inl (hp ▸ List.mem_cons_of_mem _ hrest))
    · rcases List.mem_append.mp ha with hmet | hnew
      · exact hold a (Or.inr hmet)
      · obtain rfl := List.mem_singleton.mp hnew
        exact hold _ (Or.inl (hp ▸ List.mem_cons_self))
  · intro m hm a ha
    rcases List.mem_append.mp hm with hm | hm
    · rcases h.tried m hm a ha with hpending | ⟨q, hq, hle⟩
      · rw [hp] at hpending
        rcases List.mem_cons.mp hpending with rfl | hrest
        · exact Or.inr ⟨t, by simp, le_refl _⟩
        · exact Or.inl (List.mem_append_right _ hrest)
      · exact Or.inr ⟨q, List.mem_append_left _ hq, hle⟩
    · obtain rfl := List.mem_singleton.mp hm
      exact Or.inl (List.mem_append_left _ ha)

/-- Every trail is a walk within the limit. -/
theorem Leading.within {lead : ν → Option Trail} (h : Leading hops limit start lead) {v : ν}
    {t : Trail} (ht : lead v = some t) : Within hops limit start t.cost v := by
  induction hn : t.positions.length generalizing v t with
  | zero =>
      by_cases hv : v = start
      · subst hv
        obtain rfl := Option.some.inj (ht.symm.trans h.root)
        exact Within.start
      · obtain ⟨u, r, _, harrival⟩ := h.parent v t hv ht
        obtain ⟨_, i, hop, _, _, rfl⟩ := mem_arrivals.mp harrival
        simp [Trail.extend] at hn
  | succ n ih =>
      by_cases hv : v = start
      · subst hv
        obtain rfl := Option.some.inj (ht.symm.trans h.root)
        exact Within.start
      · obtain ⟨u, r, hu, harrival⟩ := h.parent v t hv ht
        obtain ⟨hroom, i, hop, hget, rfl, rfl⟩ := mem_arrivals.mp harrival
        have hwalk := ih hu (by simpa [Trail.extend] using hn)
        exact Within.hop hwalk hroom (List.mem_of_getElem? hget)

/-- A trail belongs to one node. -/
theorem Leading.injective {lead : ν → Option Trail} (h : Leading hops limit start lead)
    {u v : ν} {r t : Trail} (hu : lead u = some r) (hv : lead v = some t)
    (heq : r.positions = t.positions) : u = v ∧ r = t := by
  induction hn : r.positions.length using Nat.strong_induction_on generalizing u v r t with
  | _ n ih =>
      by_cases hus : u = start
      · obtain rfl := Option.some.inj (h.root.symm.trans (hus ▸ hu))
        by_cases hvs : v = start
        · obtain rfl := Option.some.inj (h.root.symm.trans (hvs ▸ hv))
          exact ⟨hus.trans hvs.symm, rfl⟩
        · obtain ⟨w, p, _, harrival⟩ := h.parent v t hvs hv
          obtain ⟨_, i, hop, _, _, rfl⟩ := mem_arrivals.mp harrival
          simp [Trail.empty, Trail.extend] at heq
      · obtain ⟨w, p, hw, harrival⟩ := h.parent u r hus hu
        obtain ⟨_, i, hop, hget, rfl, rfl⟩ := mem_arrivals.mp harrival
        by_cases hvs : v = start
        · obtain rfl := Option.some.inj (h.root.symm.trans (hvs ▸ hv))
          simp [Trail.empty, Trail.extend] at heq
        · obtain ⟨w', p', hw', harrival'⟩ := h.parent v t hvs hv
          obtain ⟨_, i', hop', hget', rfl, rfl⟩ := mem_arrivals.mp harrival'
          simp only [Trail.extend] at heq hn
          obtain ⟨hp, hi⟩ := List.append_inj' heq rfl
          have hlt : p.positions.length < n := by
            rw [← hn, List.length_append]
            simp
          obtain ⟨rfl, rfl⟩ := ih _ hlt hw hw' hp rfl
          obtain rfl : i = i' := by simpa using hi
          obtain rfl := Option.some.inj (hget.symm.trans hget')
          exact ⟨rfl, rfl⟩

/-- The nodes met so far carry their leading trails. -/
def Follows (lead : ν → Option Trail) (s : State ν) : Prop := ∀ m ∈ s.met, lead m.1 = some m.2

/-- What leads by a trail before all that is pending has been met. -/
theorem Inv.met_of_before {lead : ν → Option Trail} {s : State ν} (h : Inv hops limit start s)
    (hl : Leading hops limit start lead) (hf : Follows lead s) {v : ν} {t : Trail}
    (hv : lead v = some t) (hbefore : ∀ p ∈ s.pending, t.positions < p.2.positions) :
    v ∈ s.nodes := by
  induction hn : t.positions.length using Nat.strong_induction_on generalizing v t with
  | _ n ih =>
      by_cases hvs : v = start
      · obtain rfl := Option.some.inj (hl.root.symm.trans (hvs ▸ hv))
        rcases h.root with rfl | hroot
        · exact (lt_irrefl _ (hbefore (start, Trail.empty) (by simp [init]))).elim
        · exact mem_nodes.mpr ⟨Trail.empty, hvs ▸ hroot⟩
      · obtain ⟨u, r, hu, harrival⟩ := hl.parent v t hvs hv
        obtain ⟨_, i, hop, _, _, ht⟩ := mem_arrivals.mp harrival
        have hpositions : t.positions = r.positions ++ [i] := by rw [ht]; rfl
        have hshorter : r.positions.length < n := by
          rw [← hn, hpositions, List.length_append]
          simp
        have hlt : r.positions < t.positions := by
          rw [hpositions]
          exact lt_extend _ i
        have humet := ih _ hshorter hu (fun p hp => lt_trans hlt (hbefore p hp)) rfl
        obtain ⟨q, hq⟩ := mem_nodes.mp humet
        obtain rfl : q = r := Option.some.inj ((hf _ hq).symm.trans hu)
        rcases h.tried _ hq _ harrival with hpending | ⟨q', hq', _⟩
        · exact (lt_irrefl _ (hbefore _ hpending)).elim
        · exact mem_nodes.mpr ⟨q', hq'⟩

/-- The next node met is met by its leading trail. -/
theorem Inv.lead_of_next {lead : ν → Option Trail} {s : State ν} (h : Inv hops limit start s)
    (hl : Leading hops limit start lead) (hf : Follows lead s) {v : ν} {t : Trail}
    {rest : List (ν × Trail)} (hp : s.pending = (v, t) :: rest) (hv : v ∉ s.nodes) :
    lead v = some t := by
  rcases h.origin (v, t) (Or.inl (hp ▸ List.mem_cons_self)) with hstart | ⟨m, hm, harrival⟩
  · obtain ⟨rfl, rfl⟩ := Prod.mk.inj hstart
    exact hl.root
  · obtain ⟨q, hq, hle⟩ := hl.least _ _ _ _ (hf m hm) harrival
    rcases lt_or_eq_of_le hle with hlt | heq
    · have hbefore : ∀ p ∈ s.pending, q.positions < p.2.positions := by
        intro p hpend
        rw [hp] at hpend
        have hsorted := h.sorted
        rw [hp, List.pairwise_cons] at hsorted
        rcases List.mem_cons.mp hpend with rfl | hrest
        · exact hlt
        · exact lt_trans hlt (hsorted.1 p hrest).lt
      exact (hv (h.met_of_before hl hf hq hbefore)).elim
    · obtain ⟨_, i, hop, hget, rfl, rfl⟩ := mem_arrivals.mp harrival
      by_cases hvs : hop.target = start
      · obtain rfl := Option.some.inj (hl.root.symm.trans (hvs ▸ hq))
        simp [Trail.empty, Trail.extend] at heq
      · obtain ⟨w, p, hw, harrival'⟩ := hl.parent _ _ hvs hq
        obtain ⟨_, i', hop', hget', htarget, rfl⟩ := mem_arrivals.mp harrival'
        simp only [Trail.extend] at heq
        obtain ⟨hpositions, hi⟩ := List.append_inj' heq rfl
        obtain ⟨rfl, rfl⟩ := hl.injective hw (hf m hm) hpositions
        obtain rfl : i' = i := by simpa using hi
        obtain rfl := Option.some.inj (hget.symm.trans hget')
        exact hq

end Run

section Machine

variable [DecidableEq ν]

/-- A hop to a node that is met is dropped, any other one is taken. -/
theorem step_cases {s s' : State ν} (h : step hops limit s = some s') :
    ∃ v t rest, s.pending = (v, t) :: rest ∧
      ((v ∈ s.nodes ∧ s' = { s with pending := rest }) ∨
        (v ∉ s.nodes ∧ s' = ⟨arrivals hops limit v t ++ rest, s.met ++ [(v, t)]⟩)) := by
  unfold step at h
  cases hp : s.pending with
  | nil => simp [hp] at h
  | cons a rest =>
      obtain ⟨v, t⟩ := a
      rw [hp] at h
      refine ⟨v, t, rest, rfl, ?_⟩
      by_cases hmet : v ∈ s.nodes
      · left
        simpa [hmet, eq_comm] using h
      · right
        simpa [hmet, eq_comm] using h

theorem step_inv {s s' : State ν} (h : Inv hops limit start s) (hs : step hops limit s = some s') :
    Inv hops limit start s' := by
  obtain ⟨v, t, rest, hp, ⟨hv, rfl⟩ | ⟨hv, rfl⟩⟩ := step_cases hs
  · exact h.skip hp hv
  · exact h.meet hp hv

/-- The states of the descent. -/
inductive Descends (hops : ν → List (Hop ν)) (limit : Nat) (start : ν) : State ν → Prop
  | init : Descends hops limit start (init start)
  | step {s s' : State ν} : Descends hops limit start s → step hops limit s = some s' →
      Descends hops limit start s'

/-- Follow a program that drops a hop to a node it has met. -/
theorem Descends.skip {s : State ν} (h : Descends hops limit start s) {v : ν} {c : Nat}
    {rest : List (ν × Nat)} (hcosts : s.costs = (v, c) :: rest) (hv : v ∈ s.nodes) :
    ∃ s', Descends hops limit start s' ∧ s'.costs = rest ∧ s'.nodes = s.nodes := by
  obtain ⟨⟨w, t⟩, pending, hp, hhead, hrest⟩ := List.map_eq_cons_iff.mp hcosts
  obtain ⟨rfl, rfl⟩ := Prod.mk.inj hhead
  exact ⟨{ s with pending }, h.step (by rw [Descent.step, hp]; exact if_pos hv), hrest, rfl⟩

/-- Follow a program that meets the node the next hop leads to. -/
theorem Descends.meet {s : State ν} (h : Descends hops limit start s) {v : ν} {c : Nat}
    {rest : List (ν × Nat)} (hcosts : s.costs = (v, c) :: rest) (hv : v ∉ s.nodes) :
    ∃ s', Descends hops limit start s' ∧
      s'.costs = (if c < limit then (hops v).map fun h => (h.target, c + h.cost) else []) ++ rest ∧
      s'.nodes = s.nodes ++ [v] := by
  obtain ⟨⟨w, t⟩, pending, hp, hhead, hrest⟩ := List.map_eq_cons_iff.mp hcosts
  obtain ⟨rfl, rfl⟩ := Prod.mk.inj hhead
  refine ⟨⟨arrivals hops limit w t ++ pending, s.met ++ [(w, t)]⟩,
    h.step (by rw [Descent.step, hp]; exact if_neg hv), ?_, ?_⟩
  · rw [State.costs, List.map_append, costs_arrivals, hrest]
  · simp [State.nodes]

theorem Descends.inv {s : State ν} (h : Descends hops limit start s) :
    Inv hops limit start s := by
  induction h with
  | init => exact inv_init
  | step _ hs ih => exact step_inv ih hs

theorem Descends.follows {lead : ν → Option Trail} {s : State ν}
    (h : Descends hops limit start s) (hl : Leading hops limit start lead) : Follows lead s := by
  induction h with
  | init => exact fun m hm => by simp [Descent.init] at hm
  | step h hs ih =>
      obtain ⟨v, t, rest, hp, ⟨_, rfl⟩ | ⟨hv, rfl⟩⟩ := step_cases hs
      · exact ih
      · intro m hm
        rcases List.mem_append.mp hm with hm | hm
        · exact ih m hm
        · obtain rfl := List.mem_singleton.mp hm
          exact h.inv.lead_of_next hl ih hp hv

/-! ## The whole descent -/

theorem lookup_eq_some_iff {met : List (ν × Trail)} (hnd : (met.map Prod.fst).Nodup) {v : ν}
    {t : Trail} : met.lookup v = some t ↔ (v, t) ∈ met := by
  rw [List.lookup_eq_some_iff]
  constructor
  · rintro ⟨front, back, rfl, _⟩
    simp
  · intro hmem
    obtain ⟨front, back, rfl⟩ := List.append_of_mem hmem
    refine ⟨front, back, rfl, fun p hp => ?_⟩
    rw [List.map_append, List.nodup_append] at hnd
    have hne := hnd.2.2 p.1 (List.mem_map_of_mem hp) v (by simp)
    simpa using hne.symm

/-- The trails of a finished descent lead. -/
theorem Descends.leading {s : State ν} (h : Descends hops limit start s)
    (hend : s.pending = []) : Leading hops limit start fun v => s.met.lookup v := by
  have hinv := h.inv
  have hlookup : ∀ v t, s.met.lookup v = some t ↔ (v, t) ∈ s.met := fun v t =>
    lookup_eq_some_iff hinv.once
  refine ⟨?_, ?_, ?_⟩
  · rcases hinv.root with rfl | hroot
    · simp [Descent.init] at hend
    · exact (hlookup _ _).mpr hroot
  · intro v t hv ht
    rcases hinv.origin _ (Or.inr ((hlookup v t).mp ht)) with hstart | ⟨m, hm, harrival⟩
    · exact (hv (Prod.mk.inj hstart).1).elim
    · exact ⟨m.1, m.2, (hlookup _ _).mpr hm, harrival⟩
  · intro u r v t hu harrival
    rcases hinv.tried _ ((hlookup u r).mp hu) _ harrival with hpending | ⟨q, hq, hle⟩
    · simp [hend] at hpending
    · exact ⟨q, (hlookup _ _).mpr hq, hle⟩

theorem Descends.met_iff {lead : ν → Option Trail} {s : State ν}
    (h : Descends hops limit start s) (hend : s.pending = []) (hl : Leading hops limit start lead)
    {v : ν} : v ∈ s.nodes ↔ (lead v).isSome := by
  have hfollows := h.follows hl
  constructor
  · intro hv
    obtain ⟨t, ht⟩ := mem_nodes.mp hv
    rw [hfollows _ ht]
    rfl
  · intro hv
    obtain ⟨t, ht⟩ := Option.isSome_iff_exists.mp hv
    exact h.inv.met_of_before hl hfollows ht (by simp [hend])

/-- Nothing is met beyond the limit. -/
theorem Descends.within {s : State ν} (h : Descends hops limit start s) (hend : s.pending = [])
    {v : ν} (hv : v ∈ s.nodes) : ∃ c, Within hops limit start c v := by
  have hl := h.leading hend
  obtain ⟨t, ht⟩ := Option.isSome_iff_exists.mp ((h.met_iff hend hl).mp hv)
  exact ⟨t.cost, hl.within ht⟩

/-- Everything within the limit is met exactly when no node met at the limit stands in
the way. -/
theorem Descends.complete_iff {s : State ν} (h : Descends hops limit start s)
    (hend : s.pending = []) :
    (∀ c v, Within hops limit start c v → v ∈ s.nodes) ↔
      ∃ lead, Leading hops limit start lead ∧ Unobstructed hops limit start lead := by
  constructor
  · intro hall
    refine ⟨_, h.leading hend, ?_⟩
    rintro u t _ _ ⟨c, hroom, hwalk⟩ hop hmem
    exact (h.met_iff hend (h.leading hend)).mp (hall _ _ (hwalk.hop hroom hmem))
  · rintro ⟨lead, hl, hfree⟩ c v hwalk
    rw [h.met_iff hend hl]
    induction hwalk with
    | start => rw [hl.root]; rfl
    | hop walk room mem ih =>
        rename_i c u hop
        obtain ⟨t, ht⟩ := Option.isSome_iff_exists.mp ih
        by_cases hroom : t.cost < limit
        · obtain ⟨position, hget⟩ := List.getElem?_of_mem mem
          have harrival : (hop.target, t.extend position hop.cost) ∈ arrivals hops limit u t :=
            mem_arrivals.mpr ⟨hroom, position, hop, hget, rfl, rfl⟩
          obtain ⟨q, hq, _⟩ := hl.least _ _ _ _ ht harrival
          rw [hq]
          rfl
        · exact hfree u t ht (by omega) ⟨c, room, walk⟩ hop mem

end Machine

end Descent

end AfyxGraph.Core
