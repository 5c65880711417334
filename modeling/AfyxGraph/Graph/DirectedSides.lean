import AfyxGraph.Core.Loop
import AfyxGraph.Core.Places
import AfyxGraph.Graph.DirectedFlow
import Mathlib.Data.List.Induction

/-! # The sides of a directed flow search

What a side has come to after so many levels is the ball of that radius in what the neighbours
tell, and its frontier is the last layer. Links lead one layer back towards the end that the side
grows from.
-/

namespace AfyxGraph.Graph

open AfyxGraph.Core Extraction

/-! ## One level of a side -/

section Growth

variable {α : Type} {near : String → List Reached} {link : String → Reached → α}

/-- What a side is after some neighbours, each with the frontier node it was reached from. -/
structure Growth (link : String → Reached → α) (known : List (String × α))
    (reached : List (String × Reached)) (s : SearchSide α) : Prop where
  keys : s.known.map Prod.fst = known.map Prod.fst ++ s.frontier.map (·.id)
  once : (s.frontier.map (·.id)).Nodup
  fresh : ∀ n ∈ s.frontier, n.id ∉ known.map Prod.fst
  old : ∀ entry ∈ known, entry ∈ s.known
  entry : ∀ entry ∈ s.known, entry ∈ known ∨ ∃ p ∈ reached, p.2.edge.kind ∈ flowEdgeKinds ∧
    entry = (p.2.node.id, link p.1 p.2)
  node : ∀ n ∈ s.frontier, ∃ p ∈ reached, p.2.edge.kind ∈ flowEdgeKinds ∧ p.2.node = n
  complete : ∀ p ∈ reached, p.2.edge.kind ∈ flowEdgeKinds →
    p.2.node.id ∈ s.known.map Prod.fst

theorem growth_start (link : String → Reached → α) (known : List (String × α)) :
    Growth link known [] ⟨known, []⟩ where
  keys := (List.append_nil _).symm
  once := List.nodup_nil
  fresh n hn := absurd hn List.not_mem_nil
  old entry hentry := hentry
  entry entry hentry := .inl hentry
  node n hn := absurd hn List.not_mem_nil
  complete p hp := absurd hp List.not_mem_nil

variable {known : List (String × α)} {reached : List (String × Reached)} {s : SearchSide α}

theorem Growth.reach (h : Growth link known reached s) (current : String) (r : Reached) :
    Growth link known (reached ++ [(current, r)]) (s.reach (link current) r) := by
  have hmore : ∀ p ∈ reached, p ∈ reached ++ [(current, r)] :=
    fun p hp => List.mem_append_left _ hp
  have hlast : (current, r) ∈ reached ++ [(current, r)] :=
    List.mem_append_right _ (List.mem_singleton_self _)
  unfold SearchSide.reach
  split
  · rename_i hskip
    refine ⟨h.keys, h.once, h.fresh, h.old, ?_, ?_, ?_⟩
    · intro entry hentry
      refine (h.entry entry hentry).imp_right ?_
      rintro ⟨p, hp, hrest⟩
      exact ⟨p, hmore p hp, hrest⟩
    · intro n hn
      obtain ⟨p, hp, hrest⟩ := h.node n hn
      exact ⟨p, hmore p hp, hrest⟩
    · intro p hp hkind
      rcases List.mem_append.mp hp with hp | hp
      · exact h.complete p hp hkind
      · obtain rfl := List.mem_singleton.mp hp
        exact hskip.resolve_left fun hnot => hnot hkind
  · rename_i hnew
    rw [not_or, not_not] at hnew
    obtain ⟨hkind, hout⟩ := hnew
    have hout' := hout
    rw [h.keys, List.mem_append, not_or] at hout'
    refine ⟨?_, ?_, ?_, ?_, ?_, ?_, ?_⟩
    · rw [List.map_append, List.map_append, h.keys, List.append_assoc]
      rfl
    · rw [List.map_append, List.nodup_append]
      refine ⟨h.once, List.nodup_singleton _, fun a ha b hb heq => ?_⟩
      rw [List.map_singleton, List.mem_singleton] at hb
      exact hout'.2 (hb ▸ heq ▸ ha)
    · intro n hn
      rcases List.mem_append.mp hn with hn | hn
      · exact h.fresh n hn
      · rw [List.mem_singleton.mp hn]
        exact hout'.1
    · exact fun entry hentry => List.mem_append_left _ (h.old entry hentry)
    · intro entry hentry
      rcases List.mem_append.mp hentry with hentry | hentry
      · refine (h.entry entry hentry).imp_right ?_
        rintro ⟨p, hp, hrest⟩
        exact ⟨p, hmore p hp, hrest⟩
      · exact .inr ⟨_, hlast, hkind, List.mem_singleton.mp hentry⟩
    · intro n hn
      rcases List.mem_append.mp hn with hn | hn
      · obtain ⟨p, hp, hrest⟩ := h.node n hn
        exact ⟨p, hmore p hp, hrest⟩
      · exact ⟨_, hlast, hkind, (List.mem_singleton.mp hn).symm⟩
    · intro p hp hkind'
      rw [List.map_append, List.mem_append]
      rcases List.mem_append.mp hp with hp | hp
      · exact .inl (h.complete p hp hkind')
      · rw [List.mem_singleton.mp hp]
        exact .inr (List.mem_singleton_self _)

/-- The neighbours of the frontier, in order. -/
def reachedFrom (near : String → List Reached) (frontier : List Node) :
    List (String × Reached) :=
  frontier.flatMap fun current => (near current.id).map fun r => (current.id, r)

theorem growth_expand (near : String → List Reached) (link : String → Reached → α)
    (s : SearchSide α) :
    Growth link s.known (reachedFrom near s.frontier) (s.expand near link) := by
  have hfold : ∀ (reached : List (String × Reached)), Growth link s.known reached
      (reached.foldl (fun grown p => grown.reach (link p.1) p.2) ⟨s.known, []⟩) := by
    intro reached
    induction reached using List.reverseRecOn with
    | nil => exact growth_start link s.known
    | append_singleton reached p ih =>
        rw [List.foldl_append]
        exact ih.reach p.1 p.2
  have hexpand : s.expand near link = (reachedFrom near s.frontier).foldl
      (fun grown p => grown.reach (link p.1) p.2) ⟨s.known, []⟩ := by
    rw [SearchSide.expand, reachedFrom, List.foldl_flatMap]
    simp only [List.foldl_map]
  rw [hexpand]
  exact hfold _

end Growth

/-! ## Balls and layers -/

section Ball

variable {α : Type} {near : String → List Reached} {link : String → Reached → α}
  {R : String → String → Prop} {sources : String → Prop} {k : Nat} {s : SearchSide α}

/-- A side after so many levels. -/
structure SideInv (R : String → String → Prop) (sources : String → Prop) (k : Nat)
    (s : SearchSide α) : Prop where
  ball : ∀ v, v ∈ s.known.map Prod.fst ↔ Near R sources k v
  layer : ∀ v, v ∈ s.frontier.map (·.id) ↔ AtDistance R sources k v
  distinct : (s.known.map Prod.fst).Nodup
  once : (s.frontier.map (·.id)).Nodup

theorem mem_reachedFrom {frontier : List Node} {p : String × Reached} :
    p ∈ reachedFrom near frontier ↔ p.1 ∈ frontier.map (·.id) ∧ p.2 ∈ near p.1 := by
  rw [reachedFrom, List.mem_flatMap]
  constructor
  · rintro ⟨current, hcurrent, hp⟩
    obtain ⟨r, hr, rfl⟩ := List.mem_map.mp hp
    exact ⟨List.mem_map_of_mem hcurrent, hr⟩
  · rintro ⟨hid, hr⟩
    obtain ⟨current, hcurrent, hid⟩ := List.mem_map.mp hid
    refine ⟨current, hcurrent, List.mem_map.mpr ⟨p.2, ?_, ?_⟩⟩
    · show p.2 ∈ near current.id
      rw [hid]
      exact hr
    · show (current.id, p.2) = p
      rw [hid]

/-- The next level of a side, when `near` tells what the relation says. -/
theorem SideInv.expand (h : SideInv R sources k s)
    (hnear : ∀ u v, R u v ↔ ∃ r ∈ near u, r.edge.kind ∈ flowEdgeKinds ∧ r.node.id = v) :
    SideInv R sources (k + 1) (s.expand near link) := by
  have hgrowth := growth_expand near link s
  have hstep : ∀ v, (∃ p ∈ reachedFrom near s.frontier, p.2.edge.kind ∈ flowEdgeKinds ∧
      p.2.node.id = v) ↔ ∃ u, AtDistance R sources k u ∧ R u v := by
    intro v
    constructor
    · rintro ⟨p, hp, hkind, hid⟩
      obtain ⟨hlayer, hr⟩ := mem_reachedFrom.mp hp
      exact ⟨p.1, (h.layer _).mp hlayer, (hnear _ _).mpr ⟨p.2, hr, hkind, hid⟩⟩
    · rintro ⟨u, hu, hop⟩
      obtain ⟨r, hr, hkind, hid⟩ := (hnear _ _).mp hop
      exact ⟨(u, r), mem_reachedFrom.mpr ⟨(h.layer u).mpr hu, hr⟩, hkind, hid⟩
  have hlayer : ∀ v, v ∈ (s.expand near link).frontier.map (·.id) ↔
      AtDistance R sources (k + 1) v := by
    intro v
    rw [atDistance_succ_iff, ← hstep, ← h.ball]
    constructor
    · intro hv
      obtain ⟨n, hn, rfl⟩ := List.mem_map.mp hv
      obtain ⟨p, hp, hkind, rfl⟩ := hgrowth.node n hn
      exact ⟨⟨p, hp, hkind, rfl⟩, hgrowth.fresh _ hn⟩
    · rintro ⟨⟨p, hp, hkind, rfl⟩, hout⟩
      have hmem := hgrowth.complete p hp hkind
      rw [hgrowth.keys, List.mem_append] at hmem
      exact hmem.resolve_left hout
  constructor
  · intro v
    rw [hgrowth.keys, List.mem_append, hlayer, h.ball]
    constructor
    · rintro (hnear | hdist)
      · exact hnear.mono (Nat.le_succ k)
      · exact near_of_steps hdist.1
    · intro hnear
      by_cases hold : Near R sources k v
      · exact .inl hold
      · exact .inr (atDistance_succ_iff.mpr ⟨(near_succ_iff.mp hnear).resolve_left hold, hold⟩)
  · exact hlayer
  · rw [hgrowth.keys, List.nodup_append]
    refine ⟨h.distinct, hgrowth.once, fun a ha b hb heq => ?_⟩
    obtain ⟨n, hn, rfl⟩ := List.mem_map.mp hb
    exact hgrowth.fresh n hn (heq ▸ ha)
  · exact hgrowth.once

/-- The frontier is as long as the layer is large. -/
theorem SideInv.length_frontier (h : SideInv R sources k s) :
    s.frontier.length = {v | AtDistance R sources k v}.ncard := by
  rw [ncard_eq_length h.once h.layer, List.length_map]

theorem SideInv.frontier_eq_nil_iff (h : SideInv R sources k s) :
    s.frontier = [] ↔ ∀ v, ¬ AtDistance R sources k v := by
  rw [← List.map_eq_nil_iff (f := fun n : Node => n.id), List.eq_nil_iff_forall_not_mem]
  exact forall_congr' fun v => not_congr (h.layer v)

theorem SideInv.lt_length (h : SideInv R sources k s) {i : Nat} (hle : i ≤ k) {v : String}
    (hv : AtDistance R sources i v) : i < s.known.length := by
  rw [← List.length_map (f := Prod.fst)]
  exact hv.lt_length fun u hu => (h.ball u).mpr (hu.mono hle)

/-- A node of the ball has one entry. -/
theorem SideInv.exists_entry (h : SideInv R sources k s) {v : String}
    (hv : Near R sources k v) : ∃ a, (v, a) ∈ s.known ∧ s.known.lookup v = some a := by
  obtain ⟨⟨v, a⟩, hentry, rfl⟩ := List.mem_map.mp ((h.ball v).mpr hv)
  exact ⟨a, hentry, lookup_of_mem h.distinct hentry⟩

end Ball

end AfyxGraph.Graph
