import AfyxGraph.Core.Distance
import AfyxGraph.Core.Places
import AfyxGraph.Graph.DeadCode
import Mathlib.Data.List.Induction

/-! # Evidence that a member overrides

The walk up `extends` and `implements` from all owners of candidates at once. A type stands in one
wave only, the one of its distance from the nearest owner, and carries the owners that reach it
there; an owner that reaches it later is not led on from it.
-/

namespace AfyxGraph.Graph.DeadCode

open AfyxGraph.Core AfyxGraph.Extraction

/-! ## What the evidence is to be -/

section Spec

variable (cg : CodeGraph) (rootIds : List String)

/-- A type and one that it extends or implements. -/
def CodeGraph.Extends (x y : String) : Prop :=
  ∃ e ∈ cg.edges, (e.kind = .extends ∨ e.kind = .implements) ∧ e.source = x ∧ e.target = y

/-- A member that can be overridden has the name. -/
def CodeGraph.Declares (typeId name : String) : Prop :=
  ∃ e ∈ cg.edges, e.kind = .contains ∧ e.source = typeId ∧
    ∃ n, cg.getNode e.target = some n ∧ n.kind ∈ overridable ∧ n.name = name

/-- An ancestor within the depth that is walked. -/
def CodeGraph.Ancestor (r a : String) : Prop :=
  a ≠ r ∧ Near cg.Extends (· = r) maxOverrideAncestorDepth a

/-- The evidence names what the ancestors of every root declare, or holds the root uncertain; a
candidate that redeclares something of an ancestor of its owner overrides. -/
structure EvidenceComplete : Prop where
  names : ∀ r ∈ rootIds, ∀ a, cg.Ancestor r a →
    r ∈ (ancestorEvidence cg rootIds).uncertainRoots ∨ ∀ name, cg.Declares a name →
      name ∈ ((ancestorEvidence cg rootIds).namesByRoot.lookup r).getD []
  overriding : ∀ (rows : List Candidate) (containers : List (String × Symbol)),
    unique (containers.map fun entry => entry.2.id) = rootIds → ∀ row ∈ rows, ∀ owner,
      containers.lookup row.node.id = some owner → ∀ a, cg.Ancestor owner.id a →
        cg.Declares a row.node.name → row.node.id ∈ overridingCandidates cg rows containers

/-- A wave holds a type for a root. -/
inductive InWave : Nat → String → String → Prop
  | root {r : String} (h : r ∈ rootIds) : InWave 0 r r
  | up {level : Nat} {r x y : String} (h : InWave level r x) (hop : cg.Extends x y)
      (hfirst : AtDistance cg.Extends (· ∈ rootIds) (level + 1) y) : InWave (level + 1) r y

/-- A type is one step from where a wave holds the root. -/
def Recorded (r a : String) : Prop :=
  ∃ level < maxOverrideAncestorDepth, ∃ x, InWave cg rootIds level r x ∧ cg.Extends x a ∧ x ≠ a

/-- The last wave goes on for the root, or one of its recorded ancestors declares nothing. -/
def Uncertain (r : String) : Prop :=
  (∃ x y, InWave cg rootIds maxOverrideAncestorDepth r x ∧ cg.Extends x y ∧
    ¬ Near cg.Extends (· ∈ rootIds) maxOverrideAncestorDepth y) ∨
  ∃ a, Recorded cg rootIds r a ∧ ∀ name, ¬ cg.Declares a name

/-- What the waves miss for a root is declared by what they record. -/
def Covered : Prop :=
  ∀ r ∈ rootIds, ¬ Uncertain cg rootIds r → ∀ a, cg.Ancestor r a → ¬ Recorded cg rootIds r a →
    ∀ name, cg.Declares a name → ∃ b, Recorded cg rootIds r b ∧ cg.Declares b name

end Spec

/-! ## Sets by id -/

theorem mem_unique {α : Type} [DecidableEq α] {values : List α} {v : α} :
    v ∈ unique values ↔ v ∈ values := by
  unfold unique
  induction values using List.reverseRecOn with
  | nil => rfl
  | append_singleton values w ih =>
      rw [List.foldl_append, List.mem_append, List.mem_singleton, ← ih]
      simp only [List.foldl_cons, List.foldl_nil]
      split
      · rename_i hw
        exact ⟨.inl, fun h => h.elim (fun hv => hv) fun hv => hv ▸ hw⟩
      · rw [List.mem_append, List.mem_singleton]

/-- Who is in the set of a key. -/
def IdSets.Has (m : IdSets) (key v : String) : Prop := v ∈ (m.lookup key).getD []

theorem IdSets.has_add {m : IdSets} {key other v : String} {values : List String} :
    (m.add key values).Has other v ↔ m.Has other v ∨ other = key ∧ v ∈ values := by
  unfold Has add
  by_cases hkey : other = key
  · rw [hkey, lookup_setEntry_self, Option.getD_some, mem_unique, List.mem_append]
    simp
  · rw [lookup_setEntry_ne _ _ hkey]
    simp [hkey]

/-- Adding many sets. -/
theorem IdSets.has_foldl {pairs : List (String × List String)} {m : IdSets} {key v : String} :
    IdSets.Has (pairs.foldl (fun (m : IdSets) (k, values) => m.add k values) m) key v ↔
      m.Has key v ∨ ∃ values, (key, values) ∈ pairs ∧ v ∈ values := by
  induction pairs generalizing m with
  | nil => simp
  | cons pair pairs ih =>
      obtain ⟨k, values⟩ := pair
      rw [List.foldl_cons, ih, has_add, or_assoc]
      refine or_congr_right ?_
      constructor
      · rintro (⟨rfl, hv⟩ | ⟨values', hmem, hv⟩)
        · exact ⟨values, List.mem_cons_self .., hv⟩
        · exact ⟨values', List.mem_cons_of_mem _ hmem, hv⟩
      · rintro ⟨values', hmem, hv⟩
        rcases List.mem_cons.mp hmem with heq | hmem
        · obtain ⟨rfl, rfl⟩ := Prod.mk.inj heq
          exact .inl ⟨rfl, hv⟩
        · exact .inr ⟨values', hmem, hv⟩

theorem IdSets.keys_foldl {pairs : List (String × List String)} {m : IdSets} {key : String} :
    key ∈ (pairs.foldl (fun (m : IdSets) (k, values) => m.add k values) m).map Prod.fst ↔
      key ∈ m.map Prod.fst ∨ key ∈ pairs.map Prod.fst := by
  induction pairs generalizing m with
  | nil => simp
  | cons pair pairs ih =>
      obtain ⟨k, values⟩ := pair
      rw [List.foldl_cons, ih]
      show key ∈ (setEntry m k _).map Prod.fst ∨ _ ↔ _
      rw [mem_keys_setEntry, List.map_cons, List.mem_cons, or_comm (a := key = k), or_assoc]

theorem IdSets.nodup_foldl {pairs : List (String × List String)} {m : IdSets}
    (h : (m.map Prod.fst).Nodup) :
    ((pairs.foldl (fun (m : IdSets) (k, values) => m.add k values) m).map Prod.fst).Nodup := by
  induction pairs generalizing m with
  | nil => exact h
  | cons pair pairs ih =>
      obtain ⟨k, values⟩ := pair
      exact ih (nodup_keys_setEntry h k _)

/-- Entries dropped by their keys. -/
theorem IdSets.has_filter {m : IdSets} {p : String → Bool} {key v : String} :
    IdSets.Has (m.filter fun entry => p entry.1) key v ↔ m.Has key v ∧ p key = true := by
  unfold Has
  induction m with
  | nil => simp
  | cons entry m ih =>
      obtain ⟨k, values⟩ := entry
      rw [List.filter_cons]
      by_cases hkey : key = k
      · subst hkey
        split
        · rename_i hp
          rw [List.lookup_cons_self, List.lookup_cons_self]
          exact (and_iff_left hp).symm
        · rename_i hp
          rw [ih]
          exact ⟨fun h => absurd h.2 hp, fun h => absurd h.2 hp⟩
      · have hbeq : (key == k) = false := by simpa using hkey
        rw [List.lookup_cons, hbeq]
        split
        · rw [List.lookup_cons, hbeq]
          exact ih
        · exact ih

/-! ## The waves -/

variable {cg : CodeGraph} {rootIds : List String} {level : Nat} {r x y a : String}

theorem InWave.distance (h : InWave cg rootIds level r x) :
    AtDistance cg.Extends (· ∈ rootIds) level x := by
  cases h with
  | root h => exact atDistance_zero_iff.mpr h
  | up h hop hfirst => exact hfirst

theorem inWave_zero_iff : InWave cg rootIds 0 r x ↔ r = x ∧ x ∈ rootIds := by
  constructor
  · rintro ⟨h⟩
    exact ⟨rfl, h⟩
  · rintro ⟨rfl, h⟩
    exact .root h

theorem inWave_succ_iff : InWave cg rootIds (level + 1) r y ↔
    (∃ x, InWave cg rootIds level r x ∧ cg.Extends x y) ∧
      ¬ Near cg.Extends (· ∈ rootIds) level y := by
  constructor
  · rintro (_ | ⟨h, hop, hfirst⟩)
    exact ⟨⟨_, h, hop⟩, (atDistance_succ_iff.mp hfirst).2⟩
  · rintro ⟨⟨x, h, hop⟩, hfar⟩
    exact .up h hop (atDistance_succ_iff.mpr ⟨⟨x, h.distance, hop⟩, hfar⟩)

theorem mem_hierarchy {ids : List String} {e : Edge} :
    e ∈ cg.getOutgoingEdgesFrom ids [.extends, .implements] ↔
      e ∈ cg.edges ∧ e.source ∈ ids ∧ (e.kind = .extends ∨ e.kind = .implements) := by
  simp [CodeGraph.getOutgoingEdgesFrom]

/-- What holds after so many levels. -/
structure LevelInv (cg : CodeGraph) (rootIds : List String) (level : Nat) (s : Ancestry) :
    Prop where
  seen : ∀ x, x ∈ s.seen ↔ Near cg.Extends (· ∈ rootIds) level x
  keys : ∀ x, x ∈ s.wave.map Prod.fst ↔ AtDistance cg.Extends (· ∈ rootIds) level x
  wave : ∀ x r, s.wave.Has x r ↔ InWave cg rootIds level r x
  ancestors : ∀ a r, s.ancestors.Has a r ↔
    ∃ before < level, ∃ x, InWave cg rootIds before r x ∧ cg.Extends x a ∧ x ≠ a
  distinct : (s.ancestors.map Prod.fst).Nodup

variable {s : Ancestry}

theorem levelInv_start (cg : CodeGraph) (rootIds : List String) :
    LevelInv cg rootIds 0 { seen := rootIds, wave := rootIds.map fun id => (id, [id]) } where
  seen x := near_zero_iff.symm
  keys x := by
    rw [atDistance_zero_iff, List.map_map]
    simp
  wave x r := by
    rw [inWave_zero_iff, IdSets.Has]
    induction rootIds with
    | nil => simp
    | cons id rest ih =>
        rw [List.map_cons, List.lookup_cons]
        by_cases hid : x = id
        · subst hid
          simp
        · have hbeq : (x == id) = false := by simpa using hid
          rw [hbeq]
          simp only [ih, List.mem_cons, hid, false_or]
  ancestors a r := by simp [IdSets.Has]
  distinct := List.nodup_nil

/-- What the edges of a level reach. -/
def reachedBy (cg : CodeGraph) (s : Ancestry) : List (String × List String) :=
  (cg.getOutgoingEdgesFrom (s.wave.map Prod.fst) [.extends, .implements]).filterMap fun e =>
    match s.wave.lookup e.source with
    | some roots => if e.source = e.target then none else some (e.target, roots)
    | none => none

theorem mem_reachedBy {roots : List String} : (y, roots) ∈ reachedBy cg s ↔
    ∃ x, cg.Extends x y ∧ x ≠ y ∧ s.wave.lookup x = some roots := by
  rw [reachedBy, List.mem_filterMap]
  constructor
  · rintro ⟨e, he, hsome⟩
    obtain ⟨hedge, -, hkind⟩ := mem_hierarchy.mp he
    cases hlookup : s.wave.lookup e.source with
    | none =>
        rw [hlookup] at hsome
        exact absurd hsome (by simp)
    | some values =>
        rw [hlookup] at hsome
        by_cases hself : e.source = e.target
        · simp [hself] at hsome
        · simp only [hself, if_false, Option.some.injEq, Prod.mk.injEq] at hsome
          obtain ⟨rfl, rfl⟩ := hsome
          exact ⟨e.source, ⟨e, hedge, hkind, rfl, rfl⟩, hself, hlookup⟩
  · rintro ⟨x, ⟨e, hedge, hkind, rfl, rfl⟩, hself, hlookup⟩
    refine ⟨e, mem_hierarchy.mpr ⟨hedge, ?_, hkind⟩, ?_⟩
    · exact List.mem_map_of_mem (mem_of_lookup hlookup)
    · simp [hlookup, hself]

theorem has_reachedBy (h : LevelInv cg rootIds level s) :
    (∃ roots, (y, roots) ∈ reachedBy cg s ∧ r ∈ roots) ↔
      ∃ x, InWave cg rootIds level r x ∧ cg.Extends x y ∧ x ≠ y := by
  constructor
  · rintro ⟨roots, hmem, hr⟩
    obtain ⟨x, hop, hself, hlookup⟩ := mem_reachedBy.mp hmem
    refine ⟨x, (h.wave x r).mp ?_, hop, hself⟩
    rw [IdSets.Has, hlookup]
    exact hr
  · rintro ⟨x, hwave, hop, hself⟩
    have hhas := (h.wave x r).mpr hwave
    rw [IdSets.Has] at hhas
    cases hlookup : s.wave.lookup x with
    | none =>
        rw [hlookup] at hhas
        exact absurd hhas List.not_mem_nil
    | some roots =>
        rw [hlookup] at hhas
        exact ⟨roots, mem_reachedBy.mpr ⟨x, hop, hself, hlookup⟩, hhas⟩

theorem keys_reachedBy (h : LevelInv cg rootIds level s) :
    y ∈ (reachedBy cg s).map Prod.fst ↔
      ∃ x, AtDistance cg.Extends (· ∈ rootIds) level x ∧ cg.Extends x y ∧ x ≠ y := by
  constructor
  · intro hy
    obtain ⟨⟨y', roots⟩, hmem, rfl⟩ := List.mem_map.mp hy
    obtain ⟨x, hop, hself, hlookup⟩ := mem_reachedBy.mp hmem
    exact ⟨x, (h.keys x).mp (List.mem_map_of_mem (mem_of_lookup hlookup)), hop, hself⟩
  · rintro ⟨x, hdist, hop, hself⟩
    cases hlookup : s.wave.lookup x with
    | none => exact absurd ((h.keys x).mpr hdist) (not_mem_keys_of_lookup hlookup)
    | some roots =>
        exact List.mem_map_of_mem (mem_reachedBy.mpr ⟨x, hop, hself, hlookup⟩)

/-- A new type of the next wave is not where it comes from. -/
theorem ne_of_not_near (hx : AtDistance cg.Extends (· ∈ rootIds) level x)
    (hy : ¬ Near cg.Extends (· ∈ rootIds) level y) : x ≠ y := by
  rintro rfl
  exact hy (near_of_steps hx.1)

theorem LevelInv.succ (h : LevelInv cg rootIds level s) :
    LevelInv cg rootIds (level + 1) (s.level cg) := by
  have hfilter : (s.level cg).wave = ((reachedBy cg s).foldl
      (fun (m : IdSets) (target, roots) => m.add target roots) []).filter
        fun entry => decide (entry.1 ∉ s.seen) := rfl
  have hnew : ∀ y, y ∈ ((reachedBy cg s).foldl
      (fun (m : IdSets) (target, roots) => m.add target roots) []).map Prod.fst ∧ y ∉ s.seen ↔
        AtDistance cg.Extends (· ∈ rootIds) (level + 1) y := by
    intro y
    rw [IdSets.keys_foldl, keys_reachedBy h, h.seen, atDistance_succ_iff]
    refine and_congr_left fun hfar => ?_
    constructor
    · rintro (hnil | ⟨x, hdist, hop, -⟩)
      · exact absurd hnil List.not_mem_nil
      · exact ⟨x, hdist, hop⟩
    · rintro ⟨x, hdist, hop⟩
      exact .inr ⟨x, hdist, hop, ne_of_not_near hdist hfar⟩
  constructor
  · intro y
    show y ∈ s.seen ++ List.filter _ (List.map Prod.fst _) ↔ _
    rw [List.mem_append, List.mem_filter, decide_eq_true_eq]
    change y ∈ s.seen ∨ (y ∈ ((reachedBy cg s).foldl
      (fun (m : IdSets) (target, roots) => m.add target roots) []).map Prod.fst ∧ y ∉ s.seen) ↔ _
    rw [hnew, h.seen]
    constructor
    · rintro (hnear | hdist)
      · exact hnear.mono (Nat.le_succ level)
      · exact near_of_steps hdist.1
    · intro hnear
      by_cases hold : Near cg.Extends (· ∈ rootIds) level y
      · exact .inl hold
      · exact .inr (atDistance_succ_iff.mpr ⟨(near_succ_iff.mp hnear).resolve_left hold, hold⟩)
  · intro y
    rw [← hnew, hfilter]
    constructor
    · intro hy
      obtain ⟨entry, hentry, rfl⟩ := List.mem_map.mp hy
      obtain ⟨hmem, hout⟩ := List.mem_filter.mp hentry
      exact ⟨List.mem_map_of_mem hmem, of_decide_eq_true hout⟩
    · rintro ⟨hmem, hout⟩
      obtain ⟨entry, hentry, rfl⟩ := List.mem_map.mp hmem
      exact List.mem_map_of_mem (List.mem_filter.mpr ⟨hentry, decide_eq_true hout⟩)
  · intro y r
    rw [hfilter, IdSets.has_filter (p := fun id => decide (id ∉ s.seen)), IdSets.has_foldl,
      has_reachedBy h, decide_eq_true_eq, h.seen, inWave_succ_iff]
    refine and_congr_left fun hfar => ?_
    constructor
    · rintro (hnil | ⟨x, hwave, hop, -⟩)
      · exact absurd hnil List.not_mem_nil
      · exact ⟨x, hwave, hop⟩
    · rintro ⟨x, hwave, hop⟩
      exact .inr ⟨x, hwave, hop, ne_of_not_near hwave.distance hfar⟩
  · intro y r
    show IdSets.Has ((reachedBy cg s).foldl _ s.ancestors) y r ↔ _
    rw [IdSets.has_foldl, has_reachedBy h, h.ancestors]
    constructor
    · rintro (⟨before, hlt, hrest⟩ | hlast)
      · exact ⟨before, Nat.lt_succ_of_lt hlt, hrest⟩
      · exact ⟨level, Nat.lt_succ_self level, hlast⟩
    · rintro ⟨before, hlt, hrest⟩
      rcases Nat.lt_or_eq_of_le (Nat.le_of_lt_succ hlt) with hlt | rfl
      · exact .inl ⟨before, hlt, hrest⟩
      · exact .inr hrest
  · exact IdSets.nodup_foldl h.distinct

/-- An empty wave stays empty. -/
theorem LevelInv.idle (h : LevelInv cg rootIds level s) (hempty : s.wave = []) (more : Nat) :
    LevelInv cg rootIds (level + more) s := by
  have hnone : ∀ x, ¬ AtDistance cg.Extends (· ∈ rootIds) level x := by
    intro x hx
    have hkey := (h.keys x).mpr hx
    rw [hempty] at hkey
    exact absurd hkey List.not_mem_nil
  have hnear : ∀ {k : Nat} {x : String}, Steps cg.Extends (· ∈ rootIds) k x →
      ∃ i < level, AtDistance cg.Extends (· ∈ rootIds) i x := by
    intro k x hsteps
    obtain ⟨i, hi, hdist⟩ := near_iff.mp (hsteps.near_of_empty hnone)
    refine ⟨i, ?_, hdist⟩
    rcases Nat.lt_or_ge i level with hlt | hge
    · exact hlt
    · obtain rfl : i = level := by omega
      exact absurd hdist (hnone x)
  have hdead : ∀ {k : Nat} {x : String}, level ≤ k →
      ¬ AtDistance cg.Extends (· ∈ rootIds) k x := by
    intro k x hle hdist
    obtain ⟨i, hi, hdist'⟩ := hnear hdist.1
    have heq := hdist.unique hdist'
    omega
  constructor
  · intro x
    rw [h.seen]
    refine ⟨fun hx => hx.mono (Nat.le_add_right _ _), ?_⟩
    rintro ⟨k, -, hsteps⟩
    obtain ⟨i, hi, hdist⟩ := hnear hsteps
    exact ⟨i, Nat.le_of_lt hi, hdist.1⟩
  · intro x
    rw [hempty]
    exact ⟨fun hx => absurd hx List.not_mem_nil, fun hx => absurd hx (hdead (Nat.le_add_right _ _))⟩
  · intro x r
    rw [hempty]
    exact ⟨fun hx => absurd hx List.not_mem_nil,
      fun hx => absurd hx.distance (hdead (Nat.le_add_right _ _))⟩
  · intro a r
    rw [h.ancestors]
    constructor
    · rintro ⟨before, hlt, hrest⟩
      exact ⟨before, Nat.lt_add_right more hlt, hrest⟩
    · rintro ⟨before, -, x, hwave, hrest⟩
      have hlt : before < level := Nat.lt_of_not_le fun hle => hdead hle hwave.distance
      exact ⟨before, hlt, x, hwave, hrest⟩
  · exact h.distinct

theorem LevelInv.climb (h : LevelInv cg rootIds level s) (levels : Nat) :
    LevelInv cg rootIds (level + levels) (Ancestry.climb cg levels s) := by
  induction levels generalizing level s with
  | zero => exact h
  | succ levels ih =>
      rw [Ancestry.climb]
      split
      · rename_i hempty
        exact h.idle (List.isEmpty_iff.mp hempty) _
      · have hnext := ih h.succ
        rw [Nat.add_right_comm] at hnext
        exact hnext

/-! ## The evidence -/

/-- The names of the members of a type that can be overridden. -/
def namesOf (cg : CodeGraph) (ids : List String) (typeId : String) : List String :=
  ((((cg.getOutgoingEdgesFrom ids [.contains]).filter fun e => e.source = typeId).filterMap
    fun e => cg.getNode e.target).filter fun n => n.kind ∈ overridable).map (·.name)

theorem mem_namesOf {ids : List String} (ha : a ∈ ids) {name : String} :
    name ∈ namesOf cg ids a ↔ cg.Declares a name := by
  simp only [namesOf, CodeGraph.getOutgoingEdgesFrom, List.mem_map, List.mem_filter,
    List.mem_filterMap, Bool.and_eq_true, decide_eq_true_eq, List.mem_singleton]
  constructor
  · rintro ⟨n, ⟨⟨e, ⟨⟨hedge, -, hkind⟩, hsource⟩, hnode⟩, hover⟩, rfl⟩
    exact ⟨e, hedge, hkind, hsource, n, hnode, hover, rfl⟩
  · rintro ⟨e, hedge, hkind, hsource, n, hnode, hover, rfl⟩
    exact ⟨n, ⟨⟨e, ⟨⟨hedge, hsource ▸ ha, hkind⟩, hsource⟩, hnode⟩, hover⟩, rfl⟩

/-- What the members of one ancestor say about the roots under it. -/
def sayOf (cg : CodeGraph) (ids : List String) (evidence : AncestorEvidence)
    (entry : String × List String) : AncestorEvidence :=
  if (namesOf cg ids entry.1).isEmpty then
    { evidence with uncertainRoots := unique (evidence.uncertainRoots ++ entry.2) }
  else
    { evidence with
      namesByRoot := entry.2.foldl (fun (m : IdSets) root => m.add root (namesOf cg ids entry.1))
        evidence.namesByRoot }

theorem IdSets.has_foldl_names {roots values : List String} {m : IdSets} {key v : String} :
    IdSets.Has (roots.foldl (fun (m : IdSets) root => m.add root values) m) key v ↔
      m.Has key v ∨ key ∈ roots ∧ v ∈ values := by
  induction roots generalizing m with
  | nil => simp
  | cons root roots ih =>
      rw [List.foldl_cons, ih, has_add, List.mem_cons]
      tauto

theorem mem_uncertain_foldl {ids : List String} {entries : List (String × List String)}
    {evidence : AncestorEvidence} :
    r ∈ (entries.foldl (sayOf cg ids) evidence).uncertainRoots ↔
      r ∈ evidence.uncertainRoots ∨
        ∃ entry ∈ entries, r ∈ entry.2 ∧ namesOf cg ids entry.1 = [] := by
  induction entries generalizing evidence with
  | nil => simp
  | cons entry entries ih =>
      rw [List.foldl_cons, ih, List.exists_mem_cons_iff, ← or_assoc]
      refine or_congr_left ?_
      unfold sayOf
      split
      · rename_i hempty
        rw [mem_unique, List.mem_append, and_iff_left (List.isEmpty_iff.mp hempty)]
      · rename_i hnames
        rw [List.isEmpty_iff] at hnames
        exact ⟨.inl, fun h => h.elim (fun hr => hr) fun hr => absurd hr.2 hnames⟩

theorem has_names_foldl {ids : List String} {entries : List (String × List String)}
    {evidence : AncestorEvidence} {name : String} :
    IdSets.Has (entries.foldl (sayOf cg ids) evidence).namesByRoot r name ↔
      evidence.namesByRoot.Has r name ∨
        ∃ entry ∈ entries, r ∈ entry.2 ∧ name ∈ namesOf cg ids entry.1 := by
  induction entries generalizing evidence with
  | nil => simp
  | cons entry entries ih =>
      rw [List.foldl_cons, ih, List.exists_mem_cons_iff, ← or_assoc]
      refine or_congr_left ?_
      unfold sayOf
      split
      · rename_i hempty
        rw [List.isEmpty_iff] at hempty
        rw [hempty]
        exact ⟨.inl, fun h => h.elim (fun hr => hr) fun hr => absurd hr.2 List.not_mem_nil⟩
      · rw [IdSets.has_foldl_names]

/-- The entries of a set of sets. -/
theorem IdSets.has_iff {m : IdSets} (h : (m.map Prod.fst).Nodup) {key v : String} :
    m.Has key v ↔ ∃ values, (key, values) ∈ m ∧ v ∈ values := by
  rw [Has]
  constructor
  · intro hv
    cases hlookup : m.lookup key with
    | none =>
        rw [hlookup] at hv
        exact absurd hv List.not_mem_nil
    | some values =>
        rw [hlookup] at hv
        exact ⟨values, mem_of_lookup hlookup, hv⟩
  · rintro ⟨values, hmem, hv⟩
    rw [lookup_of_mem h hmem]
    exact hv

/-- The walk when all levels are done. -/
def climbed (cg : CodeGraph) (rootIds : List String) : Ancestry :=
  Ancestry.climb cg maxOverrideAncestorDepth
    { seen := rootIds, wave := rootIds.map fun id => (id, [id]) }

theorem levelInv_climbed (cg : CodeGraph) (rootIds : List String) :
    LevelInv cg rootIds maxOverrideAncestorDepth (climbed cg rootIds) := by
  have h := (levelInv_start cg rootIds).climb maxOverrideAncestorDepth
  rwa [Nat.zero_add] at h

/-- The roots that the look-ahead holds uncertain. -/
def aheadOf (cg : CodeGraph) (s : Ancestry) : List String :=
  (cg.getOutgoingEdgesFrom (s.wave.map Prod.fst) [.extends, .implements]).flatMap
    fun e => if e.source = e.target || e.target ∈ s.seen then []
      else (s.wave.lookup e.source).getD []

theorem ancestorEvidence_eq (cg : CodeGraph) (rootIds : List String) :
    ancestorEvidence cg rootIds = (climbed cg rootIds).ancestors.foldl
      (sayOf cg ((climbed cg rootIds).ancestors.map Prod.fst))
      { uncertainRoots := unique (aheadOf cg (climbed cg rootIds)) } := rfl

theorem recorded_iff : Recorded cg rootIds r a ↔ ∃ entry ∈ (climbed cg rootIds).ancestors,
    entry.1 = a ∧ r ∈ entry.2 := by
  have h := levelInv_climbed cg rootIds
  rw [Recorded, ← h.ancestors, IdSets.has_iff h.distinct]
  constructor
  · rintro ⟨values, hmem, hr⟩
    exact ⟨(a, values), hmem, rfl, hr⟩
  · rintro ⟨⟨a, values⟩, hmem, rfl, hr⟩
    exact ⟨values, hmem, hr⟩

theorem mem_aheadOf : r ∈ aheadOf cg (climbed cg rootIds) ↔
    ∃ x y, InWave cg rootIds maxOverrideAncestorDepth r x ∧ cg.Extends x y ∧
      ¬ Near cg.Extends (· ∈ rootIds) maxOverrideAncestorDepth y := by
  have h := levelInv_climbed cg rootIds
  rw [aheadOf, List.mem_flatMap]
  constructor
  · rintro ⟨e, he, hr⟩
    obtain ⟨hedge, -, hkind⟩ := mem_hierarchy.mp he
    split at hr
    · exact absurd hr List.not_mem_nil
    · rename_i hopen
      rw [Bool.or_eq_true, not_or, decide_eq_true_eq, decide_eq_true_eq] at hopen
      refine ⟨e.source, e.target, (h.wave _ _).mp hr, ⟨e, hedge, hkind, rfl, rfl⟩, fun hnear => ?_⟩
      exact hopen.2 ((h.seen _).mpr hnear)
  · rintro ⟨x, y, hwave, ⟨e, hedge, hkind, rfl, rfl⟩, hfar⟩
    refine ⟨e, mem_hierarchy.mpr ⟨hedge, (h.keys _).mpr hwave.distance, hkind⟩, ?_⟩
    rw [if_neg]
    · exact (h.wave _ _).mpr hwave
    · rw [Bool.or_eq_true, not_or, decide_eq_true_eq, decide_eq_true_eq]
      exact ⟨ne_of_not_near hwave.distance hfar, fun hseen => hfar ((h.seen _).mp hseen)⟩

theorem mem_uncertainRoots :
    r ∈ (ancestorEvidence cg rootIds).uncertainRoots ↔ Uncertain cg rootIds r := by
  rw [ancestorEvidence_eq, mem_uncertain_foldl, mem_unique, mem_aheadOf, Uncertain]
  refine or_congr_right ?_
  constructor
  · rintro ⟨entry, hentry, hr, hnone⟩
    refine ⟨entry.1, recorded_iff.mpr ⟨entry, hentry, rfl, hr⟩, fun name hname => ?_⟩
    have hmem := (mem_namesOf (List.mem_map_of_mem hentry)).mpr hname
    rw [hnone] at hmem
    exact absurd hmem List.not_mem_nil
  · rintro ⟨a, hrecorded, hnone⟩
    obtain ⟨entry, hentry, rfl, hr⟩ := recorded_iff.mp hrecorded
    refine ⟨entry, hentry, hr, ?_⟩
    rw [List.eq_nil_iff_forall_not_mem]
    exact fun name hname => hnone name ((mem_namesOf (List.mem_map_of_mem hentry)).mp hname)

theorem mem_namesByRoot {name : String} :
    name ∈ ((ancestorEvidence cg rootIds).namesByRoot.lookup r).getD [] ↔
      ∃ a, Recorded cg rootIds r a ∧ cg.Declares a name := by
  rw [ancestorEvidence_eq]
  refine has_names_foldl.trans ?_
  have hnone : ¬ IdSets.Has [] r name := List.not_mem_nil
  rw [or_iff_right hnone]
  constructor
  · rintro ⟨entry, hentry, hr, hname⟩
    exact ⟨entry.1, recorded_iff.mpr ⟨entry, hentry, rfl, hr⟩,
      (mem_namesOf (List.mem_map_of_mem hentry)).mp hname⟩
  · rintro ⟨a, hrecorded, hname⟩
    obtain ⟨entry, hentry, rfl, hr⟩ := recorded_iff.mp hrecorded
    exact ⟨entry, hentry, hr, (mem_namesOf (List.mem_map_of_mem hentry)).mpr hname⟩

/-! ## When it is complete -/

/-- With the names, the candidates that redeclare them. -/
theorem mem_overridingCandidates {rows : List Candidate} {containers : List (String × Symbol)}
    {row : Candidate} (hrow : row ∈ rows) {owner : Symbol}
    (howner : containers.lookup row.node.id = some owner)
    (hevidence : owner.id ∈ (ancestorEvidence cg
        (unique (containers.map fun entry => entry.2.id))).uncertainRoots ∨
      row.node.name ∈ ((ancestorEvidence cg
        (unique (containers.map fun entry => entry.2.id))).namesByRoot.lookup owner.id).getD []) :
    row.node.id ∈ overridingCandidates cg rows containers := by
  rw [overridingCandidates]
  refine List.mem_map_of_mem (List.mem_filter.mpr ⟨hrow, ?_⟩)
  simp only [howner, Bool.or_eq_true, decide_eq_true_eq]
  exact hevidence

/-- The evidence is complete exactly when nothing is missed that is not declared elsewhere. -/
theorem evidenceComplete_iff (cg : CodeGraph) (rootIds : List String) :
    EvidenceComplete cg rootIds ↔ Covered cg rootIds := by
  constructor
  · intro hcomplete r hr hcertain a ha _ name hname
    rcases hcomplete.names r hr a ha with huncertain | hall
    · exact absurd (mem_uncertainRoots.mp huncertain) hcertain
    · exact mem_namesByRoot.mp (hall name hname)
  · intro hcovered
    have hnames : ∀ r ∈ rootIds, ∀ a, cg.Ancestor r a →
        r ∈ (ancestorEvidence cg rootIds).uncertainRoots ∨ ∀ name, cg.Declares a name →
          name ∈ ((ancestorEvidence cg rootIds).namesByRoot.lookup r).getD [] := by
      intro r hr a ha
      by_cases huncertain : Uncertain cg rootIds r
      · exact .inl (mem_uncertainRoots.mpr huncertain)
      · right
        intro name hname
        rw [mem_namesByRoot]
        by_cases hrecorded : Recorded cg rootIds r a
        · exact ⟨a, hrecorded, hname⟩
        · exact hcovered r hr huncertain a ha hrecorded name hname
    refine ⟨hnames, ?_⟩
    rintro rows containers rfl row hrow owner howner a ha hname
    have hroot : owner.id ∈ unique (containers.map fun entry => entry.2.id) :=
      mem_unique.mpr (List.mem_map_of_mem (mem_of_lookup howner))
    exact mem_overridingCandidates hrow howner
      ((hnames owner.id hroot a ha).imp_right fun hall => hall _ hname)

/-- One owner alone has all its evidence. -/
theorem covered_singleton (cg : CodeGraph) (r : String) : Covered cg [r] := by
  intro r' hr' _ a ha hmissed
  obtain rfl := List.mem_singleton.mp hr'
  have hsources : ∀ {k : Nat} {x : String}, AtDistance cg.Extends (· = r') k x →
      AtDistance cg.Extends (· ∈ [r']) k x := by
    intro k x hdist
    refine ⟨hdist.1.mono (fun _ _ h => h) fun _ h => List.mem_singleton.mpr h, fun j hj => ?_⟩
    exact hdist.2 j (hj.mono (fun _ _ h => h) fun _ h => List.mem_singleton.mp h)
  have hwave : ∀ {k : Nat} {x : String}, AtDistance cg.Extends (· = r') k x →
      InWave cg [r'] k r' x := by
    intro k
    induction k with
    | zero =>
        intro x hdist
        exact inWave_zero_iff.mpr ⟨hdist.eq_start.symm, List.mem_singleton.mpr hdist.eq_start⟩
    | succ k ih =>
        intro x hdist
        obtain ⟨⟨u, hu, hop⟩, -⟩ := atDistance_succ_iff.mp hdist
        exact .up (ih hu) hop (hsources hdist)
  obtain ⟨k, hk, hdist⟩ := near_iff.mp ha.2
  cases k with
  | zero => exact absurd hdist.eq_start ha.1
  | succ k =>
      obtain ⟨⟨u, hu, hop⟩, hfar⟩ := atDistance_succ_iff.mp hdist
      refine absurd ⟨k, hk, u, hwave hu, hop, ?_⟩ hmissed
      rintro rfl
      exact hfar (near_of_steps hu.1)

/-- `Leaf` extends `Middle`, which extends `Base`, each with one method. -/
def chain : CodeGraph where
  nodes :=
    (["Leaf", "Middle", "Base"].map fun id =>
      { id, kind := .class, name := id, qualifiedName := id, filePath := "f.ts",
        language := .typescript, startLine := 1, endLine := 9, isExported := false,
        isAbstract := false, decorators := [] }) ++
    ([("leafRun", "run"), ("middleStop", "stop"), ("baseRun", "run")].map fun (id, name) =>
      { id, kind := .method, name, qualifiedName := id, filePath := "f.ts",
        language := .typescript, startLine := 1, endLine := 9, isExported := false,
        isAbstract := false, decorators := [] })
  edges :=
    ([("Leaf", "Middle"), ("Middle", "Base")].map fun (source, target) =>
      ⟨source, target, .extends, none, none, none, none⟩) ++
    ([("Leaf", "leafRun"), ("Middle", "middleStop"), ("Base", "baseRun")].map
      fun (source, target) => ⟨source, target, .contains, none, none, none, none⟩)
  files := []
  unresolvedRefs := []
  ids := by decide

/-- `Middle` is an owner itself, so that `Base` is recorded for it alone: that `Leaf` overrides
`run` is missed. -/
theorem evidenceComplete_fails : ¬ EvidenceComplete chain ["Leaf", "Middle"] := by
  intro hcomplete
  have hmiddle : chain.Extends "Leaf" "Middle" :=
    ⟨⟨"Leaf", "Middle", .extends, none, none, none, none⟩, by decide, .inl rfl, rfl, rfl⟩
  have hbase : chain.Extends "Middle" "Base" :=
    ⟨⟨"Middle", "Base", .extends, none, none, none, none⟩, by decide, .inl rfl, rfl, rfl⟩
  have hleaf : chain.Ancestor "Leaf" "Base" :=
    ⟨by decide, 2, by decide, .step (.step (.source rfl) hmiddle) hbase⟩
  have hrun : chain.Declares "Base" "run" := by
    refine ⟨⟨"Base", "baseRun", .contains, none, none, none, none⟩, by decide, rfl, rfl, _, rfl, ?_⟩
    decide
  rcases hcomplete.names "Leaf" (by decide) "Base" hleaf with huncertain | hall
  · exact absurd huncertain (by decide)
  · exact absurd (hall "run" hrun) (by decide)

end AfyxGraph.Graph.DeadCode
