import AfyxGraph.Core.Breadth
import AfyxGraph.Core.Loop
import Mathlib.Data.List.Perm.Subperm
import Mathlib.Data.Set.Finite.Lattice

/-! # Files that depend on a file

`walkFileDependents` searches breadth first from every seed, through one-hop dependents. A file at
which `stopAt` holds is recorded and not expanded.
-/

namespace AfyxGraph.Graph

open AfyxGraph.Core

structure FileDependentsWalkResult where
  reached : List String
  stopped : List String
  deriving DecidableEq, Repr

/-- The search from one seed. -/
structure SeedWalk extends FileDependentsWalkResult where
  queue : List (String × Nat)
  visited : List String

/-- `stopAt?.(file)` -/
def stopsAt (stopAt : Option (String → Bool)) (file : String) : Bool :=
  match stopAt with
  | none => false
  | some stopAt => stopAt file

/-- One turn of the inner loop. -/
def SeedWalk.discover (stopAt : Option (String → Bool)) (depth : Nat) (w : SeedWalk)
    (dep : String) : SeedWalk :=
  if dep ∈ w.visited then w
  else if stopsAt stopAt dep then
    { w with
      visited := w.visited ++ [dep]
      reached := addNew w.reached dep
      stopped := addNew w.stopped dep }
  else
    { w with
      visited := w.visited ++ [dep]
      reached := addNew w.reached dep
      queue := w.queue ++ [(dep, depth + 1)] }

section Walk

variable (getFileDependents : String → List String) (maxDepth : ℕ∞)
  (stopAt : Option (String → Bool))

def seedTurn (w : SeedWalk) : Option SeedWalk :=
  match w.queue with
  | [] => none
  | (file, depth) :: queue =>
      if maxDepth ≤ depth then some { w with queue }
      else
        some ((getFileDependents file).foldl (SeedWalk.discover stopAt depth) { w with queue })

/-- `none` when the queue is not used up after so many turns. -/
def walkSeed (turns : Nat) (result : FileDependentsWalkResult) (seed : String) :
    Option FileDependentsWalkResult :=
  if stopsAt stopAt seed then some { result with stopped := addNew result.stopped seed }
  else
    let w := loop (seedTurn getFileDependents maxDepth stopAt) turns
      { result with queue := [(seed, 0)], visited := [seed] }
    if w.queue = [] then some w.toFileDependentsWalkResult else none

def walkFileDependents (turns : Nat) (seeds : List String) : Option FileDependentsWalkResult :=
  seeds.foldlM (walkSeed getFileDependents maxDepth stopAt turns) ⟨[], []⟩

/-! ## What it is to reach -/

/-- One hop from a file at which the walk does not stop. -/
def Passes (u v : String) : Prop := stopsAt stopAt u = false ∧ v ∈ getFileDependents u

/-- The files on a chain of at most `maxDepth` hops from a seed. -/
def Chained (seed file : String) : Prop :=
  ∃ k : Nat, (k : ℕ∞) ≤ maxDepth ∧ Steps (Passes getFileDependents stopAt) (· = seed) k file

/-- A chain of one hop or more that leads from a seed to another file. -/
def ReachedFrom (seed file : String) : Prop :=
  stopsAt stopAt seed = false ∧ file ≠ seed ∧
    ∃ k : Nat, 1 ≤ k ∧ (k : ℕ∞) ≤ maxDepth ∧
      Steps (Passes getFileDependents stopAt) (· = seed) k file

/-- A walk over finitely many files ends, and so does one of bounded depth. -/
structure WalksDependents (seeds : List String) : Prop where
  ends : (∀ seed ∈ seeds, {file | Chained getFileDependents maxDepth stopAt seed file}.Finite) →
    ∃ enough, ∀ turns ≥ enough,
      (walkFileDependents getFileDependents maxDepth stopAt turns seeds).isSome
  finite : maxDepth ≠ ⊤ →
    ∀ seed, {file | Chained getFileDependents maxDepth stopAt seed file}.Finite
  reached : ∀ turns result,
    walkFileDependents getFileDependents maxDepth stopAt turns seeds = some result →
    ∀ file, file ∈ result.reached ↔
      ∃ seed ∈ seeds, ReachedFrom getFileDependents maxDepth stopAt seed file
  stopped : ∀ turns result,
    walkFileDependents getFileDependents maxDepth stopAt turns seeds = some result →
    ∀ file, file ∈ result.stopped ↔
      stopsAt stopAt file = true ∧ (file ∈ seeds ∨ file ∈ result.reached)

end Walk

/-! ## One file is expanded -/

variable {getFileDependents : String → List String} {maxDepth : ℕ∞}
  {stopAt : Option (String → Bool)}

/-- What the inner loop adds for the dependents of a file. -/
structure Discovers (stopAt : Option (String → Bool)) (depth : Nat) (deps : List String)
    (w w' : SeedWalk) (new : List String) : Prop where
  once : new.Nodup
  fresh : ∀ dep ∈ new, dep ∈ deps ∧ dep ∉ w.visited
  all : ∀ dep ∈ deps, dep ∈ w.visited ∨ dep ∈ new
  visited : w'.visited = w.visited ++ new
  queue : w'.queue =
    w.queue ++ (new.map (·, depth + 1)).filter fun x => !stopsAt stopAt x.1
  reached : ∀ file, file ∈ w'.reached ↔ file ∈ w.reached ∨ file ∈ new
  stopped : ∀ file, file ∈ w'.stopped ↔
    file ∈ w.stopped ∨ file ∈ new ∧ stopsAt stopAt file = true

theorem Discovers.nil (depth : Nat) (w : SeedWalk) : Discovers stopAt depth [] w w [] where
  once := List.nodup_nil
  fresh dep hdep := absurd hdep List.not_mem_nil
  all dep hdep := absurd hdep List.not_mem_nil
  visited := by simp
  queue := by simp
  reached file := by simp
  stopped file := by simp

theorem Discovers.visited_before {depth : Nat} {dep : String} {deps : List String}
    {w w' : SeedWalk} {new : List String} (h : Discovers stopAt depth deps w w' new)
    (hdep : dep ∈ w.visited) : Discovers stopAt depth (dep :: deps) w w' new where
  once := h.once
  fresh d hd := ⟨List.mem_cons_of_mem _ (h.fresh d hd).1, (h.fresh d hd).2⟩
  all d hd := by
    rcases List.mem_cons.mp hd with rfl | hd
    · exact .inl hdep
    · exact h.all d hd
  visited := h.visited
  queue := h.queue
  reached := h.reached
  stopped := h.stopped

/-- One dependent is discovered before the others. -/
theorem Discovers.cons {depth : Nat} {dep : String} {deps : List String} {w w' : SeedWalk}
    {new : List String} (hdep : dep ∉ w.visited)
    (h : Discovers stopAt depth deps (w.discover stopAt depth dep) w' new) :
    Discovers stopAt depth (dep :: deps) w w' (dep :: new) := by
  have hvisited : (w.discover stopAt depth dep).visited = w.visited ++ [dep] := by
    unfold SeedWalk.discover
    rw [if_neg hdep]
    split <;> rfl
  have hqueue : (w.discover stopAt depth dep).queue =
      w.queue ++ [(dep, depth + 1)].filter fun x => !stopsAt stopAt x.1 := by
    unfold SeedWalk.discover
    rw [if_neg hdep]
    split <;> simp_all
  have hreached : (w.discover stopAt depth dep).reached = addNew w.reached dep := by
    unfold SeedWalk.discover
    rw [if_neg hdep]
    split <;> rfl
  have hstopped : ∀ file, file ∈ (w.discover stopAt depth dep).stopped ↔
      file ∈ w.stopped ∨ file = dep ∧ stopsAt stopAt file = true := by
    intro file
    unfold SeedWalk.discover
    rw [if_neg hdep]
    split
    · rename_i hstop
      simp only [mem_addNew]
      constructor
      · rintro (hmem | rfl)
        · exact .inl hmem
        · exact .inr ⟨rfl, hstop⟩
      · rintro (hmem | ⟨rfl, -⟩)
        · exact .inl hmem
        · exact .inr rfl
    · rename_i hpass
      constructor
      · exact .inl
      · rintro (hmem | ⟨rfl, hstop⟩)
        · exact hmem
        · exact absurd hstop hpass
  constructor
  · refine List.nodup_cons.mpr ⟨fun hmem => ?_, h.once⟩
    have hfresh := (h.fresh dep hmem).2
    rw [hvisited] at hfresh
    exact hfresh (List.mem_append_right _ (List.mem_singleton_self dep))
  · intro d hd
    rcases List.mem_cons.mp hd with rfl | hd
    · exact ⟨List.mem_cons_self .., hdep⟩
    · obtain ⟨hmem, hfresh⟩ := h.fresh d hd
      rw [hvisited] at hfresh
      exact ⟨List.mem_cons_of_mem _ hmem, fun hv => hfresh (List.mem_append_left _ hv)⟩
  · intro d hd
    rcases List.mem_cons.mp hd with rfl | hd
    · exact .inr (List.mem_cons_self ..)
    · rcases h.all d hd with hmem | hmem
      · rw [hvisited] at hmem
        rcases List.mem_append.mp hmem with hmem | hmem
        · exact .inl hmem
        · exact .inr (List.mem_singleton.mp hmem ▸ List.mem_cons_self ..)
      · exact .inr (List.mem_cons_of_mem _ hmem)
  · rw [h.visited, hvisited, List.append_assoc, List.singleton_append]
  · rw [h.queue, hqueue, List.append_assoc, ← List.filter_append]
    rfl
  · intro file
    rw [h.reached, hreached, mem_addNew, List.mem_cons, or_assoc]
  · intro file
    rw [h.stopped, hstopped, List.mem_cons, or_assoc, or_and_right]

theorem discoverAll_spec (depth : Nat) (deps : List String) (w : SeedWalk) :
    ∃ new, Discovers stopAt depth deps w
      (deps.foldl (SeedWalk.discover stopAt depth) w) new := by
  induction deps generalizing w with
  | nil => exact ⟨[], .nil depth w⟩
  | cons dep deps ih =>
      rw [List.foldl_cons]
      by_cases hdep : dep ∈ w.visited
      · have hsame : w.discover stopAt depth dep = w := if_pos hdep
        rw [hsame]
        obtain ⟨new, hnew⟩ := ih w
        exact ⟨new, hnew.visited_before hdep⟩
      · obtain ⟨new, hnew⟩ := ih (w.discover stopAt depth dep)
        exact ⟨dep :: new, .cons hdep hnew⟩

/-! ## The search from one seed -/

/-- What holds between two turns. The files at which the walk stops are in `pending` and not in
the queue: they lead nowhere. -/
structure SeedInv (getFileDependents : String → List String) (maxDepth : ℕ∞)
    (stopAt : Option (String → Bool)) (seed : String) (before : FileDependentsWalkResult)
    (w : SeedWalk) (done pending : List (String × Nat)) : Prop where
  breadth : Breadth.Inv (Passes getFileDependents stopAt) seed maxDepth done pending
  queue : w.queue = pending.filter fun x => !stopsAt stopAt x.1
  visited : w.visited = (done ++ pending).map Prod.fst
  reached : ∀ file, file ∈ w.reached ↔
    file ∈ before.reached ∨ file ≠ seed ∧ file ∈ w.visited
  stopped : ∀ file, file ∈ w.stopped ↔
    file ∈ before.stopped ∨ stopsAt stopAt file = true ∧ file ∈ w.visited

theorem seedInv_start {seed : String} (hseed : stopsAt stopAt seed = false)
    (before : FileDependentsWalkResult) :
    SeedInv getFileDependents maxDepth stopAt seed before
      { before with queue := [(seed, 0)], visited := [seed] } [] [(seed, 0)] where
  breadth := Breadth.inv_init _ seed maxDepth
  queue := by simp [hseed]
  visited := rfl
  reached file := by simp
  stopped file := by
    constructor
    · exact .inl
    · rintro (hmem | ⟨hstop, hmem⟩)
      · exact hmem
      · rw [List.mem_singleton.mp hmem, hseed] at hstop
        cases hstop

theorem seedTurn_inv {seed : String} {before : FileDependentsWalkResult} {w w' : SeedWalk}
    {done pending : List (String × Nat)}
    (hinv : SeedInv getFileDependents maxDepth stopAt seed before w done pending)
    (h : seedTurn getFileDependents maxDepth stopAt w = some w') :
    ∃ done' pending',
      SeedInv getFileDependents maxDepth stopAt seed before w' done' pending' ∧
      w'.queue.length + w.visited.length < w.queue.length + w'.visited.length := by
  unfold seedTurn at h
  cases hqueue : w.queue with
  | nil => simp [hqueue] at h
  | cons head rest =>
      obtain ⟨file, depth⟩ := head
      rw [hqueue] at h
      -- what the search stops at is passed over
      obtain ⟨front, back, hpending, hfront, hpass, hrest⟩ :=
        List.filter_eq_cons_iff.mp (hinv.queue.symm.trans hqueue)
      have hpass : stopsAt stopAt file = false := by simpa using hpass
      have hbreadth := hinv.breadth
      have hvisited := hinv.visited
      rw [hpending] at hbreadth hvisited
      have hskip := hbreadth.skip fun x hx v hop => by
        have hstop := hfront x hx
        simp [hop.1] at hstop
      have hkeys : w.visited = (done ++ front ++ (file, depth) :: back).map Prod.fst := by
        rw [hvisited, List.append_assoc]
      by_cases hdeep : maxDepth ≤ depth
      · simp only [hdeep, if_true, Option.some.injEq] at h
        have hclosed : ¬ (depth : ℕ∞) < maxDepth := not_lt_of_ge hdeep
        have hexpand := hskip.expand List.nodup_nil (fun v hv => absurd hv List.not_mem_nil)
          (fun hlt => absurd hlt hclosed)
        subst h
        refine ⟨done ++ front ++ [(file, depth)], back, ⟨by simpa using hexpand, hrest.symm, ?_,
          hinv.reached, hinv.stopped⟩, ?_⟩
        · rw [hkeys]
          simp
        · show rest.length + w.visited.length < (_ :: rest).length + w.visited.length
          rw [List.length_cons]
          omega
      · simp only [hdeep, if_false, Option.some.injEq] at h
        obtain ⟨new, hnew⟩ := @discoverAll_spec stopAt depth (getFileDependents file)
          { w with queue := rest }
        rw [h] at hnew
        have hnewVisited : w'.visited = w.visited ++ new := hnew.visited
        have hexpand := Breadth.Inv.expand hskip hnew.once
          (fun v hv => ⟨lt_of_not_ge hdeep, ⟨hpass, (hnew.fresh v hv).1⟩,
            hkeys ▸ (hnew.fresh v hv).2⟩)
          (fun _ v hop => (hnew.all v hop.2).imp (hkeys ▸ ·) id)
        refine ⟨done ++ front ++ [(file, depth)], back ++ new.map (·, depth + 1),
          ⟨hexpand, ?_, ?_, ?_, ?_⟩, ?_⟩
        · rw [hnew.queue, List.filter_append, hrest]
        · rw [hnewVisited, hkeys]
          simp [Function.comp_def]
        · intro f
          rw [hnew.reached, hinv.reached, hnewVisited, List.mem_append, or_assoc]
          refine or_congr Iff.rfl ?_
          constructor
          · rintro (⟨hne, hmem⟩ | hmem)
            · exact ⟨hne, .inl hmem⟩
            · refine ⟨fun hseed => (hnew.fresh f hmem).2 ?_, .inr hmem⟩
              rw [show ({ w with queue := rest } : SeedWalk).visited = w.visited from rfl,
                hinv.visited, hseed]
              exact List.mem_map_of_mem hinv.breadth.root
          · rintro ⟨hne, hmem | hmem⟩
            · exact .inl ⟨hne, hmem⟩
            · exact .inr hmem
        · intro f
          rw [hnew.stopped, hinv.stopped, hnewVisited, List.mem_append, and_or_left, or_assoc,
            and_comm (a := f ∈ new)]
        · have hlength := hnew.queue
          have hle := List.length_filter_le (fun x => !stopsAt stopAt x.1)
            (new.map (·, depth + 1))
          rw [List.length_map] at hle
          rw [hnewVisited, hnew.queue, List.length_append, List.length_append, List.length_cons]
          show rest.length + _ + _ < _
          omega

variable (getFileDependents maxDepth stopAt) in
/-- The state after so many turns. -/
def seedEnd (turns : Nat) (before : FileDependentsWalkResult) (seed : String) : SeedWalk :=
  loop (seedTurn getFileDependents maxDepth stopAt) turns
    { before with queue := [(seed, 0)], visited := [seed] }

theorem seedEnd_inv {seed : String} (hseed : stopsAt stopAt seed = false)
    (before : FileDependentsWalkResult) (turns : Nat) :
    ∃ done pending, SeedInv getFileDependents maxDepth stopAt seed before
      (seedEnd getFileDependents maxDepth stopAt turns before seed) done pending := by
  apply @loop_invariant _ _ (fun w => ∃ done pending,
    SeedInv getFileDependents maxDepth stopAt seed before w done pending)
  · rintro w w' ⟨done, pending, hinv⟩ hturn
    obtain ⟨done', pending', hinv', -⟩ := seedTurn_inv hinv hturn
    exact ⟨done', pending', hinv'⟩
  · exact ⟨_, _, seedInv_start hseed before⟩

/-- When the queue is used up, the files on a chain have been visited. -/
theorem SeedInv.visited_iff {seed : String} {before : FileDependentsWalkResult} {w : SeedWalk}
    {done pending : List (String × Nat)}
    (hinv : SeedInv getFileDependents maxDepth stopAt seed before w done pending)
    (hend : w.queue = []) (file : String) :
    file ∈ w.visited ↔ Chained getFileDependents maxDepth stopAt seed file := by
  have hstop : ∀ x ∈ pending, ∀ v, ¬ Passes getFileDependents stopAt x.1 v := by
    intro x hx v hop
    have hnone := List.filter_eq_nil_iff.mp (hinv.queue.symm.trans hend) x hx
    simp [hop.1] at hnone
  have hdone : Breadth.Inv (Passes getFileDependents stopAt) seed maxDepth (done ++ pending)
      [] := by
    apply Breadth.Inv.skip _ hstop
    simpa using hinv.breadth
  rw [hinv.visited, List.mem_map]
  constructor
  · rintro ⟨⟨f, k⟩, hmem, rfl⟩
    obtain ⟨hle, hdist⟩ := hdone.complete.mp hmem
    exact ⟨k, hle, hdist.1⟩
  · rintro ⟨k, hle, hsteps⟩
    obtain ⟨j, hj, hdist⟩ := hsteps.exists_distance
    refine ⟨(file, j), hdone.complete.mpr ⟨?_, hdist⟩, rfl⟩
    exact le_trans (Nat.cast_le.mpr hj) hle

theorem SeedInv.chained {seed : String} {before : FileDependentsWalkResult} {w : SeedWalk}
    {done pending : List (String × Nat)}
    (hinv : SeedInv getFileDependents maxDepth stopAt seed before w done pending) :
    ∀ file ∈ w.visited, Chained getFileDependents maxDepth stopAt seed file := by
  intro file hfile
  rw [hinv.visited] at hfile
  obtain ⟨x, hx, rfl⟩ := List.mem_map.mp hfile
  exact ⟨x.2, hinv.breadth.within x hx, (hinv.breadth.distance x hx).1⟩

/-- Every turn takes a file off the queue, and a file is put there once. -/
theorem seedEnd_stops {seed : String} (hseed : stopsAt stopAt seed = false)
    (before : FileDependentsWalkResult)
    (hfinite : {file | Chained getFileDependents maxDepth stopAt seed file}.Finite)
    {turns : Nat} (hturns : hfinite.toFinset.card ≤ turns) :
    (seedEnd getFileDependents maxDepth stopAt turns before seed).queue = [] := by
  have hbound : ∀ w done pending,
      SeedInv getFileDependents maxDepth stopAt seed before w done pending →
      w.visited.length ≤ hfinite.toFinset.card := by
    intro w done pending hinv
    have hnodup : w.visited.Nodup := by
      rw [hinv.visited]
      exact hinv.breadth.once
    rw [← List.toFinset_card_of_nodup hnodup]
    apply Finset.card_le_card
    intro file hfile
    exact hfinite.mem_toFinset.mpr (hinv.chained file (List.mem_toFinset.mp hfile))
  have hnone : seedTurn getFileDependents maxDepth stopAt
      (seedEnd getFileDependents maxDepth stopAt turns before seed) = none := by
    apply @loop_stops _ _ (fun w => ∃ done pending,
      SeedInv getFileDependents maxDepth stopAt seed before w done pending)
      (fun w => w.queue.length + (hfinite.toFinset.card - w.visited.length))
    · rintro w w' ⟨done, pending, hinv⟩ hturn
      obtain ⟨done', pending', hinv', -⟩ := seedTurn_inv hinv hturn
      exact ⟨done', pending', hinv'⟩
    · rintro w w' ⟨done, pending, hinv⟩ hturn
      obtain ⟨done', pending', hinv', hless⟩ := seedTurn_inv hinv hturn
      have hle := hbound w' _ _ hinv'
      have hle' := hbound w _ _ hinv
      omega
    · exact ⟨_, _, seedInv_start hseed before⟩
    · show 1 + (hfinite.toFinset.card - 1) ≤ turns
      have hpos : 0 < hfinite.toFinset.card := by
        apply Finset.card_pos.mpr
        refine ⟨seed, hfinite.mem_toFinset.mpr ⟨0, ?_, .source rfl⟩⟩
        exact zero_le
      omega
  cases hqueue : (seedEnd getFileDependents maxDepth stopAt turns before seed).queue with
  | nil => rfl
  | cons head rest =>
      rw [seedTurn, hqueue] at hnone
      revert hnone
      by_cases hdeep : maxDepth ≤ head.2 <;> simp [hdeep]

/-! ## All seeds -/

theorem walkSeed_of_stop {seed : String} (hseed : stopsAt stopAt seed = true) (turns : Nat)
    (before : FileDependentsWalkResult) :
    walkSeed getFileDependents maxDepth stopAt turns before seed =
      some { before with stopped := addNew before.stopped seed } := if_pos hseed

theorem walkSeed_of_pass {seed : String} (hseed : stopsAt stopAt seed = false) (turns : Nat)
    (before : FileDependentsWalkResult) :
    walkSeed getFileDependents maxDepth stopAt turns before seed =
      if (seedEnd getFileDependents maxDepth stopAt turns before seed).queue = [] then
        some
          (seedEnd getFileDependents maxDepth stopAt turns before seed).toFileDependentsWalkResult
      else none := by
  rw [walkSeed, hseed]
  rfl

theorem reachedFrom_iff {seed file : String} (hseed : stopsAt stopAt seed = false) :
    ReachedFrom getFileDependents maxDepth stopAt seed file ↔
      file ≠ seed ∧ Chained getFileDependents maxDepth stopAt seed file := by
  constructor
  · rintro ⟨-, hne, k, -, hle, hsteps⟩
    exact ⟨hne, k, hle, hsteps⟩
  · rintro ⟨hne, k, hle, hsteps⟩
    refine ⟨hseed, hne, k, Nat.one_le_iff_ne_zero.mpr fun hzero => ?_, hle, hsteps⟩
    subst hzero
    have hsame := steps_zero_iff.mp hsteps
    exact hne hsame

/-- What one seed adds. -/
theorem walkSeed_spec {seed : String} {turns : Nat} {before after : FileDependentsWalkResult}
    (h : walkSeed getFileDependents maxDepth stopAt turns before seed = some after)
    (file : String) :
    (file ∈ after.reached ↔
      file ∈ before.reached ∨ ReachedFrom getFileDependents maxDepth stopAt seed file) ∧
    (file ∈ after.stopped ↔ file ∈ before.stopped ∨ stopsAt stopAt file = true ∧
      (file = seed ∨ ReachedFrom getFileDependents maxDepth stopAt seed file)) := by
  cases hseed : stopsAt stopAt seed with
  | true =>
      rw [walkSeed_of_stop hseed, Option.some.injEq] at h
      subst h
      have hnot : ¬ ReachedFrom getFileDependents maxDepth stopAt seed file := by
        rintro ⟨hpass, -⟩
        rw [hseed] at hpass
        cases hpass
      refine ⟨by simp [hnot], ?_⟩
      simp only [mem_addNew, hnot, or_false]
      refine or_congr Iff.rfl ⟨?_, And.right⟩
      rintro rfl
      exact ⟨hseed, rfl⟩
  | false =>
      obtain ⟨done, pending, hinv⟩ :=
        @seedEnd_inv getFileDependents maxDepth stopAt seed hseed before turns
      rw [walkSeed_of_pass hseed] at h
      split at h
      · rename_i hend
        obtain rfl := Option.some.inj h
        rw [reachedFrom_iff hseed, hinv.reached, hinv.stopped, hinv.visited_iff hend]
        refine ⟨Iff.rfl, or_congr Iff.rfl (and_congr_right fun hstop => ?_)⟩
        have hne : file ≠ seed := by
          rintro rfl
          rw [hseed] at hstop
          cases hstop
        simp [hne]
      · cases h

/-- By induction on the seeds, with what was found before them general. -/
theorem walkSeeds_spec {seeds : List String} {turns : Nat}
    {before after : FileDependentsWalkResult}
    (h : seeds.foldlM (walkSeed getFileDependents maxDepth stopAt turns) before = some after)
    (file : String) :
    (file ∈ after.reached ↔ file ∈ before.reached ∨
      ∃ seed ∈ seeds, ReachedFrom getFileDependents maxDepth stopAt seed file) ∧
    (file ∈ after.stopped ↔ file ∈ before.stopped ∨ stopsAt stopAt file = true ∧
      (file ∈ seeds ∨
        ∃ seed ∈ seeds, ReachedFrom getFileDependents maxDepth stopAt seed file)) := by
  induction seeds generalizing before with
  | nil =>
      obtain rfl : before = after := by simpa using h
      simp
  | cons seed seeds ih =>
      rw [List.foldlM_cons] at h
      obtain ⟨next, hnext, hrest⟩ := Option.bind_eq_some_iff.mp h
      obtain ⟨hreached, hstopped⟩ := walkSeed_spec hnext file
      obtain ⟨hreached', hstopped'⟩ := ih hrest
      constructor
      · rw [hreached', hreached, List.exists_mem_cons_iff, or_assoc]
      · rw [hstopped', hstopped, List.exists_mem_cons_iff, List.mem_cons, or_assoc, ← and_or_left,
          or_or_or_comm]

theorem walkSeeds_isSome {seeds : List String} {turns : Nat}
    (hends : ∀ seed ∈ seeds, ∀ before,
      (walkSeed getFileDependents maxDepth stopAt turns before seed).isSome = true)
    (before : FileDependentsWalkResult) :
    (seeds.foldlM (walkSeed getFileDependents maxDepth stopAt turns) before).isSome = true := by
  induction seeds generalizing before with
  | nil => rfl
  | cons seed seeds ih =>
      obtain ⟨next, hnext⟩ :=
        Option.isSome_iff_exists.mp (hends seed (List.mem_cons_self ..) before)
      rw [List.foldlM_cons, hnext, Option.bind_eq_bind, Option.bind_some]
      exact ih (fun s hs => hends s (List.mem_cons_of_mem _ hs)) next

theorem walkSeed_isSome {seed : String}
    (hfinite : {file | Chained getFileDependents maxDepth stopAt seed file}.Finite) {turns : Nat}
    (hturns : hfinite.toFinset.card ≤ turns) (before : FileDependentsWalkResult) :
    (walkSeed getFileDependents maxDepth stopAt turns before seed).isSome = true := by
  cases hseed : stopsAt stopAt seed with
  | true => rw [walkSeed_of_stop hseed, Option.isSome_some]
  | false =>
      rw [walkSeed_of_pass hseed, if_pos (seedEnd_stops hseed before hfinite hturns)]
      rfl

/-- Every file has finitely many dependents. -/
theorem near_finite (seed : String) (k : Nat) :
    {file | Near (Passes getFileDependents stopAt) (· = seed) k file}.Finite := by
  induction k with
  | zero =>
      apply (Set.finite_singleton seed).subset
      exact fun file hfile => near_zero_iff.mp hfile
  | succ k ih =>
      have hnext : (⋃ u ∈ {file | Near (Passes getFileDependents stopAt) (· = seed) k file},
          {v | v ∈ getFileDependents u}).Finite :=
        ih.biUnion fun u _ => List.finite_toSet (getFileDependents u)
      apply (ih.union hnext).subset
      intro file hfile
      rcases near_succ_iff.mp hfile with hnear | ⟨u, hu, -, hmem⟩
      · exact .inl hnear
      · exact .inr (Set.mem_biUnion (near_of_steps hu.1) hmem)

theorem chained_finite (hdepth : maxDepth ≠ ⊤) (seed : String) :
    {file | Chained getFileDependents maxDepth stopAt seed file}.Finite := by
  obtain ⟨k, rfl⟩ := ENat.ne_top_iff_exists.mp hdepth
  have hnear : {file | Near (Passes getFileDependents stopAt) (· = seed) k file}.Finite :=
    near_finite seed k
  apply hnear.subset
  rintro file ⟨j, hj, hsteps⟩
  exact ⟨j, Nat.cast_le.mp hj, hsteps⟩

/-- For all dependents, depths, predicates and seeds. -/
theorem walkFileDependents_walksDependents (getFileDependents : String → List String)
    (maxDepth : ℕ∞) (stopAt : Option (String → Bool)) (seeds : List String) :
    WalksDependents getFileDependents maxDepth stopAt seeds := by
  constructor
  · intro hfinite
    have hbound : ∀ list ⊆ seeds, ∃ enough, ∀ seed, (hmem : seed ∈ list) → ∀ h :
        {file | Chained getFileDependents maxDepth stopAt seed file}.Finite,
        h.toFinset.card ≤ enough := by
      intro list
      induction list with
      | nil => exact fun _ => ⟨0, fun seed hmem => absurd hmem List.not_mem_nil⟩
      | cons seed list ih =>
          intro hsub
          obtain ⟨hmem, hlist⟩ := List.cons_subset.mp hsub
          obtain ⟨enough, hle⟩ := ih hlist
          refine ⟨max enough (hfinite seed hmem).toFinset.card, fun s hs h => ?_⟩
          rcases List.mem_cons.mp hs with rfl | hs
          · exact Nat.le_max_right _ _
          · exact Nat.le_trans (hle s hs h) (Nat.le_max_left _ _)
    obtain ⟨enough, hle⟩ := hbound seeds (List.Subset.refl seeds)
    refine ⟨enough, fun turns hturns => walkSeeds_isSome (fun seed hseed before => ?_) _⟩
    exact walkSeed_isSome (hfinite seed hseed) (Nat.le_trans (hle seed hseed _) hturns) before
  · exact fun hdepth seed => chained_finite hdepth seed
  · intro turns result h file
    have hspec := (walkSeeds_spec h file).1
    simpa using hspec
  · intro turns result h file
    obtain ⟨hreached, hstopped⟩ := walkSeeds_spec h file
    rw [hstopped, hreached]
    simp

end AfyxGraph.Graph
