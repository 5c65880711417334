import AfyxGraph.Core.Loop
import Mathlib.Data.List.Chain
import Mathlib.Data.List.Nodup
import Mathlib.Logic.Relation

/-! # Cycles among file dependencies

`dependencyCycles` is a depth-first search with an explicit stack. The trail and its membership
set are kept beside the stack; a dependency on the trail closes a cycle.
-/

namespace AfyxGraph.Graph

open AfyxGraph.Core

/-- The files of a finite store and their dependencies, which need not be in the catalogue. -/
structure GraphCatalog where
  /-- The paths of `getAllFiles`, in its order. -/
  paths : List String
  getDependencyFilePaths : String → List String
  /-- Every path that occurs. -/
  known : List String
  catalogued : paths ⊆ known
  named : ∀ file, getDependencyFilePaths file ⊆ known

structure DependencyFrame where
  file : String
  dependencies : List String
  cursor : Nat

/-- The top of the stack is its head. -/
structure CycleSearch where
  cycles : List (List String)
  explored : List String
  trail : List String
  onTrail : List String
  stack : List DependencyFrame

namespace GraphCatalog

variable (catalog : GraphCatalog)

def enter (w : CycleSearch) (file : String) : CycleSearch :=
  { w with
    explored := w.explored ++ [file]
    trail := w.trail ++ [file]
    onTrail := w.onTrail ++ [file]
    stack := ⟨file, catalog.getDependencyFilePaths file, 0⟩ :: w.stack }

/-- One turn of the inner loop. -/
def cycleTurn (w : CycleSearch) : Option CycleSearch :=
  match w.stack with
  | [] => none
  | frame :: below =>
      match frame.dependencies[frame.cursor]? with
      | none =>
          some { w with
            onTrail := w.onTrail.filter (· ≠ frame.file)
            trail := w.trail.dropLast
            stack := below }
      | some dependency =>
          let w := { w with stack := { frame with cursor := frame.cursor + 1 } :: below }
          if dependency ∈ w.onTrail then
            some { w with cycles := w.cycles ++ [w.trail.drop (w.trail.idxOf dependency)] }
          else if dependency ∉ w.explored then some (catalog.enter w dependency)
          else some w

/-- `none` when the stack is not used up after so many turns. -/
def cyclesFrom (turns : Nat) (w : CycleSearch) (root : String) : Option CycleSearch :=
  if root ∈ w.explored then some w
  else
    let w := loop catalog.cycleTurn turns (catalog.enter w root)
    if w.stack.isEmpty then some w else none

def dependencyCycles (turns : Nat) : Option (List (List String)) :=
  (catalog.paths.foldlM (catalog.cyclesFrom turns) ⟨[], [], [], [], []⟩).map (·.cycles)

/-- Every file is entered once and its dependencies are passed one by one. -/
def cycleTurns : Nat :=
  (catalog.known.map fun file => (catalog.getDependencyFilePaths file).length + 1).sum

/-! ## What it is to find -/

def Depends (a b : String) : Prop := b ∈ catalog.getDependencyFilePaths a

def Reachable (file : String) : Prop :=
  ∃ root ∈ catalog.paths, Relation.ReflTransGen catalog.Depends root file

/-- Each file depends on the next one, and the last on the first. -/
structure IsSimpleCycle (cycle : List String) : Prop where
  joined : cycle.IsChain catalog.Depends
  closes : ∃ first last, cycle.head? = some first ∧ cycle.getLast? = some last ∧
    catalog.Depends last first
  once : cycle.Nodup

/-- The search ends; what it reports are cycles, and it reports one if there is one. -/
structure FindsCycles : Prop where
  ends : ∀ turns ≥ catalog.cycleTurns, (catalog.dependencyCycles turns).isSome = true
  simple : ∀ turns cycles, catalog.dependencyCycles turns = some cycles →
    ∀ cycle ∈ cycles, catalog.IsSimpleCycle cycle
  empty_iff : ∀ turns cycles, catalog.dependencyCycles turns = some cycles →
    (cycles = [] ↔
      ¬ ∃ file, catalog.Reachable file ∧ Relation.TransGen catalog.Depends file file)

/-! ## The invariant -/

/-- What holds between two turns, `finished` being the files that have left the trail. -/
structure CycleInv (w : CycleSearch) (finished : List String) : Prop where
  trail : w.trail = (w.stack.map (·.file)).reverse
  onTrail : ∀ file, file ∈ w.onTrail ↔ file ∈ w.trail
  explored : ∀ file, file ∈ w.explored ↔ file ∈ finished ∨ file ∈ w.trail
  once : w.trail.Nodup
  apart : ∀ file ∈ w.trail, file ∉ finished
  chain : w.trail.IsChain catalog.Depends
  frames : ∀ frame ∈ w.stack, frame.dependencies = catalog.getDependencyFilePaths frame.file
  reachable : ∀ file ∈ w.explored, catalog.Reachable file
  simple : ∀ cycle ∈ w.cycles, catalog.IsSimpleCycle cycle ∧
    ∀ file ∈ cycle, catalog.Reachable file
  closed : w.cycles = [] → ∀ file ∈ finished, ∀ dependency, catalog.Depends file dependency →
    dependency ∈ finished
  acyclic : w.cycles = [] → ∀ file ∈ finished, ¬ Relation.TransGen catalog.Depends file file

/-- The dependencies before a cursor are finished, but for the one in the frame above. -/
def Scanned (finished : List String) : (above : Option String) → List DependencyFrame → Prop
  | _, [] => True
  | above, frame :: below =>
      (∀ i < frame.cursor, ∀ dependency, frame.dependencies[i]? = some dependency →
        dependency ∈ finished ∨ above = some dependency) ∧
      Scanned finished (some frame.file) below

variable {catalog} {w w' : CycleSearch} {finished : List String} {file : String}

theorem Scanned.mono {more : List String} {above : Option String} {stack : List DependencyFrame}
    (h : Scanned finished above stack) (hsub : finished ⊆ more) : Scanned more above stack := by
  induction stack generalizing above with
  | nil => trivial
  | cons frame below ih =>
      obtain ⟨hframe, hbelow⟩ := h
      refine ⟨fun i hi dependency hdep => ?_, ih hbelow⟩
      exact (hframe i hi dependency hdep).imp (fun hmem => hsub hmem) id

/-- The file above a stack is finished. -/
theorem Scanned.finish {stack : List DependencyFrame}
    (h : Scanned finished (some file) stack) : Scanned (finished ++ [file]) none stack := by
  cases stack with
  | nil => trivial
  | cons frame below =>
      obtain ⟨hframe, hbelow⟩ := h
      refine ⟨fun i hi dependency hdep => .inl ?_, hbelow.mono (List.subset_append_left _ _)⟩
      rcases hframe i hi dependency hdep with hmem | habove
      · exact List.mem_append_left _ hmem
      · rw [Option.some.inj habove]
        exact List.mem_append_right _ (List.mem_singleton_self _)

/-! ## What a turn keeps -/

/-- A cursor says nothing about the trail. -/
theorem CycleInv.advance {frame : DependencyFrame} {below : List DependencyFrame}
    (h : catalog.CycleInv w finished) (hstack : w.stack = frame :: below) (cursor : Nat) :
    catalog.CycleInv { w with stack := { frame with cursor } :: below } finished where
  trail := by
    rw [h.trail, hstack]
    rfl
  onTrail := h.onTrail
  explored := h.explored
  once := h.once
  apart := h.apart
  chain := h.chain
  frames f hf := by
    rcases List.mem_cons.mp hf with rfl | hf
    · exact h.frames frame (hstack ▸ List.mem_cons_self ..)
    · exact h.frames f (hstack ▸ List.mem_cons_of_mem _ hf)
  reachable := h.reachable
  simple := h.simple
  closed := h.closed
  acyclic := h.acyclic

theorem CycleInv.enter (h : catalog.CycleInv w finished) (hnew : file ∉ w.explored)
    (hreach : catalog.Reachable file)
    (hlast : ∀ last ∈ w.trail.getLast?, catalog.Depends last file) :
    catalog.CycleInv (catalog.enter w file) finished where
  trail := by
    show w.trail ++ [file] = (file :: w.stack.map (·.file)).reverse
    rw [List.reverse_cons, h.trail]
  onTrail f := by
    show f ∈ w.onTrail ++ [file] ↔ f ∈ w.trail ++ [file]
    rw [List.mem_append, List.mem_append, h.onTrail]
  explored f := by
    show f ∈ w.explored ++ [file] ↔ f ∈ finished ∨ f ∈ w.trail ++ [file]
    rw [List.mem_append, List.mem_append, h.explored, or_assoc]
  once := by
    show (w.trail ++ [file]).Nodup
    rw [List.nodup_append]
    refine ⟨h.once, List.nodup_singleton _, fun a ha b hb heq => hnew ?_⟩
    rw [← List.mem_singleton.mp hb, ← heq]
    exact (h.explored a).mpr (.inr ha)
  apart f hf := by
    rcases List.mem_append.mp hf with hf | hf
    · exact h.apart f hf
    · rw [List.mem_singleton.mp hf]
      exact fun hmem => hnew ((h.explored file).mpr (.inl hmem))
  chain := by
    show (w.trail ++ [file]).IsChain catalog.Depends
    rw [List.isChain_append]
    refine ⟨h.chain, List.isChain_singleton _, fun a ha b hb => ?_⟩
    obtain rfl : file = b := by simpa using hb
    exact hlast a ha
  frames f hf := by
    rcases List.mem_cons.mp hf with rfl | hf
    · rfl
    · exact h.frames f hf
  reachable f hf := by
    rcases List.mem_append.mp hf with hf | hf
    · exact h.reachable f hf
    · rw [List.mem_singleton.mp hf]
      exact hreach
  simple := h.simple
  closed := h.closed
  acyclic := h.acyclic

/-- The file of the top frame is the last of the trail. -/
theorem CycleInv.trail_eq {frame : DependencyFrame} {below : List DependencyFrame}
    (h : catalog.CycleInv w finished) (hstack : w.stack = frame :: below) :
    w.trail = (below.map (·.file)).reverse ++ [frame.file] := by
  rw [h.trail, hstack, List.map_cons, List.reverse_cons]

/-- A file whose dependencies are finished, and cannot lead back to it, is finished. -/
theorem CycleInv.leave {frame : DependencyFrame} {below : List DependencyFrame}
    (h : catalog.CycleInv w finished) (hstack : w.stack = frame :: below)
    (hdeps : w.cycles = [] → ∀ dependency, catalog.Depends frame.file dependency →
      dependency ∈ finished) :
    catalog.CycleInv
      { w with
        onTrail := w.onTrail.filter (· ≠ frame.file)
        trail := w.trail.dropLast
        stack := below } (finished ++ [frame.file]) := by
  have htrail := h.trail_eq hstack
  have hdrop : w.trail.dropLast = (below.map (·.file)).reverse := by
    rw [htrail, List.dropLast_concat]
  have hmem : ∀ f, f ∈ w.trail ↔ f ∈ w.trail.dropLast ∨ f = frame.file := by
    intro f
    rw [hdrop, htrail, List.mem_append, List.mem_singleton]
  have honce := h.once
  rw [htrail, List.nodup_append] at honce
  have hnot : ∀ f ∈ w.trail.dropLast, f ≠ frame.file := by
    intro f hf
    exact honce.2.2 f (hdrop ▸ hf) _ (List.mem_singleton_self _)
  have hout : frame.file ∉ finished := h.apart _ ((hmem _).mpr (.inr rfl))
  constructor
  · exact hdrop
  · intro f
    show f ∈ w.onTrail.filter (· ≠ frame.file) ↔ _
    rw [List.mem_filter, h.onTrail, hmem]
    constructor
    · rintro ⟨hf | rfl, hne⟩
      · exact hf
      · simp at hne
    · intro hf
      exact ⟨.inl hf, by simpa using hnot f hf⟩
  · intro f
    show f ∈ w.explored ↔ _
    rw [h.explored, hmem, List.mem_append, List.mem_singleton, or_assoc,
      or_comm (a := f = frame.file)]
  · show w.trail.dropLast.Nodup
    rw [hdrop]
    exact honce.1
  · intro f hf hfin
    rcases List.mem_append.mp hfin with hfin | hfin
    · exact h.apart f ((hmem f).mpr (.inl hf)) hfin
    · exact hnot f hf (List.mem_singleton.mp hfin)
  · have hchain := h.chain
    rw [htrail, List.isChain_append] at hchain
    show w.trail.dropLast.IsChain catalog.Depends
    rw [hdrop]
    exact hchain.1
  · exact fun f hf => h.frames f (hstack ▸ List.mem_cons_of_mem _ hf)
  · exact h.reachable
  · exact h.simple
  · intro hnone f hf dependency hdep
    apply List.mem_append_left
    rcases List.mem_append.mp hf with hf | hf
    · exact h.closed hnone f hf dependency hdep
    · exact hdeps hnone dependency (List.mem_singleton.mp hf ▸ hdep)
  · intro hnone f hf hcycle
    rcases List.mem_append.mp hf with hf | hf
    · exact h.acyclic hnone f hf hcycle
    · obtain rfl := List.mem_singleton.mp hf
      -- the cycle leaves by a finished dependency, and from there all is finished
      obtain ⟨dependency, hdep, hback⟩ := Relation.TransGen.head'_iff.mp hcycle
      have hfinished : frame.file ∈ finished := by
        generalize frame.file = target at hback
        induction hback with
        | refl => exact hdeps hnone _ hdep
        | tail _ hstep ih => exact h.closed hnone _ ih _ hstep
      exact hout hfinished

/-- The trail from a dependency on it down to the file that has it. -/
theorem CycleInv.report {frame : DependencyFrame} {below : List DependencyFrame}
    {dependency : String} (h : catalog.CycleInv w finished) (hstack : w.stack = frame :: below)
    (hdep : catalog.Depends frame.file dependency) (hon : dependency ∈ w.onTrail) :
    catalog.CycleInv
      { w with cycles := w.cycles ++ [w.trail.drop (w.trail.idxOf dependency)] } finished := by
  have hmem : dependency ∈ w.trail := (h.onTrail _).mp hon
  have hlt := List.idxOf_lt_length_of_mem hmem
  have hcycle : catalog.IsSimpleCycle (w.trail.drop (w.trail.idxOf dependency)) := by
    refine ⟨h.chain.drop _, ⟨dependency, frame.file, ?_, ?_, hdep⟩,
      h.once.sublist (List.drop_sublist _ _)⟩
    · rw [List.head?_drop, List.getElem?_eq_getElem hlt, List.getElem_idxOf]
    · rw [List.getLast?_drop, if_neg (Nat.not_le_of_lt hlt), h.trail_eq hstack,
        List.getLast?_concat]
  have hsome : w.cycles ++ [w.trail.drop (w.trail.idxOf dependency)] ≠ [] := by simp
  exact { h with
    simple := by
      intro cycle hc
      rcases List.mem_append.mp hc with hc | hc
      · exact h.simple cycle hc
      · obtain rfl := List.mem_singleton.mp hc
        refine ⟨hcycle, fun f hf => h.reachable f ?_⟩
        exact (h.explored f).mpr (.inr (List.mem_of_mem_drop hf))
    closed := fun hnone => absurd hnone hsome
    acyclic := fun hnone => absurd hnone hsome }

/-! ## A turn -/

variable (catalog) in
structure SearchInv (w : CycleSearch) (finished : List String) : Prop where
  cycles : catalog.CycleInv w finished
  scanned : w.cycles = [] → Scanned finished none w.stack

variable (catalog) in
/-- The turns that are left. -/
def turnsLeft (w : CycleSearch) : Nat :=
  unmarked (fun file => (catalog.getDependencyFilePaths file).length + 1) catalog.known w.explored +
    (w.stack.map fun frame => frame.dependencies.length - frame.cursor + 1).sum

theorem reachable_known (h : catalog.Reachable file) : file ∈ catalog.known := by
  obtain ⟨root, hroot, hchain⟩ := h
  cases hchain with
  | refl => exact catalog.catalogued hroot
  | tail _ hstep => exact catalog.named _ hstep

theorem SearchInv.enter (h : catalog.SearchInv w finished) (hstack : w.stack = [])
    (hnew : file ∉ w.explored) (hreach : catalog.Reachable file) :
    catalog.SearchInv (catalog.enter w file) finished := by
  have htrail : w.trail = [] := by
    rw [h.cycles.trail, hstack]
    rfl
  refine ⟨h.cycles.enter hnew hreach ?_, fun _ => ⟨?_, ?_⟩⟩
  · rw [htrail]
    exact fun last hlast => absurd hlast (by simp)
  · exact fun i hi => absurd hi (Nat.not_lt_zero i)
  · rw [hstack]
    trivial

/-- Entering a file takes its weight off what is unexplored. -/
theorem turnsLeft_enter (hnew : file ∉ w.explored) (hreach : catalog.Reachable file) :
    catalog.turnsLeft (catalog.enter w file) ≤ catalog.turnsLeft w := by
  have hmark := @unmarked_mark String _
    (fun file => (catalog.getDependencyFilePaths file).length + 1) _ _ _ (reachable_known hreach)
    hnew
  simp only [turnsLeft, GraphCatalog.enter, List.map_cons, List.sum_cons, Nat.sub_zero]
  omega

/-- A turn leaves the top frame, or passes one of its dependencies. -/
theorem cycleTurn_inv (h : catalog.SearchInv w finished) (hturn : catalog.cycleTurn w = some w') :
    ∃ finished', catalog.SearchInv w' finished' ∧ w.explored ⊆ w'.explored ∧
      catalog.turnsLeft w' < catalog.turnsLeft w := by
  unfold cycleTurn at hturn
  cases hstack : w.stack with
  | nil => simp [hstack] at hturn
  | cons frame below =>
      have hdeps := h.cycles.frames frame (hstack ▸ List.mem_cons_self ..)
      have hscanned : w.cycles = [] → Scanned finished none (frame :: below) :=
        fun hnone => hstack ▸ h.scanned hnone
      cases hnext : frame.dependencies[frame.cursor]? with
      | none =>
          simp only [hstack, hnext, Option.some.injEq] at hturn
          subst hturn
          have hdone := List.getElem?_eq_none_iff.mp hnext
          have hall : w.cycles = [] → ∀ dependency, catalog.Depends frame.file dependency →
              dependency ∈ finished := by
            intro hnone dependency hdep
            rw [Depends, ← hdeps] at hdep
            obtain ⟨i, hi⟩ := List.mem_iff_getElem?.mp hdep
            have hlt := (List.getElem?_eq_some_iff.mp hi).1
            rcases (hscanned hnone).1 i (by omega) dependency hi with hmem | habove
            · exact hmem
            · cases habove
          refine ⟨_, ⟨h.cycles.leave hstack hall, fun hnone => (hscanned hnone).2.finish⟩,
            List.Subset.refl _, ?_⟩
          simp only [turnsLeft, hstack, List.map_cons, List.sum_cons]
          omega
      | some dependency =>
          simp only [hstack, hnext] at hturn
          have hlt := (List.getElem?_eq_some_iff.mp hnext).1
          have hdep : catalog.Depends frame.file dependency := by
            rw [Depends, ← hdeps]
            exact List.mem_of_getElem? hnext
          have hinv := h.cycles.advance hstack (frame.cursor + 1)
          -- a dependency that is finished, or that is entered next, has been scanned
          have hpassed : ∀ above, w.cycles = [] → dependency ∈ finished ∨ above = some dependency →
              Scanned finished above ({ frame with cursor := frame.cursor + 1 } :: below) := by
            intro above hnone hcase
            obtain ⟨hbefore, hbelow⟩ := hscanned hnone
            refine ⟨fun i hi d hd => ?_, hbelow⟩
            rcases Nat.lt_or_eq_of_le (Nat.le_of_lt_succ hi) with hi | rfl
            · rcases hbefore i hi d hd with hmem | habove
              · exact .inl hmem
              · cases habove
            · obtain rfl : dependency = d := Option.some.inj (hnext.symm.trans hd)
              exact hcase
          have hless : catalog.turnsLeft
              { w with stack := { frame with cursor := frame.cursor + 1 } :: below } <
                catalog.turnsLeft w := by
            simp only [turnsLeft, hstack, List.map_cons, List.sum_cons]
            omega
          split at hturn
          · rename_i hon
            obtain rfl := Option.some.inj hturn
            refine ⟨finished, ⟨hinv.report rfl hdep hon, fun hnone => ?_⟩, List.Subset.refl _,
              hless⟩
            exact absurd hnone (by simp)
          · rename_i hoff
            split at hturn
            · rename_i hnew
              obtain rfl := Option.some.inj hturn
              have hreach : catalog.Reachable dependency := by
                have hexplored : frame.file ∈ w.explored :=
                  (h.cycles.explored _).mpr (.inr (h.cycles.trail_eq hstack ▸ by simp))
                obtain ⟨root, hroot, hchain⟩ := h.cycles.reachable _ hexplored
                exact ⟨root, hroot, hchain.tail hdep⟩
              refine ⟨finished, ⟨hinv.enter hnew hreach ?_, fun hnone => ⟨?_, ?_⟩⟩,
                List.subset_append_left _ _, ?_⟩
              · intro last hlast
                have htrail : w.trail.getLast? = some frame.file := by
                  rw [h.cycles.trail_eq hstack, List.getLast?_concat]
                obtain rfl : frame.file = last := Option.some.inj (htrail.symm.trans hlast)
                exact hdep
              · exact fun i hi => absurd hi (Nat.not_lt_zero i)
              · exact hpassed _ hnone (.inr rfl)
              · exact Nat.lt_of_le_of_lt (turnsLeft_enter hnew hreach) hless
            · rename_i hold
              obtain rfl := Option.some.inj hturn
              refine ⟨finished, ⟨hinv, fun hnone => hpassed none hnone (.inl ?_)⟩,
                List.Subset.refl _, hless⟩
              have hexplored : dependency ∈ w.explored := by simpa using hold
              rcases (h.cycles.explored _).mp hexplored with hmem | hmem
              · exact hmem
              · exact absurd ((h.cycles.onTrail _).mpr hmem) hoff

/-! ## All files of the catalogue -/

theorem loop_inv (h : catalog.SearchInv w finished) (turns : Nat) :
    (∃ finished', catalog.SearchInv (loop catalog.cycleTurn turns w) finished') ∧
      w.explored ⊆ (loop catalog.cycleTurn turns w).explored := by
  apply @loop_invariant _ _ (fun v => (∃ finished', catalog.SearchInv v finished') ∧
    w.explored ⊆ v.explored)
  · rintro v v' ⟨⟨fin, hv⟩, hsub⟩ hturn
    obtain ⟨fin', hv', hsub', -⟩ := cycleTurn_inv hv hturn
    exact ⟨⟨fin', hv'⟩, List.Subset.trans hsub hsub'⟩
  · exact ⟨⟨finished, h⟩, List.Subset.refl _⟩

theorem loop_ends (h : catalog.SearchInv w finished) {turns : Nat}
    (hturns : catalog.turnsLeft w ≤ turns) : (loop catalog.cycleTurn turns w).stack = [] := by
  have hnone : catalog.cycleTurn (loop catalog.cycleTurn turns w) = none := by
    apply @loop_stops _ _ (fun v => ∃ finished', catalog.SearchInv v finished') catalog.turnsLeft
    · rintro v v' ⟨fin, hv⟩ hturn
      obtain ⟨fin', hv', -⟩ := cycleTurn_inv hv hturn
      exact ⟨fin', hv'⟩
    · rintro v v' ⟨fin, hv⟩ hturn
      obtain ⟨fin', -, -, hless⟩ := cycleTurn_inv hv hturn
      exact hless
    · exact ⟨finished, h⟩
    · exact hturns
  cases hstack : (loop catalog.cycleTurn turns w).stack with
  | nil => rfl
  | cons frame below =>
      rw [cycleTurn, hstack] at hnone
      revert hnone
      cases hnext : frame.dependencies[frame.cursor]? with
      | none => simp [hnext]
      | some dependency =>
          simp only [hnext]
          split
          · simp
          · split <;> simp

theorem reachable_of_path {root : String} (h : root ∈ catalog.paths) : catalog.Reachable root :=
  ⟨root, h, .refl⟩

theorem cyclesFrom_spec {root : String} {turns : Nat} (h : catalog.SearchInv w finished)
    (hstack : w.stack = []) (hroot : root ∈ catalog.paths)
    (hrun : catalog.cyclesFrom turns w root = some w') :
    (∃ finished', catalog.SearchInv w' finished') ∧ w'.stack = [] ∧
      w.explored ⊆ w'.explored ∧ root ∈ w'.explored := by
  unfold cyclesFrom at hrun
  split at hrun
  · rename_i hold
    obtain rfl := Option.some.inj hrun
    exact ⟨⟨finished, h⟩, hstack, List.Subset.refl _, hold⟩
  · rename_i hnew
    obtain ⟨hinv, hsub⟩ := loop_inv (h.enter hstack hnew (reachable_of_path hroot)) turns
    simp only [Option.ite_none_right_eq_some, List.isEmpty_iff, Option.some.injEq] at hrun
    obtain ⟨hend, rfl⟩ := hrun
    refine ⟨hinv, hend, fun f hf => hsub (List.mem_append_left _ hf), hsub ?_⟩
    exact List.mem_append_right _ (List.mem_singleton_self root)

theorem cyclesFrom_isSome {root : String} {turns : Nat} (h : catalog.SearchInv w finished)
    (hstack : w.stack = []) (hroot : root ∈ catalog.paths) (hturns : catalog.cycleTurns ≤ turns) :
    (catalog.cyclesFrom turns w root).isSome = true := by
  unfold cyclesFrom
  split
  · rfl
  · rename_i hnew
    have hreach := reachable_of_path hroot
    have hleft : catalog.turnsLeft w ≤ turns := by
      have hall := unmarked_le (fun file => (catalog.getDependencyFilePaths file).length + 1)
        catalog.known w.explored
      rw [turnsLeft, hstack]
      exact Nat.le_trans hall hturns
    have hend := loop_ends (h.enter hstack hnew hreach)
      (Nat.le_trans (turnsLeft_enter hnew hreach) hleft)
    simp [hend]

/-- By induction on the files that are left. -/
theorem cyclesFrom_all {roots : List String} (hroots : roots ⊆ catalog.paths) (turns : Nat)
    (h : catalog.SearchInv w finished) (hstack : w.stack = []) :
    (catalog.cycleTurns ≤ turns → (roots.foldlM (catalog.cyclesFrom turns) w).isSome = true) ∧
    ∀ w', roots.foldlM (catalog.cyclesFrom turns) w = some w' →
      (∃ finished', catalog.SearchInv w' finished') ∧ w'.stack = [] ∧
        w.explored ⊆ w'.explored ∧ roots ⊆ w'.explored := by
  induction roots generalizing w finished with
  | nil =>
      refine ⟨fun _ => rfl, fun w' hw' => ?_⟩
      obtain rfl : w = w' := by simpa using hw'
      exact ⟨⟨finished, h⟩, hstack, List.Subset.refl _, List.nil_subset _⟩
  | cons root roots ih =>
      obtain ⟨hroot, hrest⟩ := List.cons_subset.mp hroots
      rw [List.foldlM_cons, Option.bind_eq_bind]
      constructor
      · intro hturns
        obtain ⟨v, hv⟩ :=
          Option.isSome_iff_exists.mp (cyclesFrom_isSome h hstack hroot hturns)
        obtain ⟨⟨fin, hinv⟩, hend, -⟩ := cyclesFrom_spec h hstack hroot hv
        rw [hv, Option.bind_some]
        exact (ih hrest hinv hend).1 hturns
      · intro w' hw'
        obtain ⟨v, hv, hw'⟩ := Option.bind_eq_some_iff.mp hw'
        obtain ⟨⟨fin, hinv⟩, hend, hsub, hmem⟩ := cyclesFrom_spec h hstack hroot hv
        obtain ⟨hinv', hend', hsub', hmem'⟩ := (ih hrest hinv hend).2 w' hw'
        exact ⟨hinv', hend', List.Subset.trans hsub hsub',
          List.cons_subset.mpr ⟨hsub' hmem, hmem'⟩⟩

variable (catalog) in
theorem searchInv_start : catalog.SearchInv ⟨[], [], [], [], []⟩ [] := by
  refine ⟨⟨rfl, ?_, ?_, List.nodup_nil, ?_, List.isChain_nil, ?_, ?_, ?_, ?_, ?_⟩,
    fun _ => trivial⟩
  · exact fun file => Iff.rfl
  all_goals simp

/-- What is at hand when a search with an empty stack has explored every file of the catalogue. -/
theorem SearchInv.empty_iff (h : catalog.SearchInv w finished) (hstack : w.stack = [])
    (hroots : catalog.paths ⊆ w.explored) :
    w.cycles = [] ↔
      ¬ ∃ file, catalog.Reachable file ∧ Relation.TransGen catalog.Depends file file := by
  have htrail : w.trail = [] := by
    rw [h.cycles.trail, hstack]
    rfl
  have hexplored : ∀ f, f ∈ w.explored ↔ f ∈ finished := by
    intro f
    rw [h.cycles.explored, htrail]
    simp
  constructor
  · rintro hnone ⟨file, ⟨root, hroot, hchain⟩, hcycle⟩
    have hfile : file ∈ finished := by
      clear hcycle
      induction hchain with
      | refl => exact (hexplored root).mp (hroots hroot)
      | tail _ hstep ih => exact h.cycles.closed hnone _ ih _ hstep
    exact h.cycles.acyclic hnone file hfile hcycle
  · intro hnot
    rw [List.eq_nil_iff_forall_not_mem]
    intro cycle hc
    obtain ⟨⟨hjoined, ⟨first, last, hfirst, hlast, hdep⟩, -⟩, hreach⟩ := h.cycles.simple cycle hc
    obtain ⟨rest, rfl⟩ := List.head?_eq_some_iff.mp hfirst
    rw [List.getLast?_eq_some_getLast (List.cons_ne_nil _ _), Option.some.injEq] at hlast
    refine hnot ⟨first, hreach first (List.mem_cons_self ..), ?_⟩
    exact .tail' (List.relationReflTransGen_of_exists_isChain_cons rest hjoined hlast) hdep

/-- For every catalogue. -/
theorem dependencyCycles_findsCycles (catalog : GraphCatalog) : catalog.FindsCycles := by
  have hall := fun turns =>
    cyclesFrom_all (List.Subset.refl catalog.paths) turns catalog.searchInv_start rfl
  constructor
  · intro turns hturns
    rw [dependencyCycles, Option.isSome_map]
    exact (hall turns).1 hturns
  · intro turns cycles hrun cycle hc
    obtain ⟨w, hw, rfl⟩ := Option.map_eq_some_iff.mp hrun
    obtain ⟨⟨fin, hinv⟩, -⟩ := (hall turns).2 w hw
    exact (hinv.cycles.simple cycle hc).1
  · intro turns cycles hrun
    obtain ⟨w, hw, rfl⟩ := Option.map_eq_some_iff.mp hrun
    obtain ⟨⟨fin, hinv⟩, hend, -, hroots⟩ := (hall turns).2 w hw
    exact hinv.empty_iff hend hroots

end GraphCatalog

end AfyxGraph.Graph
