import AfyxGraph.Sync.FsWatchReports
import Mathlib.Data.Prod.Lex

/-! # The adapter catches up

Without further changes the walk and the queue of events come to an end, and then every directory
in scope has its watch and the callback knows of every file in scope.
-/

namespace AfyxGraph.Sync.FsWatch

open AfyxGraph.Core

variable {config : Config} {s t : State}

/-! ## What is left to do -/

def Task.weight : Task → Nat
  | .watch .. => 2
  | .read .. => 1
  | .visit .. => 3

def loadOf : List Task → Nat
  | [] => 0
  | task :: rest => task.weight + loadOf rest

/-- The reads of directories that are there. -/
def readsOf (dirs : List Path) : List Task → Nat
  | [] => 0
  | .read dir _ :: rest => (if dir ∈ dirs then 1 else 0) + readsOf dirs rest
  | _ :: rest => readsOf dirs rest

namespace State

def unwatched (s : State) : Nat := (s.fs.dirs.filter (!s.dirWatchers.contains ·)).length

def load (s : State) : Nat :=
  loadOf s.stack + 4 * s.events.length + if s.started then 0 else 1

/-- A new watch is paid for by a directory less without one, a list of entries by its read. -/
def rank (s : State) : ℕ ×ₗ ℕ ×ₗ ℕ ×ₗ ℕ :=
  toLex (if s.stopped then 0 else 1, toLex (s.unwatched, toLex (readsOf s.fs.dirs s.stack, s.load)))

end State

theorem rank_lt_of_load (hstopped : t.stopped = s.stopped) (hunwatched : t.unwatched = s.unwatched)
    (hreads : readsOf t.fs.dirs t.stack = readsOf s.fs.dirs s.stack) (hload : t.load < s.load) :
    t.rank < s.rank := by
  simp only [State.rank, Prod.Lex.toLex_lt_toLex]
  exact .inr ⟨by rw [hstopped], .inr ⟨hunwatched, .inr ⟨hreads, hload⟩⟩⟩

theorem rank_lt_of_reads (hstopped : t.stopped = s.stopped) (hunwatched : t.unwatched = s.unwatched)
    (hreads : readsOf t.fs.dirs t.stack < readsOf s.fs.dirs s.stack) : t.rank < s.rank := by
  simp only [State.rank, Prod.Lex.toLex_lt_toLex]
  exact .inr ⟨by rw [hstopped], .inr ⟨hunwatched, .inl hreads⟩⟩

theorem rank_lt_of_unwatched (hstopped : t.stopped = s.stopped)
    (hunwatched : t.unwatched < s.unwatched) : t.rank < s.rank := by
  simp only [State.rank, Prod.Lex.toLex_lt_toLex]
  exact .inr ⟨by rw [hstopped], .inl hunwatched⟩

theorem rank_lt_of_stopped (hstopped : s.stopped = false) (hstopped' : t.stopped = true) :
    t.rank < s.rank := by
  simp only [State.rank, Prod.Lex.toLex_lt_toLex, hstopped, hstopped']
  exact .inl Nat.zero_lt_one

theorem readsOf_map_visit (dirs : List Path) (dir : Path) (entries : List Entry) (mark : Bool)
    (stack : List Task) :
    readsOf dirs (entries.map (.visit dir · mark) ++ stack) = readsOf dirs stack := by
  induction entries with
  | nil => rfl
  | cons entry entries ih => exact ih

/-! ## Internal steps -/

theorem rank_watchTree {dir : Path} {mark : Bool} {stack : List Task} {outcome : Outcome}
    (hstack : s.stack = .watch dir mark :: stack) :
    (State.watchTree config { s with stack } dir mark outcome).rank < s.rank := by
  have hpopped : ∀ t : State, t.stopped = s.stopped → t.unwatched = s.unwatched → t.fs = s.fs →
      t.stack = stack → t.events = s.events → t.started = s.started → t.rank < s.rank := by
    intro t hstopped hunwatched hfs hrest hevents hstarted
    refine rank_lt_of_load hstopped hunwatched ?_ ?_
    · rw [hfs, hrest, hstack]
      rfl
    · simp only [State.load, hrest, hevents, hstarted, hstack, loadOf, Task.weight]
      omega
  unfold State.watchTree
  split
  · exact hpopped _ rfl rfl rfl rfl rfl rfl
  · rename_i hrun
    split
    · exact hpopped _ rfl rfl rfl rfl rfl rfl
    · rename_i hnew
      split
      · exact hpopped _ rfl rfl rfl rfl rfl rfl
      · cases outcome with
        | exhausted =>
            have hstopped : s.stopped = false := (Bool.or_eq_false_iff.mp (by simpa using hrun)).1
            exact rank_lt_of_stopped hstopped rfl
        | noSpace => exact hpopped _ rfl rfl rfl rfl rfl rfl
        | failed => exact hpopped _ rfl rfl rfl rfl rfl rfl
        | installed =>
            by_cases hdir : dir ∈ s.fs.dirs
            · refine rank_lt_of_unwatched rfl ?_
              have hfilter : s.fs.dirs.filter (!(s.dirWatchers ++ [dir]).contains ·) =
                  (s.fs.dirs.filter (!s.dirWatchers.contains ·)).filter (· ≠ dir) := by
                rw [List.filter_filter]
                exact List.filter_congr fun p _ => by
                  rw [Bool.eq_iff_iff]
                  simp [and_comm]
              simp only [State.unwatched, hfilter]
              refine List.length_filter_lt_length_iff_exists.mpr ⟨dir, ?_, by simp⟩
              exact List.mem_filter.mpr ⟨hdir, by simpa using hnew⟩
            · refine rank_lt_of_load rfl ?_ ?_ ?_
              · refine congrArg List.length (List.filter_congr fun p hp => ?_)
                have hne : p ≠ dir := fun heq => hdir (heq ▸ hp)
                simp [hne]
              · rw [hstack]
                show (if dir ∈ s.fs.dirs then 1 else 0) + readsOf s.fs.dirs stack = _
                rw [if_neg hdir, Nat.zero_add]
                rfl
              · simp only [State.load, hstack, loadOf, Task.weight]
                omega

theorem rank_step {event : State.Event} (hinternal : State.internal s event = true)
    (hstep : State.step config s event = some t) : t.rank < s.rank := by
  cases event with
  | watch outcome =>
      simp only [State.step] at hstep
      split at hstep
      · rename_i dir mark stack hstack
        simp only [Option.ite_none_right_eq_some, Option.some.injEq] at hstep
        obtain ⟨-, rfl⟩ := hstep
        exact rank_watchTree hstack
      · cases hstep
  | read entries =>
      simp only [State.step] at hstep
      split at hstep
      · rename_i dir mark stack hstack
        by_cases hdir : dir ∈ s.fs.dirs
        · have hreads : readsOf s.fs.dirs s.stack = 1 + readsOf s.fs.dirs stack := by
            rw [hstack]
            show (if dir ∈ s.fs.dirs then 1 else 0) + _ = _
            rw [if_pos hdir]
          cases entries with
          | none =>
              cases hstep
              refine rank_lt_of_reads rfl rfl ?_
              show readsOf s.fs.dirs stack < readsOf s.fs.dirs s.stack
              omega
          | some entries =>
              simp only [State.readdir, Option.ite_none_right_eq_some, Option.some.injEq] at hstep
              obtain ⟨-, rfl⟩ := hstep
              refine rank_lt_of_reads rfl rfl ?_
              show readsOf s.fs.dirs (entries.map (.visit dir · mark) ++ stack) <
                readsOf s.fs.dirs s.stack
              rw [readsOf_map_visit, hreads]
              omega
        · cases entries with
          | none =>
              cases hstep
              refine rank_lt_of_load rfl rfl ?_ ?_
              · rw [hstack]
                show _ = (if dir ∈ s.fs.dirs then 1 else 0) + _
                rw [if_neg hdir, Nat.zero_add]
              · simp only [State.load, hstack, loadOf, Task.weight]
                omega
          | some entries =>
              simp only [State.readdir, Option.ite_none_right_eq_some] at hstep
              exact absurd hstep.1.1 hdir
      · cases hstep
  | visit =>
      simp only [State.step] at hstep
      split at hstep
      · rename_i dir entry mark stack hstack
        cases hstep
        unfold State.visit
        dsimp only
        -- whatever comes of the entry weighs less than its visit
        split <;> split <;>
          · refine rank_lt_of_load rfl rfl (by rw [hstack]; rfl) ?_
            simp only [State.load, State.onPathEvent, hstack, loadOf, Task.weight]
            omega
      · cases hstep
  | started =>
      simp only [State.step, Option.ite_none_right_eq_some, Option.some.injEq] at hstep
      obtain ⟨⟨hstack, hstarted⟩, rfl⟩ := hstep
      refine rank_lt_of_load rfl rfl rfl ?_
      simp only [State.load, if_true, if_neg hstarted]
      omega
  | deliver =>
      simp only [State.step] at hstep
      split at hstep
      · rename_i dir name events hevents
        simp only [Option.ite_none_right_eq_some, Option.some.injEq] at hstep
        obtain ⟨-, rfl⟩ := hstep
        unfold State.handleDirEvent
        dsimp only
        split
        · refine rank_lt_of_load rfl rfl rfl ?_
          simp only [State.load, hevents, List.length_cons]
          omega
        · split
          · split <;>
              · refine rank_lt_of_load rfl rfl rfl ?_
                simp only [State.load, hevents, List.length_cons, loadOf, Task.weight]
                omega
          · refine rank_lt_of_load rfl rfl rfl ?_
            simp only [State.load, State.onPathEvent, hevents, List.length_cons]
            omega
      · cases hstep
  | _ => cases hinternal

/-- Where nothing moves by itself the first walk is over, and no call or event is left. -/
theorem stuck_spec (h : ((State.step config).restrict State.internal).Stuck s) :
    s.stack = [] ∧ s.started = true ∧ s.events = [] := by
  have hnone : ∀ event, State.internal s event = true → State.step config s event = none := by
    intro event hinternal
    have hone := h event
    simpa [Machine.restrict, hinternal] using hone
  have hstack : s.stack = [] := by
    cases hs : s.stack with
    | nil => rfl
    | cons task stack =>
        cases task with
        | watch dir mark =>
            have hstep := hnone (.watch .failed) rfl
            simp [State.step, hs] at hstep
        | read dir mark =>
            have hstep := hnone (.read none) rfl
            simp [State.step, hs, State.readdir] at hstep
        | visit dir entry mark =>
            have hstep := hnone .visit rfl
            simp [State.step, hs] at hstep
  have hstarted : s.started = true := by
    by_contra hno
    have hstep := hnone .started rfl
    simp [State.step, hstack, hno] at hstep
  refine ⟨hstack, hstarted, ?_⟩
  cases hevents : s.events with
  | nil => rfl
  | cons e events =>
      have hstep := hnone .deliver rfl
      simp [State.step, hevents, hstack, hstarted] at hstep

theorem stuck_of_quiet (hstack : s.stack = []) (hstarted : s.started = true)
    (hevents : s.events = []) : ((State.step config).restrict State.internal).Stuck s := by
  intro event
  refine Option.eq_none_iff_forall_ne_some.mpr fun t hstep => ?_
  obtain ⟨hinternal, hstep⟩ := Machine.restrict_eq_some.mp hstep
  cases event with
  | watch outcome => simp [State.step, hstack] at hstep
  | read entries => simp [State.step, hstack] at hstep
  | visit => simp [State.step, hstack] at hstep
  | started => simp [State.step, hstarted] at hstep
  | deliver => simp [State.step, hevents] at hstep
  | _ => cases hinternal

/-! ## The result -/

/-- A directory that the walk goes down to. -/
def InScope (config : Config) (dir : Path) : Prop :=
  ∀ a, a <:+ dir → a ≠ [] → config.shouldIgnoreDir a = false

theorem InScope.tail {n : String} {p : Path} (h : InScope config (n :: p)) : InScope config p :=
  fun a ha hne => h a (ha.trans (List.suffix_cons n p)) hne

theorem Covered.watched_of_quiet (h : Covered config s) (htodo : s.todo = []) {dir : Path}
    (hdir : dir ∈ s.fs.dirs) (hscope : InScope config dir) : dir ∈ s.dirWatchers := by
  induction dir with
  | nil =>
      rcases h.root with hroot | ⟨mark, hmark⟩
      · exact hroot
      · exact absurd (htodo ▸ hmark) List.not_mem_nil
  | cons n p ih =>
      have hp := ih (h.fs.closed n p hdir) hscope.tail
      by_contra hun
      have hignore := hscope (n :: p) List.suffix_rfl (List.cons_ne_nil n p)
      obtain ⟨item, hitem, -⟩ := h.dirs n p hp hdir hignore hun
      exact absurd (htodo ▸ hitem) List.not_mem_nil

/-- Whatever other processes do to the tree and whenever: from a state in which no limit was hit
and nothing passed over, the adapter comes to rest when the changes stop, and where it rests every
directory in scope is watched and the callback was told of the last change of every file. -/
theorem adapter_catches_up (h : (State.step config).Reaches {} s) (hs : Intact s) :
    ((State.step config).restrict State.internal).Halts s ∧
      (((State.step config).restrict State.internal).Stuck s →
        (∀ dir ∈ s.fs.dirs, InScope config dir → dir ∈ s.dirWatchers) ∧
          ∀ n p, InScope config p → n :: p ∉ s.fs.dirs →
            s.known (n :: p) = s.fs.content (n :: p)) := by
  have hcovered := covered_of_reaches h hs
  refine ⟨?_, fun hstuck => ?_⟩
  · refine @Machine.halts_of_measure _ _ _ (fun _ => True) _
      (InvImage.wf State.rank wellFounded_lt) (fun _ _ _ _ _ => trivial)
      (fun u event v _ hstep => ?_) s trivial
    obtain ⟨hinternal, hstep⟩ := Machine.restrict_eq_some.mp hstep
    exact rank_step hinternal hstep
  · obtain ⟨hstack, hstarted, hevents⟩ := stuck_spec hstuck
    have htodo : s.todo = [] := by
      rw [State.todo, hstack, hevents]
      rfl
    refine ⟨fun dir hdir => hcovered.watched_of_quiet htodo hdir, ?_⟩
    intro n p hscope hfile
    by_contra hne
    by_cases hwatched : p ∈ s.dirWatchers
    · obtain ⟨item, hitem, -⟩ :=
        hcovered.files hstarted n p hwatched hfile fun heq => hne heq.symm
      exact absurd (htodo ▸ hitem) List.not_mem_nil
    · have hnone := hcovered.unknown hstarted n p hwatched
      have hdir := hcovered.fs.inDir n p fun hgone => hne (hnone.trans hgone.symm)
      exact hwatched (hcovered.watched_of_quiet htodo hdir hscope)

/-- A file is written before its new directory has a watch, and another after. -/
def raceRun : List State.Event :=
  [.watch .installed, .read (some []), .started,
    .change [] "src" .mkdir, .change ["src"] "a.ts" .write,
    .deliver, .watch .installed, .change ["src"] "b.ts" .write,
    .read (some [⟨"a.ts", false⟩, ⟨"b.ts", false⟩]), .visit, .visit, .deliver]

def raceConfig : Config where
  shouldIgnoreDir path := path.headD "" = "node_modules"
  maxDirWatches := 50000

def raceEnd : State := ((State.step raceConfig).run {} raceRun).getD {}

theorem raceEnd_reached : (State.step raceConfig).Reaches {} raceEnd := ⟨raceRun, rfl⟩

theorem raceEnd_stuck : ((State.step raceConfig).restrict State.internal).Stuck raceEnd :=
  stuck_of_quiet rfl rfl rfl

/-- It is told of both, of the second one twice. -/
theorem adapter_catches_up_race :
    raceEnd.reported = [["a.ts", "src"], ["b.ts", "src"], ["b.ts", "src"]] ∧
      ["src"] ∈ raceEnd.dirWatchers ∧
      raceEnd.known ["a.ts", "src"] = raceEnd.fs.content ["a.ts", "src"] := by
  have hscope : InScope raceConfig ["src"] := by
    intro a ha hne
    rcases List.suffix_cons_iff.mp ha with rfl | ha
    · rfl
    · exact absurd (List.suffix_nil.mp ha) hne
  have hrest := (adapter_catches_up raceEnd_reached ⟨rfl, rfl, rfl, rfl, rfl⟩).2 raceEnd_stuck
  exact ⟨rfl, hrest.1 ["src"] (by decide) hscope, hrest.2 "a.ts" ["src"] hscope (by decide)⟩

end AfyxGraph.Sync.FsWatch
