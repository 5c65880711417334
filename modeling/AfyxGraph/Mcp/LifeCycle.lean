import AfyxGraph.Mcp.Engine

/-! # One instance at a time

The invariant says what the engine holds by what it refers to: the open instances are `cg`
and the one `open` has just returned, of which at most one is there.
-/

namespace AfyxGraph.Mcp

open AfyxGraph.Core

variable {Root Lock : Type} [DecidableEq Lock]

namespace MCPEngine

variable {getWriterPidPath : Root → Lock} {s t : MCPEngine Root Lock}
  {around : Surroundings} {made : Nat}

structure Inv (getWriterPidPath : Root → Lock) (s : MCPEngine Root Lock) : Prop where
  handler : s.closed = false → s.toolHandler.cg = s.cg
  instances : s.instances = s.cg.toList ++ s.unassigned.toList
  one : s.cg.isSome = true → s.unassigned = none
  watching : ∀ cg ∈ s.watching, s.cg = some cg ∧ s.toolHandler.cg = some cg
  pools : s.pools = s.queryPool.toList
  locks : ∀ lock ∈ s.locks, ∃ root, s.writerLockRoot = some root ∧ getWriterPidPath root = lock
  released : s.closed = true →
    s.cg = none ∧ s.unassigned = none ∧ s.queryPool = none ∧ s.writerLockRoot = none

/-- What the invariant is about. -/
def holdings (s : MCPEngine Root Lock) :=
  (s.closed, s.cg, s.toolHandler.cg, s.unassigned, s.instances, s.watching, s.queryPool, s.pools,
    s.writerLockRoot, s.locks)

namespace Inv

omit [DecidableEq Lock] in
theorem same (h : Inv getWriterPidPath s) (hsame : t.holdings = s.holdings) :
    Inv getWriterPidPath t := by
  simp only [holdings, Prod.mk.injEq] at hsame
  obtain ⟨hclosed, hcg, hdefault, hunassigned, hinstances, hwatching, hpool, hpools, hlock,
    hlocks⟩ := hsame
  refine ⟨?_, ?_, ?_, ?_, ?_, ?_, ?_⟩
  · rw [hclosed, hdefault, hcg]
    exact h.handler
  · rw [hinstances, hcg, hunassigned]
    exact h.instances
  · rw [hcg, hunassigned]
    exact h.one
  · rw [hwatching, hcg, hdefault]
    exact h.watching
  · rw [hpools, hpool]
    exact h.pools
  · rw [hlocks, hlock]
    exact h.locks
  · rw [hclosed, hcg, hunassigned, hpool, hlock]
    exact h.released

omit [DecidableEq Lock] in
theorem lifeCycle (h : Inv getWriterPidPath s) : LifeCycle s where
  single := by
    rw [h.instances]
    cases hcg : s.cg with
    | none => cases s.unassigned <;> simp
    | some cg =>
        rw [h.one (by simp [hcg])]
        simp
  watcher cg hcg := (h.watching cg hcg).2
  ended hclosed _ := by
    obtain ⟨hcg, hunassigned, hpool, hlock⟩ := h.released hclosed
    refine ⟨?_, ?_, ?_⟩
    · rw [h.instances, hcg, hunassigned]
      rfl
    · rw [h.pools, hpool]
      rfl
    · cases hlocks : s.locks with
      | nil => rfl
      | cons lock rest =>
          obtain ⟨root, hroot, -⟩ := h.locks lock (by simp [hlocks])
          rw [hlock] at hroot
          cases hroot

/-! ## Starting the watcher and the pool -/

omit [DecidableEq Lock] in
theorem watchInstance (h : Inv getWriterPidPath s) (hcg : s.cg = some made)
    (hopen : s.closed = false) : Inv getWriterPidPath (s.watchInstance around made).1 := by
  unfold MCPEngine.watchInstance
  have hdefault : s.toolHandler.cg = some made := (h.handler hopen).trans hcg
  cases hdisabled : around.watchDisabled with
  | true => exact h.same rfl
  | false =>
      cases hwatch : around.watch with
      | throws => exact h.same rfl
      | unavailable => exact h.same rfl
      | started =>
          refine ⟨h.handler, h.instances, h.one, fun other hother => ?_, h.pools, h.locks,
            h.released⟩
          rcases List.mem_insert_iff.mp hother with rfl | hother
          · exact ⟨hcg, hdefault⟩
          · exact h.watching other hother

theorem acquireWriter (h : Inv getWriterPidPath s) (hopen : s.closed = false) (lockRoot : Root)
    (hfits : ∀ held, s.writerLockRoot = some held →
      getWriterPidPath held = getWriterPidPath lockRoot) :
    Inv getWriterPidPath (s.acquireWriter getWriterPidPath lockRoot) := by
  refine ⟨h.handler, h.instances, h.one, h.watching, h.pools, fun lock hlock => ?_,
    fun hclosed => ?_⟩
  · refine ⟨lockRoot, rfl, ?_⟩
    rcases List.mem_insert_iff.mp hlock with rfl | hlock
    · rfl
    · obtain ⟨held, hheld, rfl⟩ := h.locks lock hlock
      exact (hfits held hheld).symm
  · have hnone : s.closed = true := hclosed
    rw [hopen] at hnone
    cases hnone

theorem startWatching (h : Inv getWriterPidPath s) (hopen : s.closed = false)
    (hfits : s.lockFits getWriterPidPath around s.projectPath = true) :
    Inv getWriterPidPath (s.startWatching getWriterPidPath around).1 := by
  unfold MCPEngine.startWatching
  split
  · exact h
  · rename_i cg hcg
    split
    · exact h
    · rename_i hidle
      simp only [Bool.or_eq_true, not_or, Bool.not_eq_true] at hidle
      split
      · exact h.watchInstance hcg hopen
      · rename_i lockRoot hroot
        split
        · exact h
        · exact h.same rfl
        · rename_i hwriter
          have hacquired := h.acquireWriter hopen lockRoot fun held hheld => by
            simpa [lockFits, hidle, hwriter, hheld, hroot] using hfits
          exact hacquired.watchInstance hcg hopen

omit [DecidableEq Lock] in
theorem catchUpSync (h : Inv getWriterPidPath s) : Inv getWriterPidPath s.catchUpSync := by
  unfold MCPEngine.catchUpSync
  cases hcg : s.cg with
  | none => exact h
  | some cg => exact h.same (by simp [holdings, hcg, unassigned])

omit [DecidableEq Lock] in
theorem maybeStartPool (h : Inv getWriterPidPath s) :
    Inv getWriterPidPath (s.maybeStartPool around) := by
  unfold MCPEngine.maybeStartPool
  split
  · exact h
  · rename_i hstart
    simp only [Bool.or_eq_true, not_or, Option.isSome_eq_false_iff, Bool.not_eq_true] at hstart
    split
    · exact h
    · refine ⟨h.handler, h.instances, h.one, h.watching, ?_, h.locks, fun hclosed => ?_⟩
      · rw [h.pools, Option.isNone_iff_eq_none.mp hstart.1.2]
        rfl
      · rw [hstart.2] at hclosed
        cases hclosed

/-! ## Taking an instance in -/

omit [DecidableEq Lock] in
theorem watching_nil (h : Inv getWriterPidPath s) (hcg : s.cg = none) : s.watching = [] := by
  cases hwatching : s.watching with
  | nil => rfl
  | cons cg rest =>
      have hsome := (h.watching cg (by simp [hwatching])).1
      rw [hcg] at hsome
      cases hsome

theorem adopt (h : Inv getWriterPidPath (s.setDefaultAfyxGraph made)) (hopen : s.closed = false)
    (hfits : s.lockFits getWriterPidPath around s.projectPath = true) :
    Inv getWriterPidPath (s.adopt getWriterPidPath around made) := by
  have hstarted : Inv getWriterPidPath
      ((s.setDefaultAfyxGraph made).startWatching getWriterPidPath around).1 :=
    h.startWatching hopen hfits
  unfold MCPEngine.adopt
  split
  · rename_i hstart
    rw [hstart] at hstarted
    exact hstarted
  · rename_i hstart
    rw [hstart] at hstarted
    exact hstarted.catchUpSync.maybeStartPool

omit [DecidableEq Lock] in
/-- The instance `open` has returned becomes the default. -/
theorem assigned (h : Inv getWriterPidPath s) {root : Root}
    (hstage : s.initPromise = some (.opened root made)) :
    s.closed = false ∧
      Inv getWriterPidPath
        ({ s with initPromise := some .settled }.setDefaultAfyxGraph made) := by
  have hunassigned : s.unassigned = some made := by simp [unassigned, hstage]
  have hcg : s.cg = none := by
    cases hcg : s.cg with
    | none => rfl
    | some cg => simp [h.one (by simp [hcg])] at hunassigned
  have hopen : s.closed = false := by
    cases hclosed : s.closed with
    | false => rfl
    | true => simp [(h.released hclosed).2.1] at hunassigned
  have hinstances := h.instances
  rw [hcg, hunassigned] at hinstances
  refine ⟨hopen, fun _ => rfl, hinstances, fun _ => rfl, fun cg hmem => ?_, h.pools, h.locks,
    fun hclosed => ?_⟩
  · have hnone : cg ∈ s.watching := hmem
    rw [h.watching_nil hcg] at hnone
    cases hnone
  · have hsame : s.closed = true := hclosed
    rw [hopen] at hsame
    cases hsame

omit [DecidableEq Lock] in
/-- The instance `openSync` returns becomes the default at once. -/
theorem reopened (h : Inv getWriterPidPath s) (hopen : s.closed = false) (hcg : s.cg = none)
    (hunassigned : s.unassigned = none) (path : Option Root) :
    Inv getWriterPidPath
      ({ s.openInstance with projectPath := path }.setDefaultAfyxGraph s.nextId) := by
  have hinstances := h.instances
  rw [hcg, hunassigned] at hinstances
  refine ⟨fun _ => rfl, ?_, fun _ => hunassigned, fun cg hmem => ?_, h.pools, h.locks,
    fun hclosed => ?_⟩
  · show s.instances ++ [s.nextId] = [s.nextId] ++ s.unassigned.toList
    rw [hinstances, hunassigned]
    rfl
  · have hnone : cg ∈ s.watching := hmem
    rw [h.watching_nil hcg] at hnone
    cases hnone
  · have hsame : s.closed = true := hclosed
    rw [hopen] at hsame
    cases hsame

/-! ## The calls -/

omit [DecidableEq Lock] in
theorem ensureInitialized (h : Inv getWriterPidPath s) (searchFrom : Root)
    (res : ServerRootResolution Root) :
    Inv getWriterPidPath (s.ensureInitialized searchFrom res) := by
  unfold MCPEngine.ensureInitialized
  split
  · exact h
  · rename_i hfirst
    simp only [Bool.or_eq_true, not_or, Bool.not_eq_true, Option.isSome_eq_false_iff,
      Option.isNone_iff_eq_none] at hfirst
    apply h.same
    unfold doInitialize
    cases res.root <;>
      simp [holdings, setKnownSubprojects, setDefaultProjectHint, unassigned, hfirst.2]

omit [DecidableEq Lock] in
theorem grammarsLoaded (h : Inv getWriterPidPath s) {opens : Bool}
    (hallowed : opens = true → s.closed = false ∧ s.cg = none)
    (hs : s.grammarsLoaded opens = some t) : Inv getWriterPidPath t := by
  unfold MCPEngine.grammarsLoaded at hs
  split at hs
  · rename_i root hstage
    have hunassigned : s.unassigned = none := by simp [unassigned, hstage]
    split at hs
    · rename_i hopens
      obtain rfl := Option.some.inj hs
      obtain ⟨hopen, hcg⟩ := hallowed hopens
      have hinstances := h.instances
      rw [hcg, hunassigned] at hinstances
      refine ⟨h.handler, ?_, fun hsome => ?_, h.watching, h.pools, h.locks, fun hclosed => ?_⟩
      · show s.instances ++ [s.nextId] = s.cg.toList ++ [s.nextId]
        rw [hinstances, hcg]
        rfl
      · have hsome : s.cg.isSome = true := hsome
        rw [hcg] at hsome
        cases hsome
      · have hsame : s.closed = true := hclosed
        rw [hopen] at hsame
        cases hsame
    · obtain rfl := Option.some.inj hs
      exact h.same (by simp [holdings, unassigned, hstage])
  · cases hs

theorem initializeResumed (h : Inv getWriterPidPath s)
    (hfits : s.lockFits getWriterPidPath around s.projectPath = true)
    (hs : s.initializeResumed getWriterPidPath around = some t) : Inv getWriterPidPath t := by
  unfold MCPEngine.initializeResumed at hs
  split at hs
  · rename_i root cg hstage
    obtain rfl := Option.some.inj hs
    obtain ⟨hopen, hassigned⟩ := h.assigned hstage
    exact hassigned.adopt hopen hfits
  · cases hs

omit [DecidableEq Lock] in
theorem initFinally (h : Inv getWriterPidPath s) (hs : s.initFinally = some t) :
    Inv getWriterPidPath t := by
  unfold MCPEngine.initFinally at hs
  split at hs
  · rename_i hstage
    obtain rfl := Option.some.inj hs
    exact h.same (by simp [holdings, unassigned, hstage])
  · cases hs

end Inv

omit [DecidableEq Lock] in
theorem retryScan_same (searchFrom : Root) (now : Nat)
    (resolve : Bool → ServerRootResolution Root) :
    (s.retryScan searchFrom now resolve).1.holdings = s.holdings ∧
      (s.retryScan searchFrom now resolve).1.opts = s.opts ∧
      (s.retryScan searchFrom now resolve).1.watcherStarted = s.watcherStarted := by
  unfold retryScan
  dsimp only
  split
  · split <;> exact ⟨rfl, rfl, rfl⟩
  · exact ⟨rfl, rfl, rfl⟩

theorem Inv.retryInitializeSync (h : Inv getWriterPidPath s) {searchFrom : Root} {now : Nat}
    {resolve : Bool → ServerRootResolution Root} {opens : Bool}
    (hallowed : s.Allowed getWriterPidPath
      (.retryInitializeSync searchFrom now resolve opens around)) :
    Inv getWriterPidPath
      (s.retryInitializeSync getWriterPidPath searchFrom now resolve opens around) := by
  unfold MCPEngine.retryInitializeSync
  split
  · exact h
  · rename_i hretry
    simp only [Bool.or_eq_true, not_or, Bool.not_eq_true, Option.isSome_eq_false_iff,
      Option.isNone_iff_eq_none] at hretry
    obtain ⟨hopen, hdefault⟩ := hretry
    have hcg : s.cg = none := (h.handler hopen).symm.trans hdefault
    obtain ⟨hsame, hopts, hstarted⟩ := retryScan_same (s := s) searchFrom now resolve
    have hscanned := h.same hsame
    simp only [Allowed, allowed, hopen, hdefault, Option.isSome_none, Bool.or_self,
      Bool.false_or, Bool.or_eq_true, Bool.not_eq_eq_eq_not, Bool.not_true] at hallowed
    cases hscan : s.retryScan searchFrom now resolve with
    | mk scanned resolved =>
        rw [hscan] at hsame hopts hstarted hscanned hallowed
        cases resolved with
        | none => exact hscanned
        | some root =>
            simp only [holdings, Prod.mk.injEq] at hsame
            obtain ⟨hclosed', hcg', -, hunassigned', -, -, -, -, hlock', -⟩ := hsame
            have hclean : scanned.closeFailed = scanned := by
              simp [closeFailed, hcg', hcg]
            dsimp only
            rw [hclean]
            cases opens with
            | false => exact hscanned
            | true =>
                simp only [Bool.true_eq_false, false_or, Option.all_some, Bool.and_eq_true,
                  Option.isNone_iff_eq_none] at hallowed
                have hreopened := hscanned.reopened (hclosed'.trans hopen) (hcg'.trans hcg)
                  (hunassigned'.trans hallowed.1) (some root)
                apply hreopened.adopt (hclosed'.trans hopen)
                have hfits := hallowed.2
                unfold lockFits at hfits ⊢
                rw [← hopts, ← hstarted, ← hlock'] at hfits
                exact hfits

theorem releaseWriter_eq (hlocks : ∀ lock ∈ s.locks, ∃ root, s.writerLockRoot = some root ∧
      getWriterPidPath root = lock) :
    s.releaseWriter getWriterPidPath = { s with locks := [], writerLockRoot := none } := by
  unfold releaseWriter
  split
  · rename_i hroot
    have hnone : s.locks = [] := by
      apply List.eq_nil_iff_forall_not_mem.mpr
      intro lock hlock
      obtain ⟨root, hsome, -⟩ := hlocks lock hlock
      rw [hroot] at hsome
      cases hsome
    rw [← hnone, ← hroot]
  · rename_i root hroot
    have hnone : s.locks.filter (· ≠ getWriterPidPath root) = [] := by
      apply List.filter_eq_nil_iff.mpr
      intro lock hlock
      obtain ⟨held, hheld, rfl⟩ := hlocks lock hlock
      obtain rfl := Option.some.inj (hroot.symm.trans hheld)
      simp
    rw [hnone]

omit [DecidableEq Lock] in
theorem destroyPool_eq (hpools : s.pools = s.queryPool.toList) :
    s.destroyPool =
      { s with
        toolHandler := { s.toolHandler with queryPool := none }, pools := [], queryPool := none } := by
  unfold destroyPool
  dsimp only
  split
  · rename_i hpool
    have hnone : s.pools = [] := hpools.trans (by simp [hpool])
    rw [← hpool, ← hnone]
  · rename_i pool hpool
    rw [hpool] at hpools
    simp [hpools]

omit [DecidableEq Lock] in
theorem closeFailed_eq (hinstances : s.instances = s.cg.toList)
    (hwatching : ∀ cg ∈ s.watching, s.cg = some cg) :
    s.closeFailed = { s with cg := none, instances := [], watching := [] } := by
  unfold closeFailed
  split
  · rename_i hcg
    have hnone : s.watching = [] := by
      apply List.eq_nil_iff_forall_not_mem.mpr
      intro cg hmem
      have hsome := hwatching cg hmem
      rw [hcg] at hsome
      cases hsome
    have hempty : s.instances = [] := hinstances.trans (by simp [hcg])
    cases s
    simp_all only
  · rename_i cg hcg
    have hnone : s.watching.filter (· ≠ cg) = [] := by
      apply List.filter_eq_nil_iff.mpr
      intro other hother
      have hsame := hwatching other hother
      rw [hcg] at hsame
      simp [Option.some.inj hsame]
    rw [hcg] at hinstances
    have hempty : s.instances.filter (· ≠ cg) = [] := by simp [hinstances]
    simp only [closeInstance, hempty, hnone]

theorem Inv.stop (h : Inv getWriterPidPath s)
    (hallowed : s.closed = true ∨ s.unassigned = none) :
    Inv getWriterPidPath (s.stop getWriterPidPath) := by
  unfold MCPEngine.stop
  split
  · exact h
  · rename_i hopen
    have hunassigned := hallowed.resolve_left hopen
    have hinstances := h.instances
    rw [hunassigned, Option.toList_none, List.append_nil] at hinstances
    have hreleased := releaseWriter_eq (s := { s with closed := true }) h.locks
    have hdestroyed := destroyPool_eq
      (s := { s with closed := true, locks := ([] : List Lock), writerLockRoot := none }) h.pools
    rw [hreleased, hdestroyed, closeFailed_eq]
    · refine ⟨fun hfalse => ?_, ?_, fun _ => hunassigned, ?_, rfl, ?_,
        fun _ => ⟨rfl, hunassigned, rfl, rfl⟩⟩
      · cases hfalse
      · show [] = s.unassigned.toList
        rw [hunassigned]
        rfl
      · exact fun cg hcg => absurd hcg List.not_mem_nil
      · exact fun lock hlock => absurd hlock List.not_mem_nil
    · exact hinstances
    · exact fun cg hcg => (h.watching cg hcg).1

/-! ## Runs -/

theorem step_inv {event : Event Root} (h : Inv getWriterPidPath s)
    (hallowed : s.Allowed getWriterPidPath event)
    (hs : step getWriterPidPath s event = some t) : Inv getWriterPidPath t := by
  cases event with
  | ensureInitialized searchFrom res =>
      obtain rfl := Option.some.inj hs
      exact h.ensureInitialized searchFrom res
  | grammarsLoaded opens =>
      apply h.grammarsLoaded _ hs
      intro hopens
      simpa [Allowed, allowed, hopens] using hallowed
  | initializeResumed around => exact h.initializeResumed hallowed hs
  | initFinally => exact h.initFinally hs
  | retryInitializeSync searchFrom now resolve opens around =>
      obtain rfl := Option.some.inj hs
      exact h.retryInitializeSync hallowed
  | stop =>
      obtain rfl := Option.some.inj hs
      apply h.stop
      simpa [Allowed, allowed] using hallowed

omit [DecidableEq Lock] in
theorem inv_init (opts : EngineOptions) (writerLockRoot projectPath : Option Root) :
    Inv getWriterPidPath (init getWriterPidPath opts writerLockRoot projectPath) where
  handler _ := rfl
  instances := rfl
  one hsome := by cases hsome
  watching cg hcg := by cases hcg
  pools := rfl
  locks lock hlock := by
    obtain ⟨root, hroot, rfl⟩ := List.mem_map.mp hlock
    exact ⟨root, Option.mem_toList.mp hroot, rfl⟩
  released hclosed := by cases hclosed

/-- While every step is allowed, one instance at most is open, its watcher is that of the
default, and a stopped engine with no initialization left holds nothing. -/
theorem always_lifeCycle (getWriterPidPath : Root → Lock) (opts : EngineOptions)
    (writerLockRoot projectPath : Option Root) (events : List (Event Root))
    (h : (step getWriterPidPath).Guarded (Allowed getWriterPidPath)
      (init getWriterPidPath opts writerLockRoot projectPath) events) :
    (step getWriterPidPath).Always LifeCycle
      (init getWriterPidPath opts writerLockRoot projectPath) events :=
  h.always (fun _ _ _ hs hallowed hstep => step_inv hs hallowed hstep) (fun _ hs => hs.lifeCycle)
    (inv_init opts writerLockRoot projectPath)

/-- Two sessions share one open, a third retries after it, and the engine stops. -/
theorem always_lifeCycle_shared :
    (step id).Always LifeCycle (init id ⟨true, true⟩ none none)
      [.ensureInitialized "app" ⟨some "app", []⟩, .ensureInitialized "lib" ⟨some "lib", []⟩,
        .grammarsLoaded true, .initializeResumed ⟨.acquired, false, .started, 2, false⟩,
        .initFinally,
        .retryInitializeSync "lib" 6000 (fun _ => ⟨some "lib", []⟩) true
          ⟨.acquired, false, .started, 2, false⟩,
        .stop] :=
  always_lifeCycle id _ none none _ (by decide)

/-- The engine stops while its open is under way: what that opens is never closed. -/
theorem opened_after_stop :
    ∃ t, (step id).run (init id ⟨true, false⟩ none none)
        [.ensureInitialized "app" ⟨some "app", []⟩, .stop, .grammarsLoaded true,
          .initializeResumed ⟨.acquired, false, .started, 2, false⟩, .initFinally] = some t ∧
      t.closed = true ∧ t.initPromise.isNone = true ∧ t.instances = [0] ∧ t.watching = [0] ∧
      t.locks = ["app"] ∧ ¬ LifeCycle t := by
  refine ⟨_, rfl, rfl, rfl, rfl, rfl, rfl, fun hcycle => ?_⟩
  have hnone := (hcycle.ended rfl rfl).1
  cases hnone

/-- A retry does not see the open under way: two instances, and the watcher is on the one
that is no longer the default. -/
theorem reopened_while_opening :
    ∃ t, (step id).run (init id ⟨true, false⟩ none none)
        [.ensureInitialized "app" ⟨some "app", []⟩,
          .retryInitializeSync "app" 6000 (fun _ => ⟨some "app", []⟩) true
            ⟨.acquired, false, .started, 2, false⟩,
          .grammarsLoaded true,
          .initializeResumed ⟨.acquired, false, .started, 2, false⟩] = some t ∧
      t.instances = [0, 1] ∧ t.watching = [0] ∧ t.toolHandler.cg = some 1 ∧
      ¬ LifeCycle t := by
  refine ⟨_, rfl, rfl, rfl, rfl, fun hcycle => ?_⟩
  have hone : 2 ≤ 1 := hcycle.single
  omega

end MCPEngine

end AfyxGraph.Mcp
