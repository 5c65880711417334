import AfyxGraph.Db.WalValve

/-! # Backfill loops of the WAL valve

The valve between its await points. A promise is known by the loop or the timer pass it is of:
its callbacks run when the environment says so, in any order, and a caller goes on only after
the promise it awaits has settled. `released` and `clears` are observations.
-/

namespace AfyxGraph.Db.WalBackfill

open AfyxGraph.Core

/-! ## The coordinator -/

/-- What `backfillFully` awaits, with the passes so far. -/
inductive LoopPhase where
  | inflight (op pass : Nat)
  | passive (pass : Nat)
  | truncate
  /-- The loop has ended and the callback of `finally` has not run. -/
  | finished (outcome : Outcome)
  | cleared (outcome : Outcome)
  deriving DecidableEq

def LoopPhase.isActive : LoopPhase → Bool
  | .inflight .. | .passive _ | .truncate => true
  | .finished _ | .cleared _ => false

def LoopPhase.isCleared : LoopPhase → Bool
  | .cleared _ => true
  | _ => false

inductive OperationPhase where
  | running
  /-- The pass has ended and the callback of `finally` has not run. -/
  | finished
  | settled
  deriving DecidableEq

/-- What a `foldNow` call awaits. -/
inductive FoldPhase where
  | pause (k : Nat)
  | inflight (op : Nat)
  /-- Its `drain` has returned. -/
  | drained
  | own (k : Nat)
  | returned
  | threw (error : WalValveAbortError)
  deriving DecidableEq

structure Coordinator where
  pressure : WalPressure
  inflight : Option Nat
  operations : List OperationPhase
  pause : Option Nat
  loops : List LoopPhase
  folds : List FoldPhase
  /-- The pauses that callers of `backpressure` wait on. -/
  writers : List Nat
  consecutiveGiveUps : Nat
  /-- The pauses that a caller went on from. -/
  released : List Nat
  /-- Which loop cleared the pause, and which pause it was. -/
  clears : List (Nat × Option Nat)

inductive Event where
  /-- A timer tick; `size` answers the read of `exceedsSoft`. -/
  | check (size : Nat)
  /-- The checkpoint of a timer pass answers; `size` is for `noteFullBackfill`. -/
  | timerPass (op : Nat) (result : Option CheckpointResult) (size : Nat)
  /-- The callback of the timer pass's `finally`. -/
  | settleOperation (op : Nat)
  | backpressure (growthRead walRead : Nat)
  | foldNow
  /-- A `foldNow` call goes on; `size` answers its read of the growth. -/
  | resumeFold (c size : Nat)
  | resumeWriter (k : Nat)
  | resumeLoop (k : Nat)
  | passive (k : Nat) (result : Option CheckpointResult) (walRead growthRead : Nat)
  | truncate (k size : Nat)
  /-- The callback of the `finally` of a pause. -/
  | clearPause (k : Nat)

namespace Coordinator

variable (s : Coordinator)

def init (softMb : Nat) : Coordinator where
  pressure := .ofSoftMb softMb
  inflight := none
  operations := []
  pause := none
  loops := []
  folds := []
  writers := []
  consecutiveGiveUps := 0
  released := []
  clears := []

/-- The condition of the loop in `drain`. -/
def drainHead : FoldPhase :=
  match s.pause, s.inflight with
  | some k, _ => .pause k
  | none, some op => .inflight op
  | none, none => .drained

/-- The body of the loop in `drain` once its first `await` is over. -/
def afterPause : FoldPhase :=
  match s.inflight with
  | some op => .inflight op
  | none => s.drainHead

/-- The head of the loop in `backfillFully`. -/
def nextPass (pass : Nat) : LoopPhase :=
  match s.inflight with
  | some op => .inflight op pass
  | none => .passive pass

/-- `this.pause = this.backfillFully().finally(…)` -/
def startLoop : Coordinator :=
  { s with loops := s.loops ++ [s.nextPass 0], pause := some s.loops.length }

def setLoop (k : Nat) (phase : LoopPhase) : Coordinator :=
  { s with loops := s.loops.set k phase }

/-- Fail closed past a cap, otherwise release the writer. -/
def byCaps (message : String) (walRead growthRead : Nat) : Outcome :=
  if walRead > s.pressure.fileCapBytes ||
      s.pressure.growthBytes growthRead > s.pressure.hardBytes then
    .rejected ⟨message, walRead, s.pressure.fileCapBytes, s.pressure.hardBytes⟩
  else .resolved

def fire : Coordinator :=
  { s with operations := s.operations ++ [.running], inflight := some s.operations.length }

def onPassive (k pass : Nat) (result : Option CheckpointResult) (walRead growthRead : Nat) :
    Coordinator :=
  match result with
  | none =>
      s.setLoop k (.finished (s.byCaps
        (WalCheckpointCoordinator.unavailableMessage s.pressure walRead) walRead growthRead))
  | some report =>
      if isFullBackfill report then s.setLoop k .truncate
      else if pass + 1 < maxPausedBackfillPasses then s.setLoop k (s.nextPass (pass + 1))
      else
        let s := { s with consecutiveGiveUps := s.consecutiveGiveUps + 1 }
        s.setLoop k (.finished (s.byCaps
          (WalCheckpointCoordinator.gaveUpMessage s.pressure walRead
            (s.pressure.growthBytes growthRead) s.consecutiveGiveUps) walRead growthRead))

def setFold (c : Nat) (phase : FoldPhase) : Coordinator :=
  { s with folds := s.folds.set c phase }

/-- An `await` on a pause that has settled. -/
def settledFold (c k : Nat) (phase : FoldPhase) : Option Coordinator :=
  match s.loops[k]? with
  | some (.cleared .resolved) =>
      some { s.setFold c phase with released := s.released ++ [k] }
  | some (.cleared (.rejected error)) =>
      some { s.setFold c (.threw error) with released := s.released ++ [k] }
  | _ => none

def step : Machine Coordinator Event
  | s, .check size =>
      some (if s.pause.isNone && s.inflight.isNone && s.pressure.exceedsSoft size then s.fire
        else s)
  | s, .timerPass op result size =>
      if s.operations[op]? = some .running then
        let pressure :=
          if result.any isFullBackfill then s.pressure.noteFullBackfill size else s.pressure
        some { s with pressure, operations := s.operations.set op .finished }
      else none
  | s, .settleOperation op =>
      if s.operations[op]? = some .finished then
        some { s with
          operations := s.operations.set op .settled
          inflight := if s.inflight = some op then none else s.inflight }
      else none
  | s, .backpressure growthRead walRead =>
      match s.pause with
      | some k => some { s with writers := s.writers ++ [k] }
      | none =>
          if s.pressure.withinCaps growthRead walRead then some s
          else some { s.startLoop with writers := s.writers ++ [s.loops.length] }
  | s, .foldNow => some { s with folds := s.folds ++ [s.drainHead] }
  | s, .resumeFold c size =>
      match s.folds[c]? with
      | some (.pause k) => s.settledFold c k s.afterPause
      | some (.inflight op) =>
          if s.operations[op]? = some .settled then some (s.setFold c s.drainHead) else none
      | some .drained =>
          if s.pressure.growthBytes size ≤ 0 then some (s.setFold c .returned)
          else some (s.startLoop.setFold c (.own s.loops.length))
      | some (.own k) => s.settledFold c k .returned
      | _ => none
  | s, .resumeWriter k =>
      if k ∈ s.writers ∧ s.loops[k]?.any LoopPhase.isCleared then
        some { s with writers := s.writers.erase k, released := s.released ++ [k] }
      else none
  | s, .resumeLoop k =>
      match s.loops[k]? with
      | some (.inflight op pass) =>
          if s.operations[op]? = some .settled then some (s.setLoop k (.passive pass)) else none
      | _ => none
  | s, .passive k result walRead growthRead =>
      match s.loops[k]? with
      | some (.passive pass) => some (s.onPassive k pass result walRead growthRead)
      | _ => none
  | s, .truncate k size =>
      match s.loops[k]? with
      | some .truncate =>
          some { s.setLoop k (.finished .resolved) with
            pressure := s.pressure.noteFullBackfill size
            consecutiveGiveUps := 0 }
      | _ => none
  | s, .clearPause k =>
      match s.loops[k]? with
      | some (.finished outcome) =>
          some { s.setLoop k (.cleared outcome) with
            pause := none
            clears := s.clears ++ [(k, s.pause)] }
      | _ => none

/-- The loop is running. -/
def Active (k : Nat) : Prop := ∃ phase, s.loops[k]? = some phase ∧ phase.isActive = true

/-- The pause has been set, and its own call has not cleared it. -/
def Uncleared (k : Nat) : Prop := ∃ phase, s.loops[k]? = some phase ∧ phase.isCleared = false

end Coordinator

open Coordinator

structure OneBackfill (s : Coordinator) : Prop where
  active : ∀ j k, s.Active j → s.Active k → j = k
  /-- A pause stays recorded until the call that set it clears it. -/
  recorded : ∀ k, s.Uncleared k → s.pause = some k
  cleared : ∀ entry ∈ s.clears, entry.2 = some entry.1
  released : ∀ k ∈ s.released, ¬ s.Active k

/-- A `foldNow` call that goes on after its `drain` and has something to fold finds no pause. -/
def FoldGuard (s : Coordinator) : Event → Prop
  | .resumeFold c size =>
      s.folds[c]? = some .drained → s.pressure.growthBytes size > 0 → s.pause = none
  | _ => True

/-! ## What a step does to the loops -/

/-- The loops and the pause are left alone; a caller may go on from a pause that is cleared. -/
structure Quiet (s t : Coordinator) : Prop where
  loops : t.loops = s.loops
  pause : t.pause = s.pause
  clears : t.clears = s.clears
  released : ∀ k ∈ t.released, k ∈ s.released ∨ s.loops[k]?.any LoopPhase.isCleared = true

structure Starts (s t : Coordinator) : Prop where
  loops : ∃ phase, phase.isActive = true ∧ t.loops = s.loops ++ [phase]
  pause : t.pause = some s.loops.length
  clears : t.clears = s.clears
  released : t.released = s.released

structure Advances (s t : Coordinator) : Prop where
  loops : ∃ k old new, s.loops[k]? = some old ∧ old.isActive = true ∧ new.isCleared = false ∧
    t.loops = s.loops.set k new
  pause : t.pause = s.pause
  clears : t.clears = s.clears
  released : t.released = s.released

structure Clears (s t : Coordinator) : Prop where
  loops : ∃ k outcome, s.loops[k]? = some (.finished outcome) ∧
    t.loops = s.loops.set k (.cleared outcome) ∧ t.clears = s.clears ++ [(k, s.pause)]
  pause : t.pause = none
  released : t.released = s.released

theorem isActive_nextPass (s : Coordinator) (pass : Nat) :
    (s.nextPass pass).isActive = true := by
  rw [nextPass]
  split
  · rfl
  · rfl

theorem isCleared_of_isActive {phase : LoopPhase} (h : phase.isActive = true) :
    phase.isCleared = false := by
  cases phase with
  | inflight op pass => rfl
  | passive pass => rfl
  | truncate => rfl
  | finished outcome => cases h
  | cleared outcome => cases h

theorem quiet_settledFold {s t : Coordinator} {c k : Nat} {phase : FoldPhase}
    (h : s.settledFold c k phase = some t) : Quiet s t := by
  rw [settledFold] at h
  have hreleased : ∀ outcome, s.loops[k]? = some (.cleared outcome) →
      ∀ j ∈ s.released ++ [k], j ∈ s.released ∨ s.loops[j]?.any LoopPhase.isCleared = true := by
    intro outcome hk j hj
    rcases List.mem_append.mp hj with hold | hnew
    · exact .inl hold
    · rw [List.mem_singleton.mp hnew, hk]
      exact .inr rfl
  split at h
  · rename_i hk
    obtain rfl := Option.some.inj h
    exact ⟨rfl, rfl, rfl, hreleased _ hk⟩
  · rename_i error hk
    obtain rfl := Option.some.inj h
    exact ⟨rfl, rfl, rfl, hreleased _ hk⟩
  · cases h

theorem advances_setLoop {s : Coordinator} {k : Nat} {old new : LoopPhase}
    (hk : s.loops[k]? = some old) (hold : old.isActive = true) (hnew : new.isCleared = false) :
    Advances s (s.setLoop k new) :=
  ⟨⟨k, old, new, hk, hold, hnew, rfl⟩, rfl, rfl, rfl⟩

theorem advances_onPassive {s : Coordinator} {k pass : Nat}
    (hk : s.loops[k]? = some (.passive pass)) (result : Option CheckpointResult)
    (walRead growthRead : Nat) : Advances s (s.onPassive k pass result walRead growthRead) := by
  rw [onPassive.eq_def]
  split
  · exact advances_setLoop hk rfl rfl
  · split
    · exact advances_setLoop hk rfl rfl
    · split
      · exact advances_setLoop hk rfl (isCleared_of_isActive (isActive_nextPass s _))
      · exact ⟨⟨k, _, _, hk, rfl, rfl, rfl⟩, rfl, rfl, rfl⟩

theorem starts_startLoop (s : Coordinator) : Starts s s.startLoop :=
  ⟨⟨_, isActive_nextPass s 0, rfl⟩, rfl, rfl, rfl⟩

/-- What does not touch the loops, the pause and the observations. -/
theorem Quiet.of_eq {s t : Coordinator} (hloops : t.loops = s.loops) (hpause : t.pause = s.pause)
    (hclears : t.clears = s.clears) (hreleased : t.released = s.released) : Quiet s t :=
  ⟨hloops, hpause, hclears, fun _ hk => .inl (hreleased ▸ hk)⟩

/-- A `foldNow` call that goes on. -/
theorem resumeFold_cases {s t : Coordinator} {c size : Nat}
    (h : step s (.resumeFold c size) = some t) :
    (Starts s t ∧ (FoldGuard s (.resumeFold c size) ↔ s.pause = none)) ∨
      (FoldGuard s (.resumeFold c size) ∧ Quiet s t) := by
  rw [step] at h
  cases hfold : s.folds[c]? with
  | none =>
      rw [hfold] at h
      cases h
  | some phase =>
      rw [hfold] at h
      cases phase with
      | pause k =>
          refine .inr ⟨fun hdrained => ?_, quiet_settledFold h⟩
          rw [hfold] at hdrained
          cases hdrained
      | own k =>
          refine .inr ⟨fun hdrained => ?_, quiet_settledFold h⟩
          rw [hfold] at hdrained
          cases hdrained
      | inflight op =>
          simp only at h
          split at h
          · obtain rfl := Option.some.inj h
            refine .inr ⟨fun hdrained => ?_, Quiet.of_eq rfl rfl rfl rfl⟩
            rw [hfold] at hdrained
            cases hdrained
          · cases h
      | drained =>
          simp only at h
          split at h
          · rename_i hgrowth
            obtain rfl := Option.some.inj h
            exact .inr ⟨fun _ hpos => absurd hgrowth (Int.not_le.mpr hpos),
              Quiet.of_eq rfl rfl rfl rfl⟩
          · rename_i hgrowth
            obtain rfl := Option.some.inj h
            refine .inl ⟨?_, fun hguard => hguard hfold (Int.not_le.mp hgrowth),
              fun hnone _ _ => hnone⟩
            have hstart := starts_startLoop s
            exact ⟨hstart.loops, hstart.pause, hstart.clears, hstart.released⟩
      | returned => cases h
      | threw error => cases h

/-- A step starts a loop, brings one on, clears a pause, or does none of these. Only a start can
fail the guard. -/
theorem step_cases {s t : Coordinator} {e : Event} (h : step s e = some t) :
    (Starts s t ∧ (FoldGuard s e ↔ s.pause = none)) ∨
      (FoldGuard s e ∧ (Quiet s t ∨ Advances s t ∨ Clears s t)) := by
  cases e with
  | check size =>
      rw [step] at h
      obtain rfl := Option.some.inj h
      refine .inr ⟨trivial, .inl ?_⟩
      split
      · exact Quiet.of_eq rfl rfl rfl rfl
      · exact Quiet.of_eq rfl rfl rfl rfl
  | timerPass op result size =>
      rw [step] at h
      split at h
      · obtain rfl := Option.some.inj h
        exact .inr ⟨trivial, .inl (Quiet.of_eq rfl rfl rfl rfl)⟩
      · cases h
  | settleOperation op =>
      rw [step] at h
      split at h
      · obtain rfl := Option.some.inj h
        exact .inr ⟨trivial, .inl (Quiet.of_eq rfl rfl rfl rfl)⟩
      · cases h
  | backpressure growthRead walRead =>
      rw [step] at h
      cases hpause : s.pause with
      | some k =>
          rw [hpause] at h
          obtain rfl := Option.some.inj h
          exact .inr ⟨trivial, .inl (Quiet.of_eq rfl hpause.symm rfl rfl)⟩
      | none =>
          rw [hpause] at h
          simp only at h
          split at h
          · obtain rfl := Option.some.inj h
            exact .inr ⟨trivial, .inl (Quiet.of_eq rfl rfl rfl rfl)⟩
          · obtain rfl := Option.some.inj h
            have hstart := starts_startLoop s
            exact .inl ⟨⟨hstart.loops, hstart.pause, hstart.clears, hstart.released⟩,
              fun _ => rfl, fun _ => trivial⟩
  | foldNow =>
      obtain rfl := Option.some.inj h
      exact .inr ⟨trivial, .inl (Quiet.of_eq rfl rfl rfl rfl)⟩
  | resumeFold c size =>
      rcases resumeFold_cases h with hstart | ⟨hguard, hquiet⟩
      · exact .inl hstart
      · exact .inr ⟨hguard, .inl hquiet⟩
  | resumeWriter k =>
      rw [step] at h
      split at h
      · rename_i hk
        obtain rfl := Option.some.inj h
        refine .inr ⟨trivial, .inl ⟨rfl, rfl, rfl, fun j hj => ?_⟩⟩
        rcases List.mem_append.mp hj with hold | hnew
        · exact .inl hold
        · rw [List.mem_singleton.mp hnew]
          exact .inr hk.2
      · cases h
  | resumeLoop k =>
      rw [step] at h
      split at h
      · rename_i op pass hk
        split at h
        · obtain rfl := Option.some.inj h
          exact .inr ⟨trivial, .inr (.inl (advances_setLoop hk rfl rfl))⟩
        · cases h
      · cases h
  | passive k result walRead growthRead =>
      rw [step] at h
      split at h
      · rename_i pass hk
        obtain rfl := Option.some.inj h
        exact .inr ⟨trivial, .inr (.inl (advances_onPassive hk result walRead growthRead))⟩
      · cases h
  | truncate k size =>
      rw [step] at h
      split at h
      · rename_i hk
        obtain rfl := Option.some.inj h
        exact .inr ⟨trivial, .inr (.inl ⟨⟨k, _, _, hk, rfl, rfl, rfl⟩, rfl, rfl, rfl⟩)⟩
      · cases h
  | clearPause k =>
      rw [step] at h
      split at h
      · rename_i outcome hk
        obtain rfl := Option.some.inj h
        exact .inr ⟨trivial, .inr (.inr ⟨⟨k, outcome, hk, rfl, rfl⟩, rfl, rfl⟩)⟩
      · cases h

/-! ## Runs -/

/-- Whatever the order of calls: the recorded pause is open, and nobody went on from a pause
before it was cleared. -/
structure Inv (s : Coordinator) : Prop where
  pause : ∀ k, s.pause = some k → s.Uncleared k
  released : ∀ k ∈ s.released, s.loops[k]?.any LoopPhase.isCleared = true

theorem uncleared_of_active {s : Coordinator} {k : Nat} (h : s.Active k) : s.Uncleared k := by
  obtain ⟨phase, hk, hactive⟩ := h
  exact ⟨phase, hk, isCleared_of_isActive hactive⟩

theorem not_active_of_cleared {s : Coordinator} {k : Nat}
    (h : s.loops[k]?.any LoopPhase.isCleared = true) : ¬ s.Active k := by
  intro hactive
  obtain ⟨phase, hk, huncleared⟩ := uncleared_of_active hactive
  rw [hk, Option.any_some, huncleared] at h
  cases h

/-- One recorded pause has one loop. -/
theorem oneBackfill_of_recorded {s : Coordinator} (hinv : Inv s)
    (hrecorded : ∀ k, s.Uncleared k → s.pause = some k)
    (hcleared : ∀ entry ∈ s.clears, entry.2 = some entry.1) : OneBackfill s where
  active j k hj hk := by
    have hpause := hrecorded j (uncleared_of_active hj)
    rw [hrecorded k (uncleared_of_active hk)] at hpause
    exact (Option.some.inj hpause).symm
  recorded := hrecorded
  cleared := hcleared
  released k hk := not_active_of_cleared (hinv.released k hk)

theorem Starts.uncleared {s t : Coordinator} (h : Starts s t) {k : Nat} :
    t.Uncleared k ↔ s.Uncleared k ∨ k = s.loops.length := by
  obtain ⟨started, hactive, hloops⟩ := h.loops
  rw [Uncleared, Uncleared, hloops]
  rcases Nat.lt_trichotomy k s.loops.length with hlt | rfl | hgt
  · rw [List.getElem?_append_left hlt]
    exact ⟨.inl, fun hk => hk.resolve_right (Nat.ne_of_lt hlt)⟩
  · refine ⟨fun _ => .inr rfl, fun _ => ⟨started, ?_, isCleared_of_isActive hactive⟩⟩
    rw [List.getElem?_append_right (Nat.le_refl _), Nat.sub_self]
    rfl
  · have hnone : (s.loops ++ [started])[k]? = none := by
      rw [List.getElem?_eq_none_iff, List.length_append, List.length_singleton]
      omega
    rw [hnone]
    constructor
    · rintro ⟨phase, hk, -⟩
      cases hk
    · rintro (⟨phase, hk, -⟩ | rfl)
      · rw [List.getElem?_eq_none_iff.mpr (Nat.le_of_lt hgt)] at hk
        cases hk
      · exact absurd hgt (Nat.lt_irrefl _)

theorem getElem?_set_loop {loops : List LoopPhase} {k : Nat} {old : LoopPhase}
    (hk : loops[k]? = some old) (new : LoopPhase) (j : Nat) :
    (loops.set k new)[j]? = if j = k then some new else loops[j]? := by
  by_cases hj : j = k
  · subst hj
    obtain ⟨hlt, -⟩ := List.getElem?_eq_some_iff.mp hk
    rw [if_pos rfl, List.getElem?_set_self hlt]
  · rw [if_neg hj, List.getElem?_set_ne (Ne.symm hj)]

theorem uncleared_set {s t : Coordinator} {k : Nat} {old new : LoopPhase}
    (hk : s.loops[k]? = some old) (hloops : t.loops = s.loops.set k new) {j : Nat} :
    t.Uncleared j ↔ (j = k ∧ new.isCleared = false) ∨ (j ≠ k ∧ s.Uncleared j) := by
  rw [Uncleared, hloops, getElem?_set_loop hk]
  by_cases hj : j = k
  · rw [if_pos hj]
    constructor
    · rintro ⟨phase, hphase, huncleared⟩
      obtain rfl := Option.some.inj hphase
      exact .inl ⟨hj, huncleared⟩
    · rintro (⟨-, huncleared⟩ | ⟨hne, -⟩)
      · exact ⟨new, rfl, huncleared⟩
      · exact absurd hj hne
  · rw [if_neg hj]
    constructor
    · intro huncleared
      exact .inr ⟨hj, huncleared⟩
    · rintro (⟨heq, -⟩ | ⟨-, huncleared⟩)
      · exact absurd heq hj
      · exact huncleared

/-- A cleared pause stays so when another phase is set. -/
theorem cleared_set {loops : List LoopPhase} {k j : Nat} {old new : LoopPhase}
    (hk : loops[k]? = some old) (hkeeps : old.isCleared = true → new.isCleared = true)
    (hj : loops[j]?.any LoopPhase.isCleared = true) :
    (loops.set k new)[j]?.any LoopPhase.isCleared = true := by
  rw [getElem?_set_loop hk]
  by_cases heq : j = k
  · subst heq
    rw [hk] at hj
    rw [if_pos rfl]
    exact hkeeps hj
  · rwa [if_neg heq]

theorem Inv.step {s t : Coordinator} {e : Event} (hinv : Inv s)
    (h : Coordinator.step s e = some t) : Inv t := by
  rcases step_cases h with ⟨hstart, -⟩ | ⟨-, hquiet | hadvance | hclear⟩
  · refine ⟨fun k hk => ?_, fun k hk => ?_⟩
    · rw [hstart.pause] at hk
      exact hstart.uncleared.mpr (.inr (Option.some.inj hk).symm)
    · rw [hstart.released] at hk
      have hcleared := hinv.released k hk
      obtain ⟨phase, -, hloops⟩ := hstart.loops
      have hlt : k < s.loops.length := by
        by_contra hge
        rw [List.getElem?_eq_none_iff.mpr (Nat.le_of_not_lt hge)] at hcleared
        cases hcleared
      rwa [hloops, List.getElem?_append_left hlt]
  · refine ⟨fun k hk => ?_, fun k hk => ?_⟩
    · rw [hquiet.pause] at hk
      rw [Uncleared, hquiet.loops]
      exact hinv.pause k hk
    · rw [hquiet.loops]
      rcases hquiet.released k hk with hold | hcleared
      · exact hinv.released k hold
      · exact hcleared
  · obtain ⟨k, old, new, hk, hold, hnew, hloops⟩ := hadvance.loops
    refine ⟨fun j hj => ?_, fun j hj => ?_⟩
    · rw [hadvance.pause] at hj
      rw [uncleared_set hk hloops]
      by_cases heq : j = k
      · exact .inl ⟨heq, hnew⟩
      · exact .inr ⟨heq, hinv.pause j hj⟩
    · rw [hadvance.released] at hj
      rw [hloops]
      refine cleared_set hk (fun hcleared => ?_) (hinv.released j hj)
      rw [isCleared_of_isActive hold] at hcleared
      cases hcleared
  · obtain ⟨k, outcome, hk, hloops, -⟩ := hclear.loops
    refine ⟨fun j hj => ?_, fun j hj => ?_⟩
    · rw [hclear.pause] at hj
      cases hj
    · rw [hclear.released] at hj
      rw [hloops]
      exact cleared_set hk (fun _ => rfl) (hinv.released j hj)

/-- A start keeps to one pause exactly if none was recorded. -/
theorem Starts.keeps_iff {s t : Coordinator} (hstart : Starts s t) (hinv : Inv s)
    (ht : Inv t) (hs : OneBackfill s) : OneBackfill t ↔ s.pause = none := by
  constructor
  · intro hone
    cases hpause : s.pause with
    | none => rfl
    | some k =>
        have hk := hinv.pause k hpause
        have hrecorded := hone.recorded k (hstart.uncleared.mpr (.inl hk))
        rw [hstart.pause] at hrecorded
        obtain ⟨phase, hphase, -⟩ := hk
        obtain ⟨hlt, -⟩ := List.getElem?_eq_some_iff.mp hphase
        exact absurd (Option.some.inj hrecorded) (Nat.ne_of_gt hlt)
  · intro hnone
    apply oneBackfill_of_recorded ht
    · intro k hk
      rw [hstart.pause]
      rcases hstart.uncleared.mp hk with hold | rfl
      · have hrecorded := hs.recorded k hold
        rw [hnone] at hrecorded
        cases hrecorded
      · rfl
    · rw [hstart.clears]
      exact hs.cleared

theorem Inv.keeps_iff {s t : Coordinator} {e : Event} (hinv : Inv s) (hs : OneBackfill s)
    (h : Coordinator.step s e = some t) : OneBackfill t ↔ FoldGuard s e := by
  have ht := hinv.step h
  rcases step_cases h with ⟨hstart, hguard⟩ | ⟨hguard, hchange⟩
  · exact (hstart.keeps_iff hinv ht hs).trans hguard.symm
  refine ⟨fun _ => hguard, fun _ => ?_⟩
  rcases hchange with hquiet | hadvance | hclear
  · apply oneBackfill_of_recorded ht
    · intro k hk
      rw [Uncleared, hquiet.loops] at hk
      rw [hquiet.pause]
      exact hs.recorded k hk
    · rw [hquiet.clears]
      exact hs.cleared
  · obtain ⟨k, old, new, hk, hold, -, hloops⟩ := hadvance.loops
    apply oneBackfill_of_recorded ht
    · intro j hj
      rw [hadvance.pause]
      rcases (uncleared_set hk hloops).mp hj with ⟨rfl, -⟩ | ⟨-, huncleared⟩
      · exact hs.recorded j ⟨old, hk, isCleared_of_isActive hold⟩
      · exact hs.recorded j huncleared
    · rw [hadvance.clears]
      exact hs.cleared
  · obtain ⟨k, outcome, hk, hloops, hclears⟩ := hclear.loops
    have hpause := hs.recorded k ⟨_, hk, rfl⟩
    apply oneBackfill_of_recorded ht
    · intro j hj
      rcases (uncleared_set hk hloops).mp hj with ⟨-, hcleared⟩ | ⟨hne, huncleared⟩
      · cases hcleared
      · have hrecorded := hs.recorded j huncleared
        rw [hpause] at hrecorded
        exact absurd (Option.some.inj hrecorded).symm hne
    · rw [hclears]
      intro entry hentry
      rcases List.mem_append.mp hentry with hold | hnew
      · exact hs.cleared entry hold
      · rw [List.mem_singleton.mp hnew]
        exact hpause

theorem inv_init (softMb : Nat) : Inv (Coordinator.init softMb) := ⟨nofun, nofun⟩

/-- One backfill at a time, in every state of a run, exactly if no `foldNow` call that goes on
after its `drain` finds a pause of another call. -/
theorem oneBackfill_iff (softMb : Nat) (events : List Event) :
    Machine.Always Coordinator.step OneBackfill (Coordinator.init softMb) events ↔
      Machine.Guarded Coordinator.step FoldGuard (Coordinator.init softMb) events := by
  apply Machine.always_iff_guarded (I := Inv)
  · intro s e t hinv _ h
    exact hinv.step h
  · intro s e t hinv hs h
    exact hinv.keeps_iff hs h
  · exact inv_init softMb
  · exact oneBackfill_of_recorded (inv_init softMb) (fun k ⟨_, hk, _⟩ => nomatch hk) nofun

/-- Two calls on an idle valve with something to fold. -/
def twoFolds : List Event :=
  [.foldNow, .foldNow, .resumeFold 0 1000, .resumeFold 1 1000]

/-- Both loops run, and the first to end clears the pause of the other. -/
theorem oneBackfill_fails_twoFolds :
    (Machine.run Coordinator.step (Coordinator.init 64) twoFolds).map
        (fun s => (s.pause, s.loops)) = some (some 1, [.passive 0, .passive 0]) ∧
      (Machine.run Coordinator.step (Coordinator.init 64)
          (twoFolds ++ [.passive 0 (some ⟨0, 9, 9⟩) 0 0, .truncate 0 0, .clearPause 0])).map
        (fun s => (s.pause, s.loops, s.clears)) =
          some (none, [.cleared .resolved, .passive 0], [(0, some 1)]) ∧
      ¬ Machine.Always Coordinator.step OneBackfill (Coordinator.init 64) twoFolds := by
  have hrun : (Machine.run Coordinator.step (Coordinator.init 64) twoFolds).map
      (fun s => (s.pause, s.loops)) = some (some 1, [.passive 0, .passive 0]) := by decide
  refine ⟨hrun, by decide, fun h => ?_⟩
  obtain ⟨s, hlast, hstate⟩ := Option.map_eq_some_iff.mp hrun
  simp only [Prod.mk.injEq] at hstate
  obtain ⟨-, hloops⟩ := hstate
  have hactive : ∀ k, k < 2 → s.Active k := by
    intro k hk
    refine ⟨.passive 0, ?_, rfl⟩
    rw [hloops]
    match k, hk with
    | 0, _ => rfl
    | 1, _ => rfl
  exact absurd ((h.last hlast).active 0 1 (hactive 0 (by decide)) (hactive 1 (by decide)))
    (by decide)

end AfyxGraph.Db.WalBackfill
