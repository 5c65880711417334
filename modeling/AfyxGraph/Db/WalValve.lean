import AfyxGraph.Core.Transition
import Mathlib.Data.List.Basic

/-! # The WAL valve

`WalPressure` holds the caps and the growth baseline; `WalCheckpointCoordinator` fires
passes from a timer and parks the writer past the caps. Every read of the WAL size and
every outcome of a checkpoint is an answer of the environment, given with the event that
asks for it. `reports` and `lastCheck` of a pause are observations: no branch reads them.
-/

namespace AfyxGraph.Db

open AfyxGraph.Core

/-! ## Pressure -/

def mib : Nat := 1024 * 1024

structure WalPressure where
  softBytes : Nat
  hardBytes : Nat
  fileCapBytes : Nat
  sizeAtLastFullBackfill : Nat
  deriving DecidableEq, Repr

def WalPressure.ofSoftMb (softMb : Nat) : WalPressure where
  softBytes := softMb * mib
  hardBytes := softMb * mib * 2
  fileCapBytes := softMb * mib * 4
  sizeAtLastFullBackfill := 0

namespace WalPressure

variable (p : WalPressure)

/-- `size` is what `getWalSizeBytes` answers to the read. -/
def growthBytes (size : Nat) : Int := (size : Int) - p.sizeAtLastFullBackfill

def exceedsSoft (size : Nat) : Bool := p.growthBytes size > p.softBytes

/-- Both gates, each with its own read. -/
def withinCaps (growthRead walRead : Nat) : Bool :=
  if p.growthBytes growthRead > p.hardBytes then false else walRead ≤ p.fileCapBytes

def noteFullBackfill (size : Nat) : WalPressure := { p with sizeAtLastFullBackfill := size }

end WalPressure

/-! ## The coordinator -/

structure CheckpointResult where
  busy : Int
  log : Int
  checkpointed : Int
  deriving DecidableEq, Repr

def isFullBackfill (result : CheckpointResult) : Bool :=
  result.busy = 0 && result.log = result.checkpointed

/-- `Math.round(n / 1024 / 1024)` with its unit. -/
def mb (n : Int) : String := toString ((n + 524288) / 1048576) ++ "MB"

structure WalValveAbortError where
  message : String
  walBytes : Nat
  fileCapBytes : Nat
  hardBytes : Nat
  deriving DecidableEq, Repr

inductive Outcome where
  | resolved
  | rejected (error : WalValveAbortError)
  deriving DecidableEq, Repr

/-- One look at the WAL against both caps. -/
structure SizeCheck where
  walBytes : Nat
  growth : Int
  deriving DecidableEq, Repr

def maxPausedBackfillPasses : Nat := 20

/-- What `backfillFully` awaits. -/
inductive Awaits where
  /-- The timer pass that was in flight. -/
  | inflight
  | passive
  | truncate
  deriving DecidableEq, Repr

/-- A writer pause: the locals of `backfillFully`, and what was seen of it. -/
structure Pause where
  awaits : Awaits
  pass : Nat
  reports : List (Option CheckpointResult)
  lastCheck : Option SizeCheck
  deriving DecidableEq, Repr

/-- The passes a pause has started. -/
def Pause.started (p : Pause) : Nat :=
  p.reports.length + if p.awaits = .passive then 1 else 0

/-- Answers the pause still takes at most. -/
def Pause.answersLeft (p : Pause) : Nat :=
  2 * (maxPausedBackfillPasses - p.pass) + if p.awaits = .truncate then 1 else 2

/-- A pause whose promise is settled. -/
structure Settled where
  outcome : Outcome
  reports : List (Option CheckpointResult)
  lastCheck : Option SizeCheck
  deriving DecidableEq, Repr

/-- Some pass of the pause backfilled the entire WAL. -/
def FullPass (reports : List (Option CheckpointResult)) : Prop :=
  ∃ report, some report ∈ reports ∧ isFullBackfill report = true

def SizeCheck.Within (softMb : Nat) (k : SizeCheck) : Prop :=
  k.growth ≤ (WalPressure.ofSoftMb softMb).hardBytes ∧
    k.walBytes ≤ (WalPressure.ofSoftMb softMb).fileCapBytes

structure WalCheckpointCoordinator where
  pressure : WalPressure
  inflight : Bool
  pause : Option Pause
  consecutiveGiveUps : Nat
  /-- The pauses there have been. -/
  settled : List Settled
  deriving DecidableEq, Repr

namespace WalCheckpointCoordinator

def init (softMb : Nat) : WalCheckpointCoordinator where
  pressure := .ofSoftMb softMb
  inflight := false
  pause := none
  consecutiveGiveUps := 0
  settled := []

inductive Event where
  /-- A timer tick; `size` answers the read of `exceedsSoft`. -/
  | check (size : Nat)
  /-- A timer pass ends; `none` also stands for a rejected one. -/
  | timerPass (result : Option CheckpointResult) (size : Nat)
  | backpressure (growthRead walRead : Nat)
  /-- `foldNow`, drained. -/
  | foldNow (size : Nat)
  /-- A pass of the pause ends; the reads answer a cap check. -/
  | passive (result : Option CheckpointResult) (walRead growthRead : Nat)
  /-- The truncating checkpoint of the pause ends; `size` answers `noteFullBackfill`. -/
  | truncate (result : Option CheckpointResult) (size : Nat)
  deriving DecidableEq, Repr

variable (c : WalCheckpointCoordinator)

def unavailableMessage (pressure : WalPressure) (walBytes : Nat) : String :=
  "WAL checkpoint machinery unavailable while over the documented cap " ++
    "(wal=" ++ mb walBytes ++ ", fileCap=" ++ mb pressure.fileCapBytes ++ "). " ++
    "Aborting to avoid unbounded disk growth."

def gaveUpMessage (pressure : WalPressure) (walBytes : Nat) (growth : Int) (giveUps : Nat) :
    String :=
  "WAL checkpoint cannot progress while a reader pins frames " ++
    "(wal=" ++ mb walBytes ++ ", growth=" ++ mb growth ++ ", " ++
    "fileCap=" ++ mb pressure.fileCapBytes ++ ", hard=" ++ mb pressure.hardBytes ++ ", " ++
    "give-ups=" ++ toString giveUps ++ "). Aborting to avoid unbounded disk growth. " ++
    "Close concurrent readers (for example the MCP query pool) and retry, " ++
    "or raise AFYX_GRAPH_WAL_VALVE_MB if the threshold is too tight for this project."

def pressureAbort (message : String) (walBytes : Nat) : WalValveAbortError where
  message
  walBytes
  fileCapBytes := c.pressure.fileCapBytes
  hardBytes := c.pressure.hardBytes

/-- The head of the loop in `backfillFully`. -/
def nextPass (p : Pause) : WalCheckpointCoordinator :=
  { c with pause := some { p with awaits := if c.inflight then .inflight else .passive } }

/-- The promise of the pause settles; `finally` clears the pause. -/
def settle (p : Pause) (outcome : Outcome) : WalCheckpointCoordinator :=
  { c with
    pause := none
    settled := c.settled ++ [⟨outcome, p.reports, p.lastCheck⟩] }

/-- Fail closed past a cap, otherwise release the writer. -/
def settleByCaps (p : Pause) (message : String) (walRead growthRead : Nat) :
    WalCheckpointCoordinator :=
  let growth := c.pressure.growthBytes growthRead
  let p := { p with lastCheck := some ⟨walRead, growth⟩ }
  if walRead > c.pressure.fileCapBytes || growth > c.pressure.hardBytes then
    c.settle p (.rejected (c.pressureAbort message walRead))
  else c.settle p .resolved

/-- A pass that did not backfill everything: the next one, or give up. -/
def afterPartialPass (p : Pause) (walRead growthRead : Nat) : WalCheckpointCoordinator :=
  if p.pass < maxPausedBackfillPasses then c.nextPass p
  else
    let c := { c with consecutiveGiveUps := c.consecutiveGiveUps + 1 }
    c.settleByCaps p
      (gaveUpMessage c.pressure walRead (c.pressure.growthBytes growthRead) c.consecutiveGiveUps)
      walRead growthRead

def startPause (lastCheck : Option SizeCheck) : WalCheckpointCoordinator :=
  c.nextPass ⟨.passive, 0, [], lastCheck⟩

def step : Machine WalCheckpointCoordinator Event := fun c event =>
  match event with
  | .check size =>
      some (if c.pause.isNone && !c.inflight && c.pressure.exceedsSoft size then
        { c with inflight := true } else c)
  | .timerPass result size =>
      if c.inflight then
        let pressure :=
          if result.any isFullBackfill then c.pressure.noteFullBackfill size else c.pressure
        let c := { c with pressure, inflight := false }
        match c.pause with
        | none => some c
        | some p => some (if p.awaits = .inflight then c.nextPass p else c)
      else none
  | .backpressure growthRead walRead =>
      match c.pause with
      | some _ => some c
      | none =>
          if c.pressure.withinCaps growthRead walRead then some c
          else
            let growth := c.pressure.growthBytes growthRead
            let read := if growth > c.pressure.hardBytes then growthRead else walRead
            some (c.startPause (some ⟨read, growth⟩))
  | .foldNow size =>
      if c.pause.isSome || c.inflight then none
      else if c.pressure.growthBytes size ≤ 0 then some c
      else some (c.startPause none)
  | .passive result walRead growthRead =>
      match c.pause with
      | none => none
      | some p =>
          if p.awaits = .passive then
            let seen := { p with reports := p.reports ++ [result] }
            match result with
            | none => some (c.settleByCaps seen (unavailableMessage c.pressure walRead) walRead
                growthRead)
            | some report =>
                let seen := { seen with pass := p.pass + 1 }
                if isFullBackfill report then
                  some { c with pause := some { seen with awaits := .truncate } }
                else some (c.afterPartialPass seen walRead growthRead)
          else none
  | .truncate _ size =>
      match c.pause with
      | none => none
      | some p =>
          if p.awaits = .truncate then
            let c :=
              { c with
                pressure := c.pressure.noteFullBackfill size
                consecutiveGiveUps := 0 }
            some (c.settle p .resolved)
          else none

/-! ## Failing closed -/

/-- The writer is released after a full pass or within both caps, and in no other case. -/
structure FailsClosed (softMb : Nat) (s : Settled) : Prop where
  resolves : s.outcome = .resolved ↔
    FullPass s.reports ∨ ∃ k, s.lastCheck = some k ∧ SizeCheck.Within softMb k
  rejects : s.outcome ≠ .resolved → ∃ error, s.outcome = .rejected error
  passes : s.reports.length ≤ maxPausedBackfillPasses

/-- The events that answer what the coordinator awaits. -/
def isAnswer : WalCheckpointCoordinator → Event → Bool
  | _, .timerPass _ _ | _, .passive _ _ _ | _, .truncate _ _ => true
  | _, _ => false

/-- What the claim of failing closed says of one state: of the pauses that are over, of
the one that is not, and that answers alone bring it to an end. -/
structure Closed (softMb : Nat) (c : WalCheckpointCoordinator) : Prop where
  settled : ∀ s ∈ c.settled, FailsClosed softMb s
  passes : ∀ p, c.pause = some p → p.started ≤ maxPausedBackfillPasses
  halts : (step.restrict isAnswer).Halts c
  ends : ∀ t, (step.restrict isAnswer).Reaches c t → (step.restrict isAnswer).Stuck t →
    t.pause = none

/-! ## The invariant -/

/-- No report of a pause that goes on is full; the last one of a pause that truncates is. -/
structure PauseInv (inflight : Bool) (p : Pause) : Prop where
  counted : p.reports.length = p.pass
  awaited : p.awaits = .inflight → inflight = true
  partial_ : p.awaits ≠ .truncate → ¬ FullPass p.reports ∧ p.pass < maxPausedBackfillPasses
  full : p.awaits = .truncate → FullPass p.reports ∧ p.pass ≤ maxPausedBackfillPasses

/-- The part of the invariant that does not look at the pause. -/
structure Sound (softMb : Nat) (c : WalCheckpointCoordinator) : Prop where
  hard : c.pressure.hardBytes = (WalPressure.ofSoftMb softMb).hardBytes
  fileCap : c.pressure.fileCapBytes = (WalPressure.ofSoftMb softMb).fileCapBytes
  settled : ∀ s ∈ c.settled, FailsClosed softMb s

structure Inv (softMb : Nat) (c : WalCheckpointCoordinator) : Prop extends Sound softMb c where
  pause : ∀ p, c.pause = some p → PauseInv c.inflight p

variable {softMb : Nat} {c : WalCheckpointCoordinator} {p : Pause}

theorem inv_init (softMb : Nat) : Inv softMb (init softMb) where
  hard := rfl
  fileCap := rfl
  settled := by simp [init]
  pause := by simp [init]

theorem nextPass_inv (h : Sound softMb c) (hcounted : p.reports.length = p.pass)
    (hpart : ¬ FullPass p.reports) (hroom : p.pass < maxPausedBackfillPasses) :
    Inv softMb (c.nextPass p) where
  toSound := ⟨h.hard, h.fileCap, h.settled⟩
  pause q hq := by
    obtain rfl := Option.some.inj hq
    refine ⟨hcounted, ?_, fun _ => ⟨hpart, hroom⟩, ?_⟩
    · dsimp only [nextPass]
      split
      · exact fun _ => ‹_›
      · simp
    · dsimp only
      split <;> simp

theorem settle_inv (h : Sound softMb c) {outcome : Outcome}
    (hclosed : FailsClosed softMb ⟨outcome, p.reports, p.lastCheck⟩) :
    Inv softMb (c.settle p outcome) where
  hard := h.hard
  fileCap := h.fileCap
  pause := by simp [settle]
  settled s hs := by
    rcases List.mem_append.mp hs with hs | hs
    · exact h.settled s hs
    · obtain rfl := List.mem_singleton.mp hs
      exact hclosed

/-- Without a full pass the caps decide. -/
theorem settleByCaps_inv (h : Sound softMb c) (hpart : ¬ FullPass p.reports)
    (hpasses : p.reports.length ≤ maxPausedBackfillPasses) (message : String)
    (walRead growthRead : Nat) : Inv softMb (c.settleByCaps p message walRead growthRead) := by
  unfold settleByCaps
  dsimp only
  split
  · rename_i hover
    apply settle_inv h
    refine ⟨?_, fun _ => ⟨_, rfl⟩, hpasses⟩
    simp only [reduceCtorEq, false_iff, not_or, not_exists, Option.some.injEq]
    refine ⟨hpart, ?_⟩
    rintro k ⟨rfl, hgrowth, hwal⟩
    rw [← h.hard] at hgrowth
    rw [← h.fileCap] at hwal
    simp only [gt_iff_lt, Bool.or_eq_true, decide_eq_true_eq] at hover
    dsimp only at hgrowth hwal
    omega
  · rename_i hwithin
    apply settle_inv h
    refine ⟨?_, fun hne => (hne rfl).elim, hpasses⟩
    simp only [gt_iff_lt, Bool.or_eq_true, decide_eq_true_eq, not_or, not_lt] at hwithin
    refine ⟨fun _ => Or.inr ⟨_, rfl, ?_, ?_⟩, fun _ => rfl⟩
    · rw [← h.hard]
      exact hwithin.2
    · rw [← h.fileCap]
      exact hwithin.1

theorem afterPartialPass_inv (h : Sound softMb c) (hcounted : p.reports.length = p.pass)
    (hpart : ¬ FullPass p.reports) (hpasses : p.pass ≤ maxPausedBackfillPasses)
    (walRead growthRead : Nat) : Inv softMb (c.afterPartialPass p walRead growthRead) := by
  unfold afterPartialPass
  split
  · exact nextPass_inv h hcounted hpart ‹_›
  · have hgaveUp : Sound softMb { c with consecutiveGiveUps := c.consecutiveGiveUps + 1 } :=
      ⟨h.hard, h.fileCap, h.settled⟩
    exact settleByCaps_inv hgaveUp hpart (by omega) _ _ _

theorem not_fullPass_nil : ¬ FullPass [] := by simp [FullPass]

theorem startPause_inv (h : Sound softMb c) (lastCheck : Option SizeCheck) :
    Inv softMb (c.startPause lastCheck) :=
  nextPass_inv h rfl not_fullPass_nil (show 0 < 20 by decide)

theorem fullPass_concat {reports : List (Option CheckpointResult)}
    {result : Option CheckpointResult} :
    FullPass (reports ++ [result]) ↔ FullPass reports ∨ result.any isFullBackfill = true := by
  unfold FullPass
  cases result with
  | none => simp
  | some report =>
      simp only [List.mem_append, List.mem_singleton, Option.some.injEq, or_and_right, exists_or,
        exists_eq_left, Option.any_some]

theorem passive_inv {result : Option CheckpointResult} {walRead growthRead : Nat}
    {t : WalCheckpointCoordinator} (h : Inv softMb c)
    (hs : step c (.passive result walRead growthRead) = some t) : Inv softMb t := by
  simp only [step] at hs
  cases hp : c.pause with
  | none => simp [hp] at hs
  | some p =>
      rw [hp] at hs
      dsimp only at hs
      split at hs
      · rename_i hawaits
        obtain ⟨hpart, hroom⟩ := (h.pause p hp).partial_ (by simp [hawaits])
        have hcounted := (h.pause p hp).counted
        have hlength : (p.reports ++ [result]).length ≤ maxPausedBackfillPasses := by
          rw [List.length_append, List.length_singleton]
          omega
        cases result with
        | none =>
            obtain rfl := Option.some.inj hs
            apply settleByCaps_inv h.toSound _ hlength
            simpa [fullPass_concat] using hpart
        | some report =>
            dsimp only at hs
            split at hs
            · rename_i hfull
              obtain rfl := Option.some.inj hs
              refine ⟨⟨h.hard, h.fileCap, h.settled⟩, fun q hq => ?_⟩
              obtain rfl := Option.some.inj hq
              refine ⟨by simp [hcounted], by simp, by simp, fun _ => ⟨?_, hroom⟩⟩
              exact fullPass_concat.mpr (Or.inr hfull)
            · rename_i hnot
              obtain rfl := Option.some.inj hs
              apply afterPartialPass_inv h.toSound
              · simp [hcounted]
              · simp [fullPass_concat, hpart, hnot]
              · exact hroom
      · simp at hs

theorem timerPass_inv {result : Option CheckpointResult} {size : Nat}
    {t : WalCheckpointCoordinator} (h : Inv softMb c)
    (hs : step c (.timerPass result size) = some t) : Inv softMb t := by
  simp only [step] at hs
  split at hs
  · generalize hpressure : (if result.any isFullBackfill then c.pressure.noteFullBackfill size
      else c.pressure) = pressure at hs
    have hsound : ∀ pause, Sound softMb { c with pressure, inflight := false, pause } := by
      intro pause
      rw [← hpressure]
      refine ⟨?_, ?_, h.settled⟩
      · split <;> exact h.hard
      · split <;> exact h.fileCap
    cases hp : c.pause with
    | none =>
        rw [hp] at hs
        obtain rfl := Option.some.inj hs
        exact ⟨hsound none, by simp⟩
    | some p =>
        rw [hp] at hs
        dsimp only at hs
        have hpause := h.pause p hp
        split at hs
        · rename_i hawaits
          obtain rfl := Option.some.inj hs
          obtain ⟨hpart, hroom⟩ := hpause.partial_ (by simp [hawaits])
          exact nextPass_inv (hsound _) hpause.counted hpart hroom
        · rename_i hawaits
          obtain rfl := Option.some.inj hs
          refine ⟨hsound _, fun q hq => ?_⟩
          obtain rfl := Option.some.inj hq
          exact ⟨hpause.counted, fun hin => (hawaits hin).elim, hpause.partial_, hpause.full⟩
  · simp at hs

theorem truncate_inv {result : Option CheckpointResult} {size : Nat}
    {t : WalCheckpointCoordinator} (h : Inv softMb c)
    (hs : step c (.truncate result size) = some t) : Inv softMb t := by
  simp only [step] at hs
  cases hp : c.pause with
  | none => simp [hp] at hs
  | some p =>
      rw [hp] at hs
      dsimp only at hs
      split at hs
      · rename_i hawaits
        obtain rfl := Option.some.inj hs
        obtain ⟨hfull, hpasses⟩ := (h.pause p hp).full hawaits
        have hsound : Sound softMb
            { c with pressure := c.pressure.noteFullBackfill size, consecutiveGiveUps := 0 } :=
          ⟨h.hard, h.fileCap, h.settled⟩
        apply settle_inv hsound
        refine ⟨⟨fun _ => Or.inl hfull, fun _ => rfl⟩, fun hne => (hne rfl).elim, ?_⟩
        rw [(h.pause p hp).counted]
        exact hpasses
      · simp at hs

theorem step_inv {event : Event} {t : WalCheckpointCoordinator} (h : Inv softMb c)
    (hs : step c event = some t) : Inv softMb t := by
  cases event with
  | check size =>
      obtain rfl := Option.some.inj hs
      split
      · rename_i hfire
        have hnone : c.pause = none := by
          simp only [Bool.and_eq_true, Option.isNone_iff_eq_none] at hfire
          exact hfire.1.1
        exact ⟨⟨h.hard, h.fileCap, h.settled⟩, by simp [hnone]⟩
      · exact h
  | timerPass result size => exact timerPass_inv h hs
  | backpressure growthRead walRead =>
      simp only [step] at hs
      cases hp : c.pause with
      | some p =>
          rw [hp] at hs
          obtain rfl := Option.some.inj hs
          exact h
      | none =>
          rw [hp] at hs
          dsimp only at hs
          split at hs
          · obtain rfl := Option.some.inj hs
            exact h
          · obtain rfl := Option.some.inj hs
            exact startPause_inv h.toSound _
  | foldNow size =>
      simp only [step] at hs
      split at hs
      · simp at hs
      · split at hs
        · obtain rfl := Option.some.inj hs
          exact h
        · obtain rfl := Option.some.inj hs
          exact startPause_inv h.toSound none
  | passive result walRead growthRead => exact passive_inv h hs
  | truncate result size => exact truncate_inv h hs

/-! ## A pause ends -/

def answersLeft (c : WalCheckpointCoordinator) : Nat :=
  (c.pause.map Pause.answersLeft).getD 0 + if c.inflight then 1 else 0

theorem answersLeft_settle (c : WalCheckpointCoordinator) (p : Pause) (outcome : Outcome) :
    answersLeft (c.settle p outcome) = if c.inflight then 1 else 0 := Nat.zero_add _

theorem answersLeft_settleByCaps (c : WalCheckpointCoordinator) (p : Pause) (message : String)
    (walRead growthRead : Nat) :
    answersLeft (c.settleByCaps p message walRead growthRead) = if c.inflight then 1 else 0 := by
  unfold settleByCaps
  dsimp only
  split <;> exact answersLeft_settle _ _ _

theorem answersLeft_nextPass (c : WalCheckpointCoordinator) (p : Pause) :
    answersLeft (c.nextPass p) =
      2 * (maxPausedBackfillPasses - p.pass) + 2 + if c.inflight then 1 else 0 := by
  unfold nextPass answersLeft Pause.answersLeft
  cases c.inflight <;> simp

theorem answersLeft_afterPartialPass (c : WalCheckpointCoordinator) (p : Pause)
    (walRead growthRead : Nat) :
    answersLeft (c.afterPartialPass p walRead growthRead) ≤
      2 * (maxPausedBackfillPasses - p.pass) + 2 + if c.inflight then 1 else 0 := by
  unfold afterPartialPass
  split
  · exact le_of_eq (answersLeft_nextPass c p)
  · dsimp only
    rw [answersLeft_settleByCaps]
    dsimp only
    omega

theorem answer_decreases {event : Event} {t : WalCheckpointCoordinator} (h : Inv softMb c)
    (hs : step.restrict isAnswer c event = some t) : answersLeft t < answersLeft c := by
  obtain ⟨hanswer, hs⟩ := Machine.restrict_eq_some.mp hs
  cases event with
  | check size => simp [isAnswer] at hanswer
  | backpressure growthRead walRead => simp [isAnswer] at hanswer
  | foldNow size => simp [isAnswer] at hanswer
  | timerPass result size =>
      simp only [step] at hs
      split at hs
      · rename_i hin
        cases hp : c.pause with
        | none =>
            rw [hp] at hs
            obtain rfl := Option.some.inj hs
            simp [answersLeft, hp, hin]
        | some p =>
            rw [hp] at hs
            dsimp only at hs
            have hleft : answersLeft c = p.answersLeft + 1 := by
              simp [answersLeft, hp, hin]
            split at hs
            · rename_i hawaits
              obtain rfl := Option.some.inj hs
              rw [answersLeft_nextPass, hleft, Pause.answersLeft]
              simp [hawaits]
            · obtain rfl := Option.some.inj hs
              rw [hleft]
              simp [answersLeft]
      · simp at hs
  | passive result walRead growthRead =>
      simp only [step] at hs
      cases hp : c.pause with
      | none => simp [hp] at hs
      | some p =>
          rw [hp] at hs
          dsimp only at hs
          split at hs
          · rename_i hawaits
            have hroom := ((h.pause p hp).partial_ (by simp [hawaits])).2
            have hleft : answersLeft c = 2 * (maxPausedBackfillPasses - p.pass) + 2 +
                if c.inflight then 1 else 0 := by
              simp [answersLeft, hp, Pause.answersLeft, hawaits]
            rw [hleft]
            cases result with
            | none =>
                obtain rfl := Option.some.inj hs
                rw [answersLeft_settleByCaps]
                omega
            | some report =>
                dsimp only at hs
                split at hs
                · obtain rfl := Option.some.inj hs
                  simp only [answersLeft, Option.map_some, Option.getD_some, Pause.answersLeft,
                    if_true]
                  omega
                · obtain rfl := Option.some.inj hs
                  have hle := answersLeft_afterPartialPass c
                    { p with reports := p.reports ++ [some report], pass := p.pass + 1 } walRead
                    growthRead
                  dsimp only at hle
                  omega
          · simp at hs
  | truncate result size =>
      simp only [step] at hs
      cases hp : c.pause with
      | none => simp [hp] at hs
      | some p =>
          rw [hp] at hs
          dsimp only at hs
          split at hs
          · rename_i hawaits
            obtain rfl := Option.some.inj hs
            rw [answersLeft_settle]
            simp [answersLeft, hp, Pause.answersLeft, hawaits]
          · simp at hs

/-- A pause takes one of the answers. -/
theorem pause_takes (h : Inv softMb c) (hp : c.pause = some p) :
    ∃ event, isAnswer c event = true ∧ step c event ≠ none := by
  cases hawaits : p.awaits with
  | inflight =>
      have hin := (h.pause p hp).awaited hawaits
      exact ⟨.timerPass none 0, rfl, by simp [step, hin, hp, hawaits]⟩
  | passive => exact ⟨.passive none 0 0, rfl, by simp [step, hp, hawaits]⟩
  | truncate => exact ⟨.truncate none 0, rfl, by simp [step, hp, hawaits]⟩

theorem Inv.closed (h : Inv softMb c) : Closed softMb c where
  settled := h.settled
  passes p hp := by
    have hpause := h.pause p hp
    rw [Pause.started, hpause.counted]
    split
    · rename_i hawaits
      have hroom := (hpause.partial_ (by simp [hawaits])).2
      omega
    · by_cases hawaits : p.awaits = .truncate
      · exact (hpause.full hawaits).2
      · exact le_of_lt (hpause.partial_ hawaits).2
  halts := Machine.halts_of_measure (measure answersLeft).wf
    (fun _ _ _ hi hs => step_inv hi (Machine.restrict_eq_some.mp hs).2)
    (fun _ _ _ hi hs => answer_decreases hi hs) h
  ends t ht hstuck := by
    have hi : Inv softMb t := ht.of_restrict.invariant (fun _ _ _ hi hs => step_inv hi hs) h
    cases hp : t.pause with
    | none => rfl
    | some p =>
        obtain ⟨event, hanswer, hne⟩ := pause_takes hi hp
        have hrefused := hstuck event
        rw [Machine.restrict, if_pos hanswer] at hrefused
        exact (hne hrefused).elim

/-- The valve fails closed in every state of every run. -/
theorem always_closed (softMb : Nat) (events : List Event) :
    step.Always (Closed softMb) (init softMb) events :=
  Machine.always_of_invariant (fun _ _ _ h hs => step_inv h hs) (fun _ h => h.closed)
    (inv_init softMb) events

end WalCheckpointCoordinator

end AfyxGraph.Db
