import AfyxGraph.Bulk.Tally
import AfyxGraph.Core.Transition

/-! # The dispatch loop of a bulk index

The parse phase of `indexAll` as a machine. Its coroutines are the dispatch loop
(`Pc`), one task for each parse, and the chain of commit jobs; a label names the
one that takes its next step, so every interleaving is a run. What the
environment does with a file, whether it can be read, what its parse gives and
whether its store throws, is part of the file.

`window` holds the dispatched files the commit cursor has not passed: the ones
still parsing and the entries of the `completed` map.
-/

namespace AfyxGraph.Bulk

open AfyxGraph.Core Extraction

/-- The size `stat` reports, or why the file could not be read. -/
inductive FileRead where
  | failed (message : String)
  | content (size : Nat)
  deriving DecidableEq, Repr

structure SourceFile where
  path : String
  read : FileRead
  language : Language
  parse : Except String ExtractionResult
  storeError : Option String
  deriving DecidableEq

namespace SourceFile

def unreadable (f : SourceFile) : Bool :=
  match f.read with
  | .failed _ => true
  | .content _ => false

/-- Over the size limit: committed by the dispatch loop itself. -/
def oversize (f : SourceFile) : Bool :=
  match f.read with
  | .failed _ => false
  | .content size => decide (MAX_FILE_SIZE < size)

/-- Handed to `feed`. -/
def fed (f : SourceFile) : Bool := !f.unreadable && !f.oversize

/-- The result `storeResult` is called with for a parsed file: a failed parse is
committed as a result with its error. -/
def parseResult (f : SourceFile) : ExtractionResult :=
  match f.parse with
  | .ok result => result
  | .error message => .ofError ⟨message, some f.path, .error, some "parse_error"⟩

def sizeResult (f : SourceFile) (size : Nat) : ExtractionResult :=
  .ofError ⟨"File exceeds max size (" ++ toString size ++ " > " ++ toString MAX_FILE_SIZE ++ ")",
    some f.path, .warning, some "size_exceeded"⟩

end SourceFile

/-- How `indexAll` ended. -/
inductive Outcome where
  | returned
  | rejected (error : String)
  deriving DecidableEq, Repr

/-- Where the dispatch loop is suspended. -/
inductive Pc where
  /-- about to look at the next file -/
  | dispatch
  /-- in `feed`, at `Promise.race` of these parses -/
  | racing (parses : List Nat)
  /-- in `feed`, waiting for a commit job -/
  | awaiting (job : Nat)
  /-- in `storeResult` of an oversize file -/
  | storing (position : Nat) (file : SourceFile) (result : ExtractionResult)
  /-- at `Promise.all` of these parses -/
  | settling (parses : List Nat)
  /-- waiting for the last commit job -/
  | flushing (job : Nat)
  | done (outcome : Outcome)
  deriving DecidableEq

/-- A dispatched file that is not committed yet. -/
structure Slot where
  seq : Nat
  position : Nat
  file : SourceFile
  parsed : Bool := false
  deriving DecidableEq

namespace Slot

/-- `completed.set(seq, ..)` on the slot it belongs to. -/
def complete (seq : Nat) (slot : Slot) : Slot :=
  if slot.seq = seq then { slot with parsed := true } else slot

@[simp] theorem complete_seq (seq : Nat) (slot : Slot) : (slot.complete seq).seq = slot.seq := by
  unfold complete
  split <;> rfl

@[simp] theorem complete_file (seq : Nat) (slot : Slot) :
    (slot.complete seq).file = slot.file := by
  unfold complete
  split <;> rfl

@[simp] theorem complete_position (seq : Nat) (slot : Slot) :
    (slot.complete seq).position = slot.position := by
  unfold complete
  split <;> rfl

theorem complete_parsed_eq_false {seq : Nat} {slot : Slot}
    (h : (slot.complete seq).parsed = false) : slot.parsed = false := by
  unfold complete at h
  split at h
  · cases h
  · exact h

end Slot

/-- A call of `storeResult`, by the position of its file in the list. -/
inductive StoreEvent where
  | begins (position : Nat)
  | settles (position : Nat)
  deriving DecidableEq, Repr

structure Input where
  files : List SourceFile
  windowSize : Nat
  windowSize_pos : 0 < windowSize
  /-- how the store writer's final `drain` fails, if it does -/
  drainError : Option String := none

/-- `log` and `firstFailure` only observe: the calls of `storeResult` and the
first store that threw. -/
structure Dispatch where
  rest : List SourceFile
  position : Nat := 0
  pc : Pc := .dispatch
  nextSeq : Nat := 0
  nextToStore : Nat := 0
  inFlight : List Nat := []
  window : List Slot := []
  jobs : Nat := 0
  jobsDone : Nat := 0
  storing : Option Slot := none
  flushError : Option String := none
  tally : Tally := {}
  log : List StoreEvent := []
  firstFailure : Option String := none
  deriving DecidableEq

/-- `main` and `chain` resume the dispatch loop and the commit chain; the rest
is the environment. -/
inductive Label where
  | main
  | directSettles
  | parseSettles (seq : Nat)
  | untracks (seq : Nat)
  | chain
  | storeSettles
  deriving DecidableEq, Repr

/-- The window size `indexAll` uses, from the size of its parse pool. -/
def windowSize : Option Nat → Nat
  | none => 1
  | some poolSize => max 4 (poolSize * 2)

theorem windowSize_pos (pool : Option Nat) : 0 < windowSize pool := by
  cases pool with
  | none => exact Nat.one_pos
  | some poolSize =>
      have : 4 ≤ max 4 (poolSize * 2) := le_max_left _ _
      simp only [windowSize]
      omega

namespace Dispatch

def init (files : List SourceFile) : Dispatch := { rest := files }

/-- `flushOrdered()`: append a commit job to the chain. -/
def flushOrdered (s : Dispatch) : Dispatch := { s with jobs := s.jobs + 1 }

/-- `completed.get(seq)`. -/
def completedAt (s : Dispatch) (seq : Nat) : Option Slot :=
  s.window.find? fun slot => slot.seq == seq && slot.parsed

/-- The parse of `seq` has not settled. -/
def isParsing (s : Dispatch) (seq : Nat) : Bool :=
  s.window.any fun slot => slot.seq == seq && !slot.parsed

/-- The `while` loop of `feed`, up to its next `await` or its end. -/
def waitForRoom (windowSize : Nat) (s : Dispatch) : Dispatch :=
  if windowSize ≤ s.nextSeq - s.nextToStore then
    if s.inFlight = [] then { s.flushOrdered with pc := .awaiting (s.jobs + 1) }
    else { s with pc := .racing s.inFlight }
  else { s with pc := .dispatch }

/-- `feed`, up to the backpressure loop. -/
def feed (s : Dispatch) (position : Nat) (file : SourceFile) : Dispatch :=
  { s with
    nextSeq := s.nextSeq + 1
    inFlight := s.inFlight ++ [s.nextSeq]
    window := s.window ++ [{ seq := s.nextSeq, position, file }] }

/-- `storeResult`, up to its first `await`. -/
def beginStore (s : Dispatch) (position : Nat) : Dispatch :=
  { s with
    tally := { s.tally with processed := s.tally.processed + 1 }
    log := s.log ++ [.begins position] }

/-- The promise of `storeResult` settles. -/
def endStore (s : Dispatch) (position : Nat) : Dispatch :=
  { s with log := s.log ++ [.settles position] }

/-- A store threw. -/
def noteFailure (s : Dispatch) (error : String) : Dispatch :=
  { s with firstFailure := s.firstFailure.or (some error) }

/-- One round of the dispatch loop. -/
def dispatchNext (windowSize : Nat) (s : Dispatch) (f : SourceFile) (rest : List SourceFile) :
    Dispatch :=
  let s' := { s with rest, position := s.position + 1 }
  match f.read with
  | .failed message => { s' with tally := s'.tally.readFailed f.path message }
  | .content size =>
      if MAX_FILE_SIZE < size then
        { s'.beginStore s.position with pc := .storing s.position f (f.sizeResult size) }
      else (s'.feed s.position f).waitForRoom windowSize

/-- After the last commit job: rethrow its error, else drain the writer. -/
def finish (drainError : Option String) (s : Dispatch) : Dispatch :=
  match s.flushError with
  | some error => { s with pc := .done (.rejected error) }
  | none =>
      match drainError with
      | some error => { s.noteFailure error with pc := .done (.rejected error) }
      | none => { s with pc := .done .returned }

def mainStep (input : Input) (s : Dispatch) : Option Dispatch :=
  match s.pc with
  | .dispatch =>
      match s.rest with
      | [] => some { s with pc := .settling s.inFlight }
      | f :: rest => some (s.dispatchNext input.windowSize f rest)
  | .racing parses =>
      if ∃ seq ∈ parses, seq ∉ s.inFlight then some (s.waitForRoom input.windowSize) else none
  | .awaiting job => if job ≤ s.jobsDone then some (s.waitForRoom input.windowSize) else none
  | .settling parses =>
      if ∀ seq ∈ parses, seq ∉ s.inFlight then
        some { s.flushOrdered with pc := .flushing (s.jobs + 1) }
      else none
  | .flushing job => if job ≤ s.jobsDone then some (s.finish input.drainError) else none
  | .storing _ _ _ => none
  | .done _ => none

/-- The direct `storeResult` of an oversize file settles; a throw leaves `indexAll`. -/
def directStep (s : Dispatch) : Option Dispatch :=
  match s.pc with
  | .storing position f result =>
      let s := s.endStore position
      match f.storeError with
      | some error => some { s.noteFailure error with pc := .done (.rejected error) }
      | none => some { s with pc := .dispatch, tally := s.tally.stored f.path f.language result }
  | _ => none

/-- A parse settles: its result is put into `completed` and a commit job appended. -/
def parseStep (seq : Nat) (s : Dispatch) : Option Dispatch :=
  if s.isParsing seq then
    some { s.flushOrdered with window := s.window.map (Slot.complete seq) }
  else none

/-- The `finally` of a settled parse removes it from `inFlight`. -/
def untrackStep (seq : Nat) (s : Dispatch) : Option Dispatch :=
  if seq ∈ s.inFlight ∧ s.isParsing seq = false then
    some { s with inFlight := s.inFlight.erase seq }
  else none

/-- The commit job at the head of the chain goes on: it takes the result at the
cursor, or ends when there is none or a commit has failed. -/
def chainStep (s : Dispatch) : Option Dispatch :=
  if s.jobsDone < s.jobs ∧ s.storing = none then
    if s.flushError.isSome then some { s with jobsDone := s.jobsDone + 1 }
    else
      match s.completedAt s.nextToStore with
      | none => some { s with jobsDone := s.jobsDone + 1 }
      | some slot =>
          some { s.beginStore slot.position with
            window := s.window.erase slot
            nextToStore := s.nextToStore + 1
            storing := some slot }
  else none

/-- The `storeResult` of the commit chain settles; a throw ends its job. -/
def storeStep (s : Dispatch) : Option Dispatch :=
  match s.storing with
  | none => none
  | some slot =>
      let s := { s.endStore slot.position with storing := none }
      match slot.file.storeError with
      | some error =>
          some { s.noteFailure error with flushError := some error, jobsDone := s.jobsDone + 1 }
      | none =>
          some { s with
            tally := s.tally.stored slot.file.path slot.file.language slot.file.parseResult }

def step (input : Input) : Machine Dispatch Label := fun s label =>
  match label with
  | .main => s.mainStep input
  | .directSettles => s.directStep
  | .parseSettles seq => s.parseStep seq
  | .untracks seq => s.untrackStep seq
  | .chain => s.chainStep
  | .storeSettles => s.storeStep

end Dispatch

end AfyxGraph.Bulk
