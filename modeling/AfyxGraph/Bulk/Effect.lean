import AfyxGraph.Bulk.Dispatch

/-! # What one step of the dispatch loop does

Every accepted step has one of the effects below; the invariants of the bulk
index are case analyses over them and never look into the step functions.
-/

namespace AfyxGraph.Bulk

open AfyxGraph.Core Extraction

namespace Dispatch

/-- `Effect input s t`: one step leads from `s` to `t`. -/
inductive Effect (input : Input) (s : Dispatch) : Dispatch → Prop where
  | unreadable (f : SourceFile) (rest : List SourceFile) (message : String)
      (pc : s.pc = .dispatch) (next : s.rest = f :: rest) (read : f.read = .failed message) :
      Effect input s
        { s with rest, position := s.position + 1, tally := s.tally.readFailed f.path message }
  | oversize (f : SourceFile) (rest : List SourceFile) (size : Nat)
      (pc : s.pc = .dispatch) (next : s.rest = f :: rest) (read : f.read = .content size)
      (large : MAX_FILE_SIZE < size) :
      Effect input s
        { { s with rest, position := s.position + 1 }.beginStore s.position with
          pc := .storing s.position f (f.sizeResult size) }
  | feed (f : SourceFile) (rest : List SourceFile)
      (pc : s.pc = .dispatch) (next : s.rest = f :: rest) (fed : f.fed = true) :
      Effect input s
        (({ s with rest, position := s.position + 1 }.feed s.position f).waitForRoom
          input.windowSize)
  | allFed (pc : s.pc = .dispatch) (next : s.rest = []) :
      Effect input s { s with pc := .settling s.inFlight }
  | raced (parses : List Nat) (pc : s.pc = .racing parses)
      (settled : ∃ seq ∈ parses, seq ∉ s.inFlight) :
      Effect input s (s.waitForRoom input.windowSize)
  | awaited (job : Nat) (pc : s.pc = .awaiting job) (ended : job ≤ s.jobsDone) :
      Effect input s (s.waitForRoom input.windowSize)
  | allParsed (parses : List Nat) (pc : s.pc = .settling parses)
      (settled : ∀ seq ∈ parses, seq ∉ s.inFlight) :
      Effect input s { s.flushOrdered with pc := .flushing (s.jobs + 1) }
  | finish (job : Nat) (pc : s.pc = .flushing job) (ended : job ≤ s.jobsDone) :
      Effect input s (s.finish input.drainError)
  | directFailed (position : Nat) (f : SourceFile) (result : ExtractionResult) (error : String)
      (pc : s.pc = .storing position f result) (throws : f.storeError = some error) :
      Effect input s
        { (s.endStore position).noteFailure error with
          pc := .done (.rejected error) }
  | directStored (position : Nat) (f : SourceFile) (result : ExtractionResult)
      (pc : s.pc = .storing position f result) (ok : f.storeError = none) :
      Effect input s
        { s.endStore position with
          pc := .dispatch, tally := s.tally.stored f.path f.language result }
  | parsed (seq : Nat) (parsing : s.isParsing seq = true) :
      Effect input s
        { s.flushOrdered with window := s.window.map (Slot.complete seq) }
  | untracked (seq : Nat) (tracked : seq ∈ s.inFlight) (settled : s.isParsing seq = false) :
      Effect input s { s with inFlight := s.inFlight.erase seq }
  | jobEnded (pending : s.jobsDone < s.jobs) (idle : s.storing = none)
      (blocked : s.flushError.isSome = true ∨ s.completedAt s.nextToStore = none) :
      Effect input s { s with jobsDone := s.jobsDone + 1 }
  | committing (slot : Slot) (pending : s.jobsDone < s.jobs) (idle : s.storing = none)
      (clean : s.flushError = none) (found : s.completedAt s.nextToStore = some slot) :
      Effect input s
        { s.beginStore slot.position with
          window := s.window.erase slot
          nextToStore := s.nextToStore + 1
          storing := some slot }
  | commitFailed (slot : Slot) (error : String) (storing : s.storing = some slot)
      (throws : slot.file.storeError = some error) :
      Effect input s
        { { s.endStore slot.position with storing := none }.noteFailure error with
          flushError := some error, jobsDone := s.jobsDone + 1 }
  | committed (slot : Slot) (storing : s.storing = some slot)
      (ok : slot.file.storeError = none) :
      Effect input s
        { s.endStore slot.position with
          storing := none
          tally := s.tally.stored slot.file.path slot.file.language slot.file.parseResult }

theorem dispatchNext_effect (input : Input) {s : Dispatch} (pc : s.pc = .dispatch) {f : SourceFile}
    {rest : List SourceFile} (next : s.rest = f :: rest) :
    Effect input s (s.dispatchNext input.windowSize f rest) := by
  unfold dispatchNext
  dsimp only
  split
  · rename_i message read
    exact .unreadable f rest message pc next read
  · rename_i size read
    split
    · rename_i large
      exact .oversize f rest size pc next read large
    · rename_i small
      exact .feed f rest pc next (by simp [SourceFile.fed, SourceFile.unreadable,
        SourceFile.oversize, read, small])

theorem mainStep_effect {input : Input} {s t : Dispatch} (h : s.mainStep input = some t) :
    Effect input s t := by
  unfold mainStep at h
  split at h
  · rename_i pc
    split at h
    · rename_i next
      cases h
      exact .allFed pc next
    · rename_i f rest next
      cases h
      exact dispatchNext_effect input pc next
  · rename_i parses pc
    obtain ⟨settled, rfl⟩ := by simpa only [Option.ite_none_right_eq_some, Option.some.injEq] using h
    exact .raced parses pc settled
  · rename_i job pc
    obtain ⟨ended, rfl⟩ := by simpa only [Option.ite_none_right_eq_some, Option.some.injEq] using h
    exact .awaited job pc ended
  · rename_i parses pc
    obtain ⟨settled, rfl⟩ := by simpa only [Option.ite_none_right_eq_some, Option.some.injEq] using h
    exact .allParsed parses pc settled
  · rename_i job pc
    obtain ⟨ended, rfl⟩ := by simpa only [Option.ite_none_right_eq_some, Option.some.injEq] using h
    exact .finish job pc ended
  · cases h
  · cases h

theorem directStep_effect (input : Input) {s t : Dispatch} (h : s.directStep = some t) :
    Effect input s t := by
  unfold directStep at h
  split at h
  · rename_i position f result pc
    dsimp only at h
    split at h
    · rename_i error throws
      cases h
      exact .directFailed position f result error pc throws
    · rename_i ok
      cases h
      exact .directStored position f result pc ok
  · cases h

theorem chainStep_effect (input : Input) {s t : Dispatch} (h : s.chainStep = some t) :
    Effect input s t := by
  unfold chainStep at h
  simp only [Option.ite_none_right_eq_some] at h
  obtain ⟨⟨pending, idle⟩, h⟩ := h
  split at h
  · rename_i failed
    cases h
    exact .jobEnded pending idle (Or.inl failed)
  · rename_i clean
    split at h
    · rename_i none_
      cases h
      exact .jobEnded pending idle (Or.inr none_)
    · rename_i slot found
      cases h
      exact .committing slot pending idle (by simpa using clean) found

theorem storeStep_effect (input : Input) {s t : Dispatch} (h : s.storeStep = some t) :
    Effect input s t := by
  unfold storeStep at h
  split at h
  · cases h
  · rename_i slot storing
    dsimp only at h
    split at h
    · rename_i error throws
      cases h
      exact .commitFailed slot error storing throws
    · rename_i ok
      cases h
      exact .committed slot storing ok

theorem step_effect {input : Input} {s t : Dispatch} {label : Label}
    (h : step input s label = some t) : Effect input s t := by
  cases label with
  | main => exact mainStep_effect h
  | directSettles => exact directStep_effect input h
  | parseSettles seq =>
      simp only [step, parseStep, Option.ite_none_right_eq_some, Option.some.injEq] at h
      obtain ⟨parsing, rfl⟩ := h
      exact .parsed seq parsing
  | untracks seq =>
      simp only [step, untrackStep, Option.ite_none_right_eq_some, Option.some.injEq] at h
      obtain ⟨⟨tracked, settled⟩, rfl⟩ := h
      exact .untracked seq tracked settled
  | chain => exact chainStep_effect input h
  | storeSettles => exact storeStep_effect input h

/-! ## Where the backpressure loop goes -/

/-- The loop ends, waits for a parse, or waits for a new commit job. -/
theorem waitForRoom_cases (windowSize : Nat) (s : Dispatch) :
    (s.nextSeq - s.nextToStore < windowSize ∧
        s.waitForRoom windowSize = { s with pc := .dispatch }) ∨
      (windowSize ≤ s.nextSeq - s.nextToStore ∧ s.inFlight ≠ [] ∧
        s.waitForRoom windowSize = { s with pc := .racing s.inFlight }) ∨
      (windowSize ≤ s.nextSeq - s.nextToStore ∧ s.inFlight = [] ∧
        s.waitForRoom windowSize = { s.flushOrdered with pc := .awaiting (s.jobs + 1) }) := by
  unfold waitForRoom
  by_cases full : windowSize ≤ s.nextSeq - s.nextToStore
  · by_cases hf : s.inFlight = []
    · exact Or.inr (Or.inr ⟨full, hf, by rw [if_pos full, if_pos hf]⟩)
    · exact Or.inr (Or.inl ⟨full, hf, by rw [if_pos full, if_neg hf]⟩)
  · exact Or.inl ⟨by omega, by rw [if_neg full]⟩

end Dispatch

end AfyxGraph.Bulk
