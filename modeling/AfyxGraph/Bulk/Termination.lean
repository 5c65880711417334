import AfyxGraph.Bulk.Invariant
import Mathlib.Algebra.GroupWithZero.Nat
import Mathlib.Data.Prod.Lex

/-! # Does a bulk index end?

The commit cursor stops at the first commit that fails, and `feed` waits for the
cursor. Whether the loop ends is a question about the files behind the failing
one: `Ends` answers it by one pass over the list. The pass gives the same
answer in every state of a run, so it decides all runs at once.
-/

namespace AfyxGraph.Bulk

open AfyxGraph.Core Extraction

namespace Dispatch

/-! ## The condition on the files -/

/-- A commit has failed with `error` and `room` more files fit into the window. -/
def EndsAfter (error : String) : Nat → List SourceFile → Prop
  | _, [] => True
  | room, f :: rest =>
      if f.unreadable then EndsAfter error room rest
      else if f.oversize then
        match f.storeError with
        | some thrown => thrown = error
        | none => EndsAfter error room rest
      else 0 < room ∧ EndsAfter error (room - 1) rest

/-- No store has failed yet. -/
def Ends (windowSize : Nat) : List SourceFile → Prop
  | [] => True
  | f :: rest =>
      if f.unreadable then Ends windowSize rest
      else
        match f.storeError with
        | none => Ends windowSize rest
        | some error => if f.oversize then True else EndsAfter error (windowSize - 1) rest

/-- `indexAll` has ended, with the error of the first store that threw if one did. -/
def Reports (s : Dispatch) : Prop :=
  s.pc = .done (match s.firstFailure with | none => .returned | some error => .rejected error)

/-- No run goes on for ever, and every run that cannot go on has ended properly. -/
def EndsWell (input : Input) : Prop :=
  (step input).Halts (init input.files) ∧
    ∀ s, (step input).Reaches (init input.files) s → (step input).Stuck s → s.Reports

/-! ## The pass over a list -/

theorem endsAfter_readables {error : String} {room : Nat} {files rest : List SourceFile}
    (hfed : ∀ f ∈ files, f.fed = true) :
    EndsAfter error room (files ++ rest) ↔
      files.length ≤ room ∧ EndsAfter error (room - files.length) rest := by
  induction files generalizing room with
  | nil => simp
  | cons f files ih =>
      have hf := hfed f (by simp)
      simp only [SourceFile.fed, Bool.and_eq_true, Bool.not_eq_true'] at hf
      rw [List.cons_append, EndsAfter]
      simp only [hf.1, hf.2, Bool.false_eq_true, if_false, List.length_cons]
      rw [ih fun g hg => hfed g (List.mem_cons_of_mem _ hg), Nat.sub_sub, Nat.add_comm 1]
      constructor
      · rintro ⟨hpos, hle, hrest⟩
        exact ⟨by omega, hrest⟩
      · rintro ⟨hle, hrest⟩
        exact ⟨by omega, by omega, hrest⟩

/-- A file that is passed over without a failing store changes nothing. -/
theorem endsAfter_skip {error : String} {room : Nat} {before rest : List SourceFile}
    {f : SourceFile} (hf : f.unreadable = true ∨ (f.oversize = true ∧ f.storeError = none)) :
    EndsAfter error room (before ++ f :: rest) ↔ EndsAfter error room (before ++ rest) := by
  induction before generalizing room with
  | nil =>
      rw [List.nil_append, List.nil_append, EndsAfter]
      rcases hf with hf | ⟨hf, hs⟩
      · simp [hf]
      · simp only [hf, hs, if_true]
        split <;> rfl
  | cons g before ih =>
      simp only [List.cons_append, EndsAfter]
      split
      · exact ih
      · split
        · split
          · rfl
          · exact ih
        · rw [ih]

theorem ends_skip {windowSize : Nat} {before rest : List SourceFile} {f : SourceFile}
    (hf : f.unreadable = true ∨ (f.oversize = true ∧ f.storeError = none)) :
    Ends windowSize (before ++ f :: rest) ↔ Ends windowSize (before ++ rest) := by
  induction before with
  | nil =>
      rw [List.nil_append, List.nil_append, Ends]
      rcases hf with hf | ⟨_, hs⟩
      · simp [hf]
      · simp [hs]
  | cons g before ih =>
      simp only [List.cons_append, Ends]
      split
      · exact ih
      · split
        · exact ih
        · split
          · rfl
          · exact endsAfter_skip hf

theorem ends_stored {windowSize : Nat} {f : SourceFile} {rest : List SourceFile}
    (hok : f.storeError = none) : Ends windowSize (f :: rest) ↔ Ends windowSize rest := by
  rw [Ends, hok]
  split <;> rfl

theorem ends_failed {windowSize : Nat} {f : SourceFile} {rest : List SourceFile} {error : String}
    (hf : f.fed = true) (hthrows : f.storeError = some error) :
    Ends windowSize (f :: rest) ↔ EndsAfter error (windowSize - 1) rest := by
  simp only [SourceFile.fed, Bool.and_eq_true, Bool.not_eq_true'] at hf
  simp [Ends, hthrows, hf.1, hf.2]

/-! ## The answer does not change during a run -/

/-- The pass over what is left. -/
def Fine (input : Input) (s : Dispatch) : Prop :=
  match s.flushError with
  | some error => EndsAfter error (input.windowSize - 1) s.uncommitted
  | none => Ends input.windowSize (s.storing.toList.map Slot.file ++ s.uncommitted)

/-- The dispatch loop has not ended, and no store has failed but a commit. -/
def Open (s : Dispatch) : Prop :=
  (∀ outcome, s.pc ≠ .done outcome) ∧ s.firstFailure = s.flushError

theorem fine_congr {input : Input} {s t : Dispatch} (he : t.flushError = s.flushError)
    (hs : t.storing = s.storing) (hu : t.uncommitted = s.uncommitted) :
    Fine input t ↔ Fine input s := by
  unfold Fine
  rw [he, hs, hu]

theorem fine_skip {input : Input} {s t : Dispatch} {f : SourceFile}
    (hf : f.unreadable = true ∨ (f.oversize = true ∧ f.storeError = none))
    (he : t.flushError = s.flushError) (hs : t.storing = s.storing) (hw : t.window = s.window)
    (hahead : s.ahead = f :: t.ahead) : Fine input t ↔ Fine input s := by
  unfold Fine uncommitted
  rw [he, hs, hw, hahead]
  split
  · exact (endsAfter_skip hf).symm
  · rw [← List.append_assoc, ← List.append_assoc]
    exact (ends_skip hf).symm

/-- Resuming in `feed` leaves the answer alone. -/
theorem open_waitForRoom (input : Input) {s : Dispatch} (ho : Open s) (hahead : s.ahead = s.rest) :
    Open (s.waitForRoom input.windowSize) ∧
      (Fine input (s.waitForRoom input.windowSize) ↔ Fine input s) := by
  obtain ⟨pc, jobs, hpc, he⟩ := s.waitForRoom_frame input.windowSize
  rw [he]
  refine ⟨⟨hpc.1, ho.2⟩, fine_congr rfl rfl ?_⟩
  rw [uncommitted, uncommitted, hahead, ahead_of_feeding hpc]

/-- A step that does not end the loop leaves the answer alone. -/
theorem open_step {input : Input} {s t : Dispatch} (hw : WellFormed input s) (ho : Open s)
    (he : Effect input s t) (ht : ∀ outcome, t.pc ≠ .done outcome) :
    Open t ∧ (Fine input t ↔ Fine input s) := by
  have hwaits := hw.waits
  cases he with
  | unreadable f rest message pc next read =>
      refine ⟨⟨ht, ho.2⟩, fine_skip (f := f) (Or.inl ?_) rfl rfl rfl ?_⟩
      · simp [SourceFile.unreadable, read]
      · simp [ahead, pc, next]
  | oversize f rest size pc next read large =>
      refine ⟨⟨ht, ho.2⟩, fine_congr rfl rfl ?_⟩
      simp [uncommitted, ahead, pc, next, beginStore]
  | feed f rest pc next fed =>
      obtain ⟨pc', jobs, hpc', he⟩ := waitForRoom_frame input.windowSize
        ({ s with rest, position := s.position + 1 }.feed s.position f)
      rw [he]
      refine ⟨⟨hpc'.1, ho.2⟩, fine_congr rfl rfl ?_⟩
      rw [uncommitted, ahead_of_feeding hpc']
      simp [uncommitted, ahead, pc, next, Dispatch.feed]
  | allFed pc next =>
      refine ⟨⟨ht, ho.2⟩, fine_congr rfl rfl ?_⟩
      simp [uncommitted, ahead, pc]
  | raced parses pc settled => exact open_waitForRoom input ho (by simp [ahead, pc])
  | awaited job pc ended => exact open_waitForRoom input ho (by simp [ahead, pc])
  | allParsed parses pc settled =>
      refine ⟨⟨ht, ho.2⟩, fine_congr rfl rfl ?_⟩
      simp [uncommitted, ahead, pc, flushOrdered]
  | finish job pc ended =>
      exfalso
      revert ht
      unfold Dispatch.finish
      split
      · simp
      · split <;> simp
  | directFailed position f result error pc throws => exact (ht _ rfl).elim
  | directStored position f result pc ok =>
      simp only [PcInv, pc] at hwaits
      refine ⟨⟨ht, ho.2⟩, fine_skip (f := f) (Or.inr ⟨hwaits.2.2, ok⟩) rfl rfl rfl ?_⟩
      simp [ahead, pc, endStore]
  | parsed seq parsing =>
      refine ⟨⟨ht, ho.2⟩, fine_congr rfl rfl ?_⟩
      simp [uncommitted, ahead, flushOrdered, Function.comp_def]
  | untracked seq tracked settled => exact ⟨⟨ht, ho.2⟩, fine_congr rfl rfl rfl⟩
  | jobEnded pending idle blocked => exact ⟨⟨ht, ho.2⟩, fine_congr rfl rfl rfl⟩
  | committing slot pending idle clean found =>
      obtain ⟨_, window, hwin⟩ := completedAt_eq_some hw.seqs found
      refine ⟨⟨ht, ho.2⟩, ?_⟩
      simp [Fine, uncommitted, ahead, beginStore, clean, idle, hwin]
  | commitFailed slot error storing throws =>
      have hclean := hw.storing_clean (by simp [storing])
      have hfirst : s.firstFailure = none := ho.2.trans hclean
      refine ⟨⟨ht, by simp [noteFailure, endStore, hfirst]⟩, ?_⟩
      simp only [Fine, hclean, storing, Option.toList_some, List.map_cons, List.map_nil,
        List.singleton_append]
      exact (ends_failed (hw.storing_fed slot storing) throws).symm
  | committed slot storing ok =>
      have hclean := hw.storing_clean (by simp [storing])
      refine ⟨⟨ht, ho.2⟩, ?_⟩
      simp only [Fine, endStore, hclean, storing, Option.toList_some, List.map_cons, List.map_nil,
        List.singleton_append, Option.toList_none, List.nil_append]
      exact (ends_stored ok).symm

/-! ## Files that end well -/

/-- After a failed commit the window keeps room, so `feed` does not wait. -/
theorem Fine.room {input : Input} {s : Dispatch} (hw : WellFormed input s) (h : Fine input s)
    {error : String} (he : s.flushError = some error) : s.window.length < input.windowSize := by
  simp only [Fine, he] at h
  have hfed : ∀ f ∈ s.window.map Slot.file, f.fed = true := fun f hm => by
    obtain ⟨slot, hslot, rfl⟩ := List.mem_map.mp hm
    exact hw.fed slot hslot
  have hlen := ((endsAfter_readables hfed).mp h).1
  have := input.windowSize_pos
  simp only [List.length_map] at hlen
  omega

/-- The answer for an oversize file whose store throws, with the window in front. -/
theorem fine_storing_iff {input : Input} {s : Dispatch} (hw : WellFormed input s) {position : Nat}
    {f : SourceFile} {result : ExtractionResult} {thrown error : String}
    (hpc : s.pc = .storing position f result) (ht : f.storeError = some thrown)
    (he : s.flushError = some error) : Fine input s ↔ thrown = error := by
  have hwaits := hw.waits
  simp only [PcInv, hpc] at hwaits
  have hfed : ∀ g ∈ s.window.map Slot.file, g.fed = true := fun g hm => by
    obtain ⟨slot, hslot, rfl⟩ := List.mem_map.mp hm
    exact hw.fed slot hslot
  simp only [Fine, he, uncommitted, ahead, hpc]
  rw [endsAfter_readables hfed, EndsAfter]
  simp only [hwaits.2.1, hwaits.2.2, ht, Bool.false_eq_true, if_false, if_true, List.length_map]
  have := hwaits.1
  constructor
  · exact fun h => h.2
  · exact fun h => ⟨by omega, h⟩

/-- Either the loop is open and all is fine with what is left, or it has ended
properly and, if no store threw, nothing is left to commit. -/
structure Good (input : Input) (s : Dispatch) : Prop extends WellFormed input s where
  fate : (Open s ∧ Fine input s) ∨
    (s.Reports ∧ (s.firstFailure = none → s.storing = none ∧ s.window = []))

theorem directFailed_reports {input : Input} {s : Dispatch} (hw : WellFormed input s)
    (ho : Open s) (hfine : Fine input s) {position : Nat} {f : SourceFile}
    {result : ExtractionResult} {error : String} (hpc : s.pc = .storing position f result)
    (ht : f.storeError = some error) :
    Reports { (s.endStore position).noteFailure error with pc := .done (.rejected error) } := by
  cases hflush : s.flushError with
  | none => simp [Reports, noteFailure, endStore, ho.2, hflush]
  | some first =>
      have heq : error = first := (fine_storing_iff hw hpc ht hflush).mp hfine
      simp [Reports, noteFailure, endStore, ho.2, hflush, heq]

theorem finish_reports {input : Input} {s : Dispatch} (hw : WellFormed input s) (ho : Open s)
    {job : Nat} (hpc : s.pc = .flushing job) (ended : job ≤ s.jobsDone) :
    (s.finish input.drainError).Reports ∧
      ((s.finish input.drainError).firstFailure = none →
        (s.finish input.drainError).storing = none ∧ (s.finish input.drainError).window = []) := by
  have hwaits := hw.waits
  simp only [PcInv, hpc] at hwaits
  obtain ⟨hflight, rfl, _⟩ := hwaits
  have hdone := drained hw.toSound hflight (Nat.le_antisymm hw.jobs_le ended)
  unfold Dispatch.finish
  cases hflush : s.flushError with
  | some error => simp [Reports, ho.2, hflush]
  | none =>
      cases hdrain : input.drainError with
      | some error => simp [Reports, noteFailure, ho.2, hflush]
      | none =>
          refine ⟨by simp [Reports, ho.2, hflush], fun _ => ?_⟩
          exact ⟨hdone.1, hdone.2 hflush⟩

/-- After the end only the chain is at work; it can meet a second failure but
not forget the first one, and it has nothing to do when nothing is left. -/
theorem done_frame {input : Input} {s t : Dispatch} (hw : WellFormed input s) {outcome : Outcome}
    (hd : s.pc = .done outcome) (he : Effect input s t) :
    t.pc = s.pc ∧ (∀ first, s.firstFailure = some first → t.firstFailure = some first) ∧
      (s.storing = none → s.window = [] →
        t.storing = none ∧ t.window = [] ∧ t.firstFailure = s.firstFailure) := by
  cases he with
  | unreadable f rest message pc next read => simp [pc] at hd
  | oversize f rest size pc next read large => simp [pc] at hd
  | feed f rest pc next fed => simp [pc] at hd
  | allFed pc next => simp [pc] at hd
  | raced parses pc settled => simp [pc] at hd
  | awaited job pc ended => simp [pc] at hd
  | allParsed parses pc settled => simp [pc] at hd
  | finish job pc ended => simp [pc] at hd
  | directFailed position f result error pc throws => simp [pc] at hd
  | directStored position f result pc ok => simp [pc] at hd
  | parsed seq parsing =>
      exact ⟨rfl, fun _ h => h, fun hs hempty => ⟨hs, by simp [hempty], rfl⟩⟩
  | untracked seq tracked settled => exact ⟨rfl, fun _ h => h, fun hs hempty => ⟨hs, hempty, rfl⟩⟩
  | jobEnded pending idle blocked => exact ⟨rfl, fun _ h => h, fun hs hempty => ⟨hs, hempty, rfl⟩⟩
  | committing slot pending idle clean found =>
      obtain ⟨_, window, hwin⟩ := completedAt_eq_some hw.seqs found
      exact ⟨rfl, fun _ h => h, fun _ hempty => by simp [hempty] at hwin⟩
  | commitFailed slot error storing throws =>
      refine ⟨rfl, fun first h => ?_, fun hs _ => by simp [hs] at storing⟩
      simp [noteFailure, endStore, h]
  | committed slot storing ok =>
      exact ⟨rfl, fun _ h => h, fun hs _ => by simp [hs] at storing⟩

theorem reports_step {input : Input} {s t : Dispatch} (hw : WellFormed input s)
    (hr : s.Reports) (hidle : s.firstFailure = none → s.storing = none ∧ s.window = [])
    (he : Effect input s t) :
    t.Reports ∧ (t.firstFailure = none → t.storing = none ∧ t.window = []) := by
  obtain ⟨hpc, hfirst, hquiet⟩ := done_frame hw hr he
  cases hf : s.firstFailure with
  | some first =>
      have ht := hfirst first hf
      refine ⟨?_, by simp [ht]⟩
      rw [Reports, ht, hpc, hr, hf]
  | none =>
      obtain ⟨hs, hempty, ht⟩ := hquiet (hidle hf).1 (hidle hf).2
      refine ⟨?_, fun _ => ⟨hs, hempty⟩⟩
      rw [Reports, ht, hpc, hr]

/-- The loop ends in two ways: after the last commit job, or by a direct store
that throws. -/
theorem effect_ends {input : Input} {s t : Dispatch} (ho : Open s) (he : Effect input s t)
    {outcome : Outcome} (ht : t.pc = .done outcome) :
    (∃ job, s.pc = .flushing job ∧ job ≤ s.jobsDone ∧ t = s.finish input.drainError) ∨
      ∃ position f result error, s.pc = .storing position f result ∧ f.storeError = some error ∧
        t = { (s.endStore position).noteFailure error with pc := .done (.rejected error) } := by
  cases he with
  | finish job pc ended => exact Or.inl ⟨job, pc, ended, rfl⟩
  | directFailed position f result error pc throws =>
      exact Or.inr ⟨position, f, result, error, pc, throws, rfl⟩
  | feed f rest pc next fed => exact (not_done_waitForRoom _ _ _ ht).elim
  | raced parses pc settled => exact (not_done_waitForRoom _ _ _ ht).elim
  | awaited job pc ended => exact (not_done_waitForRoom _ _ _ ht).elim
  | oversize f rest size pc next read large => cases ht
  | allFed pc next => cases ht
  | allParsed parses pc settled => cases ht
  | directStored position f result pc ok => cases ht
  | unreadable f rest message pc next read => exact (ho.1 _ ht).elim
  | parsed seq parsing => exact (ho.1 _ ht).elim
  | untracked seq tracked settled => exact (ho.1 _ ht).elim
  | jobEnded pending idle blocked => exact (ho.1 _ ht).elim
  | committing slot pending idle clean found => exact (ho.1 _ ht).elim
  | commitFailed slot error storing throws => exact (ho.1 _ ht).elim
  | committed slot storing ok => exact (ho.1 _ ht).elim

theorem step_good {input : Input} {s t : Dispatch} (h : Good input s) (he : Effect input s t) :
    Good input t := by
  refine { step_wellFormed h.toWellFormed he with fate := ?_ }
  rcases h.fate with ⟨ho, hfine⟩ | ⟨hr, hidle⟩
  · by_cases ht : ∀ outcome, t.pc ≠ .done outcome
    · obtain ⟨ho', hiff⟩ := open_step h.toWellFormed ho he ht
      exact Or.inl ⟨ho', hiff.mpr hfine⟩
    · simp only [ne_eq, not_forall, not_not] at ht
      obtain ⟨outcome, ht⟩ := ht
      rcases effect_ends ho he ht with
        ⟨job, pc, ended, rfl⟩ | ⟨position, f, result, error, pc, throws, rfl⟩
      · exact Or.inr (finish_reports h.toWellFormed ho pc ended)
      · refine Or.inr ⟨directFailed_reports h.toWellFormed ho hfine pc throws, ?_⟩
        simp [noteFailure, endStore]
  · exact Or.inr (reports_step h.toWellFormed hr hidle he)

/-! ## A measure that every step decreases -/

/-- Files the dispatch loop still has to look at. -/
def stage (s : Dispatch) : Nat :=
  match s.pc with
  | .dispatch | .racing _ | .awaiting _ | .storing _ _ _ => s.rest.length + 1
  | .settling _ | .flushing _ | .done _ => 0

def pcWeight : Pc → Nat
  | .dispatch => 0
  | .racing parses => parses.length + 2
  | .awaiting _ => 1
  | .storing _ _ _ => 1
  | .settling _ => 3
  | .flushing _ => 1
  | .done _ => 0

/-- A slot still has its parse, its commit job and its commit before it. -/
def slotWeight (slot : Slot) : Nat := if slot.parsed then 2 else 4

/-- Steps left before the dispatch loop turns to another file. -/
def weight (s : Dispatch) : Nat :=
  pcWeight s.pc + (s.window.map slotWeight).sum + s.inFlight.length + s.storing.toList.length +
    (s.jobs - s.jobsDone)

theorem slotWeight_complete_le (seq : Nat) (slot : Slot) :
    slotWeight (slot.complete seq) ≤ slotWeight slot := by
  unfold slotWeight Slot.complete
  by_cases hseq : slot.seq = seq
  · cases slot.parsed <;> simp [hseq]
  · simp [hseq]

theorem weight_complete_le (window : List Slot) (seq : Nat) :
    ((window.map (Slot.complete seq)).map slotWeight).sum ≤ (window.map slotWeight).sum := by
  induction window with
  | nil => simp
  | cons head window ih =>
      have := slotWeight_complete_le seq head
      simp only [List.map_cons, List.sum_cons]
      omega

/-- Marking a parse settled takes two off its slot. -/
theorem weight_complete {window : List Slot} {seq : Nat}
    (h : ∃ slot ∈ window, slot.seq = seq ∧ slot.parsed = false) :
    ((window.map (Slot.complete seq)).map slotWeight).sum + 2 ≤ (window.map slotWeight).sum := by
  induction window with
  | nil => simp at h
  | cons head window ih =>
      simp only [List.map_cons, List.sum_cons]
      obtain ⟨slot, hm, hseq, hp⟩ := h
      rcases List.mem_cons.mp hm with rfl | hm
      · have hrest := weight_complete_le window seq
        have hhead : slotWeight (slot.complete seq) + 2 = slotWeight slot := by
          simp [slotWeight, Slot.complete, hseq, hp]
        omega
      · have := ih ⟨slot, hm, hseq, hp⟩
        have := slotWeight_complete_le seq head
        omega

/-- `t` is closer to the end than `s`. -/
def Closer (t s : Dispatch) : Prop :=
  Prod.Lex (· < ·) (· < ·) (t.stage, t.weight) (s.stage, s.weight)

theorem closer_wf : WellFounded Closer :=
  InvImage.wf (fun s : Dispatch => (s.stage, s.weight))
    (WellFounded.prod_lex Nat.lt_wfRel.wf Nat.lt_wfRel.wf)

theorem Closer.of_stage {s t : Dispatch} (h : t.stage < s.stage) : Closer t s :=
  Prod.Lex.left _ _ h

theorem Closer.of_weight {s t : Dispatch} (hs : t.stage = s.stage) (h : t.weight < s.weight) :
    Closer t s := by
  unfold Closer
  rw [hs]
  exact Prod.Lex.right _ h

/-- A race that is over leaves fewer parses to race, and no more than one job. -/
theorem closer_raced {input : Input} {s : Dispatch} (hw : WellFormed input s) {parses : List Nat}
    (hpc : s.pc = .racing parses) (settled : ∃ seq ∈ parses, seq ∉ s.inFlight) :
    Closer (s.waitForRoom input.windowSize) s := by
  have hwaits := hw.waits
  simp only [PcInv, hpc] at hwaits
  have hlt : s.inFlight.length < parses.length := by
    obtain ⟨seq, hm, hnot⟩ := settled
    refine Nat.lt_of_le_of_ne hwaits.2.length_le fun heq => hnot ?_
    rw [hwaits.2.eq_of_length heq]
    exact hm
  have hjobs := hw.jobs_le
  rcases s.waitForRoom_cases input.windowSize with ⟨_, he⟩ | ⟨_, _, he⟩ | ⟨_, _, he⟩
  · rw [he]
    refine .of_weight (by simp [stage, hpc]) ?_
    simp only [weight, pcWeight, hpc]
    omega
  · rw [he]
    refine .of_weight (by simp [stage, hpc]) ?_
    simp only [weight, pcWeight, hpc]
    omega
  · rw [he]
    refine .of_weight (by simp [stage, hpc, flushOrdered]) ?_
    simp only [weight, pcWeight, hpc, flushOrdered]
    omega

/-- The job `feed` waited for has emptied the window or found it open: the loop
goes on to the next file. -/
theorem closer_awaited {input : Input} {s : Dispatch} (h : Good input s) {job : Nat}
    (hpc : s.pc = .awaiting job) (ended : job ≤ s.jobsDone) :
    Closer (s.waitForRoom input.windowSize) s := by
  have hwaits := h.waits
  simp only [PcInv, hpc] at hwaits
  obtain ⟨hflight, rfl⟩ := hwaits
  have hfine : Fine input s := by
    rcases h.fate with ⟨_, hfine⟩ | ⟨hr, _⟩
    · exact hfine
    · simp [Reports, hpc] at hr
  have hroom : s.window.length < input.windowSize := by
    cases hflush : s.flushError with
    | some error => exact hfine.room h.toWellFormed hflush
    | none =>
        have hempty := (drained h.toSound hflight (Nat.le_antisymm h.jobs_le ended)).2 hflush
        simpa [hempty] using input.windowSize_pos
  have hnext := h.nextSeq_eq
  rcases s.waitForRoom_cases input.windowSize with ⟨_, he⟩ | ⟨hfull, _⟩ | ⟨hfull, _⟩
  · rw [he]
    refine .of_weight (by simp [stage, hpc]) ?_
    simp only [weight, pcWeight, hpc]
    omega
  · omega
  · omega

theorem step_closer {input : Input} {s t : Dispatch} (h : Good input s) (he : Effect input s t) :
    Closer t s := by
  have hjobs := h.jobs_le
  cases he with
  | unreadable f rest message pc next read =>
      exact .of_stage (by simp [stage, pc, next])
  | oversize f rest size pc next read large =>
      exact .of_stage (by simp [stage, pc, next, beginStore])
  | feed f rest pc next fed =>
      have hs : ({ s with rest, position := s.position + 1 }.feed s.position f).rest = rest := rfl
      rcases waitForRoom_cases input.windowSize
        ({ s with rest, position := s.position + 1 }.feed s.position f) with
        ⟨_, he⟩ | ⟨_, _, he⟩ | ⟨_, _, he⟩ <;> rw [he] <;>
        exact .of_stage (by simp [stage, pc, next, flushOrdered, Dispatch.feed])
  | allFed pc next => exact .of_stage (by simp [stage, pc])
  | raced parses pc settled => exact closer_raced h.toWellFormed pc settled
  | awaited job pc ended => exact closer_awaited h pc ended
  | allParsed parses pc settled =>
      refine .of_weight (by simp [stage, pc]) ?_
      simp only [weight, pcWeight, pc, flushOrdered]
      omega
  | finish job pc ended =>
      unfold Dispatch.finish
      split
      · exact .of_weight (by simp [stage, pc]) (by simp [weight, pcWeight, pc])
      · split <;>
          exact .of_weight (by simp [stage, pc]) (by simp [weight, pcWeight, pc, noteFailure])
  | directFailed position f result error pc throws => exact .of_stage (by simp [stage, pc])
  | directStored position f result pc ok =>
      exact .of_weight (by simp [stage, pc, endStore]) (by simp [weight, pcWeight, pc, endStore])
  | parsed seq parsing =>
      have hle := weight_complete (isParsing_eq_true.mp parsing)
      refine .of_weight rfl ?_
      simp only [weight, flushOrdered]
      omega
  | untracked seq tracked settled =>
      have hlen := List.length_erase_of_mem tracked
      have hpos := List.length_pos_of_mem tracked
      refine .of_weight rfl ?_
      simp only [weight]
      omega
  | jobEnded pending idle blocked =>
      refine .of_weight rfl ?_
      simp only [weight]
      omega
  | committing slot pending idle clean found =>
      obtain ⟨hparsed, window, hwin⟩ := completedAt_eq_some h.seqs found
      refine .of_weight rfl ?_
      simp only [weight, beginStore, hwin, idle, List.erase_cons_head, List.map_cons, List.sum_cons,
        slotWeight, hparsed, if_true, Option.toList_some, Option.toList_none,
        List.length_singleton, List.length_nil]
      omega
  | commitFailed slot error storing throws =>
      refine .of_weight rfl ?_
      simp only [weight, noteFailure, endStore, storing, Option.toList_some, Option.toList_none,
        List.length_singleton, List.length_nil]
      omega
  | committed slot storing ok =>
      refine .of_weight rfl ?_
      simp only [weight, endStore, storing, Option.toList_some, Option.toList_none,
        List.length_singleton, List.length_nil]
      omega

theorem endsWell_of_ends {input : Input} (h : Ends input.windowSize input.files) :
    EndsWell input := by
  have hinit : Good input (init input.files) :=
    { init_wellFormed input input.files with
      fate := Or.inl ⟨⟨by simp [init], rfl⟩, by simpa [Fine, uncommitted, ahead, init] using h⟩ }
  have hkeeps : ∀ s a t, Good input s → step input s a = some t → Good input t :=
    fun _ _ _ hs ht => step_good hs (step_effect ht)
  refine ⟨Machine.halts_of_measure closer_wf hkeeps
    (fun _ _ _ hs ht => step_closer hs (step_effect ht)) hinit, fun s hr stuck => ?_⟩
  have hs : Good input s := hr.invariant hkeeps hinit
  obtain ⟨outcome, hpc⟩ := stuck_done hs.toWellFormed stuck
  rcases hs.fate with ⟨ho, _⟩ | ⟨hrep, _⟩
  · exact (ho.1 outcome hpc).elim
  · exact hrep

/-! ## Files that do not -/

/-- The schedule in which the dispatch loop moves only when the parses and the
commit chain have nothing left to do. -/
def chainFirst (s : Dispatch) : Label → Bool
  | .main | .directSettles => decide (s.inFlight = [] ∧ s.jobsDone = s.jobs)
  | _ => true

/-- The loop will not end, or has ended with an error other than the first. -/
structure Lost (input : Input) (s : Dispatch) : Prop extends WellFormed input s where
  fate : (Open s ∧ ¬ Fine input s) ∨
    ∃ thrown first, thrown ≠ first ∧ s.pc = .done (.rejected thrown) ∧ s.firstFailure = some first

/-- Only the dispatch loop and its own stores move the pc. -/
theorem background_pc {input : Input} {s t : Dispatch} {label : Label} (hmain : label ≠ .main)
    (hdirect : label ≠ .directSettles) (h : step input s label = some t) : t.pc = s.pc := by
  cases label with
  | main => exact (hmain rfl).elim
  | directSettles => exact (hdirect rfl).elim
  | parseSettles seq =>
      simp only [step, parseStep, Option.ite_none_right_eq_some, Option.some.injEq] at h
      rw [← h.2]
      rfl
  | untracks seq =>
      simp only [step, untrackStep, Option.ite_none_right_eq_some, Option.some.injEq] at h
      rw [← h.2]
  | chain =>
      simp only [step, chainStep, Option.ite_none_right_eq_some] at h
      have h := h.2
      split at h
      · cases h
        rfl
      · split at h <;> cases h <;> rfl
  | storeSettles =>
      simp only [step, storeStep] at h
      split at h
      · cases h
      · split at h <;> cases h <;> rfl

theorem finish_fine {input : Input} {s : Dispatch} (hw : WellFormed input s) {job : Nat}
    (hpc : s.pc = .flushing job) (ended : job ≤ s.jobsDone) : Fine input s := by
  have hwaits := hw.waits
  simp only [PcInv, hpc] at hwaits
  obtain ⟨hflight, rfl, hrest, hlen⟩ := hwaits
  obtain ⟨hidle, hempty⟩ := drained hw.toSound hflight (Nat.le_antisymm hw.jobs_le ended)
  cases hflush : s.flushError with
  | none => simp [Fine, hflush, uncommitted, ahead, hpc, hrest, hidle, hempty hflush, Ends]
  | some error =>
      simp only [Fine, hflush, uncommitted, ahead, hpc, hrest]
      refine (endsAfter_readables fun f hm => ?_).mpr ⟨?_, by simp [EndsAfter]⟩
      · obtain ⟨slot, hslot, rfl⟩ := List.mem_map.mp hm
        exact hw.fed slot hslot
      · rw [List.length_map]
        omega

/-- On this schedule a direct store that throws comes after the failed commit. -/
theorem directFailed_mismatch {input : Input} {s : Dispatch} (hw : WellFormed input s)
    (hidle : s.inFlight = [] ∧ s.jobsDone = s.jobs) (hfine : ¬ Fine input s) {position : Nat}
    {f : SourceFile} {result : ExtractionResult} {error : String}
    (hpc : s.pc = .storing position f result) (ht : f.storeError = some error) :
    ∃ first, error ≠ first ∧ s.flushError = some first := by
  cases hflush : s.flushError with
  | some first =>
      exact ⟨first, fun heq => hfine ((fine_storing_iff hw hpc ht hflush).mpr heq), rfl⟩
  | none =>
      have hwaits := hw.waits
      simp only [PcInv, hpc] at hwaits
      obtain ⟨hstoring, hempty⟩ := drained hw.toSound hidle.1 hidle.2
      refine (hfine ?_).elim
      simp [Fine, hflush, uncommitted, ahead, hpc, hstoring, hempty hflush, Ends, hwaits.2.1,
        hwaits.2.2, ht]

theorem step_lost {input : Input} {s t : Dispatch} {label : Label} (h : Lost input s)
    (hstep : (step input).restrict chainFirst s label = some t) : Lost input t := by
  obtain ⟨hallowed, hstep⟩ := Machine.restrict_eq_some.mp hstep
  have he := step_effect hstep
  refine { step_wellFormed h.toWellFormed he with fate := ?_ }
  rcases h.fate with ⟨ho, hfine⟩ | ⟨thrown, first, hne, hpc, hfirst⟩
  · by_cases ht : ∀ outcome, t.pc ≠ .done outcome
    · obtain ⟨ho', hiff⟩ := open_step h.toWellFormed ho he ht
      exact Or.inl ⟨ho', fun hf => hfine (hiff.mp hf)⟩
    · simp only [ne_eq, not_forall, not_not] at ht
      obtain ⟨outcome, ht⟩ := ht
      rcases effect_ends ho he ht with
        ⟨job, pc, ended, rfl⟩ | ⟨position, f, result, error, pc, throws, rfl⟩
      · exact (hfine (finish_fine h.toWellFormed pc ended)).elim
      · have hidle : s.inFlight = [] ∧ s.jobsDone = s.jobs := by
          by_cases hlabel : label = .main ∨ label = .directSettles
          · rcases hlabel with rfl | rfl <;> simpa [chainFirst] using hallowed
          · rw [not_or] at hlabel
            exact (ho.1 _ ((background_pc hlabel.1 hlabel.2 hstep).symm.trans ht)).elim
        obtain ⟨first, hne, hflush⟩ := directFailed_mismatch h.toWellFormed hidle hfine pc throws
        refine Or.inr ⟨error, first, hne, rfl, ?_⟩
        simp [noteFailure, endStore, ho.2, hflush]
  · obtain ⟨hpc', hfirst', _⟩ := done_frame h.toWellFormed hpc he
    exact Or.inr ⟨thrown, first, hne, hpc'.trans hpc, hfirst' first hfirst⟩

theorem ends_of_endsWell {input : Input} (h : EndsWell input) :
    Ends input.windowSize input.files := by
  by_contra hends
  have hinit : Lost input (init input.files) :=
    { init_wellFormed input input.files with
      fate := Or.inl ⟨⟨by simp [init], rfl⟩, by simpa [Fine, uncommitted, ahead, init] using hends⟩ }
  have hhalts : ((step input).restrict chainFirst).Halts (init input.files) := h.1.restrict
  obtain ⟨s, hr, hstuck⟩ := hhalts.reaches_stuck
  have hs : Lost input s := hr.invariant (fun _ _ _ hl ht => step_lost hl ht) hinit
  have stuck : (step input).Stuck s := by
    refine hstuck.of_restrict fun label hblocked => ?_
    have hbusy : s.inFlight ≠ [] ∨ s.jobsDone < s.jobs := by
      have hle := hs.jobs_le
      cases label <;>
        simp only [chainFirst, decide_eq_false_iff_not, not_and, Bool.true_eq_false] at hblocked
      all_goals
        by_cases hf : s.inFlight = []
        · exact Or.inr (Nat.lt_of_le_of_ne hle (hblocked hf))
        · exact Or.inl hf
    have hbackground : ∀ b, b ≠ .main → b ≠ .directSettles → chainFirst s b = true := by
      intro b hmain hdirect
      cases b <;> simp_all [chainFirst]
    rcases hbusy with hf | hj
    · obtain ⟨b, hmain, hdirect, hopen⟩ := inFlight_open input hf
      exact ⟨b, hbackground b hmain hdirect, hopen⟩
    · obtain ⟨b, hmain, hdirect, hopen⟩ := job_open input hj
      exact ⟨b, hbackground b hmain hdirect, hopen⟩
  obtain ⟨outcome, hpc⟩ := stuck_done hs.toWellFormed stuck
  rcases hs.fate with ⟨ho, _⟩ | ⟨thrown, first, hne, hdone, hfirst⟩
  · exact ho.1 outcome hpc
  · have hreports := h.2 s hr.of_restrict stuck
    rw [Reports, hfirst, hdone] at hreports
    cases hreports
    exact hne rfl

/-- Every run of the dispatch loop ends, with the error of the first store that
threw if there is one, exactly when the pass over the files says so. -/
theorem endsWell_iff (input : Input) : EndsWell input ↔ Ends input.windowSize input.files :=
  ⟨ends_of_endsWell, endsWell_of_ends⟩

/-- With one file in the window, a commit that fails before another file is fed
leaves `feed` waiting for ever. -/
theorem endsWell_fails : ¬ ∀ input, EndsWell input := by
  intro h
  let parse : Except String ExtractionResult := .error "Parse timed out after 10000ms"
  let failing : SourceFile := ⟨"a.ts", .content 10, .typescript, parse, some "disk full"⟩
  let next : SourceFile := ⟨"b.ts", .content 10, .typescript, parse, none⟩
  have hends := ends_of_endsWell (h ⟨[failing, next], 1, Nat.one_pos, none⟩)
  simp [Ends, EndsAfter, failing, next, SourceFile.unreadable, SourceFile.oversize,
    MAX_FILE_SIZE] at hends

end Dispatch

end AfyxGraph.Bulk
