import AfyxGraph.Bulk.Effect

/-! # Invariants of the dispatch loop

The window is the run of sequence numbers from the commit cursor to the next
one, every parse that has not settled is in flight, and a result at the cursor
has a commit job to take it. From these it follows that the loop is never stuck
before its end.
-/

namespace AfyxGraph.Bulk

open AfyxGraph.Core Extraction

namespace Dispatch

/-- What the dispatch loop knows while it is suspended. -/
def PcInv (input : Input) (s : Dispatch) : Prop :=
  match s.pc with
  | .dispatch => s.window.length < input.windowSize
  | .racing parses => parses ≠ [] ∧ s.inFlight.Sublist parses
  | .awaiting job => s.inFlight = [] ∧ job = s.jobs
  | .storing _ f _ => s.window.length < input.windowSize ∧ f.unreadable = false ∧ f.oversize = true
  | .settling parses =>
      s.inFlight.Sublist parses ∧ s.rest = [] ∧ s.window.length < input.windowSize
  | .flushing job =>
      s.inFlight = [] ∧ job = s.jobs ∧ s.rest = [] ∧ s.window.length < input.windowSize
  | .done _ => True

/-- The part of the invariants that does not look at the dispatch loop itself. -/
structure Sound (s : Dispatch) : Prop where
  seqs : s.window.map Slot.seq = List.range' s.nextToStore s.window.length
  nextSeq_eq : s.nextSeq = s.nextToStore + s.window.length
  jobs_le : s.jobsDone ≤ s.jobs
  storing_job : s.storing ≠ none → s.jobsDone < s.jobs
  storing_clean : s.storing ≠ none → s.flushError = none
  inFlight_lt : ∀ seq ∈ s.inFlight, seq < s.nextSeq
  inFlight_nodup : s.inFlight.Nodup
  tracked : ∀ slot ∈ s.window, slot.parsed = false → slot.seq ∈ s.inFlight
  fed : ∀ slot ∈ s.window, slot.file.fed = true
  storing_fed : ∀ slot, s.storing = some slot → slot.file.fed = true
  wake : s.jobsDone = s.jobs → s.flushError.isSome = true ∨ s.completedAt s.nextToStore = none

structure WellFormed (input : Input) (s : Dispatch) : Prop extends Sound s where
  waits : PcInv input s

theorem init_wellFormed (input : Input) (files : List SourceFile) :
    WellFormed input (init files) where
  seqs := rfl
  nextSeq_eq := rfl
  jobs_le := Nat.le_refl 0
  storing_job h := (h rfl).elim
  storing_clean h := (h rfl).elim
  inFlight_lt := by simp [init]
  inFlight_nodup := List.nodup_nil
  tracked := by simp [init]
  fed := by simp [init]
  storing_fed slot h := by cases h
  wake _ := Or.inr rfl
  waits := input.windowSize_pos

/-! ## The head of the window -/

theorem seqs_cons {slot : Slot} {window : List Slot} {cursor : Nat}
    (h : (slot :: window).map Slot.seq = List.range' cursor (slot :: window).length) :
    slot.seq = cursor ∧ window.map Slot.seq = List.range' (cursor + 1) window.length := by
  simpa [List.range'_succ] using h

/-- The entry of `completed` at the cursor is the head of the window, if parsed. -/
theorem completedAt_cursor {s : Dispatch}
    (h : s.window.map Slot.seq = List.range' s.nextToStore s.window.length) :
    s.completedAt s.nextToStore = s.window.head?.filter (·.parsed) := by
  unfold completedAt
  cases hw : s.window with
  | nil => rfl
  | cons slot window =>
      rw [hw] at h
      obtain ⟨hseq, hrest⟩ := seqs_cons h
      have hlater : ∀ other ∈ window, (other.seq == s.nextToStore && other.parsed) = false := by
        intro other hm
        have : other.seq ∈ List.range' (s.nextToStore + 1) window.length := by
          rw [← hrest]
          exact List.mem_map_of_mem hm
        have hne : other.seq ≠ s.nextToStore := by
          have := List.mem_range'_1.mp this
          omega
        simp [hne]
      cases hp : slot.parsed with
      | true => simp [hseq, hp, Option.filter]
      | false =>
          have hnone : window.find? (fun o => o.seq == s.nextToStore && o.parsed) = none :=
            List.find?_eq_none.mpr fun o ho => by simp [hlater o ho]
          simp [hp, Option.filter, hnone]

theorem completedAt_eq_some {s : Dispatch}
    (h : s.window.map Slot.seq = List.range' s.nextToStore s.window.length) {slot : Slot}
    (hc : s.completedAt s.nextToStore = some slot) :
    slot.parsed = true ∧ ∃ window, s.window = slot :: window := by
  rw [completedAt_cursor h] at hc
  cases hw : s.window with
  | nil => simp [hw] at hc
  | cons head window =>
      simp only [hw, List.head?_cons, Option.filter_eq_some_iff, Option.some.injEq] at hc
      obtain ⟨rfl, hp⟩ := hc
      exact ⟨hp, window, rfl⟩

theorem not_parsing_of_inFlight_nil {s : Dispatch} (hw : Sound s)
    (h : s.inFlight = []) : ∀ slot ∈ s.window, slot.parsed = true := by
  intro slot hm
  cases hp : slot.parsed with
  | true => rfl
  | false =>
      have := hw.tracked slot hm hp
      simp [h] at this

/-- With no parse in flight and no job pending, everything is committed or a
commit has failed. -/
theorem drained {s : Dispatch} (hw : Sound s) (hf : s.inFlight = [])
    (hj : s.jobsDone = s.jobs) :
    s.storing = none ∧ (s.flushError = none → s.window = []) := by
  constructor
  · by_contra h
    have := hw.storing_job h
    omega
  · intro hclean
    have hnone := (hw.wake hj).resolve_left (by simp [hclean])
    rw [completedAt_cursor hw.seqs] at hnone
    cases hwin : s.window with
    | nil => rfl
    | cons slot window =>
        have hp := not_parsing_of_inFlight_nil hw hf slot (by simp [hwin])
        simp [hwin, hp] at hnone

/-! ## Every step keeps the invariants -/

theorem isParsing_eq_true {s : Dispatch} {seq : Nat} :
    s.isParsing seq = true ↔ ∃ slot ∈ s.window, slot.seq = seq ∧ slot.parsed = false := by
  simp [isParsing]

theorem Sound.flushOrdered {s : Dispatch} (h : Sound s) : Sound s.flushOrdered :=
  { h with
    jobs_le := Nat.le_succ_of_le h.jobs_le
    storing_job := fun hs => Nat.lt_succ_of_lt (h.storing_job hs)
    wake := fun hj => by
      have := h.jobs_le
      simp only [Dispatch.flushOrdered] at hj
      omega }

/-- The invariants other than `PcInv` do not mention the pc. -/
theorem Sound.setPc {s : Dispatch} (h : Sound s) (pc : Pc) : Sound { s with pc } := { h with }

/-- Wherever the backpressure loop goes, its pc invariant holds there. -/
theorem Sound.waitForRoom (input : Input) {s : Dispatch} (h : Sound s) :
    WellFormed input (s.waitForRoom input.windowSize) := by
  rcases s.waitForRoom_cases input.windowSize with ⟨hroom, he⟩ | ⟨_, hf, he⟩ | ⟨_, hf, he⟩
  · rw [he]
    have hlen : s.window.length < input.windowSize := by
      have := h.nextSeq_eq
      omega
    exact { h.setPc _ with waits := hlen }
  · rw [he]
    exact { h.setPc _ with waits := ⟨hf, List.Sublist.refl _⟩ }
  · rw [he]
    exact { h.flushOrdered.setPc _ with waits := ⟨hf, rfl⟩ }

/-- A dispatched file enters the window unparsed and in flight. -/
theorem Sound.feed {s : Dispatch} (h : Sound s) (position : Nat) {f : SourceFile}
    (hf : f.fed = true) : Sound (s.feed position f) where
  seqs := by
    have hlast : List.range' s.nextToStore (s.window.length + 1) =
        List.range' s.nextToStore s.window.length ++ [s.nextToStore + s.window.length] := by
      rw [List.range'_concat]
      simp
    simp [Dispatch.feed, h.seqs, hlast, h.nextSeq_eq]
  nextSeq_eq := by simp [Dispatch.feed, h.nextSeq_eq, Nat.add_assoc]
  jobs_le := h.jobs_le
  storing_job := h.storing_job
  storing_clean := h.storing_clean
  inFlight_lt := by
    intro seq hm
    rcases List.mem_append.mp hm with hm | hm
    · exact Nat.lt_succ_of_lt (h.inFlight_lt seq hm)
    · simp [List.mem_singleton.mp hm, Dispatch.feed]
  inFlight_nodup := by
    refine List.nodup_append.mpr ⟨h.inFlight_nodup, by simp, fun a ha b hb => ?_⟩
    have := h.inFlight_lt a ha
    rw [List.mem_singleton.mp hb]
    omega
  tracked := by
    intro slot hm hp
    rcases List.mem_append.mp hm with hm | hm
    · exact List.mem_append_left _ (h.tracked slot hm hp)
    · rw [List.mem_singleton.mp hm]
      simp [Dispatch.feed]
  fed := by
    intro slot hm
    rcases List.mem_append.mp hm with hm | hm
    · exact h.fed slot hm
    · rw [List.mem_singleton.mp hm]
      exact hf
  storing_fed := h.storing_fed
  wake := by
    intro hj
    refine (h.wake hj).imp id fun hnone => ?_
    simp only [completedAt, Dispatch.feed, List.find?_append, Option.or_eq_none_iff]
    exact ⟨hnone, by simp⟩

/-- A settled parse is marked in its slot and leaves a commit job behind. -/
theorem Sound.parsed {s : Dispatch} (h : Sound s) (seq : Nat) :
    Sound { s.flushOrdered with window := s.window.map (Slot.complete seq) } :=
  { h.flushOrdered with
    seqs := by
      have hmap : (s.window.map (Slot.complete seq)).map Slot.seq = s.window.map Slot.seq := by
        simp
      rw [List.length_map]
      exact hmap.trans h.seqs
    nextSeq_eq := by
      rw [List.length_map]
      exact h.nextSeq_eq
    tracked := fun slot hm hp => by
      obtain ⟨old, hold, rfl⟩ := List.mem_map.mp hm
      rw [Slot.complete_seq]
      exact h.tracked old hold (Slot.complete_parsed_eq_false hp)
    fed := fun slot hm => by
      obtain ⟨old, hold, rfl⟩ := List.mem_map.mp hm
      rw [Slot.complete_file]
      exact h.fed old hold
    wake := fun hjobs => by
      have := h.jobs_le
      simp only [Dispatch.flushOrdered] at hjobs
      omega }

theorem Sound.noteFailure {s : Dispatch} (h : Sound s) (error : String) :
    Sound (s.noteFailure error) := { h with }

theorem Sound.untracked {s : Dispatch} (h : Sound s) {seq : Nat} (hs : s.isParsing seq = false) :
    Sound { s with inFlight := s.inFlight.erase seq } :=
  { h with
    inFlight_lt := fun other hm => h.inFlight_lt other (List.mem_of_mem_erase hm)
    inFlight_nodup := h.inFlight_nodup.erase seq
    tracked := fun slot hm hp => by
      have hne : slot.seq ≠ seq := by
        rintro rfl
        have hparsing : s.isParsing slot.seq = true :=
          isParsing_eq_true.mpr ⟨slot, hm, rfl, hp⟩
        simp [hs] at hparsing
      exact (List.mem_erase_of_ne hne).mpr (h.tracked slot hm hp) }

/-- The chain takes the head of the window. -/
theorem Sound.committing {s : Dispatch} (h : Sound s) {slot : Slot}
    (hj : s.jobsDone < s.jobs) (hc : s.flushError = none)
    (hs : s.completedAt s.nextToStore = some slot) :
    Sound { s.beginStore slot.position with
      window := s.window.erase slot, nextToStore := s.nextToStore + 1, storing := some slot } := by
  obtain ⟨_, window, hwin⟩ := completedAt_eq_some h.seqs hs
  have herase : s.window.erase slot = window := by simp [hwin]
  have hseqs := h.seqs
  rw [hwin] at hseqs
  have hnext := h.nextSeq_eq
  rw [hwin] at hnext
  rw [herase]
  have hsub : ∀ other ∈ window, other ∈ s.window := fun other hm => by simp [hwin, hm]
  exact { h with
    seqs := (seqs_cons hseqs).2
    nextSeq_eq := by
      simp only [List.length_cons] at hnext
      change s.nextSeq = s.nextToStore + 1 + window.length
      omega
    storing_job := fun _ => hj
    storing_clean := fun _ => hc
    tracked := fun other hm => h.tracked other (hsub other hm)
    fed := fun other hm => h.fed other (hsub other hm)
    storing_fed := fun other hm => by cases hm; exact h.fed slot (by simp [hwin])
    wake := fun hdone => by
      change s.jobsDone = s.jobs at hdone
      omega }

/-- While the loop waits for a commit job no parse is left to settle. -/
theorem WellFormed.parsed_waits {input : Input} {s : Dispatch} (h : WellFormed input s) {seq : Nat}
    (hp : s.isParsing seq = true) :
    PcInv input { s.flushOrdered with window := s.window.map (Slot.complete seq) } := by
  obtain ⟨slot, hm, _, hp⟩ := isParsing_eq_true.mp hp
  have hne : s.inFlight ≠ [] := List.ne_nil_of_mem (h.tracked slot hm hp)
  have hwaits := h.waits
  unfold PcInv at hwaits ⊢
  simp only [List.length_map, flushOrdered]
  split at hwaits
  · exact hwaits
  · exact hwaits
  · exact (hne hwaits.1).elim
  · exact hwaits
  · exact hwaits
  · exact (hne hwaits.1).elim
  · trivial

theorem WellFormed.shorter_waits {input : Input} {s t : Dispatch} (h : WellFormed input s)
    (hlen : t.window.length ≤ s.window.length) (hpc : t.pc = s.pc) (hf : t.inFlight = s.inFlight)
    (hj : t.jobs = s.jobs) (hr : t.rest = s.rest) : PcInv input t := by
  have hwaits := h.waits
  unfold PcInv at hwaits ⊢
  rw [hpc, hf, hj, hr]
  split at hwaits
  · exact Nat.lt_of_le_of_lt hlen hwaits
  · exact hwaits
  · exact hwaits
  · exact ⟨Nat.lt_of_le_of_lt hlen hwaits.1, hwaits.2⟩
  · exact ⟨hwaits.1, hwaits.2.1, Nat.lt_of_le_of_lt hlen hwaits.2.2⟩
  · exact ⟨hwaits.1, hwaits.2.1, hwaits.2.2.1, Nat.lt_of_le_of_lt hlen hwaits.2.2.2⟩
  · trivial

theorem WellFormed.untracked_waits {input : Input} {s : Dispatch} (h : WellFormed input s)
    {seq : Nat} (hm : seq ∈ s.inFlight) :
    PcInv input { s with inFlight := s.inFlight.erase seq } := by
  have hne : s.inFlight ≠ [] := List.ne_nil_of_mem hm
  have hwaits := h.waits
  unfold PcInv at hwaits ⊢
  dsimp only
  split at hwaits
  · exact hwaits
  · exact ⟨hwaits.1, List.erase_sublist.trans hwaits.2⟩
  · exact (hne hwaits.1).elim
  · exact hwaits
  · exact ⟨List.erase_sublist.trans hwaits.1, hwaits.2⟩
  · exact (hne hwaits.1).elim
  · trivial

theorem step_wellFormed {input : Input} {s t : Dispatch} (h : WellFormed input s)
    (he : Effect input s t) : WellFormed input t := by
  have hwaits := h.waits
  cases he with
  | unreadable f rest message pc next read =>
      simp only [PcInv, pc] at hwaits
      exact { h with waits := by simpa only [PcInv, pc] using hwaits }
  | oversize f rest size pc next read large =>
      simp only [PcInv, pc] at hwaits
      exact { h with
        waits := ⟨hwaits, by simp [SourceFile.unreadable, read],
          by simp [SourceFile.oversize, read, large]⟩ }
  | feed f rest pc next fed =>
      have hs : Sound { s with rest, position := s.position + 1 } := { h.toSound with }
      exact (hs.feed s.position fed).waitForRoom input
  | allFed pc next =>
      simp only [PcInv, pc] at hwaits
      exact { h.toSound.setPc _ with waits := ⟨List.Sublist.refl _, next, hwaits⟩ }
  | raced parses pc settled => exact h.toSound.waitForRoom input
  | awaited job pc ended => exact h.toSound.waitForRoom input
  | allParsed parses pc settled =>
      simp only [PcInv, pc] at hwaits
      obtain ⟨hsub, hrest, hlen⟩ := hwaits
      have hempty : s.inFlight = [] := List.eq_nil_iff_forall_not_mem.mpr fun seq hm =>
        settled seq (hsub.subset hm) hm
      exact { h.toSound.flushOrdered.setPc _ with waits := ⟨hempty, rfl, hrest, hlen⟩ }
  | finish job pc ended =>
      unfold Dispatch.finish
      split
      · exact { h.toSound.setPc _ with waits := trivial }
      · split
        · exact { (h.toSound.noteFailure _).setPc _ with waits := trivial }
        · exact { h.toSound.setPc _ with waits := trivial }
  | directFailed position f result error pc throws =>
      have hs : Sound (s.endStore position) := { h.toSound with }
      exact { (hs.noteFailure error).setPc _ with waits := trivial }
  | directStored position f result pc ok =>
      simp only [PcInv, pc] at hwaits
      exact { h with waits := hwaits.1 }
  | parsed seq parsing =>
      exact { h.toSound.parsed seq with waits := h.parsed_waits parsing }
  | untracked seq tracked settled =>
      exact { h.toSound.untracked settled with waits := h.untracked_waits tracked }
  | jobEnded pending idle blocked =>
      exact { h with
        jobs_le := pending
        storing_job := fun hs => (hs idle).elim
        wake := fun _ => blocked
        waits := hwaits }
  | committing slot pending idle clean found =>
      exact { h.toSound.committing pending clean found with
        waits := h.shorter_waits List.erase_sublist.length_le rfl rfl rfl rfl }
  | commitFailed slot error storing throws =>
      have hj := h.storing_job (by simp [storing])
      exact { h.toSound.noteFailure error with
        jobs_le := hj
        storing_job := fun hs => (hs rfl).elim
        storing_clean := fun hs => (hs rfl).elim
        storing_fed := fun _ hs => by cases hs
        wake := fun _ => Or.inl rfl
        waits := hwaits }
  | committed slot storing ok =>
      have hj := h.storing_job (by simp [storing])
      exact { h with
        storing_job := fun hs => (hs rfl).elim
        storing_clean := fun hs => (hs rfl).elim
        storing_fed := fun _ hs => by cases hs
        wake := fun hdone => by
          change s.jobsDone = s.jobs at hdone
          omega
        waits := hwaits }

/-! ## What is left to do -/

/-- The files the dispatch loop has not got past. -/
def ahead (s : Dispatch) : List SourceFile :=
  match s.pc with
  | .storing _ f _ => f :: s.rest
  | _ => s.rest

/-- The files whose commit has not begun. -/
def uncommitted (s : Dispatch) : List SourceFile := s.window.map Slot.file ++ s.ahead

/-- The pc of a dispatch loop in `feed`, or back from it. -/
def Feeding (pc : Pc) : Prop :=
  (∀ outcome, pc ≠ .done outcome) ∧ ∀ position f result, pc ≠ .storing position f result

/-- The backpressure loop moves nothing but the pc and may append a commit job. -/
theorem waitForRoom_frame (windowSize : Nat) (s : Dispatch) :
    ∃ pc jobs, Feeding pc ∧ s.waitForRoom windowSize = { s with pc, jobs } := by
  rcases s.waitForRoom_cases windowSize with ⟨_, he⟩ | ⟨_, _, he⟩ | ⟨_, _, he⟩
  · exact ⟨.dispatch, s.jobs, by simp [Feeding], he⟩
  · exact ⟨.racing s.inFlight, s.jobs, by simp [Feeding], he⟩
  · exact ⟨.awaiting (s.jobs + 1), s.jobs + 1, by simp [Feeding], he⟩

theorem ahead_of_feeding {s : Dispatch} (h : Feeding s.pc) : s.ahead = s.rest := by
  unfold ahead
  split
  · rename_i position f result hpc
    exact (h.2 _ _ _ hpc).elim
  · rfl

theorem not_done_waitForRoom (windowSize : Nat) (s : Dispatch) (outcome : Outcome) :
    (s.waitForRoom windowSize).pc ≠ .done outcome := by
  obtain ⟨pc, jobs, hpc, he⟩ := s.waitForRoom_frame windowSize
  rw [he]
  exact hpc.1 outcome

/-! ## The loop is never stuck before its end -/

/-- A parse in flight either settles or is removed. -/
theorem inFlight_open (input : Input) {s : Dispatch} (h : s.inFlight ≠ []) :
    ∃ label, label ≠ .main ∧ label ≠ .directSettles ∧ step input s label ≠ none := by
  obtain ⟨seq, hm⟩ := List.exists_mem_of_ne_nil _ h
  cases hp : s.isParsing seq with
  | true => exact ⟨.parseSettles seq, by simp [step, parseStep, hp]⟩
  | false => exact ⟨.untracks seq, by simp [step, untrackStep, hp, hm]⟩

/-- A pending commit job goes on, or its store settles. -/
theorem job_open (input : Input) {s : Dispatch} (h : s.jobsDone < s.jobs) :
    ∃ label, label ≠ .main ∧ label ≠ .directSettles ∧ step input s label ≠ none := by
  cases hs : s.storing with
  | none =>
      refine ⟨.chain, by simp, by simp, ?_⟩
      simp only [step, chainStep, h, hs, and_self, if_true]
      split
      · simp
      · split <;> simp
  | some slot =>
      refine ⟨.storeSettles, by simp, by simp, ?_⟩
      simp only [step, storeStep, hs]
      split <;> simp

/-- Only the end of `indexAll` accepts no step. -/
theorem stuck_done {input : Input} {s : Dispatch} (hw : WellFormed input s)
    (stuck : (step input).Stuck s) : ∃ outcome, s.pc = .done outcome := by
  have hflight : s.inFlight = [] := by
    by_contra h
    obtain ⟨label, _, _, hopen⟩ := inFlight_open input h
    exact hopen (stuck label)
  have hjobs : s.jobsDone = s.jobs := by
    by_contra h
    have hlt : s.jobsDone < s.jobs := Nat.lt_of_le_of_ne hw.jobs_le h
    obtain ⟨label, _, _, hopen⟩ := job_open input hlt
    exact hopen (stuck label)
  have hmain : s.mainStep input = none := stuck .main
  have hdirect : s.directStep = none := stuck .directSettles
  have hwaits := hw.waits
  cases hpc : s.pc with
  | dispatch => cases hr : s.rest <;> simp [mainStep, hpc, hr] at hmain
  | racing parses =>
      simp only [PcInv, hpc] at hwaits
      obtain ⟨seq, hm⟩ := List.exists_mem_of_ne_nil _ hwaits.1
      simp only [mainStep, hpc] at hmain
      rw [if_pos ⟨seq, hm, by simp [hflight]⟩] at hmain
      cases hmain
  | awaiting job =>
      simp only [PcInv, hpc] at hwaits
      simp [mainStep, hpc, hwaits.2, hjobs] at hmain
  | storing position f result =>
      simp only [directStep, hpc] at hdirect
      split at hdirect <;> cases hdirect
  | settling parses => simp [mainStep, hpc, hflight] at hmain
  | flushing job =>
      simp only [PcInv, hpc] at hwaits
      simp [mainStep, hpc, hwaits.2.1, hjobs] at hmain
  | done outcome => exact ⟨outcome, rfl⟩

end Dispatch

end AfyxGraph.Bulk
