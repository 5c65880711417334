import AfyxGraph.Bulk.Invariant

/-! # The books of the parse phase

Files are counted in three places of the parse phase: where a read fails, where
an oversize file is stored, and in the ordered commit. When the phase returns,
the ledger holds one entry for each file, and the errors a retry may look at
stand in the order of the list.
-/

namespace AfyxGraph.Bulk

open AfyxGraph.Core Extraction

/-- `message.includes(pattern)`. -/
def includes (message pattern : String) : Bool :=
  message.toList.tails.any fun tail => pattern.toList.isPrefixOf tail

/-- The filter of the retry pass. -/
def isRetryable (e : ExtractionError) : Bool :=
  e.code == some "parse_error" && e.filePath.getD "" != "" &&
    (includes e.message "Worker exited" || includes e.message "memory access out of bounds" ||
      includes e.message "timed out")

namespace SourceFile

/-- Where the parse phase counts the file. -/
def category (f : SourceFile) : Category :=
  match f.read with
  | .failed _ => .errored
  | .content size =>
      if MAX_FILE_SIZE < size then Tally.categoryOf f.language (f.sizeResult size)
      else Tally.categoryOf f.language f.parseResult

def ledgerEntry (f : SourceFile) : LedgerEntry := ⟨f.path, f.category, 1⟩

/-- The errors of the file that the retry pass looks at. -/
def retryable (f : SourceFile) : List ExtractionError :=
  if f.fed then (f.parseResult.errors.map (Tally.fillPath f.path)).filter isRetryable else []

theorem category_of_fed {f : SourceFile} (h : f.fed = true) :
    f.category = Tally.categoryOf f.language f.parseResult := by
  unfold category
  cases hread : f.read with
  | failed message => simp [fed, unreadable, hread] at h
  | content size =>
      have hsmall : ¬ MAX_FILE_SIZE < size := by
        simpa [fed, unreadable, oversize, hread] using h
      simp [hsmall]

theorem retryable_of_unreadable {f : SourceFile} (h : f.unreadable = true) : f.retryable = [] := by
  simp [retryable, fed, h]

theorem retryable_of_oversize {f : SourceFile} (h : f.oversize = true) : f.retryable = [] := by
  simp [retryable, fed, h]

end SourceFile

namespace Dispatch

/-- The files that are still to be counted. -/
def uncounted (s : Dispatch) : List SourceFile := s.storing.toList.map Slot.file ++ s.uncommitted

/-- Counted and uncounted files together are the files of the run. -/
def Booked (input : Input) (s : Dispatch) : Prop :=
  (s.tally.ledger ++ s.uncounted.map SourceFile.ledgerEntry).Perm
      (input.files.map SourceFile.ledgerEntry) ∧
    (s.tally.errors.map (·.error)).filter isRetryable ++ s.uncounted.flatMap SourceFile.retryable =
      input.files.flatMap SourceFile.retryable

structure Accounted (input : Input) (s : Dispatch) : Prop extends WellFormed input s where
  balanced : s.tally.Balanced
  booked : s.flushError = none → (∀ error, s.pc ≠ .done (.rejected error)) → Booked input s
  direct : ∀ position f result, s.pc = .storing position f result →
    ∃ size, f.read = .content size ∧ MAX_FILE_SIZE < size ∧ result = f.sizeResult size
  returned : s.pc = .done .returned → s.flushError = none ∧ s.uncounted = []

/-- The books do not look at anything else. -/
theorem Booked.of_same {input : Input} {s t : Dispatch} (h : Booked input s)
    (hledger : t.tally.ledger = s.tally.ledger) (herrors : t.tally.errors = s.tally.errors)
    (huncounted : t.uncounted = s.uncounted) : Booked input t := by
  rw [Booked, hledger, herrors, huncounted]
  exact h

/-- A file that is counted moves from the uncounted files to the ledger. -/
theorem Booked.counted {input : Input} {s t : Dispatch} (h : Booked input s) (f : SourceFile)
    (before after : List SourceFile) {errors : List ExtractionError}
    (hs : s.uncounted = before ++ f :: after) (ht : t.uncounted = before ++ after)
    (hledger : t.tally.ledger = s.tally.ledger ++ [f.ledgerEntry])
    (herrors : t.tally.errors.map (·.error) = s.tally.errors.map (·.error) ++ errors)
    (hretry : before = [] ∧ errors.filter isRetryable = f.retryable ∨
      errors.filter isRetryable = [] ∧ f.retryable = []) : Booked input t := by
  obtain ⟨hperm, hlist⟩ := h
  rw [hs] at hperm hlist
  constructor
  · rw [hledger, ht]
    refine List.Perm.trans ?_ hperm
    simp only [List.map_append, List.map_cons, List.append_assoc, List.singleton_append]
    exact List.Perm.append_left _ List.perm_middle.symm
  · rw [herrors, ht, List.filter_append, ← hlist]
    rcases hretry with ⟨rfl, he⟩ | ⟨he, hf⟩
    · simp [he]
    · simp [he, hf]

theorem category_of_read_failed {f : SourceFile} {message : String} (h : f.read = .failed message) :
    f.ledgerEntry = ⟨f.path, .errored, 1⟩ := by
  simp [SourceFile.ledgerEntry, SourceFile.category, h]

theorem ledgerEntry_of_large {f : SourceFile} {size : Nat} (h : f.read = .content size)
    (hlarge : MAX_FILE_SIZE < size) :
    f.ledgerEntry = ⟨f.path, Tally.categoryOf f.language (f.sizeResult size), 1⟩ := by
  simp [SourceFile.ledgerEntry, SourceFile.category, h, hlarge]

theorem sizeResult_not_retryable (f : SourceFile) (size : Nat) :
    ((f.sizeResult size).errors.map (Tally.fillPath f.path)).filter isRetryable = [] := by
  simp only [SourceFile.sizeResult, ExtractionResult.ofError, List.map_cons, List.map_nil,
    Tally.fillPath]
  split <;> simp [isRetryable]

theorem Accounted.waitForRoom {input : Input} {s : Dispatch} (h : Accounted input s)
    (hpc : Feeding s.pc) (hw : WellFormed input (s.waitForRoom input.windowSize)) :
    Accounted input (s.waitForRoom input.windowSize) := by
  obtain ⟨pc, jobs, hfeeding, he⟩ := s.waitForRoom_frame input.windowSize
  rw [he] at hw ⊢
  refine { hw with
    balanced := h.balanced
    booked := fun hclean _ => ?_
    direct := fun position f result hstoring => (hfeeding.2 _ _ _ hstoring).elim
    returned := fun hdone => (hfeeding.1 _ hdone).elim }
  refine (h.booked hclean fun error => hpc.1 _).of_same rfl rfl ?_
  rw [uncounted, uncounted, uncommitted, uncommitted, ahead_of_feeding hpc,
    ahead_of_feeding hfeeding]

theorem Accounted.feed {input : Input} {s : Dispatch} (h : Accounted input s) {f : SourceFile}
    {rest : List SourceFile} (hpc : s.pc = .dispatch) (hrest : s.rest = f :: rest)
    (hf : f.fed = true) : Accounted input
      (({ s with rest, position := s.position + 1 }.feed s.position f).waitForRoom
        input.windowSize) := by
  have hw := step_wellFormed h.toWellFormed (.feed f rest hpc hrest hf)
  obtain ⟨pc, jobs, hfeeding, he⟩ := waitForRoom_frame input.windowSize
    ({ s with rest, position := s.position + 1 }.feed s.position f)
  rw [he] at hw ⊢
  refine { hw with
    balanced := h.balanced
    booked := fun hclean _ => ?_
    direct := fun position f result hstoring => (hfeeding.2 _ _ _ hstoring).elim
    returned := fun hdone => (hfeeding.1 _ hdone).elim }
  refine (h.booked hclean (by simp [hpc])).of_same rfl rfl ?_
  rw [uncounted, uncommitted, ahead_of_feeding hfeeding]
  simp [uncounted, uncommitted, ahead, hpc, hrest, Dispatch.feed]

theorem Accounted.finish {input : Input} {s : Dispatch} (h : Accounted input s) {job : Nat}
    (hpc : s.pc = .flushing job) (ended : job ≤ s.jobsDone) :
    Accounted input (s.finish input.drainError) := by
  have hw := step_wellFormed h.toWellFormed (.finish job hpc ended)
  have hwaits := h.waits
  simp only [PcInv, hpc] at hwaits
  obtain ⟨hflight, rfl, hrest, _⟩ := hwaits
  have hdone := drained h.toSound hflight (Nat.le_antisymm h.jobs_le ended)
  unfold Dispatch.finish at hw ⊢
  cases hflush : s.flushError with
  | some error =>
      simp only [hflush] at hw ⊢
      exact { hw with
        balanced := h.balanced
        booked := fun hclean => by simp at hclean
        direct := fun _ _ _ hstoring => by cases hstoring
        returned := fun hreturned => by cases hreturned }
  | none =>
      simp only [hflush] at hw ⊢
      cases hdrain : input.drainError with
      | some error =>
          simp only [hdrain] at hw ⊢
          exact { hw with
            balanced := h.balanced
            booked := fun _ hopen => (hopen error rfl).elim
            direct := fun _ _ _ hstoring => by cases hstoring
            returned := fun hreturned => by cases hreturned }
      | none =>
          simp only [hdrain] at hw ⊢
          have hnothing : s.uncounted = [] := by
            simp [uncounted, uncommitted, ahead, hpc, hrest, hdone.1, hdone.2 hflush]
          have hsame : uncounted { s with flushError := none, pc := .done .returned } = [] := by
            simpa [uncounted, uncommitted, ahead, hpc] using hnothing
          exact { hw with
            balanced := h.balanced
            booked := fun _ _ => (h.booked hflush (by simp [hpc])).of_same rfl rfl
              (hsame.trans hnothing.symm)
            direct := fun _ _ _ hstoring => by cases hstoring
            returned := fun _ => ⟨rfl, hsame⟩ }

theorem step_accounted {input : Input} {s t : Dispatch} (h : Accounted input s)
    (he : Effect input s t) : Accounted input t := by
  have hw := step_wellFormed h.toWellFormed he
  cases he with
  | unreadable f rest message pc next read =>
      obtain ⟨hledger, herrors, hcounter⟩ := s.tally.readFailed_frame f.path message
      have hahead : s.ahead = f :: rest := by simp [ahead, pc, next]
      refine { hw with
        balanced := h.balanced.of_counted hledger hcounter
        booked := fun hclean hopen => ?_
        direct := fun position g result hpc => by simp [pc] at hpc
        returned := fun hpc => by simp [pc] at hpc }
      refine (h.booked hclean hopen).counted f
        (s.storing.toList.map Slot.file ++ s.window.map Slot.file) rest
        ?_ ?_ ?_ herrors (Or.inr ⟨?_, ?_⟩)
      · simp [uncounted, uncommitted, hahead]
      · simp [uncounted, uncommitted, ahead, pc]
      · rw [hledger, category_of_read_failed read]
      · simp [isRetryable]
      · exact SourceFile.retryable_of_unreadable (by simp [SourceFile.unreadable, read])
  | oversize f rest size pc next read large =>
      refine { hw with
        balanced := fun category => h.balanced category
        booked := fun hclean _ => ?_
        direct := fun position g result hpc => ?_
        returned := fun hpc => by simp at hpc }
      · refine (h.booked hclean (by simp [pc])).of_same rfl rfl ?_
        simp [uncounted, uncommitted, ahead, pc, next, beginStore]
      · cases hpc
        exact ⟨size, read, large, rfl⟩
  | feed f rest pc next fed => exact h.feed pc next fed
  | allFed pc next =>
      refine { hw with
        balanced := h.balanced
        booked := fun hclean _ => (h.booked hclean (by simp [pc])).of_same rfl rfl ?_
        direct := fun _ _ _ hstoring => by cases hstoring
        returned := fun hreturned => by cases hreturned }
      simp [uncounted, uncommitted, ahead, pc]
  | raced parses pc settled => exact h.waitForRoom (by simp [Feeding, pc]) hw
  | awaited job pc ended => exact h.waitForRoom (by simp [Feeding, pc]) hw
  | allParsed parses pc settled =>
      refine { hw with
        balanced := h.balanced
        booked := fun hclean _ => (h.booked hclean (by simp [pc])).of_same rfl rfl ?_
        direct := fun _ _ _ hstoring => by cases hstoring
        returned := fun hreturned => by cases hreturned }
      simp [uncounted, uncommitted, ahead, pc, flushOrdered]
  | finish job pc ended => exact h.finish pc ended
  | directFailed position f result error pc throws =>
      exact { hw with
        balanced := h.balanced
        booked := fun _ hopen => (hopen error rfl).elim
        direct := fun _ _ _ hstoring => by cases hstoring
        returned := fun hreturned => by cases hreturned }
  | directStored position f result pc ok =>
      obtain ⟨size, read, large, rfl⟩ := h.direct position f result pc
      obtain ⟨hledger, herrors, hcounter⟩ :=
        s.tally.stored_frame f.path f.language (f.sizeResult size)
      refine { hw with
        balanced := h.balanced.of_counted hledger hcounter
        booked := fun hclean _ => ?_
        direct := fun _ _ _ hstoring => by cases hstoring
        returned := fun hreturned => by cases hreturned }
      refine (h.booked hclean (by simp [pc])).counted f
        (s.storing.toList.map Slot.file ++ s.window.map Slot.file) s.rest
        ?_ ?_ ?_ herrors (Or.inr ⟨sizeResult_not_retryable f size, ?_⟩)
      · simp [uncounted, uncommitted, ahead, pc]
      · simp [uncounted, uncommitted, ahead, endStore]
      · rw [ledgerEntry_of_large read large]
        exact hledger
      · exact SourceFile.retryable_of_oversize (by simp [SourceFile.oversize, read, large])
  | parsed seq parsing =>
      have hsame : uncounted { s.flushOrdered with window := s.window.map (Slot.complete seq) } =
          s.uncounted := by
        simp [uncounted, uncommitted, ahead, flushOrdered, Function.comp_def]
      exact { hw with
        balanced := h.balanced
        booked := fun hclean hopen => (h.booked hclean hopen).of_same rfl rfl hsame
        direct := h.direct
        returned := fun hreturned =>
          ⟨(h.returned hreturned).1, hsame.trans (h.returned hreturned).2⟩ }
  | untracked seq tracked settled =>
      exact { hw with
        balanced := h.balanced, booked := h.booked, direct := h.direct, returned := h.returned }
  | jobEnded pending idle blocked =>
      exact { hw with
        balanced := h.balanced, booked := h.booked, direct := h.direct, returned := h.returned }
  | committing slot pending idle clean found =>
      obtain ⟨_, window, hwin⟩ := completedAt_eq_some h.seqs found
      have hsame : uncounted { s.beginStore slot.position with
          window := s.window.erase slot, nextToStore := s.nextToStore + 1
          storing := some slot } = s.uncounted := by
        simp [uncounted, uncommitted, ahead, beginStore, idle, hwin]
      exact { hw with
        balanced := fun category => h.balanced category
        booked := fun hclean hopen => (h.booked hclean hopen).of_same rfl rfl hsame
        direct := h.direct
        returned := fun hreturned =>
          ⟨(h.returned hreturned).1, hsame.trans (h.returned hreturned).2⟩ }
  | commitFailed slot error storing throws =>
      refine { hw with
        balanced := h.balanced
        booked := fun hclean => by cases hclean
        direct := h.direct
        returned := fun hreturned => ?_ }
      have := (h.returned hreturned).2
      simp [uncounted, storing] at this
  | committed slot storing ok =>
      obtain ⟨hledger, herrors, hcounter⟩ :=
        s.tally.stored_frame slot.file.path slot.file.language slot.file.parseResult
      have hfed := h.storing_fed slot storing
      refine { hw with
        balanced := h.balanced.of_counted hledger hcounter
        booked := fun hclean hopen => ?_
        direct := h.direct
        returned := fun hreturned => ?_ }
      · refine (h.booked hclean hopen).counted slot.file [] s.uncommitted ?_ ?_ ?_ herrors
          (Or.inl ⟨rfl, ?_⟩)
        · simp [uncounted, storing]
        · rfl
        · rw [SourceFile.ledgerEntry, SourceFile.category_of_fed hfed]
          exact hledger
        · simp [SourceFile.retryable, hfed]
      · have := (h.returned hreturned).2
        simp [uncounted, storing] at this

/-- When the parse phase returns, every file is in the ledger once and the
retryable errors are those of the files in order. -/
theorem returned_booked {input : Input} {s : Dispatch}
    (hr : (step input).Reaches (init input.files) s) (hpc : s.pc = .done .returned) :
    s.tally.Balanced ∧ s.tally.ledger.Perm (input.files.map SourceFile.ledgerEntry) ∧
      (s.tally.errors.map (·.error)).filter isRetryable =
        input.files.flatMap SourceFile.retryable := by
  have hinit : Accounted input (init input.files) :=
    { init_wellFormed input input.files with
      balanced := fun category => by cases category <;> rfl
      booked := fun _ _ => by
        constructor <;> simp [uncounted, uncommitted, ahead, init]
      direct := fun _ _ _ hstoring => by cases hstoring
      returned := fun hreturned => by cases hreturned }
  have h : Accounted input s :=
    hr.invariant (fun _ _ _ ha ht => step_accounted ha (step_effect ht)) hinit
  obtain ⟨hclean, hnothing⟩ := h.returned hpc
  obtain ⟨hperm, hlist⟩ := h.booked hclean (by simp [hpc])
  rw [hnothing] at hperm hlist
  exact ⟨h.balanced, by simpa using hperm, by simpa using hlist⟩

end Dispatch

end AfyxGraph.Bulk
