import Mathlib.Data.List.Basic
import Mathlib.Data.Rat.Floor

/-! # Reconciling the file system with the tracked files

`reconcileSources` asks the file system about every tracked file and then about
every current one. The file system may change between two calls, so its answers
are read off a clock of loop turns: an answer is given to a path at a turn.
-/

namespace AfyxGraph.Extraction.Reconciliation

structure SourceStat where
  size : Nat
  mtimeMs : ℚ
  deriving DecidableEq, Repr

/-- What reconciliation reads of a persisted file record. -/
structure FileRecord where
  path : String
  contentHash : String
  size : Nat
  modifiedAt : ℚ
  deriving DecidableEq, Repr

/-- The answers of the file system at each turn. A call that answers nothing
throws. -/
structure ReconciliationIO where
  fileExists : (turn : Nat) → (filePath : String) → Bool
  stat : (turn : Nat) → (filePath : String) → Option SourceStat
  read : (turn : Nat) → (filePath : String) → Option String

structure ReconciliationInput where
  currentFiles : List String
  trackedFiles : List FileRecord
  filesChecked : Nat
  io : ReconciliationIO
  hash : String → String

inductive ReadOperation where
  | stat | read
  deriving DecidableEq, Repr

/-- The local variables of `reconcileSources`, with the calls of `onRemove` and
`onReadFailure` in order. -/
structure Progress where
  checks : Nat := 0
  removed : List FileRecord := []
  readFailures : List (String × ReadOperation) := []
  filesToIndex : List String := []
  changedFilePaths : List String := []
  failedFilePaths : List String := []
  filesAdded : Nat := 0
  filesModified : Nat := 0
  filesRemoved : Nat := 0
  deriving DecidableEq, Repr

structure ReconciliationResult where
  filesChecked : Nat
  filesAdded : Nat
  filesModified : Nat
  filesRemoved : Nat
  filesToIndex : List String
  changedFilePaths : List String
  failedFilePaths : List String
  deriving DecidableEq, Repr

namespace Progress

def remove (p : Progress) (tracked : FileRecord) : Progress :=
  { p with removed := p.removed ++ [tracked], filesRemoved := p.filesRemoved + 1 }

def fail (p : Progress) (filePath : String) (operation : ReadOperation) : Progress :=
  { p with
    readFailures := p.readFailures ++ [(filePath, operation)]
    failedFilePaths := p.failedFilePaths ++ [filePath] }

def push (p : Progress) (filePath : String) : Progress :=
  { p with
    filesToIndex := p.filesToIndex ++ [filePath]
    changedFilePaths := p.changedFilePaths ++ [filePath] }

end Progress

namespace ReconciliationInput

/-- `trackedMap.get`: the last record of a path replaces the earlier ones. -/
def tracked (input : ReconciliationInput) (filePath : String) : Option FileRecord :=
  input.trackedFiles.reverse.find? (·.path == filePath)

/-- The stat agrees with the record in size and whole milliseconds. -/
def sameStat (stat : SourceStat) (record : FileRecord) : Bool :=
  stat.size == record.size && stat.mtimeMs.floor == record.modifiedAt.floor

/-- One turn of the loop over the tracked files. -/
def checkTracked (input : ReconciliationInput) (p : Progress) (record : FileRecord) : Progress :=
  let p :=
    if !input.currentFiles.contains record.path || !input.io.fileExists p.checks record.path then
      p.remove record
    else p
  { p with checks := p.checks + 1 }

/-- The part of a turn that reads the file, once the stat has not settled it. -/
def checkContent (input : ReconciliationInput) (p : Progress) (filePath : String) : Progress :=
  match input.io.read p.checks filePath with
  | none => p.fail filePath .read
  | some content =>
      match input.tracked filePath with
      | none => { p.push filePath with filesAdded := p.filesAdded + 1 }
      | some record =>
          if record.contentHash != input.hash content then
            { p.push filePath with filesModified := p.filesModified + 1 }
          else p

/-- One turn of the loop over the current files. -/
def checkCurrent (input : ReconciliationInput) (p : Progress) (filePath : String) : Progress :=
  let p := { p with checks := p.checks + 1 }
  match input.tracked filePath with
  | none => input.checkContent p filePath
  | some record =>
      match input.io.stat p.checks filePath with
      | none => p.fail filePath .stat
      | some stat => if sameStat stat record then p else input.checkContent p filePath

def afterTracked (input : ReconciliationInput) : Progress :=
  input.trackedFiles.foldl input.checkTracked {}

/-- Both loops. -/
def progress (input : ReconciliationInput) : Progress :=
  input.currentFiles.foldl input.checkCurrent input.afterTracked

def reconcileSources (input : ReconciliationInput) : ReconciliationResult where
  filesChecked := input.filesChecked
  filesAdded := input.progress.filesAdded
  filesModified := input.progress.filesModified
  filesRemoved := input.progress.filesRemoved
  filesToIndex := input.progress.filesToIndex
  changedFilePaths := input.progress.changedFilePaths
  failedFilePaths := input.progress.failedFilePaths

/-- The records handed to `onRemove`. -/
def removed (input : ReconciliationInput) : List FileRecord := input.progress.removed

/-! ## What a turn finds -/

/-- The turn at which the tracked file at a position is looked for. -/
def trackedTurn (_input : ReconciliationInput) (position : Nat) : Nat := position

/-- The turn at which the current file at a position is compared. -/
def currentTurn (input : ReconciliationInput) (position : Nat) : Nat :=
  input.trackedFiles.length + position + 1

/-- The stat or the content agrees with the record. -/
def Agrees (input : ReconciliationInput) (turn : Nat) (record : FileRecord) : Prop :=
  ∃ stat, input.io.stat turn record.path = some stat ∧ (sameStat stat record = true ∨
    ∃ content, input.io.read turn record.path = some content ∧
      record.contentHash = input.hash content)

/-- A path with a record that the file system agrees with at the turn. -/
def FoundUnchanged (input : ReconciliationInput) (turn : Nat) (filePath : String) : Prop :=
  ∃ record, input.tracked filePath = some record ∧ input.Agrees turn record

/-- The path ends among the files to index or among the failed ones. -/
def Accounted (p : Progress) (filePath : String) : Prop :=
  filePath ∈ p.filesToIndex ∨ filePath ∈ p.failedFilePaths

variable {input : ReconciliationInput}

theorem tracked_path {filePath : String} {record : FileRecord}
    (h : input.tracked filePath = some record) : record.path = filePath := by
  have hfound := List.find?_some h
  simpa using hfound

theorem tracked_mem {filePath : String} {record : FileRecord}
    (h : input.tracked filePath = some record) : record ∈ input.trackedFiles := by
  have hmem := List.mem_of_find?_eq_some h
  simpa using hmem

theorem tracked_eq_none {filePath : String} :
    input.tracked filePath = none ↔ filePath ∉ input.trackedFiles.map (·.path) := by
  simp [tracked]

/-- How one step over a current file changes the lists. -/
inductive Visits (input : ReconciliationInput) (filePath : String) (p q : Progress) : Prop where
  | unchanged (found : input.FoundUnchanged (p.checks + 1) filePath)
      (toIndex : q.filesToIndex = p.filesToIndex)
      (failed : q.failedFilePaths = p.failedFilePaths)
      (count : q.filesAdded + q.filesModified = p.filesAdded + p.filesModified)
  | listed (changed : ¬ input.FoundUnchanged (p.checks + 1) filePath)
      (toIndex : q.filesToIndex = p.filesToIndex ++ [filePath])
      (failed : q.failedFilePaths = p.failedFilePaths)
      (count : q.filesAdded + q.filesModified = p.filesAdded + p.filesModified + 1)
  | failed (changed : ¬ input.FoundUnchanged (p.checks + 1) filePath)
      (toIndex : q.filesToIndex = p.filesToIndex)
      (failed : q.failedFilePaths = p.failedFilePaths ++ [filePath])
      (count : q.filesAdded + q.filesModified = p.filesAdded + p.filesModified)

/-- A file whose stat did not settle it, read at the turn the clock shows. -/
theorem checkContent_visits {filePath : String} {p q : Progress} (hchecks : q.checks = p.checks + 1)
    (hindex : q.filesToIndex = p.filesToIndex) (hfailed : q.failedFilePaths = p.failedFilePaths)
    (hadded : q.filesAdded = p.filesAdded) (hmodified : q.filesModified = p.filesModified)
    (hstat : ∀ record, input.tracked filePath = some record →
      ∃ stat, input.io.stat (p.checks + 1) filePath = some stat ∧ sameStat stat record = false) :
    Visits input filePath p (input.checkContent q filePath) := by
  simp only [checkContent, hchecks]
  cases hread : input.io.read (p.checks + 1) filePath with
  | none =>
      refine .failed ?_ hindex (by simp [Progress.fail, hfailed])
        (by simp [Progress.fail, hadded, hmodified])
      rintro ⟨record, hrecord, hagrees⟩
      obtain ⟨stat, hs, hdiffers⟩ := hstat record hrecord
      obtain ⟨stat', hs', hsame | ⟨content, hcontent, -⟩⟩ := hagrees
      · rw [tracked_path hrecord, hs] at hs'
        cases hs'
        simp [hdiffers] at hsame
      · rw [tracked_path hrecord, hread] at hcontent
        cases hcontent
  | some content =>
      cases hrecord : input.tracked filePath with
      | none =>
          refine .listed ?_ (by simp [Progress.push, hindex]) hfailed
            (by simp only [Progress.push, hadded, hmodified]; omega)
          rintro ⟨record, hsome, -⟩
          rw [hrecord] at hsome
          cases hsome
      | some record =>
          obtain ⟨stat, hs, hdiffers⟩ := hstat record hrecord
          have hpath := tracked_path hrecord
          by_cases hhash : record.contentHash = input.hash content
          · simp only [hhash, bne_self_eq_false, Bool.false_eq_true, if_false]
            refine .unchanged ⟨record, hrecord, stat, ?_, .inr ⟨content, ?_, hhash⟩⟩ hindex hfailed
              (by rw [hadded, hmodified])
            · rw [hpath]
              exact hs
            · rw [hpath]
              exact hread
          · simp only [bne_iff_ne, ne_eq, hhash, not_false_eq_true, if_true]
            refine .listed ?_ (by simp [Progress.push, hindex]) hfailed
              (by simp only [Progress.push, hadded, hmodified]; omega)
            rintro ⟨record', hsome, stat', hs', hagrees⟩
            cases hrecord.symm.trans hsome
            rw [hpath] at hs' hagrees
            cases hs.symm.trans hs'
            rcases hagrees with hsame | ⟨content', hcontent, heq⟩
            · simp [hdiffers] at hsame
            · cases hread.symm.trans hcontent
              exact hhash heq

/-- What a turn over the current files does. -/
theorem checkCurrent_visits (input : ReconciliationInput) (p : Progress) (filePath : String) :
    Visits input filePath p (input.checkCurrent p filePath) := by
  simp only [checkCurrent]
  cases hrecord : input.tracked filePath with
  | none =>
      show Visits input filePath p (input.checkContent { p with checks := p.checks + 1 } filePath)
      refine checkContent_visits rfl rfl rfl rfl rfl ?_
      intro record hsome
      rw [hrecord] at hsome
      cases hsome
  | some record =>
      have hpath := tracked_path hrecord
      cases hstat : input.io.stat (p.checks + 1) filePath with
      | none =>
          refine .failed ?_ rfl rfl rfl
          rintro ⟨record', hsome, stat, hs, -⟩
          rw [tracked_path hsome, hstat] at hs
          cases hs
      | some stat =>
          cases hsame : sameStat stat record with
          | true =>
              simp only [hsame, if_true]
              refine .unchanged ⟨record, hrecord, stat, ?_, .inl hsame⟩ rfl rfl rfl
              rw [hpath]
              exact hstat
          | false =>
              simp only [hsame, Bool.false_eq_true, if_false]
              refine checkContent_visits rfl rfl rfl rfl rfl ?_
              intro record' hsome
              cases hrecord.symm.trans hsome
              exact ⟨stat, hstat, hsame⟩

/-! ## The loop over the current files -/

@[simp] theorem checkContent_checks (p : Progress) (filePath : String) :
    (input.checkContent p filePath).checks = p.checks := by
  simp only [checkContent]
  repeat' split
  all_goals rfl

@[simp] theorem checkCurrent_checks (p : Progress) (filePath : String) :
    (input.checkCurrent p filePath).checks = p.checks + 1 := by
  simp only [checkCurrent]
  repeat' split
  all_goals first | rfl | exact checkContent_checks _ _

theorem checkContent_removed (p : Progress) (filePath : String) :
    (input.checkContent p filePath).removed = p.removed := by
  simp only [checkContent]
  repeat' split
  all_goals rfl

theorem checkCurrent_removed (p : Progress) (filePath : String) :
    (input.checkCurrent p filePath).removed = p.removed := by
  simp only [checkCurrent]
  repeat' split
  all_goals first | rfl | exact checkContent_removed _ _

theorem removed_foldl (files : List String) (p : Progress) :
    (files.foldl input.checkCurrent p).removed = p.removed := by
  induction files generalizing p with
  | nil => rfl
  | cons filePath files ih =>
      rw [List.foldl_cons, ih, checkCurrent_removed]

theorem count_foldl (files : List String) (p : Progress)
    (h : p.filesAdded + p.filesModified = p.filesToIndex.length) :
    (files.foldl input.checkCurrent p).filesAdded + (files.foldl input.checkCurrent p).filesModified =
      (files.foldl input.checkCurrent p).filesToIndex.length := by
  induction files generalizing p with
  | nil => exact h
  | cons filePath files ih =>
      apply ih
      cases checkCurrent_visits input p filePath with
      | unchanged _ hindex _ hcount => rw [hindex, hcount, h]
      | listed _ hindex _ hcount => rw [hindex, hcount, h, List.length_append, List.length_singleton]
      | failed _ hindex _ hcount => rw [hindex, hcount, h]

/-- A turn accounts for its path exactly when it does not find it unchanged, and
keeps what is accounted for. -/
theorem accounted_checkCurrent (p : Progress) (filePath other : String) :
    Accounted (input.checkCurrent p filePath) other ↔ Accounted p other ∨
      (filePath = other ∧ ¬ input.FoundUnchanged (p.checks + 1) filePath) := by
  cases checkCurrent_visits input p filePath with
  | unchanged found hindex hfailed _ => simp [Accounted, hindex, hfailed, found]
  | listed changed hindex hfailed _ =>
      simp only [Accounted, hindex, hfailed, changed, List.mem_append, List.mem_singleton,
        not_false_eq_true, and_true]
      rw [eq_comm (a := other), or_right_comm]
  | failed changed hindex hfailed _ =>
      simp only [Accounted, hindex, hfailed, changed, List.mem_append, List.mem_singleton,
        not_false_eq_true, and_true]
      rw [eq_comm (a := other), or_assoc]

theorem accounted_foldl (files : List String) (p : Progress) (filePath : String) :
    Accounted (files.foldl input.checkCurrent p) filePath ↔ Accounted p filePath ∨
      ∃ position, files[position]? = some filePath ∧
        ¬ input.FoundUnchanged (p.checks + position + 1) filePath := by
  induction files generalizing p with
  | nil => simp
  | cons first files ih =>
      rw [List.foldl_cons, ih, accounted_checkCurrent, checkCurrent_checks, or_assoc]
      apply or_congr_right
      constructor
      · rintro (⟨rfl, hchanged⟩ | ⟨position, hat, hchanged⟩)
        · exact ⟨0, rfl, hchanged⟩
        · refine ⟨position + 1, hat, ?_⟩
          rwa [show p.checks + (position + 1) + 1 = p.checks + 1 + position + 1 by omega]
      · rintro ⟨position, hat, hchanged⟩
        cases position with
        | zero =>
            cases hat
            exact .inl ⟨rfl, hchanged⟩
        | succ position =>
            refine .inr ⟨position, hat, ?_⟩
            rwa [show p.checks + 1 + position + 1 = p.checks + (position + 1) + 1 by omega]

/-! ## The loop over the tracked files -/

/-- What the first loop leaves for the second: the clock, and nothing found. -/
theorem foldl_checkTracked_frame (input : ReconciliationInput) (files : List FileRecord) (p : Progress) :
    (files.foldl input.checkTracked p).checks = p.checks + files.length ∧
      (files.foldl input.checkTracked p).filesToIndex = p.filesToIndex ∧
      (files.foldl input.checkTracked p).failedFilePaths = p.failedFilePaths ∧
      (files.foldl input.checkTracked p).filesAdded = p.filesAdded ∧
      (files.foldl input.checkTracked p).filesModified = p.filesModified := by
  induction files generalizing p with
  | nil => simp
  | cons record files ih =>
      obtain ⟨hchecks, hindex, hfailed, hadded, hmodified⟩ := ih (input.checkTracked p record)
      rw [List.foldl_cons, hchecks, hindex, hfailed, hadded, hmodified]
      simp only [checkTracked, List.length_cons]
      split
      · exact ⟨by simp only [Progress.remove]; omega, rfl, rfl, rfl, rfl⟩
      · exact ⟨by omega, rfl, rfl, rfl, rfl⟩

/-- The tracked file at a position is handed to `onRemove`. -/
def Removes (input : ReconciliationInput) (turn : Nat) (record : FileRecord) : Prop :=
  record.path ∉ input.currentFiles ∨ input.io.fileExists turn record.path = false

theorem removed_checkTracked (p : Progress) (record other : FileRecord) :
    other ∈ (input.checkTracked p record).removed ↔
      other ∈ p.removed ∨ (record = other ∧ input.Removes p.checks record) := by
  by_cases h : input.Removes p.checks record
  · have hcond : (!input.currentFiles.contains record.path ||
        !input.io.fileExists p.checks record.path) = true := by
      simpa [Removes] using h
    simp only [checkTracked, hcond, if_true, Progress.remove, List.mem_append, List.mem_singleton,
      h, and_true]
    exact or_congr_right eq_comm
  · have hcond : (!input.currentFiles.contains record.path ||
        !input.io.fileExists p.checks record.path) = false := by
      simpa [Removes] using h
    simp only [checkTracked, hcond, Bool.false_eq_true, if_false, h, and_false, or_false]

theorem mem_removed_foldl (files : List FileRecord) (p : Progress) (record : FileRecord) :
    record ∈ (files.foldl input.checkTracked p).removed ↔ record ∈ p.removed ∨
      ∃ position, files[position]? = some record ∧
        input.Removes (p.checks + position) record := by
  induction files generalizing p with
  | nil => simp
  | cons first files ih =>
      have hchecks : (input.checkTracked p first).checks = p.checks + 1 := by
        simp only [checkTracked]
        split <;> rfl
      rw [List.foldl_cons, ih, removed_checkTracked, hchecks, or_assoc]
      apply or_congr_right
      constructor
      · rintro (⟨rfl, hremoves⟩ | ⟨position, hat, hremoves⟩)
        · exact ⟨0, rfl, hremoves⟩
        · refine ⟨position + 1, hat, ?_⟩
          rwa [show p.checks + (position + 1) = p.checks + 1 + position by omega]
      · rintro ⟨position, hat, hremoves⟩
        cases position with
        | zero =>
            cases hat
            exact .inl ⟨rfl, hremoves⟩
        | succ position =>
            refine .inr ⟨position, hat, ?_⟩
            rwa [show p.checks + 1 + position = p.checks + (position + 1) by omega]

/-! ## Both loops -/

theorem mem_removed {record : FileRecord} : record ∈ input.removed ↔
    ∃ position, input.trackedFiles[position]? = some record ∧
      input.Removes (input.trackedTurn position) record := by
  rw [removed, progress, removed_foldl, afterTracked, mem_removed_foldl]
  simp [trackedTurn]

/-- A path is accounted for exactly when some turn does not find it unchanged. -/
theorem accounted_iff {filePath : String} : Accounted input.progress filePath ↔
    ∃ position, input.currentFiles[position]? = some filePath ∧
      ¬ input.FoundUnchanged (input.currentTurn position) filePath := by
  obtain ⟨hchecks, hindex, hfailed, -, -⟩ :=
    foldl_checkTracked_frame input input.trackedFiles {}
  rw [progress, accounted_foldl, afterTracked, hchecks]
  simp only [Accounted, hindex, hfailed, currentTurn, List.not_mem_nil, or_self, false_or,
    Nat.zero_add]

theorem count_progress :
    input.progress.filesAdded + input.progress.filesModified = input.progress.filesToIndex.length := by
  obtain ⟨-, hindex, -, hadded, hmodified⟩ :=
    foldl_checkTracked_frame input input.trackedFiles {}
  apply count_foldl
  rw [afterTracked, hindex, hadded, hmodified]
  rfl

/-- A current path without a record is accounted for. -/
theorem accounted_of_untracked {filePath : String} (hcurrent : filePath ∈ input.currentFiles)
    (h : filePath ∉ input.trackedFiles.map (·.path)) : Accounted input.progress filePath := by
  obtain ⟨position, hat⟩ := List.mem_iff_getElem?.mp hcurrent
  refine accounted_iff.mpr ⟨position, hat, ?_⟩
  rintro ⟨record, hrecord, -⟩
  rw [tracked_eq_none.mpr h] at hrecord
  cases hrecord

/-- What is neither removed nor accounted for agrees with its record whenever it is compared. -/
theorem agrees_of_not_accounted {filePath : String} {record : FileRecord}
    (hrecord : input.tracked filePath = some record)
    (hremoved : filePath ∉ input.removed.map (·.path))
    (h : ¬ Accounted input.progress filePath) :
    filePath ∈ input.currentFiles ∧ ∀ position, input.currentFiles[position]? = some filePath →
      input.Agrees (input.currentTurn position) record := by
  have hpath := tracked_path hrecord
  constructor
  · by_contra hcurrent
    obtain ⟨position, hat⟩ := List.mem_iff_getElem?.mp (tracked_mem hrecord)
    have hmem : record ∈ input.removed :=
      mem_removed.mpr ⟨position, hat, .inl (by rw [hpath]; exact hcurrent)⟩
    exact hremoved (List.mem_map.mpr ⟨record, hmem, hpath⟩)
  · intro position hat
    by_contra hdiffers
    refine h (accounted_iff.mpr ⟨position, hat, ?_⟩)
    rintro ⟨record', hrecord', hagrees⟩
    cases hrecord.symm.trans hrecord'
    exact hdiffers hagrees

/-! ## No file is lost -/

/-- Every file ends where the next index run, or the caller, will see it. -/
structure LosesNoFile (input : ReconciliationInput) : Prop where
  removed : ∀ record ∈ input.removed, record.path ∈ input.currentFiles →
    record.path ∈ input.reconcileSources.filesToIndex ∨
      record.path ∈ input.reconcileSources.failedFilePaths
  untracked : ∀ filePath ∈ input.currentFiles, filePath ∉ input.trackedFiles.map (·.path) →
    filePath ∈ input.reconcileSources.filesToIndex ∨
      filePath ∈ input.reconcileSources.failedFilePaths
  counted : input.reconcileSources.filesAdded + input.reconcileSources.filesModified =
    input.reconcileSources.filesToIndex.length
  unchanged : ∀ filePath record, input.tracked filePath = some record →
    filePath ∉ input.removed.map (·.path) →
    filePath ∉ input.reconcileSources.filesToIndex →
    filePath ∉ input.reconcileSources.failedFilePaths →
    filePath ∈ input.currentFiles ∧ ∀ position, input.currentFiles[position]? = some filePath →
      input.Agrees (input.currentTurn position) record

/-- A tracked file that was missing in the first loop is not found as its record
has it by every turn of the second. -/
def MissingStaysChanged (input : ReconciliationInput) : Prop :=
  ∀ (position : Nat) (record : FileRecord), input.trackedFiles[position]? = some record →
    record.path ∈ input.currentFiles →
    input.io.fileExists (input.trackedTurn position) record.path = false →
    ∃ later, input.currentFiles[later]? = some record.path ∧
      ¬ input.FoundUnchanged (input.currentTurn later) record.path

/-- Reconciliation loses a file exactly when the file is missing while the tracked
files are looked for and back, unchanged, when the current files are compared. -/
theorem losesNoFile_iff (input : ReconciliationInput) :
    input.LosesNoFile ↔ input.MissingStaysChanged := by
  constructor
  · intro h position record hat hcurrent hmissing
    have hremoved : record ∈ input.removed := mem_removed.mpr ⟨position, hat, .inr hmissing⟩
    exact accounted_iff.mp (h.removed record hremoved hcurrent)
  · intro h
    refine ⟨?_, fun filePath => accounted_of_untracked, count_progress, ?_⟩
    · intro record hremoved hcurrent
      obtain ⟨position, hat, habsent | hmissing⟩ := mem_removed.mp hremoved
      · exact (habsent hcurrent).elim
      · exact accounted_iff.mpr (h position record hat hcurrent hmissing)
    · intro filePath record hrecord hremoved hindex hfailed
      exact agrees_of_not_accounted hrecord hremoved (not_or.mpr ⟨hindex, hfailed⟩)

/-- A tracked file that comes back between the two loops. -/
def reappearing : ReconciliationInput where
  currentFiles := ["src/a.ts"]
  trackedFiles := [⟨"src/a.ts", "hash", 12, 1000⟩]
  filesChecked := 1
  io :=
    { fileExists := fun _ _ => false
      stat := fun _ _ => some ⟨12, 1000⟩
      read := fun _ _ => some "export {}" }
  hash := id

theorem not_losesNoFile_reappearing : ¬ reappearing.LosesNoFile := by
  intro h
  have hremoved : reappearing.removed = reappearing.trackedFiles := by decide
  have hlost := h.removed ⟨"src/a.ts", "hash", 12, 1000⟩ (by rw [hremoved]; decide) (by decide)
  revert hlost
  decide

end ReconciliationInput

end AfyxGraph.Extraction.Reconciliation
