import AfyxGraph.Bulk.Accounting
import AfyxGraph.Bulk.Order
import Mathlib.Algebra.BigOperators.Group.List.Basic

/-! # Retries and the sum of the tallies

After the parse phase two passes parse again what failed with a crash or a
timeout. They walk over error entries, not over files: an accepted retry takes
one from the errored files and adds one to the indexed ones, whatever the file
of the entry was counted as. The sum is kept by construction; this module says
when the parts still mean what they say.
-/

namespace AfyxGraph.Bulk

open AfyxGraph.Core Extraction

/-- What happens to one entry of a retry pass. `storeError` is the throw of the
`stat` or of the store behind an accepted result. -/
inductive Attempt where
  | unreadable
  | crashes
  | parsed (result : ExtractionResult) (storeError : Option String)
  deriving DecidableEq

namespace Attempt

def accepted : Attempt → Bool
  | .parsed result _ => decide (0 < result.nodes.length) || result.errors.isEmpty
  | _ => false

def crashed : Attempt → Bool
  | .crashes => true
  | _ => false

@[simp] theorem accepted_unreadable : unreadable.accepted = false := rfl
@[simp] theorem accepted_crashes : crashes.accepted = false := rfl
@[simp] theorem crashed_unreadable : unreadable.crashed = false := rfl
@[simp] theorem crashed_crashes : crashes.crashed = true := rfl

@[simp] theorem crashed_parsed (result : ExtractionResult) (storeError : Option String) :
    (parsed result storeError).crashed = false := rfl

end Attempt

/-- The list a scan returns, each path once, and the pool that parses it. -/
structure Scan where
  files : List SourceFile
  nodup : (files.map SourceFile.path).Nodup
  pool : Option Nat
  drainError : Option String := none

def Scan.input (scan : Scan) : Input where
  files := scan.files
  windowSize := windowSize scan.pool
  windowSize_pos := windowSize_pos scan.pool
  drainError := scan.drainError

def salvagedMessage (message : String) : String :=
  "Indexed from comment-stripped source after repeated parse failures " ++
    "(symbols may be incomplete until the file is re-indexed): " ++ message

namespace Tally

/-- A retry was accepted: its file moves from the errored to the indexed ones. -/
def recover (t : Tally) (path : String) (result : ExtractionResult) : Tally :=
  { t with
    filesErrored := t.filesErrored - 1
    filesIndexed := t.filesIndexed + 1
    totalNodes := t.totalNodes + result.nodes.length
    totalEdges := t.totalEdges + result.edges.length
    ledger := t.ledger ++ [⟨path, .errored, -1⟩, ⟨path, .indexed, 1⟩] }

/-- `errors.splice(errors.indexOf(errEntry), 1)`. -/
def removeError (t : Tally) (id : Nat) : Tally :=
  { t with errors := t.errors.eraseP fun entry => entry.id == id }

/-- The entry of a file salvaged without its comments stays, as a warning. -/
def markSalvaged (t : Tally) (id : Nat) : Tally :=
  { t with errors := t.errors.map fun entry =>
      if entry.id = id then
        { entry with error := { entry.error with
            severity := .warning
            code := some "salvaged_stripped"
            message := salvagedMessage entry.error.message } }
      else entry }

end Tally

namespace ErrorEntry

def path (entry : ErrorEntry) : String := entry.error.filePath.getD ""

end ErrorEntry

/-- The retry on fresh workers; what crashes again is handed to the second pass. -/
def firstPass (attempt : Nat → Attempt) :
    Tally → List (ErrorEntry × Nat) → Except String (Tally × List (ErrorEntry × Nat))
  | t, [] => .ok (t, [])
  | t, (entry, n) :: rest =>
      match attempt n with
      | .unreadable => firstPass attempt t rest
      | .crashes => do
          let (t, stillFailing) ← firstPass attempt t rest
          return (t, (entry, n) :: stillFailing)
      | .parsed result storeError =>
          if (Attempt.parsed result storeError).accepted then
            match storeError with
            | some error => .error error
            | none => firstPass attempt ((t.removeError entry.id).recover entry.path result) rest
          else firstPass attempt t rest

/-- The retry on the source without its comment lines. -/
def secondPass (attempt : Nat → Attempt) :
    Tally → List (ErrorEntry × Nat) → Except String Tally
  | t, [] => .ok t
  | t, (entry, n) :: rest =>
      match attempt n with
      | .unreadable => secondPass attempt t rest
      | .crashes => secondPass attempt t rest
      | .parsed result storeError =>
          if (Attempt.parsed result storeError).accepted then
            match storeError with
            | some error => .error error
            | none => secondPass attempt ((t.markSalvaged entry.id).recover entry.path result) rest
          else secondPass attempt t rest

/-- `indexAll` from the end of the parse phase on. Attempts are given by the
index of their entry among the retryable errors. -/
def retryPasses (pool : Option Nat) (first second : Nat → Attempt) (t : Tally) :
    Except String Tally :=
  let retryableErrors := t.errors.filter fun entry => isRetryable entry.error
  if retryableErrors ≠ [] ∧ pool.isSome = true then do
    let (t, stillFailing) ← firstPass first t retryableErrors.zipIdx
    secondPass second t stillFailing
  else .ok t

structure IndexResult where
  success : Bool
  filesIndexed : Int
  filesSkipped : Int
  filesErrored : Int
  filesDiscovered : Nat
  nodesCreated : Nat
  edgesCreated : Nat
  errors : List ExtractionError

def indexResult (files : List SourceFile) (t : Tally) : IndexResult where
  success := decide (0 < t.filesIndexed) ||
    (t.errors.filter fun entry => entry.error.severity = .error).isEmpty
  filesIndexed := t.filesIndexed
  filesSkipped := t.filesSkipped
  filesErrored := t.filesErrored
  filesDiscovered := files.length
  nodesCreated := t.totalNodes
  edgesCreated := t.totalEdges
  errors := t.errors.map (·.error)

/-! ## The property and its condition -/

/-- Counted in one category, once, and in no other. -/
def Tally.CountedOnce (t : Tally) (path : String) : Prop :=
  ∃ category, ∀ other, t.net path other = if category = other then 1 else 0

structure AddsUp (files : List SourceFile) (t : Tally) : Prop where
  sum : (indexResult files t).filesIndexed + (indexResult files t).filesSkipped +
    (indexResult files t).filesErrored = (indexResult files t).filesDiscovered
  nonneg : ∀ category, 0 ≤ t.counter category
  counted : ∀ f ∈ files, t.CountedOnce f.path

/-- The paths of the entries whose retry is accepted. -/
def recovered (pool : Option Nat) (first second : Nat → Attempt)
    (errors : List ExtractionError) : List String :=
  if pool.isSome then
    ((errors.zipIdx.filter fun e => (first e.2).accepted) ++
      (errors.zipIdx.filter fun e => (first e.2).crashed && (second e.2).accepted)).map
        fun e => e.1.filePath.getD ""
  else []

/-- No discovered file is recovered unless it was counted errored, none is
recovered twice, and no more entries are recovered than files were errored. -/
def RetriesFit (files : List SourceFile) (paths : List String) : Prop :=
  (∀ f ∈ files, paths.count f.path ≤ if f.category = .errored then 1 else 0) ∧
    paths.length ≤ (files.filter fun f => f.category = .errored).length

/-! ## What the passes change -/

def recoveryEntries (path : String) : List LedgerEntry :=
  [⟨path, .errored, -1⟩, ⟨path, .indexed, 1⟩]

/-- What `n` recoveries change in each category. -/
def moved (n : Nat) : Category → Int
  | .indexed => n
  | .skipped => 0
  | .errored => -n

@[simp] theorem moved_indexed (n : Nat) : moved n .indexed = n := rfl
@[simp] theorem moved_skipped (n : Nat) : moved n .skipped = 0 := rfl
@[simp] theorem moved_errored (n : Nat) : moved n .errored = -n := rfl

/-- `t'` is `t` after the recovery of these paths. -/
structure Recovers (paths : List String) (t t' : Tally) : Prop where
  ledger : t'.ledger = t.ledger ++ paths.flatMap recoveryEntries
  counter : ∀ category, t'.counter category = t.counter category + moved paths.length category

theorem Recovers.nil (t : Tally) : Recovers [] t t where
  ledger := by simp
  counter category := by cases category <;> simp

theorem Recovers.append {paths more : List String} {t u v : Tally} (h : Recovers paths t u)
    (h' : Recovers more u v) : Recovers (paths ++ more) t v where
  ledger := by simp [h'.ledger, h.ledger]
  counter category := by
    rw [h'.counter, h.counter]
    cases category <;> simp <;> omega

theorem recovers_removed (t : Tally) (id : Nat) (path : String) (result : ExtractionResult) :
    Recovers [path] t ((t.removeError id).recover path result) where
  ledger := rfl
  counter category := by
    cases category
    · rfl
    · exact (Int.add_zero _).symm
    · rfl

theorem recovers_salvaged (t : Tally) (id : Nat) (path : String) (result : ExtractionResult) :
    Recovers [path] t ((t.markSalvaged id).recover path result) where
  ledger := rfl
  counter category := by
    cases category
    · rfl
    · exact (Int.add_zero _).symm
    · rfl

/-- The first pass recovers the accepted entries and hands on the crashed ones. -/
theorem firstPass_recovers {attempt : Nat → Attempt} {entries : List (ErrorEntry × Nat)} :
    ∀ {t t' : Tally} {failing : List (ErrorEntry × Nat)},
      firstPass attempt t entries = .ok (t', failing) →
        Recovers ((entries.filter fun e => (attempt e.2).accepted).map (·.1.path)) t t' ∧
          failing = entries.filter fun e => (attempt e.2).crashed := by
  induction entries with
  | nil =>
      intro t t' failing h
      cases h
      exact ⟨.nil t, rfl⟩
  | cons e entries ih =>
      obtain ⟨entry, n⟩ := e
      intro t t' failing h
      rw [firstPass] at h
      cases ha : attempt n with
      | unreadable =>
          simp only [ha] at h
          simpa [ha] using ih h
      | crashes =>
          simp only [ha] at h
          cases hrest : firstPass attempt t entries with
          | error error =>
              rw [hrest] at h
              cases h
          | ok pair =>
              rw [hrest] at h
              cases h
              obtain ⟨hrec, hfailing⟩ := ih hrest
              exact ⟨by simpa [ha] using hrec, by simp [ha, hfailing]⟩
      | parsed result storeError =>
          simp only [ha] at h
          cases hacc : (Attempt.parsed result storeError).accepted with
          | false =>
              simp only [hacc, Bool.false_eq_true, if_false] at h
              simpa [ha, hacc] using ih h
          | true =>
              simp only [hacc, if_true] at h
              cases storeError with
              | some error => cases h
              | none =>
                  obtain ⟨hrec, hfailing⟩ := ih h
                  have hstep := (recovers_removed t entry.id entry.path result).append hrec
                  exact ⟨by simpa [ha, hacc] using hstep, by simp [ha, hfailing]⟩

theorem secondPass_recovers {attempt : Nat → Attempt} {entries : List (ErrorEntry × Nat)} :
    ∀ {t t' : Tally}, secondPass attempt t entries = .ok t' →
      Recovers ((entries.filter fun e => (attempt e.2).accepted).map (·.1.path)) t t' := by
  induction entries with
  | nil =>
      intro t t' h
      cases h
      exact .nil t
  | cons e entries ih =>
      obtain ⟨entry, n⟩ := e
      intro t t' h
      rw [secondPass] at h
      cases ha : attempt n with
      | unreadable =>
          simp only [ha] at h
          simpa [ha] using ih h
      | crashes =>
          simp only [ha] at h
          simpa [ha] using ih h
      | parsed result storeError =>
          simp only [ha] at h
          cases hacc : (Attempt.parsed result storeError).accepted with
          | false =>
              simp only [hacc, Bool.false_eq_true, if_false] at h
              simpa [ha, hacc] using ih h
          | true =>
              simp only [hacc, if_true] at h
              cases storeError with
              | some error => cases h
              | none =>
                  have hstep := (recovers_salvaged t entry.id entry.path result).append (ih h)
                  simpa [ha, hacc] using hstep

/-- The passes recover exactly the accepted entries. -/
theorem retryPasses_recovers {pool : Option Nat} {first second : Nat → Attempt} {t t' : Tally}
    (h : retryPasses pool first second t = .ok t') :
    Recovers (recovered pool first second
      ((t.errors.map (·.error)).filter isRetryable)) t t' := by
  unfold retryPasses at h
  have hentries : (t.errors.map (·.error)).filter isRetryable =
      (t.errors.filter fun entry => isRetryable entry.error).map (·.error) := by
    rw [List.filter_map]
    rfl
  rw [hentries]
  generalize (t.errors.filter fun entry => isRetryable entry.error) = entries at h
  dsimp only at h
  unfold recovered
  split at h
  · rename_i hpool
    rw [if_pos hpool.2]
    cases hfirst : firstPass first t entries.zipIdx with
    | error error =>
        rw [hfirst] at h
        cases h
    | ok pair =>
        obtain ⟨u, failing⟩ := pair
        rw [hfirst] at h
        obtain ⟨hrec, rfl⟩ := firstPass_recovers hfirst
        have hboth := hrec.append (secondPass_recovers h)
        rw [List.filter_filter] at hboth
        rw [List.zipIdx_map]
        simpa [List.filter_map, Function.comp_def, ErrorEntry.path, Bool.and_comm] using hboth
  · rename_i hpool
    cases h
    cases pool with
    | none => exact .nil t
    | some size =>
        have hnone : entries = [] := by simpa using hpool
        simpa [hnone] using Recovers.nil t

/-! ## Reading the ledger -/

/-- The sum of the changes a path and a category get. -/
def netOf (ledger : List LedgerEntry) (path : String) (category : Category) : Int :=
  ((ledger.filter fun e => e.path = path ∧ e.category = category).map (·.change)).sum

theorem netOf_append (ledger more : List LedgerEntry) (path : String) (category : Category) :
    netOf (ledger ++ more) path category =
      netOf ledger path category + netOf more path category := by
  simp [netOf]

theorem netOf_perm {ledger ledger' : List LedgerEntry} (h : ledger.Perm ledger') (path : String)
    (category : Category) : netOf ledger path category = netOf ledger' path category :=
  ((h.filter _).map _).sum_eq

theorem netOf_other {files : List SourceFile} {path : String}
    (h : path ∉ files.map SourceFile.path) (category : Category) :
    netOf (files.map SourceFile.ledgerEntry) path category = 0 := by
  have hnone : (files.map SourceFile.ledgerEntry).filter
      (fun e => e.path = path ∧ e.category = category) = [] := by
    rw [List.filter_eq_nil_iff]
    intro e he hmatch
    obtain ⟨f, hf, rfl⟩ := List.mem_map.mp he
    have hpath : f.path = path := (of_decide_eq_true hmatch).1
    exact h (List.mem_map.mpr ⟨f, hf, hpath⟩)
  rw [netOf, hnone]
  rfl

/-- The parse phase counts a file of the list once, in its own category. -/
theorem netOf_files {files : List SourceFile} (hnodup : (files.map SourceFile.path).Nodup)
    {f : SourceFile} (hf : f ∈ files) (category : Category) :
    netOf (files.map SourceFile.ledgerEntry) f.path category =
      if f.category = category then 1 else 0 := by
  induction files with
  | nil => simp at hf
  | cons g files ih =>
      simp only [List.map_cons, List.nodup_cons] at hnodup
      rw [List.map_cons, ← List.singleton_append, netOf_append]
      rcases List.mem_cons.mp hf with rfl | hf
      · rw [netOf_other hnodup.1]
        by_cases hc : f.category = category <;> simp [netOf, SourceFile.ledgerEntry, hc]
      · have hne : g.path ≠ f.path := fun heq =>
          hnodup.1 (heq ▸ List.mem_map.mpr ⟨f, hf, rfl⟩)
        rw [ih hnodup.2 hf]
        simp [netOf, SourceFile.ledgerEntry, hne]

/-- A recovery moves its path from errored to indexed. -/
theorem netOf_recoveries (paths : List String) (path : String) (category : Category) :
    netOf (paths.flatMap recoveryEntries) path category = moved (paths.count path) category := by
  induction paths with
  | nil => cases category <;> rfl
  | cons p paths ih =>
      rw [List.flatMap_cons, netOf_append, ih]
      by_cases hp : p = path
      · subst hp
        cases category <;> simp [netOf, recoveryEntries]
        omega
      · cases category <;> simp [netOf, recoveryEntries, hp]

/-- The files of a category, as the ledger of the parse phase counts them. -/
theorem total_files {t : Tally} {files : List SourceFile}
    (h : t.ledger.Perm (files.map SourceFile.ledgerEntry)) (category : Category) :
    t.total category = (files.filter fun f => f.category = category).length := by
  have hperm : t.total category = (((files.map SourceFile.ledgerEntry).filter
      fun e => e.category = category).map (·.change)).sum := ((h.filter _).map _).sum_eq
  rw [hperm]
  clear hperm h
  induction files with
  | nil => rfl
  | cons f files ih =>
      by_cases hc : f.category = category
      · simp [SourceFile.ledgerEntry, hc] at ih ⊢
        omega
      · simpa [SourceFile.ledgerEntry, hc] using ih

theorem length_by_category (files : List SourceFile) :
    (files.filter fun f => f.category = .indexed).length +
      (files.filter fun f => f.category = .skipped).length +
      (files.filter fun f => f.category = .errored).length = files.length := by
  induction files with
  | nil => rfl
  | cons f files ih => cases hc : f.category <;> simp [hc] <;> omega

/-! ## When the tallies mean what they say -/

theorem countedOnce_iff {t : Tally} {path : String} {category : Category} {n : Nat}
    (h : ∀ other, t.net path other = (if category = other then 1 else 0) + moved n other) :
    t.CountedOnce path ↔ n ≤ if category = .errored then 1 else 0 := by
  have hi := h .indexed
  have hs := h .skipped
  have he := h .errored
  constructor
  · rintro ⟨counted, hc⟩
    have hci := hc .indexed
    have hcs := hc .skipped
    have hce := hc .errored
    rw [hi] at hci
    rw [hs] at hcs
    rw [he] at hce
    cases category <;> cases counted <;> simp at hci hcs hce ⊢ <;> omega
  · intro hn
    cases category with
    | indexed =>
        obtain rfl : n = 0 := by simpa using hn
        exact ⟨.indexed, fun other => by rw [h]; cases other <;> simp⟩
    | skipped =>
        obtain rfl : n = 0 := by simpa using hn
        exact ⟨.skipped, fun other => by rw [h]; cases other <;> simp⟩
    | errored =>
        rcases Nat.le_one_iff_eq_zero_or_eq_one.mp (by simpa using hn) with rfl | rfl
        · exact ⟨.errored, fun other => by rw [h]; cases other <;> simp⟩
        · exact ⟨.indexed, fun other => by rw [h]; cases other <;> simp⟩

theorem addsUp_of_returned (scan : Scan) (first second : Nat → Attempt) {s : Dispatch}
    (hr : (Dispatch.step scan.input).Reaches (Dispatch.init scan.files) s)
    (hpc : s.pc = .done .returned) {t : Tally}
    (ht : retryPasses scan.pool first second s.tally = .ok t) :
    AddsUp scan.files t ↔ RetriesFit scan.files
      (recovered scan.pool first second (scan.files.flatMap SourceFile.retryable)) := by
  obtain ⟨hbalanced, hledger, herrors⟩ := Dispatch.returned_booked hr hpc
  have hrec := retryPasses_recovers ht
  rw [herrors] at hrec
  generalize hpaths : recovered scan.pool first second
    (scan.files.flatMap SourceFile.retryable) = paths
  replace hrec : Recovers paths s.tally t := hpaths ▸ hrec
  have hcounter : ∀ category, t.counter category =
      (scan.files.filter fun f => f.category = category).length + moved paths.length category := by
    intro category
    rw [hrec.counter, hbalanced category, total_files hledger category]
    rfl
  have hcounted : (∀ f ∈ scan.files, t.CountedOnce f.path) ↔
      ∀ f ∈ scan.files, paths.count f.path ≤ if f.category = .errored then 1 else 0 := by
    refine forall₂_congr fun f hf => countedOnce_iff fun other => ?_
    have hnet : t.net f.path other = netOf t.ledger f.path other := rfl
    rw [hnet, hrec.ledger, netOf_append, netOf_perm hledger, netOf_recoveries]
    exact congrArg (· + _) (netOf_files scan.nodup hf other)
  have hi := hcounter .indexed
  have hs := hcounter .skipped
  have he := hcounter .errored
  rw [moved_indexed] at hi
  rw [moved_skipped] at hs
  rw [moved_errored] at he
  constructor
  · intro h
    have hnonneg := h.nonneg .errored
    exact ⟨hcounted.mp h.counted, by omega⟩
  · rintro ⟨hcount, hlen⟩
    refine ⟨?_, fun category => ?_, hcounted.mpr hcount⟩
    · have hsum := length_by_category scan.files
      simp only [Tally.counter] at hi hs he
      simp only [indexResult]
      omega
    · cases category <;> omega

/-- A run whose parse phase returned and whose retries went through adds up
exactly when the accepted retries fit the errored files. -/
theorem addsUp_iff_retriesFit (scan : Scan) (first second : Nat → Attempt) {s : Dispatch}
    (hr : (Dispatch.step scan.input).Reaches (Dispatch.init scan.files) s)
    (hpc : s.pc = .done .returned) {t : Tally}
    (ht : retryPasses scan.pool first second s.tally = .ok t) :
    AddsUp scan.files t ↔ RetriesFit scan.files
      (recovered scan.pool first second (scan.files.flatMap SourceFile.retryable)) :=
  addsUp_of_returned scan first second hr hpc ht

/-! ## Runs that return -/

/-- With no store and no drain failing, some run of the parse phase returns. -/
theorem returns {input : Input} (hok : ∀ f ∈ input.files, f.storeError = none)
    (hdrain : input.drainError = none) :
    ∃ s, (Dispatch.step input).Reaches (Dispatch.init input.files) s ∧ s.pc = .done .returned := by
  obtain ⟨s, hs, hsq, hsrest, _⟩ := @Dispatch.quiet_run input input.files (Dispatch.init input.files) []
    ⟨rfl, rfl, rfl, rfl, rfl, rfl, rfl⟩
    (by simp [Dispatch.init]) hok
  refine ⟨{ s with pc := .done .returned, jobs := s.jobs + 1, jobsDone := s.jobs + 1 },
    hs.trans ⟨[.main, .main, .chain, .main], ?_⟩, rfl⟩
  simp [Dispatch.step, Dispatch.mainStep, hsq.pc, hsrest, hsq.inFlight, Dispatch.flushOrdered,
    Dispatch.chainStep, hsq.jobs, hsq.storing, hsq.clean, Dispatch.completedAt, hsq.window,
    Dispatch.finish, hdrain]

namespace Attempt

def storeFails : Attempt → Bool
  | .parsed _ (some _) => true
  | _ => false

end Attempt

theorem firstPass_ok {attempt : Nat → Attempt} (hok : ∀ n, (attempt n).storeFails = false)
    (entries : List (ErrorEntry × Nat)) :
    ∀ t, ∃ t' failing, firstPass attempt t entries = .ok (t', failing) := by
  induction entries with
  | nil => exact fun t => ⟨t, [], rfl⟩
  | cons e entries ih =>
      obtain ⟨entry, n⟩ := e
      intro t
      rw [firstPass]
      cases ha : attempt n with
      | unreadable => exact ih t
      | crashes =>
          obtain ⟨t', failing, h⟩ := ih t
          exact ⟨t', (entry, n) :: failing, by simp [h]⟩
      | parsed result storeError =>
          have hnone : storeError = none := by
            cases storeError with
            | none => rfl
            | some error => simpa [ha, Attempt.storeFails] using hok n
          subst hnone
          dsimp only
          split
          · exact ih _
          · exact ih t

theorem secondPass_ok {attempt : Nat → Attempt} (hok : ∀ n, (attempt n).storeFails = false)
    (entries : List (ErrorEntry × Nat)) : ∀ t, ∃ t', secondPass attempt t entries = .ok t' := by
  induction entries with
  | nil => exact fun t => ⟨t, rfl⟩
  | cons e entries ih =>
      obtain ⟨entry, n⟩ := e
      intro t
      rw [secondPass]
      cases ha : attempt n with
      | unreadable => exact ih t
      | crashes => exact ih t
      | parsed result storeError =>
          have hnone : storeError = none := by
            cases storeError with
            | none => rfl
            | some error => simpa [ha, Attempt.storeFails] using hok n
          subst hnone
          dsimp only
          split
          · exact ih _
          · exact ih t

/-- Retries whose stores accept go through. -/
theorem retryPasses_ok (pool : Option Nat) {first second : Nat → Attempt}
    (hfirst : ∀ n, (first n).storeFails = false) (hsecond : ∀ n, (second n).storeFails = false)
    (t : Tally) : ∃ t', retryPasses pool first second t = .ok t' := by
  unfold retryPasses
  dsimp only
  split
  · obtain ⟨u, failing, h⟩ := firstPass_ok hfirst
      (t.errors.filter fun entry => isRetryable entry.error).zipIdx t
    obtain ⟨t', h'⟩ := secondPass_ok hsecond failing u
    exact ⟨t', by rw [h]; exact h'⟩
  · exact ⟨t, rfl⟩

/-- A parse that times out and goes through when it is tried again. -/
def timedOut : SourceFile :=
  ⟨"slow.ts", .content 10, .typescript, .error "Parse timed out after 10000ms", none⟩

def emptyParse : Attempt := .parsed ⟨[], [], [], [], none⟩ none

def timedOutScan : Scan := ⟨[timedOut], by simp, some 2, none⟩

theorem addsUp_iff_retriesFit_timedOut : ∃ s t,
    (Dispatch.step timedOutScan.input).Reaches (Dispatch.init timedOutScan.files) s ∧
      s.pc = .done .returned ∧
      retryPasses (some 2) (fun _ => emptyParse) (fun _ => emptyParse) s.tally = .ok t ∧
      AddsUp timedOutScan.files t := by
  obtain ⟨s, hr, hpc⟩ := @returns timedOutScan.input
    (by simp [Scan.input, timedOutScan, timedOut]) rfl
  obtain ⟨t, ht⟩ := @retryPasses_ok (some 2) (fun _ => emptyParse)
    (fun _ => emptyParse) (fun _ => rfl) (fun _ => rfl) s.tally
  refine ⟨s, t, hr, hpc, ht, (addsUp_iff_retriesFit timedOutScan _ _ hr hpc ht).mpr ?_⟩
  constructor <;> decide +kernel

/-- A component whose script ran into a memory fault: the component node is there,
with an error that looks like a crash, and the file is counted as indexed. -/
def halfParsed : SourceFile :=
  ⟨"App.svelte", .content 10, .svelte,
    .ok ⟨[⟨"component:1", .component, "App", "App.svelte::App", "App.svelte", .svelte, 1⟩], [], [],
      [⟨"Svelte extraction error: memory access out of bounds", none, .error,
        some "parse_error"⟩], none⟩, none⟩

/-- Its retry takes it from the errored files, where it never was. -/
theorem addsUp_fails : ¬ ∀ (scan : Scan) (first second : Nat → Attempt) (s : Dispatch) (t : Tally),
    (Dispatch.step scan.input).Reaches (Dispatch.init scan.files) s → s.pc = .done .returned →
      retryPasses scan.pool first second s.tally = .ok t → AddsUp scan.files t := by
  intro h
  obtain ⟨s, hr, hpc⟩ := @returns (Scan.input ⟨[halfParsed], by simp, some 2, none⟩)
    (by simp [Scan.input, halfParsed]) rfl
  obtain ⟨t, ht⟩ := @retryPasses_ok (some 2) (fun _ => emptyParse)
    (fun _ => emptyParse) (fun _ => rfl) (fun _ => rfl) s.tally
  have hfit := (addsUp_of_returned ⟨[halfParsed], by simp, some 2, none⟩ _ _ hr hpc ht).mp
    (h _ _ _ s t hr hpc ht)
  have hnone : ¬ RetriesFit [halfParsed] (recovered (some 2) (fun _ => emptyParse)
      (fun _ => emptyParse) ([halfParsed].flatMap SourceFile.retryable)) := by
    rw [RetriesFit]
    decide +kernel
  exact hnone hfit

end AfyxGraph.Bulk
