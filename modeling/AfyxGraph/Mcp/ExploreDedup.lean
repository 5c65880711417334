import AfyxGraph.Mcp.ExploreSessionState

/-! # What an explore call need not send again

The record of a session decides which lines of an intended range are replaced by a reference
to an earlier call. A line that is withheld was emitted for the same project, path and
content; every other line of the range is emitted.
-/

namespace AfyxGraph.Mcp.Explore

open AfyxGraph.Core IntSpan

/-! ## The algebra of ranges -/

def MIN_COVERED_LINES : Int := 8

/-- Sort, and merge what overlaps or touches. -/
def mergeRanges (ranges : List ExploreLineRange) : List ExploreLineRange := join (validRanges ranges)

/-- The parts of the range that are served. -/
def intersectRange (range : ExploreLineRange) (served : List ExploreLineRange) :
    List ExploreLineRange :=
  mergeRanges (served.filterMap fun s =>
    let start := max range.start s.start
    let stop := min range.end s.end
    if start ≤ stop then some ⟨start, stop⟩ else none)

/-- The parts of the range that are not cut. -/
def subtractRange (range : ExploreLineRange) (cut : List ExploreLineRange) :
    List ExploreLineRange :=
  cutFrom range.end range.start (mergeRanges cut)

structure RangeDedup where
  emit : List ExploreLineRange
  covered : List ExploreLineRange
  deriving DecidableEq, Repr

/-- Covered runs that are too short are emitted. -/
def dedupeRange (range : ExploreLineRange) (served : List ExploreLineRange)
    (minCovered : Int) : RangeDedup :=
  if served.isEmpty || range.end < range.start then ⟨[range], []⟩
  else
    let covered := (intersectRange range served).filter fun r => minCovered ≤ r.end - r.start + 1
    if covered.isEmpty then ⟨[range], []⟩ else ⟨subtractRange range covered, covered⟩

/-- The ranges of a file that earlier calls have served from the same bytes. -/
def servedRangesForFile (prior : Option ExploreProjectState) (filePath fingerprint : String) :
    List ExploreLineRange :=
  match prior with
  | none => []
  | some prior =>
      mergeRanges (prior.calls.flatMap fun call =>
        (call.files.filter fun file =>
          file.path = filePath && file.fingerprint ≠ none && file.fingerprint ≠ some "" &&
            file.fingerprint = some fingerprint).flatMap (·.ranges))

/-! ## Lines -/

variable {range : ExploreLineRange} {served ranges : List ExploreLineRange} {line : Int}

theorem covered_mergeRanges : Covered (mergeRanges ranges) line ↔
    ∃ r ∈ ranges, 1 ≤ r.start ∧ r.Covers line :=
  covered_join_validRanges ranges line

theorem start_of_mem_mergeRanges {r : ExploreLineRange} (h : r ∈ mergeRanges ranges) :
    1 ≤ r.start := by
  obtain ⟨r', hr', hstart, -⟩ := exists_start_of_mem_join h
  rw [← hstart]
  exact (mem_validRanges.mp hr').2.2

/-- The intersection is inside the range, and what it covers was served. -/
theorem covered_intersectRange (h : Covered (intersectRange range served) line) :
    range.Covers line ∧ Covered served line := by
  obtain ⟨r, hr, -, hline⟩ := covered_mergeRanges.mp h
  obtain ⟨s, hs, heq⟩ := List.mem_filterMap.mp hr
  simp only [Option.ite_none_right_eq_some, Option.some.injEq] at heq
  obtain ⟨-, rfl⟩ := heq
  simp only [Covers] at hline
  refine ⟨?_, s, hs, ?_⟩
  · simp only [Covers]
    omega
  · simp only [Covers]
    omega

theorem covered_subtractRange {cut : List ExploreLineRange} (hcut : ∀ r ∈ cut, 1 ≤ r.start) :
    Covered (subtractRange range cut) line ↔ range.Covers line ∧ ¬ Covered cut line := by
  have hascending : Ascending (mergeRanges cut) := ascending_join (ascending_sorted _)
  have hmerged : Covered (mergeRanges cut) line ↔ Covered cut line := by
    rw [covered_mergeRanges]
    constructor
    · rintro ⟨r, hr, -, hline⟩
      exact ⟨r, hr, hline⟩
    · rintro ⟨r, hr, hline⟩
      exact ⟨r, hr, hcut r hr, hline⟩
  rw [subtractRange, covered_cutFrom hascending, hmerged]
  rfl

/-- The two parts share no line, and their lines are those of the range. -/
structure Splits (range : ExploreLineRange) (minCovered : Int) (parts : RangeDedup) : Prop where
  disjoint : ∀ line, ¬ (Covered parts.emit line ∧ Covered parts.covered line)
  union : ∀ line, Covered parts.emit line ∨ Covered parts.covered line ↔ range.Covers line
  long : ∀ r ∈ parts.covered, minCovered ≤ r.end - r.start + 1

theorem splits_emitAll (range : ExploreLineRange) (minCovered : Int) :
    Splits range minCovered ⟨[range], []⟩ where
  disjoint line h := not_covered_nil line h.2
  union line := by simp [covered_singleton]
  long := nofun

/-- The covered part of a split range was served. -/
theorem dedupeRange_spec (range : ExploreLineRange) (served : List ExploreLineRange)
    (minCovered : Int) :
    Splits range minCovered (dedupeRange range served minCovered) ∧
      ∀ line, Covered (dedupeRange range served minCovered).covered line → Covered served line := by
  have hall : Splits range minCovered ⟨[range], []⟩ ∧
      ∀ line, Covered (⟨[range], []⟩ : RangeDedup).covered line → Covered served line :=
    ⟨splits_emitAll range minCovered, fun line h => (not_covered_nil line h).elim⟩
  simp only [dedupeRange]
  split
  · exact hall
  · split
    · exact hall
    · have hkept : ∀ r ∈ (intersectRange range served).filter
          (fun r => minCovered ≤ r.end - r.start + 1), r ∈ intersectRange range served :=
        fun r hr => List.mem_of_mem_filter hr
      have hcut : ∀ line, Covered (subtractRange range ((intersectRange range served).filter
          fun r => minCovered ≤ r.end - r.start + 1)) line ↔ range.Covers line ∧
            ¬ Covered ((intersectRange range served).filter
              fun r => minCovered ≤ r.end - r.start + 1) line :=
        fun line => covered_subtractRange fun r hr => start_of_mem_mergeRanges (hkept r hr)
      have hinside : ∀ line, Covered ((intersectRange range served).filter
          fun r => minCovered ≤ r.end - r.start + 1) line →
            range.Covers line ∧ Covered served line :=
        fun line h => covered_intersectRange (h.mono hkept)
      refine ⟨⟨fun line h => ?_, fun line => ?_, fun r hr => ?_⟩, fun line h => (hinside line h).2⟩
      · exact ((hcut line).mp h.1).2 h.2
      · rw [hcut line]
        constructor
        · rintro (h | h)
          · exact h.1
          · exact (hinside line h).1
        · intro h
          by_cases hcovered : Covered ((intersectRange range served).filter
              fun r => minCovered ≤ r.end - r.start + 1) line
          · exact .inr hcovered
          · exact .inl ⟨h, hcovered⟩
      · simpa using (List.mem_filter.mp hr).2

/-- A served line is one of a recorded file with the path and the fingerprint. -/
theorem covered_servedRangesForFile {prior : ExploreProjectState} {filePath fingerprint : String}
    (h : Covered (servedRangesForFile (some prior) filePath fingerprint) line) :
    ∃ call ∈ prior.calls, ∃ file ∈ call.files, file.path = filePath ∧
      file.fingerprint = some fingerprint ∧ Covered file.ranges line := by
  obtain ⟨r, hr, -, hline⟩ := covered_mergeRanges.mp h
  obtain ⟨call, hcall, hr⟩ := List.mem_flatMap.mp hr
  obtain ⟨file, hfile, hr⟩ := List.mem_flatMap.mp hr
  obtain ⟨hmem, hcond⟩ := List.mem_filter.mp hfile
  simp only [Bool.and_eq_true, decide_eq_true_eq] at hcond
  exact ⟨call, hcall, file, hmem, hcond.1.1.1, hcond.2, r, hr, hline⟩

/-- The line was in the response of an earlier call on the project, in the file, with the
bytes. -/
def WasEmitted (platform : Platform) (emissions : List ExploreEmission)
    (projectRoot filePath fingerprint : String) (line : Int) : Prop :=
  ∃ emission ∈ emissions,
    exploreProjectKey platform emission.projectRoot = exploreProjectKey platform projectRoot ∧
      ∃ file ∈ emission.files, file.path = filePath ∧ file.fingerprint = some fingerprint ∧
        Covered file.ranges line

/-- Whatever a session has recorded, a line that is withheld was emitted before, and the parts
of the range are exactly the range. -/
theorem dedupe_withholds_emitted (platform : Platform) (emissions : List ExploreEmission)
    (projectRoot filePath fingerprint : String) (range : ExploreLineRange) (minCovered : Int) :
    let view := (ExploreSessionState.recordAll platform emissions).view
    let served := servedRangesForFile (viewForProject platform (some view) projectRoot) filePath
      fingerprint
    let parts := dedupeRange range served minCovered
    (∀ line, Covered parts.covered line →
      WasEmitted platform emissions projectRoot filePath fingerprint line) ∧
      Splits range minCovered parts := by
  intro view served parts
  obtain ⟨hsplits, hserved⟩ := dedupeRange_spec range served minCovered
  refine ⟨fun line hline => ?_, hsplits⟩
  have hline := hserved line hline
  cases hprior : viewForProject platform (some view) projectRoot with
  | none => cases hprior
  | some prior =>
      have hserved' : served = servedRangesForFile (some prior) filePath fingerprint := by
        rw [← hprior]
      rw [hserved'] at hline
      obtain ⟨call, hcall, file, hfile, hpath, hfingerprint, hcovered⟩ :=
        covered_servedRangesForFile hline
      obtain ⟨emission, he, hkey, hfiles⟩ :=
        emittedFor_viewForProject (faithful_recordAll platform emissions) hprior call hcall
      rw [hfiles] at hfile
      obtain ⟨f, hf, hfpath, hffingerprint, hfranges⟩ := mem_boundFiles hfile
      exact ⟨emission, he, hkey, f, hf, hfpath.symm.trans hpath, hffingerprint _ hfingerprint,
        hfranges line hcovered⟩

end AfyxGraph.Mcp.Explore
