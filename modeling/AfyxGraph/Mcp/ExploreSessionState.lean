import AfyxGraph.Core.Entries
import AfyxGraph.Core.Intervals
import AfyxGraph.Core.Places

/-! # The explore history of a session

What earlier calls have sent, per project. Every bound drops detail: ranges, files, calls and
projects can be missing from the record, but none is in it that was not emitted.
-/

namespace AfyxGraph.Mcp.Explore

open AfyxGraph.Core

abbrev ExploreLineRange := IntSpan

structure ExploreFileEmission where
  path : String
  ranges : List ExploreLineRange
  bytes : Int
  fingerprint : Option String := none
  rangesTruncated : Bool := false
  deriving DecidableEq, Repr

structure ExploreEmission where
  projectRoot : String
  query : String
  files : List ExploreFileEmission
  sourceBytes : Int
  responseBytes : Int
  deriving DecidableEq, Repr

/-- A recorded call: an emission, and where it fell in the session. -/
structure ExploreCallRecord extends ExploreEmission where
  index : Nat
  deriving DecidableEq, Repr

structure ExploreProjectState where
  projectRoot : String
  callCount : Nat := 0
  responseBytes : Int := 0
  calls : List ExploreCallRecord := []
  deriving DecidableEq, Repr

abbrev ExploreSessionView := List ExploreProjectState

def MAX_PROJECTS : Nat := 4
def MAX_CALLS_RETAINED : Nat := 8
def MAX_FILES_PER_CALL : Nat := 24
def MAX_RANGES_PER_FILE : Nat := 24
def MAX_VIEW_CALLS : Nat := 4

/-- What a project key depends on: `path.resolve`, lower case, and whether the platform folds
the case of file names. -/
structure Platform where
  resolve : String → String
  toLowerCase : String → String
  foldsCase : Bool

def exploreProjectKey (platform : Platform) (projectRoot : String) : String :=
  let resolved := platform.resolve projectRoot
  if platform.foldsCase then platform.toLowerCase resolved else resolved

/-! ## Ranges -/

/-- The ranges that are well formed, by their starts. -/
def validRanges (ranges : List ExploreLineRange) : List ExploreLineRange :=
  IntSpan.sorted (ranges.filter fun r => r.start ≤ r.end && 1 ≤ r.start)

/-- The longest first; of two as long the earlier. -/
def longerFirst (a b : ExploreLineRange) : Bool :=
  b.end - b.start < a.end - a.start ||
    (b.end - b.start = a.end - a.start && a.start ≤ b.start)

/-- The merged ranges, and whether some were dropped. -/
def coalesceRanges (ranges : List ExploreLineRange) (max : Nat) : List ExploreLineRange × Bool :=
  let merged := IntSpan.join (validRanges ranges)
  if merged.length ≤ max then (merged, false)
  else
    (((merged.mergeSort longerFirst).take max).mergeSort fun a b => a.start ≤ b.start, true)

/-! ## Records -/

def normalizeFile (f : ExploreFileEmission) : ExploreFileEmission :=
  let coalesced := coalesceRanges f.ranges MAX_RANGES_PER_FILE
  { path := f.path
    ranges := coalesced.1
    bytes := max 0 f.bytes
    fingerprint := if f.fingerprint = some "" then none else f.fingerprint
    rangesTruncated := coalesced.2 }

def boundFiles (files : List ExploreFileEmission) : List ExploreFileEmission :=
  let normalized := (files.filter (·.path ≠ "")).map normalizeFile
  if normalized.length ≤ MAX_FILES_PER_CALL then normalized
  else (normalized.mergeSort fun a b => b.bytes ≤ a.bytes).take MAX_FILES_PER_CALL

/-- The projects by key, the least recently used first. -/
abbrev ExploreSessionState := List (String × ExploreProjectState)

namespace ExploreSessionState

/-- The state of a project, and the others with the least recently used beyond the bound
dropped, where the project is to be put at the end. -/
def touch (projects : ExploreSessionState) (key projectRoot : String) :
    ExploreProjectState × ExploreSessionState :=
  match projects.lookup key with
  | some existing => (existing, projects.filter (·.1 ≠ key))
  | none => ({ projectRoot }, projects.drop (projects.length + 1 - MAX_PROJECTS))

def callRecord (emission : ExploreEmission) (index : Nat) : ExploreCallRecord where
  index := index
  projectRoot := emission.projectRoot
  query := emission.query
  files := boundFiles emission.files
  sourceBytes := max 0 emission.sourceBytes
  responseBytes := max 0 emission.responseBytes

def push (state : ExploreProjectState) (emission : ExploreEmission) : ExploreProjectState :=
  let calls := state.calls ++ [callRecord emission (state.callCount + 1)]
  { state with
    callCount := state.callCount + 1
    responseBytes := state.responseBytes + max 0 emission.responseBytes
    calls := calls.drop (calls.length - MAX_CALLS_RETAINED) }

/-- An emission without a project root is unusable. -/
def record (platform : Platform) (projects : ExploreSessionState) (emission : ExploreEmission) :
    ExploreSessionState :=
  if emission.projectRoot = "" then projects
  else
    let key := exploreProjectKey platform emission.projectRoot
    let touched := touch projects key emission.projectRoot
    touched.2 ++ [(key, push touched.1 emission)]

def recordAll (platform : Platform) (emissions : List ExploreEmission) : ExploreSessionState :=
  emissions.foldl (record platform) []

/-- The most recent calls of every project. -/
def view (projects : ExploreSessionState) : ExploreSessionView :=
  projects.map fun project =>
    { project.2 with
      calls := project.2.calls.drop (project.2.calls.length - MAX_VIEW_CALLS) }

end ExploreSessionState

/-- Nobody tracks without a view; a project not seen yet has an empty state. -/
def viewForProject (platform : Platform) (view : Option ExploreSessionView)
    (projectRoot : String) : Option ExploreProjectState :=
  view.map fun projects =>
    (projects.find? fun p =>
      exploreProjectKey platform p.projectRoot = exploreProjectKey platform projectRoot).getD
      { projectRoot }

/-! ## Nothing is recorded that was not emitted -/

open IntSpan

theorem mem_validRanges {ranges : List ExploreLineRange} {r : ExploreLineRange} :
    r ∈ validRanges ranges ↔ r ∈ ranges ∧ r.start ≤ r.end ∧ 1 ≤ r.start := by
  simp [validRanges, mem_sorted]

theorem covered_join_validRanges (ranges : List ExploreLineRange) (line : Int) :
    Covered (join (validRanges ranges)) line ↔
      ∃ r ∈ ranges, 1 ≤ r.start ∧ r.Covers line := by
  have hascending : Ascending (validRanges ranges) := ascending_sorted _
  rw [covered_join hascending]
  simp only [Covered, mem_validRanges]
  constructor
  · rintro ⟨r, ⟨hr, -, hstart⟩, hline⟩
    exact ⟨r, hr, hstart, hline⟩
  · rintro ⟨r, hr, hstart, hline⟩
    exact ⟨r, ⟨hr, Int.le_trans hline.1 hline.2, hstart⟩, hline⟩

theorem covered_coalesceRanges {ranges : List ExploreLineRange} {max : Nat} {line : Int}
    (h : Covered (coalesceRanges ranges max).1 line) : Covered ranges line := by
  have hmerged : Covered (join (validRanges ranges)) line := by
    simp only [coalesceRanges] at h
    split at h
    · exact h
    · refine h.mono fun r hr => ?_
      have hkept := (List.mergeSort_perm _ _).mem_iff.mp hr
      exact (List.mergeSort_perm _ _).mem_iff.mp (List.mem_of_mem_take hkept)
  obtain ⟨r, hr, -, hline⟩ := (covered_join_validRanges ranges line).mp hmerged
  exact ⟨r, hr, hline⟩

/-- What a kept file says was emitted for the same path and fingerprint. -/
theorem mem_boundFiles {files : List ExploreFileEmission} {file : ExploreFileEmission}
    (h : file ∈ boundFiles files) : ∃ f ∈ files, file.path = f.path ∧
      (∀ fingerprint, file.fingerprint = some fingerprint → f.fingerprint = some fingerprint) ∧
      ∀ line, Covered file.ranges line → Covered f.ranges line := by
  have hnormalized : file ∈ (files.filter (·.path ≠ "")).map normalizeFile := by
    simp only [boundFiles] at h
    split at h
    · exact h
    · exact (List.mergeSort_perm _ _).mem_iff.mp (List.mem_of_mem_take h)
  obtain ⟨f, hf, rfl⟩ := List.mem_map.mp hnormalized
  refine ⟨f, List.mem_of_mem_filter hf, rfl, fun fingerprint hfingerprint => ?_, fun line => ?_⟩
  · simp only [normalizeFile] at hfingerprint
    split at hfingerprint
    · cases hfingerprint
    · exact hfingerprint
  · exact covered_coalesceRanges

/-- The emission was one of the project. -/
def EmittedFor (platform : Platform) (emissions : List ExploreEmission) (key : String)
    (files : List ExploreFileEmission) : Prop :=
  ∃ emission ∈ emissions, exploreProjectKey platform emission.projectRoot = key ∧
    files = boundFiles emission.files

/-- Every project is filed under its own key, and its calls were emitted for that key. -/
def Faithful (platform : Platform) (emissions : List ExploreEmission)
    (projects : ExploreSessionState) : Prop :=
  ∀ project ∈ projects, exploreProjectKey platform project.2.projectRoot = project.1 ∧
    ∀ call ∈ project.2.calls, EmittedFor platform emissions project.1 call.files

variable {platform : Platform} {emissions : List ExploreEmission} {projects : ExploreSessionState}

theorem Faithful.touch (h : Faithful platform emissions projects) {key : String}
    (projectRoot : String) (hkey : exploreProjectKey platform projectRoot = key) :
    (exploreProjectKey platform (projects.touch key projectRoot).1.projectRoot = key ∧
      ∀ call ∈ (projects.touch key projectRoot).1.calls,
        EmittedFor platform emissions key call.files) ∧
      Faithful platform emissions (projects.touch key projectRoot).2 := by
  unfold ExploreSessionState.touch
  cases hlookup : projects.lookup key with
  | some existing =>
      exact ⟨h (key, existing) (mem_of_lookup hlookup),
        fun project hp => h project (List.mem_of_mem_filter hp)⟩
  | none => exact ⟨⟨hkey, nofun⟩, fun project hp => h project (List.mem_of_mem_drop hp)⟩

theorem EmittedFor.mono {more : List ExploreEmission} {key : String}
    {files : List ExploreFileEmission} (h : EmittedFor platform emissions key files) :
    EmittedFor platform (emissions ++ more) key files := by
  obtain ⟨emission, he, hkey, hfiles⟩ := h
  exact ⟨emission, List.mem_append_left _ he, hkey, hfiles⟩

theorem Faithful.record (h : Faithful platform emissions projects) (emission : ExploreEmission) :
    Faithful platform (emissions ++ [emission]) (projects.record platform emission) := by
  have hmono : Faithful platform (emissions ++ [emission]) projects := fun project hp =>
    ⟨(h project hp).1, fun call hc => ((h project hp).2 call hc).mono⟩
  unfold ExploreSessionState.record
  split
  · exact hmono
  · obtain ⟨⟨hroot, hcalls⟩, hothers⟩ := hmono.touch emission.projectRoot rfl
    intro project hp
    rcases List.mem_append.mp hp with hp | hp
    · exact hothers project hp
    · obtain rfl := List.mem_singleton.mp hp
      refine ⟨hroot, fun call hc => ?_⟩
      rcases List.mem_append.mp (List.mem_of_mem_drop hc) with hc | hc
      · exact hcalls call hc
      · obtain rfl := List.mem_singleton.mp hc
        exact ⟨emission, List.mem_append_right _ (List.mem_singleton_self _), rfl, rfl⟩

theorem faithful_recordAll (platform : Platform) (emissions : List ExploreEmission) :
    Faithful platform emissions (ExploreSessionState.recordAll platform emissions) := by
  have hstep : ∀ (rest done : List ExploreEmission) (projects : ExploreSessionState),
      Faithful platform done projects →
      Faithful platform (done ++ rest)
        (rest.foldl (ExploreSessionState.record platform) projects) := by
    intro rest
    induction rest with
    | nil =>
        intro done projects h
        simpa using h
    | cons emission rest ih =>
        intro done projects h
        have hrest := ih (done ++ [emission]) _ (h.record emission)
        simpa using hrest
  exact hstep emissions [] [] nofun

/-- The view of a project holds calls that were emitted for its key. -/
theorem emittedFor_viewForProject {projectRoot : String} {prior : ExploreProjectState}
    (h : Faithful platform emissions projects)
    (hprior : viewForProject platform (some projects.view) projectRoot = some prior) :
    ∀ call ∈ prior.calls,
      EmittedFor platform emissions (exploreProjectKey platform projectRoot) call.files := by
  rw [viewForProject, Option.map_some, Option.some.injEq] at hprior
  subst hprior
  intro call hc
  cases hfind : projects.view.find? fun p =>
      exploreProjectKey platform p.projectRoot = exploreProjectKey platform projectRoot with
  | none =>
      rw [hfind] at hc
      cases hc
  | some found =>
      rw [hfind] at hc
      have hkey : exploreProjectKey platform found.projectRoot =
          exploreProjectKey platform projectRoot := by
        simpa using List.find?_some hfind
      obtain ⟨project, hp, rfl⟩ := List.mem_map.mp (List.mem_of_find?_eq_some hfind)
      obtain ⟨hroot, hcalls⟩ := h project hp
      rw [← hkey]
      show EmittedFor platform emissions (exploreProjectKey platform project.2.projectRoot) _
      rw [hroot]
      exact hcalls call (List.mem_of_mem_drop hc)

end AfyxGraph.Mcp.Explore
