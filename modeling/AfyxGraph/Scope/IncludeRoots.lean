import AfyxGraph.Scope.IncludedFiles
import AfyxGraph.Scope.StaticRoots

/-! # What the walk for included files leaves out

The walk starts in the directories that the include patterns begin with. A pattern with a slash
in front of something matches nothing outside of its directory; one such as `src/` matches at any
depth, but is looked for at the top only.
-/

namespace AfyxGraph.Scope

open AfyxGraph.Core

namespace IncludeProject

variable {p : IncludeProject} {m : IncludeMatchers} {path dirs : List Text}

/-! ## Loading the patterns -/

/-- The matchers of a walk, if there is one. -/
def loadMatchers (p : IncludeProject) : Except PatternError (Option IncludeMatchers) := do
  match ← loadMatcher p.includePatterns with
  | none => return none
  | some includes =>
      let exclude ← loadMatcher p.excludePatterns
      let defaults ← defaultsOnlyIgnore
      return some ⟨includes, exclude, defaults⟩

/-- Every pattern that is read compiles. -/
def Compile (p : IncludeProject) : Prop :=
  (Matcher.addLines [] p.includePatterns).isOk = true ∧
    (p.includePatterns ≠ [] → (Matcher.addLines [] p.excludePatterns).isOk = true)

theorem defaultsOnlyIgnore_isOk : defaultsOnlyIgnore.isOk = true := by decide +kernel

theorem isOk_loadMatcher (patterns : List Text) :
    (loadMatcher patterns).isOk = (Matcher.addLines [] patterns).isOk := by
  rw [loadMatcher]
  split
  · next hnone =>
      subst hnone
      rfl
  · cases Matcher.addLines [] patterns with
    | error e => rfl
    | ok m => rfl

theorem collectIncludedFilesForRoot_eq (p : IncludeProject) : p.collectIncludedFilesForRoot =
    p.loadMatchers.map fun loaded => match loaded with
      | none => []
      | some m => p.collectIncludedFiles m (includeStaticRoots p.includePatterns) := by
  unfold collectIncludedFilesForRoot loadMatchers
  cases loadMatcher p.includePatterns with
  | error e => rfl
  | ok includes =>
      cases includes with
      | none => rfl
      | some includes =>
          cases loadMatcher p.excludePatterns with
          | error e => rfl
          | ok exclude =>
              cases defaultsOnlyIgnore with
              | error e => rfl
              | ok defaults => rfl

theorem loadMatcher_eq_none {patterns : List Text} :
    loadMatcher patterns = .ok none ↔ patterns = [] := by
  rw [loadMatcher]
  split
  · next hnone => exact iff_of_true rfl hnone
  · next hsome =>
      refine iff_of_false (fun h => ?_) hsome
      cases hlines : Matcher.addLines [] patterns with
      | error e =>
          rw [hlines] at h
          cases h
      | ok m =>
          rw [hlines] at h
          cases h

/-- The matchers are there if the patterns compile. -/
theorem compile_iff : p.Compile ↔ ∃ loaded, p.loadMatchers = .ok loaded := by
  rw [Compile, ← isOk_loadMatcher, ← isOk_loadMatcher, Ne, ← loadMatcher_eq_none]
  unfold loadMatchers
  cases loadMatcher p.includePatterns with
  | error e => exact iff_of_false (fun h => nomatch h.1) fun ⟨loaded, h⟩ => nomatch h
  | ok includes =>
      cases includes with
      | none => exact iff_of_true ⟨rfl, fun h => absurd rfl h⟩ ⟨none, rfl⟩
      | some includes =>
          have hdefaults := defaultsOnlyIgnore_isOk
          cases loadMatcher p.excludePatterns with
          | error e =>
              exact iff_of_false (fun h => nomatch h.2 (by simp)) fun ⟨loaded, h⟩ => nomatch h
          | ok exclude =>
              cases hload : defaultsOnlyIgnore with
              | error e =>
                  rw [hload] at hdefaults
                  cases hdefaults
              | ok defaults => exact iff_of_true ⟨rfl, fun _ => rfl⟩ ⟨_, rfl⟩

/-! ## Wanted files -/

/-- The file is one to be found: it is a source file that the patterns include, that neither the
defaults nor the excluding patterns ignore, and that lies below no hidden directory. -/
structure Wanted (p : IncludeProject) (m : IncludeMatchers) (path : List Text) : Prop where
  file : p.tree.HasFile path
  source : p.isSourceFile (relText path) = true
  included : m.includes.ignores (relText path) = true
  notDefault : m.defaults.ignores (relText path) = false
  notExcluded : m.excludes (relText path) = false
  visible : ∀ name ∈ path.dropLast, p.skips name = false

theorem wanted_iff : p.Wanted m path ↔ p.tree.HasFile path ∧
    p.accepts m (relText path) = true ∧ ∀ name ∈ path.dropLast, p.skips name = false := by
  simp only [accepts, Bool.and_eq_true, Bool.not_eq_true']
  constructor
  · rintro ⟨file, source, included, notDefault, notExcluded, visible⟩
    exact ⟨file, ⟨⟨⟨notDefault, included⟩, notExcluded⟩, source⟩, visible⟩
  · rintro ⟨file, ⟨⟨⟨notDefault, included⟩, notExcluded⟩, source⟩, visible⟩
    exact ⟨file, source, included, notDefault, notExcluded, visible⟩

/-- The path leads through a directory in which the walk starts. -/
def BelowRoot (p : IncludeProject) (path : List Text) : Prop :=
  ∃ root ∈ includeStaticRoots p.includePatterns, ∃ here below,
    p.resolveRoot root = some here ∧ path = here ++ below ∧ below ≠ []

/-- Exactly the wanted files are returned, and each lies below a root. -/
def FindsIncluded (p : IncludeProject) : Prop :=
  ∃ files, p.collectIncludedFilesForRoot = .ok files ∧
    (∀ text, text ∈ files ↔
      ∃ m path, p.loadMatchers = .ok (some m) ∧ p.Wanted m path ∧ relText path = text) ∧
    ∀ m path, p.loadMatchers = .ok (some m) → p.Wanted m path → p.BelowRoot path

/-! ## Directories in front of a path -/

/-- The front of a pattern leads to the directory `here`. -/
def LeadsTo (p : IncludeProject) (here : List Text) : Prop :=
  ∃ dirs, IsRoot p.includePatterns dirs ∧ p.resolveRoot (rootText dirs) = some here

/-- The file lies in a directory that some pattern begins with. -/
def InFront (p : IncludeProject) (path : List Text) : Prop :=
  ∃ here below, p.LeadsTo here ∧ path = here ++ below ∧ below ≠ []

/-- A pattern with a slash in front of something matches the file, or a directory above it. No
name on the way has a backslash, which would be taken for a slash. -/
def MatchedAnchored (p : IncludeProject) (path : List Text) : Prop :=
  (∀ name ∈ path, '\\' ∉ name) ∧
    ∃ pattern ∈ p.includePatterns, ∃ rule, Anchored pattern rule ∧ Reaches rule (relText path)

theorem belowRoot_iff : p.BelowRoot path ↔ p.InFront path := by
  unfold BelowRoot InFront LeadsTo
  simp only [mem_includeStaticRoots]
  constructor
  · rintro ⟨_, ⟨dirs, hdirs, rfl⟩, here, below, hroot, hpath⟩
    exact ⟨here, below, ⟨dirs, hdirs, hroot⟩, hpath⟩
  · rintro ⟨here, below, ⟨dirs, hdirs, hroot⟩, hpath⟩
    exact ⟨_, ⟨dirs, hdirs, rfl⟩, here, below, hroot, hpath⟩

theorem joinNames_rootText {rootDir : List Text} (hnames : ∀ dir ∈ dirs, dir ≠ [] ∧ '/' ∉ dir)
    (hup : ['.', '.'] ∉ dirs) :
    joinNames rootDir (rootText dirs) = rootDir ++ dirs.filter (· ≠ ['.']) := by
  have hsegments : (rootText dirs).segments = dirs ++ [[]] := by
    by_cases hnone : dirs = []
    · subst hnone
      rfl
    · rw [← List.append_nil (rootText dirs),
        segments_rootText hnone fun dir hdir => (hnames dir hdir).2, Text.segments_nil]
  rw [joinNames, hsegments, List.foldl_append, List.foldl_cons, List.foldl_nil, if_pos (.inl rfl)]
  clear hsegments
  induction dirs generalizing rootDir with
  | nil => exact (List.append_nil rootDir).symm
  | cons dir dirs ih =>
      rw [List.mem_cons, not_or] at hup
      have hrest : ∀ other ∈ dirs, other ≠ [] ∧ '/' ∉ other := fun other hother =>
        hnames other (List.mem_cons_of_mem _ hother)
      rw [List.foldl_cons, ih hrest hup.2]
      by_cases hhere : dir = ['.']
      · rw [if_pos (.inr hhere), List.filter_cons_of_neg (by simp [hhere])]
      · rw [if_neg (not_or.mpr ⟨(hnames dir List.mem_cons_self).1, hhere⟩), if_neg (Ne.symm hup.1),
          List.filter_cons_of_pos (by simpa using hhere), List.append_assoc, List.singleton_append]

theorem resolveRoot_rootText (hnames : ∀ dir ∈ dirs, dir ≠ [] ∧ '/' ∉ dir)
    (hup : ['.', '.'] ∉ dirs) :
    p.resolveRoot (rootText dirs) = some (dirs.filter (· ≠ ['.'])) := by
  rw [resolveRoot]
  split
  · next hroot =>
      rw [rootText] at hroot
      split at hroot
      · next hnone =>
          rw [hnone]
          rfl
      · simp at hroot
  · rw [joinNames_rootText hnames hup]
    dsimp only
    rw [if_pos (List.prefix_append _ _), List.drop_left]

theorem segments_relText (hfile : p.tree.HasFile path) (hplain : ∀ name ∈ path, '\\' ∉ name) :
    (relText path).segments = path := by
  have hnames := Listing.named_of_hasFile p.named hfile
  have hne : path ≠ [] := by
    rintro rfl
    exact p.tree.not_hasFile_nil hfile
  have hjoin := segments_join hne fun name hname => (hnames name hname).2.1
  have hnone : '\\' ∉ Text.join path := by
    intro hmem
    obtain ⟨name, hname, hback⟩ := Text.exists_segment hmem (by decide)
    exact hplain name (hjoin ▸ hname) hback
  rw [relText, normalizePath, Matcher.map_slash_of_notMem hnone, hjoin]

/-- What an anchored pattern matches lies in front of it. -/
theorem MatchedAnchored.inFront (h : p.MatchedAnchored path) (hfile : p.tree.HasFile path) :
    p.InFront path := by
  obtain ⟨hplain, pattern, hpattern, rule, hanchored, hreaches⟩ := h
  have hnames := Listing.named_of_hasFile p.named hfile
  have hsegments := segments_relText hfile hplain
  have hnormal : (relText path).Normal := by
    intro name hname
    rw [hsegments] at hname
    obtain ⟨hne, -, hhere, hup⟩ := hnames name hname
    exact ⟨hne, hhere, hup, hplain name hname⟩
  obtain ⟨dirs, below, hfront, hpath, hbelow⟩ := hanchored.exists_front hreaches hnormal
  rw [hsegments] at hpath
  obtain ⟨root, hroot, rest, rfl⟩ := exists_isRoot hpattern hfront
  have hrootNames : ∀ dir ∈ root, dir ≠ [] ∧ '/' ∉ dir := fun dir hdir =>
    hfront.names dir (List.mem_append_left _ hdir)
  have hup : ['.', '.'] ∉ root := by
    intro hmem
    refine (hnames ['.', '.'] ?_).2.2.2 rfl
    rw [hpath, List.filter_append]
    exact List.mem_append_left _ (List.mem_append_left _ (List.mem_filter.mpr ⟨hmem, by decide⟩))
  refine ⟨root.filter (· ≠ ['.']), rest.filter (· ≠ ['.']) ++ below,
    ⟨root, hroot, resolveRoot_rootText hrootNames hup⟩, ?_,
    List.append_ne_nil_of_right_ne_nil _ hbelow⟩
  rw [hpath, List.filter_append, List.append_assoc]

/-! ## When every wanted file is found -/

/-- A walk from the front of a pattern comes to the file. -/
def Shown (p : IncludeProject) (path : List Text) : Prop :=
  p.tree.HasFile path ∧ outside (relText path) = false ∧ ∃ here below, p.LeadsTo here ∧
    path = here ++ below ∧ below ≠ [] ∧ ∀ name ∈ below, p.skips name = false

theorem reached_iff : p.Reached path ↔ p.Shown path := by
  unfold Reached Shown LeadsTo
  simp only [mem_includeStaticRoots]
  constructor
  · rintro ⟨hfile, hin, _, ⟨dirs, hdirs, rfl⟩, here, below, hroot, hpath⟩
    exact ⟨hfile, hin, here, below, ⟨dirs, hdirs, hroot⟩, hpath⟩
  · rintro ⟨hfile, hin, here, below, ⟨dirs, hdirs, hroot⟩, hpath⟩
    exact ⟨hfile, hin, _, ⟨dirs, hdirs, rfl⟩, here, below, hroot, hpath⟩

/-- A wanted file that no anchored pattern matches lies in a directory that a pattern begins
with. No wanted file has a name that is skipped, or a path that begins with two dots, and no file
that a pattern leads to lies in a hidden directory; another file that is written the same can
stand in for it. -/
structure LeavesNoneOut (p : IncludeProject) (m : IncludeMatchers) : Prop where
  inFront : ∀ path, p.Wanted m path → ¬ p.MatchedAnchored path → p.InFront path
  inside : ∀ path, p.Wanted m path → outside (relText path) = false
  looked : ∀ path name, p.Wanted m path → path.getLast? = some name → p.skips name = true →
    ∃ twin, p.Shown twin ∧ relText twin = relText path
  visible : ∀ path name, p.Shown path → p.accepts m (relText path) = true →
    name ∈ path.dropLast → p.skips name = true →
    ∃ twin, p.Wanted m twin ∧ relText twin = relText path

theorem LeavesNoneOut.liesInFront (h : p.LeavesNoneOut m) (hwanted : p.Wanted m path) :
    p.InFront path := by
  by_cases hanchored : p.MatchedAnchored path
  · exact hanchored.inFront hwanted.file
  · exact h.inFront path hwanted hanchored

/-- Every wanted file is reached, or another with its path is. -/
theorem LeavesNoneOut.shown (h : p.LeavesNoneOut m) (hwanted : p.Wanted m path) :
    ∃ twin, p.Shown twin ∧ relText twin = relText path := by
  obtain ⟨here, below, hleads, rfl, hbelow⟩ := h.liesInFront hwanted
  obtain hnil | ⟨front, name, rfl⟩ := List.eq_nil_or_concat below
  · exact absurd hnil hbelow
  · rw [List.concat_eq_append, ← List.append_assoc] at *
    cases hname : p.skips name with
    | true => exact h.looked _ name hwanted (by simp) hname
    | false =>
        refine ⟨_, ⟨hwanted.file, h.inside _ hwanted, here, front ++ [name], hleads,
          List.append_assoc .., by simp, ?_⟩, rfl⟩
        have hvisible := hwanted.visible
        rw [List.dropLast_concat] at hvisible
        intro other hother
        rcases List.mem_append.mp hother with hother | hother
        · exact hvisible other (List.mem_append_right _ hother)
        · rw [List.mem_singleton.mp hother]
          exact hname

/-- Every file that is reached is wanted, or another with its path is. -/
theorem LeavesNoneOut.wanted (h : p.LeavesNoneOut m) (hshown : p.Shown path)
    (haccepts : p.accepts m (relText path) = true) :
    ∃ twin, p.Wanted m twin ∧ relText twin = relText path := by
  by_cases hvisible : ∀ name ∈ path.dropLast, p.skips name = false
  · exact ⟨path, wanted_iff.mpr ⟨hshown.1, haccepts, hvisible⟩, rfl⟩
  · simp only [not_forall, Bool.not_eq_false] at hvisible
    obtain ⟨name, hname, hskips⟩ := hvisible
    exact h.visible path name hshown haccepts hname hskips

/-- The walk finds exactly the wanted files, each below a root, just when the patterns compile
and it leaves none out. -/
theorem findsIncluded_iff (p : IncludeProject) : p.FindsIncluded ↔
    p.Compile ∧ ∀ m, p.loadMatchers = .ok (some m) → p.LeavesNoneOut m := by
  rw [compile_iff]
  constructor
  · rintro ⟨files, hfiles, hexact, hbelow⟩
    rw [collectIncludedFilesForRoot_eq] at hfiles
    cases hload : p.loadMatchers with
    | error e =>
        rw [hload] at hfiles
        cases hfiles
    | ok loaded =>
        refine ⟨⟨loaded, rfl⟩, fun m hm => ?_⟩
        obtain rfl := Except.ok.inj hm
        rw [hload] at hfiles
        obtain rfl := Except.ok.inj hfiles
        have hfound : ∀ path, p.Wanted m path →
            ∃ twin, p.Shown twin ∧ relText twin = relText path := by
          intro path hwanted
          obtain ⟨twin, hreached, -, htwin⟩ := (mem_collectIncludedFiles p m _).mp
            ((hexact (relText path)).mpr ⟨m, path, hload, hwanted, rfl⟩)
          exact ⟨twin, reached_iff.mp hreached, htwin⟩
        refine ⟨fun path hwanted _ => belowRoot_iff.mp (hbelow m path hload hwanted),
          fun path hwanted => ?_, fun path _ hwanted _ _ => hfound path hwanted,
          fun path _ hshown haccepts _ _ => ?_⟩
        · obtain ⟨twin, hshown, htwin⟩ := hfound path hwanted
          rw [← htwin]
          exact hshown.2.1
        · obtain ⟨m', twin, hm', hwanted, htwin⟩ := (hexact (relText path)).mp
            ((mem_collectIncludedFiles p m _).mpr ⟨path, reached_iff.mpr hshown, haccepts, rfl⟩)
          rw [hload] at hm'
          obtain rfl := Option.some.inj (Except.ok.inj hm')
          exact ⟨twin, hwanted, htwin⟩
  · rintro ⟨⟨loaded, hload⟩, hall⟩
    unfold FindsIncluded
    rw [collectIncludedFilesForRoot_eq, hload]
    refine ⟨_, rfl, ?_, fun m path hm hwanted => ?_⟩
    · intro text
      cases loaded with
      | none =>
          refine iff_of_false List.not_mem_nil ?_
          rintro ⟨m, path, hm, -⟩
          cases hm
      | some m =>
          have hnone := hall m hload
          refine (mem_collectIncludedFiles p m text).trans ⟨?_, ?_⟩
          · rintro ⟨path, hreached, haccepts, rfl⟩
            obtain ⟨twin, hwanted, htwin⟩ := hnone.wanted (reached_iff.mp hreached) haccepts
            exact ⟨m, twin, rfl, hwanted, htwin⟩
          · rintro ⟨m', path, hm', hwanted, rfl⟩
            obtain rfl := Option.some.inj (Except.ok.inj hm')
            obtain ⟨twin, hshown, htwin⟩ := hnone.shown hwanted
            refine ⟨twin, reached_iff.mpr hshown, ?_, htwin⟩
            rw [htwin]
            exact (wanted_iff.mp hwanted).2.1
    · obtain rfl := Except.ok.inj hm
      exact belowRoot_iff.mpr ((hall m hload).liesInFront hwanted)

/-- `src/` is looked for at the top, and matches in `packages` too. -/
def packagesProject : IncludeProject where
  rootDir := ["home".toList]
  tree := .dir "packages".toList (.dir "src".toList (.file "a.ts".toList .nil) .nil) .nil
  distinct := by simp [Listing.Distinct, Listing.names]
  named := by simp only [Listing.Named]; decide
  includePatterns := ["src/".toList]
  excludePatterns := []
  dataDirName := ".afyx-graph".toList
  isSourceFile rel := ".ts".toList.isSuffixOf rel

theorem packagesProject_accepts :
    (match packagesProject.loadMatchers with
    | .ok (some m) => packagesProject.accepts m "packages/src/a.ts".toList
    | _ => false) = true := by
  decide +kernel

theorem packagesProject_leaves_src :
    packagesProject.collectIncludedFilesForRoot.toOption = some [] ∧
      ¬ packagesProject.FindsIncluded := by
  have hroots : includeStaticRoots packagesProject.includePatterns = ["src/".toList] := by decide
  have hsrc : packagesProject.resolveRoot "src/".toList = some ["src".toList] := by decide
  have hrun := packagesProject_accepts
  split at hrun
  · next m hload =>
      refine ⟨?_, ?_⟩
      · rw [collectIncludedFilesForRoot_eq, hload, hroots]
        rfl
      · rintro ⟨files, -, -, hbelow⟩
        have hwanted : packagesProject.Wanted m ["packages".toList, "src".toList, "a.ts".toList] :=
          wanted_iff.mpr ⟨.inl ⟨_, rfl, .inl ⟨_, rfl, .inl rfl⟩⟩, hrun, by decide⟩
        obtain ⟨root, hroot, here, below, hresolve, hpath, -⟩ := hbelow m _ hload hwanted
        rw [hroots, List.mem_singleton] at hroot
        subst hroot
        rw [hsrc] at hresolve
        obtain rfl := Option.some.inj hresolve
        cases hpath
  · cases hrun

end IncludeProject

end AfyxGraph.Scope
