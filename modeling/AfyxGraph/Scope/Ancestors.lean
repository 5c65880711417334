import AfyxGraph.Scope.ScopeIgnore

/-! # The way to a file in scope

A caller that prunes ignored directories sees a file only if `ScopeIgnore` ignores
none of the directories above it. An ancestor can be judged by other rules than the
file: by an outer embedded repository, or by rules that an `include` pattern
overrides for the file alone. These two are the only ways to lose it.
-/

namespace AfyxGraph.Scope

open AfyxGraph.Core

namespace ScopeIgnore

/-- No directory above the file is ignored unless the file is. -/
def KeepsWay (s : ScopeIgnore) (f : FilePath) : Prop :=
  s.ignores f.text = false →
    ∀ dir rest, f.text = dir ++ '/' :: rest → s.ignores (dir ++ ['/']) = false

/-- The rules that judge a directory ignore it: those of the innermost embedded
repository it lies properly inside, or the root's when no repository holds it or
lies below it. -/
def hides (s : ScopeIgnore) (d : Text) : Bool :=
  match s.innermost d with
  | some e => d.drop e.root.length ≠ [] && e.matcher.ignores (d.drop e.root.length)
  | none => !s.leadsToEmbedded d && s.rootMatcher.ignores d

/-- The file lies in a repository nested in the one that judges the directory, and
is kept by it. -/
def KeptByNested (s : ScopeIgnore) (f d : Text) : Prop :=
  s.defaults.ignores f = false ∧ ∃ outer nested, s.innermost d = some outer ∧
    s.innermost f = some nested ∧ outer.root.length < nested.root.length ∧
    nested.matcher.ignores (f.drop nested.root.length) = false

/-- The directory is lost, and the file with it. -/
structure Pruned (s : ScopeIgnore) (f d : Text) : Prop where
  wanted : s.excludes f = false
  offRoots : s.forces d = false
  hidden : s.hides d = true
  kept : s.forces f = true ∨ s.KeptByNested f d

variable {s : ScopeIgnore} {dir rest : Text}

/-! ## What a directory and a file below it share -/

theorem excludes_below (h : (dir ++ '/' :: rest).Normal) (hd : s.excludes (dir ++ ['/']) = true) :
    s.excludes (dir ++ '/' :: rest) = true := by
  unfold excludes at hd ⊢
  cases he : s.exclude with
  | none => simp [he] at hd
  | some m =>
      rw [he] at hd
      exact m.ignores_below h hd

theorem directory_isPrefix (dir rest : Text) : (dir ++ ['/']) <+: (dir ++ '/' :: rest) :=
  ⟨rest, by simp⟩

/-- The rules of a repository that hide the directory in it hide the file. -/
theorem inner_below {m : Matcher} {root : Text} (h : (dir ++ '/' :: rest).Normal)
    (hroot : root ++ ['/'] <+: dir ++ ['/'])
    (hne : (dir ++ ['/']).drop (root ++ ['/']).length ≠ [])
    (hd : m.ignores ((dir ++ ['/']).drop (root ++ ['/']).length) = true) :
    m.ignores ((dir ++ '/' :: rest).drop (root ++ ['/']).length) = true := by
  rcases Text.eq_or_below hroot with rfl | ⟨below, rfl⟩
  · exact (hne List.drop_length).elim
  · have hdir : root ++ '/' :: below ++ ['/'] = (root ++ ['/']) ++ (below ++ ['/']) := by simp
    have hfile : root ++ '/' :: below ++ '/' :: rest =
        (root ++ ['/']) ++ (below ++ '/' :: rest) := by simp
    have hsplit : root ++ '/' :: below ++ '/' :: rest = root ++ '/' :: (below ++ '/' :: rest) := by
      simp
    rw [hdir, List.drop_left] at hd
    rw [hfile, List.drop_left]
    rw [hsplit] at h
    exact m.ignores_below h.right hd

theorem innermost_isPrefix {rel : Text} {e : Embedded} (h : s.innermost rel = some e) :
    e.root <+: rel := by
  have hfound := List.find?_some h
  exact List.isPrefixOf_iff_prefix.mp hfound

/-- A weaker test finds the same entry when the stronger one accepts what it found. -/
theorem find?_eq_of_imp {α : Type} {p q : α → Bool} {l : List α} {a b : α}
    (himp : ∀ x, p x = true → q x = true) (ha : l.find? p = some a) (hb : l.find? q = some b)
    (hpb : p b = true) : b = a := by
  induction l with
  | nil => simp at ha
  | cons x xs ih =>
      rw [List.find?_cons] at ha hb
      cases hq : q x with
      | true =>
          rw [hq] at hb
          obtain rfl : x = b := by simpa using hb
          rw [hpb] at ha
          simpa using ha
      | false =>
          have hp : p x = false := by
            cases hp : p x with
            | false => rfl
            | true => rw [himp x hp] at hq; exact hq
          rw [hp] at ha
          rw [hq] at hb
          exact ih ha hb

/-- Either the same repository judges both, or the file's is nested in the other. -/
theorem innermost_below {outer nested : Embedded} (hd : s.innermost (dir ++ ['/']) = some outer)
    (hf : s.innermost (dir ++ '/' :: rest) = some nested) :
    nested = outer ∨ outer.root.length < nested.root.length := by
  by_cases hlen : outer.root.length < nested.root.length
  · exact Or.inr hlen
  · left
    have houter : outer.root <+: dir ++ '/' :: rest :=
      (innermost_isPrefix hd).trans (directory_isPrefix dir rest)
    have hnested : nested.root <+: outer.root :=
      List.prefix_of_prefix_length_le (innermost_isPrefix hf) houter (by omega)
    apply find?_eq_of_imp ?_ hd hf
    · exact List.isPrefixOf_iff_prefix.mpr (hnested.trans (innermost_isPrefix hd))
    · intro e he
      have hroot := List.isPrefixOf_iff_prefix.mp he
      exact List.isPrefixOf_iff_prefix.mpr (hroot.trans (directory_isPrefix dir rest))

theorem innermost_below_isSome {outer : Embedded}
    (hd : s.innermost (dir ++ ['/']) = some outer) :
    ∃ nested, s.innermost (dir ++ '/' :: rest) = some nested := by
  rw [← Option.isSome_iff_exists, innermost, List.find?_isSome]
  have hroot := (innermost_isPrefix hd).trans (directory_isPrefix dir rest)
  exact ⟨outer, List.mem_of_find?_eq_some hd, List.isPrefixOf_iff_prefix.mpr hroot⟩

/-- A repository that holds the file but not the directory lies below it. -/
theorem leadsToEmbedded_of_outside {e : Embedded} (hd : s.innermost (dir ++ ['/']) = none)
    (hf : s.innermost (dir ++ '/' :: rest) = some e) :
    s.leadsToEmbedded (dir ++ ['/']) = true := by
  have hmem : e ∈ s.embedded := List.mem_of_find?_eq_some hf
  have hout : ¬ e.root <+: dir ++ ['/'] := by
    have hnone := List.find?_eq_none.mp hd e hmem
    rwa [List.isPrefixOf_iff_prefix] at hnone
  have hway : dir ++ ['/'] <+: e.root := by
    rcases List.prefix_or_prefix_of_prefix (innermost_isPrefix hf) (directory_isPrefix dir rest) with
      h | h
    · exact (hout h).elim
    · exact h
  simp only [leadsToEmbedded, List.getLast?_append_cons, List.getLast?_singleton, decide_true,
    Bool.true_and, List.any_eq_true]
  exact ⟨e, hmem, List.isPrefixOf_iff_prefix.mpr hway⟩

/-! ## The two ways to lose a file -/

theorem ignores_directory_of_pruned {f d : Text} (h : s.Pruned f d) : s.ignores d = true := by
  unfold ignores
  split
  · rfl
  · rw [h.offRoots]
    have hhidden := h.hidden
    unfold hides at hhidden
    cases hd : s.innermost d with
    | some e =>
        rw [hd] at hhidden
        obtain ⟨hne, hin⟩ := Bool.and_eq_true_iff.mp hhidden
        simp only [Bool.false_eq_true, if_false]
        rw [if_neg (by simpa using hne), hin, Bool.or_true]
    | none =>
        rw [hd] at hhidden
        obtain ⟨hway, hroot⟩ := Bool.and_eq_true_iff.mp hhidden
        simp only [Bool.false_eq_true, if_false]
        rw [if_neg (by simpa using hway), hroot]

theorem not_ignores_of_pruned {f : FilePath} {d : Text} (h : s.Pruned f.text d) :
    s.ignores f.text = false := by
  unfold ignores
  rw [h.wanted]
  rcases h.kept with hforced | ⟨hdefaults, outer, nested, _, hnested, _, hkept⟩
  · rw [hforced]
    rfl
  · cases hforced : s.forces f.text with
    | true => rfl
    | false =>
        rw [hnested]
        simp only [Bool.false_eq_true, if_false]
        rw [hdefaults, hkept]
        split <;> rfl

/-- Without `exclude` and `include` the innermost repository decides, or the root. -/
theorem ignores_unforced {rel : Text} (hex : s.excludes rel = false)
    (hoff : s.forces rel = false) :
    s.ignores rel =
      match s.innermost rel with
      | some e => rel.drop e.root.length ≠ [] &&
          (s.defaults.ignores rel || e.matcher.ignores (rel.drop e.root.length))
      | none => !s.leadsToEmbedded rel && s.rootMatcher.ignores rel := by
  unfold ignores
  rw [hex, hoff]
  cases s.innermost rel with
  | some e => by_cases hinner : rel.drop e.root.length = [] <;> simp [hinner]
  | none => cases s.leadsToEmbedded rel <;> simp

theorem forces_defaults {rel : Text} (h : s.forces rel = true) : s.defaults.ignores rel = false := by
  unfold forces at h
  cases hinc : s.includes with
  | none => simp [hinc] at h
  | some m =>
      rw [hinc] at h
      have hnot := (Bool.and_eq_true_iff.mp h).1
      simpa using hnot

theorem not_leadsToEmbedded_file {f : Text} (h : f.Normal) : s.leadsToEmbedded f = false := by
  unfold leadsToEmbedded
  rw [decide_eq_false h.last, Bool.false_and]

theorem file_inside {f : Text} {e : Embedded} (h : f.Normal) (he : s.innermost f = some e) :
    f.drop e.root.length ≠ [] := by
  intro hnil
  obtain ⟨inner, hinner⟩ := innermost_isPrefix he
  rw [← hinner, List.drop_left] at hnil
  apply h.last
  rw [← hinner, hnil]
  simp [Embedded.root]

/-- A file that only the rules decide, below a directory the built-in defaults ignore. -/
theorem ignores_of_defaults {outer : Embedded} (h : (dir ++ '/' :: rest).Normal)
    (hd : s.innermost (dir ++ ['/']) = some outer)
    (hdefaults : s.defaults.ignores (dir ++ ['/']) = true) :
    s.ignores (dir ++ '/' :: rest) = true := by
  have hbelow := s.defaults.ignores_below h hdefaults
  cases hex : s.excludes (dir ++ '/' :: rest) with
  | true => simp [ignores, hex]
  | false =>
      have hoff : s.forces (dir ++ '/' :: rest) = false := by
        cases hf : s.forces (dir ++ '/' :: rest) with
        | false => rfl
        | true => rw [forces_defaults hf] at hbelow; exact hbelow.symm
      obtain ⟨nested, hnested⟩ := @innermost_below_isSome s dir rest outer hd
      rw [ignores_unforced hex hoff, hnested]
      simp [file_inside h hnested, hbelow]

/-- A directory that is ignored above a file that is not is pruned in one of the two
ways. -/
theorem pruned_of_ignores (h : (dir ++ '/' :: rest).Normal)
    (hfile : s.ignores (dir ++ '/' :: rest) = false) (hdir : s.ignores (dir ++ ['/']) = true) :
    s.Pruned (dir ++ '/' :: rest) (dir ++ ['/']) := by
  have hwanted : s.excludes (dir ++ '/' :: rest) = false := by
    cases hex : s.excludes (dir ++ '/' :: rest) with
    | false => rfl
    | true => simp [ignores, hex] at hfile
  have hdwanted : s.excludes (dir ++ ['/']) = false := by
    cases hex : s.excludes (dir ++ ['/']) with
    | false => rfl
    | true => rw [excludes_below h hex] at hwanted; exact hwanted
  have hoff : s.forces (dir ++ ['/']) = false := by
    cases hoff : s.forces (dir ++ ['/']) with
    | false => rfl
    | true => simp [ignores, hdwanted, hoff] at hdir
  rw [ignores_unforced hdwanted hoff] at hdir
  cases hd : s.innermost (dir ++ ['/']) with
  | none =>
      rw [hd] at hdir
      refine ⟨hwanted, hoff, by rw [hides, hd]; exact hdir, Or.inl ?_⟩
      cases hforced : s.forces (dir ++ '/' :: rest) with
      | true => rfl
      | false =>
          obtain ⟨hway, hroot⟩ := Bool.and_eq_true_iff.mp hdir
          rw [ignores_unforced hwanted hforced] at hfile
          cases hf : s.innermost (dir ++ '/' :: rest) with
          | some e =>
              rw [leadsToEmbedded_of_outside hd hf] at hway
              exact Bool.noConfusion hway
          | none =>
              rw [hf] at hfile
              have hbelow := s.rootMatcher.ignores_below h hroot
              simp [hbelow, not_leadsToEmbedded_file h] at hfile
  | some outer =>
      rw [hd] at hdir
      obtain ⟨hne, hin⟩ := Bool.and_eq_true_iff.mp hdir
      have hdefaults : s.defaults.ignores (dir ++ ['/']) = false := by
        cases hdefaults : s.defaults.ignores (dir ++ ['/']) with
        | false => rfl
        | true => rw [ignores_of_defaults h hd hdefaults] at hfile; exact hfile
      rw [hdefaults, Bool.false_or] at hin
      refine ⟨hwanted, hoff, by rw [hides, hd]; exact Bool.and_eq_true_iff.mpr ⟨hne, hin⟩, ?_⟩
      cases hforced : s.forces (dir ++ '/' :: rest) with
      | true => exact Or.inl rfl
      | false =>
          right
          rw [ignores_unforced hwanted hforced] at hfile
          obtain ⟨nested, hnested⟩ := @innermost_below_isSome s dir rest outer hd
          rw [hnested] at hfile
          simp only [ne_eq, file_inside h hnested, not_false_eq_true, decide_true, Bool.true_and,
            Bool.or_eq_false_iff] at hfile
          refine ⟨hfile.1, outer, nested, hd, hnested, ?_, hfile.2⟩
          rcases innermost_below hd hnested with rfl | hlen
          · have hbelow := inner_below h (innermost_isPrefix hd) (of_decide_eq_true hne) hin
            have hkept := hfile.2
            rw [Embedded.root, hbelow] at hkept
            exact Bool.noConfusion hkept
          · exact hlen

/-- A file keeps its way exactly when no directory above it is pruned. -/
theorem keepsWay_iff (s : ScopeIgnore) (f : FilePath) :
    s.KeepsWay f ↔ ∀ dir rest, f.text = dir ++ '/' :: rest → ¬ s.Pruned f.text (dir ++ ['/']) := by
  constructor
  · intro h dir rest hsplit hpruned
    have hkept := h (not_ignores_of_pruned hpruned) dir rest hsplit
    rw [ignores_directory_of_pruned hpruned] at hkept
    exact Bool.noConfusion hkept
  · intro h hfile dir rest hsplit
    cases hdir : s.ignores (dir ++ ['/']) with
    | false => rfl
    | true =>
        have hnormal := f.normal
        rw [hsplit] at hfile hnormal
        have hpruned := pruned_of_ignores hnormal hfile hdir
        rw [← hsplit] at hpruned
        exact (h dir rest hsplit hpruned).elim

/-- An embedded repository whose own rules ignore the directory of another one. -/
def nestedProject : Project where
  gitignore dir := if dir = "r1".toList then some "x/".toList else none
  gitExcludes _ := []
  gitIgnored := []
  excludePatterns := []
  includePatterns := []

def nestedFile : FilePath := ⟨"r1/x/r2/a.ts".toList, by decide +kernel⟩

theorem keepsWay_fails :
    ∃ s, buildScopeIgnore nestedProject ["r1".toList, "r1/x/r2".toList] = .ok s ∧
      ¬ s.KeepsWay nestedFile := by
  have hrun :
      (match buildScopeIgnore nestedProject ["r1".toList, "r1/x/r2".toList] with
      | .ok s => !s.ignores nestedFile.text && s.ignores ("r1/x".toList ++ ['/'])
      | .error _ => false) = true := by
    decide +kernel
  cases hbuild : buildScopeIgnore nestedProject ["r1".toList, "r1/x/r2".toList] with
  | error e =>
      rw [hbuild] at hrun
      exact Bool.noConfusion hrun
  | ok s =>
      rw [hbuild] at hrun
      obtain ⟨hfile, hdir⟩ := Bool.and_eq_true_iff.mp hrun
      refine ⟨s, rfl, fun h => ?_⟩
      have hkept := h (by simpa using hfile) "r1/x".toList "r2/a.ts".toList (by decide +kernel)
      rw [hdir] at hkept
      exact Bool.noConfusion hkept

end ScopeIgnore

end AfyxGraph.Scope
