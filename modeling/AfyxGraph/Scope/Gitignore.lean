import AfyxGraph.Core.LastRule
import AfyxGraph.Scope.Fits

/-! # Rules of a gitignore

What the rules say of a path, told place by place: the path and the directories above it are
each decided by the last rule that matches the place itself. The matcher asks instead for the
last rule whose expression is found in the path, so that a rule which matches a directory also
has a say in everything below it.
-/

namespace AfyxGraph.Scope

open AfyxGraph.Core

/-- The pattern matches the last segment of a path, or the whole when it has a slash. -/
def IgnoreRule.matchesPath (rule : IgnoreRule) (q : Text) : Bool :=
  fits rule.matcher (if rule.hasSlash then q else lastSegment q)

/-- A path, and whether it is a directory. -/
abbrev Place := Text × Bool

def IgnoreRule.matchesPlace (rule : IgnoreRule) (place : Place) : Bool :=
  (!rule.directoryOnly || place.2) && rule.matchesPath place.1

/-- A directory above a place. -/
def Above (above place : Place) : Prop :=
  above.2 = true ∧ above.1 ∈ Matcher.directoriesAbove place.1

def UpTo (above place : Place) : Prop := above = place ∨ Above above place

theorem UpTo.refl (place : Place) : UpTo place place := .inl rfl

theorem UpTo.trans (a b c : Place) (hab : UpTo a b) (hbc : UpTo b c) : UpTo a c := by
  rcases hab with rfl | hab
  · exact hbc
  · rcases hbc with rfl | hbc
    · exact .inr hab
    · exact .inr ⟨hab.1, directoriesAbove_trans hab.2 hbc.2⟩

namespace Matcher

variable {m : Matcher} {t : Text} {isDirectory : Bool} {rule : IgnoreRule} {place : Place}

/-- The last rule that matches the place itself is not negated. -/
def IgnoresPlace (m : Matcher) (place : Place) : Prop :=
  ∃ rule, Decides m (·.matchesPlace place = true) rule ∧ rule.negative = false

/-- The path, or some directory above it, is ignored. -/
def GitIgnored (m : Matcher) (t : Text) (isDirectory : Bool) : Prop :=
  ∃ place, UpTo place (t, isDirectory) ∧ m.IgnoresPlace place

/-- The rule that ignores the place is in force there: no later rule matches the place or a
directory above it. -/
def KeepsIgnored (m : Matcher) (place : Place) : Prop :=
  ∃ rule, Settles m (fun rule place => rule.matchesPlace place = true) UpTo place rule ∧
    rule.negative = false

/-- Expressions find what patterns match. The expression of a rule without a slash is found
only in paths of which the pattern matches a segment. To a path that is no directory, a rule for
directories without a slash applies by its last segment only at the top or along with a
directory above, and a negated one that applies to a directory above is not found as the whole. -/
structure FindsMatches (m : Matcher) (t : Text) (isDirectory : Bool) : Prop where
  segment : ∀ rule ∈ m, rule.hasSlash = false → ∀ q, q = t ∨ q ∈ directoriesAbove t →
    (rule.exec q).isSome = true → ∃ s ∈ q.segments, fits rule.matcher s = true
  directory : isDirectory = false → ∀ rule ∈ m, rule.directoryOnly = true →
    rule.hasSlash = false → '/' ∈ t → rule.matchesPath t = true →
    ∃ d ∈ directoriesAbove t, rule.matchesPath d = true
  negated : isDirectory = false → ∀ rule ∈ m, rule.directoryOnly = true →
    rule.negative = true → ∀ d ∈ directoriesAbove t, rule.matchesPath d = true →
    rule.exec t ≠ some t

/-! ## Expressions -/

theorem isSome_exec_of_matchesPath {q d : Text} (hd : d = q ∨ d ∈ directoriesAbove q)
    (h : rule.matchesPath d = true) : (rule.exec q).isSome = true := by
  have hrest : ∃ r, q = d ++ r ∧ (r = [] ∨ ∃ u, r = '/' :: u) := by
    rcases hd with rfl | hd
    · exact ⟨[], by simp, .inl rfl⟩
    · obtain ⟨u, rfl⟩ := mem_directoriesAbove_iff.mp hd
      exact ⟨'/' :: u, rfl, .inr ⟨u, rfl⟩⟩
  obtain ⟨r, rfl, hr⟩ := hrest
  cases hslash : rule.hasSlash with
  | true =>
      simp only [IgnoreRule.matchesPath, hslash, if_true] at h
      simp only [IgnoreRule.exec, hslash, if_true]
      exact isSome_takeCore.mpr ⟨d, r, rfl, h, hr⟩
  | false =>
      simp only [IgnoreRule.matchesPath, hslash, Bool.false_eq_true, if_false] at h
      simp only [IgnoreRule.exec, hslash, Bool.false_eq_true, if_false]
      refine isSome_searchCore.mpr ?_
      rcases eq_lastSegment d with heq | ⟨a, heq⟩
      · rw [← heq] at h
        exact .inl ⟨rfl, isSome_takeCore.mpr ⟨d, r, rfl, h, hr⟩⟩
      · refine .inr ⟨a, lastSegment d ++ r, ?_, isSome_takeCore.mpr ⟨_, r, rfl, h, hr⟩⟩
        have happend : d ++ r = (a ++ '/' :: lastSegment d) ++ r := by rw [← heq]
        simpa using happend

theorem exists_of_isSome_exec {q : Text} (h : (rule.exec q).isSome = true)
    (hsegment : rule.hasSlash = false → ∃ s ∈ q.segments, fits rule.matcher s = true) :
    ∃ d, (d = q ∨ d ∈ directoriesAbove q) ∧ rule.matchesPath d = true := by
  cases hslash : rule.hasSlash with
  | true =>
      simp only [IgnoreRule.exec, hslash, if_true] at h
      obtain ⟨a, r, rfl, ha, hr⟩ := isSome_takeCore.mp h
      refine ⟨a, ?_, by simp only [IgnoreRule.matchesPath, hslash, if_true, ha]⟩
      rcases hr with rfl | ⟨u, rfl⟩
      · exact .inl (by simp)
      · exact .inr (mem_directoriesAbove_iff.mpr ⟨u, rfl⟩)
  | false =>
      obtain ⟨s, hs, hfits⟩ := hsegment hslash
      obtain ⟨d, hd, rfl⟩ := mem_segments_iff.mp hs
      refine ⟨d, hd, ?_⟩
      simp only [IgnoreRule.matchesPath, hslash, Bool.false_eq_true, if_false, hfits]

/-- The expression of tokens that read no slash is found at a segment. -/
theorem exists_segment_of_inner {q : Text} (hslash : rule.hasSlash = false)
    (hinner : ∀ token ∈ rule.matcher, token.inner = true) (h : (rule.exec q).isSome = true) :
    ∃ s ∈ q.segments, fits rule.matcher s = true := by
  have hfront : ∀ u : Text, (takeCore rule.matcher u).isSome = true →
      ∃ s ∈ u.segments, fits rule.matcher s = true := by
    intro u hu
    obtain ⟨a, r, rfl, hfits, hr⟩ := isSome_takeCore.mp hu
    have ha : a.segments = [a] := Text.split_of_notMem (notMem_of_fits hinner hfits)
    refine ⟨a, ?_, hfits⟩
    rcases hr with rfl | ⟨v, rfl⟩
    · rw [List.append_nil, ha]
      exact List.mem_singleton_self a
    · rw [Text.segments_append, ha]
      exact List.mem_cons_self ..
  simp only [IgnoreRule.exec, hslash, Bool.false_eq_true, if_false] at h
  rcases isSome_searchCore.mp h with ⟨-, htop⟩ | ⟨a, u, rfl, hbehind⟩
  · exact hfront q htop
  · obtain ⟨s, hs, hfits⟩ := hfront u hbehind
    exact ⟨s, by simp [Text.segments_append, hs], hfits⟩

/-- Of a directory, and for a rule that is not for directories only, it is enough that the
expression is found. -/
theorem ruleMatches_eq_isSome (h : rule.directoryOnly = false ∨ isDirectory = true) :
    ruleMatches rule t isDirectory = (rule.exec t).isSome := by
  unfold ruleMatches
  cases rule.exec t with
  | none => rfl
  | some found => rcases h with h | h <;> simp [h]

theorem exec_eq_some {found : Text} (h : rule.exec t = some found) :
    takeCore rule.matcher t = some found ∨ ∃ a u taken, t = a ++ '/' :: u ∧
      takeCore rule.matcher u = some taken ∧ found = '/' :: taken := by
  cases hslash : rule.hasSlash with
  | true =>
      simp only [IgnoreRule.exec, hslash, if_true] at h
      exact .inl h
  | false =>
      simp only [IgnoreRule.exec, hslash, Bool.false_eq_true, if_false] at h
      rcases searchCore_eq_some h with ⟨-, hfront⟩ | hslash
      · exact .inl hfront
      · exact .inr hslash

/-- Of a path that is no directory, a rule for directories takes a part. -/
theorem ruleMatches_file_iff (ht : t.Normal) (honly : rule.directoryOnly = true) :
    ruleMatches rule t false = true ↔ ∃ found, rule.exec t = some found ∧ found ≠ t := by
  unfold ruleMatches
  cases hfound : rule.exec t with
  | none => simp
  | some found =>
      simp only [honly, Bool.not_true, Bool.false_or, Bool.or_false, Bool.or_eq_true,
        decide_eq_true_eq, Option.some.injEq, exists_eq_left']
      constructor
      · rintro hpart rfl
        rw [stripLeadingSlash, if_neg ht.head] at hpart
        rcases hpart with hlast | hshort
        · exact ht.last hlast
        · omega
      · intro hne
        rcases exec_eq_some hfound with hfront | ⟨a, u, taken, rfl, htaken, rfl⟩
        · rcases takeCore_eq_some hfront with ⟨-, rfl⟩ | ⟨a, u, rfl, -, rfl⟩
          · exact absurd rfl hne
          · left
            have hhead : (a ++ ['/']).head? ≠ some '/' := by
              have hpath := ht.head
              cases a with
              | nil => exact fun _ => hpath rfl
              | cons c cs => exact hpath
            rw [stripLeadingSlash, if_neg hhead]
            simp
        · right
          have hlength : taken.length ≤ u.length := by
            rcases takeCore_eq_some htaken with ⟨-, rfl⟩ | ⟨b, v, rfl, -, rfl⟩
            · exact Nat.le_refl _
            · simp
          have hstrip : stripLeadingSlash ('/' :: taken) = taken := rfl
          rw [hstrip, List.length_append, List.length_cons]
          omega

/-! ## Places of a path -/

theorem upTo_of_path {q : Text} (hplace : UpTo place (t, isDirectory))
    (hq : q = place.1 ∨ q ∈ directoriesAbove place.1) : q = t ∨ q ∈ directoriesAbove t := by
  rcases hplace with rfl | ⟨-, hplace⟩
  · exact hq
  · rcases hq with rfl | hq
    · exact .inr hplace
    · exact .inr (directoriesAbove_trans hq hplace)

/-- Only a path that is no directory is closed to rules for directories. -/
theorem upTo_cases (rule : IgnoreRule) (hplace : UpTo place (t, isDirectory)) :
    (rule.directoryOnly = false ∨ place.2 = true) ∨
      (rule.directoryOnly = true ∧ place = (t, false) ∧ isDirectory = false) := by
  cases honly : rule.directoryOnly with
  | false => exact .inl (.inl rfl)
  | true =>
      rcases hplace with rfl | ⟨hkind, -⟩
      · cases isDirectory with
        | true => exact .inl (.inr rfl)
        | false => exact .inr ⟨rfl, rfl, rfl⟩
      · exact .inl (.inr hkind)

/-- A rule is taken to match the places it matches. -/
theorem ruleMatches_of_matchesPlace (h : rule.matchesPlace place = true) :
    ruleMatches rule place.1 place.2 = true := by
  obtain ⟨hkind, hpath⟩ := Bool.and_eq_true_iff.mp h
  have hopen : rule.directoryOnly = false ∨ place.2 = true := by simpa using hkind
  rw [ruleMatches_eq_isSome hopen]
  exact isSome_exec_of_matchesPath (.inl rfl) hpath

/-- A rule that is taken to match a place matches the place or a directory above it. -/
theorem exists_matchesPlace_of_ruleMatches (ht : t.Normal) (h : m.FindsMatches t isDirectory)
    (hrule : rule ∈ m) (hplace : UpTo place (t, isDirectory))
    (hmatches : ruleMatches rule place.1 place.2 = true) :
    ∃ d, UpTo d place ∧ rule.matchesPlace d = true := by
  rcases upTo_cases rule hplace with hopen | ⟨honly, rfl, rfl⟩
  · obtain ⟨q, isDir⟩ := place
    rw [ruleMatches_eq_isSome hopen] at hmatches
    have hq := upTo_of_path hplace (.inl rfl)
    obtain ⟨d, hd, hpath⟩ := exists_of_isSome_exec hmatches fun hslash =>
      h.segment rule hrule hslash q hq hmatches
    rcases hd with rfl | hd
    · refine ⟨(d, isDir), .inl rfl, ?_⟩
      rcases hopen with hopen | rfl <;> simp [IgnoreRule.matchesPlace, *]
    · exact ⟨(d, true), .inr ⟨rfl, hd⟩, by simp [IgnoreRule.matchesPlace, hpath]⟩
  · -- only a directory above will do
    have habove : ∃ d ∈ directoriesAbove t, rule.matchesPath d = true := by
      obtain ⟨found, hfound, hne⟩ := (ruleMatches_file_iff ht honly).mp hmatches
      cases hslash : rule.hasSlash with
      | true =>
          have hfront : takeCore rule.matcher t = some found := by
            rw [← hfound, IgnoreRule.exec, if_pos hslash]
          rcases takeCore_eq_some hfront with ⟨-, heq⟩ | ⟨a, u, rfl, hfits, -⟩
          · exact absurd heq hne
          · refine ⟨a, directory_mem_directoriesAbove a u, ?_⟩
            simp only [IgnoreRule.matchesPath, hslash, if_true, hfits]
      | false =>
          have hsome : (rule.exec t).isSome = true := by rw [hfound]; rfl
          obtain ⟨d, hd, hpath⟩ := exists_of_isSome_exec hsome fun _ =>
            h.segment rule hrule hslash t (.inl rfl) hsome
          rcases hd with rfl | hd
          · apply h.directory rfl rule hrule honly hslash ?_ hpath
            rcases exec_eq_some hfound with hfront | ⟨a, u, -, rfl, -, -⟩
            · rcases takeCore_eq_some hfront with ⟨-, heq⟩ | ⟨a, u, rfl, -, -⟩
              · exact absurd heq hne
              · simp
            · simp
          · exact ⟨d, hd, hpath⟩
    obtain ⟨d, hd, hpath⟩ := habove
    exact ⟨(d, true), .inr ⟨rfl, hd⟩, by simp [IgnoreRule.matchesPlace, hpath]⟩

/-- A negated rule is taken to match the places below those it matches. -/
theorem ruleMatches_of_negative (ht : t.Normal) (h : m.FindsMatches t isDirectory)
    (hrule : rule ∈ m) (hnegative : rule.negative = true) (hplace : UpTo place (t, isDirectory))
    {d : Place} (hd : UpTo d place) (hmatches : rule.matchesPlace d = true) :
    ruleMatches rule place.1 place.2 = true := by
  obtain ⟨hkind, hpath⟩ := Bool.and_eq_true_iff.mp hmatches
  have hpaths : d.1 = place.1 ∨ d.1 ∈ directoriesAbove place.1 := by
    rcases hd with rfl | ⟨-, hd⟩
    · exact .inl rfl
    · exact .inr hd
  have hsome : (rule.exec place.1).isSome = true := isSome_exec_of_matchesPath hpaths hpath
  rcases upTo_cases rule hplace with hopen | ⟨honly, rfl, rfl⟩
  · rw [ruleMatches_eq_isSome hopen]
    exact hsome
  · rw [ruleMatches_file_iff ht honly]
    obtain ⟨found, hfound⟩ := Option.isSome_iff_exists.mp hsome
    refine ⟨found, hfound, ?_⟩
    rintro rfl
    rcases hd with rfl | ⟨-, hd⟩
    · simp [honly] at hkind
    · exact h.negated rfl rule hrule honly hnegative d.1 hd hpath hfound

/-! ## The matcher -/

/-- The path as it is given to `ignores`. -/
def candidate (t : Text) (isDirectory : Bool) : Text := if isDirectory then t ++ ['/'] else t

theorem directlyIgnored_iff : m.directlyIgnored t isDirectory = true ↔
    ∃ rule, Decides m (ruleMatches · t isDirectory = true) rule ∧ rule.negative = false := by
  rw [directlyIgnored, foldl_eq_true_iff]
  simp only [Bool.not_eq_true']

theorem ignores_iff_places (m : Matcher) {t : Text} (h : t.Normal) (isDirectory : Bool) :
    m.ignores (candidate t isDirectory) = true ↔
      ∃ place, UpTo place (t, isDirectory) ∧ m.directlyIgnored place.1 place.2 = true := by
  have hcandidate : m.ignores (candidate t isDirectory) =
      (m.directlyIgnored t isDirectory || m.above t) := by
    cases isDirectory with
    | true => exact m.ignores_directory h
    | false => exact m.ignores_file h
  rw [hcandidate, Bool.or_eq_true, above, List.any_eq_true]
  constructor
  · rintro (hself | ⟨d, hd, hignored⟩)
    · exact ⟨(t, isDirectory), .refl _, hself⟩
    · exact ⟨(d, true), .inr ⟨rfl, hd⟩, hignored⟩
  · rintro ⟨⟨q, kind⟩, heq | ⟨hkind, hq⟩, hignored⟩
    · obtain ⟨rfl, rfl⟩ := Prod.mk.inj heq
      exact .inl hignored
    · obtain rfl : kind = true := hkind
      exact .inr ⟨q, hq, hignored⟩

/-- Where expressions find what patterns match, a path is ignored when some place of it is kept
ignored. -/
theorem ignores_iff_keepsIgnored (ht : t.Normal) (h : m.FindsMatches t isDirectory) :
    m.ignores (candidate t isDirectory) = true ↔
      ∃ place, UpTo place (t, isDirectory) ∧ m.KeepsIgnored place := by
  rw [ignores_iff_places m ht]
  simp only [directlyIgnored_iff]
  refine exists_decides_iff_exists_settles (fun rule : IgnoreRule => rule.negative = false)
    UpTo.refl UpTo.trans (fun a b hb hab => UpTo.trans a b _ hab hb) ?_ ?_ ?_
  · exact fun place _ rule _ hown => ruleMatches_of_matchesPlace hown
  · exact fun place hplace rule hrule hhit =>
      exists_matchesPlace_of_ruleMatches ht h hrule hplace hhit
  · intro place hplace rule hrule hnegative d hd hown
    rw [Bool.not_eq_false] at hnegative
    exact ruleMatches_of_negative ht h hrule hnegative hplace hd hown

/-- Rules that read no slash without having one, and of which none is for directories only. -/
theorem findsMatches_of_inner (hinner : ∀ rule ∈ m, rule.hasSlash = false →
    ∀ token ∈ rule.matcher, token.inner = true)
    (hkind : isDirectory = true ∨ ∀ rule ∈ m, rule.directoryOnly = false) :
    m.FindsMatches t isDirectory := by
  have hopen : isDirectory = false → ∀ rule ∈ m, rule.directoryOnly = true → False := by
    rintro rfl rule hrule honly
    rcases hkind with hkind | hkind
    · cases hkind
    · rw [hkind rule hrule] at honly
      cases honly
  refine ⟨fun rule hrule hslash q _ hfound => ?_, fun hfile rule hrule honly => ?_,
    fun hfile rule hrule honly => ?_⟩
  · exact exists_segment_of_inner hslash (hinner rule hrule hslash) hfound
  · exact (hopen hfile rule hrule honly).elim
  · exact (hopen hfile rule hrule honly).elim

theorem KeepsIgnored.ignoresPlace (h : m.KeepsIgnored place) : m.IgnoresPlace place := by
  obtain ⟨rule, hrule, hnegative⟩ := h
  have hdecides := @Settles.decides IgnoreRule m rule Place
    (fun rule place => rule.matchesPlace place = true) UpTo place UpTo.refl hrule
  exact ⟨rule, hdecides, hnegative⟩

/-- Where expressions find what patterns match, the matcher is that of a gitignore exactly when
an ignored path has a place that is kept ignored. -/
theorem ignores_iff_gitIgnored (m : Matcher) (f : FilePath) (isDirectory : Bool)
    (h : m.FindsMatches f.text isDirectory) :
    (m.ignores (candidate f.text isDirectory) = true ↔ m.GitIgnored f.text isDirectory) ↔
      (m.GitIgnored f.text isDirectory →
        ∃ place, UpTo place (f.text, isDirectory) ∧ m.KeepsIgnored place) := by
  rw [ignores_iff_keepsIgnored f.normal h]
  constructor
  · exact fun hiff => hiff.mpr
  · intro hkept
    refine ⟨?_, hkept⟩
    rintro ⟨place, hplace, hkeeps⟩
    exact ⟨place, hplace, hkeeps.ignoresPlace⟩

/-- Logs are ignored, important ones excepted. -/
def importantLogs : Matcher :=
  [{ negative := false, directoryOnly := false, hasSlash := false,
     matcher := [.star, .char '.', .char 'l', .char 'o', .char 'g'] },
   { negative := true, directoryOnly := false, hasSlash := false,
     matcher := "important".toList.map Token.char }]

example : addLines [] ["*.log".toList, "!important".toList] = .ok importantLogs := by
  decide +kernel

/-- A log below a directory of the excepted name. -/
def importantLog : FilePath := ⟨"important/x.log".toList, by decide⟩

theorem ignores_iff_gitIgnored_importantLog :
    importantLogs.FindsMatches importantLog.text false ∧
      ((importantLogs.ignores (candidate importantLog.text false) = true ↔
          importantLogs.GitIgnored importantLog.text false) ↔
        (importantLogs.GitIgnored importantLog.text false →
          ∃ place, UpTo place (importantLog.text, false) ∧ importantLogs.KeepsIgnored place)) := by
  have h : importantLogs.FindsMatches importantLog.text false :=
    findsMatches_of_inner (by decide) (.inr (by decide))
  exact ⟨h, ignores_iff_gitIgnored importantLogs importantLog false h⟩

/-- The log is matched by the first rule alone, the directory by the second. -/
theorem not_ignores_importantLog :
    ¬ (importantLogs.ignores (candidate importantLog.text false) = true ↔
      importantLogs.GitIgnored importantLog.text false) := by
  have hignores : importantLogs.ignores (candidate importantLog.text false) = false := by
    decide +kernel
  have hlog : ∀ rule ∈ importantLogs.take 1,
      rule.matchesPlace (importantLog.text, false) = true := by
    decide +kernel
  have hlater : ∀ rule ∈ importantLogs.drop 1,
      rule.matchesPlace (importantLog.text, false) = false := by
    decide +kernel
  have hgit : importantLogs.GitIgnored importantLog.text false := by
    refine ⟨(importantLog.text, false), UpTo.refl _, _, ⟨[], importantLogs.drop 1, rfl, ?_, ?_⟩, rfl⟩
    · exact hlog _ (List.mem_singleton_self _)
    · intro rule hrule
      simp [hlater rule hrule]
  rw [hignores]
  simp [hgit]

end Matcher

end AfyxGraph.Scope
