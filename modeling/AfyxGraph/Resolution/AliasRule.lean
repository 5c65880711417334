import AfyxGraph.Resolution.PathAliases

/-! # The rule for aliases

An import stands for the replacements of its most specific pattern, with what the star captured put
in as it is. What the scan over the patterns does apart from that: lead and tail of a pattern may
overlap in a short import, a dollar sign in what is captured may be read as a reference, and a
directory whose name begins with two dots is taken for the way out of the project.
-/

namespace AfyxGraph.Resolution.PathAliases

open AfyxGraph.Runtime AfyxGraph.Runtime.PosixPath
open AfyxGraph.UiServer (js)

/-! ## The rule -/

/-- The import is the pattern with the captured text for its star. -/
def AliasPattern.Captures (pat : AliasPattern) (importPath captured : JsString) : Prop :=
  if pat.hasWildcard then importPath = pat.lead ++ (captured ++ pat.tail)
  else importPath = pat.lead ∧ captured = []

/-- The first star is replaced by the text as it is. -/
def replaceLiterally (target captured : JsString) : JsString :=
  match target.dropWhile (· ≠ star) with
  | [] => target
  | _ :: after => target.takeWhile (· ≠ star) ++ (captured ++ after)

def AliasPattern.intended (pat : AliasPattern) (target captured : JsString) : JsString :=
  if pat.hasWildcard then replaceLiterally target captured else target

/-- The form in the project of a path that is in it. -/
def Place.expected (place : Place) (baseUrl filled : JsString) : Option JsString :=
  let absolute := place.cwd.resolve [baseUrl, filled]
  if place.root.Within absolute then some (projectForm place.root absolute) else none

variable {importPath captured : JsString} {aliases : AliasMap} {place : Place} {pat : AliasPattern}

/-- What an import comes to through the pattern that is used for it. -/
structure UsesPattern (importPath : JsString) (aliases : AliasMap) (place : Place)
    (pat : AliasPattern) (captured : JsString) : Prop where
  captures : pat.Captures importPath captured
  literal_first : ∀ other ∈ aliases.patterns, other.hasWildcard = false →
    other.Captures importPath [] → pat.hasWildcard = false
  longest : ∀ other ∈ aliases.patterns, ∀ text, other.Captures importPath text →
    other.lead.length ≤ pat.lead.length
  fills : ∀ target ∈ pat.replacements, pat.fill target captured = pat.intended target captured
  candidates : applyAliases importPath aliases place = pat.replacements.filterMap fun target =>
    place.expected aliases.baseUrl (pat.intended target captured)

structure FollowsRule (importPath : JsString) (aliases : AliasMap) (place : Place) : Prop where
  unused : aliases.used importPath = none →
    (∀ pat ∈ aliases.patterns, ∀ captured, ¬ pat.Captures importPath captured) ∧
      applyAliases importPath aliases place = []
  uses : ∀ pat captured, aliases.used importPath = some (pat, captured) →
    UsesPattern importPath aliases place pat captured

/-! ## What may go wrong -/

/-- References in the captured text, if the target has a star at all, come to themselves. -/
def Verbatim (target captured : JsString) : Prop :=
  star ∈ target →
    substitute (target.takeWhile (· ≠ star)) (target.dropWhile (· ≠ star)).tail captured = captured

structure Harmless (importPath : JsString) (aliases : AliasMap) (place : Place)
    (pat : AliasPattern) (captured : JsString) : Prop where
  apart : pat.hasWildcard = true → pat.lead.length + pat.tail.length ≤ importPath.length
  verbatim : pat.hasWildcard = true → ∀ target ∈ pat.replacements, Verbatim target captured
  plain : ∀ target ∈ pat.replacements,
    let absolute := place.cwd.resolve [aliases.baseUrl, pat.intended target captured]
    place.root.Within absolute →
      ¬ AbsolutePath.Dotted (absolute.names.drop place.root.names.length)

/-! ## Matches -/

theorem match?_of_captures (h : pat.Captures importPath captured) :
    pat.match? importPath = some captured := by
  unfold AliasPattern.Captures at h
  unfold AliasPattern.match?
  split at h
  next hwildcard =>
    subst h
    have hlead : pat.lead.isPrefixOf (pat.lead ++ (captured ++ pat.tail)) = true :=
      List.isPrefixOf_iff_prefix.mpr (List.prefix_append ..)
    have htail : pat.tail.isSuffixOf (pat.lead ++ (captured ++ pat.tail)) = true :=
      List.isSuffixOf_iff_suffix.mpr ⟨pat.lead ++ captured, by rw [List.append_assoc]⟩
    have hslice : slice (pat.lead ++ (captured ++ pat.tail)) pat.lead.length
        ((pat.lead ++ (captured ++ pat.tail)).length - pat.tail.length) = captured := by
      have hlength : (pat.lead ++ (captured ++ pat.tail)).length - pat.tail.length =
          (pat.lead ++ captured).length := by
        simp only [List.length_append]
        omega
      rw [slice, hlength, ← List.append_assoc, List.take_left, List.drop_left]
    rw [hlead, htail, hwildcard, hslice]
    simp
  next hwildcard =>
    obtain ⟨rfl, rfl⟩ := h
    have hliteral := pat.literal (by simpa using hwildcard)
    simp [hliteral, hwildcard]

theorem lead_of_match? (h : pat.match? importPath = some captured) : pat.lead <+: importPath := by
  unfold AliasPattern.match? at h
  split at h
  · cases h
  next hlead => exact List.isPrefixOf_iff_prefix.mp (by simpa using hlead)

theorem exists_captures (h : pat.match? importPath = some captured)
    (hapart : pat.hasWildcard = true → pat.lead.length + pat.tail.length ≤ importPath.length) :
    ∃ text, pat.Captures importPath text := by
  obtain ⟨rest, rfl⟩ := lead_of_match? h
  unfold AliasPattern.match? at h
  unfold AliasPattern.Captures
  split at h
  · cases h
  · split at h
    · cases h
    next htail =>
      split at h
      next hwildcard =>
        have hsuffix : pat.tail <:+ pat.lead ++ rest := by
          by_cases hnil : pat.tail = []
          · rw [hnil]
            exact List.nil_suffix
          · exact List.isSuffixOf_iff_suffix.mp (by simpa [hnil] using htail)
        have hlength := hapart hwildcard
        rw [List.length_append] at hlength
        have hrest : pat.tail <:+ rest :=
          List.suffix_of_suffix_length_le hsuffix (List.suffix_append ..) (by omega)
        obtain ⟨text, rfl⟩ := hrest
        exact ⟨text, by rw [if_pos hwildcard]⟩
      next hwildcard =>
        split at h
        · cases h
        next hlead => exact ⟨[], by rw [if_neg hwildcard]; exact ⟨by simpa using hlead, rfl⟩⟩

/-- A match is what it seems when lead and tail do not overlap. -/
theorem captures_of_match? (h : pat.match? importPath = some captured)
    (hapart : pat.hasWildcard = true → pat.lead.length + pat.tail.length ≤ importPath.length) :
    pat.Captures importPath captured := by
  obtain ⟨text, htext⟩ := exists_captures h hapart
  obtain rfl : text = captured := Option.some.inj ((match?_of_captures htext).symm.trans h)
  exact htext

theorem apart_of_captures (h : pat.Captures importPath captured)
    (hwildcard : pat.hasWildcard = true) : pat.lead.length + pat.tail.length ≤ importPath.length := by
  rw [AliasPattern.Captures, if_pos hwildcard] at h
  rw [h, List.length_append, List.length_append]
  omega

/-! ## The pattern that is used -/

theorem used_split (h : aliases.used importPath = some (pat, captured)) :
    ∃ front back, aliases.patterns = front ++ pat :: back ∧ pat.match? importPath = some captured ∧
      ∀ other ∈ front, other.match? importPath = none := by
  obtain ⟨front, found, back, hsplit, hfound, hfront⟩ := List.findSome?_eq_some_iff.mp h
  obtain ⟨text, htext, heq⟩ := Option.map_eq_some_iff.mp hfound
  cases heq
  exact ⟨front, back, hsplit, htext, fun other hother =>
    Option.map_eq_none_iff.mp (hfront other hother)⟩

/-- No pattern that matches is more specific than the one that is used. -/
theorem moreSpecific_of_used (h : aliases.used importPath = some (pat, captured))
    {other : AliasPattern} (hother : other ∈ aliases.patterns) {text : JsString}
    (hcaptures : other.Captures importPath text) : other = pat ∨ moreSpecific pat other = true := by
  obtain ⟨front, back, hsplit, -, hfront⟩ := used_split h
  have hordered := aliases.ordered
  rw [hsplit] at hother hordered
  rcases List.mem_append.mp hother with hin | hin
  · cases (hfront other hin).symm.trans (match?_of_captures hcaptures)
  · rcases List.mem_cons.mp hin with heq | hin
    · exact .inl heq
    · have hback := (List.pairwise_append.mp hordered).2.1
      exact .inr ((List.pairwise_cons.mp hback).1 other hin)

theorem longest_of_used (h : aliases.used importPath = some (pat, captured)) :
    ∀ other ∈ aliases.patterns, ∀ text, other.Captures importPath text →
      other.lead.length ≤ pat.lead.length := by
  intro other hother text hcaptures
  rcases moreSpecific_of_used h hother hcaptures with rfl | hspecific
  · exact Nat.le_refl _
  · rcases moreSpecific_iff.mp hspecific with hlt | ⟨heq, -⟩
    · exact Nat.le_of_lt hlt
    · exact Nat.le_of_eq heq.symm

theorem literal_first_of_used (h : aliases.used importPath = some (pat, captured)) :
    ∀ other ∈ aliases.patterns, other.hasWildcard = false → other.Captures importPath [] →
      pat.hasWildcard = false := by
  intro other hother hliteral hcaptures
  rcases moreSpecific_of_used h hother hcaptures with rfl | hspecific
  · exact hliteral
  · have hwhole : importPath = other.lead := by
      rw [AliasPattern.Captures, if_neg (by simp [hliteral])] at hcaptures
      exact hcaptures.1
    obtain ⟨-, -, -, hmatch, -⟩ := used_split h
    have hlead := (lead_of_match? hmatch).length_le
    rw [hwhole] at hlead
    rcases moreSpecific_iff.mp hspecific with hlt | ⟨-, hwildcard⟩
    · exact absurd hlead (Nat.not_le.mpr hlt)
    · by_contra hne
      rw [hwildcard (by simpa using hne)] at hliteral
      cases hliteral

theorem not_captures_of_unused (h : aliases.used importPath = none) :
    ∀ pat ∈ aliases.patterns, ∀ captured, ¬ pat.Captures importPath captured := by
  intro pat hpat captured hcaptures
  have hnone := List.findSome?_eq_none_iff.mp h pat hpat
  rw [match?_of_captures hcaptures] at hnone
  cases hnone

/-! ## Replacements -/

theorem fill_eq_intended_iff {target : JsString} (hwildcard : pat.hasWildcard = true) :
    pat.fill target captured = pat.intended target captured ↔ Verbatim target captured := by
  rw [AliasPattern.fill, AliasPattern.intended, if_pos hwildcard, if_pos hwildcard, replaceStar,
    replaceLiterally, Verbatim]
  cases hrest : target.dropWhile (· ≠ star) with
  | nil =>
      have hnone : star ∉ target := by
        intro hmem
        simpa using List.dropWhile_eq_nil_iff.mp hrest star hmem
      exact ⟨fun _ hmem => absurd hmem hnone, fun _ => rfl⟩
  | cons c after =>
      have hmem : star ∈ target := by
        by_contra hnone
        have hnil : target.dropWhile (· ≠ star) = [] := List.dropWhile_eq_nil_iff.mpr fun d hd => by
          simpa using ne_of_mem_of_not_mem hd hnone
        rw [hnil] at hrest
        cases hrest
      simp only [List.append_cancel_left_eq, List.append_cancel_right_eq, hmem, true_implies,
        List.tail_cons]

theorem candidate_eq (place : Place) (baseUrl filled : JsString) :
    place.candidate baseUrl filled =
      if place.root.Within (place.cwd.resolve [baseUrl, filled]) ∧
          ¬ AbsolutePath.Dotted ((place.cwd.resolve [baseUrl, filled]).names.drop
            place.root.names.length) then
        some (projectForm place.root (place.cwd.resolve [baseUrl, filled]))
      else none := by
  have hup := @AbsolutePath.up_isPrefix_relative place.root (place.cwd.resolve [baseUrl, filled])
  simp only [Place.candidate]
  by_cases h : up <+: place.root.relative (place.cwd.resolve [baseUrl, filled])
  · rw [if_pos (List.isPrefixOf_iff_prefix.mpr h), if_neg]
    rintro ⟨hwithin, hplain⟩
    exact (hup.mp h).elim (fun hnot => hnot hwithin) hplain
  · rw [if_neg (by rwa [List.isPrefixOf_iff_prefix]), if_pos]
    rw [hup, not_or, not_not] at h
    exact h

/-- A replacement is lost or comes to what it should. -/
theorem candidate_none_or (place : Place) (baseUrl filled : JsString) :
    place.candidate baseUrl filled = none ∨
      place.candidate baseUrl filled = place.expected baseUrl filled := by
  rw [candidate_eq]
  split
  next h => exact .inr (by simp only [Place.expected, if_pos h.1])
  next => exact .inl rfl

theorem candidate_eq_expected_iff (place : Place) (baseUrl filled : JsString) :
    place.candidate baseUrl filled = place.expected baseUrl filled ↔
      (place.root.Within (place.cwd.resolve [baseUrl, filled]) →
        ¬ AbsolutePath.Dotted ((place.cwd.resolve [baseUrl, filled]).names.drop
          place.root.names.length)) := by
  rw [candidate_eq]
  simp only [Place.expected]
  by_cases hwithin : place.root.Within (place.cwd.resolve [baseUrl, filled])
  · rw [if_pos hwithin]
    constructor
    · intro h _ hdotted
      rw [if_neg fun hboth => hboth.2 hdotted] at h
      cases h
    · intro h
      rw [if_pos ⟨hwithin, h hwithin⟩]
  · rw [if_neg hwithin, if_neg fun hboth => hwithin hboth.1]
    exact ⟨fun _ h => absurd h hwithin, fun _ => rfl⟩

section Lists

variable {α β : Type} {f g : α → Option β}

theorem length_filterMap_le_of_none_or {xs : List α} (h : ∀ x ∈ xs, f x = none ∨ f x = g x) :
    (xs.filterMap f).length ≤ (xs.filterMap g).length := by
  induction xs with
  | nil => exact Nat.le_refl _
  | cons x xs ih =>
      obtain ⟨hx, hxs⟩ := List.forall_mem_cons.mp h
      have hle := ih hxs
      rw [List.filterMap_cons, List.filterMap_cons]
      rcases hx with hx | hx
      · rw [hx]
        cases g x with
        | none => exact hle
        | some y => exact Nat.le_succ_of_le hle
      · rw [hx]
        cases g x with
        | none => exact hle
        | some y => exact Nat.succ_le_succ hle

/-- Lists of what is kept agree only when nothing is lost. -/
theorem filterMap_eq_iff {xs : List α} (h : ∀ x ∈ xs, f x = none ∨ f x = g x) :
    xs.filterMap f = xs.filterMap g ↔ ∀ x ∈ xs, f x = g x := by
  refine ⟨fun heq => ?_, fun hall => List.filterMap_congr hall⟩
  induction xs with
  | nil => exact fun x hx => absurd hx List.not_mem_nil
  | cons x xs ih =>
      obtain ⟨hx, hxs⟩ := List.forall_mem_cons.mp h
      rw [List.filterMap_cons, List.filterMap_cons] at heq
      refine List.forall_mem_cons.mpr ?_
      rcases hx with hx | hx
      · cases hg : g x with
        | none =>
            rw [hx, hg] at heq
            exact ⟨hx, ih hxs heq⟩
        | some y =>
            simp only [hx, hg] at heq
            have hlength := congrArg List.length heq
            have hle := length_filterMap_le_of_none_or hxs
            rw [List.length_cons] at hlength
            omega
      · refine ⟨hx, ih hxs ?_⟩
        rw [hx] at heq
        cases hg : g x with
        | none => simpa [hg] using heq
        | some y => simpa [hg] using heq

end Lists

/-! ## When the rule is followed -/

theorem usesPattern_iff (h : aliases.used importPath = some (pat, captured)) :
    UsesPattern importPath aliases place pat captured ↔
      Harmless importPath aliases place pat captured := by
  obtain ⟨-, -, -, hmatch, -⟩ := used_split h
  have happly : applyAliases importPath aliases place = pat.replacements.filterMap fun target =>
      place.candidate aliases.baseUrl (pat.fill target captured) := by
    rw [applyAliases, h]
  have hexpected : (∀ target ∈ pat.replacements,
      pat.fill target captured = pat.intended target captured) →
      (applyAliases importPath aliases place = (pat.replacements.filterMap fun target =>
        place.expected aliases.baseUrl (pat.intended target captured)) ↔
      ∀ target ∈ pat.replacements,
        place.candidate aliases.baseUrl (pat.intended target captured) =
          place.expected aliases.baseUrl (pat.intended target captured)) := by
    intro hfills
    rw [happly, ← filterMap_eq_iff fun target _ => candidate_none_or ..]
    have hcongr : (pat.replacements.filterMap fun target =>
        place.candidate aliases.baseUrl (pat.fill target captured)) =
        pat.replacements.filterMap fun target =>
          place.candidate aliases.baseUrl (pat.intended target captured) :=
      List.filterMap_congr fun target htarget => by rw [hfills target htarget]
    rw [hcongr]
  constructor
  · intro huses
    refine ⟨apart_of_captures huses.captures, fun hwildcard target htarget =>
      (fill_eq_intended_iff hwildcard).mp (huses.fills target htarget), fun target htarget => ?_⟩
    exact (candidate_eq_expected_iff ..).mp
      ((hexpected huses.fills).mp huses.candidates target htarget)
  · intro hharmless
    have hfills : ∀ target ∈ pat.replacements,
        pat.fill target captured = pat.intended target captured := by
      intro target htarget
      by_cases hwildcard : pat.hasWildcard = true
      · exact (fill_eq_intended_iff hwildcard).mpr (hharmless.verbatim hwildcard target htarget)
      · rw [AliasPattern.fill, AliasPattern.intended, if_neg hwildcard, if_neg hwildcard]
    exact ⟨captures_of_match? hmatch hharmless.apart, literal_first_of_used h, longest_of_used h,
      hfills, (hexpected hfills).mpr fun target htarget =>
        (candidate_eq_expected_iff ..).mpr (hharmless.plain target htarget)⟩

/-- The rule is followed exactly when the pattern that is used, if there is one, is harmless. -/
theorem followsRule_iff (importPath : JsString) (aliases : AliasMap) (place : Place) :
    FollowsRule importPath aliases place ↔
      ∀ pat captured, aliases.used importPath = some (pat, captured) →
        Harmless importPath aliases place pat captured := by
  constructor
  · intro h pat captured hused
    exact (usesPattern_iff hused).mp (h.uses pat captured hused)
  · intro h
    refine ⟨fun hnone => ⟨not_captures_of_unused hnone, ?_⟩, fun pat captured hused =>
      (usesPattern_iff hused).mpr (h pat captured hused)⟩
    rw [applyAliases, hnone]

/-- `ab*b` is used for `ab`. -/
theorem followsRule_fails :
    ¬ ∀ (importPath : JsString) (aliases : AliasMap) (place : Place),
      FollowsRule importPath aliases place := by
  intro h
  have hordered : [splitWildcard (js "ab*b") [js "src/*"]].Pairwise
      fun a b => moreSpecific a b = true := List.pairwise_singleton _ _
  have hused : AliasMap.used ⟨js "/p", _, hordered⟩ (js "ab") =
      some (splitWildcard (js "ab*b") [js "src/*"], []) := by
    rfl
  have huses := (h (js "ab") ⟨js "/p", _, hordered⟩ ⟨.root, js "/p"⟩).uses _ _ hused
  exact absurd (apart_of_captures huses.captures rfl) (by decide)

end AfyxGraph.Resolution.PathAliases
