import AfyxGraph.Scope.Pattern
import Mathlib.Data.List.Infix

/-! # The ignore matcher

`createIgnoreMatcher`: gitignore-like rules, of which the last that matches a path
decides, and a path below an ignored directory is ignored whatever the rules say
of the path itself. The last point is what makes pruning a directory safe.
-/

namespace AfyxGraph.Scope

open AfyxGraph.Core

/-! ## Rules -/

structure IgnoreRule where
  negative : Bool
  directoryOnly : Bool
  hasSlash : Bool
  matcher : List Token
  deriving DecidableEq, Repr

/-- Trailing spaces of the reversed text; a space behind an odd number of
backslashes stays. -/
def trimSpacesReversed : Text → Text
  | [] => []
  | c :: cs =>
      if c = ' ' ∧ (cs.takeWhile (· = '\\')).length % 2 = 0 then trimSpacesReversed cs
      else c :: cs

/-- `.replace(/\\ /g, ' ')` -/
def unescapeSpaces : Text → Text
  | [] => []
  | c :: cs => if c = '\\' ∧ cs.head? = some ' ' then unescapeSpaces cs else c :: unescapeSpaces cs

def trimUnescapedTrailingSpaces (value : Text) : Text :=
  unescapeSpaces (trimSpacesReversed value.reverse).reverse

/-- `.replace(/\r$/, '')` -/
def stripCarriageReturn (t : Text) : Text := if t.getLast? = some '\r' then t.dropLast else t

/-- A line without a rule is `none`. -/
def parseRule (source : Text) : Except PatternError (Option IgnoreRule) := do
  let line := trimUnescapedTrailingSpaces (stripCarriageReturn source)
  if line = [] ∨ line.head? = some '#' then return none
  let negative := line.head? = some '!'
  let pattern :=
    if negative ∨ line.take 2 = ['\\', '!'] ∨ line.take 2 = ['\\', '#'] then line.tail else line
  if pattern = [] then return none
  let directoryOnly := pattern.getLast? = some '/'
  let pattern := if directoryOnly then pattern.dropLast else pattern
  let rooted := pattern.head? = some '/'
  let pattern := if rooted then pattern.tail else pattern
  let matcher ← compilePathPattern pattern
  return some
    { negative, directoryOnly, hasSlash := rooted ∨ pattern.contains '/', matcher }

/-- `(?:/|$)` -/
def atBoundary : Text → Option Text
  | [] => some []
  | c :: cs => if c = '/' then some cs else none

/-- The text that `core(?:/|$)` takes from the front. -/
def takeCore (core : List Token) (t : Text) : Option Text :=
  ((rests core t).findSome? atBoundary).map fun rest => t.take (t.length - rest.length)

/-- `(?:^|/)core(?:/|$)`: the leftmost match, from the front while `start` holds. -/
def searchCore (core : List Token) : (start : Bool) → Text → Option Text
  | start, [] => if start then takeCore core [] else none
  | start, c :: cs =>
      ((if start then takeCore core (c :: cs) else none).or
        (if c = '/' then (takeCore core cs).map (c :: ·) else none)).or
        (searchCore core false cs)

/-- `rule.matcher.exec(candidate)`, its `match[0]`. -/
def IgnoreRule.exec (rule : IgnoreRule) (candidate : Text) : Option Text :=
  if rule.hasSlash then takeCore rule.matcher candidate
  else searchCore rule.matcher true candidate

/-- `.replace(/^\//, '')` -/
def stripLeadingSlash (t : Text) : Text := if t.head? = some '/' then t.tail else t

def ruleMatches (rule : IgnoreRule) (candidate : Text) (isDirectory : Bool) : Bool :=
  match rule.exec candidate with
  | none => false
  | some found =>
      !rule.directoryOnly ||
        (let matched := stripLeadingSlash found
         matched.getLast? = some '/' || isDirectory || matched.length < candidate.length)

/-! ## Matchers -/

/-- The rules in the order they were added. -/
abbrev Matcher := List IgnoreRule

namespace Matcher

/-- `add` of a list of lines. -/
def addLines (m : Matcher) : List Text → Except PatternError Matcher
  | [] => return m
  | line :: lines => do
      match ← parseRule line with
      | none => addLines m lines
      | some rule => addLines (m ++ [rule]) lines

/-- `add` of a text. -/
def add (m : Matcher) (patterns : Text) : Except PatternError Matcher :=
  m.addLines (patterns.split '\n')

def directlyIgnored (m : Matcher) (candidate : Text) (isDirectory : Bool) : Bool :=
  m.foldl
    (fun ignored rule => if ruleMatches rule candidate isDirectory then !rule.negative else ignored)
    false

/-- `.replace(/^\/+|\/+$/g, '')` -/
def stripSlashes (t : Text) : Text :=
  ((t.dropWhile (· = '/')).reverse.dropWhile (· = '/')).reverse

/-- A path that leaves the directory of the rules. -/
def leaves (t : Text) : Bool :=
  t = ['.', '.'] || ['.', '.', '/'] <+: t || ['/', '.', '.', '/'] <:+: t

/-- The directories above, outermost first. -/
def directoriesAbove (t : Text) : List Text :=
  (List.range' 1 (t.segments.length - 1)).map fun count => Text.join (t.segments.take count)

def ignores (m : Matcher) (candidate : Text) : Bool :=
  let isDirectory := candidate.getLast? = some '/' || candidate.getLast? = some '\\'
  let normalized := stripSlashes (normalizeSeparators candidate)
  if normalized = [] || leaves normalized then false
  else
    m.directlyIgnored normalized isDirectory ||
      (directoriesAbove normalized).any fun directory => m.directlyIgnored directory true

/-! ## Normal paths -/

theorem dropWhile_slash {t : Text} (h : t.head? ≠ some '/') : t.dropWhile (· = '/') = t := by
  cases t with
  | nil => rfl
  | cons c cs =>
      have hc : c ≠ '/' := by simpa using h
      simp [hc]

theorem dropWhile_slash_reverse {t : Text} (h : t.Normal) :
    (t.reverse.dropWhile (· = '/')).reverse = t := by
  rw [dropWhile_slash, List.reverse_reverse]
  rw [List.head?_reverse]
  exact h.last

theorem stripSlashes_file {t : Text} (h : t.Normal) : stripSlashes t = t := by
  rw [stripSlashes, dropWhile_slash h.head, dropWhile_slash_reverse h]

theorem stripSlashes_directory {t : Text} (h : t.Normal) : stripSlashes (t ++ ['/']) = t := by
  have hhead : (t ++ ['/']).head? ≠ some '/' := by
    cases t with
    | nil => exact (h.ne_nil rfl).elim
    | cons c cs => simpa using h.head
  rw [stripSlashes, dropWhile_slash hhead]
  simpa using dropWhile_slash_reverse h

theorem map_slash_of_notMem {t : Text} (h : '\\' ∉ t) :
    t.map (fun c => if c = '\\' then '/' else c) = t := by
  have hself : ∀ c ∈ t, (if c = '\\' then '/' else c) = id c := by
    intro c hc
    have hback : c ≠ '\\' := fun hback => h (hback ▸ hc)
    rw [if_neg hback, id]
  rw [List.map_congr_left hself, List.map_id]

theorem normalizeSeparators_of {t : Text} (hslash : '\\' ∉ t) (hhere : ¬ ['.', '/'] <+: t) :
    normalizeSeparators t = t := by
  rw [normalizeSeparators, map_slash_of_notMem hslash]
  split
  · rename_i rest
    exact (hhere ⟨rest, rfl⟩).elim
  · rfl

theorem normalizeSeparators_file {t : Text} (h : t.Normal) : normalizeSeparators t = t :=
  normalizeSeparators_of h.no_backslash h.no_here

theorem normalizeSeparators_directory {t : Text} (h : t.Normal) :
    normalizeSeparators (t ++ ['/']) = t ++ ['/'] := by
  apply normalizeSeparators_of
  · simpa using h.no_backslash
  · rintro ⟨rest, hrest⟩
    cases t with
    | nil => exact h.ne_nil rfl
    | cons c cs =>
        cases cs with
        | nil =>
            obtain rfl : '.' = c := by simpa using congrArg List.head? hrest
            exact (h ['.'] (by decide)).2.1 rfl
        | cons d ds =>
            simp only [List.cons_append, List.nil_append, List.cons.injEq] at hrest
            obtain ⟨rfl, rfl, _⟩ := hrest
            exact h.no_here ⟨ds, rfl⟩

theorem leaves_normal {t : Text} (h : t.Normal) : leaves t = false := by
  obtain ⟨hup, hfirst, hinner⟩ := h.no_parent
  simp [leaves, hup, hfirst, hinner]

/-- Some directory above is ignored by a rule of its own. -/
def above (m : Matcher) (t : Text) : Bool :=
  (directoriesAbove t).any fun directory => m.directlyIgnored directory true

theorem ignores_file (m : Matcher) {t : Text} (h : t.Normal) :
    m.ignores t = (m.directlyIgnored t false || m.above t) := by
  have hdir : (t.getLast? = some '/' || t.getLast? = some '\\') = false := by
    have hback : t.getLast? ≠ some '\\' := fun hlast =>
      h.no_backslash (List.mem_of_getLast? hlast)
    simp [h.last, hback]
  simp only [ignores]
  rw [normalizeSeparators_file h, stripSlashes_file h, leaves_normal h, hdir]
  simp [h.ne_nil, above]

theorem ignores_directory (m : Matcher) {t : Text} (h : t.Normal) :
    m.ignores (t ++ ['/']) = (m.directlyIgnored t true || m.above t) := by
  simp only [ignores]
  rw [normalizeSeparators_directory h, stripSlashes_directory h, leaves_normal h]
  simp [h.ne_nil, above]

theorem mem_directoriesAbove {d t : Text} :
    d ∈ directoriesAbove t ↔ ∃ count, 0 < count ∧ count < t.segments.length ∧
      Text.join (t.segments.take count) = d := by
  simp only [directoriesAbove, List.mem_map, List.mem_range'_1]
  constructor
  · rintro ⟨count, ⟨hpos, hlt⟩, hd⟩
    exact ⟨count, by omega, by omega, hd⟩
  · rintro ⟨count, hpos, hlt, hd⟩
    exact ⟨count, ⟨by omega, by omega⟩, hd⟩

theorem directory_mem_directoriesAbove (d rest : Text) :
    d ∈ directoriesAbove (d ++ '/' :: rest) := by
  rw [mem_directoriesAbove]
  have hd := List.length_pos_iff.mpr d.segments_ne_nil
  have hrest := List.length_pos_iff.mpr rest.segments_ne_nil
  refine ⟨d.segments.length, hd, ?_, ?_⟩
  · rw [Text.segments_append, List.length_append]
    omega
  · rw [Text.segments_append, List.take_left, Text.join_segments]

theorem directoriesAbove_subset (d rest : Text) :
    directoriesAbove d ⊆ directoriesAbove (d ++ '/' :: rest) := by
  intro a ha
  rw [mem_directoriesAbove] at ha ⊢
  obtain ⟨count, hpos, hlt, ha⟩ := ha
  refine ⟨count, hpos, ?_, ?_⟩
  · rw [Text.segments_append, List.length_append]
    omega
  · rw [Text.segments_append, List.take_append_of_le_length (by omega), ha]

/-! ## Paths as they come -/

/-- What `ignores` makes of a candidate. -/
def normalized (candidate : Text) : Text := stripSlashes (normalizeSeparators candidate)

/-- `.replace(/\/+$/, '')` -/
def stripTrailing (t : Text) : Text := (t.reverse.dropWhile (· = '/')).reverse

theorem stripTrailing_append (a b : Text) :
    stripTrailing (a ++ b) =
      if stripTrailing b = [] then stripTrailing a else a ++ stripTrailing b := by
  unfold stripTrailing
  rw [List.reverse_append, List.dropWhile_append]
  by_cases hb : (b.reverse.dropWhile (· = '/')) = []
  · simp [hb]
  · simp [hb]

theorem exists_stripTrailing (t : Text) :
    ∃ slashes : Text, t = stripTrailing t ++ slashes ∧ ∀ c ∈ slashes, c = '/' := by
  refine ⟨(t.reverse.takeWhile (· = '/')).reverse, ?_, fun c hc => ?_⟩
  · unfold stripTrailing
    rw [← List.reverse_append, List.takeWhile_append_dropWhile, List.reverse_reverse]
  · have hall := List.all_takeWhile (p := (· = '/')) (l := t.reverse)
    simpa using List.all_eq_true.mp hall c (List.mem_reverse.mp hc)

/-- The text behind the slashes at the front of a directory is the same for what is in it. -/
theorem stripSlashes_within {d : Text} (h : stripSlashes (d ++ ['/']) ≠ []) (rest : Text) :
    stripSlashes (d ++ '/' :: rest) = stripSlashes (d ++ ['/']) ∧ stripTrailing rest = [] ∨
      ∃ below, stripSlashes (d ++ '/' :: rest) = stripSlashes (d ++ ['/']) ++ '/' :: below := by
  have hstrip : ∀ t, stripSlashes t = stripTrailing (t.dropWhile (· = '/')) := fun _ => rfl
  have hone : stripTrailing ['/'] = [] := by decide
  have hfront : d.dropWhile (· = '/') ≠ [] := by
    intro hnil
    rw [hstrip, List.dropWhile_append, hnil] at h
    exact h (by decide)
  have hdrop : ∀ t, (d ++ t).dropWhile (· = '/') = d.dropWhile (· = '/') ++ t := by
    intro t
    rw [List.dropWhile_append, if_neg (by simpa using hfront)]
  generalize d.dropWhile (· = '/') = e at hfront hdrop
  simp only [hstrip, hdrop]
  rw [stripTrailing_append e ['/'], if_pos hone, stripTrailing_append e ('/' :: rest),
    ← List.singleton_append, stripTrailing_append ['/'] rest]
  by_cases hrest : stripTrailing rest = []
  · rw [if_pos hrest, if_pos hone]
    exact .inl ⟨rfl, hrest⟩
  · rw [if_neg hrest, if_neg (by simp)]
    right
    obtain ⟨slashes, he, hslashes⟩ := exists_stripTrailing e
    cases slashes with
    | nil =>
        rw [List.append_nil] at he
        exact ⟨stripTrailing rest, by rw [← he]; rfl⟩
    | cons c slashes =>
        obtain rfl := hslashes c List.mem_cons_self
        refine ⟨slashes ++ '/' :: stripTrailing rest, ?_⟩
        conv_lhs => rw [he]
        simp

theorem normalizeSeparators_within {d : Text} (h : normalized (d ++ ['/']) ≠ []) (rest : Text) :
    ∃ d', normalizeSeparators (d ++ ['/']) = d' ++ ['/'] ∧
      normalizeSeparators (d ++ '/' :: rest) =
        d' ++ '/' :: rest.map fun c => if c = '\\' then '/' else c := by
  unfold normalized at h
  simp only [normalizeSeparators, List.map_append, List.map_cons, List.map_nil] at h ⊢
  rw [if_neg (by decide)] at h ⊢
  generalize rest.map (fun c => if c = '\\' then '/' else c) = rest
  match hd : d.map (fun c => if c = '\\' then '/' else c) with
  | [] => exact ⟨[], rfl, rfl⟩
  | [c] =>
      rw [hd] at h
      by_cases hc : c = '.'
      · subst hc
        exact absurd rfl h
      · refine ⟨[c], ?_, ?_⟩
        · split
          · next heq => exact absurd (List.cons.inj heq).1 hc
          · rfl
        · split
          · next heq => exact absurd (List.cons.inj heq).1 hc
          · rfl
  | c :: e :: d' =>
      by_cases hc : c = '.' ∧ e = '/'
      · obtain ⟨rfl, rfl⟩ := hc
        exact ⟨d', rfl, rfl⟩
      · refine ⟨c :: e :: d', ?_, ?_⟩
        · split
          · next heq =>
              simp only [List.cons_append, List.cons.injEq] at heq
              exact absurd ⟨heq.1, heq.2.1⟩ hc
          · rfl
        · split
          · next heq =>
              simp only [List.cons_append, List.cons.injEq] at heq
              exact absurd ⟨heq.1, heq.2.1⟩ hc
          · rfl

/-- A candidate that ends in a separator is a directory. -/
theorem isDirectory_of_stripTrailing {d rest : Text}
    (h : stripTrailing (rest.map fun c => if c = '\\' then '/' else c) = []) :
    ((d ++ '/' :: rest).getLast? = some '/' || (d ++ '/' :: rest).getLast? = some '\\') = true := by
  rcases List.eq_nil_or_concat rest with rfl | ⟨front, c, rfl⟩
  · simp
  · have hlast : (if c = '\\' then '/' else c) = '/' := by
      obtain ⟨slashes, hsplit, hslashes⟩ := exists_stripTrailing
        ((front.concat c).map fun c => if c = '\\' then '/' else c)
      rw [h, List.nil_append] at hsplit
      exact hslashes _ (hsplit ▸ List.mem_map_of_mem (by simp))
    have hget : (d ++ '/' :: front.concat c).getLast? = some c := by
      rw [List.concat_eq_append, ← List.cons_append, ← List.append_assoc, List.getLast?_append]
      rfl
    rw [hget]
    by_cases hc : c = '\\'
    · simp [hc]
    · rw [if_neg hc] at hlast
      simp [hlast]

/-- What lies below an ignored directory is ignored, unless its path leaves the root. -/
theorem ignores_within (m : Matcher) {d rest : Text} (hd : m.ignores (d ++ ['/']) = true)
    (hin : leaves (normalized (d ++ '/' :: rest)) = false) :
    m.ignores (d ++ '/' :: rest) = true := by
  have hne : normalized (d ++ ['/']) ≠ [] := by
    intro hnil
    rw [ignores] at hd
    simp [show stripSlashes (normalizeSeparators (d ++ ['/'])) = [] from hnil] at hd
  have hplaces : m.directlyIgnored (normalized (d ++ ['/'])) true = true ∨
      m.above (normalized (d ++ ['/'])) = true := by
    rw [ignores] at hd
    split at hd
    · cases hd
    · exact Bool.or_eq_true_iff.mp (by simpa [normalized, above] using hd)
  obtain ⟨d', hdir, hfile⟩ := normalizeSeparators_within hne rest
  have hstrip : stripSlashes (d' ++ ['/']) ≠ [] := by
    rw [← hdir]
    exact hne
  rw [normalized, hdir] at hplaces
  rw [normalized, hfile] at hin
  rw [ignores]
  simp only [hfile]
  rcases stripSlashes_within hstrip (rest.map fun c => if c = '\\' then '/' else c) with
    ⟨hsame, hslashes⟩ | ⟨below, hbelow⟩
  · rw [hsame] at hin ⊢
    rw [if_neg (by simp [hstrip, hin]), isDirectory_of_stripTrailing hslashes]
    exact Bool.or_eq_true_iff.mpr hplaces
  · rw [hbelow] at hin ⊢
    rw [if_neg (by simp [hin])]
    refine Bool.or_eq_true_iff.mpr (.inr ?_)
    rcases hplaces with hown | habove
    · exact List.any_eq_true.mpr ⟨_, directory_mem_directoriesAbove _ below, hown⟩
    · obtain ⟨a, ha, hignored⟩ := List.any_eq_true.mp habove
      exact List.any_eq_true.mpr ⟨a, directoriesAbove_subset _ below ha, hignored⟩

/-- What lies below an ignored directory is ignored. -/
theorem ignores_below (m : Matcher) {d rest : Text} (h : (d ++ '/' :: rest).Normal)
    (hd : m.ignores (d ++ ['/']) = true) : m.ignores (d ++ '/' :: rest) = true := by
  refine ignores_within m hd ?_
  rw [normalized, normalizeSeparators_file h, stripSlashes_file h]
  exact leaves_normal h

end Matcher

end AfyxGraph.Scope
