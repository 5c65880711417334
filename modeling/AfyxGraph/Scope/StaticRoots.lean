import AfyxGraph.Scope.Gitignore
import AfyxGraph.Scope.ScopeIgnore

/-! # Where anchored patterns match

The rule of a pattern with a slash in front of something is matched from the front of a path. The
literal directories that such a pattern begins with are then the first directories of the path.
-/

namespace AfyxGraph.Scope

open AfyxGraph.Core

/-! ## Literal text -/

/-- The characters that a pattern and a path have in common. -/
def isLiteral (s : Text) : Bool := !s.any isGlobMeta

theorem compileFrom_literal {lit : Text} (h : isLiteral lit = true) (rest : Text) :
    compileFrom .plain (lit ++ rest) =
      (compileFrom .plain rest).map (lit.map Token.char ++ ·) := by
  induction lit with
  | nil =>
      rw [List.nil_append]
      cases compileFrom .plain rest with
      | error e => rfl
      | ok tokens => rfl
  | cons c lit ih =>
      simp only [isLiteral, List.any_cons, Bool.not_or, Bool.and_eq_true, Bool.not_eq_true'] at h
      have hread : readPlain c = (.plain, [.char c]) := by
        have hmeta := h.1
        simp only [isGlobMeta, decide_eq_false_iff_not, List.mem_cons, not_or] at hmeta
        rw [readPlain, if_neg hmeta.1, if_neg hmeta.2.1, if_neg hmeta.2.2.1]
      have hrest := ih (by simp [isLiteral, h.2])
      rw [List.cons_append, compileFrom]
      · simp only [readCharacter, hread, pure_bind]
        rw [hrest]
        cases compileFrom .plain rest with
        | error e => rfl
        | ok tokens => rfl

theorem fits_literal {lit a : Text} {core : List Token} :
    fits (lit.map Token.char ++ core) a = true ↔ ∃ b, a = lit ++ b ∧ fits core b = true := by
  simp only [fits, decide_eq_true_eq]
  induction lit generalizing a with
  | nil => simp
  | cons c lit ih =>
      rw [List.map_cons, List.cons_append, rests, List.mem_flatMap]
      constructor
      · rintro ⟨u, hu, hrest⟩
        cases a with
        | nil => cases hu
        | cons d a =>
            obtain ⟨rfl, rfl⟩ := mem_ite_singleton.mp hu
            obtain ⟨b, rfl, hb⟩ := ih.mp hrest
            exact ⟨b, rfl, hb⟩
      · rintro ⟨b, rfl, hb⟩
        exact ⟨lit ++ b, mem_ite_singleton.mpr ⟨rfl, rfl⟩, ih.mpr ⟨b, rfl, hb⟩⟩

theorem isLiteral_of_segments {t : Text} (h : ∀ s ∈ t.segments, isLiteral s = true) :
    isLiteral t = true := by
  rw [isLiteral, Bool.not_eq_true', List.any_eq_false]
  intro c hc
  by_cases hslash : c = '/'
  · rw [hslash]
    decide
  · obtain ⟨s, hs, hcs⟩ := Text.exists_segment hc hslash
    have hlit := h s hs
    rw [isLiteral, Bool.not_eq_true', List.any_eq_false] at hlit
    exact hlit c hcs

theorem isLiteral_append {s t : Text} : isLiteral (s ++ t) = (isLiteral s && isLiteral t) := by
  simp [isLiteral]

theorem notMem_of_mem_segments {t s : Text} (h : s ∈ t.segments) : '/' ∉ s :=
  Text.notMem_of_mem_split h

/-- What stands in front of the first that is not literal. -/
theorem exists_firstGlob {names : List Text} (h : ¬ ∀ s ∈ names, isLiteral s = true) :
    ∃ lits name rest, names = lits ++ name :: rest ∧ (∀ s ∈ lits, isLiteral s = true) ∧
      isLiteral name = false := by
  induction names with
  | nil => exact absurd (fun s hs => absurd hs List.not_mem_nil) h
  | cons s names ih =>
      cases hs : isLiteral s with
      | false => exact ⟨[], s, names, rfl, fun r hr => absurd hr List.not_mem_nil, hs⟩
      | true =>
          have hrest : ¬ ∀ r ∈ names, isLiteral r = true := fun hall =>
            h (List.forall_mem_cons.mpr ⟨hs, hall⟩)
          obtain ⟨lits, name, rest, rfl, hlits, hname⟩ := ih hrest
          exact ⟨s :: lits, name, rest, rfl, List.forall_mem_cons.mpr ⟨hs, hlits⟩, hname⟩

theorem fits_of_isLiteral {t a : Text} {core : List Token} (ht : isLiteral t = true)
    (hcore : compileFrom .plain t = .ok core) (ha : fits core a = true) : a = t := by
  have hcompile := compileFrom_literal ht []
  rw [List.append_nil, hcore] at hcompile
  obtain rfl : core = t.map Token.char ++ [] := Except.ok.inj hcompile
  obtain ⟨b, rfl, hb⟩ := fits_literal.mp ha
  obtain rfl : [] = b := List.mem_singleton.mp (of_decide_eq_true hb)
  exact List.append_nil t

theorem exists_of_fits_append {lit rest a : Text} {core : List Token} (hlit : isLiteral lit = true)
    (hcore : compileFrom .plain (lit ++ rest) = .ok core) (ha : fits core a = true) :
    ∃ b, a = lit ++ b := by
  rw [compileFrom_literal hlit] at hcore
  cases hrest : compileFrom .plain rest with
  | error e =>
      rw [hrest] at hcore
      cases hcore
  | ok tokens =>
      rw [hrest] at hcore
      obtain rfl := Except.ok.inj hcore
      obtain ⟨b, rfl, -⟩ := fits_literal.mp ha
      exact ⟨b, rfl⟩

/-- A text that a pattern fits is the pattern, or goes on behind the segments in front of its
first glob. -/
theorem segments_of_fits {t a : Text} {core : List Token} (hcore : compileFrom .plain t = .ok core)
    (ha : fits core a = true) :
    (a = t ∧ ∀ s ∈ t.segments, isLiteral s = true) ∨
      ∃ lits name rest more, t.segments = lits ++ name :: rest ∧
        (∀ s ∈ lits, isLiteral s = true) ∧ isLiteral name = false ∧
          a.segments = lits ++ more ∧ more ≠ [] := by
  by_cases hall : ∀ s ∈ t.segments, isLiteral s = true
  · exact .inl ⟨fits_of_isLiteral (isLiteral_of_segments hall) hcore ha, hall⟩
  · right
    obtain ⟨lits, name, rest, hsegments, hlits, hname⟩ := exists_firstGlob hall
    refine ⟨lits, name, rest, ?_⟩
    by_cases hnone : lits = []
    · subst hnone
      exact ⟨a.segments, hsegments, hlits, hname, rfl, a.segments_ne_nil⟩
    · have hslash : ∀ s ∈ lits, '/' ∉ s := fun s hs =>
        notMem_of_mem_segments (hsegments ▸ List.mem_append_left _ hs)
      have hjoin := segments_join hnone hslash
      have hlit : isLiteral (Text.join lits ++ ['/']) = true := by
        rw [isLiteral_append, isLiteral_of_segments (by rwa [hjoin])]
        rfl
      have ht : t = (Text.join lits ++ ['/']) ++ Text.join (name :: rest) := by
        rw [List.append_assoc, List.singleton_append,
          ← Text.join_append hnone (List.cons_ne_nil _ _), ← hsegments, Text.join_segments]
      rw [ht] at hcore
      obtain ⟨b, rfl⟩ := exists_of_fits_append hlit hcore ha
      refine ⟨b.segments, hsegments, hlits, hname, ?_, b.segments_ne_nil⟩
      rw [List.append_assoc, List.singleton_append, Text.segments_append, hjoin]

/-! ## Anchored patterns -/

/-- What is left of a pattern without a slash at the end and one at the front. -/
def body (pattern : Text) : Text :=
  let inner : Text := if pattern.getLast? = some '/' then pattern.dropLast else pattern
  if inner.head? = some '/' then inner.tail else inner

/-- The pattern is not negated, has a slash in front of something, and is written without a
backslash and without a space at its end. -/
structure Anchored (pattern : Text) (rule : IgnoreRule) : Prop where
  parsed : parseRule pattern = .ok (some rule)
  positive : rule.negative = false
  hasSlash : rule.hasSlash = true
  no_backslash : '\\' ∉ pattern
  no_space : pattern.getLast? ≠ some ' ' ∧ pattern.getLast? ≠ some '\r'

variable {pattern t : Text} {rule : IgnoreRule}

theorem unescapeSpaces_of_notMem {t : Text} (h : '\\' ∉ t) : unescapeSpaces t = t := by
  induction t with
  | nil => rfl
  | cons c t ih =>
      rw [List.mem_cons, not_or] at h
      rw [unescapeSpaces, if_neg fun hc => h.1 hc.1.symm, ih h.2]

theorem Anchored.line (h : Anchored pattern rule) :
    trimUnescapedTrailingSpaces (stripCarriageReturn pattern) = pattern := by
  rw [stripCarriageReturn, if_neg h.no_space.2, trimUnescapedTrailingSpaces]
  have htrim : trimSpacesReversed pattern.reverse = pattern.reverse := by
    have hhead := h.no_space.1
    rw [← List.head?_reverse] at hhead
    cases hreverse : pattern.reverse with
    | nil => rfl
    | cons c cs =>
        rw [hreverse] at hhead
        rw [trimSpacesReversed, if_neg fun hc => hhead (by rw [hc.1]; rfl)]
  rw [htrim, List.reverse_reverse, unescapeSpaces_of_notMem h.no_backslash]

/-- The rule of a line behind its mark. -/
def ruleOf (negative : Bool) (pattern : Text) : Except PatternError (Option IgnoreRule) := do
  if pattern = [] then return none
  let matcher ← compilePathPattern (body pattern)
  let inner : Text := if pattern.getLast? = some '/' then pattern.dropLast else pattern
  return some
    { negative
      directoryOnly := pattern.getLast? = some '/'
      hasSlash := inner.head? = some '/' ∨ (body pattern).contains '/'
      matcher }

theorem ruleOf_eq_some {negative : Bool} (h : ruleOf negative pattern = .ok (some rule)) :
    rule.negative = negative ∧ compilePathPattern (body pattern) = .ok rule.matcher ∧
      rule.directoryOnly = decide (pattern.getLast? = some '/') := by
  unfold ruleOf at h
  split at h
  · cases h
  · cases hcompile : compilePathPattern (body pattern) with
    | error e =>
        rw [hcompile] at h
        cases h
    | ok matcher =>
        rw [hcompile] at h
        obtain rfl := Option.some.inj (Except.ok.inj h)
        exact ⟨rfl, rfl, rfl⟩

theorem parseRule_eq (source : Text) : parseRule source =
    (let line := trimUnescapedTrailingSpaces (stripCarriageReturn source)
    if line = [] ∨ line.head? = some '#' then .ok none
    else ruleOf (line.head? = some '!')
      (if line.head? = some '!' ∨ line.take 2 = ['\\', '!'] ∨ line.take 2 = ['\\', '#'] then
        line.tail else line)) := by
  unfold parseRule ruleOf body
  rfl

/-- What is read from an anchored pattern. -/
theorem Anchored.compiled (h : Anchored pattern rule) :
    compilePathPattern (body pattern) = .ok rule.matcher ∧
      rule.directoryOnly = decide (pattern.getLast? = some '/') := by
  have hparsed := h.parsed
  have hescape : ∀ c, pattern.take 2 ≠ ['\\', c] := by
    intro c heq
    exact h.no_backslash (List.mem_of_mem_take (heq ▸ List.mem_cons_self))
  simp only [parseRule_eq, h.line] at hparsed
  split at hparsed
  · cases hparsed
  · have hbang : pattern.head? ≠ some '!' := by
      intro hbang
      have hnegative := (ruleOf_eq_some hparsed).1
      rw [h.positive, hbang] at hnegative
      cases hnegative
    rw [if_neg (by simp [hbang, hescape])] at hparsed
    exact (ruleOf_eq_some hparsed).2

/-! ## The names in a pattern -/

/-- `p.split('/').filter(Boolean)` -/
def namesOf (t : Text) : List Text := t.segments.filter (· ≠ [])

theorem namesOf_append (a b : Text) : namesOf (a ++ '/' :: b) = namesOf a ++ namesOf b := by
  rw [namesOf, Text.segments_append, List.filter_append]
  rfl

theorem namesOf_cons_slash (t : Text) : namesOf ('/' :: t) = namesOf t := namesOf_append [] t

theorem namesOf_concat_slash (t : Text) : namesOf (t ++ ['/']) = namesOf t := by
  rw [namesOf_append]
  exact List.append_nil _

theorem namesOf_dropWhile (t : Text) : namesOf (t.dropWhile (· = '/')) = namesOf t := by
  induction t with
  | nil => rfl
  | cons c t ih =>
      by_cases hc : c = '/'
      · rw [List.dropWhile_cons_of_pos (by simpa using hc), ih, hc, namesOf_cons_slash]
      · rw [List.dropWhile_cons_of_neg (by simpa using hc)]

theorem namesOf_dropSlash (t : Text) :
    namesOf (if t.getLast? = some '/' then t.dropLast else t) = namesOf t := by
  split
  · next hlast =>
      obtain ⟨inner, rfl⟩ := List.getLast?_eq_some_iff.mp hlast
      rw [List.dropLast_concat, namesOf_concat_slash]
  · rfl

theorem namesOf_body (pattern : Text) : namesOf (body pattern) = namesOf pattern := by
  rw [body, ← namesOf_dropSlash pattern]
  generalize (if pattern.getLast? = some '/' then pattern.dropLast else pattern) = inner
  split
  · next hhead =>
      obtain ⟨rest, rfl⟩ := List.head?_eq_some_iff.mp hhead
      exact (namesOf_cons_slash rest).symm
  · rfl

/-! ## The front of a pattern -/

/-- The literal directories that a pattern begins with. -/
inductive Front (pattern : Text) (dirs : List Text) : Prop where
  /-- Up to the first name with a glob. -/
  | glob (name : Text) (rest : List Text) (names : namesOf pattern = dirs ++ name :: rest)
      (literal : ∀ dir ∈ dirs, isLiteral dir = true) (wild : isLiteral name = false)
  /-- Without a glob, up to the last name. -/
  | file (name : Text) (names : namesOf pattern = dirs ++ [name])
      (literal : ∀ dir ∈ dirs ++ [name], isLiteral dir = true)
      (plain : pattern.getLast? ≠ some '/')
  /-- All names, when a slash stands behind the last. -/
  | directory (names : namesOf pattern = dirs) (literal : ∀ dir ∈ dirs, isLiteral dir = true)
      (slash : pattern.getLast? = some '/' ∨ dirs = [])

theorem getLast?_dropWhile {t : Text} (h : t.dropWhile (· = '/') ≠ []) :
    (t.dropWhile (· = '/')).getLast? = t.getLast? := by
  conv_rhs => rw [← List.takeWhile_append_dropWhile (p := (· = '/')) (l := t)]
  rw [List.getLast?_append_of_ne_nil _ h]

/-- Slashes in front of a pattern, and more than one between its names, have no part in it. -/
theorem staticLead_eq (pattern : Text) : staticLead pattern =
    if ((namesOf pattern).takeWhile isLiteral).length < (namesOf pattern).length ∨
        pattern.getLast? = some '/' then
      (namesOf pattern).takeWhile isLiteral
    else ((namesOf pattern).takeWhile isLiteral).dropLast := by
  have hshape : staticLead pattern =
      (let p : Text := pattern.dropWhile (· = '/')
      let segs := namesOf (if p.getLast? = some '/' then p.dropLast else p)
      let lead := segs.takeWhile isLiteral
      if ¬ lead.length < segs.length ∧ ¬ p.getLast? = some '/' then lead.dropLast else lead) := rfl
  rw [hshape]
  dsimp only
  rw [namesOf_dropSlash, namesOf_dropWhile]
  by_cases hempty : pattern.dropWhile (· = '/') = []
  · have hnone : namesOf pattern = [] := by
      rw [← namesOf_dropWhile, hempty]
      rfl
    simp [hnone]
  · rw [getLast?_dropWhile hempty]
    by_cases hlead :
        ((namesOf pattern).takeWhile isLiteral).length < (namesOf pattern).length ∨
          pattern.getLast? = some '/'
    · rw [if_pos hlead, if_neg]
      rwa [not_and_or, not_not, not_not]
    · rw [if_neg hlead, if_pos (not_or.mp hlead)]

theorem takeWhile_front {dirs rest : List Text} {name : Text}
    (hliteral : ∀ dir ∈ dirs, isLiteral dir = true) (hwild : isLiteral name = false) :
    (dirs ++ name :: rest).takeWhile isLiteral = dirs := by
  rw [List.takeWhile_append_of_pos hliteral, List.takeWhile_cons_of_neg (by simp [hwild]),
    List.append_nil]

theorem takeWhile_all {names : List Text} (h : ∀ name ∈ names, isLiteral name = true) :
    names.takeWhile isLiteral = names := List.takeWhile_eq_self_iff.mpr h

/-- The front is what the code cuts out. -/
theorem front_iff {pattern : Text} {dirs : List Text} :
    Front pattern dirs ↔ staticLead pattern = dirs := by
  rw [staticLead_eq]
  constructor
  · intro h
    cases h with
    | glob name rest names literal wild =>
        rw [names, takeWhile_front literal wild, if_pos (.inl (by simp))]
    | file name names literal plain =>
        rw [names, takeWhile_all literal, if_neg (by simp [plain]), List.dropLast_concat]
    | directory names literal slash =>
        rw [names, takeWhile_all literal]
        rcases slash with hslash | rfl
        · rw [if_pos (.inr hslash)]
        · simp
  · rintro rfl
    have hsplit := List.takeWhile_append_dropWhile (p := isLiteral) (l := namesOf pattern)
    have hliteral : ∀ dir ∈ (namesOf pattern).takeWhile isLiteral, isLiteral dir = true :=
      List.all_eq_true.mp List.all_takeWhile
    generalize (namesOf pattern).takeWhile isLiteral = lead at hsplit hliteral
    cases hrest : (namesOf pattern).dropWhile isLiteral with
    | cons name rest =>
        rw [hrest] at hsplit
        have hwild := List.head_dropWhile_not isLiteral (l := namesOf pattern) (by simp [hrest])
        simp only [hrest, List.head_cons] at hwild
        rw [← hsplit, if_pos (.inl (by simp))]
        exact .glob name rest hsplit.symm hliteral hwild
    | nil =>
        rw [hrest, List.append_nil] at hsplit
        rw [← hsplit]
        by_cases hslash : pattern.getLast? = some '/'
        · rw [if_pos (.inr hslash)]
          exact .directory hsplit.symm hliteral (.inl hslash)
        · rw [if_neg (by simp [hslash])]
          rcases List.eq_nil_or_concat lead with rfl | ⟨dirs, name, rfl⟩
          · exact .directory hsplit.symm hliteral (.inr rfl)
          · rw [List.concat_eq_append] at hsplit hliteral ⊢
            rw [List.dropLast_concat]
            exact .file name hsplit.symm hliteral hslash

/-! ## Roots -/

/-- A root is the front of a pattern, of which no other front is a proper part. -/
def IsRoot (patterns dirs : List Text) : Prop :=
  (∃ pattern ∈ patterns, Front pattern dirs) ∧
    ∀ other ∈ patterns, ∀ shorter, Front other shorter → shorter <+: dirs → shorter = dirs

/-- The root as it is written. -/
def rootText (dirs : List Text) : Text := if dirs = [] then [] else Text.join dirs ++ ['/']

theorem Front.names {pattern : Text} {dirs : List Text} (h : Front pattern dirs) :
    ∀ dir ∈ dirs, dir ≠ [] ∧ '/' ∉ dir := by
  intro dir hdir
  have hmem : dir ∈ namesOf pattern := by
    cases h with
    | glob name rest names => rw [names]; exact List.mem_append_left _ hdir
    | file name names => rw [names]; exact List.mem_append_left _ hdir
    | directory names => rwa [names]
  obtain ⟨hsegment, hne⟩ := List.mem_filter.mp hmem
  exact ⟨of_decide_eq_true hne, notMem_of_mem_segments hsegment⟩

theorem segments_rootText {dirs : List Text} (hne : dirs ≠ []) (hdirs : ∀ dir ∈ dirs, '/' ∉ dir)
    (rest : Text) : (rootText dirs ++ rest).segments = dirs ++ rest.segments := by
  rw [rootText, if_neg hne, List.append_assoc, List.singleton_append, Text.segments_append,
    segments_join hne hdirs]

theorem rootText_prefix_iff {a b : List Text} (ha : ∀ dir ∈ a, dir ≠ [] ∧ '/' ∉ dir)
    (hb : ∀ dir ∈ b, dir ≠ [] ∧ '/' ∉ dir) : rootText a <+: rootText b ↔ a <+: b := by
  by_cases hnone : a = []
  · subst hnone
    exact iff_of_true (List.nil_prefix ..) (List.nil_prefix ..)
  · constructor
    · rintro ⟨rest, hrest⟩
      have hroot : b ≠ [] := by
        rintro rfl
        rw [rootText, if_neg hnone] at hrest
        simp [rootText] at hrest
      have hsegments := congrArg Text.segments hrest
      rw [segments_rootText hnone fun dir hdir => (ha dir hdir).2, ← List.append_nil (rootText b),
        segments_rootText hroot fun dir hdir => (hb dir hdir).2, Text.segments_nil] at hsegments
      have hbegins : a <+: b ++ [[]] := ⟨_, hsegments⟩
      rcases List.prefix_concat_iff.mp hbegins with heq | hbegins
      · exact absurd rfl (ha [] (heq ▸ List.mem_append_right _ (List.mem_singleton_self _))).1
      · exact hbegins
    · rintro ⟨rest, rfl⟩
      by_cases hrest : rest = []
      · rw [hrest, List.append_nil]
      · refine ⟨Text.join rest ++ ['/'], ?_⟩
        rw [rootText, rootText, if_neg hnone, if_neg (by simp [hnone]),
          Text.join_append hnone hrest]
        simp

theorem rootText_inj {a b : List Text} (ha : ∀ dir ∈ a, dir ≠ [] ∧ '/' ∉ dir)
    (hb : ∀ dir ∈ b, dir ≠ [] ∧ '/' ∉ dir) (h : rootText a = rootText b) : a = b := by
  have hab : a <+: b := (rootText_prefix_iff ha hb).mp (h ▸ List.prefix_rfl)
  have hba : b <+: a := (rootText_prefix_iff hb ha).mp (h ▸ List.prefix_rfl)
  exact hab.eq_of_length (Nat.le_antisymm hab.length_le hba.length_le)

/-- `other !== r && r.startsWith(other)` -/
theorem not_covered_iff {a b : List Text} (ha : ∀ dir ∈ a, dir ≠ [] ∧ '/' ∉ dir)
    (hb : ∀ dir ∈ b, dir ≠ [] ∧ '/' ∉ dir) :
    ¬ (rootText a ≠ rootText b && (rootText a).isPrefixOf (rootText b)) = true ↔
      (a <+: b → a = b) := by
  rw [Bool.and_eq_true, decide_eq_true_eq, List.isPrefixOf_iff_prefix, not_and, not_imp_not,
    rootText_prefix_iff ha hb]
  exact imp_congr_right fun _ => ⟨rootText_inj ha hb, congrArg rootText⟩

/-- The roots that are walked are the roots of the patterns. -/
theorem mem_includeStaticRoots {patterns : List Text} {root : Text} :
    root ∈ includeStaticRoots patterns ↔ ∃ dirs, IsRoot patterns dirs ∧ rootText dirs = root := by
  have hleads : ∀ dirs, dirs ∈ patterns.map staticLead ↔
      ∃ pattern ∈ patterns, Front pattern dirs := by
    simp only [List.mem_map, front_iff, implies_true]
  rw [includeStaticRoots]
  generalize patterns.map staticLead = leads at hleads
  dsimp only
  by_cases hall : [] ∈ leads
  · rw [if_pos hall, List.mem_singleton]
    constructor
    · rintro rfl
      refine ⟨[], ⟨(hleads _).mp hall, fun other hother shorter hfront hbegins => ?_⟩, rfl⟩
      exact List.prefix_nil.mp hbegins
    · rintro ⟨dirs, ⟨-, hshort⟩, rfl⟩
      obtain ⟨pattern, hpattern, hfront⟩ := (hleads _).mp hall
      rw [← hshort pattern hpattern [] hfront (List.nil_prefix ..)]
      rfl
  · rw [if_neg hall, List.mem_filter, List.mem_eraseDups, List.mem_map]
    have hwritten : ∀ dirs, dirs ∈ leads → Text.join dirs ++ ['/'] = rootText dirs := by
      intro dirs hdirs
      rw [rootText, if_neg]
      rintro rfl
      exact hall hdirs
    have hnames : ∀ dirs, dirs ∈ leads → ∀ dir ∈ dirs, dir ≠ [] ∧ '/' ∉ dir := by
      intro dirs hdirs
      obtain ⟨pattern, -, hfront⟩ := (hleads dirs).mp hdirs
      exact hfront.names
    constructor
    · rintro ⟨⟨dirs, hdirs, rfl⟩, hshort⟩
      refine ⟨dirs, ⟨(hleads dirs).mp hdirs, fun other hother shorter hfront hbegins => ?_⟩,
        (hwritten dirs hdirs).symm⟩
      have hshorter := (hleads shorter).mpr ⟨other, hother, hfront⟩
      simp only [Bool.not_eq_true', List.any_eq_false, List.mem_eraseDups, List.mem_map] at hshort
      have hkeep := hshort _ ⟨shorter, hshorter, rfl⟩
      rw [hwritten shorter hshorter, hwritten dirs hdirs] at hkeep
      exact (not_covered_iff (hnames shorter hshorter) (hnames dirs hdirs)).mp hkeep hbegins
    · rintro ⟨dirs, ⟨hfront, hshort⟩, rfl⟩
      have hdirs := (hleads dirs).mpr hfront
      refine ⟨⟨dirs, hdirs, hwritten dirs hdirs⟩, ?_⟩
      simp only [Bool.not_eq_true', List.any_eq_false, List.mem_eraseDups, List.mem_map]
      rintro _ ⟨shorter, hshorter, rfl⟩
      obtain ⟨other, hother, hfront⟩ := (hleads shorter).mp hshorter
      rw [hwritten shorter hshorter]
      exact (not_covered_iff (hnames shorter hshorter) (hnames dirs hdirs)).mpr
        (hshort other hother shorter hfront)

theorem exists_isRoot {patterns dirs : List Text} {pattern : Text} (hpattern : pattern ∈ patterns)
    (hfront : Front pattern dirs) : ∃ root, IsRoot patterns root ∧ root <+: dirs := by
  induction hlength : dirs.length using Nat.strong_induction_on generalizing pattern dirs with
  | _ n ih =>
      by_cases hshort : ∀ other ∈ patterns, ∀ shorter, Front other shorter → shorter <+: dirs →
          shorter = dirs
      · exact ⟨dirs, ⟨⟨pattern, hpattern, hfront⟩, hshort⟩, List.prefix_rfl⟩
      · simp only [not_forall] at hshort
        obtain ⟨other, hother, shorter, hshorter, hbegins, hne⟩ := hshort
        have hlt : shorter.length < n :=
          hlength ▸ Nat.lt_of_le_of_ne hbegins.length_le fun heq => hne (hbegins.eq_of_length heq)
        obtain ⟨root, hroot, hle⟩ := ih _ hlt hother hshorter rfl
        exact ⟨root, hroot, hle.trans hbegins⟩

/-! ## Where an anchored pattern matches -/

/-- The pattern matches the path, or a directory above it. -/
def Reaches (rule : IgnoreRule) (t : Text) : Prop :=
  ruleMatches rule t false = true ∨ ∃ d ∈ Matcher.directoriesAbove t, ruleMatches rule d true = true

/-- What fits is a directory above, or the path itself if the pattern is not for directories. -/
theorem Reaches.exists_fits (h : Reaches rule t) (ht : t.Normal) (hslash : rule.hasSlash = true) :
    ∃ a, fits rule.matcher a = true ∧
      (a = t ∧ rule.directoryOnly = false ∨ ∃ u : Text, t = a ++ '/' :: u) := by
  have hexec : ∀ q, rule.exec q = takeCore rule.matcher q := fun q => by
    rw [IgnoreRule.exec, if_pos hslash]
  rcases h with hfile | ⟨d, hd, hdir⟩
  · cases honly : rule.directoryOnly with
    | true =>
        obtain ⟨found, hfound, hpart⟩ := (Matcher.ruleMatches_file_iff ht honly).mp hfile
        rw [hexec] at hfound
        rcases takeCore_eq_some hfound with ⟨-, rfl⟩ | ⟨a, u, heq, ha, -⟩
        · exact absurd rfl hpart
        · exact ⟨a, ha, .inr ⟨u, heq⟩⟩
    | false =>
        rw [Matcher.ruleMatches_eq_isSome (.inl honly), hexec] at hfile
        obtain ⟨a, r, rfl, ha, rfl | ⟨u, rfl⟩⟩ := isSome_takeCore.mp hfile
        · exact ⟨a, ha, .inl ⟨(List.append_nil a).symm, rfl⟩⟩
        · exact ⟨a, ha, .inr ⟨u, rfl⟩⟩
  · rw [Matcher.ruleMatches_eq_isSome (.inr rfl), hexec] at hdir
    obtain ⟨u, rfl⟩ := mem_directoriesAbove_iff.mp hd
    obtain ⟨a, r, rfl, ha, rfl | ⟨v, rfl⟩⟩ := isSome_takeCore.mp hdir
    · exact ⟨a, ha, .inr ⟨u, by rw [List.append_nil]⟩⟩
    · exact ⟨a, ha, .inr ⟨v ++ '/' :: u, by simp⟩⟩

theorem namesOf_normalizeSeparators (h : '\\' ∉ t) : ∃ here, (here = [] ∨ here = [['.']]) ∧
    namesOf t = here ++ namesOf (normalizeSeparators t) := by
  by_cases hhere : ['.', '/'] <+: t
  · obtain ⟨rest, rfl⟩ := hhere
    refine ⟨[['.']], .inr rfl, ?_⟩
    have hsame : normalizeSeparators (['.', '/'] ++ rest) = rest := by
      have hrest : '\\' ∉ rest := fun hmem => h (List.mem_append_right _ hmem)
      rw [normalizeSeparators, List.map_append, Matcher.map_slash_of_notMem hrest]
      rfl
    rw [hsame]
    exact namesOf_append ['.'] rest
  · rw [Matcher.normalizeSeparators_of h hhere]
    exact ⟨[], .inl rfl, rfl⟩

theorem compileFrom_of_compilePathPattern {core : List Token}
    (h : compilePathPattern pattern = .ok core) :
    compileFrom .plain (normalizeSeparators pattern) = .ok core := by
  rw [compilePathPattern] at h
  split at h
  · cases h
  · split at h
    · cases h
    · exact h

theorem mem_of_mem_body {c : Char} (h : c ∈ body pattern) : c ∈ pattern := by
  have hinner : ∀ inner : Text, c ∈ (if inner.head? = some '/' then inner.tail else inner) →
      c ∈ inner := by
    intro inner hmem
    split at hmem
    · exact List.mem_of_mem_tail hmem
    · exact hmem
  have hmem := hinner _ h
  split at hmem
  · exact List.mem_of_mem_dropLast hmem
  · exact hmem

theorem namesOf_of_normal (h : t.Normal) : namesOf t = t.segments :=
  List.filter_eq_self.mpr fun s hs => decide_eq_true (h s hs).1

/-- A step to the directory itself, which may stand in front of a pattern, is literal and not a
name of a path. -/
theorem isLiteral_here {here : List Text} (h : here = [] ∨ here = [['.']]) :
    ∀ s ∈ here, isLiteral s = true := by
  rcases h with rfl | rfl
  · exact fun s hs => absurd hs List.not_mem_nil
  · exact List.forall_mem_singleton.mpr rfl

theorem filter_here {here names : List Text} (h : here = [] ∨ here = [['.']])
    (hnormal : ∀ s ∈ names, Text.NormalSegment s) :
    (here ++ names).filter (· ≠ ['.']) = names := by
  rw [List.filter_append, List.filter_eq_self.mpr fun s hs => decide_eq_true (hnormal s hs).2.1]
  rcases h with rfl | rfl
  · rfl
  · rfl

/-- The front of an anchored pattern that matches a path is a directory above it. -/
theorem Anchored.exists_front (h : Anchored pattern rule) (hreaches : Reaches rule t)
    (ht : t.Normal) : ∃ dirs below, Front pattern dirs ∧
      t.segments = dirs.filter (· ≠ ['.']) ++ below ∧ below ≠ [] := by
  obtain ⟨a, ha, hplace⟩ := hreaches.exists_fits ht h.hasSlash
  obtain ⟨hcompiled, honly⟩ := h.compiled
  have hbody : '\\' ∉ body pattern := fun hmem => h.no_backslash (mem_of_mem_body hmem)
  obtain ⟨here, hhere, hnames⟩ := namesOf_normalizeSeparators hbody
  rw [namesOf_body] at hnames
  have hliteral := isLiteral_here hhere
  have hbelow : ∃ rest, t.segments = a.segments ++ rest := by
    rcases hplace with ⟨rfl, -⟩ | ⟨u, rfl⟩
    · exact ⟨[], (List.append_nil _).symm⟩
    · exact ⟨u.segments, Text.segments_append a u⟩
  obtain ⟨rest, hrest⟩ := hbelow
  have hnormal : a.Normal := fun s hs => ht s (hrest ▸ List.mem_append_left _ hs)
  rcases segments_of_fits (compileFrom_of_compilePathPattern hcompiled) ha with
    ⟨rfl, hall⟩ | ⟨lits, name, others, more, hsegments, hlits, hname, hsplit, hmore⟩
  · rw [namesOf_of_normal hnormal] at hnames
    generalize normalizeSeparators (body pattern) = a at *
    by_cases hlast : pattern.getLast? = some '/'
    · rcases hplace with ⟨-, hfile⟩ | ⟨u, rfl⟩
      · rw [honly, decide_eq_false_iff_not] at hfile
        exact absurd hlast hfile
      · refine ⟨here ++ a.segments, u.segments, .directory hnames ?_ (.inl hlast), ?_,
          u.segments_ne_nil⟩
        · exact List.forall_mem_append.mpr ⟨hliteral, hall⟩
        · rw [filter_here hhere hnormal, Text.segments_append]
    · rcases List.eq_nil_or_concat a.segments with hnil | ⟨init, last, hconcat⟩
      · exact absurd hnil a.segments_ne_nil
      · rw [List.concat_eq_append] at hconcat
        rw [hconcat] at hnames hall hrest
        rw [← List.append_assoc] at hnames
        refine ⟨here ++ init, last :: rest, .file last hnames ?_ hlast, ?_, List.cons_ne_nil _ _⟩
        · rw [List.append_assoc]
          exact List.forall_mem_append.mpr ⟨hliteral, hall⟩
        · rw [hrest, filter_here hhere fun s hs => hnormal s (hconcat ▸ List.mem_append_left _ hs)]
          simp
  · have hnormalLits : ∀ s ∈ lits, Text.NormalSegment s := fun s hs =>
      hnormal s (hsplit ▸ List.mem_append_left _ hs)
    have hwhole : namesOf pattern = (here ++ lits) ++ name :: others.filter (· ≠ []) := by
      have hne : name ≠ [] := by
        rintro rfl
        cases hname
      rw [hnames, namesOf, hsegments, List.filter_append,
        List.filter_cons_of_pos (by simpa using hne),
        List.filter_eq_self.mpr fun s hs => decide_eq_true (hnormalLits s hs).1, List.append_assoc]
    refine ⟨here ++ lits, more ++ rest, .glob name _ hwhole ?_ hname, ?_, by simp [hmore]⟩
    · exact List.forall_mem_append.mpr ⟨hliteral, hlits⟩
    · rw [filter_here hhere hnormalLits, hrest, hsplit, List.append_assoc]

end AfyxGraph.Scope
