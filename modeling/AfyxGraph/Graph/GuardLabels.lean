import AfyxGraph.Runtime.Nesting
import AfyxGraph.UiServer.TrailStore

/-! # The words of a guard

A condition is kept as its source text on one line, cut at a fixed length. A label negates it on the
text: it drops a leading `!`, flips the one comparison there is, or puts `!` in front. The labels of
several guards are joined with ` && `.
-/

namespace AfyxGraph.Graph.Guards

open AfyxGraph.Runtime
open AfyxGraph.UiServer (js isWhite trim replaceRuns)

/-! ## Conditions -/

def TEXT_LIMIT : Nat := 80

def ellipsis : CodeUnit := 0x2026

/-- Words that are no condition. -/
def keywords : List JsString :=
  [js "let", js "var", js "case", js "try", js "await", js "guard", js "if", js "else", js "some",
    js "any"]

/-- The text of a condition, outer parentheses taken off already. -/
def collapseCondition (source : JsString) : JsString :=
  let value := trim (replaceRuns isWhite (unit ' ') false source)
  if value ∈ keywords then []
  else if TEXT_LIMIT < value.length then value.take (TEXT_LIMIT - 1) ++ [ellipsis]
  else value

/-- The text of a case against what is switched on. -/
def caseText (operator subject value : JsString) : JsString :=
  if subject = [] then value else subject ++ operator ++ value

/-- The text of the case that is left. -/
def defaultText (word subject : JsString) : JsString :=
  if subject = [] then word else subject ++ js ": " ++ word

inductive GuardForm where
  | «if»
  | else
  | ternary
  | «case»
  | guard
  | and
  | or
  | «catch»
  deriving DecidableEq

/-- A guard, with what its label is made from. -/
structure BranchGuard where
  text : JsString
  negated : Bool
  form : GuardForm

/-! ## Parts of a text -/

/-- `[\w$.?!]` -/
def isOperandUnit (c : CodeUnit) : Bool :=
  isWordUnit c || c = unit '$' || c = unit '.' || c = unit '?' || c = unit '!'

/-- `[=<>]` -/
def isCompareUnit (c : CodeUnit) : Bool := c = unit '=' || c = unit '<' || c = unit '>'

/-- Some text from a place on. -/
def anySuffix (p : JsString → Bool) : JsString → Bool
  | [] => p []
  | c :: rest => p (c :: rest) || anySuffix p rest

/-- `\s(?:&&|\|\||and|or)\s` at the start. -/
def spacedOperator : JsString → Bool
  | [] => false
  | c :: rest =>
      isWhite c && [js "&&", js "||", js "and", js "or"].any fun word =>
        word.isPrefixOf rest && (rest.drop word.length).head?.any isWhite

/-- `\bword\b` somewhere; `inWord` says that a word unit stands before. -/
def hasWord (word : JsString) (inWord : Bool) : JsString → Bool
  | [] => false
  | c :: rest =>
      (!inWord && word.isPrefixOf (c :: rest) &&
          !((c :: rest).drop word.length).head?.any isWordUnit) ||
        hasWord word (isWordUnit c) rest

/-- A `||` outside quotes and brackets. -/
def hasDisjunction (n : Nesting) : JsString → Bool
  | [] => false
  | c :: rest =>
      (n = .top && c = unit '|' && rest.head? = some (unit '|')) || hasDisjunction (n.next c) rest

def topLevelDisjunction (text : JsString) : Bool := hasDisjunction .top text

/-- Whether the parenthesis closes at the end of the text and nowhere before it. -/
def closesAtEnd (depth : Nat) : JsString → Bool
  | [] => depth = 0
  | c :: rest =>
      if c = unit '(' then closesAtEnd (depth + 1) rest
      else if c = unit ')' then
        if depth = 1 && !rest.isEmpty then false else closesAtEnd (depth - 1) rest
      else closesAtEnd depth rest

/-- A name or one call, which `!` can stand in front of. -/
def simpleOperand (text : JsString) : Bool :=
  if text.any isCompareUnit || anySuffix spacedOperator text then false
  else if (text.takeWhile isOperandUnit).isEmpty then false
  else
    match text.dropWhile isOperandUnit with
    | [] => true
    | c :: rest => c = unit '(' && rest.getLast? = some (unit ')') && closesAtEnd 0 (c :: rest)

/-! ## Negation -/

/-- `[=!<>]` -/
def isOperatorUnit (c : CodeUnit) : Bool := isCompareUnit c || c = unit '!'

/-- A comparison that can be flipped; a word needs its bounds. -/
structure Comparison where
  operator : JsString
  opposite : JsString
  word : Bool

def comparisons : List Comparison :=
  [⟨js "===", js "!==", false⟩, ⟨js "!==", js "===", false⟩, ⟨js "==", js "!=", false⟩,
    ⟨js "!=", js "==", false⟩, ⟨js "is not", js "is", true⟩, ⟨js "is", js "is not", true⟩]

/-- The comparison at the start of a text and the rest behind it. -/
def Comparison.reads (c : Comparison) (inWord : Bool) (text : JsString) : Bool :=
  let right := text.drop c.operator.length
  c.operator.isPrefixOf text &&
    (!c.word || (!inWord && !right.head?.any isWordUnit)) &&
    !right.isEmpty && right.all (!isOperatorUnit ·)

/-- `^([^=!<>]+?)\s*(===|!==|==|!=|\bis not\b|\bis\b)\s*([^=!<>]+)$`, the first group of so many
units. -/
def invertAt (text : JsString) (count : Nat) : Option JsString :=
  let left := text.take count
  let blank := (text.drop count).takeWhile isWhite
  let rest := (text.drop count).dropWhile isWhite
  let inWord := blank.isEmpty && left.getLast?.any isWordUnit
  if left.any isOperatorUnit then none
  else
    (comparisons.find? (·.reads inWord rest)).map fun c =>
      trim left ++ unit ' ' :: c.opposite ++ unit ' ' :: trim (rest.drop c.operator.length)

def invertComparison (text : JsString) : Option JsString :=
  if anySuffix (js "&&").isPrefixOf text || anySuffix (js "||").isPrefixOf text ||
      hasWord (js "and") false text || hasWord (js "or") false text || text.contains (unit '?') ||
      topLevelDisjunction text then none
  else (List.range (text.length - 1)).findSome? fun i => invertAt text (i + 1)

/-- The text behind `!`, if no `=` follows. -/
def afterBang : JsString → Option JsString
  | c :: rest => if c = unit '!' && rest.head? ≠ some (unit '=') then some rest else none
  | [] => none

/-- The text behind `not` and a blank. -/
def afterNot (text : JsString) : Option JsString :=
  if (js "not").isPrefixOf text && (text.drop 3).head?.any isWhite then some (trim (text.drop 4))
  else none

/-- The words for a condition that does not hold. -/
def negationOf (text : JsString) : JsString :=
  match (afterBang text).filter simpleOperand with
  | some operand => operand
  | none =>
      match (afterNot text).filter simpleOperand with
      | some operand => operand
      | none =>
          match invertComparison text with
          | some inverse => inverse
          | none =>
              if simpleOperand text then unit '!' :: text
              else js "!(" ++ text ++ [unit ')']

def labelPart (guard : BranchGuard) : JsString :=
  if guard.form = .catch then guard.text
  else if guard.negated then negationOf guard.text
  else if topLevelDisjunction guard.text then unit '(' :: guard.text ++ [unit ')']
  else guard.text

/-- ` && ` -/
def conjunction : JsString := js " && "

def guardLabel (guards : List BranchGuard) : JsString :=
  conjunction.intercalate (guards.map labelPart)

/-! ## Operands

A ` &&` in a text has something in front of it: what the engine writes keeps to that.
-/

/-- ` &&`, which needs one blank more to be a join. -/
def openJoin : JsString := js " &&"

/-- No ` &&` stands where nothing or a blank is before it; `bare` says so of the start. -/
def HasOperands (bare : Bool) : JsString → Prop
  | [] => True
  | c :: rest => ¬ (bare = true ∧ openJoin <+: c :: rest) ∧ HasOperands (isWhite c) rest

variable {s t : JsString} {c : CodeUnit} {bare : Bool}

theorem not_openJoin_prefix (h : isWhite c = false) : ¬ openJoin <+: c :: s := by
  rintro ⟨t, ht⟩
  obtain rfl : unit ' ' = c := (List.cons.inj ht).1
  exact Bool.noConfusion (h.symm.trans (show isWhite (unit ' ') = true from by decide))

namespace HasOperands

theorem of_bare (h : HasOperands true s) : HasOperands bare s := by
  cases s with
  | nil => exact trivial
  | cons c rest => exact ⟨fun hopen => h.1 ⟨rfl, hopen.2⟩, h.2⟩

theorem of_head (h : HasOperands bare s) (hhead : ∀ c, s.head? = some c → isWhite c = false) :
    HasOperands true s := by
  cases s with
  | nil => exact trivial
  | cons c rest => exact ⟨fun hopen => not_openJoin_prefix (hhead c rfl) hopen.2, h.2⟩

theorem left (h : HasOperands bare (s ++ t)) : HasOperands bare s := by
  induction s generalizing bare with
  | nil => exact trivial
  | cons c rest ih =>
      exact ⟨fun hopen => h.1 ⟨hopen.1, hopen.2.trans (List.prefix_append ..)⟩, ih h.2⟩

theorem right (h : HasOperands bare (s ++ t)) : ∃ bare, HasOperands bare t := by
  induction s generalizing bare with
  | nil => exact ⟨bare, h⟩
  | cons c rest ih => exact ih h.2

end HasOperands

/-- A unit that is no `&` completes nothing. -/
theorem openJoin_prefix_append (hc : c ≠ unit '&') (hs : s ≠ [])
    (h : openJoin <+: s ++ c :: t) : openJoin <+: s := by
  rcases List.prefix_or_prefix_of_prefix h (List.prefix_append ..) with hin | hin
  · exact hin
  · obtain ⟨u, hu⟩ := hin
    have hnext : u <+: c :: t := (List.prefix_append_right_inj s).mp (hu.symm ▸ h)
    cases u with
    | nil => exact ⟨[], by rw [← hu]; simp⟩
    | cons d u =>
        obtain rfl : d = c := (List.cons_prefix_cons.mp hnext).1
        have hmem : d ∈ openJoin.tail := by
          rw [← hu, List.tail_append_of_ne_nil hs]
          simp
        have hall : openJoin.tail.all (· = unit '&') = true := by decide
        exact absurd (of_decide_eq_true (List.all_eq_true.mp hall d hmem)) hc

theorem HasOperands.append_cons (hc : c ≠ unit '&') (hs : HasOperands bare s)
    (ht : HasOperands true (c :: t)) : HasOperands bare (s ++ c :: t) := by
  induction s generalizing bare with
  | nil => exact ht.of_bare
  | cons d rest ih =>
      exact ⟨fun h => hs.1 ⟨h.1, openJoin_prefix_append hc (List.cons_ne_nil _ _) h.2⟩, ih hs.2⟩

/-- Without `&&` there is nothing to ask for. -/
theorem hasOperands_of_no_and (h : ¬ js "&&" <:+: s) : HasOperands bare s := by
  induction s generalizing bare with
  | nil => exact trivial
  | cons c rest ih =>
      refine ⟨fun hopen => h ?_, ih fun hin => h (hin.trans (List.suffix_cons ..).isInfix)⟩
      exact (show js "&&" <:+ openJoin from ⟨js " ", rfl⟩).isInfix.trans hopen.2.isInfix

theorem anySuffix_eq_false {p : JsString → Bool} (h : anySuffix p s = false) (ht : t <:+ s) :
    p t = false := by
  induction s with
  | nil =>
      rw [List.suffix_nil.mp ht]
      exact h
  | cons c rest ih =>
      rw [anySuffix, Bool.or_eq_false_iff] at h
      rcases List.suffix_cons_iff.mp ht with rfl | ht
      · exact h.1
      · exact ih h.2 ht

theorem not_infix_of_anySuffix {word : JsString} (h : anySuffix word.isPrefixOf s = false) :
    ¬ word <:+: s := by
  rintro ⟨a, b, rfl⟩
  have hword := anySuffix_eq_false h (t := word ++ b) ⟨a, by rw [List.append_assoc]⟩
  rw [Bool.eq_false_iff, ne_eq, List.isPrefixOf_iff_prefix] at hword
  exact hword (List.prefix_append ..)

/-- White runs become one blank, so that no blank stands behind a blank. -/
theorem hasOperands_replaceRuns (inside : Bool) (s : JsString) :
    HasOperands inside (replaceRuns isWhite (unit ' ') inside s) := by
  induction s generalizing inside with
  | nil => exact trivial
  | cons c rest ih =>
      rw [replaceRuns]
      by_cases hwhite : isWhite c = true
      · rw [if_pos hwhite]
        cases inside with
        | true => exact ih true
        | false =>
            refine ⟨fun h => Bool.noConfusion h.1, ?_⟩
            rw [show isWhite (unit ' ') = true from by decide]
            exact ih true
      · rw [if_neg hwhite]
        rw [Bool.not_eq_true] at hwhite
        exact ⟨fun h => not_openJoin_prefix hwhite h.2, hwhite ▸ ih false⟩

theorem HasOperands.trim (h : HasOperands bare s) : HasOperands true (trim s) := by
  have hdropped : HasOperands true (s.dropWhile isWhite) := by
    rw [← List.takeWhile_append_dropWhile (p := isWhite) (l := s)] at h
    obtain ⟨bare, hright⟩ := h.right
    refine hright.of_head fun c hc => ?_
    have hnot := List.head?_dropWhile_not isWhite s
    rw [hc] at hnot
    exact hnot
  have hstrip : UiServer.trim s ++ ((s.dropWhile isWhite).reverse.takeWhile isWhite).reverse =
      s.dropWhile isWhite := by
    rw [UiServer.trim, UiServer.stripEnd, ← List.reverse_append,
      List.takeWhile_append_dropWhile, List.reverse_reverse]
  rw [← hstrip] at hdropped
  exact hdropped.left

theorem HasOperands.concat (hs : HasOperands bare s) (hc : c ≠ unit '&')
    (hwhite : isWhite c = false) : HasOperands bare (s ++ [c]) :=
  hs.append_cons hc ⟨fun h => not_openJoin_prefix hwhite h.2, trivial⟩

theorem collapseCondition_hasOperands (source : JsString) :
    HasOperands true (collapseCondition source) := by
  have hvalue := (hasOperands_replaceRuns false source).trim
  dsimp only [collapseCondition]
  split
  · exact trivial
  · split
    · rw [← List.take_append_drop (TEXT_LIMIT - 1)
        (UiServer.trim (replaceRuns isWhite (unit ' ') false source))] at hvalue
      exact hvalue.left.concat (by decide) (by decide)
    · exact hvalue

/-- What stands between the parts of a text. -/
def joints : List JsString := [js " === ", js " == ", js ": ", js ", "]

/-- What the engine puts between two texts keeps them apart. -/
theorem HasOperands.append_joint {joint : JsString} (hjoint : joint ∈ joints)
    (hs : HasOperands bare s) (ht : HasOperands true t) :
    HasOperands bare (s ++ joint ++ t) := by
  have hand : ∀ joint ∈ joints, unit '&' ∉ joint := by decide
  have hfirst : ∀ joint ∈ joints, joint.head? ≠ none := by decide
  have hright : HasOperands true (joint ++ t) := by
    simp only [joints, List.mem_cons, List.not_mem_nil, or_false] at hjoint
    rcases hjoint with rfl | rfl | rfl | rfl <;>
      simp [HasOperands, js, openJoin, unit, isWhite, ht]
  cases joint with
  | nil => exact absurd rfl (hfirst _ hjoint)
  | cons c joint =>
      rw [List.append_assoc]
      refine hs.append_cons ?_ hright
      rintro rfl
      exact hand _ hjoint List.mem_cons_self

theorem caseText_hasOperands {operator subject value : JsString} (hop : operator ∈ joints)
    (hsubject : HasOperands true subject) (hvalue : HasOperands true value) :
    HasOperands true (caseText operator subject value) := by
  unfold caseText
  split
  · exact hvalue
  · exact hsubject.append_joint hop hvalue

theorem defaultText_hasOperands {word subject : JsString} (hword : HasOperands true word)
    (hsubject : HasOperands true subject) : HasOperands true (defaultText word subject) := by
  unfold defaultText
  split
  · exact hword
  · exact hsubject.append_joint (by decide) hword

theorem not_white_of_operand (h : isOperandUnit c = true) : isWhite c = false := by
  rw [Bool.eq_false_iff]
  intro hwhite
  simp only [isOperandUnit, isWordUnit, isDigit, isWhite, Bool.or_eq_true, Bool.and_eq_true,
    decide_eq_true_eq, UInt16.le_iff_toNat_le, ← UInt16.toNat_inj] at h hwhite
  simp only [unit] at h
  simp at h hwhite
  omega

theorem head_of_simpleOperand (h : simpleOperand s = true) :
    ∀ c, s.head? = some c → isWhite c = false := by
  rintro c hc
  unfold simpleOperand at h
  split at h
  · cases h
  · cases s with
    | nil => cases hc
    | cons d rest =>
        cases hc
        cases hoperand : isOperandUnit c with
        | true => exact not_white_of_operand hoperand
        | false =>
            rw [List.takeWhile_cons_of_neg (by simp [hoperand])] at h
            cases h

theorem not_infix_append_cons (hc : c ≠ unit '&') (hs : ¬ js "&&" <:+: s)
    (ht : ¬ js "&&" <:+: t) : ¬ js "&&" <:+: s ++ c :: t := by
  have hall : (js "&&").all (· = unit '&') = true := by decide
  rw [List.infix_append_iff]
  rintro (hin | hin | ⟨a, b, hab, ha, hb⟩)
  · exact hs hin
  · rcases List.infix_cons_iff.mp hin with ⟨u, hu⟩ | hin
    · exact hc (List.cons.inj hu).1.symm
    · exact ht hin
  · cases b with
    | nil =>
        rw [hab, List.append_nil] at hs
        exact hs ha.isInfix
    | cons d b =>
        obtain rfl : d = c := (List.cons_prefix_cons.mp hb).1
        have hd : d ∈ js "&&" := by
          rw [hab]
          simp
        exact hc (of_decide_eq_true (List.all_eq_true.mp hall d hd))

theorem trim_within (s : JsString) : trim s <:+: s := by
  refine List.IsInfix.trans ?_ (List.dropWhile_suffix isWhite).isInfix
  rw [trim, UiServer.stripEnd, ← List.reverse_infix, List.reverse_reverse]
  exact (List.dropWhile_suffix isWhite).isInfix

theorem invertAt_no_and {count : Nat} {inverse : JsString} (h : invertAt s count = some inverse)
    (hs : ¬ js "&&" <:+: s) : ¬ js "&&" <:+: inverse := by
  have hpart : ∀ {part}, part <:+: s → ¬ js "&&" <:+: trim part := fun hpart hin =>
    hs (hin.trans ((trim_within _).trans hpart))
  have hopposite : ∀ c ∈ comparisons, ¬ js "&&" <:+: c.opposite := by decide
  unfold invertAt at h
  dsimp only at h
  split at h
  · cases h
  · obtain ⟨c, hc, rfl⟩ := Option.map_eq_some_iff.mp h
    rw [List.append_assoc, List.cons_append]
    refine not_infix_append_cons (by decide) (hpart (List.take_prefix ..).isInfix)
      (not_infix_append_cons (by decide) (hopposite c (List.mem_of_find?_eq_some hc))
        (hpart ?_))
    exact ((List.drop_suffix ..).trans
      ((List.dropWhile_suffix isWhite).trans (List.drop_suffix ..))).isInfix

theorem negationOf_hasOperands (h : HasOperands true s) : HasOperands true (negationOf s) := by
  have hoperand : ∀ {bare t}, HasOperands bare t → simpleOperand t = true → HasOperands true t :=
    fun ht hsimple => ht.of_head (head_of_simpleOperand hsimple)
  unfold negationOf
  split
  next operand hbang =>
    obtain ⟨hafter, hsimple⟩ := Option.filter_eq_some_iff.mp hbang
    cases s with
    | nil => cases hafter
    | cons c rest =>
        obtain ⟨-, hrest⟩ := Option.ite_none_right_eq_some.mp hafter
        obtain rfl := Option.some.inj hrest
        exact hoperand h.2 hsimple
  next =>
    split
    next operand hnot =>
      obtain ⟨hafter, hsimple⟩ := Option.filter_eq_some_iff.mp hnot
      obtain ⟨-, hrest⟩ := Option.ite_none_right_eq_some.mp hafter
      obtain rfl := Option.some.inj hrest
      rw [← List.take_append_drop 4 s] at h
      obtain ⟨bare, hrest⟩ := h.right
      exact hrest.trim
    next =>
      split
      next inverse hinverse =>
        unfold invertComparison at hinverse
        split at hinverse
        · cases hinverse
        next hplain =>
          obtain ⟨i, -, hi⟩ := List.exists_of_findSome?_eq_some hinverse
          refine hasOperands_of_no_and (invertAt_no_and hi (not_infix_of_anySuffix ?_))
          simp only [Bool.or_eq_true, not_or, Bool.not_eq_true] at hplain
          exact hplain.1.1.1.1.1
      next =>
        split
        · exact ⟨fun hopen => not_openJoin_prefix (by decide) hopen.2, h.of_bare⟩
        · exact ⟨fun hopen => not_openJoin_prefix (by decide) hopen.2,
            (show HasOperands true (unit '(' :: s) from
              ⟨fun hopen => not_openJoin_prefix (by decide) hopen.2, h.of_bare⟩).of_bare.concat
              (by decide) (by decide)⟩

/-- A guard with a text as the engine writes it. -/
structure Condition extends BranchGuard where
  operands : HasOperands true text

/-- The guard of a condition in the source. -/
def Condition.ofSource (source : JsString) (negated : Bool) (form : GuardForm) : Condition :=
  ⟨⟨collapseCondition source, negated, form⟩, collapseCondition_hasOperands source⟩

theorem labelPart_hasOperands {guard : BranchGuard} (h : HasOperands true guard.text) :
    HasOperands true (labelPart guard) := by
  have hopening : ¬ openJoin <+: unit '(' :: guard.text ++ [unit ')'] :=
    not_openJoin_prefix (by decide)
  unfold labelPart
  split
  · exact h
  · split
    · exact negationOf_hasOperands h
    · split
      · exact ⟨fun h => hopening h.2, h.of_bare.concat (by decide) (by decide)⟩
      · exact h

end AfyxGraph.Graph.Guards
