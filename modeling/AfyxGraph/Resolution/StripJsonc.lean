import AfyxGraph.Runtime.JsonText

/-! # Comments and trailing commas taken out of a tsconfig

A loop takes the comments out, with a state for what it is in, and a regular expression takes
out each comma before a closing bracket. The expression is run on the strings too.
-/

namespace AfyxGraph.Resolution.StripJsonc

open AfyxGraph.Runtime AfyxGraph.Core

variable {ν : Type} {numbers : NumberFormat ν} {x rest : JsString} {c : CodeUnit}

/-! ## The function -/

inductive StripMode where
  | code
  | slash
  | line
  | block
  | star
  | string
  | escape
  deriving DecidableEq, Repr

/-- The loop of `stripJsonc`. A slash is kept back until the next character is seen. -/
def stripComments : StripMode → JsString → JsString
  | .code, [] => []
  | .code, c :: rest =>
      if c = unit '"' then c :: stripComments .string rest
      else if c = unit '/' then stripComments .slash rest
      else c :: stripComments .code rest
  | .slash, [] => [unit '/']
  | .slash, c :: rest =>
      if c = unit '/' then stripComments .line rest
      else if c = unit '*' then stripComments .block rest
      else if c = unit '"' then unit '/' :: c :: stripComments .string rest
      else unit '/' :: c :: stripComments .code rest
  | .line, [] => []
  | .line, c :: rest =>
      if c = unit '\n' then c :: stripComments .code rest else stripComments .line rest
  | .block, [] => []
  | .block, c :: rest =>
      if c = unit '*' then stripComments .star rest else stripComments .block rest
  | .star, [] => []
  | .star, c :: rest =>
      if c = unit '/' then stripComments .code rest
      else if c = unit '*' then stripComments .star rest
      else stripComments .block rest
  | .string, [] => []
  | .string, c :: rest =>
      if c = unit '\\' then c :: stripComments .escape rest
      else if c = unit '"' then c :: stripComments .code rest
      else c :: stripComments .string rest
  | .escape, [] => []
  | .escape, c :: rest => c :: stripComments .string rest

/-- `/^\s*[}\]]/` -/
def closes (s : JsString) : Bool :=
  (s.dropWhile isSpace).head? = some (unit '}') || (s.dropWhile isSpace).head? = some (unit ']')

/-- `out.replace(/,(\s*[}\]])/g, '$1')` -/
def dropTrailingCommas : JsString → JsString
  | [] => []
  | c :: rest =>
      if c = unit ',' && closes rest then dropTrailingCommas rest
      else c :: dropTrailingCommas rest

def stripJsonc (src : JsString) : JsString := dropTrailingCommas (stripComments .code src)

/-! ## Commas -/

theorem dropTrailingCommas_cons (h : c ≠ unit ',') :
    dropTrailingCommas (c :: rest) = c :: dropTrailingCommas rest := by
  rw [dropTrailingCommas, if_neg (by simp [h])]

theorem dropTrailingCommas_append (h : unit ',' ∉ x) :
    dropTrailingCommas (x ++ rest) = x ++ dropTrailingCommas rest := by
  induction x with
  | nil => rfl
  | cons c x ih =>
      simp only [List.mem_cons, not_or] at h
      rw [List.cons_append, dropTrailingCommas_cons (Ne.symm h.1), ih h.2, List.cons_append]

theorem dropTrailingCommas_self (h : unit ',' ∉ x) : dropTrailingCommas x = x := by
  have happend : dropTrailingCommas (x ++ []) = x ++ dropTrailingCommas [] :=
    dropTrailingCommas_append h
  rwa [List.append_nil, dropTrailingCommas, List.append_nil] at happend

theorem closes_append (hx : ∀ d ∈ x, isSpace d = true) : closes (x ++ rest) = closes rest := by
  rw [closes, List.dropWhile_append_of_pos hx]
  rfl

theorem closes_cons (h : isSpace c = false) :
    closes (c :: rest) = (decide (c = unit '}') || decide (c = unit ']')) := by
  simp [closes, h]

theorem comma_not_mem_of_isSpace (hx : ∀ d ∈ x, isSpace d = true) : unit ',' ∉ x := by
  intro hmem
  have hspace := hx _ hmem
  revert hspace
  decide

/-- A quotation mark keeps the commas before it from what closes behind it. -/
theorem closes_append_quote (body rest : JsString) :
    closes (body ++ unit '"' :: rest) = closes body := by
  induction body with
  | nil =>
      rw [List.nil_append, closes_cons (by decide)]
      rfl
  | cons c body ih =>
      cases hspace : isSpace c with
      | true =>
          have hc : ∀ d ∈ [c], isSpace d = true := by simpa using hspace
          exact ((closes_append hc).trans ih).trans (closes_append hc).symm
      | false => rw [List.cons_append, closes_cons hspace, closes_cons hspace]

theorem dropTrailingCommas_quoted (body rest : JsString) :
    dropTrailingCommas (body ++ unit '"' :: rest) =
      dropTrailingCommas body ++ unit '"' :: dropTrailingCommas rest := by
  induction body with
  | nil => exact dropTrailingCommas_cons (by decide)
  | cons c body ih =>
      rw [List.cons_append, dropTrailingCommas, dropTrailingCommas, closes_append_quote, ih]
      split <;> rfl

/-! ## Strings -/

/-- What stands between the quotes of a string, and the string. -/
inductive Spells : JsString → JsString → Prop
  | nil : Spells [] []
  | plain {c : CodeUnit} {body value : JsString} : c ≠ unit '\\' → c ≠ unit '"' → ¬ c < 32 →
      Spells body value → Spells (c :: body) (c :: value)
  | escape {e u : CodeUnit} {body value : JsString} : e ≠ unit 'u' →
      unescape e = some u → Spells body value → Spells (unit '\\' :: e :: body) (u :: value)
  | hex {a b c d : CodeUnit} {a' b' c' d' : Nat} {body value : JsString} :
      hexValue a = some a' → hexValue b = some b' → hexValue c = some c' →
      hexValue d = some d' → Spells body value →
      Spells (unit '\\' :: unit 'u' :: a :: b :: c :: d :: body)
        ((((a' * 16 + b') * 16 + c') * 16 + d').toUInt16 :: value)

theorem Spells.parse {body value : JsString} (h : Spells body value) :
    parseStringBody body = some value := by
  induction h with
  | nil => rfl
  | plain hslash hquote hcontrol _ ih =>
      rw [parseStringBody_unit _ hslash hquote hcontrol, ih]
      rfl
  | escape hu hunescape _ ih =>
      rw [parseStringBody_escape _ _ hu, hunescape, ih]
      rfl
  | hex ha hb hc hd _ ih =>
      rw [parseStringBody_hex _ ha hb hc hd, ih]
      rfl

theorem spells_of_parse (body : JsString) :
    ∀ {value : JsString}, parseStringBody body = some value → Spells body value := by
  induction body using parseStringBody.induct with
  | case1 =>
      intro value h
      cases h
      exact .nil
  | case2 =>
      intro value h
      cases h
  | case3 a b c d rest ih =>
      intro value h
      rw [parseStringBody.eq_def] at h
      simp only [if_true, bind, Option.bind_eq_some_iff] at h
      obtain ⟨a', ha, b', hb, c', hc, d', hd, value', hrest, hvalue⟩ := h
      rw [← Option.some.inj hvalue]
      exact .hex ha hb hc hd (ih hrest)
  | case4 digits hshort =>
      intro value h
      rw [parseStringBody.eq_def] at h
      simp only [if_true] at h
      cases h
  | case5 e rest hu ih =>
      intro value h
      rw [parseStringBody_escape _ _ hu, Option.bind_eq_some_iff] at h
      obtain ⟨u, hunescape, h⟩ := h
      obtain ⟨value', hrest, rfl⟩ := Option.map_eq_some_iff.mp h
      exact .escape hu hunescape (ih hrest)
  | case6 c rest hslash hbad =>
      intro value h
      rw [parseStringBody.eq_def] at h
      simp only [hslash, if_false, hbad, if_true] at h
      cases h
  | case7 c rest hslash hgood ih =>
      intro value h
      simp only [Bool.or_eq_true, decide_eq_true_eq, not_or] at hgood
      rw [parseStringBody_unit _ hslash hgood.1 hgood.2] at h
      obtain ⟨value', hrest, rfl⟩ := Option.map_eq_some_iff.mp h
      exact .plain hslash hgood.1 hgood.2 (ih hrest)

theorem hexValue_plain {c : CodeUnit} {n : Nat} (h : hexValue c = some n) :
    c ≠ unit '"' ∧ isLineBreak c = false ∧ c ≠ unit '\\' ∧ c ≠ unit ',' := by
  have hnone : ∀ d, hexValue d = none → c ≠ d := by
    rintro d hd rfl
    rw [hd] at h
    cases h
  refine ⟨hnone _ (by decide), ?_, hnone _ (by decide), hnone _ (by decide)⟩
  simp [isLineBreak, hnone (unit '\r') (by decide), hnone (unit '\n') (by decide)]

theorem Spells.scan {body value : JsString} (h : Spells body value) (rest : JsString) :
    scanString false (body ++ unit '"' :: rest) = .ok (body, rest) := by
  have hscans : ScansAs body := by
    induction h with
    | nil => exact fun _ _ _ hscan => hscan
    | @plain c body value hslash hquote hcontrol _ ih =>
        exact (quotes_unit hquote hslash hcontrol).scans.append ih
    | @escape e u body value _ _ _ ih => exact (scansAs_escape e).append ih
    | @hex a b c d a' b' c' d' body value ha hb hc hd _ ih =>
        have hscan : ∀ {c : CodeUnit} {n : Nat}, hexValue c = some n → ScansAs [c] := fun h =>
          scansAs_unit (hexValue_plain h).1 (hexValue_plain h).2.1 (hexValue_plain h).2.2.1
        exact (scansAs_escape _).append ((hscan ha).append ((hscan hb).append
          ((hscan hc).append ((hscan hd).append ih))))
  have hscan := hscans (unit '"' :: rest) [] rest (by rw [scanString]; rfl)
  rwa [List.append_nil] at hscan

/-- The string without some of its commas is a string, and as much shorter as its text. -/
theorem Spells.dropTrailingCommas {body value : JsString} (h : Spells body value) :
    ∃ value', Spells (dropTrailingCommas body) value' ∧
      value'.length + body.length = value.length + (StripJsonc.dropTrailingCommas body).length := by
  induction h with
  | nil => exact ⟨[], .nil, rfl⟩
  | @plain c body value hslash hquote hcontrol _ ih =>
      obtain ⟨value', hspells, hlength⟩ := ih
      rw [StripJsonc.dropTrailingCommas]
      split
      · exact ⟨value', hspells, by simp only [List.length_cons]; omega⟩
      · exact ⟨c :: value', .plain hslash hquote hcontrol hspells, by
          simp only [List.length_cons]; omega⟩
  | @escape e u body value hu hunescape _ ih =>
      obtain ⟨value', hspells, hlength⟩ := ih
      have he : e ≠ unit ',' := by
        rintro rfl
        cases hunescape
      rw [dropTrailingCommas_cons (by decide), dropTrailingCommas_cons he]
      exact ⟨u :: value', .escape hu hunescape hspells, by simp only [List.length_cons]; omega⟩
  | @hex a b c d a' b' c' d' body value ha hb hc hd _ ih =>
      obtain ⟨value', hspells, hlength⟩ := ih
      rw [dropTrailingCommas_cons (by decide), dropTrailingCommas_cons (by decide),
        dropTrailingCommas_cons (hexValue_plain ha).2.2.2,
        dropTrailingCommas_cons (hexValue_plain hb).2.2.2,
        dropTrailingCommas_cons (hexValue_plain hc).2.2.2,
        dropTrailingCommas_cons (hexValue_plain hd).2.2.2]
      exact ⟨_ :: value', .hex ha hb hc hd hspells, by simp only [List.length_cons]; omega⟩

/-- The loop passes a string unchanged. -/
theorem Spells.stripComments {body value : JsString} (h : Spells body value) (rest : JsString) :
    stripComments .string (body ++ unit '"' :: rest) =
      body ++ unit '"' :: StripJsonc.stripComments .code rest := by
  have hstep : ∀ {c : CodeUnit} (s : JsString), c ≠ unit '\\' → c ≠ unit '"' →
      StripJsonc.stripComments .string (c :: s) = c :: StripJsonc.stripComments .string s := by
    intro c s hslash hquote
    rw [StripJsonc.stripComments, if_neg hslash, if_neg hquote]
  have hescape : ∀ (e : CodeUnit) (s : JsString), StripJsonc.stripComments .string
      (unit '\\' :: e :: s) = unit '\\' :: e :: StripJsonc.stripComments .string s := fun _ _ => rfl
  induction h with
  | nil => rfl
  | @plain c body value hslash hquote _ _ ih =>
      rw [List.cons_append, hstep _ hslash hquote, ih, List.cons_append]
  | @escape e u body value _ _ _ ih =>
      simp only [List.cons_append, hescape, ih]
  | @hex a b c d a' b' c' d' body value ha hb hc hd _ ih =>
      have hplain : ∀ {c : CodeUnit} {n : Nat} (s : JsString), hexValue c = some n →
          StripJsonc.stripComments .string (c :: s) = c :: StripJsonc.stripComments .string s :=
        fun s h => hstep s (hexValue_plain h).2.2.1 (hexValue_plain h).1
      simp only [List.cons_append, hescape, hplain _ ha, hplain _ hb, hplain _ hc, hplain _ hd, ih]

/-! ## Tokens -/

/-- The text of a scalar. -/
theorem token_cases {raw : JsString} {kind : TokenKind} {value : Json ν}
    (h : IsToken numbers raw kind value) :
    (∃ body name, raw = unit '"' :: (body ++ [unit '"']) ∧ value = .string name ∧
      Spells body name) ∨
    (isNumberLiteral raw = true ∧ (∀ c ∈ raw, isNumberUnit c = true) ∧
      ∃ v, numbers.ofLiteral raw = some v ∧ value = .number v) ∨
    (raw = trueWord ∧ value = .bool true ∨ raw = falseWord ∧ value = .bool false ∨
      raw = nullWord ∧ value = .null) := by
  obtain ⟨c, tail, rfl, -⟩ := h.head
  have hscan := h.scanned 0 [] delimited_nil
  rw [List.append_nil, scanToken] at hscan
  split at hscan
  · simp at hscan
  · split at hscan
    · rename_i hquote
      subst hquote
      obtain ⟨⟨body, after⟩, hbody, hscan⟩ := ok_of_bind hscan
      dsimp only at hscan
      split at hscan
      · rename_i name hname
        simp only [Except.ok.injEq, Prod.mk.injEq, Token.mk.injEq, Option.some.injEq] at hscan
        obtain ⟨⟨-, -, -, rfl⟩, rfl⟩ := hscan
        exact Or.inl ⟨body, name, congrArg _ (scanString_split hbody).1, rfl,
          spells_of_parse body hname⟩
      · cases hscan
    · split at hscan
      · rename_i hstart
        dsimp only at hscan
        split at hscan
        · rename_i v hv
          simp only [Except.ok.injEq, Prod.mk.injEq, Token.mk.injEq, Option.some.injEq] at hscan
          obtain ⟨⟨-, -, -, rfl⟩, hrest⟩ := hscan
          have hall : tail.takeWhile isNumberUnit = tail := by
            have hsplit := List.takeWhile_append_dropWhile (p := isNumberUnit) (l := tail)
            rwa [hrest, List.append_nil] at hsplit
          rw [hall, Option.ite_none_right_eq_some] at hv
          refine Or.inr (Or.inl ⟨hv.1, ?_, v, hv.2, rfl⟩)
          have hunit : isNumberUnit c = true := by
            simp only [Bool.or_eq_true, decide_eq_true_eq] at hstart
            rcases hstart with rfl | hdigit
            · decide
            · exact isNumberUnit_of_isDigit hdigit
          exact List.forall_mem_cons.mpr ⟨hunit, List.takeWhile_eq_self_iff.mp hall⟩
        · cases hscan
      · split at hscan
        · rename_i word value' hword
          simp only [Except.ok.injEq, Prod.mk.injEq, Token.mk.injEq, Option.some.injEq] at hscan
          obtain ⟨⟨-, -, -, rfl⟩, hrest⟩ := hscan
          obtain ⟨hcases, rest, hsplit⟩ := literalAt_split hword
          rw [hsplit, List.drop_left] at hrest
          rw [hsplit, hrest, List.append_nil]
          exact Or.inr (Or.inr hcases)
        · cases hscan

theorem stripComments_append (h : ∀ c ∈ x, c ≠ unit '"' ∧ c ≠ unit '/') :
    stripComments .code (x ++ rest) = x ++ stripComments .code rest := by
  induction x with
  | nil => rfl
  | cons c x ih =>
      rw [List.forall_mem_cons] at h
      rw [List.cons_append, stripComments, if_neg h.1.1, if_neg h.1.2, ih h.2, List.cons_append]

/-- Numbers and literals have no character that either pass looks for. -/
theorem unquoted_token {raw : JsString} (h : (∀ c ∈ raw, isNumberUnit c = true) ∨
    raw = trueWord ∨ raw = falseWord ∨ raw = nullWord) :
    (∀ c ∈ raw, c ≠ unit '"' ∧ c ≠ unit '/') ∧ unit ',' ∉ raw := by
  have hwords : [trueWord, falseWord, nullWord].all (fun word =>
      word.all (fun c => c ≠ unit '"' && c ≠ unit '/' && c ≠ unit ',')) = true := by decide
  have hchars : ∀ c ∈ raw, c ≠ unit '"' ∧ c ≠ unit '/' ∧ c ≠ unit ',' := by
    intro c hc
    rcases h with hunits | hword
    · have hunit := hunits c hc
      refine ⟨?_, ?_, ?_⟩ <;> (rintro rfl; revert hunit; decide)
    · have hmem : raw ∈ [trueWord, falseWord, nullWord] := by simpa using hword
      have hall := List.all_eq_true.mp (List.all_eq_true.mp hwords raw hmem) c hc
      simp only [Bool.and_eq_true, decide_eq_true_eq] at hall
      exact ⟨hall.1.1, hall.1.2, hall.2⟩
  exact ⟨fun c hc => ⟨(hchars c hc).1, (hchars c hc).2.1⟩, fun hmem => (hchars _ hmem).2.2 rfl⟩

/-- The loop leaves a token alone, and the expression takes commas out of a string. -/
theorem strip_token {raw : JsString} {kind : TokenKind} {value : Json ν}
    (h : IsToken numbers raw kind value) (rest : JsString) :
    stripComments .code (raw ++ rest) = raw ++ stripComments .code rest ∧
      stripJsonc (raw ++ rest) = dropTrailingCommas raw ++ stripJsonc rest := by
  have hunquoted : (∀ c ∈ raw, c ≠ unit '"' ∧ c ≠ unit '/') ∧ unit ',' ∉ raw →
      stripComments .code (raw ++ rest) = raw ++ stripComments .code rest ∧
        stripJsonc (raw ++ rest) = dropTrailingCommas raw ++ stripJsonc rest := by
    rintro ⟨hplain, hcomma⟩
    rw [stripJsonc, stripComments_append hplain, dropTrailingCommas_append hcomma,
      dropTrailingCommas_self hcomma]
    exact ⟨rfl, rfl⟩
  rcases token_cases h with ⟨body, name, rfl, -, hspells⟩ | ⟨-, hunits, -⟩ | hword
  · have hloop : stripComments .code (unit '"' :: (body ++ [unit '"']) ++ rest) =
        unit '"' :: (body ++ unit '"' :: stripComments .code rest) := by
      rw [List.cons_append, List.append_assoc, List.cons_append, List.nil_append, stripComments,
        if_pos rfl, hspells.stripComments]
    rw [stripJsonc, hloop, dropTrailingCommas_cons (by decide), dropTrailingCommas_quoted,
      dropTrailingCommas_cons (by decide), dropTrailingCommas_quoted]
    simp [stripJsonc, dropTrailingCommas]
  · exact hunquoted (unquoted_token (.inl hunits))
  · refine hunquoted (unquoted_token (.inr ?_))
    exact hword.imp And.left (Or.imp And.left And.left)

theorem stripJsonc_cons (hquote : c ≠ unit '"') (hslash : c ≠ unit '/') (hcomma : c ≠ unit ',') :
    stripJsonc (c :: rest) = c :: stripJsonc rest := by
  rw [stripJsonc, stripComments, if_neg hquote, if_neg hslash, dropTrailingCommas_cons hcomma]
  rfl

theorem token_head {raw : JsString} {kind : TokenKind} {value : Json ν}
    (h : IsToken numbers raw kind value) : ∃ c tail, raw = c :: tail ∧ isSpace c = false ∧
      c ≠ unit '}' ∧ c ≠ unit ']' ∧ c ≠ unit ',' := by
  obtain ⟨c, tail, heq, hspace, -⟩ := h.head
  refine ⟨c, tail, heq, hspace, ?_⟩
  rcases token_cases h with ⟨body, name, hraw, -⟩ | ⟨-, hunits, -⟩ | hword
  · rw [heq, List.cons.injEq] at hraw
    rw [hraw.1]
    decide
  · have hunit := hunits c (by simp [heq])
    refine ⟨?_, ?_, ?_⟩ <;> (rintro rfl; revert hunit; decide)
  · rcases hword with ⟨hraw, -⟩ | ⟨hraw, -⟩ | ⟨hraw, -⟩
    all_goals
      rw [heq] at hraw
      simp only [trueWord, falseWord, nullWord, List.cons.injEq] at hraw
      rw [hraw.1]
      decide

theorem not_closes_token {raw : JsString} {kind : TokenKind} {value : Json ν}
    (h : IsToken numbers raw kind value) (rest : JsString) : closes (raw ++ rest) = false := by
  obtain ⟨c, tail, rfl, hspace, hbrace, hbracket, -⟩ := token_head h
  rw [List.cons_append, closes_cons hspace]
  simp [hbrace, hbracket]

/-! ## Trivia -/

/-- The loop is outside of comments and strings behind the trivia, and leaves only whitespace. -/
structure Synced (x : JsString) : Prop where
  next : ∀ rest, stripComments .code (x ++ rest) = stripComments .code x ++ stripComments .code rest
  spaces : ∀ c ∈ stripComments .code x, isSpace c = true

theorem Synced.stripJsonc (h : Synced x) (rest : JsString) :
    stripJsonc (x ++ rest) = stripComments .code x ++ StripJsonc.stripJsonc rest := by
  rw [StripJsonc.stripJsonc, h.next, dropTrailingCommas_append (comma_not_mem_of_isSpace h.spaces)]
  rfl

theorem Synced.comma_closing (h : Synced x) (hc : c = unit '}' ∨ c = unit ']') (rest : JsString) :
    StripJsonc.stripJsonc (unit ',' :: (x ++ c :: rest)) =
      stripComments .code x ++ c :: StripJsonc.stripJsonc rest := by
  have hother : c ≠ unit '"' ∧ c ≠ unit '/' ∧ c ≠ unit ',' ∧ isSpace c = false := by
    rcases hc with rfl | rfl <;> decide
  have hloop : stripComments .code (unit ',' :: (x ++ c :: rest)) =
      unit ',' :: (stripComments .code x ++ c :: stripComments .code rest) := by
    rw [stripComments, if_neg (by decide), if_neg (by decide), h.next, stripComments,
      if_neg hother.1, if_neg hother.2.1]
  have hcloses : closes (stripComments .code x ++ c :: stripComments .code rest) = true := by
    rw [closes_append h.spaces, closes_cons hother.2.2.2]
    simpa using hc
  rw [StripJsonc.stripJsonc, hloop, dropTrailingCommas, if_pos (by simp [hcloses]),
    dropTrailingCommas_append (comma_not_mem_of_isSpace h.spaces),
    dropTrailingCommas_cons hother.2.2.1]
  rfl

theorem stripJsonc_comma (h : closes (stripComments .code rest) = false) :
    stripJsonc (unit ',' :: rest) = unit ',' :: stripJsonc rest := by
  rw [stripJsonc, stripComments, if_neg (by decide), if_neg (by decide), dropTrailingCommas,
    if_neg (by simp [h])]
  rfl

/-- The mode of the loop that goes with one of the scanner. -/
def modeOf : TriviaMode → StripMode
  | .code => .code
  | .slash => .slash
  | .line => .line
  | .block => .block
  | .star => .star

/-- Without carriage returns the loop goes with the scanner, and keeps no more than whitespace. -/
theorem step_together (mode : TriviaMode) (hreturn : c ≠ unit '\r') :
    (∃ next out, (∀ d ∈ out, isSpace d = true) ∧
      (∀ t, skipTrivia mode (c :: t) = skipTrivia next t) ∧
      ∀ t, stripComments (modeOf mode) (c :: t) = out ++ stripComments (modeOf next) t) ∨
    ∀ t, skipTrivia mode (c :: t) ≠ .ok [] := by
  cases mode with
  | code =>
      by_cases hspace : isSpace c = true
      · have hother : c ≠ unit '"' ∧ c ≠ unit '/' := by
          constructor <;> (rintro rfl; revert hspace; decide)
        refine .inl ⟨.code, [c], by simpa using hspace, fun t => ?_, fun t => ?_⟩
        · rw [skipTrivia, if_pos hspace]
        · rw [modeOf, stripComments, if_neg hother.1, if_neg hother.2, List.singleton_append]
      · by_cases hslash : c = unit '/'
        · subst hslash
          exact .inl ⟨.slash, [], List.forall_mem_nil _, fun _ => rfl, fun _ => rfl⟩
        · refine .inr fun t h => ?_
          rw [skipTrivia, if_neg hspace, if_neg hslash] at h
          cases h
  | slash =>
      by_cases hline : c = unit '/'
      · subst hline
        exact .inl ⟨.line, [], List.forall_mem_nil _, fun _ => rfl, fun _ => rfl⟩
      · by_cases hblock : c = unit '*'
        · subst hblock
          exact .inl ⟨.block, [], List.forall_mem_nil _, fun _ => rfl, fun _ => rfl⟩
        · refine .inr fun t h => ?_
          rw [skipTrivia, if_neg hline, if_neg hblock] at h
          cases h
  | line =>
      by_cases hend : c = unit '\n'
      · subst hend
        exact .inl ⟨.code, [unit '\n'], List.forall_mem_singleton.mpr rfl, fun _ => rfl, fun _ => rfl⟩
      · have hbreak : isLineBreak c = false := by simp [isLineBreak, hend, hreturn]
        refine .inl ⟨.line, [], List.forall_mem_nil _, fun t => ?_, fun t => ?_⟩
        · rw [skipTrivia, if_neg (by simp [hbreak])]
        · simp only [modeOf, stripComments, if_neg hend, List.nil_append]
  | block =>
      by_cases hstar : c = unit '*'
      · subst hstar
        exact .inl ⟨.star, [], List.forall_mem_nil _, fun _ => rfl, fun _ => rfl⟩
      · refine .inl ⟨.block, [], List.forall_mem_nil _, fun t => ?_, fun t => ?_⟩
        · rw [skipTrivia, if_neg hstar]
        · simp only [modeOf, stripComments, if_neg hstar, List.nil_append]
  | star =>
      by_cases hend : c = unit '/'
      · subst hend
        exact .inl ⟨.code, [], List.forall_mem_nil _, fun _ => rfl, fun _ => rfl⟩
      · by_cases hstar : c = unit '*'
        · subst hstar
          exact .inl ⟨.star, [], List.forall_mem_nil _, fun _ => rfl, fun _ => rfl⟩
        · refine .inl ⟨.block, [], List.forall_mem_nil _, fun t => ?_, fun t => ?_⟩
          · rw [skipTrivia, if_neg hend, if_neg hstar]
          · simp only [modeOf, stripComments, if_neg hend, if_neg hstar, List.nil_append]

theorem spaces_of_skip {mode : TriviaMode} (hreturn : unit '\r' ∉ x)
    (h : skipTrivia mode x = .ok []) : ∀ c ∈ stripComments (modeOf mode) x, isSpace c = true := by
  induction x generalizing mode with
  | nil =>
      cases mode with
      | code => exact nofun
      | line => exact nofun
      | _ => cases h
  | cons c x ih =>
      simp only [List.mem_cons, not_or] at hreturn
      rcases step_together mode (Ne.symm hreturn.1) with ⟨next, out, hout, hscanner, hloop⟩ | hstop
      · rw [hscanner] at h
        rw [hloop]
        exact fun d hd => (List.mem_append.mp hd).elim (hout d) (ih hreturn.2 h d)
      · exact absurd h (hstop x)

theorem next_of_skip {mode : TriviaMode} (hreturn : unit '\r' ∉ x)
    (h : ∀ rest, skipTrivia mode (x ++ rest) = skipTrivia .code rest) (rest : JsString) :
    stripComments (modeOf mode) (x ++ rest) =
      stripComments (modeOf mode) x ++ stripComments .code rest := by
  induction x generalizing mode with
  | nil =>
      have hbrace := h [unit '}']
      cases mode with
      | code => rfl
      | line => exact absurd hbrace (by decide)
      | slash => exact absurd (h []) (by simp [skipTrivia])
      | block => exact absurd (h []) (by simp [skipTrivia])
      | star => exact absurd (h []) (by simp [skipTrivia])
  | cons c x ih =>
      simp only [List.mem_cons, not_or] at hreturn
      simp only [List.cons_append] at h ⊢
      rcases step_together mode (Ne.symm hreturn.1) with ⟨next, out, -, hscanner, hloop⟩ | hstop
      · simp only [hscanner] at h
        rw [hloop, hloop, ih hreturn.2 h, List.append_assoc]
      · exact absurd (h []) (hstop _)

theorem synced_of_closed (h : Closed x) (hreturn : unit '\r' ∉ x) : Synced x := by
  have hend : skipTrivia .code x = .ok [] := by
    have hnil := h []
    rwa [List.append_nil] at hnil
  exact ⟨next_of_skip hreturn h, spaces_of_skip hreturn hend⟩

end AfyxGraph.Resolution.StripJsonc
