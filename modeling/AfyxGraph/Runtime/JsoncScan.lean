import AfyxGraph.Runtime.Jsonc

/-! # What the scanner reads

Trivia that is complete can be followed by anything, and a token by anything that does not
continue a number. Both are said by what the scanner does with them, so that a text can be
put together again from such pieces.
-/

namespace AfyxGraph.Runtime

variable {ν : Type} {numbers : NumberFormat ν} {x y raw rest s : JsString} {c : CodeUnit}

/-! ## Trivia -/

/-- One character of trivia, or the end of it. -/
theorem skipTrivia_cons (mode : TriviaMode) (c : CodeUnit) :
    (∃ next, ∀ t, skipTrivia mode (c :: t) = skipTrivia next t) ∨
      (mode = .code ∧ c ≠ unit '/' ∧ ∀ t, skipTrivia mode (c :: t) = .ok (c :: t)) ∨
      (mode = .slash ∧ ∀ t, skipTrivia mode (c :: t) = .ok (unit '/' :: c :: t)) := by
  cases mode with
  | code =>
      by_cases hspace : isSpace c = true
      · exact Or.inl ⟨.code, fun t => by rw [skipTrivia, if_pos hspace]⟩
      · by_cases hc : c = unit '/'
        · exact Or.inl ⟨.slash, fun t => by rw [skipTrivia, if_neg hspace, if_pos hc]⟩
        · exact Or.inr (Or.inl ⟨rfl, hc, fun t => by rw [skipTrivia, if_neg hspace, if_neg hc]⟩)
  | slash =>
      by_cases hline : c = unit '/'
      · exact Or.inl ⟨.line, fun t => by rw [skipTrivia, if_pos hline]⟩
      · by_cases hblock : c = unit '*'
        · exact Or.inl ⟨.block, fun t => by rw [skipTrivia, if_neg hline, if_pos hblock]⟩
        · exact Or.inr (Or.inr ⟨rfl, fun t => by rw [skipTrivia, if_neg hline, if_neg hblock]⟩)
  | line =>
      by_cases hbreak : isLineBreak c = true
      · exact Or.inl ⟨.code, fun t => by rw [skipTrivia, if_pos hbreak]⟩
      · exact Or.inl ⟨.line, fun t => by rw [skipTrivia, if_neg hbreak]⟩
  | block =>
      by_cases hstar : c = unit '*'
      · exact Or.inl ⟨.star, fun t => by rw [skipTrivia, if_pos hstar]⟩
      · exact Or.inl ⟨.block, fun t => by rw [skipTrivia, if_neg hstar]⟩
  | star =>
      by_cases hend : c = unit '/'
      · exact Or.inl ⟨.code, fun t => by rw [skipTrivia, if_pos hend]⟩
      · by_cases hstar : c = unit '*'
        · exact Or.inl ⟨.star, fun t => by rw [skipTrivia, if_neg hend, if_pos hstar]⟩
        · exact Or.inl ⟨.block, fun t => by rw [skipTrivia, if_neg hend, if_neg hstar]⟩

/-- Whitespace and complete comments. -/
def Closed (x : JsString) : Prop :=
  ∀ rest, skipTrivia .code (x ++ rest) = skipTrivia .code rest

theorem closed_nil : Closed [] := fun _ => rfl

theorem Closed.append (hx : Closed x) (hy : Closed y) : Closed (x ++ y) := by
  intro rest
  rw [List.append_assoc, hx, hy]

theorem closed_of_isSpace (h : ∀ c ∈ x, isSpace c = true) : Closed x := by
  induction x with
  | nil => exact closed_nil
  | cons c x ih =>
      intro rest
      rw [List.cons_append, skipTrivia, if_pos (h c (by simp))]
      exact ih (fun d hd => h d (by simp [hd])) rest

/-- What is skipped before something else is closed. A lone slash is not skipped. -/
theorem skipTrivia_split {mode : TriviaMode} (h : skipTrivia mode s = .ok rest)
    (hrest : rest ≠ []) (hslash : rest.head? ≠ some (unit '/')) :
    ∃ x, s = x ++ rest ∧ ∀ rest', skipTrivia mode (x ++ rest') = skipTrivia .code rest' := by
  induction s generalizing mode with
  | nil =>
      cases mode <;> simp only [skipTrivia, Except.ok.injEq, reduceCtorEq] at h <;> subst h
      · exact absurd rfl hrest
      · exact absurd rfl hslash
      · exact absurd rfl hrest
  | cons c s ih =>
      rcases skipTrivia_cons mode c with ⟨next, hnext⟩ | ⟨rfl, hc, hstop⟩ | ⟨rfl, hstop⟩
      · rw [hnext] at h
        obtain ⟨x, hsplit, hx⟩ := ih h
        refine ⟨c :: x, by rw [hsplit]; rfl, fun rest' => ?_⟩
        rw [List.cons_append, hnext, hx]
      · rw [hstop] at h
        cases h
        exact ⟨[], rfl, fun _ => rfl⟩
      · rw [hstop] at h
        cases h
        exact absurd rfl hslash

/-- A line break ends what may be left open by a comment of one line. -/
theorem skipTrivia_lineBreak {mode : TriviaMode} (hc : isLineBreak c = true)
    (hspace : isSpace c = true) (h : skipTrivia mode (x ++ [c]) = .ok []) :
    skipTrivia mode (x ++ [c] ++ rest) = skipTrivia .code rest := by
  induction x generalizing mode with
  | nil =>
      have hslash : c ≠ unit '/' := by
        rintro rfl
        revert hspace
        decide
      have hstar : c ≠ unit '*' := by
        rintro rfl
        revert hspace
        decide
      cases mode with
      | code => simp [skipTrivia, hspace]
      | slash => simp [skipTrivia, hslash, hstar] at h
      | line => simp [skipTrivia, hc]
      | block => simp [skipTrivia, hstar] at h
      | star => simp [skipTrivia, hslash, hstar] at h
  | cons d x ih =>
      rcases skipTrivia_cons mode d with ⟨next, hnext⟩ | ⟨rfl, -, hstop⟩ | ⟨rfl, hstop⟩
      · rw [List.cons_append, hnext] at h
        rw [List.cons_append, List.cons_append, hnext]
        exact ih h
      · rw [List.cons_append, hstop] at h
        cases h
      · rw [List.cons_append, hstop] at h
        cases h

theorem closed_of_lineBreak (hc : isLineBreak c = true)
    (h : skipTrivia .code (x ++ [c]) = .ok []) : Closed (x ++ [c]) := by
  have hspace : isSpace c = true := by
    simp only [isLineBreak, Bool.or_eq_true, decide_eq_true_eq] at hc
    rcases hc with rfl | rfl <;> decide
  exact fun rest => skipTrivia_lineBreak hc hspace h

/-! ## What may follow a token -/

/-- The text does not continue a number. -/
def Delimited (s : JsString) : Prop := ∀ c ∈ s.head?, isNumberUnit c = false

theorem delimited_nil : Delimited [] := by
  intro c hc
  cases hc

theorem delimited_cons (h : isNumberUnit c = false) : Delimited (c :: s) := by
  intro d hd
  obtain rfl := Option.some.inj hd
  exact h

theorem isNumberUnit_of_isSpace (h : isSpace c = true) : isNumberUnit c = false := by
  have hunits : (unit '0').toNat = 48 ∧ (unit '9').toNat = 57 ∧ (unit 'e').toNat = 101 ∧
      (unit 'E').toNat = 69 ∧ (unit '+').toNat = 43 ∧ (unit '-').toNat = 45 ∧
      (unit '.').toNat = 46 := by decide
  simp only [isSpace, isNumberUnit, isDigit, Bool.or_eq_true, Bool.and_eq_true,
    decide_eq_true_eq, Bool.or_eq_false_iff, Bool.and_eq_false_iff, decide_eq_false_iff_not,
    UInt16.le_iff_toNat_le, ← UInt16.toNat_inj, UInt16.toNat_ofNat] at h ⊢
  omega

/-- Text the scanner skips to something that does not continue a number. -/
theorem delimited_of_skipTrivia (h : skipTrivia .code s = .ok rest) (hrest : Delimited rest) :
    Delimited s := by
  cases s with
  | nil => exact delimited_nil
  | cons c s =>
      rw [skipTrivia] at h
      split at h
      · rename_i hspace
        exact delimited_cons (isNumberUnit_of_isSpace hspace)
      · split at h
        · rename_i hslash
          subst hslash
          exact delimited_cons (by decide)
        · cases h
          exact hrest

theorem Closed.delimited (hx : Closed x) (hrest : Delimited rest) : Delimited (x ++ rest) := by
  cases x with
  | nil => exact hrest
  | cons c x =>
      have hnil := hx []
      rw [List.append_nil] at hnil
      have hhead := delimited_of_skipTrivia (hnil.trans rfl) delimited_nil
      exact delimited_cons (hhead c rfl)

theorem span_delimited (h : ∀ c ∈ x, isNumberUnit c = true) (hrest : Delimited rest) :
    (x ++ rest).takeWhile isNumberUnit = x ∧ (x ++ rest).dropWhile isNumberUnit = rest := by
  rw [List.takeWhile_append_of_pos h, List.dropWhile_append_of_pos h]
  cases rest with
  | nil => simp
  | cons c rest => simp [hrest c rfl]

/-! ## Tokens -/

/-- The text of a string, number or literal. -/
structure IsToken (numbers : NumberFormat ν) (raw : JsString) (kind : TokenKind)
    (value : Json ν) : Prop where
  head : ∃ c tail, raw = c :: tail ∧ isSpace c = false ∧ c ≠ unit '/'
  scanned : ∀ start rest, Delimited rest →
    scanToken numbers start (raw ++ rest) =
      .ok (⟨kind, start, start + raw.length, some value⟩, rest)
  scalar : (kind = .string ∧ ∃ name, value = .string name) ∨ kind = .number ∨ kind = .literal

/-- What a scan of `s` can find. -/
inductive Scanned (numbers : NumberFormat ν) (start : Nat) (s rest : JsString) : Token ν → Prop
  | eof : s = [] → rest = [] → Scanned numbers start s rest ⟨.eof, start, start, none⟩
  | punctuation {c : CodeUnit} {kind : TokenKind} : punctuation c = some kind → s = c :: rest →
      Scanned numbers start s rest ⟨kind, start, start + 1, none⟩
  | scalar {raw : JsString} {kind : TokenKind} {value : Json ν} : IsToken numbers raw kind value →
      s = raw ++ rest → Scanned numbers start s rest ⟨kind, start, start + raw.length, some value⟩

theorem IsToken.length_pos {kind : TokenKind} {value : Json ν}
    (h : IsToken numbers raw kind value) : 0 < raw.length := by
  obtain ⟨c, tail, rfl, -⟩ := h.head
  simp

theorem solid_cons (hspace : isSpace c = false) (hslash : c ≠ unit '/') :
    skipTrivia .code (c :: rest) = .ok (c :: rest) := by
  rw [skipTrivia, if_neg (by simp [hspace]), if_neg hslash]

theorem IsToken.solid {kind : TokenKind} {value : Json ν} (h : IsToken numbers raw kind value)
    (rest : JsString) : skipTrivia .code (raw ++ rest) = .ok (raw ++ rest) := by
  obtain ⟨c, tail, rfl, hspace, hslash⟩ := h.head
  exact solid_cons hspace hslash

theorem scanString_split {escaped : Bool} {body : JsString}
    (h : scanString escaped s = .ok (body, rest)) :
    s = body ++ unit '"' :: rest ∧
      ∀ rest', scanString escaped (body ++ unit '"' :: rest') = .ok (body, rest') := by
  induction s generalizing escaped body with
  | nil => cases h
  | cons c s ih =>
      rw [scanString] at h
      split at h
      · rename_i hquote
        simp only [Bool.and_eq_true, decide_eq_true_eq] at hquote
        obtain ⟨hescaped, rfl⟩ := hquote
        cases h
        exact ⟨rfl, fun rest' => by simp [scanString, hescaped]⟩
      · rename_i hquote
        split at h
        · cases h
        · rename_i hbreak
          cases hscan : scanString (!escaped && c = unit '\\') s with
          | error message =>
              rw [hscan] at h
              cases h
          | ok found =>
              obtain ⟨body', rest'⟩ := found
              rw [hscan] at h
              cases h
              obtain ⟨hsplit, hagain⟩ := ih hscan
              refine ⟨by rw [hsplit]; rfl, fun rest' => ?_⟩
              rw [List.cons_append, scanString, if_neg hquote, if_neg hbreak, hagain]
              rfl

theorem literalAt_split {word : JsString} {value : Json ν} (h : literalAt s = some (word, value)) :
    (word = trueWord ∧ value = .bool true ∨ word = falseWord ∧ value = .bool false ∨
      word = nullWord ∧ value = .null) ∧ ∃ rest, s = word ++ rest := by
  unfold literalAt at h
  split at h
  · rename_i hprefix
    cases h
    obtain ⟨rest, rfl⟩ := List.isPrefixOf_iff_prefix.mp hprefix
    exact ⟨Or.inl ⟨rfl, rfl⟩, rest, rfl⟩
  · split at h
    · rename_i hprefix
      cases h
      obtain ⟨rest, rfl⟩ := List.isPrefixOf_iff_prefix.mp hprefix
      exact ⟨Or.inr (Or.inl ⟨rfl, rfl⟩), rest, rfl⟩
    · split at h
      · rename_i hprefix
        cases h
        obtain ⟨rest, rfl⟩ := List.isPrefixOf_iff_prefix.mp hprefix
        exact ⟨Or.inr (Or.inr ⟨rfl, rfl⟩), rest, rfl⟩
      · cases h

variable (numbers) in
theorem isToken_string {body value : JsString} (hscan : ∀ rest, scanString false
    (body ++ unit '"' :: rest) = .ok (body, rest)) (hvalue : parseStringBody body = some value) :
    IsToken numbers (unit '"' :: (body ++ [unit '"'])) .string (.string value) where
  head := ⟨_, _, rfl, by decide, by decide⟩
  scanned start rest _ := by
    have hpunctuation : punctuation (unit '"') = none := by decide
    simp only [List.cons_append, List.append_assoc, List.nil_append, scanToken, hpunctuation,
      if_true, hscan rest, bind, Except.bind, hvalue]
    simp only [List.length_cons, List.length_append, List.length_nil]
  scalar := Or.inl ⟨rfl, value, rfl⟩

/-- A number starts like nothing else. -/
theorem numberStart (h : c = unit '-' ∨ isDigit c = true) :
    punctuation c = none ∧ c ≠ unit '"' ∧ isSpace c = false ∧ c ≠ unit '/' := by
  have hnumber : isNumberUnit c = true := by
    rcases h with rfl | h
    · decide
    · simp [isNumberUnit, h]
  have hother : ∀ d, isNumberUnit d = false → c ≠ d := by
    rintro d hd rfl
    rw [hd] at hnumber
    cases hnumber
  refine ⟨?_, hother _ (by decide), ?_, hother _ (by decide)⟩
  · simp [punctuation, hother (unit '{') (by decide), hother (unit '}') (by decide),
      hother (unit '[') (by decide), hother (unit ']') (by decide),
      hother (unit ':') (by decide), hother (unit ',') (by decide)]
  · cases hspace : isSpace c with
    | false => rfl
    | true =>
        rw [isNumberUnit_of_isSpace hspace] at hnumber
        cases hnumber

theorem isToken_number {tail : JsString} {value : ν} (hstart : c = unit '-' ∨ isDigit c = true)
    (htail : ∀ d ∈ tail, isNumberUnit d = true) (hliteral : isNumberLiteral (c :: tail) = true)
    (hvalue : numbers.ofLiteral (c :: tail) = some value) :
    IsToken numbers (c :: tail) .number (.number value) := by
  obtain ⟨hpunctuation, hquote, hspace, hslash⟩ := numberStart hstart
  refine ⟨⟨c, tail, rfl, hspace, hslash⟩, fun start rest hrest => ?_, Or.inr (Or.inl rfl)⟩
  obtain ⟨htake, hdrop⟩ := span_delimited htail hrest
  have hnumber : (c = unit '-' || isDigit c) = true := by simpa using hstart
  rw [List.cons_append, scanToken, hpunctuation]
  simp only [hquote, if_false, hnumber, if_true, htake, hdrop, hliteral, hvalue]

theorem isToken_literal {word : JsString} {value : Json ν}
    (h : word = trueWord ∧ value = .bool true ∨ word = falseWord ∧ value = .bool false ∨
      word = nullWord ∧ value = .null) : IsToken numbers word .literal value := by
  rcases h with ⟨rfl, rfl⟩ | ⟨rfl, rfl⟩ | ⟨rfl, rfl⟩
  · exact ⟨⟨_, _, rfl, by decide, by decide⟩, fun _ _ _ => rfl, Or.inr (Or.inr rfl)⟩
  · exact ⟨⟨_, _, rfl, by decide, by decide⟩, fun _ _ _ => rfl, Or.inr (Or.inr rfl)⟩
  · exact ⟨⟨_, _, rfl, by decide, by decide⟩, fun _ _ _ => rfl, Or.inr (Or.inr rfl)⟩

theorem scanToken_split {start : Nat} {token : Token ν}
    (h : scanToken numbers start s = .ok (token, rest)) : Scanned numbers start s rest token := by
  cases s with
  | nil =>
      cases h
      exact .eof rfl rfl
  | cons c s =>
      rw [scanToken] at h
      split at h
      · rename_i kind hkind
        cases h
        exact .punctuation hkind rfl
      · split at h
        · rename_i hquote
          subst hquote
          cases hscan : scanString false s with
          | error message =>
              rw [hscan] at h
              cases h
          | ok found =>
              obtain ⟨body, after⟩ := found
              rw [hscan] at h
              obtain ⟨hsplit, hagain⟩ := scanString_split hscan
              cases hvalue : parseStringBody body with
              | none =>
                  simp only [bind, Except.bind, hvalue] at h
                  cases h
              | some value =>
                  simp only [bind, Except.bind, hvalue] at h
                  cases h
                  have htoken := isToken_string numbers hagain hvalue
                  have hlength : body.length + 2 = (unit '"' :: (body ++ [unit '"'])).length := by
                    simp
                  rw [hlength]
                  exact .scalar htoken (by rw [hsplit]; simp)
        · rename_i hquote
          split at h
          · rename_i hnumber
            simp only [Bool.or_eq_true, decide_eq_true_eq] at hnumber
            dsimp only at h
            split at h
            · rename_i value hvalue
              cases h
              rw [Option.ite_none_right_eq_some] at hvalue
              have htail : ∀ d ∈ s.takeWhile isNumberUnit, isNumberUnit d = true :=
                fun d hd => List.mem_takeWhile_imp hd
              exact .scalar (isToken_number hnumber htail hvalue.1 hvalue.2)
                (by simp [List.takeWhile_append_dropWhile])
            · cases h
          · split at h
            · rename_i word value hliteral
              cases h
              obtain ⟨hword, after, hsplit⟩ := literalAt_split hliteral
              rw [hsplit, List.drop_left]
              exact .scalar (isToken_literal hword) rfl
            · cases h

/-! ## The next token -/

variable {offset : Nat}

theorem next_eq {token : Token ν} (hx : skipTrivia .code (x ++ s) = .ok s)
    (hs : scanToken numbers (offset + x.length) s = .ok (token, rest)) :
    Scanner.next numbers ⟨offset, x ++ s⟩ = .ok (token, ⟨token.stop, rest⟩) := by
  have hlength : (x ++ s).length - s.length = x.length := by simp
  simp only [Scanner.next, hx, bind, Except.bind, hlength, hs]

theorem of_punctuation {kind : TokenKind} (h : punctuation c = some kind) :
    isSpace c = false ∧ c ≠ unit '/' ∧ isNumberUnit c = false := by
  have hchar : c = unit '{' ∨ c = unit '}' ∨ c = unit '[' ∨ c = unit ']' ∨ c = unit ':' ∨
      c = unit ',' := by
    by_contra hnone
    simp only [not_or] at hnone
    simp [punctuation, hnone] at h
  rcases hchar with rfl | rfl | rfl | rfl | rfl | rfl <;> decide

theorem next_punctuation {kind : TokenKind} (hx : Closed x) (hc : punctuation c = some kind) :
    Scanner.next numbers ⟨offset, x ++ c :: rest⟩ =
      .ok (⟨kind, offset + x.length, offset + x.length + 1, none⟩,
        ⟨offset + x.length + 1, rest⟩) := by
  obtain ⟨hspace, hslash, -⟩ := of_punctuation hc
  have hsolid : skipTrivia .code (c :: rest) = .ok (c :: rest) := solid_cons hspace hslash
  have hscan : scanToken numbers (offset + x.length) (c :: rest) =
      .ok (⟨kind, offset + x.length, offset + x.length + 1, none⟩, rest) := by
    rw [scanToken, hc]
  exact next_eq ((hx _).trans hsolid) hscan

theorem next_scalar {kind : TokenKind} {value : Json ν} (hx : Closed x)
    (hraw : IsToken numbers raw kind value) (hrest : Delimited rest) :
    Scanner.next numbers ⟨offset, x ++ (raw ++ rest)⟩ =
      .ok (⟨kind, offset + x.length, offset + x.length + raw.length, some value⟩,
        ⟨offset + x.length + raw.length, rest⟩) :=
  next_eq ((hx _).trans (hraw.solid rest)) (hraw.scanned _ rest hrest)

theorem next_eof (hx : skipTrivia .code x = .ok []) :
    Scanner.next numbers ⟨offset, x⟩ =
      .ok (⟨.eof, offset + x.length, offset + x.length, none⟩, ⟨offset + x.length, []⟩) := by
  have hx' : skipTrivia .code (x ++ []) = .ok [] := by rwa [List.append_nil]
  have hnext : Scanner.next numbers ⟨offset, x ++ []⟩ = .ok (_, ⟨_, []⟩) := next_eq hx' rfl
  rwa [List.append_nil] at hnext

/-- What the scanner has passed when it returns a token. -/
inductive Next (numbers : NumberFormat ν) (offset : Nat) (s : JsString) :
    Token ν → Scanner → Prop
  | eof : skipTrivia .code s = .ok [] →
      Next numbers offset s ⟨.eof, offset + s.length, offset + s.length, none⟩
        ⟨offset + s.length, []⟩
  | punctuation {x rest : JsString} {c : CodeUnit} {kind : TokenKind} : Closed x →
      punctuation c = some kind → s = x ++ c :: rest →
      Next numbers offset s ⟨kind, offset + x.length, offset + x.length + 1, none⟩
        ⟨offset + x.length + 1, rest⟩
  | scalar {x raw rest : JsString} {kind : TokenKind} {value : Json ν} : Closed x →
      IsToken numbers raw kind value → s = x ++ (raw ++ rest) →
      Next numbers offset s
        ⟨kind, offset + x.length, offset + x.length + raw.length, some value⟩
        ⟨offset + x.length + raw.length, rest⟩

theorem next_split {token : Token ν} {scanner : Scanner}
    (h : Scanner.next numbers ⟨offset, s⟩ = .ok (token, scanner)) :
    Next numbers offset s token scanner := by
  unfold Scanner.next at h
  cases htrivia : skipTrivia .code s with
  | error message =>
      rw [htrivia] at h
      cases h
  | ok s' =>
      rw [htrivia] at h
      simp only [bind, Except.bind] at h
      cases hscan : scanToken numbers (offset + (s.length - s'.length)) s' with
      | error message =>
          rw [hscan] at h
          cases h
      | ok found =>
          obtain ⟨token', rest⟩ := found
          rw [hscan] at h
          cases h
          cases scanToken_split hscan with
          | eof hs hrest =>
              subst hs hrest
              exact .eof htrivia
          | punctuation hc hs =>
              subst hs
              obtain ⟨x, rfl, hx⟩ := skipTrivia_split htrivia (by simp)
                (by simpa using (of_punctuation hc).2.1)
              rw [show (x ++ _ :: rest).length - (_ :: rest).length = x.length by simp]
              exact .punctuation hx hc rfl
          | scalar hraw hs =>
              subst hs
              obtain ⟨c, tail, rfl, -, hslash⟩ := hraw.head
              obtain ⟨x, rfl, hx⟩ := skipTrivia_split htrivia (by simp) (by simpa using hslash)
              rw [show (x ++ (c :: tail ++ rest)).length - (c :: tail ++ rest).length = x.length
                by simp]
              exact .scalar hx hraw rfl

end AfyxGraph.Runtime
