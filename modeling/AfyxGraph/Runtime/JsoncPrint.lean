import AfyxGraph.Runtime.JsoncParse

/-! # Formatted values are read back

`JSON.stringify` writes a text of a tree, whatever the lines are indented with. A key
`__proto__` apart, the value of that tree is the value written.
-/

namespace AfyxGraph.Runtime

open AfyxGraph.Core

variable {ν : Type} {numbers : NumberFormat ν} {x y s : JsString} {c : CodeUnit}

/-! ## Strings -/

theorem parseStringBody_unit (t : JsString) (hslash : c ≠ unit '\\') (hquote : c ≠ unit '"')
    (hcontrol : ¬ c < 32) :
    parseStringBody (c :: t) = (parseStringBody t).map (c :: ·) := by
  rw [parseStringBody.eq_def]
  simp only [hslash, hquote, hcontrol, if_false, decide_false, Bool.or_self, Bool.false_eq_true]

theorem parseStringBody_escape (e : CodeUnit) (t : JsString) (he : e ≠ unit 'u') :
    parseStringBody (unit '\\' :: e :: t) =
      (unescape e).bind fun u => (parseStringBody t).map (u :: ·) := by
  rw [parseStringBody.eq_def]
  simp only [if_true, he, if_false]
  cases unescape e <;> cases parseStringBody t <;> rfl

theorem parseStringBody_hex {a b c d : CodeUnit} {a' b' c' d' : Nat} (t : JsString)
    (ha : hexValue a = some a') (hb : hexValue b = some b') (hc : hexValue c = some c')
    (hd : hexValue d = some d') :
    parseStringBody (unit '\\' :: unit 'u' :: a :: b :: c :: d :: t) =
      (parseStringBody t).map ((((a' * 16 + b') * 16 + c') * 16 + d').toUInt16 :: ·) := by
  rw [parseStringBody.eq_def]
  simp only [if_true, ha, hb, hc, hd, bind, Option.bind]
  cases parseStringBody t <;> rfl

/-- The scanner passes this part of a string. -/
def ScansAs (x : JsString) : Prop :=
  ∀ t body rest, scanString false t = .ok (body, rest) →
    scanString false (x ++ t) = .ok (x ++ body, rest)

/-- The text of one unit in a string. -/
structure Quotes (x : JsString) (c : CodeUnit) : Prop where
  scans : ScansAs x
  parses : ∀ t, parseStringBody (x ++ t) = (parseStringBody t).map (c :: ·)
  newline : unit '\n' ∉ x

theorem scansAs_unit (hquote : c ≠ unit '"') (hbreak : isLineBreak c = false)
    (hslash : c ≠ unit '\\') : ScansAs [c] := by
  intro t body rest h
  simp [scanString, hquote, hbreak, hslash, h, bind, Except.bind]

theorem scansAs_escape (e : CodeUnit) : ScansAs [unit '\\', e] := by
  intro t body rest h
  have hslash : unit '\\' ≠ unit '"' ∧ isLineBreak (unit '\\') = false := by decide
  simp [scanString, hslash, h, bind, Except.bind]

theorem ScansAs.append (hx : ScansAs x) (hy : ScansAs y) : ScansAs (x ++ y) := by
  intro t body rest h
  rw [List.append_assoc, List.append_assoc]
  exact hx _ _ _ (hy _ _ _ h)

theorem quotes_unit (hquote : c ≠ unit '"') (hslash : c ≠ unit '\\') (hcontrol : ¬ c < 32) :
    Quotes [c] c := by
  have hne : ∀ d, d < 32 → c ≠ d := by
    rintro d hd rfl
    exact hcontrol hd
  have hbreak : isLineBreak c = false := by
    simp [isLineBreak, hne (unit '\r') (by decide), hne (unit '\n') (by decide)]
  refine ⟨scansAs_unit hquote hbreak hslash, fun t => ?_, ?_⟩
  · exact parseStringBody_unit t hslash hquote hcontrol
  · simpa using (hne (unit '\n') (by decide)).symm

theorem quotes_escape {e : CodeUnit} (hu : e ≠ unit 'u') (he : unescape e = some c)
    (hnewline : e ≠ unit '\n') : Quotes [unit '\\', e] c := by
  refine ⟨scansAs_escape e, fun t => ?_, ?_⟩
  · rw [List.cons_append, List.cons_append, parseStringBody_escape _ _ hu, he]
    rfl
  · simp only [List.mem_cons, List.not_mem_nil, or_false, not_or]
    exact ⟨by decide, hnewline.symm⟩

theorem hexValue_hexDigit : ∀ d < 16, hexValue (hexDigit d) = some d := by decide

theorem hexDigit_plain : ∀ d < 16, hexDigit d ≠ unit '"' ∧ hexDigit d ≠ unit '\\' ∧
    isLineBreak (hexDigit d) = false ∧ hexDigit d ≠ unit '\n' := by decide

theorem quotes_escapeUnit (c : CodeUnit) : Quotes (escapeUnit c) c := by
  have hbound : c.toNat < 65536 := c.toNat_lt
  have h₁ : c.toNat / 4096 < 16 := by omega
  have h₂ : c.toNat / 256 % 16 < 16 := by omega
  have h₃ : c.toNat / 16 % 16 < 16 := by omega
  have h₄ : c.toNat % 16 < 16 := by omega
  have hvalue : (((c.toNat / 4096 * 16 + c.toNat / 256 % 16) * 16 + c.toNat / 16 % 16) * 16 +
      c.toNat % 16).toUInt16 = c := by
    have hsum : ((c.toNat / 4096 * 16 + c.toNat / 256 % 16) * 16 + c.toNat / 16 % 16) * 16 +
        c.toNat % 16 = c.toNat := by omega
    rw [hsum]
    exact UInt16.ofNat_toNat
  have hplain : ∀ d < 16, ScansAs [hexDigit d] := fun d hd =>
    scansAs_unit (hexDigit_plain d hd).1 (hexDigit_plain d hd).2.2.1 (hexDigit_plain d hd).2.1
  refine ⟨?_, fun t => ?_, ?_⟩
  · exact (scansAs_escape (unit 'u')).append ((hplain _ h₁).append
      ((hplain _ h₂).append ((hplain _ h₃).append (hplain _ h₄))))
  · have hparsed := parseStringBody_hex t (hexValue_hexDigit _ h₁) (hexValue_hexDigit _ h₂)
      (hexValue_hexDigit _ h₃) (hexValue_hexDigit _ h₄)
    rw [hvalue] at hparsed
    exact hparsed
  · simp only [escapeUnit, List.mem_cons, List.not_mem_nil, or_false, not_or]
    exact ⟨by decide, by decide, (hexDigit_plain _ h₁).2.2.2.symm,
      (hexDigit_plain _ h₂).2.2.2.symm, (hexDigit_plain _ h₃).2.2.2.symm,
      (hexDigit_plain _ h₄).2.2.2.symm⟩

theorem quotes_quoteUnit (c : CodeUnit) : Quotes (quoteUnit c) c := by
  unfold quoteUnit
  split
  · rename_i h
    simp only [Bool.or_eq_true, decide_eq_true_eq] at h
    rcases h with rfl | rfl
    · exact quotes_escape (by decide) (by decide) (by decide)
    · exact quotes_escape (by decide) (by decide) (by decide)
  · rename_i h
    simp only [Bool.or_eq_true, decide_eq_true_eq, not_or] at h
    split
    · rename_i hc
      subst hc
      exact quotes_escape (by decide) (by decide) (by decide)
    · split
      · rename_i hc
        subst hc
        exact quotes_escape (by decide) (by decide) (by decide)
      · split
        · rename_i hc
          subst hc
          exact quotes_escape (by decide) (by decide) (by decide)
        · split
          · rename_i hc
            subst hc
            exact quotes_escape (by decide) (by decide) (by decide)
          · split
            · rename_i hc
              subst hc
              exact quotes_escape (by decide) (by decide) (by decide)
            · split
              · exact quotes_escapeUnit c
              · rename_i hc
                simp only [Bool.or_eq_true, decide_eq_true_eq, not_or] at hc
                exact quotes_unit h.1 h.2 hc.1.1

/-- Half of a surrogate pair needs no escape. -/
theorem quotes_surrogate (h : isLeadSurrogate c = true ∨ isTrailSurrogate c = true) :
    Quotes [c] c := by
  have hlarge : ¬ c < 0xD800 := by
    simp only [isLeadSurrogate, isTrailSurrogate, Bool.and_eq_true, decide_eq_true_eq,
      UInt16.le_iff_toNat_le, UInt16.lt_iff_toNat_lt, UInt16.toNat_ofNat] at h ⊢
    omega
  have hne : ∀ d, d < 0xD800 → c ≠ d := by
    rintro d hd rfl
    exact hlarge hd
  refine quotes_unit (hne _ (by decide)) (hne _ (by decide)) fun hcontrol => hlarge ?_
  exact UInt16.lt_trans hcontrol (by decide)

theorem quotes_units (value : JsString) :
    ∀ paired, (paired = true → value.head?.any isTrailSurrogate = true) →
      ScansAs (quoteUnits paired value) ∧ parseStringBody (quoteUnits paired value) = some value ∧
        unit '\n' ∉ quoteUnits paired value := by
  have step : ∀ {x : JsString} {c : CodeUnit} {paired : Bool} {rest : JsString}, Quotes x c →
      (ScansAs (quoteUnits paired rest) ∧ parseStringBody (quoteUnits paired rest) = some rest ∧
        unit '\n' ∉ quoteUnits paired rest) →
      ScansAs (x ++ quoteUnits paired rest) ∧
        parseStringBody (x ++ quoteUnits paired rest) = some (c :: rest) ∧
        unit '\n' ∉ x ++ quoteUnits paired rest := by
    intro x c paired rest hx hrest
    obtain ⟨hscans, hparses, hnewline⟩ := hrest
    refine ⟨hx.scans.append hscans, ?_, ?_⟩
    · rw [hx.parses, hparses]
      rfl
    · simp only [List.mem_append, not_or]
      exact ⟨hx.newline, hnewline⟩
  induction value with
  | nil => exact fun paired _ => ⟨fun _ _ _ h => h, rfl, List.not_mem_nil⟩
  | cons c rest ih =>
      intro paired hpaired
      rw [quoteUnits]
      split
      · rename_i htrail
        exact step (quotes_surrogate (Or.inr (by simpa using hpaired htrail))) (ih false (by simp))
      · split
        · rename_i hlead
          simp only [Bool.and_eq_true] at hlead
          exact step (quotes_surrogate (Or.inl hlead.1)) (ih true fun _ => hlead.2)
        · exact step (quotes_quoteUnit c) (ih false (by simp))

theorem isToken_quote (value : JsString) :
    IsToken numbers (quote value) .string (.string value) := by
  obtain ⟨hscans, hparses, -⟩ := quotes_units value false (by simp)
  apply isToken_string numbers (fun rest => ?_) hparses
  have hscan := hscans (unit '"' :: rest) [] rest rfl
  rwa [List.append_nil] at hscan

theorem newline_not_mem_quote (value : JsString) : unit '\n' ∉ quote value := by
  have hnewline := (quotes_units value false (by simp)).2.2
  simp only [quote, List.mem_cons, List.mem_append, List.not_mem_nil, or_false, not_or]
  exact ⟨by decide, hnewline, by decide⟩

/-! ## Numbers -/

theorem isNumberUnit_of_isDigit (h : isDigit c = true) : isNumberUnit c = true := by
  simp [isNumberUnit, h]

theorem units_of_digits (h : isDigits s = true) : ∀ d ∈ s, isNumberUnit d = true := by
  simp only [isDigits, Bool.and_eq_true, List.all_eq_true] at h
  exact fun d hd => isNumberUnit_of_isDigit (h.2 d hd)

theorem units_of_exponentPart (h : isExponentPart s = true) : ∀ d ∈ s, isNumberUnit d = true := by
  cases s with
  | nil => simp
  | cons c rest =>
      simp only [isExponentPart, Bool.and_eq_true, Bool.or_eq_true, decide_eq_true_eq] at h
      obtain ⟨hc, hrest⟩ := h
      have hhead : isNumberUnit c = true := by
        rcases hc with rfl | rfl <;> decide
      cases rest with
      | nil => cases hrest
      | cons sign digits =>
          dsimp only at hrest
          have htail : ∀ d ∈ sign :: digits, isNumberUnit d = true := by
            split at hrest
            · rename_i hsign
              have hunit : isNumberUnit sign = true := by
                rcases hsign with rfl | rfl <;> decide
              exact List.forall_mem_cons.mpr ⟨hunit, units_of_digits hrest⟩
            · exact units_of_digits hrest
          exact List.forall_mem_cons.mpr ⟨hhead, htail⟩

theorem units_of_dropDigits (h : ∀ d ∈ s.dropWhile isDigit, isNumberUnit d = true) :
    ∀ d ∈ s, isNumberUnit d = true := by
  intro d hd
  rw [← List.takeWhile_append_dropWhile (p := isDigit) (l := s), List.mem_append] at hd
  rcases hd with hd | hd
  · exact isNumberUnit_of_isDigit (List.mem_takeWhile_imp hd)
  · exact h d hd

theorem units_of_fractionPart (h : isFractionPart s = true) : ∀ d ∈ s, isNumberUnit d = true := by
  cases s with
  | nil => simp
  | cons c rest =>
      rw [isFractionPart] at h
      split at h
      · rename_i hc
        subst hc
        simp only [Bool.and_eq_true] at h
        exact List.forall_mem_cons.mpr
          ⟨by decide, units_of_dropDigits (units_of_exponentPart h.2)⟩
      · exact units_of_exponentPart h

theorem units_of_unsignedLiteral (h : isUnsignedLiteral s = true) :
    ∃ c rest, s = c :: rest ∧ isDigit c = true ∧ ∀ d ∈ rest, isNumberUnit d = true := by
  cases s with
  | nil => cases h
  | cons c rest =>
      rw [isUnsignedLiteral] at h
      split at h
      · rename_i hc
        subst hc
        exact ⟨_, _, rfl, by decide, units_of_fractionPart h⟩
      · simp only [Bool.and_eq_true] at h
        exact ⟨_, _, rfl, h.1, units_of_dropDigits (units_of_fractionPart h.2)⟩

theorem units_of_numberLiteral (h : isNumberLiteral s = true) :
    ∃ c rest, s = c :: rest ∧ (c = unit '-' ∨ isDigit c = true) ∧
      ∀ d ∈ rest, isNumberUnit d = true := by
  cases s with
  | nil => cases h
  | cons c rest =>
      rw [isNumberLiteral] at h
      split at h
      · rename_i hc
        obtain ⟨d, more, rfl, hd, hmore⟩ := units_of_unsignedLiteral h
        exact ⟨_, _, rfl, Or.inl hc,
          List.forall_mem_cons.mpr ⟨isNumberUnit_of_isDigit hd, hmore⟩⟩
      · obtain ⟨d, more, heq, hd, hmore⟩ := units_of_unsignedLiteral h
        cases heq
        exact ⟨_, _, rfl, Or.inr hd, hmore⟩

theorem isToken_toLiteral (value : ν) :
    IsToken numbers (numbers.toLiteral value) .number (.number value) := by
  have hliteral := numbers.isNumberLiteral_toLiteral value
  have hvalue := numbers.ofLiteral_toLiteral value
  obtain ⟨c, tail, heq, hstart, htail⟩ := units_of_numberLiteral hliteral
  rw [heq] at hliteral hvalue ⊢
  exact isToken_number hstart htail hliteral hvalue

theorem newline_not_mem_toLiteral (value : ν) : unit '\n' ∉ numbers.toLiteral value := by
  intro hmem
  obtain ⟨c, tail, heq, hstart, htail⟩ :=
    units_of_numberLiteral (numbers.isNumberLiteral_toLiteral value)
  rw [heq] at hmem
  rcases List.mem_cons.mp hmem with rfl | hmem
  · revert hstart
    decide
  · exact absurd (htail _ hmem) (by decide)

/-! ## The tree of a formatted value -/

variable (numbers : NumberFormat ν) (newline gap : JsString)

def keyAt (lead key : JsString) : MemberKey := ⟨lead, quote key, key, [], [unit ' ']⟩

mutual

/-- `newline` stands where `stringify` has a line feed. -/
def Json.layout (indent : JsString) : Json ν → Tree ν
  | .null => .scalar nullWord .null
  | .bool value => .scalar (if value then trueWord else falseWord) (.bool value)
  | .number value => .scalar (numbers.toLiteral value) (.number value)
  | .string value => .scalar (quote value) (.string value)
  | .array [] => .array .nil []
  | .array (item :: items) =>
      .array (layoutItems (indent ++ gap) (item :: items)) (newline ++ indent)
  | .object [] => .object .nil []
  | .object (entry :: entries) =>
      .object (layoutMembers (indent ++ gap) (entry :: entries)) (newline ++ indent)

def layoutItems (indent : JsString) : List (Json ν) → Items ν
  | [] => .nil
  | [item] => .last (newline ++ indent) (item.layout indent)
  | item :: next :: more =>
      .cons (newline ++ indent) (item.layout indent) [] (layoutItems indent (next :: more))

def layoutMembers (indent : JsString) : List (JsString × Json ν) → Members ν
  | [] => .nil
  | [(key, value)] => .last (keyAt (newline ++ indent) key) (value.layout indent)
  | (key, value) :: next :: more =>
      .cons (keyAt (newline ++ indent) key) (value.layout indent) []
        (layoutMembers indent (next :: more))

end

variable {numbers newline gap} {indent : JsString}

theorem replaceNewlines_append : replaceNewlines newline (x ++ y) =
    replaceNewlines newline x ++ replaceNewlines newline y := by
  simp [replaceNewlines]

theorem replaceNewlines_cons (c : CodeUnit) : replaceNewlines newline (c :: x) =
    (if c = unit '\n' then newline else [c]) ++ replaceNewlines newline x := by
  simp [replaceNewlines]

theorem replaceNewlines_of_not_mem (h : unit '\n' ∉ x) : replaceNewlines newline x = x := by
  induction x with
  | nil => rfl
  | cons c x ih =>
      simp only [List.mem_cons, not_or] at h
      rw [replaceNewlines_cons, if_neg (Ne.symm h.1), ih h.2]
      rfl

mutual

theorem replaceNewlines_stringify : ∀ (v : Json ν) {indent : JsString}, unit '\n' ∉ gap →
    unit '\n' ∉ indent →
    replaceNewlines newline (stringify numbers gap indent v) =
      (v.layout numbers newline gap indent).render
  | .null, indent, _, _ => replaceNewlines_of_not_mem (x := nullWord) (by decide)
  | .bool true, indent, _, _ => replaceNewlines_of_not_mem (x := trueWord) (by decide)
  | .bool false, indent, _, _ => replaceNewlines_of_not_mem (x := falseWord) (by decide)
  | .number value, indent, _, _ => replaceNewlines_of_not_mem (newline_not_mem_toLiteral value)
  | .string value, indent, _, _ => replaceNewlines_of_not_mem (newline_not_mem_quote value)
  | .array [], indent, _, _ =>
      replaceNewlines_of_not_mem (x := [unit '[', unit ']']) (by decide)
  | .array (item :: items), indent, hgap, hindent => by
      have hinner : unit '\n' ∉ indent ++ gap := by simp [hindent, hgap]
      have hitems := replaceNewlines_items (item :: items) item items rfl hgap hinner
      have hclose : unit '\n' ∉ indent ++ [unit ']'] := by
        simp only [List.mem_append, List.mem_singleton, not_or]
        exact ⟨hindent, by decide⟩
      have hopen : replaceNewlines newline [unit '['] = [unit '['] :=
        replaceNewlines_of_not_mem (by decide)
      calc
        _ = replaceNewlines newline ([unit '['] ++ ((unit '\n' :: (indent ++ gap ++
              stringify numbers gap (indent ++ gap) item ++
              stringifyItems numbers gap (indent ++ gap) items)) ++
              (unit '\n' :: (indent ++ [unit ']'])))) := by simp [stringify]
        _ = _ := by
          rw [replaceNewlines_append, replaceNewlines_append, hopen, hitems,
            replaceNewlines_cons, if_pos rfl, replaceNewlines_of_not_mem hclose]
          simp [Json.layout, Tree.render]
  | .object [], indent, _, _ =>
      replaceNewlines_of_not_mem (x := [unit '{', unit '}']) (by decide)
  | .object ((key, value) :: entries), indent, hgap, hindent => by
      have hinner : unit '\n' ∉ indent ++ gap := by simp [hindent, hgap]
      have hentries := replaceNewlines_entries ((key, value) :: entries) key value entries rfl hgap
        hinner
      have hclose : unit '\n' ∉ indent ++ [unit '}'] := by
        simp only [List.mem_append, List.mem_singleton, not_or]
        exact ⟨hindent, by decide⟩
      have hopen : replaceNewlines newline [unit '{'] = [unit '{'] :=
        replaceNewlines_of_not_mem (by decide)
      calc
        _ = replaceNewlines newline ([unit '{'] ++ ((unit '\n' :: (indent ++ gap ++ quote key ++
              unit ':' :: unit ' ' :: (stringify numbers gap (indent ++ gap) value ++
              stringifyEntries numbers gap (indent ++ gap) entries))) ++
              (unit '\n' :: (indent ++ [unit '}'])))) := by simp [stringify]
        _ = _ := by
          rw [replaceNewlines_append, replaceNewlines_append, hopen, hentries,
            replaceNewlines_cons, if_pos rfl, replaceNewlines_of_not_mem hclose]
          simp [Json.layout, Tree.render]

theorem replaceNewlines_items : ∀ (items : List (Json ν)) {indent : JsString} (item : Json ν)
    (rest : List (Json ν)), items = item :: rest → unit '\n' ∉ gap → unit '\n' ∉ indent →
    replaceNewlines newline (unit '\n' :: (indent ++ stringify numbers gap indent item ++
        stringifyItems numbers gap indent rest)) =
      (layoutItems numbers newline gap indent items).render
  | [item], indent, _, _, rfl, hgap, hindent => by
      rw [replaceNewlines_cons, if_pos rfl, replaceNewlines_append, replaceNewlines_append,
        replaceNewlines_of_not_mem hindent, replaceNewlines_stringify item hgap hindent]
      simp [layoutItems, stringifyItems, Items.render, replaceNewlines]
  | item :: next :: more, indent, _, _, rfl, hgap, hindent => by
      have hmore := replaceNewlines_items (next :: more) next more rfl hgap hindent
      rw [replaceNewlines_cons, if_pos rfl, replaceNewlines_append, replaceNewlines_append,
        replaceNewlines_of_not_mem hindent, replaceNewlines_stringify item hgap hindent,
        stringifyItems, replaceNewlines_cons, if_neg (by decide), hmore]
      simp [layoutItems, Items.render]

theorem replaceNewlines_entries : ∀ (entries : List (JsString × Json ν)) {indent : JsString}
    (key : JsString) (value : Json ν) (rest : List (JsString × Json ν)),
    entries = (key, value) :: rest → unit '\n' ∉ gap → unit '\n' ∉ indent →
    replaceNewlines newline (unit '\n' :: (indent ++ quote key ++ unit ':' :: unit ' ' ::
        (stringify numbers gap indent value ++ stringifyEntries numbers gap indent rest))) =
      (layoutMembers numbers newline gap indent entries).render
  | [(key, value)], indent, _, _, _, rfl, hgap, hindent => by
      have hcolon : replaceNewlines newline [unit ':', unit ' '] = [unit ':', unit ' '] :=
        replaceNewlines_of_not_mem (by decide)
      calc
        _ = replaceNewlines newline ([unit '\n'] ++ (indent ++ (quote key ++
              ([unit ':', unit ' '] ++ stringify numbers gap indent value)))) := by
          simp [stringifyEntries]
        _ = _ := by
          rw [replaceNewlines_append, replaceNewlines_append, replaceNewlines_append,
            replaceNewlines_append, replaceNewlines_of_not_mem hindent,
            replaceNewlines_of_not_mem (newline_not_mem_quote key), hcolon,
            replaceNewlines_stringify value hgap hindent]
          simp [layoutMembers, Members.render, MemberKey.text, keyAt, replaceNewlines]
  | (key, value) :: (key', value') :: more, indent, _, _, _, rfl, hgap, hindent => by
      have hcolon : replaceNewlines newline [unit ':', unit ' '] = [unit ':', unit ' '] :=
        replaceNewlines_of_not_mem (by decide)
      have hcomma : replaceNewlines newline [unit ','] = [unit ','] :=
        replaceNewlines_of_not_mem (by decide)
      have hmore := replaceNewlines_entries ((key', value') :: more) key' value' more rfl hgap
        hindent
      calc
        _ = replaceNewlines newline ([unit '\n'] ++ (indent ++ (quote key ++
              ([unit ':', unit ' '] ++ (stringify numbers gap indent value ++ ([unit ','] ++
                (unit '\n' :: (indent ++ quote key' ++ unit ':' :: unit ' ' ::
                  (stringify numbers gap indent value' ++
                    stringifyEntries numbers gap indent more))))))))) := by
          simp [stringifyEntries]
        _ = _ := by
          rw [replaceNewlines_append, replaceNewlines_append, replaceNewlines_append,
            replaceNewlines_append, replaceNewlines_append, replaceNewlines_append,
            replaceNewlines_of_not_mem hindent,
            replaceNewlines_of_not_mem (newline_not_mem_quote key), hcolon, hcomma,
            replaceNewlines_stringify value hgap hindent, hmore]
          simp [layoutMembers, Members.render, MemberKey.text, keyAt, replaceNewlines]

end

/-! ## The layout is read back -/

theorem keyAt_name (lead key : JsString) : (keyAt lead key).name = key := rfl

theorem keyAt_wellFormed {lead : JsString} (key : JsString) (hlead : Closed lead) :
    (keyAt lead key).WellFormed numbers where
  lead := hlead
  raw := isToken_quote key
  mid := closed_nil
  pre := by
    apply closed_of_isSpace
    intro c hc
    obtain rfl := List.mem_singleton.mp hc
    decide

mutual

theorem Json.layout_wellFormed : ∀ (v : Json ν) {indent : JsString}, Closed newline →
    Closed gap → Closed indent → (v.layout numbers newline gap indent).WellFormed numbers
  | .null, _, _, _, _ => ⟨.literal, isToken_literal (by simp)⟩
  | .bool true, _, _, _, _ => ⟨.literal, isToken_literal (by simp)⟩
  | .bool false, _, _, _, _ => ⟨.literal, isToken_literal (by simp)⟩
  | .number value, _, _, _, _ => ⟨.number, isToken_toLiteral value⟩
  | .string value, _, _, _, _ => ⟨.string, isToken_quote value⟩
  | .array [], _, _, _, _ => ⟨trivial, closed_nil⟩
  | .array (item :: items), _, hnewline, hgap, hindent =>
      ⟨layoutItems_wellFormed (item :: items) hnewline hgap (hindent.append hgap),
        hnewline.append hindent⟩
  | .object [], _, _, _, _ => ⟨trivial, closed_nil⟩
  | .object (entry :: entries), _, hnewline, hgap, hindent =>
      ⟨layoutMembers_wellFormed (entry :: entries) hnewline hgap (hindent.append hgap),
        hnewline.append hindent⟩

theorem layoutItems_wellFormed : ∀ (items : List (Json ν)) {indent : JsString}, Closed newline →
    Closed gap → Closed indent → (layoutItems numbers newline gap indent items).WellFormed numbers
  | [], _, _, _, _ => trivial
  | [item], _, hnewline, hgap, hindent =>
      ⟨hnewline.append hindent, item.layout_wellFormed hnewline hgap hindent⟩
  | item :: next :: more, _, hnewline, hgap, hindent =>
      ⟨hnewline.append hindent, item.layout_wellFormed hnewline hgap hindent, closed_nil,
        layoutItems_wellFormed (next :: more) hnewline hgap hindent⟩

theorem layoutMembers_wellFormed : ∀ (entries : List (JsString × Json ν)) {indent : JsString},
    Closed newline → Closed gap → Closed indent →
    (layoutMembers numbers newline gap indent entries).WellFormed numbers
  | [], _, _, _, _ => trivial
  | [(key, value)], _, hnewline, hgap, hindent =>
      ⟨keyAt_wellFormed key (hnewline.append hindent),
        value.layout_wellFormed hnewline hgap hindent⟩
  | (key, value) :: next :: more, _, hnewline, hgap, hindent =>
      ⟨keyAt_wellFormed key (hnewline.append hindent),
        value.layout_wellFormed hnewline hgap hindent, closed_nil,
        layoutMembers_wellFormed (next :: more) hnewline hgap hindent⟩

end

mutual

/-- Some object in the value has the key `__proto__`. -/
def Json.mentionsProto : Json ν → Bool
  | .array items => itemsMentionProto items
  | .object entries => entriesMentionProto entries
  | _ => false

def itemsMentionProto : List (Json ν) → Bool
  | [] => false
  | item :: items => item.mentionsProto || itemsMentionProto items

def entriesMentionProto : List (JsString × Json ν) → Bool
  | [] => false
  | (key, value) :: entries =>
      key = protoKey || (value.mentionsProto || entriesMentionProto entries)

end

theorem JsObject.assign_of_ne {o : JsObject ν} {key : JsString} (hkey : key ≠ protoKey)
    (child : Json ν) (inherits : Bool) :
    o.assign key child inherits = { o with entries := setEntry o.entries key child } := by
  simp [JsObject.assign, hkey]

mutual

theorem Json.layout_content : ∀ (v : Json ν) {indent : JsString}, v.Distinct →
    v.mentionsProto = false → (v.layout numbers newline gap indent).content = (v, true)
  | .null, _, _, _ => rfl
  | .bool true, _, _, _ => rfl
  | .bool false, _, _, _ => rfl
  | .number _, _, _, _ => rfl
  | .string _, _, _, _ => rfl
  | .array [], _, _, _ => rfl
  | .array (item :: items), indent, hdistinct, hproto => by
      rw [Json.layout, Tree.content, layoutItems_values (item :: items) hdistinct hproto]
  | .object [], _, _, _ => rfl
  | .object (entry :: entries), indent, hdistinct, hproto => by
      rw [Json.layout, Tree.content, layoutMembers_assign (entry :: entries) hdistinct.2 hproto
        hdistinct.1 (by simp)]
      rfl

theorem layoutItems_values : ∀ (items : List (Json ν)) {indent : JsString}, distinctItems items →
    itemsMentionProto items = false →
    (layoutItems numbers newline gap indent items).values = items
  | [], _, _, _ => rfl
  | [item], indent, hdistinct, hproto => by
      simp only [itemsMentionProto, Bool.or_eq_false_iff] at hproto
      rw [layoutItems, Items.values, item.layout_content hdistinct.1 hproto.1]
  | item :: next :: more, indent, hdistinct, hproto => by
      rw [itemsMentionProto, Bool.or_eq_false_iff] at hproto
      rw [layoutItems, Items.values, item.layout_content hdistinct.1 hproto.1,
        layoutItems_values (next :: more) hdistinct.2 hproto.2]

theorem layoutMembers_assign : ∀ (entries : List (JsString × Json ν)) {indent : JsString}
    {o : JsObject ν}, distinctEntries entries → entriesMentionProto entries = false →
    (entries.map Prod.fst).Nodup →
    (∀ key ∈ entries.map Prod.fst, key ∉ o.entries.map Prod.fst) →
    (layoutMembers numbers newline gap indent entries).assign o =
      { o with entries := o.entries ++ entries }
  | [], _, o, _, _, _, _ => by simp [layoutMembers, Members.assign]
  | [(key, value)], indent, o, hdistinct, hproto, hnodup, hnew => by
      simp only [entriesMentionProto, Bool.or_eq_false_iff, decide_eq_false_iff_not] at hproto
      rw [layoutMembers, Members.assign, value.layout_content hdistinct.1 hproto.2.1, keyAt_name,
        JsObject.assign_of_ne hproto.1, setEntry_of_not_mem _ (hnew key (by simp))]
  | (key, value) :: next :: more, indent, o, hdistinct, hproto, hnodup, hnew => by
      rw [entriesMentionProto, Bool.or_eq_false_iff, Bool.or_eq_false_iff,
        decide_eq_false_iff_not] at hproto
      rw [List.map_cons, List.nodup_cons] at hnodup
      have hnew' : ∀ other ∈ (next :: more).map Prod.fst,
          other ∉ (o.entries ++ [(key, value)]).map Prod.fst := by
        intro other hother
        have hne : other ≠ key := fun h => hnodup.1 (h ▸ hother)
        have hold := hnew other (List.mem_cons_of_mem _ hother)
        simp [hne, hold]
      rw [layoutMembers, Members.assign, value.layout_content hdistinct.1 hproto.2.1, keyAt_name,
        JsObject.assign_of_ne hproto.1, setEntry_of_not_mem _ (hnew key (by simp)),
        layoutMembers_assign (next :: more) hdistinct.2 hproto.2.2 hnodup.2 hnew']
      simp

end

/-! ## Formatted values -/

/-- The line ending and the indent are kept for the lines of the value. -/
theorem formattedValue_eq {value : Json ν} {childIndent indentUnit eol : JsString}
    (hunit : unit '\n' ∉ indentUnit) :
    formattedValue numbers value childIndent indentUnit eol =
      (value.layout numbers (eol ++ childIndent) (indentUnit.take 10) []).render := by
  have hgap : unit '\n' ∉ indentUnit.take 10 := fun hmem => hunit (List.mem_of_mem_take hmem)
  exact replaceNewlines_stringify value hgap List.not_mem_nil

end AfyxGraph.Runtime
