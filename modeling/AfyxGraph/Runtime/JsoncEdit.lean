import AfyxGraph.Runtime.JsoncSplice

/-! # The editor sets a path

Where the place of a new property and the keys are not ambiguous, the text that
`updateJsoncPath` returns is read as the old value with the path set.
-/

namespace AfyxGraph.Runtime

open AfyxGraph.Core

variable {ν : Type} {numbers : NumberFormat ν} {x y s text eol : JsString}

/-! ## Setting a path of a value -/

/-- Objects on the path are created where something else or nothing is. -/
def Json.setPath : Json ν → List JsString → Json ν → Json ν
  | _, [], value => value
  | .object entries, key :: path, value =>
      .object (setEntry entries key (((entries.lookup key).getD .null).setPath path value))
  | _, key :: path, value => .object [(key, Json.null.setPath path value)]

def Json.isObject : Json ν → Bool
  | .object _ => true
  | _ => false

def Json.getPath : Json ν → List JsString → Option (Json ν)
  | v, [] => some v
  | .object entries, key :: path => (entries.lookup key).bind (·.getPath path)
  | _, _ :: _ => none

theorem Json.getPath_setPath (v : Json ν) (path : List JsString) (value : Json ν) :
    (v.setPath path value).getPath path = some value := by
  induction path generalizing v with
  | nil => cases v <;> rfl
  | cons key path ih =>
      cases v with
      | object entries =>
          simp only [setPath, getPath, lookup_setEntry_self, Option.bind_some, ih]
      | _ => simp [setPath, getPath, ih]

/-- Nothing beside the path is changed. -/
theorem Json.getPath_setPath_ne (v : Json ν) (path : List JsString) {key other : JsString}
    (hne : other ≠ key) (rest more : List JsString) (value : Json ν) :
    (v.setPath (path ++ key :: rest) value).getPath (path ++ other :: more) =
      v.getPath (path ++ other :: more) := by
  have hbeq : (other == key) = false := beq_eq_false_iff_ne.mpr hne
  induction path generalizing v with
  | nil =>
      cases v with
      | object entries =>
          simp only [List.nil_append, setPath, getPath, lookup_setEntry_ne _ _ hne]
      | _ => simp [setPath, getPath, List.lookup_cons, hbeq]
  | cons first path ih =>
      have hnull : ∀ w : Json ν, w.isObject = false → w.getPath (path ++ other :: more) = none := by
        intro w hw
        cases path <;> cases w <;> first | rfl | cases hw
      cases v with
      | object entries =>
          simp only [List.cons_append, setPath, getPath, lookup_setEntry_self, Option.bind_some, ih]
          cases entries.lookup first with
          | none => exact hnull .null rfl
          | some w => rfl
      | _ =>
          simp only [List.cons_append, setPath, getPath, List.lookup_cons, beq_self_eq_true,
            Option.bind_some, ih]
          exact hnull .null rfl

theorem Json.setPath_eq_nested {v : Json ν} (h : v.isObject = false) (path : List JsString)
    (value : Json ν) : v.setPath path value = nestedValue path (some value) := by
  induction path generalizing v with
  | nil =>
      cases v <;> rfl
  | cons key path ih =>
      have hnested := ih (v := .null) rfl
      cases v with
      | object entries => cases h
      | _ =>
          simp only [setPath, hnested]
          rfl

theorem scanToken_not_object {start : Nat} {token : Token ν} {rest : JsString} {v : Json ν}
    (h : scanToken numbers start s = .ok (token, rest)) (hv : token.value = some v) :
    v.isObject = false := by
  cases s with
  | nil =>
      cases h
      cases hv
  | cons c s =>
      rw [scanToken] at h
      split at h
      · cases h
        cases hv
      · split at h
        · obtain ⟨⟨body, rest'⟩, -, h⟩ := ok_of_bind h
          dsimp only at h
          split at h
          · cases h
            cases hv
            rfl
          · cases h
        · split at h
          · dsimp only at h
            split at h
            · cases h
              cases hv
              rfl
            · cases h
          · split at h
            · rename_i hword
              cases h
              cases hv
              rcases (literalAt_split hword).1 with ⟨-, rfl⟩ | ⟨-, rfl⟩ | ⟨-, rfl⟩ <;> rfl
            · cases h

theorem IsToken.not_object {raw : JsString} {kind : TokenKind} {v : Json ν}
    (h : IsToken numbers raw kind v) : v.isObject = false :=
  scanToken_not_object (h.scanned 0 [] delimited_nil) rfl

/-! ## When the edit meets its place -/

/-- The text from `start` to `stop` ends no property and no comment. -/
def isTrivia (s : JsString) : Bool :=
  match skipTrivia .code s with
  | .ok [] => true
  | _ => false

theorem isTrivia_iff : isTrivia s = true ↔ skipTrivia .code s = .ok [] := by
  unfold isTrivia
  split
  · rename_i h
    simp [h]
  · rename_i h
    simpa using h

/-- The indent of the closing brace is as long as text between the last property and the brace
that is not in a comment. -/
def insertable (text : JsString) (object : JsonNode ν) : Bool :=
  match object.properties.getLast? with
  | none => true
  | some last =>
      let close := object.stop - 1
      let insertionPoint := close - (lineIndent text close).length
      gapStart last ≤ insertionPoint && isTrivia (slice text (gapStart last) insertionPoint)

/-- Each key of the path is found once, until the path leaves the text at an insertion. -/
def editable (text : JsString) (node : JsonNode ν) : List JsString → Bool
  | [] => true
  | key :: path =>
      match property node key with
      | none => insertable text node
      | some entry =>
          (node.properties.map (·.key)).count key = 1 && editable text entry.value path

def settable (numbers : NumberFormat ν) (text : JsString) (path : List JsString)
    (value : Json ν) : Bool :=
  !path.contains protoKey && !value.mentionsProto &&
    match parseNode numbers text with
    | .ok root => editable text root path
    | .error _ => true

/-! ## Indents and line endings -/

def IsIndent (s : JsString) : Prop := ∀ c ∈ s, isIndent c = true

theorem isIndent_iff {c : CodeUnit} : isIndent c = true ↔ c = unit '\t' ∨ c = unit ' ' := by
  simp [isIndent]

theorem IsIndent.closed (h : IsIndent s) : Closed s := by
  apply closed_of_isSpace
  intro c hc
  rcases isIndent_iff.mp (h c hc) with rfl | rfl <;> decide

theorem IsIndent.newline (h : IsIndent s) : unit '\n' ∉ s := by
  intro hc
  rcases isIndent_iff.mp (h _ hc) with heq | heq <;> exact absurd heq (by decide)

theorem IsIndent.append (hx : IsIndent x) (hy : IsIndent y) : IsIndent (x ++ y) := by
  intro c hc
  rcases List.mem_append.mp hc with hc | hc
  · exact hx c hc
  · exact hy c hc

theorem isIndent_twoBlanks : IsIndent twoBlanks := by
  have hall : twoBlanks.all isIndent = true := by decide
  exact List.all_eq_true.mp hall

theorem isIndent_lineIndent (text : JsString) (offset : Nat) : IsIndent (lineIndent text offset) :=
  fun _ hc => List.mem_takeWhile_imp hc

theorem eolOf_cases (text : JsString) : eolOf text = lf ∨ eolOf text = crlf := by
  unfold eolOf
  split
  · exact Or.inr rfl
  · exact Or.inl rfl

theorem closed_eol (h : eol = lf ∨ eol = crlf) : Closed eol := by
  have hlf : lf.all isSpace = true := by decide
  have hcrlf : crlf.all isSpace = true := by decide
  apply closed_of_isSpace
  rcases h with rfl | rfl
  · exact List.all_eq_true.mp hlf
  · exact List.all_eq_true.mp hcrlf

/-- What is trivia leaves no more open than a comment of one line. -/
theorem skipTrivia_trivia {mode : TriviaMode} (h : skipTrivia mode x = .ok []) :
    (∀ rest, skipTrivia mode (x ++ rest) = skipTrivia .code rest) ∨
      ∀ rest, skipTrivia mode (x ++ rest) = skipTrivia .line rest := by
  induction x generalizing mode with
  | nil =>
      cases mode with
      | code => exact Or.inl fun _ => rfl
      | line => exact Or.inr fun _ => rfl
      | _ => cases h
  | cons c x ih =>
      rcases skipTrivia_cons mode c with ⟨next, hnext⟩ | ⟨rfl, -, hstop⟩ | ⟨rfl, hstop⟩
      · rw [hnext] at h
        simp only [List.cons_append, hnext]
        exact ih h
      · rw [hstop] at h
        cases h
      · rw [hstop] at h
        cases h

theorem skipTrivia_line (h : ∀ c ∈ x, isLineBreak c = false) : skipTrivia .line x = .ok [] := by
  induction x with
  | nil => rfl
  | cons c x ih =>
      rw [skipTrivia, if_neg (by simp [h c (by simp)])]
      exact ih fun d hd => h d (by simp [hd])

/-- The line ending closes a comment of one line. -/
theorem closed_append_eol (heol : eol = lf ∨ eol = crlf) (h : skipTrivia .code x = .ok []) :
    Closed (x ++ eol) := by
  intro rest
  rw [List.append_assoc]
  rcases skipTrivia_trivia h with hcode | hline
  · rw [hcode]
    exact closed_eol heol rest
  · rw [hline]
    rcases heol with rfl | rfl <;> rfl

/-- Trivia up to a place in the last line before a brace goes on behind that place. -/
theorem closed_of_line (h : skipTrivia .code x = .ok []) (hclosed : Closed (x ++ y))
    (hline : ∀ c ∈ y, isLineBreak c = false) : Closed y := by
  rcases skipTrivia_trivia h with hcode | hopen
  · intro rest
    rw [← hcode, ← List.append_assoc]
    exact hclosed rest
  · -- the brace itself would be in the comment
    have hbrace := hclosed [unit '}']
    rw [List.append_assoc, hopen, skipTrivia_line] at hbrace
    · cases hbrace
    · intro c hc
      rcases List.mem_append.mp hc with hc | hc
      · exact hline c hc
      · rw [List.mem_singleton.mp hc]
        decide

/-- No line breaks in as many characters before an offset as the indent of its line has. -/
theorem not_isLineBreak_of_lineIndent {close : Nat} (htake : text.take close = x ++ y)
    (hlength : y.length ≤ (lineIndent text close).length) : ∀ c ∈ y, isLineBreak c = false := by
  have hsuffix : y <:+ (text.take close).rtakeWhile (!isLineBreak ·) := by
    have hends : y <:+ text.take close := ⟨x, htake.symm⟩
    apply List.suffix_of_suffix_length_le hends
    · exact List.rtakeWhile_suffix _ _
    · exact hlength.trans (List.takeWhile_prefix _).length_le
  intro c hc
  simpa using List.mem_rtakeWhile_imp (hsuffix.subset hc)

/-! ## The texts that are put in -/

/-- A text for a value. -/
structure Writes (numbers : NumberFormat ν) (value : Json ν) (t : Tree ν) : Prop where
  wellFormed : t.WellFormed numbers
  content : t.content = (value, true)

variable (numbers) in
theorem formattedValue_writes {value : Json ν} {childIndent indentUnit : JsString}
    (hdistinct : value.Distinct) (hproto : value.mentionsProto = false)
    (hchild : IsIndent childIndent) (hunit : IsIndent indentUnit) (text : JsString) :
    ∃ t, Writes numbers value t ∧
      formattedValue numbers value childIndent indentUnit (eolOf text) = t.render := by
  have htake : IsIndent (indentUnit.take 10) := fun c hc => hunit c (List.mem_of_mem_take hc)
  refine ⟨_, ⟨?_, ?_⟩, formattedValue_eq hunit.newline⟩
  · exact value.layout_wellFormed ((closed_eol (eolOf_cases text)).append hchild.closed)
      htake.closed closed_nil
  · exact value.layout_content hdistinct hproto

variable (numbers) in
/-- The splice of `replaceValue`. -/
theorem replaceValue_writes {before after : JsString} {old : Tree ν} {value : Json ν}
    (hdistinct : value.Distinct) (hproto : value.mentionsProto = false)
    (htext : text = before ++ (old.render ++ after)) : ∃ t, Writes numbers value t ∧
      replaceValue numbers text (old.node before.length) value =
        before ++ (t.render ++ after) := by
  obtain ⟨t, hwrites, ht⟩ := formattedValue_writes numbers hdistinct hproto
    (isIndent_lineIndent text (old.node before.length).start) isIndent_twoBlanks text
  refine ⟨t, hwrites, ?_⟩
  have hstop : text.drop (before.length + old.render.length) = after := by
    rw [htext, ← List.append_assoc, ← List.length_append, List.drop_left]
  rw [replaceValue, ht, Tree.node_start, Tree.node_stop, hstop, htext, List.take_left,
    List.append_assoc]

theorem isIndent_child (text : JsString) (object : JsonNode ν) :
    IsIndent (match object.properties with
      | [] => lineIndent text (object.stop - 1) ++ twoBlanks
      | first :: _ => lineIndent text first.start) := by
  split
  · exact (isIndent_lineIndent _ _).append isIndent_twoBlanks
  · exact isIndent_lineIndent _ _

variable (numbers) in
/-- The entry that `insertProperty` puts in. -/
theorem insertProperty_writes {value : Json ν} (hdistinct : value.Distinct)
    (hproto : value.mentionsProto = false) (text key : JsString) (object : JsonNode ν) :
    ∃ childIndent t, IsIndent childIndent ∧ Writes numbers value t ∧
      insertProperty numbers text object key value =
        match object.properties.getLast? with
        | none =>
            text.take (object.stop - 1) ++
              (eolOf text ++ childIndent ++ (quote key ++ [unit ':', unit ' '] ++ t.render) ++
                eolOf text ++ lineIndent text (object.stop - 1)) ++
              text.drop (object.stop - 1)
        | some last =>
            let insertionPoint :=
              object.stop - 1 - (lineIndent text (object.stop - 1)).length
            let before :=
              match last.commaAfter with
              | some _ => text.take insertionPoint
              | none => text.take last.stop ++ [unit ','] ++ slice text last.stop insertionPoint
            before ++ (if (eolOf text).isSuffixOf before then [] else eolOf text) ++
              (childIndent ++ (quote key ++ [unit ':', unit ' '] ++ t.render) ++ eolOf text) ++
              text.drop insertionPoint := by
  have hchild := isIndent_child text object
  generalize hindent : (match object.properties with
      | [] => lineIndent text (object.stop - 1) ++ twoBlanks
      | first :: _ => lineIndent text first.start) = childIndent at hchild
  have hunit : IsIndent (if (lineIndent text (object.stop - 1)).isPrefixOf childIndent &&
      (lineIndent text (object.stop - 1)).length < childIndent.length then
        childIndent.drop (lineIndent text (object.stop - 1)).length else twoBlanks) := by
    split
    · exact fun c hc => hchild c (List.mem_of_mem_drop hc)
    · exact isIndent_twoBlanks
  obtain ⟨t, hwrites, ht⟩ := formattedValue_writes numbers hdistinct hproto hchild
    hunit text
  refine ⟨childIndent, t, hchild, hwrites, ?_⟩
  rw [← ht, ← hindent]
  rfl

/-! ## An insertion -/

variable {before after closing : JsString} {members : Members ν} {value : Json ν}

/-- The text of an object up to its closing trivia. -/
def headText (before : JsString) (members : Members ν) : JsString :=
  before ++ unit '{' :: members.render

theorem headText_length : (headText before members).length =
    before.length + 1 + members.render.length := by
  simp only [headText, List.length_append, List.length_cons]
  omega

theorem object_text (htext : text = before ++ ((Tree.object members closing).render ++ after)) :
    text = headText before members ++ (closing ++ unit '}' :: after) := by
  simp [htext, Tree.render, headText]

theorem object_close : ((Tree.object members closing).node before.length).stop - 1 =
    (headText before members ++ closing).length := by
  rw [Tree.node_stop]
  simp only [Tree.render, headText, List.length_append, List.length_cons, List.length_nil]
  omega

variable (before after) in
/-- The members with a property more, between a lead and a new closing. -/
theorem append_sets (closing' : JsString) {lead : JsString} {t : Tree ν}
    (hmembers : members.WellFormed numbers) (hlead : Closed lead) (hwrites : Writes numbers value t) (key : JsString) :
    (members.append (keyAt lead key) t).WellFormed numbers ∧
      before ++ ((Tree.object (members.append (keyAt lead key) t) closing').render ++ after) =
        headText before members ++ (members.missingComma ++ (lead ++
          (quote key ++ [unit ':', unit ' '] ++ t.render)) ++ (closing' ++ unit '}' :: after)) ∧
      ∀ o, (members.append (keyAt lead key) t).assign o = (members.assign o).assign key value true := by
  refine ⟨?_, ?_, fun o => ?_⟩
  · exact Members.append_wellFormed (keyAt_wellFormed key hlead) hwrites.wellFormed members hmembers
  · simp [Tree.render, Members.append_render, MemberKey.text, keyAt, headText]
  · rw [Members.append_assign, hwrites.content]
    rfl

theorem isSuffixOf_eol (heol : eol = lf ∨ eol = crlf) (h : eol.isSuffixOf x = true) :
    ∃ y, x = y ++ [unit '\n'] := by
  obtain ⟨y, rfl⟩ := List.isSuffixOf_iff_suffix.mp h
  rcases heol with rfl | rfl
  · exact ⟨y, rfl⟩
  · exact ⟨y ++ [unit '\r'], by simp [crlf]⟩

/-- The separator ends the line behind the last property or its comma. -/
theorem closed_separator (heol : eol = lf ∨ eol = crlf) {gap : JsString} {c : CodeUnit}
    (hx : x = y ++ c :: gap) (hc : c ≠ unit '\n') (htrivia : skipTrivia .code gap = .ok []) :
    Closed (gap ++ if eol.isSuffixOf x then [] else eol) := by
  by_cases hsuffix : eol.isSuffixOf x = true
  · rw [if_pos hsuffix, List.append_nil]
    obtain ⟨z, hz⟩ := isSuffixOf_eol heol hsuffix
    rcases List.eq_nil_or_concat gap with rfl | ⟨gap', d, rfl⟩
    · rw [hz] at hx
      have hlast := List.append_inj_right' hx rfl
      exact absurd (List.cons.inj hlast).1.symm hc
    · rw [hz, List.concat_eq_append, ← List.cons_append, ← List.append_assoc] at hx
      obtain rfl := (List.cons.inj (List.append_inj_right' hx rfl)).1
      rw [List.concat_eq_append] at htrivia ⊢
      exact closed_of_lineBreak (by decide) htrivia
  · rw [if_neg hsuffix]
    exact closed_append_eol heol htrivia

theorem insertProperty_empty (hdistinct : value.Distinct) (hproto : value.mentionsProto = false)
    (hclosing : Closed closing)
    (htext : text = before ++ ((Tree.object (ν := ν) .nil closing).render ++ after))
    (key : JsString) : ∃ members' closing', members'.WellFormed numbers ∧ Closed closing' ∧
      insertProperty numbers text ((Tree.object .nil closing).node before.length) key value =
        before ++ ((Tree.object members' closing').render ++ after) ∧
      ∀ o, members'.assign o = o.assign key value true := by
  obtain ⟨childIndent, t, hchild, hwrites, heq⟩ := insertProperty_writes numbers
    hdistinct hproto text key ((Tree.object .nil closing).node before.length)
  have heol := closed_eol (eolOf_cases text)
  have hbase := isIndent_lineIndent text (headText before (.nil : Members ν) ++ closing).length
  have hlead : Closed (closing ++ (eolOf text ++ childIndent)) :=
    hclosing.append (heol.append hchild.closed)
  obtain ⟨hformed, hrender, hassign⟩ := append_sets before after (eolOf text ++
      lineIndent text (headText before (.nil : Members ν) ++ closing).length)
    (show (.nil : Members ν).WellFormed numbers from trivial) hlead hwrites key
  refine ⟨_, _, hformed, heol.append hbase.closed, ?_, hassign⟩
  rw [hrender, heq]
  show text.take _ ++ _ ++ text.drop _ = _
  have hsplit := object_text htext
  rw [← List.append_assoc] at hsplit
  rw [object_close]
  have htake := congrArg (List.take (headText before (.nil : Members ν) ++ closing).length) hsplit
  have hdrop := congrArg (List.drop (headText before (.nil : Members ν) ++ closing).length) hsplit
  rw [List.take_left] at htake
  rw [List.drop_left] at hdrop
  rw [htake, hdrop]
  simp [Members.missingComma]

theorem take_split {n : Nat} (htext : text = x ++ y) (hn : n = x.length) :
    text.take n = x ∧ text.drop n = y := by
  subst htext hn
  exact ⟨List.take_left, List.drop_left⟩

/-- What the text before the new entry is, with the comma it may need. -/
theorem before_insertion {last : JsonProperty ν (JsonNode ν)} {gap rest : JsString}
    (hstart : gapStart last = (headText before members).length)
    (hcomma : members.missingComma = if last.commaAfter.isSome then [] else [unit ','])
    (htext : text = headText before members ++ (gap ++ rest)) :
    (match last.commaAfter with
      | some _ => text.take (headText before members ++ gap).length
      | none => text.take last.stop ++ [unit ','] ++
          slice text last.stop (headText before members ++ gap).length) =
      headText before members ++ (members.missingComma ++ gap) := by
  have htake := (take_split (y := rest) (htext.trans (List.append_assoc _ _ _).symm) rfl).1
  unfold gapStart at hstart
  cases hafter : last.commaAfter with
  | some comma =>
      rw [hafter] at hcomma
      rw [hcomma]
      exact htake
  | none =>
      rw [hafter] at hcomma hstart
      have hhead := (take_split htext hstart).1
      simp only at hstart
      have hslice : slice text last.stop (headText before members ++ gap).length = gap := by
        rw [slice, htake, hstart, List.drop_left]
      rw [hcomma]
      simp only [hhead, hslice, Option.isSome_none, Bool.false_eq_true, if_false, List.append_assoc]

/-- The closing trivia up to the insertion point and from there on. -/
theorem closing_split (hx : 0 < x.length) (hclosing : Closed closing)
    (htext : text = x ++ (closing ++ unit '}' :: after))
    (hle : x.length ≤ (x ++ closing).length - (lineIndent text (x ++ closing).length).length)
    (htrivia : skipTrivia .code (slice text x.length
      ((x ++ closing).length - (lineIndent text (x ++ closing).length).length)) = .ok []) :
    ∃ gap rest, closing = gap ++ rest ∧
      (x ++ closing).length - (lineIndent text (x ++ closing).length).length =
        (x ++ gap).length ∧ skipTrivia .code gap = .ok [] ∧ Closed rest := by
  have hclose := (take_split (htext.trans (List.append_assoc _ _ _).symm) rfl).1
  have hbreak : ∀ y z, text.take (x ++ closing).length = y ++ z →
      z.length ≤ (lineIndent text (x ++ closing).length).length →
      ∀ c ∈ z, isLineBreak c = false := fun _ _ => not_isLineBreak_of_lineIndent
  generalize (lineIndent text (x ++ closing).length).length = indent at hle htrivia hbreak ⊢
  rw [List.length_append] at hle
  obtain ⟨gap, rest, rfl, hrest⟩ : ∃ gap rest, closing = gap ++ rest ∧ rest.length = indent := by
    refine ⟨closing.take (closing.length - indent), closing.drop (closing.length - indent),
      (List.take_append_drop _ _).symm, ?_⟩
    rw [List.length_drop]
    omega
  have hpoint : (x ++ (gap ++ rest)).length - indent = (x ++ gap).length := by
    simp only [List.length_append]
    omega
  have hgap : text = x ++ gap ++ (rest ++ unit '}' :: after) := by simp [htext]
  rw [hpoint, slice, (take_split hgap rfl).1, List.drop_left] at htrivia
  refine ⟨gap, rest, rfl, hpoint, htrivia, closed_of_line htrivia hclosing ?_⟩
  exact hbreak (x ++ gap) rest (by rw [hclose, List.append_assoc]) (le_of_eq hrest)

theorem insertProperty_behind (hdistinct : value.Distinct) (hproto : value.mentionsProto = false)
    (hmembers : members.WellFormed numbers) (hclosing : Closed closing) (hne : members ≠ .nil)
    (htext : text = before ++ ((Tree.object members closing).render ++ after))
    (h : insertable text ((Tree.object members closing).node before.length) = true)
    (key : JsString) : ∃ members' closing', members'.WellFormed numbers ∧ Closed closing' ∧
      insertProperty numbers text ((Tree.object members closing).node before.length) key value =
        before ++ ((Tree.object members' closing').render ++ after) ∧
      ∀ o, members'.assign o = (members.assign o).assign key value true := by
  obtain ⟨childIndent, t, hchild, hwrites, heq⟩ := insertProperty_writes numbers
    hdistinct hproto text key ((Tree.object members closing).node before.length)
  obtain ⟨last, hlast, hstart, hcomma⟩ := members.getLast_properties (before.length + 1) none hne
  have hproperties : ((Tree.object members closing).node before.length).properties.getLast? =
      some last := hlast
  rw [← headText_length] at hstart
  rw [insertable, hproperties] at h
  rw [hproperties] at heq
  simp only [Bool.and_eq_true, decide_eq_true_eq, isTrivia_iff, object_close, hstart] at h heq
  obtain ⟨hle, htrivia⟩ := h
  obtain ⟨gap, rest, rfl, hpoint, hgap, hrest⟩ := closing_split
    (by rw [headText_length]; omega) hclosing (object_text htext) hle htrivia
  have hsplit : text = headText before members ++ (gap ++ (rest ++ unit '}' :: after)) := by
    rw [object_text htext, List.append_assoc]
  have hbefore := before_insertion hstart hcomma hsplit
  have hdrop := (take_split (hsplit.trans (List.append_assoc _ _ _).symm) rfl).2
  rw [hpoint, hbefore, hdrop] at heq
  have hlead : Closed ((gap ++ if (eolOf text).isSuffixOf (headText before members ++
      (members.missingComma ++ gap)) then [] else eolOf text) ++ childIndent) := by
    obtain ⟨z, hz⟩ := members.render_missingComma hne
    refine Closed.append (closed_separator (y := before ++ unit '{' :: z) (c := unit ',')
      (eolOf_cases text) ?_ (by decide) hgap) hchild.closed
    rw [headText, ← List.append_assoc, List.append_assoc before, List.cons_append, hz]
    simp
  obtain ⟨hformed, hrender, hassign⟩ := append_sets before after (eolOf text ++ rest)
    hmembers hlead hwrites key
  refine ⟨_, _, hformed, (closed_eol (eolOf_cases text)).append hrest, ?_, hassign⟩
  rw [heq, hrender]
  simp only [List.append_assoc]

theorem insertProperty_sets (hdistinct : value.Distinct) (hproto : value.mentionsProto = false)
    (hmembers : members.WellFormed numbers) (hclosing : Closed closing)
    (htext : text = before ++ ((Tree.object members closing).render ++ after))
    (h : insertable text ((Tree.object members closing).node before.length) = true)
    (key : JsString) : ∃ members' closing', members'.WellFormed numbers ∧ Closed closing' ∧
      insertProperty numbers text ((Tree.object members closing).node before.length) key value =
        before ++ ((Tree.object members' closing').render ++ after) ∧
      ∀ o, members'.assign o = (members.assign o).assign key value true := by
  by_cases hne : members = .nil
  · subst hne
    exact insertProperty_empty hdistinct hproto hclosing htext key
  · exact insertProperty_behind hdistinct hproto hmembers hclosing hne htext h key

/-! ## The path -/

theorem nestedValue_distinct (hdistinct : value.Distinct) (path : List JsString) :
    (nestedValue path (some value)).Distinct := by
  induction path with
  | nil => exact hdistinct
  | cons key path ih =>
      show (Json.object [(key, nestedValue path (some value))]).Distinct
      simp [Json.Distinct, distinctEntries, ih]

theorem nestedValue_mentionsProto (hproto : value.mentionsProto = false) {path : List JsString}
    (hpath : protoKey ∉ path) : (nestedValue path (some value)).mentionsProto = false := by
  induction path with
  | nil => exact hproto
  | cons key path ih =>
      simp only [List.mem_cons, not_or] at hpath
      show (Json.object [(key, nestedValue path (some value))]).mentionsProto = false
      simp [Json.mentionsProto, entriesMentionProto, ih hpath.2, Ne.symm hpath.1]

theorem property_object (members : Members ν) (closing : JsString) (offset : Nat)
    (key : JsString) : property ((Tree.object members closing).node offset) key =
      (members.properties (offset + 1) none).find? (·.key = key) := rfl

variable (after) in
/-- Another value in a slot. -/
theorem setValue_sets {key : JsString} {t : Tree ν} {w : Json ν}
    (slot : Members.Slot numbers members key)
    (hmembers : members.WellFormed numbers) (hkey : key ≠ protoKey)
    (hcount : members.names.count key = 1) (ht : t.WellFormed numbers) (hw : t.content.1 = w) :
    (members.setValue key t).WellFormed numbers ∧
      before ++ ((Tree.object (members.setValue key t) closing).render ++ after) =
        before ++ unit '{' :: slot.before ++
          (t.render ++ (slot.after ++ (closing ++ unit '}' :: after))) ∧
      (Tree.object (members.setValue key t) closing).content.1 =
        .object (setEntry (members.assign ⟨[], true⟩).entries key w) := by
  refine ⟨Members.setValue_wellFormed ht members hmembers, ?_, ?_⟩
  · simp [Tree.render, slot.render_setValue]
  · rw [Tree.content, slot.assign_setValue hkey hcount, hw]

/-- What `updateNode` does at a property that is there. -/
def updateEntry (numbers : NumberFormat ν) (text : JsString) (node : JsonNode ν)
    (value : Option (Json ν)) (path : List JsString) : JsString :=
  match value with
  | none => text
  | some value =>
      if path.isEmpty then replaceValue numbers text node value
      else if node.type ≠ .object then replaceValue numbers text node (nestedValue path (some value))
      else updateNode numbers text node (some value) path

theorem updateEntry_replaced {t : Tree ν} {offset : Nat} {path : List JsString}
    (h : ¬∃ members closing, t = .object members closing ∧ path ≠ []) :
    updateEntry numbers text (t.node offset) (some value) path =
      replaceValue numbers text (t.node offset) (nestedValue path (some value)) := by
  rw [updateEntry]
  by_cases hpath : path = []
  · subst hpath
    rfl
  · rw [if_neg (by simpa using hpath), if_pos]
    cases t with
    | object members closing => exact absurd ⟨members, closing, rfl, hpath⟩ h
    | _ => simp [Tree.node, JsonNode.type]

theorem setPath_of_replaced {t : Tree ν} {path : List JsString} (ht : t.WellFormed numbers)
    (h : ¬∃ members closing, t = .object members closing ∧ path ≠ []) (value : Json ν) :
    t.content.1.setPath path value = nestedValue path (some value) := by
  by_cases hpath : path = []
  · subst hpath
    cases t.content.1 <;> rfl
  · apply Json.setPath_eq_nested
    cases t with
    | object members closing => exact absurd ⟨members, closing, rfl, hpath⟩ h
    | array items closing => rfl
    | scalar raw v =>
        obtain ⟨kind, hraw⟩ := ht
        exact hraw.not_object

/-- The edit replaces the object by one whose value has the path set. -/
theorem updateNode_sets (hdistinct : value.Distinct) (hproto : value.mentionsProto = false) :
    ∀ (path : List JsString) {before after closing : JsString} {members : Members ν}, path ≠ [] →
    protoKey ∉ path → members.WellFormed numbers → Closed closing →
    text = before ++ ((Tree.object members closing).render ++ after) →
    editable text ((Tree.object members closing).node before.length) path = true →
    ∃ members' closing', members'.WellFormed numbers ∧ Closed closing' ∧
      updateNode numbers text ((Tree.object members closing).node before.length) (some value)
        path = before ++ ((Tree.object members' closing').render ++ after) ∧
      (Tree.object members' closing').content.1 =
        (Tree.object members closing).content.1.setPath path value
  | [], _, _, _, _, hne, _, _, _, _, _ => absurd rfl hne
  | key :: path, before, after, closing, members, _, hpath, hmembers, hclosing, htext, h => by
      simp only [List.mem_cons, not_or] at hpath
      obtain ⟨hkey, hpath⟩ := hpath
      have hnested := nestedValue_distinct hdistinct path
      have hnestedProto := nestedValue_mentionsProto hproto hpath
      rw [editable] at h
      rw [updateNode]
      cases hfind : property ((Tree.object members closing).node before.length) key with
      | none =>
          rw [hfind] at h
          obtain ⟨members', closing', hmembers', hclosing', heq, hassign⟩ :=
            insertProperty_sets hnested hnestedProto hmembers hclosing htext h key
          refine ⟨members', closing', hmembers', hclosing', ?_, ?_⟩
          · simpa using heq
          · have hnot : key ∉ members.names := by
              rw [property_object, List.find?_eq_none] at hfind
              rw [← members.keys_properties (before.length + 1) none]
              simpa using hfind
            have hlookup := members.lookup_assign_of_not_mem (o := ⟨[], true⟩) hnot
            rw [Tree.content, Tree.content, hassign, JsObject.assign_of_ne (Ne.symm hkey),
              Json.setPath, hlookup]
            simp only [List.lookup_nil, Option.getD_none, Json.setPath_eq_nested (v := .null) rfl]
      | some entry =>
          rw [hfind] at h
          simp only [Bool.and_eq_true, decide_eq_true_eq] at h
          obtain ⟨hcount, hrest⟩ := h
          rw [property_object] at hfind
          obtain ⟨slot, hslot⟩ := members.slot_of_find numbers hfind
          have hcount : members.names.count key = 1 := by
            rw [← members.keys_properties (before.length + 1) none]
            exact hcount
          have hsplit : text = before ++ unit '{' :: slot.before ++
              (slot.child.render ++ (slot.after ++ (closing ++ unit '}' :: after))) := by
            simp [htext, Tree.render, slot.render_eq]
          have hnode : entry.value = slot.child.node (before ++ unit '{' :: slot.before).length := by
            have hoffset : before.length + 1 + slot.before.length =
                (before ++ unit '{' :: slot.before).length := by
              simp only [List.length_append, List.length_cons]
              omega
            rw [hslot, hoffset]
          have hchild := slot.wellFormed hmembers
          rw [hnode] at hrest
          suffices hedit : ∃ t : Tree ν, t.WellFormed numbers ∧
              t.content.1 = slot.child.content.1.setPath path value ∧
              updateEntry numbers text (slot.child.node (before ++ unit '{' :: slot.before).length)
                (some value) path = before ++ unit '{' :: slot.before ++
                  (t.render ++ (slot.after ++ (closing ++ unit '}' :: after))) by
            obtain ⟨t, ht, hcontent, heq⟩ := hedit
            obtain ⟨hformed, hrender, hset⟩ := setValue_sets after slot hmembers
              (Ne.symm hkey) hcount ht hcontent
            refine ⟨_, _, hformed, hclosing, ?_, ?_⟩
            · rw [hrender, ← heq, ← hnode]
              rfl
            · rw [hset, Tree.content, Json.setPath, slot.lookup_assign (Ne.symm hkey) hcount]
              rfl
          by_cases hobject : ∃ members₂ closing₂, slot.child = .object members₂ closing₂ ∧ path ≠ []
          · obtain ⟨members₂, closing₂, hobject, hne⟩ := hobject
            rw [hobject] at hchild hrest hsplit ⊢
            obtain ⟨members', closing', hmembers', hclosing', heq, hcontent⟩ :=
              updateNode_sets hdistinct hproto path hne hpath hchild.1 hchild.2 hsplit hrest
            refine ⟨.object members' closing', ⟨hmembers', hclosing'⟩, hcontent, ?_⟩
            rw [updateEntry, if_neg (by simpa using hne), if_neg (by simp [Tree.node,
              JsonNode.type]), heq]
          · obtain ⟨t, hwrites, heq⟩ := replaceValue_writes numbers hnested
              hnestedProto hsplit
            refine ⟨t, hwrites.wellFormed, ?_, ?_⟩
            · rw [hwrites.content]
              exact (setPath_of_replaced hchild hobject value).symm
            · rw [← heq]
              exact updateEntry_replaced hobject

/-! ## The law -/

/-- The edited text is read as the old value with the path set. -/
def SetsPath (numbers : NumberFormat ν) (text : JsString) (path : List JsString)
    (value : Json ν) : Prop :=
  ∀ entries, parseJsonc numbers text = some (.object entries) →
    ∃ text', updateJsoncPath numbers text path (some value) = .ok text' ∧
      parseJsonc numbers text' = some ((Json.object entries).setPath path value)

theorem parseJsonc_document {lead : JsString} {t : Tree ν}
    (h : IsDocument numbers text lead t) : parseJsonc numbers text = some t.content.1 := by
  rw [parseJsonc, parseNode_of_document h]
  exact congrArg some (t.node_value _)

theorem object_of_parseJsonc {entries : List (JsString × Json ν)}
    (h : parseJsonc numbers text = some (.object entries)) :
    ∃ lead members closing, IsDocument numbers text lead (.object members closing) ∧
      (Tree.object members closing).content.1 = .object entries := by
  cases hparse : parseNode numbers text with
  | error message =>
      rw [parseJsonc, hparse] at h
      cases h
  | ok node =>
      obtain ⟨lead, t, hdocument, -⟩ := parseNode_iff.mp hparse
      rw [parseJsonc_document hdocument] at h
      have hvalue := Option.some.inj h
      cases t with
      | scalar raw value =>
          obtain ⟨trail, -, -, ⟨kind, hraw⟩, -⟩ := hdocument
          have hscalar := hraw.not_object
          rw [show value = .object entries from hvalue] at hscalar
          cases hscalar
      | array items closing => cases hvalue
      | object members closing => exact ⟨lead, members, closing, hdocument, hvalue⟩

theorem updateJsoncPath_sets {path : List JsString} (value : JsonValue ν) (hpath : path ≠ [])
    (h : settable numbers text path value.val = true) :
    SetsPath numbers text path value.val := by
  intro entries hentries
  obtain ⟨lead, members, closing, hdocument, hcontent⟩ := object_of_parseJsonc hentries
  have hroot := parseNode_of_document hdocument
  rw [settable, hroot] at h
  simp only [Bool.and_eq_true, Bool.not_eq_true', List.contains_eq_mem, decide_eq_false_iff_not]
    at h
  obtain ⟨⟨hkeys, hproto⟩, heditable⟩ := h
  obtain ⟨trail, htext, hlead, ⟨hmembers, hclosing⟩, htrail⟩ := hdocument
  obtain ⟨members', closing', hmembers', hclosing', heq, hset⟩ := updateNode_sets value.property
    hproto path hpath hkeys hmembers hclosing htext heditable
  refine ⟨_, ?_, parseJsonc_document ⟨trail, heq, hlead, ⟨hmembers', hclosing'⟩, htrail⟩ |>.trans ?_⟩
  · rw [updateJsoncPath, if_neg (by simpa using hpath), hroot]
    rfl
  · rw [hset, hcontent]

/-- Numbers of one digit. -/
def digits : NumberFormat (Fin 10) where
  ofLiteral
    | [c] => if isDigit c then some (Fin.ofNat 10 (c - unit '0').toNat) else none
    | _ => none
  toLiteral value := [unit '0' + value.val.toUInt16]
  isNumberLiteral_toLiteral := by decide
  ofLiteral_toLiteral := by decide

def oneEntry : JsString :=
  [unit '{', unit '"', unit 'a', unit '"', unit ':', unit '0', unit '}']

theorem updateJsoncPath_sets_oneEntry :
    SetsPath digits oneEntry [[unit 'b']] (.bool true) :=
  updateJsoncPath_sets ⟨.bool true, trivial⟩ (by simp) (by decide)

/-- What the editor makes of the same object with an indent: the brace is taken for one that
stands alone in its line. -/
def cutEntry : JsString :=
  twoBlanks ++ [unit '{', unit '"', unit 'a', unit '"', unit ':', unit '0', unit ','] ++ lf ++
    twoBlanks ++ [unit '"', unit 'b', unit '"', unit ':', unit ' '] ++ trueWord ++ lf ++
    [unit ':', unit '0', unit '}']

theorem not_setsPath_indented :
    ¬SetsPath digits (twoBlanks ++ oneEntry) [[unit 'b']] (.bool true) := by
  intro h
  have hentries : parseJsonc digits (twoBlanks ++ oneEntry) =
      some (.object [([unit 'a'], .number 0)]) := rfl
  have hcut : updateJsoncPath digits (twoBlanks ++ oneEntry) [[unit 'b']] (some (.bool true)) =
      .ok cutEntry := rfl
  have hmalformed : (parseJsonc digits cutEntry).isNone = true := by decide +kernel
  obtain ⟨text', hupdate, hparse⟩ := h _ hentries
  rw [hcut] at hupdate
  cases hupdate
  rw [hparse] at hmalformed
  cases hmalformed

end AfyxGraph.Runtime
