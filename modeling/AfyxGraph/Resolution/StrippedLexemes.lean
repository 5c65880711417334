import AfyxGraph.Resolution.StripComments
import Mathlib.Data.List.Forall2

/-! # What the scanners read

A text is a sequence of comments, literals and other units. What a comment or a literal of a
language is, is said of the text; the scanner takes every text apart that way, keeps the literals
and turns the comments into blanks.
-/

namespace AfyxGraph.Resolution.Comments

open AfyxGraph.Core AfyxGraph.Runtime
open AfyxGraph.UiServer (js)

/-! ## Comments and literals -/

/-- What is inside, before the rest: escapes and units that do not end it. -/
inductive Body (escapes : Bool) (ends : JsString → Bool) : JsString → JsString → Prop
  | stop {rest : JsString} (h : rest = [] ∨ ends rest = true) : Body escapes ends [] rest
  | escape {body rest : JsString} {c : CodeUnit} (hescapes : escapes = true)
      (hends : ends (backslash :: c :: (body ++ rest)) = false)
      (more : Body escapes ends body rest) : Body escapes ends (backslash :: c :: body) rest
  | unit {body rest : JsString} {c : CodeUnit} (hends : ends (c :: (body ++ rest)) = false)
      (hescapes : escapes = true → c = backslash → body ++ rest = [])
      (more : Body escapes ends body rest) : Body escapes ends (c :: body) rest

/-- Inside comments that nest, so many of them open. -/
inductive NestedBody : Nat → JsString → JsString → Prop
  | closed {rest : JsString} : NestedBody 0 [] rest
  | unclosed {depth : Nat} : NestedBody depth [] []
  | opens {depth : Nat} {body rest : JsString} (more : NestedBody (depth + 2) body rest) :
      NestedBody (depth + 1) (js "/*" ++ body) rest
  | closes {depth : Nat} {body rest : JsString} (more : NestedBody depth body rest) :
      NestedBody (depth + 1) (js "*/" ++ body) rest
  | unit {depth : Nat} {body rest : JsString} {c : CodeUnit}
      (hopens : ¬ js "/*" <+: c :: (body ++ rest)) (hcloses : ¬ js "*/" <+: c :: (body ++ rest))
      (more : NestedBody (depth + 1) body rest) : NestedBody (depth + 1) (c :: body) rest

/-- The end of a `=begin` comment: the line of `=end`, or the end of the text. -/
inductive BeginEnd : JsString → JsString → Prop
  | unclosed : BeginEnd [] []
  | closed {blanks line rest : JsString} (hblanks : ∀ c ∈ blanks, isBlank c = true)
      (hline : Body false isNewline line rest) :
      BeginEnd (newline :: (blanks ++ (js "=end" ++ line))) rest

/-- What follows `$`. -/
inductive CharacterBody : JsString → JsString → Prop
  | plain {c : CodeUnit} {rest : JsString} (h : c ≠ backslash) : CharacterBody [c] rest
  | escape {c : CodeUnit} {rest : JsString} : CharacterBody [backslash, c] rest
  | none : CharacterBody [] []
  | lone : CharacterBody [backslash] []

/-- A comment or literal before the rest of the text. -/
def Form.Reads (f : Form) (t rest : JsString) : Prop :=
  match f with
  | .span s => ∃ body tail, t = s.opening ++ (body ++ tail) ∧
      Body s.escapes s.ends body (tail ++ rest) ∧
        (tail = s.closing ∨ tail = [] ∧ ¬ s.closing <+: rest)
  | .nested => ∃ body, t = js "/*" ++ body ∧ NestedBody 1 body rest
  | .begin => ∃ body tail, t = js "=begin" ++ (body ++ tail) ∧
      Body false endsBegin body (tail ++ rest) ∧ BeginEnd tail rest
  | .character => ∃ body, t = js "$" ++ body ∧ CharacterBody body rest

/-- Blanks, but for the newlines. -/
def blanked (t : JsString) : JsString := t.map fun c => blankOf (some c)

def grammar : Grammar CodeUnit Form where
  reads := Form.Reads
  paint f t := if f.comment then blanked t else t

/-! ## What there is to read -/

variable {escapes : Bool} {ends : JsString → Bool} {before body tail rest t : JsString}

theorem exists_body (escapes : Bool) (ends : JsString → Bool) (text : JsString) :
    ∃ body rest, text = body ++ rest ∧ Body escapes ends body rest := by
  induction hlen : text.length using Nat.strongRecOn generalizing text with
  | _ len ih =>
      subst hlen
      cases text with
      | nil => exact ⟨[], [], rfl, .stop (.inl rfl)⟩
      | cons c text =>
          by_cases hends : ends (c :: text) = true
          · exact ⟨[], c :: text, rfl, .stop (.inr hends)⟩
          · rw [Bool.not_eq_true] at hends
            by_cases hescape : escapes = true ∧ c = backslash ∧ text ≠ []
            · obtain ⟨hescapes, rfl, hne⟩ := hescape
              obtain ⟨d, text, rfl⟩ := List.exists_cons_of_ne_nil hne
              obtain ⟨body, rest, rfl, hbody⟩ := ih text.length
                (by simp only [List.length_cons]; omega) text rfl
              exact ⟨_ :: d :: body, rest, rfl, .escape hescapes hends hbody⟩
            · obtain ⟨body, rest, rfl, hbody⟩ := ih text.length (by simp) text rfl
              refine ⟨c :: body, rest, rfl, .unit hends ?_ hbody⟩
              intro hescapes hc
              by_contra hne
              exact hescape ⟨hescapes, hc, hne⟩

theorem Body.rest_eq (h : Body escapes ends body rest) : rest = [] ∨ ends rest = true := by
  induction h with
  | stop h => exact h
  | escape _ _ _ ih => exact ih
  | unit _ _ _ ih => exact ih

theorem length_lt_append {mark : JsString} (h : mark ≠ []) :
    t.length < (mark ++ t).length := by
  rw [List.length_append]
  exact Nat.lt_add_of_pos_left (List.length_pos_iff.mpr h)

theorem exists_nestedBody (depth : Nat) (text : JsString) :
    ∃ body rest, text = body ++ rest ∧ NestedBody depth body rest := by
  induction hlen : text.length using Nat.strongRecOn generalizing depth text with
  | _ len ih =>
      subst hlen
      cases depth with
      | zero => exact ⟨[], text, rfl, .closed⟩
      | succ depth =>
          by_cases hopens : js "/*" <+: text
          · obtain ⟨text, rfl⟩ := hopens
            obtain ⟨body, rest, rfl, hbody⟩ := ih text.length
              (length_lt_append (by decide)) (depth + 2) text rfl
            exact ⟨_, rest, (List.append_assoc ..).symm, .opens hbody⟩
          · by_cases hcloses : js "*/" <+: text
            · obtain ⟨text, rfl⟩ := hcloses
              obtain ⟨body, rest, rfl, hbody⟩ := ih text.length
                (length_lt_append (by decide)) depth text rfl
              exact ⟨_, rest, (List.append_assoc ..).symm, .closes hbody⟩
            · cases text with
              | nil => exact ⟨[], [], rfl, .unclosed⟩
              | cons c text =>
                  obtain ⟨body, rest, rfl, hbody⟩ := ih text.length (by simp) (depth + 1) text rfl
                  exact ⟨c :: body, rest, rfl, .unit hopens hcloses hbody⟩

theorem exists_beginEnd (h : rest = [] ∨ endsBegin rest = true) :
    ∃ tail after, rest = tail ++ after ∧ BeginEnd tail after := by
  rcases h with rfl | h
  · exact ⟨[], [], rfl, .unclosed⟩
  · rw [endsBegin, Bool.and_eq_true, isNewline, decide_eq_true_eq] at h
    obtain ⟨hnewline, hend⟩ := h
    cases rest with
    | nil => cases hnewline
    | cons c rest =>
        cases hnewline
        obtain ⟨after, hafter⟩ := List.isPrefixOf_iff_prefix.mp hend
        obtain ⟨line, after, rfl, hline⟩ := exists_body false isNewline after
        have hrest : rest.takeWhile isBlank ++ (js "=end" ++ (line ++ after)) = rest := by
          rw [hafter]
          exact List.takeWhile_append_dropWhile
        have hblanks : ∀ c ∈ rest.takeWhile isBlank, isBlank c = true :=
          fun c hc => List.mem_takeWhile_imp hc
        refine ⟨_, after, ?_, .closed hblanks hline⟩
        rw [List.cons_append, List.append_assoc, List.append_assoc, hrest]

theorem exists_characterBody (text : JsString) :
    ∃ body rest, text = body ++ rest ∧ CharacterBody body rest := by
  match text with
  | [] => exact ⟨[], [], rfl, .none⟩
  | [c] =>
      by_cases hc : c = backslash
      · exact ⟨[c], [], rfl, hc ▸ .lone⟩
      · exact ⟨[c], [], rfl, .plain hc⟩
  | c :: d :: text =>
      by_cases hc : c = backslash
      · exact ⟨[c, d], text, rfl, hc ▸ .escape⟩
      · exact ⟨[c], d :: text, rfl, .plain hc⟩

theorem exists_reads (f : Form) (h : f.opening <+: rest) :
    ∃ t after, rest = t ++ after ∧ f.Reads t after := by
  obtain ⟨text, rfl⟩ := h
  cases f with
  | span s =>
      obtain ⟨body, rest, rfl, hbody⟩ := exists_body s.escapes s.ends text
      by_cases hclosing : s.closing <+: rest
      · obtain ⟨after, rfl⟩ := hclosing
        exact ⟨s.opening ++ (body ++ s.closing), after,
          by simp only [Form.opening, List.append_assoc], body, s.closing, rfl, hbody, .inl rfl⟩
      · exact ⟨s.opening ++ (body ++ []), rest,
          by simp only [Form.opening, List.append_assoc, List.append_nil],
          body, [], rfl, hbody, .inr ⟨rfl, hclosing⟩⟩
  | nested =>
      obtain ⟨body, rest, rfl, hbody⟩ := exists_nestedBody 1 text
      exact ⟨_, rest, (List.append_assoc ..).symm, body, rfl, hbody⟩
  | begin =>
      obtain ⟨body, rest, rfl, hbody⟩ := exists_body false endsBegin text
      obtain ⟨tail, after, rfl, htail⟩ := exists_beginEnd hbody.rest_eq
      exact ⟨js "=begin" ++ (body ++ tail), after,
        by simp only [Form.opening, List.append_assoc], body, tail, rfl, hbody, htail⟩
  | character =>
      obtain ⟨body, rest, rfl, hbody⟩ := exists_characterBody text
      exact ⟨_, rest, (List.append_assoc ..).symm, body, rfl, hbody⟩

/-! ## Where the loops stop -/

theorem getElem?_at (before t : JsString) (k : Nat) :
    (before ++ t)[before.length + k]? = t[k]? := by
  rw [List.getElem?_append_right (Nat.le_add_right ..), Nat.add_sub_cancel_left]

theorem startsWith_at (mark before t : JsString) :
    startsWith mark (before ++ t) before.length = mark.isPrefixOf t := by
  rw [startsWith, List.drop_left]

theorem skip_of_body (h : Body escapes ends body rest) (before : JsString) :
    skip escapes ends (before ++ (body ++ rest)) before.length = before.length + body.length := by
  induction h generalizing before with
  | @stop rest h =>
      rw [skip, if_neg]
      · rfl
      · rintro ⟨hin, hends⟩
        rw [List.nil_append, List.drop_left] at hends
        rcases h with rfl | h
        · simp at hin
        · rw [h] at hends
          cases hends
  | @escape body rest c hescapes hends more ih =>
      have hmore := ih (before ++ [backslash, c])
      have htext : before ++ [backslash, c] ++ (body ++ rest) =
          before ++ (backslash :: c :: body ++ rest) := by
        simp
      rw [htext, List.length_append] at hmore
      rw [skip, if_pos ⟨by simp, by rw [List.drop_left]; exact hends⟩,
        if_pos ⟨hescapes, by simp, by simp⟩]
      refine hmore.trans ?_
      simp only [List.length_cons, List.length_nil]
      omega
  | @unit body rest c hends hescapes more ih =>
      have hmore := ih (before ++ [c])
      have htext : before ++ [c] ++ (body ++ rest) = before ++ (c :: body ++ rest) := by simp
      rw [htext, List.length_append] at hmore
      have hplain : ¬ (escapes = true ∧
          (before ++ (c :: body ++ rest))[before.length]? = some backslash ∧
            before.length + 1 < (before ++ (c :: body ++ rest)).length) := by
        rintro ⟨he, hc, hlen⟩
        have hnil := hescapes he (by simpa using hc)
        rw [List.cons_append, hnil] at hlen
        simp at hlen
      rw [skip, if_pos ⟨by simp, by rw [List.drop_left]; exact hends⟩, if_neg hplain]
      refine hmore.trans ?_
      simp only [List.length_cons, List.length_nil]
      omega

/-- The loop from behind an opening. -/
theorem skip_behind (h : Body escapes ends body rest) (before opening : JsString) :
    skip escapes ends (before ++ (opening ++ (body ++ rest))) (before.length + opening.length) =
      before.length + (opening.length + body.length) := by
  have hskip := skip_of_body h (before ++ opening)
  rw [List.append_assoc, List.length_append] at hskip
  rw [hskip, Nat.add_assoc]

theorem skipNested_of_body {depth : Nat} (h : NestedBody depth body rest) (before : JsString) :
    skipNested (before ++ (body ++ rest)) depth before.length =
      before.length + body.length := by
  induction h generalizing before with
  | closed =>
      rw [skipNested, if_neg fun h => Nat.lt_irrefl _ h.2]
      rfl
  | unclosed =>
      rw [skipNested, if_neg (by simp)]
      rfl
  | @opens depth body rest more ih =>
      have hmore := ih (before ++ js "/*")
      rw [List.append_assoc, List.length_append] at hmore
      rw [List.append_assoc, skipNested, if_pos ⟨by simp [js], Nat.succ_pos _⟩, startsWith_at,
        if_pos (List.isPrefixOf_iff_prefix.mpr (List.prefix_append ..))]
      refine hmore.trans ?_
      simp only [List.length_append, Nat.add_assoc]
  | @closes depth body rest more ih =>
      have hmore := ih (before ++ js "*/")
      rw [List.append_assoc, List.length_append] at hmore
      rw [List.append_assoc, skipNested, if_pos ⟨by simp [js], Nat.succ_pos _⟩, startsWith_at,
        startsWith_at, if_neg, if_pos (List.isPrefixOf_iff_prefix.mpr (List.prefix_append ..))]
      · refine hmore.trans ?_
        simp only [List.length_append, Nat.add_assoc]
      · simp [js, unit]
  | @unit depth body rest c hopens hcloses more ih =>
      have hmore := ih (before ++ [c])
      have htext : before ++ [c] ++ (body ++ rest) = before ++ (c :: body ++ rest) := by simp
      rw [htext, List.length_append] at hmore
      rw [← List.isPrefixOf_iff_prefix, ← List.cons_append] at hopens hcloses
      rw [skipNested, if_pos ⟨by simp, Nat.succ_pos _⟩, startsWith_at, startsWith_at,
        if_neg hopens, if_neg hcloses]
      refine hmore.trans ?_
      simp only [List.length_cons, List.length_nil]
      omega

theorem body_of_blanks {blanks : JsString} (hblanks : ∀ c ∈ blanks, isBlank c = true)
    (hrest : rest.head?.any isBlank = false) :
    Body false (fun rest => !rest.head?.any isBlank) blanks rest := by
  induction blanks with
  | nil => exact .stop (.inr (by rw [hrest]; rfl))
  | cons c blanks ih =>
      refine .unit ?_ (fun h => Bool.noConfusion h)
        (ih fun d hd => hblanks d (List.mem_cons_of_mem _ hd))
      simp [hblanks c List.mem_cons_self]

theorem stop_span {s : Span} (hbody : Body s.escapes s.ends body (tail ++ rest))
    (htail : tail = s.closing ∨ tail = [] ∧ ¬ s.closing <+: rest) (before : JsString) :
    (Form.span s).stop (before ++ (s.opening ++ (body ++ (tail ++ rest)))) before.length =
      before.length + (s.opening ++ (body ++ tail)).length := by
  have hclosing : startsWith s.closing (before ++ (s.opening ++ (body ++ (tail ++ rest))))
      (before.length + (s.opening.length + body.length)) = s.closing.isPrefixOf (tail ++ rest) := by
    have hat := startsWith_at s.closing (before ++ (s.opening ++ body)) (tail ++ rest)
    simpa only [List.append_assoc, List.length_append] using hat
  simp only [Form.stop]
  rw [skip_behind hbody, hclosing]
  rcases htail with rfl | ⟨rfl, hnot⟩
  · rw [if_pos (List.isPrefixOf_iff_prefix.mpr (List.prefix_append ..))]
    simp only [List.length_append, Nat.add_assoc]
  · rw [List.nil_append, if_neg (by rwa [List.isPrefixOf_iff_prefix])]
    simp only [List.length_append, List.append_nil]

theorem stop_begin (hbody : Body false endsBegin body (tail ++ rest)) (htail : BeginEnd tail rest)
    (before : JsString) :
    Form.begin.stop (before ++ (js "=begin" ++ (body ++ (tail ++ rest)))) before.length =
      before.length + (js "=begin" ++ (body ++ tail)).length := by
  have hskip := skip_behind hbody before (js "=begin")
  simp only [Form.stop]
  rw [show before.length + 6 = before.length + (js "=begin").length from rfl, hskip]
  cases htail with
  | unclosed =>
      rw [if_neg (by simp)]
      simp
  | @closed blanks line rest hblanks hline =>
      have hdash : (js "=end" ++ (line ++ rest)).head?.any isBlank = false := by
        simp [js, unit, isBlank]
      have hblank := skip_of_body (body_of_blanks hblanks hdash)
        (before ++ (js "=begin" ++ (body ++ [newline])))
      have hend := skip_of_body hline
        (before ++ (js "=begin" ++ (body ++ (newline :: (blanks ++ js "=end")))))
      simp only [List.append_assoc, List.cons_append, List.nil_append, List.length_append,
        List.length_cons, List.length_nil, Nat.zero_add] at hblank hend ⊢
      have hindex : before.length + ((js "=begin").length + (body.length + 1)) + blanks.length + 4 =
          before.length + ((js "=begin").length +
            (body.length + (blanks.length + (js "=end").length + 1))) := by
        rw [show (js "=end").length = 4 from rfl]
        omega
      rw [if_pos (by omega), Nat.add_assoc, Nat.add_assoc, hblank, hindex, hend]
      omega

theorem stop_character (h : CharacterBody body rest) (before : JsString) :
    Form.character.stop (before ++ (js "$" ++ (body ++ rest))) before.length =
        before.length + (js "$" ++ body).length ∨
      rest = [] ∧ before.length + (js "$" ++ body).length ≤
        Form.character.stop (before ++ (js "$" ++ (body ++ rest))) before.length := by
  have hnext : (before ++ (js "$" ++ (body ++ rest)))[before.length + 1]? = (body ++ rest)[0]? :=
    getElem?_at ..
  simp only [Form.stop]
  rw [hnext]
  cases h with
  | plain h => simp [h, js]
  | escape => simp [js]
  | none => exact .inr (by simp [js])
  | lone => exact .inr (by simp [js])

theorem stop_exact {f : Form} (hf : f ≠ .character) (h : f.Reads t rest) (before : JsString) :
    f.stop (before ++ (t ++ rest)) before.length = before.length + t.length := by
  cases f with
  | span s =>
      obtain ⟨body, tail, rfl, hbody, htail⟩ := h
      simpa only [List.append_assoc] using stop_span hbody htail before
  | nested =>
      obtain ⟨body, rfl, hbody⟩ := h
      have hskip := skipNested_of_body hbody (before ++ js "/*")
      rw [List.append_assoc, List.length_append] at hskip
      rw [List.append_assoc]
      exact hskip.trans (by rw [List.length_append, Nat.add_assoc])
  | begin =>
      obtain ⟨body, tail, rfl, hbody, htail⟩ := h
      simpa only [List.append_assoc] using stop_begin hbody htail before
  | character => exact absurd rfl hf

/-- Only `$` at the end of the text leaves it. -/
theorem stop_eq {f : Form} (h : f.Reads t rest) (before : JsString) :
    f.stop (before ++ (t ++ rest)) before.length = before.length + t.length ∨
      rest = [] ∧ before.length + t.length ≤ f.stop (before ++ (t ++ rest)) before.length := by
  by_cases hf : f = .character
  · subst hf
    obtain ⟨body, rfl, hbody⟩ := h
    simpa only [List.append_assoc] using stop_character hbody before
  · exact .inl (stop_exact hf h before)

/-! ## Blanks -/

theorem put_at {done : JsString} (c d : CodeUnit) (hdone : done.length = before.length) :
    put (done ++ c :: rest) before.length d = done ++ d :: rest := by
  rw [put, if_pos (by simp [hdone]), ← hdone]
  simp

theorem blankRange_at (before done : JsString) (hdone : done.length = before.length) :
    blankRange (done ++ (t ++ rest)) before.length (before.length + t.length)
      (before ++ (t ++ rest)) = done ++ (blanked t ++ rest) := by
  rw [blankRange, Nat.add_sub_cancel_left]
  induction t generalizing done before with
  | nil => rfl
  | cons c t ih =>
      have hunit : (before ++ (c :: t ++ rest))[before.length]? = some c := by simp
      have hrest := ih (before ++ [c]) (done ++ [blankOf (some c)]) (by simp [hdone])
      have hlength : (before ++ [c]).length = before.length + 1 := by simp
      rw [hlength] at hrest
      simp only [List.append_assoc, List.singleton_append] at hrest
      rw [List.length_cons, List.range'_succ, List.foldl_cons, hunit, List.cons_append,
        put_at _ _ hdone]
      exact hrest

theorem length_blanked (t : JsString) : (blanked t).length = t.length := List.length_map _

/-! ## The scanners -/

theorem Form.Reads.opening_prefix {f : Form} (h : f.Reads t rest) : f.opening <+: t := by
  cases f with
  | span s =>
      obtain ⟨body, tail, rfl, -⟩ := h
      exact List.prefix_append ..
  | nested =>
      obtain ⟨body, rfl, -⟩ := h
      exact List.prefix_append ..
  | begin =>
      obtain ⟨body, tail, rfl, -⟩ := h
      exact List.prefix_append ..
  | character =>
      obtain ⟨body, rfl, -⟩ := h
      exact List.prefix_append ..

theorem agrees {forms : List Form} (hforms : ∀ f ∈ forms, f.opening ≠ []) :
    Agrees (reader forms) grammar where
  exists_reads := by
    intro s before f rest _ hbranch
    have hopening : startsWith f.opening (before ++ rest) before.length = true :=
      (Bool.and_eq_true _ _ ▸ List.find?_some hbranch).1
    rw [startsWith_at, List.isPrefixOf_iff_prefix] at hopening
    obtain ⟨t, tail, rfl, hreads⟩ := exists_reads f hopening
    refine ⟨t, tail, rfl, ?_, hreads⟩
    rintro rfl
    exact hforms f (List.mem_of_find?_eq_some hbranch) (List.prefix_nil.mp hreads.opening_prefix)
  stop_eq := fun _ _ hreads => stop_eq hreads _
  edit_eq := by
    intro s before t rest f _ _ hreads done hdone
    show (if f.comment then blankRange (done ++ (t ++ rest)) before.length
      (f.stop (before ++ (t ++ rest)) before.length) (before ++ (t ++ rest))
      else done ++ (t ++ rest)) = done ++ ((if f.comment then blanked t else t) ++ rest)
    by_cases hcomment : f.comment = true
    · have hf : f ≠ .character := by
        rintro rfl
        cases hcomment
      rw [if_pos hcomment, if_pos hcomment, stop_exact hf hreads, blankRange_at _ _ hdone]
    · rw [if_neg hcomment, if_neg hcomment]
  length_paint := by
    intro f t
    show (if f.comment then blanked t else t).length = t.length
    split
    · exact length_blanked t
    · rfl

/-- What becomes of a part of the text. -/
def stripped (l : Lexeme CodeUnit Form) : JsString :=
  if l.1.any Form.comment then blanked l.2 else l.2

theorem render_eq (ls : List (Lexeme CodeUnit Form)) : grammar.render ls = ls.flatMap stripped := by
  refine List.flatMap_congr fun l _ => ?_
  obtain ⟨f | f, t⟩ := l <;> rfl

theorem strip_eq {forms : List Form} (hforms : ∀ f ∈ forms, f.opening ≠ []) {src : JsString}
    {ls : List (Lexeme CodeUnit Form)} (h : Lexed (reader forms) grammar true [] src ls) :
    strip forms src = some (ls.flatMap stripped) := by
  rw [← render_eq]
  exact (agrees hforms).run_eq h h.length_le [] rfl

/-! ## What is kept -/

/-- A unit and what it becomes. -/
def Blanks (c d : CodeUnit) : Prop := d = c ∨ c ≠ newline ∧ d = unit ' '

/-- Every unit keeps its place, and every newline stays. -/
structure KeepsLines (src out : JsString) : Prop where
  length : out.length = src.length
  newlines : ∀ i : Nat, src[i]? = some newline → out[i]? = some newline
  changed : ∀ i : Nat, out[i]? ≠ src[i]? → src[i]? ≠ some newline ∧ out[i]? = some (unit ' ')

theorem keepsLines_of_forall₂ {src out : JsString} (h : List.Forall₂ Blanks src out) :
    KeepsLines src out := by
  have hat : ∀ i : Nat, src[i]? = none ∧ out[i]? = none ∨
      ∃ c d, src[i]? = some c ∧ out[i]? = some d ∧ Blanks c d := by
    intro i
    induction h generalizing i with
    | nil => exact .inl ⟨rfl, rfl⟩
    | @cons c d src out hcd _ ih =>
        cases i with
        | zero => exact .inr ⟨c, d, rfl, rfl, hcd⟩
        | succ i => exact ih i
  refine ⟨h.length_eq.symm, fun i hnewline => ?_, fun i hne => ?_⟩
  · rcases hat i with ⟨hnone, -⟩ | ⟨c, d, hc, hd, rfl | ⟨hne, -⟩⟩
    · rw [hnone] at hnewline
      cases hnewline
    · exact hd.trans (hc.symm.trans hnewline)
    · exact absurd (Option.some.inj (hc.symm.trans hnewline)) hne
  · rcases hat i with ⟨hnone, hnone'⟩ | ⟨c, d, hc, hd, rfl | ⟨hnewline, rfl⟩⟩
    · exact absurd (hnone'.trans hnone.symm) hne
    · exact absurd (hd.trans hc.symm) hne
    · exact ⟨fun h => hnewline (Option.some.inj (hc.symm.trans h)), hd⟩

theorem blanks_refl (t : JsString) : List.Forall₂ Blanks t t :=
  List.forall₂_same.mpr fun _ _ => .inl rfl

theorem blanks_blanked (t : JsString) : List.Forall₂ Blanks t (blanked t) := by
  refine List.forall₂_map_right_iff.mpr (List.forall₂_same.mpr fun c _ => ?_)
  by_cases hc : c = newline
  · exact .inl (by rw [hc]; rfl)
  · exact .inr ⟨hc, if_neg fun h => hc (Option.some.inj h)⟩

theorem blanks_stripped (ls : List (Lexeme CodeUnit Form)) :
    List.Forall₂ Blanks (ls.map (·.2)).flatten (ls.flatMap stripped) := by
  induction ls with
  | nil => exact .nil
  | cons l ls ih =>
      refine List.rel_append (?_ : List.Forall₂ Blanks l.2 (stripped l)) ih
      unfold stripped
      split
      · exact blanks_blanked l.2
      · exact blanks_refl l.2

/-! ## Languages -/

/-- What a scanner reads. -/
def forms : CommentLang → List Form
  | .python => pythonForms
  | .ruby => rubyForms
  | .rust => rustForms
  | .erlang => erlangForms
  | .php => phpForms
  | .go => goForms
  | .javascript | .typescript => cStyleForms true
  | .java | .csharp | .swift | .c | .cpp => cStyleForms false

theorem stripCommentsForRegex_eq (content : JsString) (lang : CommentLang) :
    stripCommentsForRegex content lang = strip (forms lang) content := by
  cases lang <;> rfl

theorem opening_ne_nil {lang : CommentLang} : ∀ f ∈ forms lang, f.opening ≠ [] := by
  have hall : ((forms lang).all fun f => !f.opening.isEmpty) = true := by cases lang <;> decide
  intro f hf
  simpa using List.all_eq_true.mp hall f hf

/-- The literals of the languages themselves: some that the C scanner reads have characters in
single quotes. -/
def languageForms (lang : CommentLang) : List Form :=
  forms lang ++ if lang ∈ [.java, .csharp, .c, .cpp] then [quoted single] else []

end AfyxGraph.Resolution.Comments
