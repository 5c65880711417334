import AfyxGraph.Resolution.BlankStrings

/-! # When blanked strings keep the lines

Lines and positions stay unless a string has a newline behind a backslash; a string that is never
closed loses what is behind its quote.
-/

namespace AfyxGraph.Resolution.Comments

open AfyxGraph.Core AfyxGraph.Runtime
open AfyxGraph.UiServer (js)

/-! ## Literals -/

/-- A quote that no backslash escapes comes. -/
def closes (quote : CodeUnit) : (escaped : Bool) → JsString → Bool
  | _, [] => false
  | true, _ :: rest => closes quote false rest
  | false, c :: rest =>
      if c = backslash then closes quote true rest else c = quote || closes quote false rest

/-- A backslash escapes a newline before the literal closes. -/
def escapesNewline (quote : CodeUnit) : (escaped : Bool) → JsString → Bool
  | _, [] => false
  | true, c :: rest => c = newline || escapesNewline quote false rest
  | false, c :: rest =>
      if c = backslash then escapesNewline quote true rest
      else c ≠ quote && escapesNewline quote false rest

/-- Which units of a part of the text are strictly between the quotes of a literal. -/
def interior (l : Lexeme CodeUnit Token) : List Bool :=
  match l with
  | (some (.literal quote), _ :: inner) =>
      if closes quote false inner then
        false :: (List.replicate (inner.length - 1) true ++ [false])
      else false :: List.replicate inner.length false
  | (_, t) => List.replicate t.length false

/-- Closed, without an escaped newline; or there is nothing to blank. -/
def Tame (l : Lexeme CodeUnit Token) : Prop :=
  match l with
  | (some (.literal quote), _ :: inner) =>
      closes quote false inner = true ∧ escapesNewline quote false inner = false ∨
        ∀ c ∈ inner, c = unit ' ' ∨ c = newline
  | _ => True

/-- Every unit and every newline keeps its place; what changes is `inside` and becomes a blank. -/
structure BlanksStrings (text out : JsString) (inside : List Bool) : Prop where
  length : out.length = text.length
  newlines : ∀ i : Nat, text[i]? = some newline → out[i]? = some newline
  changed : ∀ i : Nat, out[i]? ≠ text[i]? →
    out[i]? = some (unit ' ') ∧ inside[i]? = some true

/-! ## Unit by unit -/

/-- A unit, what it becomes, and whether it is inside. -/
def BlanksUnit (c d : CodeUnit) (inside : Bool) : Prop :=
  (c = newline → d = newline) ∧ (d ≠ c → d = unit ' ' ∧ inside = true)

def BlanksUnits : JsString → JsString → List Bool → Prop
  | [], [], [] => True
  | c :: text, d :: out, b :: inside => BlanksUnit c d b ∧ BlanksUnits text out inside
  | _, _, _ => False

theorem blanksStrings_iff {text out : JsString} {inside : List Bool}
    (hout : out.length = text.length) (hinside : inside.length = text.length) :
    BlanksStrings text out inside ↔ BlanksUnits text out inside := by
  induction text generalizing out inside with
  | nil =>
      obtain rfl := List.length_eq_zero_iff.mp hout
      obtain rfl := List.length_eq_zero_iff.mp hinside
      exact ⟨fun _ => trivial, fun _ => ⟨rfl, fun i h => by simp at h, fun i h => by simp at h⟩⟩
  | cons c text ih =>
      obtain ⟨d, out, rfl⟩ := List.exists_cons_of_length_eq_add_one hout
      obtain ⟨b, inside, rfl⟩ := List.exists_cons_of_length_eq_add_one hinside
      rw [BlanksUnits, ← ih (Nat.succ.inj hout) (Nat.succ.inj hinside)]
      constructor
      · intro h
        refine ⟨⟨fun hc => ?_, fun hne => ?_⟩, Nat.succ.inj h.length, fun i => h.newlines (i + 1),
          fun i => h.changed (i + 1)⟩
        · exact Option.some.inj (h.newlines 0 (congrArg some hc))
        · obtain ⟨hd, hb⟩ := h.changed 0 fun heq => hne (Option.some.inj heq)
          exact ⟨Option.some.inj hd, Option.some.inj hb⟩
      · rintro ⟨⟨hnewline, hchanged⟩, h⟩
        refine ⟨congrArg (· + 1) h.length, fun i hi => ?_, fun i hi => ?_⟩
        · cases i with
          | zero => exact congrArg some (hnewline (Option.some.inj hi))
          | succ i => exact h.newlines i hi
        · cases i with
          | zero =>
              obtain ⟨hd, hb⟩ := hchanged fun heq => hi (congrArg some heq)
              exact ⟨congrArg some hd, congrArg some hb⟩
          | succ i => exact h.changed i hi

theorem blanksUnits_append {text out text' out' : JsString} {inside inside' : List Bool}
    (hout : out.length = text.length) (hinside : inside.length = text.length) :
    BlanksUnits (text ++ text') (out ++ out') (inside ++ inside') ↔
      BlanksUnits text out inside ∧ BlanksUnits text' out' inside' := by
  induction text generalizing out inside with
  | nil =>
      obtain rfl := List.length_eq_zero_iff.mp hout
      obtain rfl := List.length_eq_zero_iff.mp hinside
      exact ⟨fun h => ⟨trivial, h⟩, And.right⟩
  | cons c text ih =>
      obtain ⟨d, out, rfl⟩ := List.exists_cons_of_length_eq_add_one hout
      obtain ⟨b, inside, rfl⟩ := List.exists_cons_of_length_eq_add_one hinside
      simp only [List.cons_append, BlanksUnits]
      rw [ih (Nat.succ.inj hout) (Nat.succ.inj hinside), and_assoc]

theorem blanksUnit_same (c : CodeUnit) (inside : Bool) : BlanksUnit c c inside :=
  ⟨id, fun h => absurd rfl h⟩

theorem blanksUnits_same {text : JsString} {inside : List Bool}
    (h : inside.length = text.length) : BlanksUnits text text inside := by
  induction text generalizing inside with
  | nil =>
      obtain rfl := List.length_eq_zero_iff.mp h
      trivial
  | cons c text ih =>
      obtain ⟨b, inside, rfl⟩ := List.exists_cons_of_length_eq_add_one h
      exact ⟨blanksUnit_same c b, ih (Nat.succ.inj h)⟩

/-- Where nothing is inside nothing changes. -/
theorem blanksUnits_outside {text out : JsString} (hout : out.length = text.length) :
    BlanksUnits text out (List.replicate text.length false) ↔ out = text := by
  constructor
  · intro h
    induction text generalizing out with
    | nil => exact List.length_eq_zero_iff.mp hout
    | cons c text ih =>
        obtain ⟨d, out, rfl⟩ := List.exists_cons_of_length_eq_add_one hout
        obtain ⟨⟨-, hchanged⟩, hrest⟩ := h
        have hsame : d = c := by
          by_contra hne
          cases (hchanged hne).2
        rw [hsame, ih (Nat.succ.inj hout) hrest]
  · rintro rfl
    exact blanksUnits_same (List.length_replicate ..)

/-! ## One literal -/

variable {quote : CodeUnit} {body tail rest t : JsString}

theorem ne_quote_of_unit {c : CodeUnit} (h : endsLiteral quote (c :: rest) = false) :
    c ≠ quote := by
  rintro rfl
  simp [endsLiteral] at h

theorem closes_append (h : Body true (endsLiteral quote) body (tail ++ rest)) :
    closes quote false (body ++ tail) = closes quote false tail := by
  generalize hafter : tail ++ rest = after at h
  induction h with
  | stop => rfl
  | escape _ _ _ ih =>
      simp only [List.cons_append, closes, if_true]
      exact ih hafter
  | @unit body after c hends hescapes more ih =>
      have hc := ne_quote_of_unit hends
      by_cases hback : c = backslash
      · obtain ⟨rfl, rfl⟩ := List.append_eq_nil_iff.mp (hescapes rfl hback)
        obtain ⟨rfl, -⟩ := List.append_eq_nil_iff.mp hafter
        simp [closes, hback]
      · simp only [List.cons_append, closes, if_neg hback, hc, decide_false, Bool.false_or]
        exact ih hafter

theorem escapesNewline_append (h : Body true (endsLiteral quote) body (tail ++ rest)) :
    escapesNewline quote false (body ++ tail) =
      (escapesNewline quote false body || escapesNewline quote false tail) := by
  generalize hafter : tail ++ rest = after at h
  induction h with
  | stop => rfl
  | escape _ _ _ ih =>
      simp only [List.cons_append, escapesNewline, if_true]
      rw [ih hafter, Bool.or_assoc]
  | @unit body after c hends hescapes more ih =>
      have hc := ne_quote_of_unit hends
      by_cases hback : c = backslash
      · obtain ⟨rfl, rfl⟩ := List.append_eq_nil_iff.mp (hescapes rfl hback)
        obtain ⟨rfl, -⟩ := List.append_eq_nil_iff.mp hafter
        simp [escapesNewline, hback]
      · simp only [List.cons_append, escapesNewline, if_neg hback, ne_eq, hc, not_false_eq_true,
          decide_true, Bool.true_and]
        exact ih hafter

theorem blanksUnit_blankOf (c : CodeUnit) : BlanksUnit c (blankOf (some c)) true := by
  by_cases hc : c = newline
  · rw [hc]
    exact blanksUnit_same newline true
  · refine ⟨fun h => absurd h hc, fun _ => ⟨?_, rfl⟩⟩
    exact if_neg fun h => hc (Option.some.inj h)

/-- Between the quotes only an escaped newline is lost. -/
theorem blanksUnits_body (h : Body true (endsLiteral quote) body rest) :
    BlanksUnits body (blankInside quote false body) (List.replicate body.length true) ↔
      escapesNewline quote false body = false := by
  induction h with
  | stop => exact ⟨fun _ => rfl, fun _ => trivial⟩
  | @escape body rest c _ _ _ ih =>
      simp only [blankInside, escapesNewline, if_true, List.length_cons, List.replicate_succ,
        BlanksUnits, ih, Bool.or_eq_false_iff, decide_eq_false_iff_not]
      have hback : BlanksUnit backslash (unit ' ') true :=
        ⟨fun h => absurd h (by decide), fun _ => ⟨rfl, rfl⟩⟩
      constructor
      · rintro ⟨-, ⟨hnewline, -⟩, hrest⟩
        exact ⟨fun hc => absurd (hnewline hc) (by decide), hrest⟩
      · rintro ⟨hc, hrest⟩
        exact ⟨hback, ⟨fun h => absurd h hc, fun _ => ⟨rfl, rfl⟩⟩, hrest⟩
  | @unit body rest c hends hescapes _ ih =>
      have hc := ne_quote_of_unit hends
      by_cases hback : c = backslash
      · obtain ⟨rfl, rfl⟩ := List.append_eq_nil_iff.mp (hescapes rfl hback)
        subst hback
        have hblank : BlanksUnit backslash (unit ' ') true :=
          ⟨fun h => absurd h (by decide), fun _ => ⟨rfl, rfl⟩⟩
        exact ⟨fun _ => rfl, fun _ => ⟨hblank, trivial⟩⟩
      · simp only [blankInside, escapesNewline, if_neg hback, List.length_cons,
          List.replicate_succ, BlanksUnits, ih, ne_eq, hc, not_false_eq_true, decide_true,
          Bool.true_and, if_false]
        exact ⟨And.right, fun h => ⟨blanksUnit_blankOf c, h⟩⟩

theorem blankInside_eq_self_iff (h : Body true (endsLiteral quote) body rest) :
    blankInside quote false body = body ↔ ∀ c ∈ body, c = unit ' ' ∨ c = newline := by
  induction h with
  | stop => simp [blankInside]
  | @escape body rest c _ _ _ ih =>
      simp only [blankInside, if_true, List.cons.injEq, List.forall_mem_cons]
      constructor
      · rintro ⟨hback, -⟩
        exact absurd hback (by decide)
      · rintro ⟨hback, -⟩
        exact absurd hback (by decide)
  | @unit body rest c hends hescapes _ ih =>
      have hc := ne_quote_of_unit hends
      by_cases hback : c = backslash
      · subst hback
        simp only [blankInside, if_true, List.cons.injEq, List.forall_mem_cons]
        constructor
        · rintro ⟨hback, -⟩
          exact absurd hback (by decide)
        · rintro ⟨hback, -⟩
          exact absurd hback (by decide)
      · simp only [blankInside, if_neg hback, if_neg hc, List.cons.injEq, List.forall_mem_cons, ih]
        refine and_congr_left fun _ => ?_
        rw [blankOf]
        by_cases hnewline : c = newline
        · simp [hnewline]
        · rw [if_neg fun h => hnewline (Option.some.inj h)]
          exact ⟨fun h => .inl h.symm, fun h => (h.resolve_right hnewline).symm⟩

theorem length_interior (l : Lexeme CodeUnit Token) : (interior l).length = l.2.length := by
  have hplain : ∀ t : JsString, (List.replicate t.length false).length = t.length := fun t =>
    List.length_replicate ..
  match l with
  | (none, t) => exact hplain t
  | (some .regex, t) => exact hplain t
  | (some (.literal quote), []) => rfl
  | (some (.literal quote), c :: inner) =>
      show (if closes quote false inner then _ else _ : List Bool).length = inner.length + 1
      cases inner with
      | nil => rfl
      | cons d inner => split <;> simp

theorem blanksUnits_lexeme {f : Token} (h : f.Reads t rest) :
    BlanksUnits t (stringGrammar.paint f t) (interior (some f, t)) ↔ Tame (some f, t) := by
  cases f with
  | regex => exact ⟨fun _ => trivial, fun _ => blanksUnits_same (List.length_replicate ..)⟩
  | literal quote =>
      obtain ⟨hquote, body, tail, rfl, hbody, htail⟩ := h
      have hplain : quote ≠ backslash ∧ ¬ (quote = unit ' ' ∨ quote = newline) := by
        have hall : [double, single, backtick].all
            (fun q => q ≠ backslash ∧ ¬ (q = unit ' ' ∨ q = newline)) = true := by
          decide
        exact of_decide_eq_true (List.all_eq_true.mp hall quote hquote)
      have hinside := blankInside_append hplain.1 hbody (htail.imp_right And.left)
      have hcloses := closes_append hbody
      have hescapes := escapesNewline_append hbody
      show BlanksUnits (quote :: (body ++ tail)) (quote :: blankInside quote false (body ++ tail))
        (if closes quote false (body ++ tail) then _ else _) ↔ _ ∨ _
      rw [hinside]
      rcases htail with rfl | ⟨rfl, -⟩
      · have hclosed : closes quote false [quote] = true := by simp [closes, hplain.1]
        have hnone : escapesNewline quote false [quote] = false := by
          simp [escapesNewline, hplain.1]
        rw [hclosed] at hcloses
        rw [hnone, Bool.or_false] at hescapes
        have hlength : (body ++ [quote]).length - 1 = body.length := by simp
        rw [if_pos hcloses, hcloses, hescapes, hlength, BlanksUnits,
          blanksUnits_append (length_blankInside ..) (List.length_replicate ..),
          blanksUnits_body hbody]
        have hblank : ¬ ∀ c ∈ body ++ [quote], c = unit ' ' ∨ c = newline := fun h =>
          hplain.2 (h quote (by simp))
        constructor
        · exact fun h => .inl ⟨rfl, h.2.1⟩
        · intro h
          exact ⟨blanksUnit_same quote false, (h.resolve_right hblank).2,
            blanksUnits_same (by rfl)⟩
      · have hopen : closes quote false (body ++ []) = false := hcloses
        rw [hopen, if_neg Bool.false_ne_true, List.append_nil, List.append_nil, BlanksUnits,
          blanksUnits_outside (length_blankInside ..), blankInside_eq_self_iff hbody]
        constructor
        · exact fun h => .inr h.2
        · intro h
          exact ⟨blanksUnit_same quote false, h.resolve_left fun h => Bool.noConfusion h.1⟩

/-! ## The whole text -/

theorem blanksUnits_render {s : Unit} {before : JsString} {ls : List (Lexeme CodeUnit Token)}
    (h : Lexed stringReader stringGrammar s before t ls) :
    BlanksUnits t (stringGrammar.render ls) (ls.flatMap interior) ↔ ∀ l ∈ ls, Tame l := by
  induction h with
  | done => exact ⟨fun _ l hl => absurd hl List.not_mem_nil, fun _ => trivial⟩
  | @lexeme s before t rest ls f _ _ reads _ ih =>
      have hrender : stringGrammar.render ((some f, t) :: ls) =
          stringGrammar.paint f t ++ stringGrammar.render ls := rfl
      rw [hrender, List.flatMap_cons,
        blanksUnits_append (stringReader_agrees.length_paint f t) (length_interior (some f, t)),
        blanksUnits_lexeme reads, ih, List.forall_mem_cons]
  | @unit s before rest ls c _ _ ih =>
      have hrender : stringGrammar.render ((none, [c]) :: ls) =
          [c] ++ stringGrammar.render ls := rfl
      rw [hrender, List.flatMap_cons, List.forall_mem_cons, ← ih, ← List.singleton_append,
        blanksUnits_append rfl (length_interior (none, [c]))]
      exact and_congr_left fun _ => ⟨fun _ => trivial, fun _ => blanksUnits_same rfl⟩

end AfyxGraph.Resolution.Comments
