import AfyxGraph.Resolution.StrippedLexemes

/-! # String contents in blanks

What is inside the quotes becomes blanks, so that a search finds no call in a string. A slash where
an operand is due begins a regular expression, whose quotes are no strings. An escape is blanked
whole, with a newline that it escapes.
-/

namespace AfyxGraph.Resolution.Comments

open AfyxGraph.Core AfyxGraph.Runtime
open AfyxGraph.UiServer (js isWhite stripEnd)

/-! ## Regular expressions -/

def slash : CodeUnit := unit '/'

/-- `[=(:,)!&|?;{}\[\]+*%~^<>-]` -/
def operandPunctuation : JsString := js "=(:,)!&|?;\x7b\x7d[]+*%~^<>-"

def operandKeywords : List JsString :=
  [js "return", js "throw", js "case", js "yield", js "await", js "else", js "do", js "typeof",
    js "void", js "delete", js "new", js "in", js "of", js "instanceof"]

/-- `\bword` at the end. -/
def endsInWord (word text : JsString) : Bool :=
  word.isSuffixOf text && !(text.take (text.length - word.length)).getLast?.any isWordUnit

/-- What stands before a slash lets an operand follow. -/
def operandDue (before : JsString) : Bool :=
  let text := stripEnd isWhite before
  text.isEmpty || text.getLast?.any operandPunctuation.contains ||
    operandKeywords.any (endsInWord · text)

/-- Where the loop over a regular expression stops. -/
def regexEnd (src : JsString) (inClass : Bool) (i : Nat) : Nat :=
  if i < src.length ∧ src[i]? ≠ some newline then
    if src[i]? = some backslash then regexEnd src inClass (i + 2)
    else if src[i]? = some slash ∧ inClass = false then i
    else
      regexEnd src
        (if src[i]? = some (unit '[') then true else if src[i]? = some (unit ']') then false
          else inClass)
        (i + 1)
  else i
termination_by src.length - i

/-! ## The loop -/

inductive Token where
  | regex
  | literal (quote : CodeUnit)
  deriving DecidableEq

/-- From behind a quote: where the loop stops, and what it has blanked. -/
def blankQuoted (src : JsString) (quote : CodeUnit) (i : Nat) (out : JsString) : Nat × JsString :=
  if i < src.length ∧ src[i]? ≠ some quote then
    if src[i]? = some backslash ∧ i + 1 < src.length then
      blankQuoted src quote (i + 2) (put (put out i (unit ' ')) (i + 1) (unit ' '))
    else if src[i]? = some newline then
      if quote = backtick then blankQuoted src quote (i + 1) out else (i, out)
    else blankQuoted src quote (i + 1) (put out i (unit ' '))
  else (i, out)
termination_by src.length - i

def Token.stop (t : Token) (src : JsString) (i : Nat) : Nat :=
  match t with
  | .regex => regexEnd src false (i + 1) + 1
  | .literal quote =>
      let j := (blankQuoted src quote (i + 1) src).1
      if src[j]? = some quote then j + 1 else j

def stringReader : Reader CodeUnit Token Unit where
  branch _ src i :=
    if src[i]? = some slash ∧ operandDue ((src.take i).drop (i - 32)) = true ∧
        src[regexEnd src false (i + 1)]? = some slash then some .regex
    else [double, single, backtick].findSome? fun quote =>
      if src[i]? = some quote then some (.literal quote) else none
  stop := Token.stop
  edit t src i out :=
    match t with
    | .regex => out
    | .literal quote => (blankQuoted src quote (i + 1) out).2
  after _ _ _ := ()

def blankStringContents (text : JsString) : Option JsString :=
  stringReader.run text text.length () 0 text

example : blankStringContents (js "f('a/b', /'/) / 'c'") = some (js "f('   ', /'/) / ' '") := by
  decide +kernel

/-! ## Strings and regular expressions -/

/-- Inside a regular expression, or inside a class of it. -/
inductive RegexBody : Bool → JsString → Prop
  | stop : RegexBody false []
  | escape {inClass : Bool} {c : CodeUnit} {body : JsString} (more : RegexBody inClass body) :
      RegexBody inClass (backslash :: c :: body)
  | unit {inClass : Bool} {c : CodeUnit} {body : JsString} (hnewline : c ≠ newline)
      (hback : c ≠ backslash) (hslash : c = slash → inClass = true)
      (more : RegexBody (if c = unit '[' then true else if c = unit ']' then false else inClass)
        body) : RegexBody inClass (c :: body)

/-- The end of a literal; a template goes over lines. -/
def endsLiteral (quote : CodeUnit) (rest : JsString) : Bool :=
  rest.head? = some quote || (quote ≠ backtick && rest.head? = some newline)

def Token.Reads (f : Token) (t rest : JsString) : Prop :=
  match f with
  | .regex => ∃ body, t = slash :: (body ++ [slash]) ∧ RegexBody false body
  | .literal quote => quote ∈ [double, single, backtick] ∧ ∃ body tail,
      t = quote :: (body ++ tail) ∧ Body true (endsLiteral quote) body (tail ++ rest) ∧
        (tail = [quote] ∨ tail = [] ∧ rest.head? ≠ some quote)

/-- The inside of a literal in blanks, up to the closing quote; `escaped` says that a backslash
stands before. -/
def blankInside (quote : CodeUnit) : (escaped : Bool) → JsString → JsString
  | _, [] => []
  | true, _ :: rest => unit ' ' :: blankInside quote false rest
  | false, c :: rest =>
      if c = backslash then unit ' ' :: blankInside quote true rest
      else if c = quote then c :: rest
      else blankOf (some c) :: blankInside quote false rest

def stringGrammar : Grammar CodeUnit Token where
  reads := Token.Reads
  paint f t :=
    match f, t with
    | .literal quote, c :: inner => c :: blankInside quote false inner
    | _, t => t

variable {quote : CodeUnit} {before body tail rest t inner : JsString}

theorem length_blankInside (quote : CodeUnit) (escaped : Bool) (inner : JsString) :
    (blankInside quote escaped inner).length = inner.length := by
  induction inner generalizing escaped with
  | nil => cases escaped <;> rfl
  | cons c rest ih =>
      cases escaped with
      | true => rw [blankInside, List.length_cons, List.length_cons, ih]
      | false =>
          rw [blankInside]
          split
          · rw [List.length_cons, List.length_cons, ih]
          · split
            · rfl
            · rw [List.length_cons, List.length_cons, ih]

/-! ## What the loops do -/

theorem regexEnd_of_body {inClass : Bool} (h : RegexBody inClass body) (before rest : JsString) :
    regexEnd (before ++ (body ++ slash :: rest)) inClass before.length =
      before.length + body.length := by
  induction h generalizing before with
  | stop =>
      have hunit : (before ++ ([] ++ slash :: rest))[before.length]? = some slash := by simp
      rw [regexEnd, hunit, if_pos ⟨by simp, by decide⟩, if_neg (by decide), if_pos ⟨rfl, rfl⟩]
      rfl
  | @escape inClass c body more ih =>
      have hmore := ih (before ++ [backslash, c])
      have htext : before ++ [backslash, c] ++ (body ++ slash :: rest) =
          before ++ (backslash :: c :: body ++ slash :: rest) := by
        simp
      have hunit : (before ++ (backslash :: c :: body ++ slash :: rest))[before.length]? =
          some backslash := by
        simp
      rw [htext, List.length_append] at hmore
      rw [regexEnd, hunit, if_pos ⟨by simp, by decide⟩, if_pos rfl]
      refine hmore.trans ?_
      simp only [List.length_cons, List.length_nil]
      omega
  | @unit inClass c body hnewline hback hslash more ih =>
      have hmore := ih (before ++ [c])
      have htext : before ++ [c] ++ (body ++ slash :: rest) =
          before ++ (c :: body ++ slash :: rest) := by
        simp
      have hunit : (before ++ (c :: body ++ slash :: rest))[before.length]? = some c := by simp
      rw [htext, List.length_append] at hmore
      have hstop : ¬ (c = slash ∧ inClass = false) := by
        rintro ⟨hc, hclass⟩
        rw [hslash hc] at hclass
        cases hclass
      rw [regexEnd, hunit, if_pos ⟨by simp, by simpa using hnewline⟩, if_neg (by simpa using hback),
        if_neg (by simpa using hstop)]
      simp only [Option.some.injEq]
      refine hmore.trans ?_
      simp only [List.length_cons, List.length_nil]
      omega

/-- What the loop over a regular expression goes over, when it finds the closing slash. -/
theorem exists_regexBody {inClass : Bool} (before rest : JsString)
    (h : (before ++ rest)[regexEnd (before ++ rest) inClass before.length]? = some slash) :
    ∃ body after, rest = body ++ slash :: after ∧ RegexBody inClass body := by
  induction hlen : rest.length using Nat.strongRecOn generalizing inClass before rest with
  | _ len ih =>
      subst hlen
      cases rest with
      | nil =>
          rw [regexEnd, if_neg (by simp)] at h
          simp at h
      | cons c rest =>
          have hunit : (before ++ c :: rest)[before.length]? = some c := by simp
          have hin : before.length < (before ++ c :: rest).length := by simp
          rw [regexEnd, hunit] at h
          by_cases hnewline : c = newline
          · rw [if_neg (by simp [hnewline]), hunit, hnewline] at h
            exact absurd h (by decide)
          · rw [if_pos ⟨hin, by simpa using hnewline⟩] at h
            by_cases hback : c = backslash
            · rw [if_pos (by rw [hback])] at h
              cases rest with
              | nil =>
                  rw [regexEnd, if_neg (by simp)] at h
                  simp at h
              | cons d rest =>
                  have hshort : rest.length < (c :: d :: rest).length := by
                    simp only [List.length_cons]
                    omega
                  have htext : before ++ c :: d :: rest = before ++ [c, d] ++ rest := by simp
                  have hindex : before.length + 2 = (before ++ [c, d]).length := by simp
                  rw [htext, hindex] at h
                  obtain ⟨body, after, rfl, hbody⟩ := ih _ hshort (before ++ [c, d]) rest h rfl
                  exact ⟨c :: d :: body, after, rfl, hback ▸ .escape hbody⟩
            · rw [if_neg (by simpa using hback)] at h
              by_cases hslash : c = slash ∧ inClass = false
              · obtain ⟨rfl, rfl⟩ := hslash
                exact ⟨[], rest, rfl, .stop⟩
              · rw [if_neg (by simpa using hslash)] at h
                have htext : before ++ c :: rest = before ++ [c] ++ rest := by simp
                have hindex : before.length + 1 = (before ++ [c]).length := by simp
                rw [htext, hindex] at h
                obtain ⟨body, after, rfl, hbody⟩ :=
                  ih _ (Nat.lt_succ_self _) (before ++ [c]) rest h rfl
                refine ⟨c :: body, after, rfl, .unit hnewline hback ?_ ?_⟩
                · intro hc
                  by_contra hclass
                  exact hslash ⟨hc, by simpa using hclass⟩
                · simpa only [Option.some.injEq] using hbody

theorem blankQuoted_of_body (h : Body true (endsLiteral quote) body rest) (before : JsString)
    (done : JsString) (hdone : done.length = before.length) :
    blankQuoted (before ++ (body ++ rest)) quote before.length (done ++ (body ++ rest)) =
      (before.length + body.length, done ++ (blankInside quote false body ++ rest)) := by
  induction h generalizing before done with
  | @stop rest h =>
      have hunit : (before ++ ([] ++ rest))[before.length]? = rest.head? := by
        rw [List.nil_append, List.getElem?_append_right (Nat.le_refl _), Nat.sub_self,
          List.head?_eq_getElem?]
      rw [blankQuoted, hunit]
      by_cases hquote : rest.head? = some quote
      · rw [if_neg fun h => h.2 hquote]
        rfl
      · rcases h with rfl | h
        · rw [if_neg (by simp)]
          rfl
        · simp only [endsLiteral, hquote, decide_false, Bool.false_or, Bool.and_eq_true,
            decide_eq_true_eq, ne_eq] at h
          have hin : before.length < (before ++ ([] ++ rest)).length := by
            cases rest with
            | nil => cases h.2
            | cons c rest => simp
          rw [if_pos ⟨hin, hquote⟩, h.2, if_neg fun h => absurd h.1 (by decide), if_pos rfl,
            if_neg (by simpa using h.1)]
          rfl
  | @escape body rest c hescapes hends more ih =>
      have hmore := ih (before ++ [backslash, c]) (done ++ [unit ' ', unit ' ']) (by simp [hdone])
      have hunit : (before ++ (backslash :: c :: body ++ rest))[before.length]? =
          some backslash := by
        simp
      have hquote : backslash ≠ quote := by
        rintro rfl
        simp [endsLiteral] at hends
      have hput : put (put (done ++ (backslash :: c :: body ++ rest)) before.length (unit ' '))
          (before.length + 1) (unit ' ') = done ++ [unit ' ', unit ' '] ++ (body ++ rest) := by
        have hfirst : put (done ++ backslash :: c :: (body ++ rest)) before.length (unit ' ') =
            done ++ unit ' ' :: c :: (body ++ rest) :=
          put_at backslash (unit ' ') hdone
        have hsecond : put (done ++ [unit ' '] ++ c :: (body ++ rest))
            (before ++ [backslash]).length (unit ' ') =
              done ++ [unit ' '] ++ unit ' ' :: (body ++ rest) :=
          put_at c (unit ' ') (by simp [hdone])
        simp only [List.cons_append, List.append_assoc, List.nil_append, List.length_append,
          List.length_cons, List.length_nil] at hfirst hsecond ⊢
        rw [hfirst]
        exact hsecond
      rw [blankQuoted, hunit, if_pos ⟨by simp, by simpa using hquote⟩, if_pos ⟨rfl, by simp⟩, hput]
      have htext : before ++ [backslash, c] ++ (body ++ rest) =
          before ++ (backslash :: c :: body ++ rest) := by
        simp
      rw [htext] at hmore
      simp only [List.length_append, List.length_cons, List.length_nil] at hmore
      rw [show before.length + 2 = before.length + (0 + 1 + 1) from rfl, hmore]
      simp [blankInside]
      omega
  | @unit body rest c hends hescapes more ih =>
      have hunit : (before ++ (c :: body ++ rest))[before.length]? = some c := by simp
      have hquote : c ≠ quote := by
        rintro rfl
        simp [endsLiteral] at hends
      have hmore := ih (before ++ [c]) (done ++ [blankOf (some c)]) (by simp [hdone])
      have htext : before ++ [c] ++ (body ++ rest) = before ++ (c :: body ++ rest) := by simp
      rw [htext, List.length_append, List.length_singleton, List.append_assoc,
        List.singleton_append] at hmore
      have hinside : blankInside quote false (c :: body) =
          blankOf (some c) :: blankInside quote false body := by
        by_cases hback : c = backslash
        · obtain ⟨rfl, -⟩ := List.append_eq_nil_iff.mp (hescapes rfl hback)
          simp only [blankInside, if_pos hback]
          rw [hback]
          rfl
        · rw [blankInside, if_neg hback, if_neg hquote]
      have hescape : ¬ (some c = some backslash ∧
          before.length + 1 < (before ++ (c :: body ++ rest)).length) := by
        rintro ⟨hc, hin⟩
        rw [List.cons_append, hescapes rfl (Option.some.inj hc)] at hin
        simp at hin
      rw [blankQuoted, hunit, if_pos ⟨by simp, by simpa using hquote⟩, if_neg hescape, hinside]
      simp only [List.length_cons, List.cons_append, ← Nat.add_assoc,
        Nat.add_right_comm _ body.length 1]
      by_cases hnewline : c = newline
      · have hback : quote = backtick := by
          by_contra hne
          simp [endsLiteral, hne, hnewline] at hends
        rw [hnewline] at hmore ⊢
        rw [if_pos rfl, if_pos hback]
        exact hmore.trans (by simp)
      · have hblank : blankOf (some c) = unit ' ' := if_neg (by simpa using hnewline)
        rw [if_neg (by simpa using hnewline), put_at _ _ hdone]
        rw [hblank] at hmore ⊢
        exact hmore.trans (by simp)

theorem blankInside_append (hquote : quote ≠ backslash)
    (h : Body true (endsLiteral quote) body (tail ++ rest)) (htail : tail = [quote] ∨ tail = []) :
    blankInside quote false (body ++ tail) = blankInside quote false body ++ tail := by
  generalize hafter : tail ++ rest = after at h
  induction h with
  | stop =>
      rcases htail with rfl | rfl
      · simp [blankInside, hquote]
      · rfl
  | escape _ _ _ ih =>
      simp only [List.cons_append, blankInside, if_true]
      rw [ih hafter]
  | @unit body after c hends hescapes more ih =>
      have hc : c ≠ quote := by
        rintro rfl
        simp [endsLiteral] at hends
      by_cases hback : c = backslash
      · obtain ⟨rfl, rfl⟩ := List.append_eq_nil_iff.mp (hescapes rfl hback)
        obtain ⟨rfl, -⟩ := List.append_eq_nil_iff.mp hafter
        simp
      · simp only [List.cons_append, blankInside, if_neg hback, if_neg hc]
        rw [ih hafter]

/-! ## The scanner -/

theorem quote_of_branch {src : JsString} {i : Nat}
    (h : stringReader.branch () src i = some (.literal quote)) :
    quote ∈ [double, single, backtick] ∧ src[i]? = some quote := by
  unfold stringReader at h
  simp only at h
  split at h
  · cases h
  · obtain ⟨q, hq, heq⟩ := List.exists_of_findSome?_eq_some h
    obtain ⟨hunit, heq⟩ := Option.ite_none_right_eq_some.mp heq
    cases heq
    exact ⟨hq, hunit⟩

theorem regex_of_branch {src : JsString} {i : Nat}
    (h : stringReader.branch () src i = some .regex) :
    src[i]? = some slash ∧ src[regexEnd src false (i + 1)]? = some slash := by
  unfold stringReader at h
  simp only at h
  split at h
  next hregex => exact ⟨hregex.1, hregex.2.2⟩
  · obtain ⟨q, -, heq⟩ := List.exists_of_findSome?_eq_some h
    cases (Option.ite_none_right_eq_some.mp heq).2

theorem exists_of_getElem? {c : CodeUnit} (h : (before ++ rest)[before.length]? = some c) :
    ∃ text, rest = c :: text := by
  rw [List.getElem?_append_right (Nat.le_refl _), Nat.sub_self] at h
  cases rest with
  | nil => cases h
  | cons d text =>
      cases h
      exact ⟨text, rfl⟩

/-- The loop from behind the opening quote. -/
theorem blankQuoted_behind (h : Body true (endsLiteral quote) body rest) (before : JsString)
    (done : JsString) (hdone : done.length = before.length) :
    blankQuoted (before ++ quote :: (body ++ rest)) quote (before.length + 1)
        (done ++ quote :: (body ++ rest)) =
      (before.length + 1 + body.length,
        done ++ quote :: (blankInside quote false body ++ rest)) := by
  have hblank := blankQuoted_of_body h (before ++ [quote]) (done ++ [quote]) (by simp [hdone])
  simpa using hblank

theorem stringReader_agrees : Agrees stringReader stringGrammar where
  exists_reads := by
    rintro ⟨⟩ before f rest - hbranch
    cases f with
    | regex =>
        obtain ⟨hunit, hclose⟩ := regex_of_branch hbranch
        obtain ⟨text, rfl⟩ := exists_of_getElem? hunit
        have htext : before ++ slash :: text = before ++ [slash] ++ text := by simp
        have hindex : before.length + 1 = (before ++ [slash]).length := by simp
        rw [htext, hindex] at hclose
        obtain ⟨body, after, rfl, hbody⟩ := exists_regexBody _ _ hclose
        exact ⟨slash :: (body ++ [slash]), after, by simp, List.cons_ne_nil _ _, body, rfl, hbody⟩
    | literal quote =>
        obtain ⟨hquote, hunit⟩ := quote_of_branch hbranch
        obtain ⟨text, rfl⟩ := exists_of_getElem? hunit
        obtain ⟨body, rest, rfl, hbody⟩ := exists_body true (endsLiteral quote) text
        by_cases hclose : rest.head? = some quote
        · obtain ⟨after, rfl⟩ := List.head?_eq_some_iff.mp hclose
          exact ⟨quote :: (body ++ [quote]), after, by simp, List.cons_ne_nil _ _, hquote, body,
            [quote], rfl, hbody, .inl rfl⟩
        · exact ⟨quote :: (body ++ []), rest, by simp, List.cons_ne_nil _ _, hquote, body, [], rfl,
            hbody, .inr ⟨rfl, hclose⟩⟩
  stop_eq := by
    rintro ⟨⟩ before t rest f - - hreads
    left
    cases f with
    | regex =>
        obtain ⟨body, rfl, hbody⟩ := hreads
        have hend := regexEnd_of_body hbody (before ++ [slash]) rest
        have htext : before ++ (slash :: (body ++ [slash]) ++ rest) =
            before ++ [slash] ++ (body ++ slash :: rest) := by
          simp
        have hindex : before.length + 1 = (before ++ [slash]).length := by simp
        show regexEnd _ false (before.length + 1) + 1 = _
        rw [htext, hindex, hend]
        simp
        omega
    | literal quote =>
        obtain ⟨-, body, tail, rfl, hbody, htail⟩ := hreads
        have hblank := blankQuoted_behind hbody before before rfl
        have htext : before ++ (quote :: (body ++ tail) ++ rest) =
            before ++ quote :: (body ++ (tail ++ rest)) := by
          simp
        have hnext : (before ++ quote :: (body ++ (tail ++ rest)))[
            before.length + 1 + body.length]? = (tail ++ rest).head? := by
          have hat := getElem?_at (before ++ quote :: body) (tail ++ rest) 0
          rw [List.head?_eq_getElem?]
          simpa [Nat.add_assoc, Nat.add_comm 1] using hat
        show (if _ then _ else _) = _
        rw [htext, hblank]
        simp only
        rw [hnext]
        rcases htail with rfl | ⟨rfl, hnot⟩
        · rw [if_pos (show ([quote] ++ rest).head? = some quote from rfl)]
          simp
          omega
        · rw [List.nil_append, if_neg hnot]
          simp
          omega
  edit_eq := by
    rintro ⟨⟩ before t rest f - - hreads done hdone
    cases f with
    | regex =>
        obtain ⟨body, rfl, -⟩ := hreads
        rfl
    | literal quote =>
        obtain ⟨hquote, body, tail, rfl, hbody, htail⟩ := hreads
        have hback : quote ≠ backslash := by
          rintro rfl
          exact absurd hquote (by decide)
        have hblank := blankQuoted_behind hbody before done hdone
        have hinside := blankInside_append hback hbody (htail.imp_right And.left)
        show (blankQuoted _ quote (before.length + 1) _).2 =
          done ++ (quote :: blankInside quote false (body ++ tail) ++ rest)
        simp only [List.cons_append, List.append_assoc] at hblank ⊢
        rw [hblank, hinside, List.append_assoc]
  length_paint := by
    intro f t
    cases f with
    | regex => rfl
    | literal quote =>
        cases t with
        | nil => rfl
        | cons c inner =>
            show (c :: blankInside quote false inner).length = _
            rw [List.length_cons, List.length_cons, length_blankInside]

end AfyxGraph.Resolution.Comments
