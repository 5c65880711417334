import AfyxGraph.Runtime.JsoncPrint
import AfyxGraph.Runtime.Utf16

/-! # The built-in `JSON.parse`

It takes no comments and no trailing commas, and a key that comes again replaces the value it
had. What `JSON.stringify` writes, blanks around it or not, is read back: `parseJson_stringify`.
-/

namespace AfyxGraph.Runtime

open AfyxGraph.Core

/-- What the language does with the numbers of a file. -/
structure Numbers (ν : Type) where
  /-- The value of a number in JSON; one that is too large is infinite. -/
  ofLiteral : JsString → ν
  ofNat : Nat → ν
  /-- `value > 0` -/
  isPositive : ν → Bool
  /-- `Math.floor(value)` -/
  floor : ν → ν
  ofLiteral_decimal : ∀ n, ofLiteral ((Text.ofNat n).map unit) = ofNat n
  isPositive_ofNat : ∀ n, isPositive (ofNat n) = decide (0 < n)
  floor_ofNat : ∀ n, floor (ofNat n) = ofNat n

/-! ## Parser -/

def isJsonSpace (c : CodeUnit) : Bool :=
  c = unit ' ' || c = unit '\t' || c = unit '\n' || c = unit '\r'

def skipSpace (s : JsString) : JsString := s.dropWhile isJsonSpace

/-- A string whose opening quote is read. -/
def readString (s : JsString) : Option (JsString × JsString) :=
  match scanString false s with
  | .error _ => none
  | .ok (body, rest) => (parseStringBody body).map fun value => (value, rest)

variable {ν : Type} (ofLiteral : JsString → ν)

def readNumber (s : JsString) : Option (Json ν × JsString) :=
  let raw := s.takeWhile isNumberUnit
  if isNumberLiteral raw then some (.number (ofLiteral raw), s.dropWhile isNumberUnit) else none

mutual

/-- The fuel bounds how deep the calls nest. -/
def readValue : Nat → JsString → Option (Json ν × JsString)
  | 0, _ => none
  | fuel + 1, s =>
      match skipSpace s with
      | [] => none
      | c :: rest =>
          if c = unit '[' then
            if (skipSpace rest).head? = some (unit ']') then
              some (.array [], (skipSpace rest).tail)
            else (readItems fuel rest).map fun (items, rest) => (.array items, rest)
          else if c = unit '{' then
            if (skipSpace rest).head? = some (unit '}') then
              some (.object [], (skipSpace rest).tail)
            else (readMembers fuel [] rest).map fun (entries, rest) => (.object entries, rest)
          else if c = unit '"' then
            (readString rest).map fun (value, rest) => (.string value, rest)
          else if c = unit '-' || isDigit c then readNumber ofLiteral (c :: rest)
          else (literalAt (c :: rest)).map fun (word, value) =>
            (value, (c :: rest).drop word.length)

/-- The items of an array up to its closing bracket. -/
def readItems : Nat → JsString → Option (List (Json ν) × JsString)
  | 0, _ => none
  | fuel + 1, s =>
      match readValue fuel s with
      | none => none
      | some (item, rest) =>
          match skipSpace rest with
          | [] => none
          | c :: rest =>
              if c = unit ',' then
                (readItems fuel rest).map fun (items, rest) => (item :: items, rest)
              else if c = unit ']' then some ([item], rest)
              else none

/-- The members of an object up to its closing brace, behind the entries read so far. -/
def readMembers : Nat → List (JsString × Json ν) → JsString →
    Option (List (JsString × Json ν) × JsString)
  | 0, _, _ => none
  | fuel + 1, entries, s =>
      match skipSpace s with
      | [] => none
      | c :: rest =>
          if c = unit '"' then
            match readString rest with
            | none => none
            | some (key, rest) =>
                match skipSpace rest with
                | [] => none
                | c :: rest =>
                    if c = unit ':' then
                      match readValue fuel rest with
                      | none => none
                      | some (value, rest) =>
                          match skipSpace rest with
                          | [] => none
                          | c :: rest =>
                              if c = unit ',' then
                                readMembers fuel (setEntry entries key value) rest
                              else if c = unit '}' then some (setEntry entries key value, rest)
                              else none
                    else none
          else none

end

/-- `JSON.parse(text)`. Two calls nest at most for each unit of the text. -/
def parseJson (text : JsString) : Option (Json ν) :=
  match readValue ofLiteral (2 * text.length + 1) text with
  | none => none
  | some (value, rest) => if skipSpace rest = [] then some value else none

/-! ## What is written -/

mutual

/-- The value with other numbers. -/
def Json.mapNumbers {μ : Type} (f : μ → ν) : Json μ → Json ν
  | .null => .null
  | .bool value => .bool value
  | .number value => .number (f value)
  | .string value => .string value
  | .array items => .array (mapItems f items)
  | .object entries => .object (mapEntries f entries)

def mapItems {μ : Type} (f : μ → ν) : List (Json μ) → List (Json ν)
  | [] => []
  | item :: items => item.mapNumbers f :: mapItems f items

def mapEntries {μ : Type} (f : μ → ν) : List (JsString × Json μ) → List (JsString × Json ν)
  | [] => []
  | (key, value) :: entries => (key, value.mapNumbers f) :: mapEntries f entries

end

mutual

/-- The calls the parser nests on the text of the value. -/
def Json.size : Json ν → Nat
  | .array items => itemsSize items + 1
  | .object entries => entriesSize entries + 1
  | _ => 1

def itemsSize : List (Json ν) → Nat
  | [] => 0
  | item :: items => item.size + itemsSize items + 1

def entriesSize : List (JsString × Json ν) → Nat
  | [] => 0
  | (_, value) :: entries => value.size + entriesSize entries + 1

end

/-! ## Blanks -/

def Spaces (x : JsString) : Prop := ∀ c ∈ x, isJsonSpace c = true

section Blanks

variable {x s : JsString} {c : CodeUnit}

theorem spaces_nil : Spaces [] := nofun

theorem Spaces.append {y : JsString} (hx : Spaces x) (hy : Spaces y) : Spaces (x ++ y) := by
  intro c hc
  rcases List.mem_append.mp hc with hc | hc
  · exact hx c hc
  · exact hy c hc

theorem Spaces.lineFeed (hx : Spaces x) : Spaces (unit '\n' :: x) := by
  intro c hc
  rcases List.mem_cons.mp hc with rfl | hc
  · decide
  · exact hx c hc

theorem isNumberUnit_of_isJsonSpace (h : isJsonSpace c = true) : isNumberUnit c = false := by
  simp only [isJsonSpace, Bool.or_eq_true, decide_eq_true_eq] at h
  rcases h with ((rfl | rfl) | rfl) | rfl <;> decide

theorem Spaces.delimited (hx : Spaces x) (hs : Delimited s) : Delimited (x ++ s) := by
  cases x with
  | nil => exact hs
  | cons c x => exact delimited_cons (isNumberUnit_of_isJsonSpace (hx c (List.mem_cons_self ..)))

theorem skipSpace_append (hx : Spaces x) (hc : isJsonSpace c = false) :
    skipSpace (x ++ c :: s) = c :: s := by
  rw [skipSpace, List.dropWhile_append_of_pos hx, List.dropWhile_cons, hc]
  rfl

end Blanks

/-! ## Values -/

section Values

variable {ofLiteral : JsString → ν} {fuel : Nat} {x rest : JsString}

theorem readString_quote (value rest : JsString) :
    readString (quoteUnits false value ++ unit '"' :: rest) = some (value, rest) := by
  obtain ⟨hscans, hparses, -⟩ := quotes_units value false (by simp)
  have hscan := hscans (unit '"' :: rest) [] rest rfl
  rw [List.append_nil] at hscan
  rw [readString, hscan]
  simp only [hparses, Option.map_some]

theorem readValue_string (hx : Spaces x) (value : JsString) :
    readValue ofLiteral (fuel + 1) (x ++ (quote value ++ rest)) = some (.string value, rest) := by
  have htext : quote value ++ rest = unit '"' :: (quoteUnits false value ++ unit '"' :: rest) := by
    simp [quote]
  rw [htext, readValue, skipSpace_append hx (by decide)]
  dsimp only
  rw [if_neg (by decide), if_neg (by decide), if_pos rfl, readString_quote]
  rfl

theorem readValue_number {raw : JsString} (hx : Spaces x) (hraw : isNumberLiteral raw = true)
    (hrest : Delimited rest) :
    readValue ofLiteral (fuel + 1) (x ++ (raw ++ rest)) = some (.number (ofLiteral raw), rest) := by
  obtain ⟨c, tail, rfl, hstart, htail⟩ := units_of_numberLiteral hraw
  have hunit : isNumberUnit c = true := by
    rcases hstart with rfl | hdigit
    · decide
    · exact isNumberUnit_of_isDigit hdigit
  have hother : ∀ d, isNumberUnit d = false → c ≠ d := by
    rintro d hd rfl
    rw [hd] at hunit
    cases hunit
  have hspace : isJsonSpace c = false := by
    cases h : isJsonSpace c with
    | false => rfl
    | true =>
        rw [isNumberUnit_of_isJsonSpace h] at hunit
        cases hunit
  have hnumber : (c = unit '-' || isDigit c) = true := by simpa using hstart
  obtain ⟨htake, hdrop⟩ := span_delimited (List.forall_mem_cons.mpr ⟨hunit, htail⟩) hrest
  rw [List.cons_append] at htake hdrop
  rw [List.cons_append, readValue, skipSpace_append hx hspace]
  dsimp only
  rw [if_neg (hother _ (by decide)), if_neg (hother _ (by decide)),
    if_neg (hother _ (by decide)), if_pos hnumber, readNumber]
  simp only [htake, hdrop, hraw, if_true]

theorem readValue_literal {word : JsString} {value : Json ν} (hx : Spaces x)
    (h : word = trueWord ∧ value = .bool true ∨ word = falseWord ∧ value = .bool false ∨
      word = nullWord ∧ value = .null) :
    readValue ofLiteral (fuel + 1) (x ++ (word ++ rest)) = some (value, rest) := by
  rcases h with ⟨rfl, rfl⟩ | ⟨rfl, rfl⟩ | ⟨rfl, rfl⟩
  · rw [trueWord, List.cons_append, readValue, skipSpace_append hx (by decide)]
    rfl
  · rw [falseWord, List.cons_append, readValue, skipSpace_append hx (by decide)]
    rfl
  · rw [nullWord, List.cons_append, readValue, skipSpace_append hx (by decide)]
    rfl

/-- The text starts with a unit that is no blank and closes nothing. -/
def Opens (s : JsString) : Prop :=
  ∃ c t, s = c :: t ∧ isJsonSpace c = false ∧ c ≠ unit ']' ∧ c ≠ unit '}'

theorem Opens.append {s : JsString} (h : Opens s) (t : JsString) : Opens (s ++ t) := by
  obtain ⟨c, u, rfl, hc⟩ := h
  exact ⟨c, u ++ t, rfl, hc⟩

theorem opens_quote (value : JsString) : Opens (quote value) :=
  ⟨_, _, rfl, by decide, by decide, by decide⟩

theorem Opens.head? {s : JsString} (h : Opens s) (hx : Spaces x) :
    (skipSpace (x ++ s)).head? ≠ some (unit ']') ∧
      (skipSpace (x ++ s)).head? ≠ some (unit '}') := by
  obtain ⟨c, t, rfl, hspace, hbracket, hbrace⟩ := h
  rw [skipSpace_append hx hspace]
  exact ⟨fun h => hbracket (Option.some.inj h), fun h => hbrace (Option.some.inj h)⟩

theorem readValue_array {s : JsString} {items : List (Json ν)} (hx : Spaces x)
    (hs : (skipSpace s).head? ≠ some (unit ']'))
    (hitems : readItems ofLiteral fuel s = some (items, rest)) :
    readValue ofLiteral (fuel + 1) (x ++ unit '[' :: s) = some (.array items, rest) := by
  rw [readValue, skipSpace_append hx (by decide)]
  dsimp only
  rw [if_pos rfl, if_neg hs, hitems]
  rfl

theorem readValue_object {s : JsString} {entries : List (JsString × Json ν)} (hx : Spaces x)
    (hs : (skipSpace s).head? ≠ some (unit '}'))
    (hentries : readMembers ofLiteral fuel [] s = some (entries, rest)) :
    readValue ofLiteral (fuel + 1) (x ++ unit '{' :: s) = some (.object entries, rest) := by
  rw [readValue, skipSpace_append hx (by decide)]
  dsimp only
  rw [if_neg (by decide), if_pos rfl, if_neg hs, hentries]
  rfl

theorem readItems_comma {s t : JsString} {item : Json ν} {items : List (Json ν)}
    (hitem : readValue ofLiteral fuel s = some (item, unit ',' :: t))
    (hitems : readItems ofLiteral fuel t = some (items, rest)) :
    readItems ofLiteral (fuel + 1) s = some (item :: items, rest) := by
  have hskip : skipSpace (unit ',' :: t) = unit ',' :: t :=
    skipSpace_append spaces_nil (by decide)
  rw [readItems, hitem]
  simp only [hskip, if_true, hitems, Option.map_some]

theorem readItems_close {s y : JsString} {item : Json ν} (hy : Spaces y)
    (hitem : readValue ofLiteral fuel s = some (item, y ++ unit ']' :: rest)) :
    readItems ofLiteral (fuel + 1) s = some ([item], rest) := by
  have hne : unit ']' ≠ unit ',' := by decide
  rw [readItems, hitem]
  simp only [skipSpace_append hy (c := unit ']') (by decide), hne, if_false, if_true]

theorem readMembers_comma {s t : JsString} {entries all : List (JsString × Json ν)}
    {value : Json ν} (hx : Spaces x) (key : JsString)
    (hvalue : readValue ofLiteral fuel s = some (value, unit ',' :: t))
    (hmembers : readMembers ofLiteral fuel (setEntry entries key value) t = some (all, rest)) :
    readMembers ofLiteral (fuel + 1) entries (x ++ (quote key ++ unit ':' :: s)) =
      some (all, rest) := by
  have htext : quote key ++ unit ':' :: s =
      unit '"' :: (quoteUnits false key ++ unit '"' :: unit ':' :: s) := by
    simp [quote]
  have hcolon : skipSpace (unit ':' :: s) = unit ':' :: s :=
    skipSpace_append spaces_nil (by decide)
  have hskip : skipSpace (unit ',' :: t) = unit ',' :: t :=
    skipSpace_append spaces_nil (by decide)
  rw [htext, readMembers, skipSpace_append hx (by decide)]
  simp only [if_true, readString_quote, hcolon, hvalue, hskip, hmembers]

theorem readMembers_close {s y : JsString} {entries : List (JsString × Json ν)} {value : Json ν}
    (hx : Spaces x) (hy : Spaces y) (key : JsString)
    (hvalue : readValue ofLiteral fuel s = some (value, y ++ unit '}' :: rest)) :
    readMembers ofLiteral (fuel + 1) entries (x ++ (quote key ++ unit ':' :: s)) =
      some (setEntry entries key value, rest) := by
  have htext : quote key ++ unit ':' :: s =
      unit '"' :: (quoteUnits false key ++ unit '"' :: unit ':' :: s) := by
    simp [quote]
  have hcolon : skipSpace (unit ':' :: s) = unit ':' :: s :=
    skipSpace_append spaces_nil (by decide)
  have hne : unit '}' ≠ unit ',' := by decide
  rw [htext, readMembers, skipSpace_append hx (by decide)]
  simp only [if_true, readString_quote, hcolon, hvalue, skipSpace_append hy (c := unit '}')
    (by decide), hne, if_false]

end Values

/-! ## Round trip -/

section RoundTrip

variable {μ : Type} {format : NumberFormat μ} {gap : JsString} {ofLiteral : JsString → ν}
  {f : μ → ν}

theorem opens_stringify (v : Json μ) (indent : JsString) :
    Opens (stringify format gap indent v) := by
  cases v with
  | null => exact ⟨_, _, rfl, by decide, by decide, by decide⟩
  | bool value => cases value <;> exact ⟨_, _, rfl, by decide, by decide, by decide⟩
  | number value =>
      obtain ⟨c, tail, heq, hstart, -⟩ :=
        units_of_numberLiteral (format.isNumberLiteral_toLiteral value)
      have hunit : isNumberUnit c = true := by
        rcases hstart with rfl | hdigit
        · decide
        · exact isNumberUnit_of_isDigit hdigit
      have hother : ∀ d, isNumberUnit d = false → c ≠ d := by
        rintro d hd rfl
        rw [hd] at hunit
        cases hunit
      refine ⟨c, tail, by rw [stringify, heq], ?_, hother _ (by decide), hother _ (by decide)⟩
      cases h : isJsonSpace c with
      | false => rfl
      | true =>
          rw [isNumberUnit_of_isJsonSpace h] at hunit
          cases hunit
  | string value => exact opens_quote value
  | array items => cases items <;> exact ⟨_, _, rfl, by decide, by decide, by decide⟩
  | object entries =>
      cases entries with
      | nil => exact ⟨_, _, rfl, by decide, by decide, by decide⟩
      | cons entry entries => exact ⟨_, _, rfl, by decide, by decide, by decide⟩

theorem delimited_lineFeed (s : JsString) : Delimited (unit '\n' :: s) := by
  apply delimited_cons
  decide

variable (hgap : Spaces gap) (hnumbers : ∀ n, ofLiteral (format.toLiteral n) = f n)

include hgap hnumbers

mutual

theorem readValue_stringify : ∀ (v : Json μ) {n : Nat} {x i r : JsString},
    v.Distinct → Spaces x → Spaces i → v.size ≤ n → Delimited r →
    readValue ofLiteral n (x ++ (stringify format gap i v ++ r)) = some (v.mapNumbers f, r)
  | .null, fuel + 1, _, _, _, _, hx, _, _, _ =>
      readValue_literal hx (Or.inr (Or.inr ⟨rfl, rfl⟩))
  | .bool true, fuel + 1, _, _, _, _, hx, _, _, _ => readValue_literal hx (Or.inl ⟨rfl, rfl⟩)
  | .bool false, fuel + 1, _, _, _, _, hx, _, _, _ =>
      readValue_literal hx (Or.inr (Or.inl ⟨rfl, rfl⟩))
  | .number value, fuel + 1, _, _, _, _, hx, _, _, hrest => by
      rw [Json.mapNumbers, ← hnumbers value]
      exact readValue_number hx (format.isNumberLiteral_toLiteral value) hrest
  | .string value, fuel + 1, _, _, _, _, hx, _, _, _ => readValue_string hx value
  | .array [], fuel + 1, x, indent, rest, _, hx, _, _, _ => by
      have hclose : skipSpace (unit ']' :: rest) = unit ']' :: rest :=
        skipSpace_append spaces_nil (by decide)
      rw [stringify, List.cons_append, readValue, skipSpace_append hx (by decide)]
      dsimp only [List.cons_append, List.nil_append]
      rw [if_pos rfl, hclose]
      rfl
  | .array (item :: items), fuel + 1, x, indent, rest, hv, hx, hindent, hfuel, _ => by
      have hlead : Spaces (unit '\n' :: (indent ++ gap)) := (hindent.append hgap).lineFeed
      have hread := readItems_stringify item items (n := fuel) (r := rest) hv hlead
        (hindent.append hgap) hindent (by simp only [Json.size] at hfuel; omega)
      have htext : stringify format gap indent (.array (item :: items)) ++ rest =
          unit '[' :: ((unit '\n' :: (indent ++ gap)) ++
            (stringify format gap (indent ++ gap) item ++
              (stringifyItems format gap (indent ++ gap) items ++
                unit '\n' :: (indent ++ unit ']' :: rest)))) := by
        simp [stringify]
      rw [htext]
      exact readValue_array hx
        (((opens_stringify item (indent ++ gap)).append _).head? hlead).1 hread
  | .object [], fuel + 1, x, indent, rest, _, hx, _, _, _ => by
      have hclose : skipSpace (unit '}' :: rest) = unit '}' :: rest :=
        skipSpace_append spaces_nil (by decide)
      rw [stringify, List.cons_append, readValue, skipSpace_append hx (by decide)]
      dsimp only [List.cons_append, List.nil_append]
      rw [if_neg (by decide), if_pos rfl, hclose]
      rfl
  | .object ((key, value) :: entries), fuel + 1, x, indent, rest, hv, hx, hindent, hfuel, _ => by
      have hlead : Spaces (unit '\n' :: (indent ++ gap)) := (hindent.append hgap).lineFeed
      have hread := readMembers_stringify key value entries (n := fuel) (r := rest)
        (b := []) hv.2 (by simpa using hv.1) (by simp) hlead (hindent.append hgap) hindent
        (by simp only [Json.size] at hfuel; omega)
      have htext : stringify format gap indent (.object ((key, value) :: entries)) ++ rest =
          unit '{' :: ((unit '\n' :: (indent ++ gap)) ++ (quote key ++ unit ':' ::
            ([unit ' '] ++ (stringify format gap (indent ++ gap) value ++
              (stringifyEntries format gap (indent ++ gap) entries ++
                unit '\n' :: (indent ++ unit '}' :: rest)))))) := by
        simp [stringify]
      rw [htext]
      exact readValue_object hx (((opens_quote key).append _).head? hlead).2 hread
  | v, 0, _, _, _, _, _, _, hfuel, _ => absurd hfuel (by cases v <;> simp [Json.size])

theorem readItems_stringify : ∀ (item : Json μ) (items : List (Json μ)) {n : Nat}
    {x i y r : JsString}, distinctItems (item :: items) → Spaces x → Spaces i →
    Spaces y → itemsSize (item :: items) ≤ n →
    readItems ofLiteral n (x ++ (stringify format gap i item ++
      (stringifyItems format gap i items ++ unit '\n' :: (y ++ unit ']' :: r)))) =
      some (mapItems f (item :: items), r)
  | item, [], fuel + 1, x, indent, close, rest, hv, hx, hindent, hclose, hfuel => by
      apply readItems_close hclose.lineFeed
      rw [stringifyItems, List.nil_append]
      apply readValue_stringify item hv.1 hx hindent
      · simp only [itemsSize] at hfuel
        omega
      · exact delimited_lineFeed _
  | item, next :: items, fuel + 1, x, indent, close, rest, hv, hx, hindent, hclose, hfuel => by
      have hrest := readItems_stringify next items (n := fuel) (r := rest) hv.2
        hindent.lineFeed hindent hclose (by simp only [itemsSize] at hfuel ⊢; omega)
      have htext : stringifyItems format gap indent (next :: items) ++
            unit '\n' :: (close ++ unit ']' :: rest) =
          unit ',' :: ((unit '\n' :: indent) ++ (stringify format gap indent next ++
            (stringifyItems format gap indent items ++
              unit '\n' :: (close ++ unit ']' :: rest)))) := by
        simp [stringifyItems]
      rw [htext]
      apply readItems_comma _ hrest
      apply readValue_stringify item hv.1 hx hindent
      · simp only [itemsSize] at hfuel
        omega
      · exact delimited_cons (by decide)
  | _, _, 0, _, _, _, _, _, _, _, _, hfuel => absurd hfuel (by simp [itemsSize])

theorem readMembers_stringify : ∀ (key : JsString) (value : Json μ)
    (entries : List (JsString × Json μ)) {n : Nat} {x i y r : JsString}
    {b : List (JsString × Json ν)}, distinctEntries ((key, value) :: entries) →
    (((key, value) :: entries).map Prod.fst).Nodup →
    (∀ other ∈ ((key, value) :: entries).map Prod.fst, other ∉ b.map Prod.fst) →
    Spaces x → Spaces i → Spaces y → entriesSize ((key, value) :: entries) ≤ n →
    readMembers ofLiteral n b (x ++ (quote key ++ unit ':' :: ([unit ' '] ++
      (stringify format gap i value ++ (stringifyEntries format gap i entries ++
        unit '\n' :: (y ++ unit '}' :: r)))))) =
      some (b ++ mapEntries f ((key, value) :: entries), r)
  | key, value, [], fuel + 1, x, indent, close, rest, before, hv, _, hnew, hx, hindent, hclose,
      hfuel => by
      have hblank : Spaces [unit ' '] := by
        intro c hc
        obtain rfl := List.mem_singleton.mp hc
        decide
      have hread := readValue_stringify value (n := fuel) (x := [unit ' ']) (i := indent)
        (r := unit '\n' :: (close ++ unit '}' :: rest)) hv.1 hblank hindent
        (by simp only [entriesSize] at hfuel; omega) (delimited_lineFeed _)
      rw [stringifyEntries, List.nil_append, readMembers_close hx hclose.lineFeed key hread,
        setEntry_of_not_mem _ (hnew key (by simp)), mapEntries, mapEntries]
  | key, value, (next, nextValue) :: entries, fuel + 1, x, indent, close, rest, before, hv, hnodup,
      hnew, hx, hindent, hclose, hfuel => by
      have hblank : Spaces [unit ' '] := by
        intro c hc
        obtain rfl := List.mem_singleton.mp hc
        decide
      rw [List.map_cons, List.nodup_cons] at hnodup
      have hnew' : ∀ other ∈ ((next, nextValue) :: entries).map Prod.fst,
          other ∉ (before ++ [(key, value.mapNumbers f)]).map Prod.fst := by
        intro other hother
        have hne : other ≠ key := fun h => hnodup.1 (h ▸ hother)
        have hold := hnew other (List.mem_cons_of_mem _ hother)
        simp [hne, hold]
      have hrest := readMembers_stringify next nextValue entries (n := fuel) (r := rest)
        hv.2 hnodup.2 hnew' hindent.lineFeed hindent hclose
        (by simp only [entriesSize] at hfuel ⊢; omega)
      have htext : stringifyEntries format gap indent ((next, nextValue) :: entries) ++
            unit '\n' :: (close ++ unit '}' :: rest) =
          unit ',' :: ((unit '\n' :: indent) ++ (quote next ++ unit ':' :: ([unit ' '] ++
            (stringify format gap indent nextValue ++
              (stringifyEntries format gap indent entries ++
                unit '\n' :: (close ++ unit '}' :: rest)))))) := by
        simp [stringifyEntries]
      have hread := readValue_stringify value (n := fuel) (x := [unit ' ']) (i := indent)
        (r := stringifyEntries format gap indent ((next, nextValue) :: entries) ++
          unit '\n' :: (close ++ unit '}' :: rest)) hv.1 hblank hindent
        (by simp only [entriesSize] at hfuel; omega)
        (by rw [htext]; exact delimited_cons (by decide))
      rw [htext] at hread ⊢
      rw [← setEntry_of_not_mem _ (hnew key (by simp))] at hrest
      rw [readMembers_comma hx key hread hrest, setEntry_of_not_mem _ (hnew key (by simp))]
      simp [mapEntries]
  | _, _, _, 0, _, _, _, _, _, _, _, _, _, _, _, hfuel => absurd hfuel (by simp [entriesSize])

end

omit hgap hnumbers

mutual

theorem Json.size_le : ∀ (v : Json μ) (indent : JsString),
    v.size + 1 ≤ 2 * (stringify format gap indent v).length
  | .null, _ => by simp [Json.size, stringify, nullWord]
  | .bool true, _ => by simp [Json.size, stringify, trueWord]
  | .bool false, _ => by simp [Json.size, stringify, falseWord]
  | .number value, indent => by
      obtain ⟨c, tail, heq, -⟩ :=
        units_of_numberLiteral (format.isNumberLiteral_toLiteral value)
      simp only [Json.size, stringify, heq, List.length_cons]
      omega
  | .string value, _ => by
      simp only [Json.size, stringify, quote, List.length_cons, List.length_append]
      omega
  | .array [], _ => by simp [Json.size, itemsSize, stringify]
  | .array (item :: items), indent => by
      have hitem := item.size_le (indent ++ gap)
      have hitems := itemsSize_le items (indent ++ gap)
      simp only [Json.size, itemsSize, stringify, List.length_cons, List.length_append]
      omega
  | .object [], _ => by simp [Json.size, entriesSize, stringify]
  | .object ((key, value) :: entries), indent => by
      have hvalue := value.size_le (indent ++ gap)
      have hentries := entriesSize_le entries (indent ++ gap)
      simp only [Json.size, entriesSize, stringify, List.length_cons, List.length_append]
      omega

theorem itemsSize_le : ∀ (items : List (Json μ)) (indent : JsString),
    itemsSize items ≤ 2 * (stringifyItems format gap indent items).length
  | [], _ => Nat.zero_le _
  | item :: items, indent => by
      have hitem := item.size_le indent
      have hitems := itemsSize_le items indent
      simp only [itemsSize, stringifyItems, List.length_cons, List.length_append]
      omega

theorem entriesSize_le : ∀ (entries : List (JsString × Json μ)) (indent : JsString),
    entriesSize entries ≤ 2 * (stringifyEntries format gap indent entries).length
  | [], _ => Nat.zero_le _
  | (key, value) :: entries, indent => by
      have hvalue := value.size_le indent
      have hentries := entriesSize_le entries indent
      simp only [entriesSize, stringifyEntries, List.length_cons, List.length_append]
      omega

end

/-- A value that is written, with blanks behind it, is read back. -/
theorem parseJson_stringify (hgap : Spaces gap)
    (hnumbers : ∀ n, ofLiteral (format.toLiteral n) = f n) {v : Json μ} (hv : v.Distinct)
    {x : JsString} (hx : Spaces x) :
    parseJson ofLiteral (stringify format gap [] v ++ x) = some (v.mapNumbers f) := by
  have hfuel : v.size ≤ 2 * (stringify format gap [] v ++ x).length + 1 := by
    have hsize : v.size + 1 ≤ 2 * (stringify format gap [] v).length := v.size_le []
    rw [List.length_append]
    omega
  have hdelimited : Delimited x := List.append_nil x ▸ hx.delimited delimited_nil
  have hread := readValue_stringify hgap hnumbers v hv spaces_nil spaces_nil hfuel hdelimited
  rw [List.nil_append] at hread
  have hskip : skipSpace x = [] := List.dropWhile_eq_nil_iff.mpr hx
  rw [parseJson, hread]
  simp only [hskip, if_true]

end RoundTrip

/-! ## Characters of the text -/

section Characters

variable {μ : Type} {format : NumberFormat μ} {gap : JsString}

theorem isSurrogate_of_lt {c : CodeUnit} (h : c < 0xD800) : isSurrogate c = false := by
  simp only [isSurrogate, isLeadSurrogate, isTrailSurrogate, Bool.or_eq_false_iff,
    Bool.and_eq_false_iff, decide_eq_false_iff_not, UInt16.le_iff_toNat_le,
    UInt16.lt_iff_toNat_lt, UInt16.reduceToNat] at h ⊢
  omega

theorem isSurrogate_of_isNumberUnit {c : CodeUnit} (h : isNumberUnit c = true) :
    isSurrogate c = false := by
  apply isSurrogate_of_lt
  simp only [isNumberUnit, isDigit, Bool.or_eq_true, Bool.and_eq_true, decide_eq_true_eq] at h
  rcases h with ((((hdigit | rfl) | rfl) | rfl) | rfl) | rfl
  · exact UInt16.lt_of_le_of_lt hdigit.2 (by decide)
  all_goals decide

theorem wellFormed_spaces {x : JsString} (hx : Spaces x) : WellFormed x := by
  apply wellFormed_of_forall
  intro c hc
  have hspace := hx c hc
  simp only [isJsonSpace, Bool.or_eq_true, decide_eq_true_eq] at hspace
  rcases hspace with ((rfl | rfl) | rfl) | rfl <;> decide

theorem wellFormed_quoteUnit {c : CodeUnit} : WellFormed (quoteUnit c) := by
  have hescape : ∀ d < 16, isSurrogate (hexDigit d) = false := by decide
  have hbound := c.toNat_lt
  unfold quoteUnit
  split
  · rename_i h
    simp only [Bool.or_eq_true, decide_eq_true_eq] at h
    rcases h with rfl | rfl <;> exact wellFormed_of_all (by decide)
  · split
    · exact wellFormed_of_all (by decide)
    · split
      · exact wellFormed_of_all (by decide)
      · split
        · exact wellFormed_of_all (by decide)
        · split
          · exact wellFormed_of_all (by decide)
          · split
            · exact wellFormed_of_all (by decide)
            · split
              · apply WellFormed.unit (by decide)
                apply WellFormed.unit (by decide)
                apply WellFormed.unit (hescape _ (by omega))
                apply WellFormed.unit (hescape _ (by omega))
                apply WellFormed.unit (hescape _ (by omega))
                exact WellFormed.unit (hescape _ (by omega)) WellFormed.nil
              · rename_i hsurrogate
                apply WellFormed.unit _ WellFormed.nil
                simp only [Bool.or_eq_true, not_or, Bool.not_eq_true] at hsurrogate
                rw [isSurrogate, hsurrogate.1.2, hsurrogate.2]
                rfl

/-- Pairs are kept and what is half of one is escaped. -/
theorem wellFormed_quoteUnits (value : JsString) :
    WellFormed (quoteUnits false value) ∧ ∀ c d rest, isLeadSurrogate c = true →
      isTrailSurrogate d = true → value = d :: rest →
        WellFormed (c :: quoteUnits true value) := by
  induction value with
  | nil => exact ⟨WellFormed.nil, nofun⟩
  | cons u value ih =>
      refine ⟨?_, ?_⟩
      · rw [quoteUnits, if_neg Bool.false_ne_true]
        split
        · rename_i hlead
          simp only [Bool.and_eq_true] at hlead
          cases value with
          | nil => simp at hlead
          | cons d rest => exact ih.2 u d rest hlead.1 (by simpa using hlead.2) rfl
        · exact wellFormed_quoteUnit.append ih.1
      · intro c d rest hc hd heq
        obtain ⟨rfl, rfl⟩ := List.cons.inj heq
        rw [quoteUnits, if_pos rfl]
        exact WellFormed.pair hc hd ih.1

theorem wellFormed_quote (value : JsString) : WellFormed (quote value) := by
  apply WellFormed.unit (by decide)
  exact (wellFormed_quoteUnits value).1.append (wellFormed_of_all (by decide))

variable (hgap : Spaces gap)

include hgap

mutual

theorem wellFormed_stringify : ∀ (v : Json μ) {indent : JsString}, Spaces indent →
    WellFormed (stringify format gap indent v)
  | .null, _, _ => wellFormed_of_all (s := nullWord) (by decide)
  | .bool true, _, _ => wellFormed_of_all (s := trueWord) (by decide)
  | .bool false, _, _ => wellFormed_of_all (s := falseWord) (by decide)
  | .number value, _, _ => by
      obtain ⟨c, tail, heq, hstart, htail⟩ :=
        units_of_numberLiteral (format.isNumberLiteral_toLiteral value)
      rw [stringify, heq]
      have hhead : isNumberUnit c = true := by
        rcases hstart with rfl | hdigit
        · decide
        · exact isNumberUnit_of_isDigit hdigit
      have hall : ∀ d ∈ c :: tail, isNumberUnit d = true :=
        List.forall_mem_cons.mpr ⟨hhead, htail⟩
      apply wellFormed_of_forall
      exact fun d hd => isSurrogate_of_isNumberUnit (hall d hd)
  | .string value, _, _ => wellFormed_quote value
  | .array [], _, _ => wellFormed_of_all (s := [unit '[', unit ']']) (by decide)
  | .array (item :: items), indent, hindent => by
      have hnext := hindent.append hgap
      rw [stringify]
      apply WellFormed.unit (by decide)
      apply WellFormed.unit (by decide)
      apply ((wellFormed_spaces hnext).append (wellFormed_stringify item hnext)).append
        (wellFormed_stringifyItems items hnext) |>.append
      apply WellFormed.unit (by decide)
      exact (wellFormed_spaces hindent).append (wellFormed_of_all (by decide))
  | .object [], _, _ => wellFormed_of_all (s := [unit '{', unit '}']) (by decide)
  | .object ((key, value) :: entries), indent, hindent => by
      have hnext := hindent.append hgap
      rw [stringify]
      apply WellFormed.unit (by decide)
      apply WellFormed.unit (by decide)
      apply ((wellFormed_spaces hnext).append (wellFormed_quote key)).append
      apply WellFormed.unit (by decide)
      apply WellFormed.unit (by decide)
      apply ((wellFormed_stringify value hnext).append
        (wellFormed_stringifyEntries entries hnext)).append
      apply WellFormed.unit (by decide)
      exact (wellFormed_spaces hindent).append (wellFormed_of_all (by decide))

theorem wellFormed_stringifyItems : ∀ (items : List (Json μ)) {indent : JsString}, Spaces indent →
    WellFormed (stringifyItems format gap indent items)
  | [], _, _ => WellFormed.nil
  | item :: items, indent, hindent => by
      rw [stringifyItems]
      apply WellFormed.unit (by decide)
      apply WellFormed.unit (by decide)
      exact ((wellFormed_spaces hindent).append (wellFormed_stringify item hindent)).append
        (wellFormed_stringifyItems items hindent)

theorem wellFormed_stringifyEntries : ∀ (entries : List (JsString × Json μ)) {indent : JsString},
    Spaces indent → WellFormed (stringifyEntries format gap indent entries)
  | [], _, _ => WellFormed.nil
  | (key, value) :: entries, indent, hindent => by
      rw [stringifyEntries]
      apply WellFormed.unit (by decide)
      apply WellFormed.unit (by decide)
      apply ((wellFormed_spaces hindent).append (wellFormed_quote key)).append
      apply WellFormed.unit (by decide)
      apply WellFormed.unit (by decide)
      exact (wellFormed_stringify value hindent).append
        (wellFormed_stringifyEntries entries hindent)

end

end Characters

/-! ## Whole numbers -/

theorem isDigit_unit {c : Char} (h : c.isDigit = true) : isDigit (unit c) = true := by
  have hrange : 48 ≤ c.toNat ∧ c.toNat ≤ 57 := by
    simp only [Char.isDigit, Bool.and_eq_true, decide_eq_true_eq] at h
    exact ⟨h.1, h.2⟩
  have hall : ∀ n < 58, 48 ≤ n → isDigit (unit (Char.ofNat n)) = true := by decide
  have hc := hall c.toNat (by omega) hrange.1
  rwa [Char.ofNat_toNat] at hc

theorem head_ofNat {n : Nat} (hn : 0 < n) : (Text.ofNat n).head? ≠ some '0' := by
  induction n using Nat.strongRecOn with
  | _ n ih =>
      rw [Text.ofNat, Nat.toDigits_eq_if (by decide)]
      split
      · rename_i hlt
        have hall : ∀ d < 10, 0 < d → Nat.digitChar d ≠ '0' := by decide
        intro h
        exact hall n hlt hn (Option.some.inj h)
      · rename_i hge
        have hfront := ih (n / 10) (by omega) (by omega)
        rw [Text.ofNat] at hfront
        rw [List.head?_append_of_ne_nil _ Nat.toDigits_ne_nil]
        exact hfront

theorem isDigits_decimal (n : Nat) : isDigits ((Text.ofNat n).map unit) = true := by
  have hne : Text.ofNat n ≠ [] := Nat.toDigits_ne_nil
  simp only [isDigits, Bool.and_eq_true, Bool.not_eq_true', List.isEmpty_eq_false_iff, ne_eq,
    List.map_eq_nil_iff, List.all_map, List.all_eq_true]
  exact ⟨hne, fun c hc => isDigit_unit (Text.isDigit_of_mem_ofNat hc)⟩

theorem isNumberLiteral_decimal (n : Nat) :
    isNumberLiteral ((Text.ofNat n).map unit) = true := by
  cases h : Text.ofNat n with
  | nil => exact absurd h Nat.toDigits_ne_nil
  | cons c cs =>
      have hdigits := isDigits_decimal n
      simp only [h, isDigits, List.map_cons, Bool.and_eq_true, List.all_cons] at hdigits
      have hminus : unit c ≠ unit '-' := by
        intro heq
        rw [heq] at hdigits
        exact absurd hdigits.2.1 (by decide)
      have htail : (cs.map unit).dropWhile isDigit = [] :=
        List.dropWhile_eq_nil_iff.mpr (List.all_eq_true.mp hdigits.2.2)
      rw [List.map_cons, isNumberLiteral, if_neg hminus, isUnsignedLiteral]
      split
      · rename_i hzero
        rcases Nat.eq_zero_or_pos n with rfl | hn
        · obtain rfl : cs = [] := (List.cons.inj h).2.symm
          rfl
        · have hc : c = '0' := by
            have hdigit : c.isDigit = true :=
              Text.isDigit_of_mem_ofNat (h ▸ List.mem_cons_self ..)
            have hrange : 48 ≤ c.toNat ∧ c.toNat ≤ 57 := by
              simp only [Char.isDigit, Bool.and_eq_true, decide_eq_true_eq] at hdigit
              exact ⟨hdigit.1, hdigit.2⟩
            have hall : ∀ m < 58, 48 ≤ m → unit (Char.ofNat m) = unit '0' →
                Char.ofNat m = '0' := by decide
            have hchar := hall c.toNat (by omega) hrange.1
            rw [Char.ofNat_toNat] at hchar
            exact hchar hzero
          have hhead := head_ofNat hn
          rw [h, hc] at hhead
          exact absurd rfl hhead
      · rw [hdigits.2.1, htail]
        rfl

/-- The numbers that are counted with. -/
def wholeNumbers : NumberFormat Nat where
  ofLiteral raw :=
    if isDigits raw then some (Text.decimal (raw.map fun c => Char.ofNat c.toNat)) else none
  toLiteral n := (Text.ofNat n).map unit
  isNumberLiteral_toLiteral := isNumberLiteral_decimal
  ofLiteral_toLiteral n := by
    have hchars : ((Text.ofNat n).map unit).map (fun c => Char.ofNat c.toNat) = Text.ofNat n := by
      rw [List.map_map]
      apply List.map_congr_left _ |>.trans (List.map_id _)
      intro c hc
      have hdigit := Text.isDigit_of_mem_ofNat hc
      have hrange : 48 ≤ c.toNat ∧ c.toNat ≤ 57 := by
        simp only [Char.isDigit, Bool.and_eq_true, decide_eq_true_eq] at hdigit
        exact ⟨hdigit.1, hdigit.2⟩
      have hall : ∀ m < 58, Char.ofNat (unit (Char.ofNat m)).toNat = Char.ofNat m := by decide
      have hchar := hall c.toNat (by omega)
      rwa [Char.ofNat_toNat] at hchar
    rw [isDigits_decimal, if_pos rfl, hchars, Text.decimal_ofNat]

end AfyxGraph.Runtime
