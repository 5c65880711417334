import AfyxGraph.Core.Entries

/-! # JSON values and the built-in `JSON`

A text is a list of UTF-16 code units. An object is its own entries in the order in which
they were first set. Numbers are a parameter: what `Number` and `JSON.stringify` do with a
finite number, `0` and `-0` being one.
-/

namespace AfyxGraph.Runtime

abbrev CodeUnit := UInt16

abbrev JsString := List CodeUnit

instance : LawfulBEq JsString := List.instLawfulBEq

def unit (c : Char) : CodeUnit := c.val.toUInt16

inductive Json (ν : Type) where
  | null
  | bool (value : Bool)
  | number (value : ν)
  | string (value : JsString)
  | array (items : List (Json ν))
  | object (entries : List (JsString × Json ν))

/-! ## Numbers -/

def isDigit (c : CodeUnit) : Bool := unit '0' ≤ c && c ≤ unit '9'

/-- `\w` -/
def isWordUnit (c : CodeUnit) : Bool :=
  isDigit c || (unit 'a' ≤ c && c ≤ unit 'z') || (unit 'A' ≤ c && c ≤ unit 'Z') || c = unit '_'

/-- `\d+$` -/
def isDigits (raw : JsString) : Bool := !raw.isEmpty && raw.all isDigit

/-- `(?:[eE][+-]?\d+)?$` -/
def isExponentPart : JsString → Bool
  | [] => true
  | c :: rest =>
      (c = unit 'e' || c = unit 'E') &&
        match rest with
        | [] => false
        | sign :: digits =>
            if sign = unit '+' || sign = unit '-' then isDigits digits else isDigits rest

/-- `(?:\.\d+)?(?:[eE][+-]?\d+)?$` -/
def isFractionPart : JsString → Bool
  | [] => true
  | c :: rest =>
      if c = unit '.' then
        !(rest.takeWhile isDigit).isEmpty && isExponentPart (rest.dropWhile isDigit)
      else isExponentPart (c :: rest)

/-- `^(?:0|[1-9]\d*)(?:\.\d+)?(?:[eE][+-]?\d+)?$` -/
def isUnsignedLiteral : JsString → Bool
  | [] => false
  | c :: rest =>
      if c = unit '0' then isFractionPart rest
      else isDigit c && isFractionPart (rest.dropWhile isDigit)

/-- `/^-?(?:0|[1-9]\d*)(?:\.\d+)?(?:[eE][+-]?\d+)?$/` -/
def isNumberLiteral : JsString → Bool
  | [] => false
  | c :: rest => if c = unit '-' then isUnsignedLiteral rest else isUnsignedLiteral (c :: rest)

structure NumberFormat (ν : Type) where
  /-- `Number(raw)`, if it is finite. -/
  ofLiteral : JsString → Option ν
  /-- `JSON.stringify(value)`. -/
  toLiteral : ν → JsString
  isNumberLiteral_toLiteral : ∀ value, isNumberLiteral (toLiteral value) = true
  ofLiteral_toLiteral : ∀ value, ofLiteral (toLiteral value) = some value

/-! ## Strings -/

def hexDigit (value : Nat) : CodeUnit :=
  if value < 10 then unit '0' + value.toUInt16 else unit 'a' + (value - 10).toUInt16

def hexValue (c : CodeUnit) : Option Nat :=
  if isDigit c then some (c - unit '0').toNat
  else if unit 'a' ≤ c && c ≤ unit 'f' then some ((c - unit 'a').toNat + 10)
  else if unit 'A' ≤ c && c ≤ unit 'F' then some ((c - unit 'A').toNat + 10)
  else none

/-- The unit an escape of two characters stands for. -/
def unescape (c : CodeUnit) : Option CodeUnit :=
  if c = unit '"' || c = unit '\\' || c = unit '/' then some c
  else if c = unit 'b' then some 8
  else if c = unit 'f' then some 12
  else if c = unit 'n' then some 10
  else if c = unit 'r' then some 13
  else if c = unit 't' then some 9
  else none

/-- `JSON.parse` on what stands between the quotes of a string. -/
def parseStringBody : JsString → Option JsString
  | [] => some []
  | c :: rest =>
      if c = unit '\\' then
        match rest with
        | [] => none
        | e :: rest =>
            if e = unit 'u' then
              match rest with
              | a :: b :: c :: d :: rest => do
                  let a ← hexValue a
                  let b ← hexValue b
                  let c ← hexValue c
                  let d ← hexValue d
                  let value ← parseStringBody rest
                  some ((((a * 16 + b) * 16 + c) * 16 + d).toUInt16 :: value)
              | _ => none
            else do
              let u ← unescape e
              let value ← parseStringBody rest
              some (u :: value)
      else if c = unit '"' || c < 32 then none
      else (parseStringBody rest).map (c :: ·)

def isLeadSurrogate (c : CodeUnit) : Bool := 0xD800 ≤ c && c ≤ 0xDBFF

def isTrailSurrogate (c : CodeUnit) : Bool := 0xDC00 ≤ c && c ≤ 0xDFFF

def escapeUnit (c : CodeUnit) : JsString :=
  [unit '\\', unit 'u', hexDigit (c.toNat / 4096), hexDigit (c.toNat / 256 % 16),
    hexDigit (c.toNat / 16 % 16), hexDigit (c.toNat % 16)]

/-- A unit that is not half of a surrogate pair. -/
def quoteUnit (c : CodeUnit) : JsString :=
  if c = unit '"' || c = unit '\\' then [unit '\\', c]
  else if c = 8 then [unit '\\', unit 'b']
  else if c = 12 then [unit '\\', unit 'f']
  else if c = 10 then [unit '\\', unit 'n']
  else if c = 13 then [unit '\\', unit 'r']
  else if c = 9 then [unit '\\', unit 't']
  else if c < 32 || isLeadSurrogate c || isTrailSurrogate c then escapeUnit c
  else [c]

/-- `paired`: the unit before is the first of a pair. -/
def quoteUnits (paired : Bool) : JsString → JsString
  | [] => []
  | c :: rest =>
      if paired then c :: quoteUnits false rest
      else if isLeadSurrogate c && rest.head?.any isTrailSurrogate then c :: quoteUnits true rest
      else quoteUnit c ++ quoteUnits false rest

def quote (value : JsString) : JsString := unit '"' :: (quoteUnits false value ++ [unit '"'])

/-! ## `JSON.stringify` -/

def trueWord : JsString := [unit 't', unit 'r', unit 'u', unit 'e']
def falseWord : JsString := [unit 'f', unit 'a', unit 'l', unit 's', unit 'e']
def nullWord : JsString := [unit 'n', unit 'u', unit 'l', unit 'l']

variable {ν : Type} (numbers : NumberFormat ν) (gap : JsString)

mutual

/-- `JSON.stringify(value, null, gap)` with a gap that is not empty, at an indent. -/
def stringify (indent : JsString) : Json ν → JsString
  | .null => nullWord
  | .bool value => if value then trueWord else falseWord
  | .number value => numbers.toLiteral value
  | .string value => quote value
  | .array [] => [unit '[', unit ']']
  | .array (item :: items) =>
      unit '[' :: unit '\n' :: ((indent ++ gap) ++ stringify (indent ++ gap) item ++
        stringifyItems (indent ++ gap) items ++ unit '\n' :: (indent ++ [unit ']']))
  | .object [] => [unit '{', unit '}']
  | .object ((key, value) :: entries) =>
      unit '{' :: unit '\n' :: ((indent ++ gap) ++ quote key ++ unit ':' :: unit ' ' ::
        (stringify (indent ++ gap) value ++ stringifyEntries (indent ++ gap) entries ++
          unit '\n' :: (indent ++ [unit '}'])))

def stringifyItems (indent : JsString) : List (Json ν) → JsString
  | [] => []
  | item :: items =>
      unit ',' :: unit '\n' :: (indent ++ stringify indent item ++ stringifyItems indent items)

def stringifyEntries (indent : JsString) : List (JsString × Json ν) → JsString
  | [] => []
  | (key, value) :: entries =>
      unit ',' :: unit '\n' :: (indent ++ quote key ++ unit ':' :: unit ' ' ::
        (stringify indent value ++ stringifyEntries indent entries))

end

/-! ## Values of the language -/

mutual

/-- An object has each key once. -/
def Json.Distinct : Json ν → Prop
  | .array items => distinctItems items
  | .object entries => (entries.map Prod.fst).Nodup ∧ distinctEntries entries
  | _ => True

def distinctItems : List (Json ν) → Prop
  | [] => True
  | item :: items => item.Distinct ∧ distinctItems items

def distinctEntries : List (JsString × Json ν) → Prop
  | [] => True
  | (_, value) :: entries => value.Distinct ∧ distinctEntries entries

end

/-- The values a program has, as opposed to the lists that represent them. -/
def JsonValue (ν : Type) := { value : Json ν // value.Distinct }

end AfyxGraph.Runtime
