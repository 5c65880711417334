import AfyxGraph.Runtime.Json
import Mathlib.Data.List.DropRight

/-! # The JSONC reader and editor

The scanner keeps its offset and the text from there on. The parser keeps the scanner and
the token after what it has read; its fuel bounds the depth of the calls.
-/

namespace AfyxGraph.Runtime

open AfyxGraph.Core

variable {ν : Type}

inductive TokenKind where
  | openBrace
  | closeBrace
  | openBracket
  | closeBracket
  | colon
  | comma
  | string
  | number
  | literal
  | eof
  deriving DecidableEq, Repr

def TokenKind.text : TokenKind → String
  | .openBrace => "\x7b"
  | .closeBrace => "\x7d"
  | .openBracket => "["
  | .closeBracket => "]"
  | .colon => ":"
  | .comma => ","
  | .string => "string"
  | .number => "number"
  | .literal => "literal"
  | .eof => "eof"

structure Token (ν : Type) where
  kind : TokenKind
  start : Nat
  stop : Nat
  value : Option (Json ν)

inductive NodeType where
  | object
  | array
  | value
  deriving DecidableEq, Repr

structure JsonProperty (ν node : Type) where
  key : JsString
  start : Nat
  stop : Nat
  value : node
  commaAfter : Option (Token ν)
  commaBefore : Option (Token ν)

/-- `inherits`: the value, if it is an object, inherits the accessor `__proto__`. -/
inductive JsonNode (ν : Type) where
  | mk (type : NodeType) (start stop : Nat) (value : Json ν) (inherits : Bool)
      (properties : List (JsonProperty ν (JsonNode ν)))

namespace JsonNode

def type : JsonNode ν → NodeType | .mk type _ _ _ _ _ => type
def start : JsonNode ν → Nat | .mk _ start _ _ _ _ => start
def stop : JsonNode ν → Nat | .mk _ _ stop _ _ _ => stop
def value : JsonNode ν → Json ν | .mk _ _ _ value _ _ => value
def inherits : JsonNode ν → Bool | .mk _ _ _ _ inherits _ => inherits
def properties : JsonNode ν → List (JsonProperty ν (JsonNode ν))
  | .mk _ _ _ _ _ properties => properties

end JsonNode

/-! ## Scanner -/

/-- `/\s/` -/
def isSpace (c : CodeUnit) : Bool :=
  (9 ≤ c && c ≤ 13) || c = 32 || c = 0xA0 || c = 0x1680 || (0x2000 ≤ c && c ≤ 0x200A) ||
    c = 0x2028 || c = 0x2029 || c = 0x202F || c = 0x205F || c = 0x3000 || c = 0xFEFF

/-- `/[\r\n]/` -/
def isLineBreak (c : CodeUnit) : Bool := c = unit '\r' || c = unit '\n'

/-- `/[0-9eE+\-.]/` -/
def isNumberUnit (c : CodeUnit) : Bool :=
  isDigit c || c = unit 'e' || c = unit 'E' || c = unit '+' || c = unit '-' || c = unit '.'

/-- Where `skipTrivia` is: between tokens, behind a slash, in a comment, or behind a star in a
block comment. -/
inductive TriviaMode where
  | code
  | slash
  | line
  | block
  | star
  deriving DecidableEq, Repr

/-- The text from the first character that is not trivia. The line break that ends a comment
is skipped with it. -/
def skipTrivia : TriviaMode → JsString → Except String JsString
  | .code, [] => .ok []
  | .code, c :: rest =>
      if isSpace c then skipTrivia .code rest
      else if c = unit '/' then skipTrivia .slash rest
      else .ok (c :: rest)
  | .slash, [] => .ok [unit '/']
  | .slash, c :: rest =>
      if c = unit '/' then skipTrivia .line rest
      else if c = unit '*' then skipTrivia .block rest
      else .ok (unit '/' :: c :: rest)
  | .line, [] => .ok []
  | .line, c :: rest => if isLineBreak c then skipTrivia .code rest else skipTrivia .line rest
  | .block, [] => .error "unterminated block comment"
  | .block, c :: rest => if c = unit '*' then skipTrivia .star rest else skipTrivia .block rest
  | .star, [] => .error "unterminated block comment"
  | .star, c :: rest =>
      if c = unit '/' then skipTrivia .code rest
      else if c = unit '*' then skipTrivia .star rest
      else skipTrivia .block rest

/-- What stands before the closing quote of a string, and what after it. -/
def scanString (escaped : Bool) : JsString → Except String (JsString × JsString)
  | [] => .error "unterminated JSON string"
  | c :: rest =>
      if !escaped && c = unit '"' then .ok ([], rest)
      else if !escaped && isLineBreak c then .error "newline in JSON string"
      else do
        let (body, rest) ← scanString (!escaped && c = unit '\\') rest
        .ok (c :: body, rest)

def punctuation (c : CodeUnit) : Option TokenKind :=
  if c = unit '{' then some .openBrace
  else if c = unit '}' then some .closeBrace
  else if c = unit '[' then some .openBracket
  else if c = unit ']' then some .closeBracket
  else if c = unit ':' then some .colon
  else if c = unit ',' then some .comma
  else none

/-- The literal the text starts with. -/
def literalAt (text : JsString) : Option (JsString × Json ν) :=
  if trueWord.isPrefixOf text then some (trueWord, .bool true)
  else if falseWord.isPrefixOf text then some (falseWord, .bool false)
  else if nullWord.isPrefixOf text then some (nullWord, .null)
  else none

structure Scanner where
  offset : Nat
  rest : JsString

variable (numbers : NumberFormat ν)

/-- The token at the start of a text without trivia, and the text after it. -/
def scanToken (start : Nat) : JsString → Except String (Token ν × JsString)
  | [] => .ok (⟨.eof, start, start, none⟩, [])
  | c :: rest =>
      match punctuation c with
      | some kind => .ok (⟨kind, start, start + 1, none⟩, rest)
      | none =>
          if c = unit '"' then do
            let (body, rest) ← scanString false rest
            match parseStringBody body with
            | some value =>
                .ok (⟨.string, start, start + (body.length + 2), some (.string value)⟩, rest)
            | none => .error "invalid JSON string"
          else if c = unit '-' || isDigit c then
            let raw := c :: rest.takeWhile isNumberUnit
            match (if isNumberLiteral raw then numbers.ofLiteral raw else none) with
            | some value =>
                .ok (⟨.number, start, start + raw.length, some (.number value)⟩,
                  rest.dropWhile isNumberUnit)
            | none => .error "invalid JSON number"
          else
            match literalAt (c :: rest) with
            | some (word, value) =>
                .ok (⟨.literal, start, start + word.length, some value⟩,
                  (c :: rest).drop word.length)
            | none => .error ("unexpected token at offset " ++ toString start)

def Scanner.next (s : Scanner) : Except String (Token ν × Scanner) := do
  let rest ← skipTrivia .code s.rest
  let start := s.offset + (s.rest.length - rest.length)
  let (token, rest') ← scanToken numbers start rest
  .ok (token, ⟨token.stop, rest'⟩)

/-! ## Parser -/

/-- `__proto__` -/
def protoKey : JsString :=
  [unit '_', unit '_', unit 'p', unit 'r', unit 'o', unit 't', unit 'o', unit '_', unit '_']

/-- An object under construction. -/
structure JsObject (ν : Type) where
  entries : List (JsString × Json ν)
  inherits : Bool

/-- `value[key] = child`; the accessor `__proto__` changes the prototype instead. -/
def JsObject.assign (o : JsObject ν) (key : JsString) (child : Json ν) (childInherits : Bool) :
    JsObject ν :=
  if key = protoKey ∧ o.inherits = true then
    match child with
    | .object _ => { o with inherits := childInherits }
    | .null => { o with inherits := false }
    | _ => o
  else { o with entries := setEntry o.entries key child }

structure Parser (ν : Type) where
  scanner : Scanner
  current : Token ν

namespace Parser

def advance (scanner : Scanner) : Except String (Parser ν) := do
  let (token, scanner) ← scanner.next numbers
  .ok ⟨scanner, token⟩

def consume (p : Parser ν) (kind : TokenKind) : Except String (Token ν × Parser ν) :=
  if p.current.kind ≠ kind then
    .error ("expected " ++ kind.text ++ " at offset " ++ toString p.current.start)
  else do
    let next ← advance numbers p.scanner
    .ok (p.current, next)

def outOfFuel : String := "out of fuel"

mutual

def parseValue : Nat → Parser ν → Except String (JsonNode ν × Parser ν)
  | 0, _ => .error outOfFuel
  | fuel + 1, p =>
      match p.current.kind with
      | .openBrace => do
          let (opening, p) ← p.consume numbers .openBrace
          let (value, properties, p) ← parseProperties fuel p ⟨[], true⟩ [] none
          let (close, p) ← p.consume numbers .closeBrace
          .ok (.mk .object opening.start close.stop (.object value.entries) value.inherits
            properties, p)
      | .openBracket => do
          let (opening, p) ← p.consume numbers .openBracket
          let (items, p) ← parseItems fuel p []
          let (close, p) ← p.consume numbers .closeBracket
          .ok (.mk .array opening.start close.stop (.array items) true [], p)
      | .string | .number | .literal => do
          let next ← advance numbers p.scanner
          .ok (.mk .value p.current.start p.current.stop (p.current.value.getD .null) true [],
            next)
      | _ => .error ("expected JSON value at offset " ++ toString p.current.start)

/-- The loop of `parseObject`. -/
def parseProperties : Nat → Parser ν → JsObject ν → List (JsonProperty ν (JsonNode ν)) →
    Option (Token ν) →
    Except String (JsObject ν × List (JsonProperty ν (JsonNode ν)) × Parser ν)
  | 0, _, _, _, _ => .error outOfFuel
  | fuel + 1, p, value, properties, previousComma =>
      if p.current.kind = .closeBrace then .ok (value, properties, p)
      else if p.current.kind = .eof then .error "unterminated object"
      else do
        let (key, p) ← p.consume numbers .string
        let name := match key.value with | some (.string name) => name | _ => []
        let (_, p) ← p.consume numbers .colon
        let (child, p) ← parseValue fuel p
        let value := value.assign name child.value child.inherits
        if p.current.kind = .comma then do
          let (comma, p) ← p.consume numbers .comma
          let properties :=
            properties ++ [⟨name, key.start, child.stop, child, some comma, previousComma⟩]
          if p.current.kind = .closeBrace then .ok (value, properties, p)
          else parseProperties fuel p value properties (some comma)
        else
          .ok (value, properties ++ [⟨name, key.start, child.stop, child, none, previousComma⟩], p)

/-- The loop of `parseArray`. -/
def parseItems : Nat → Parser ν → List (Json ν) → Except String (List (Json ν) × Parser ν)
  | 0, _, _ => .error outOfFuel
  | fuel + 1, p, items =>
      if p.current.kind = .closeBracket then .ok (items, p)
      else if p.current.kind = .eof then .error "unterminated array"
      else do
        let (child, p) ← parseValue fuel p
        let items := items ++ [child.value]
        if p.current.kind = .comma then do
          let (_, p) ← p.consume numbers .comma
          if p.current.kind = .closeBracket then .ok (items, p)
          else parseItems fuel p items
        else .ok (items, p)

end

def parseDocument (fuel : Nat) (p : Parser ν) : Except String (JsonNode ν) := do
  let (node, p) ← parseValue numbers fuel p
  if p.current.kind ≠ .eof then
    .error ("unexpected content at offset " ++ toString p.current.start)
  else .ok node

end Parser

def parseNode (text : JsString) : Except String (JsonNode ν) := do
  let p ← Parser.advance numbers ⟨0, text⟩
  Parser.parseDocument numbers (2 * text.length + 1) p

def parseJsonc (text : JsString) : Option (Json ν) :=
  match parseNode numbers text with
  | .ok node => some node.value
  | .error _ => none

/-! ## Editor -/

/-- `text.slice(from, to)` -/
def slice (text : JsString) (start stop : Nat) : JsString := (text.take stop).drop start

def property (node : JsonNode ν) (key : JsString) : Option (JsonProperty ν (JsonNode ν)) :=
  if node.type = .object then node.properties.find? (·.key = key) else none

def isIndent (c : CodeUnit) : Bool := c = unit '\t' || c = unit ' '

/-- The tabs and blanks the line of an offset starts with, up to the offset. -/
def lineIndent (text : JsString) (offset : Nat) : JsString :=
  ((text.take offset).rtakeWhile (!isLineBreak ·)).takeWhile isIndent

/-- `raw.replace(/\n/g, ending)` -/
def replaceNewlines (ending raw : JsString) : JsString :=
  raw.flatMap fun c => if c = unit '\n' then ending else [c]

/-- `JSON.stringify` uses ten characters of the gap. -/
def formattedValue (value : Json ν) (childIndent indentUnit eol : JsString) : JsString :=
  replaceNewlines (eol ++ childIndent) (stringify numbers (indentUnit.take 10) [] value)

/-- A key whose value is `undefined` is not serialized. -/
def nestedValue (path : List JsString) : Option (Json ν) → Json ν
  | some value => path.foldr (fun key result => .object [(key, result)]) value
  | none => path.dropLast.foldr (fun key result => .object [(key, result)]) (.object [])

def crlf : JsString := [unit '\r', unit '\n']
def lf : JsString := [unit '\n']
def twoBlanks : JsString := [unit ' ', unit ' ']

def includesCrlf : JsString → Bool
  | [] => false
  | c :: rest => (c = unit '\r' && rest.head? = some (unit '\n')) || includesCrlf rest

/-- `text.includes('\r\n') ? '\r\n' : '\n'` -/
def eolOf (text : JsString) : JsString := if includesCrlf text then crlf else lf

def insertProperty (text : JsString) (object : JsonNode ν) (key : JsString) (value : Json ν) :
    JsString :=
  let eol := eolOf text
  let close := object.stop - 1
  let baseIndent := lineIndent text close
  let childIndent :=
    match object.properties with
    | [] => baseIndent ++ twoBlanks
    | first :: _ => lineIndent text first.start
  let indentUnit :=
    if baseIndent.isPrefixOf childIndent && baseIndent.length < childIndent.length then
      childIndent.drop baseIndent.length
    else twoBlanks
  let entry := quote key ++ [unit ':', unit ' '] ++
    formattedValue numbers value childIndent indentUnit eol
  match object.properties.getLast? with
  | none =>
      text.take close ++ (eol ++ childIndent ++ entry ++ eol ++ baseIndent) ++ text.drop close
  | some last =>
      let insertionPoint := close - baseIndent.length
      let before :=
        match last.commaAfter with
        | some _ => text.take insertionPoint
        | none => text.take last.stop ++ [unit ','] ++ slice text last.stop insertionPoint
      let separator := if eol.isSuffixOf before then [] else eol
      before ++ separator ++ (childIndent ++ entry ++ eol) ++ text.drop insertionPoint

def removeProperty (text : JsString) (entry : JsonProperty ν (JsonNode ν)) : JsString :=
  match entry.commaAfter, entry.commaBefore with
  | some comma, _ => text.take entry.start ++ text.drop comma.stop
  | none, some comma => text.take comma.start ++ text.drop entry.stop
  | none, none => text.take entry.start ++ text.drop entry.stop

def replaceValue (text : JsString) (old : JsonNode ν) (value : Json ν) : JsString :=
  text.take old.start ++
    formattedValue numbers value (lineIndent text old.start) twoBlanks (eolOf text) ++
      text.drop old.stop

/-- The loop of `updateJsoncPath`; no value removes the property. -/
def updateNode (text : JsString) (node : JsonNode ν) (value : Option (Json ν)) :
    List JsString → JsString
  | [] => text
  | key :: path =>
      match property node key with
      | none =>
          if path.isEmpty && value.isNone then text
          else insertProperty numbers text node key (nestedValue path value)
      | some entry =>
          if path.isEmpty then
            match value with
            | none => removeProperty text entry
            | some value => replaceValue numbers text entry.value value
          else if entry.value.type ≠ .object then
            match value with
            | none => text
            | some value => replaceValue numbers text entry.value (nestedValue path (some value))
          else updateNode text entry.value value path

def updateJsoncPath (text : JsString) (path : List JsString) (value : Option (Json ν)) :
    Except String JsString :=
  if path.isEmpty then .error "Afyx JSONC path must not be empty"
  else
    match parseNode numbers text with
    | .error message => .error ("Refusing to modify malformed JSONC: " ++ message)
    | .ok root =>
        if root.type ≠ .object then
          .error "Refusing to modify JSONC whose root is not an object"
        else .ok (updateNode numbers text root value path)

end AfyxGraph.Runtime
