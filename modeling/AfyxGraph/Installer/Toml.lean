import AfyxGraph.Core.Occurrences
import AfyxGraph.Core.TextParts

/-! # The table editor for TOML files

The editor puts one table into a file that the user writes, and takes it out again. It reads the
file as text: the table starts at a line that starts with its header, and ends where the next line
outside a value has the shape of a header.
-/

namespace AfyxGraph.Installer.Toml

open AfyxGraph.Core

/-! ## What the editor writes -/

inductive Value where
  | string (s : Text)
  | array (items : List Text)
  deriving DecidableEq

def escaped : Char → Text
  | '\\' => ['\\', '\\']
  | '"' => ['\\', '"']
  | c => [c]

def quoteString (s : Text) : Text := '"' :: (s.flatMap escaped ++ ['"'])

/-- `items.join(', ')` -/
def joinComma : List Text → Text
  | [] => []
  | [item] => item
  | item :: items => item ++ (',' :: ' ' :: joinComma items)

def valueText : Value → Text
  | .string s => quoteString s
  | .array items => '[' :: (joinComma (items.map quoteString) ++ [']'])

def entryLine (entry : Text × Value) : Text :=
  entry.1 ++ (' ' :: '=' :: ' ' :: valueText entry.2)

def serializeTomlTableBody (values : List (Text × Value)) : Text :=
  Text.joinWith '\n' (values.map entryLine)

def headerLine (header : Text) : Text := '[' :: (header ++ [']'])

def buildTomlTable (header : Text) (values : List (Text × Value)) : Text :=
  headerLine header ++ '\n' :: serializeTomlTableBody values

/-! ## Lines -/

inductive MultilineStringDelimiter where
  | basic
  | literal
  deriving DecidableEq

def MultilineStringDelimiter.text : MultilineStringDelimiter → Text
  | .basic => ['"', '"', '"']
  | .literal => ['\'', '\'', '\'']

structure TomlLexState where
  multilineString : Option MultilineStringDelimiter := none
  arrayDepth : Nat := 0
  inlineTableDepth : Nat := 0
  deriving DecidableEq

/-- An odd number of backslashes stands right before the position. -/
def isBackslashEscaped (line : Text) (index : Nat) : Bool :=
  ((line.take index).reverse.takeWhile (· = '\\')).length % 2 = 1

/-- The first delimiter from `from` on that no backslash takes the meaning from. -/
def findMultilineStringEnd (line : Text) («from» : Nat) (delimiter : MultilineStringDelimiter) :
    Option Nat :=
  (List.range (line.length + 1)).find? fun i =>
    «from» ≤ i && OccursAt delimiter.text line i &&
      !(delimiter = .basic && isBackslashEscaped line i)

/-- How far behind the opening quote the closing one stands; `skip` is set behind a backslash. -/
def closingQuote (quote : Char) : (skip : Bool) → Text → Option Nat
  | _, [] => none
  | true, _ :: rest => (closingQuote quote false rest).map (· + 1)
  | false, c :: rest =>
      if quote = '"' ∧ c = '\\' then (closingQuote quote true rest).map (· + 1)
      else if c = quote then some 0
      else (closingQuote quote false rest).map (· + 1)

def skipSingleLineString (line : Text) (start : Nat) (quote : Char) : Nat :=
  match closingQuote quote false (line.drop (start + 1)) with
  | some i => start + 1 + i + 1
  | none => line.length

def TomlLexState.bracket (state : TomlLexState) (ch : Char) : TomlLexState :=
  if ch = '[' then { state with arrayDepth := state.arrayDepth + 1 }
  else if ch = ']' ∧ 0 < state.arrayDepth then { state with arrayDepth := state.arrayDepth - 1 }
  else if ch = '{' then { state with inlineTableDepth := state.inlineTableDepth + 1 }
  else if ch = '}' ∧ 0 < state.inlineTableDepth then
    { state with inlineTableDepth := state.inlineTableDepth - 1 }
  else state

/-- The delimiter that a text starts with. -/
def multilineAt (rest : Text) : Option MultilineStringDelimiter :=
  if MultilineStringDelimiter.basic.text <+: rest then some .basic
  else if MultilineStringDelimiter.literal.text <+: rest then some .literal
  else none

/-- The loop of `scanTomlLine`; every turn moves on, so the length of the line is enough fuel. -/
def scanFrom (line : Text) : (fuel : Nat) → (i : Nat) → TomlLexState → TomlLexState
  | 0, _, state => state
  | fuel + 1, i, state =>
      match line.drop i with
      | [] => state
      | ch :: rest =>
          match state.multilineString with
          | some delimiter =>
              match findMultilineStringEnd line i delimiter with
              | none => state
              | some stop => scanFrom line fuel (stop + 3) { state with multilineString := none }
          | none =>
              if ch = '#' then state
              else
                match multilineAt (ch :: rest) with
                | some delimiter =>
                    scanFrom line fuel (i + 3) { state with multilineString := some delimiter }
                | none =>
                    if ch = '"' ∨ ch = '\'' then
                      scanFrom line fuel (skipSingleLineString line i ch) state
                    else scanFrom line fuel (i + 1) (state.bracket ch)

def scanTomlLine (line : Text) (state : TomlLexState) : TomlLexState :=
  scanFrom line line.length 0 state

/-! ## Headers -/

def isInlineBlank (c : Char) : Bool := c = ' ' || c = '\t'

def skipBlanks (t : Text) : Text := t.dropWhile isInlineBlank

def isBareKeyChar (c : Char) : Bool := c.isAlphanum || c = '_' || c = '-'

/-- A character that `.` stands for. -/
def isDot (c : Char) : Bool :=
  !(c = '\n' || c = '\r' || c = Char.ofNat 0x2028 || c = Char.ofNat 0x2029)

/-- The rest of a quoted key behind its opening quote. -/
def basicKeyEnd : Text → Option Text
  | [] => none
  | '"' :: rest => some rest
  | '\\' :: c :: rest => if isDot c then basicKeyEnd rest else none
  | ['\\'] => none
  | _ :: rest => basicKeyEnd rest

/-- What stands behind a `TOML_KEY_PART`. -/
def keyPart : Text → Option Text
  | [] => none
  | '"' :: rest => basicKeyEnd rest
  | '\'' :: rest =>
      match rest.dropWhile (· ≠ '\'') with
      | [] => none
      | _ :: tail => some tail
  | c :: rest => if isBareKeyChar c then some (rest.dropWhile isBareKeyChar) else none

/-- What stands behind a `TOML_DOTTED_KEY` and the blanks after it. -/
def dottedKey : (fuel : Nat) → Text → Option Text
  | 0, _ => none
  | fuel + 1, t =>
      match keyPart t with
      | none => none
      | some rest =>
          match skipBlanks rest with
          | '.' :: more => dottedKey fuel (skipBlanks more)
          | other => some other

/-- `[ \t]*(?:#.*)?\r?$` -/
def isHeaderEnd (t : Text) : Bool :=
  match skipBlanks t with
  | [] => true
  | '#' :: comment =>
      if comment.getLast? = some '\r' then comment.dropLast.all isDot else comment.all isDot
  | other => other = ['\r']

/-- `TOML_TABLE_HEADER.test(line)`; no key starts with a bracket, so a second one says which. -/
def isTomlTableHeader (line : Text) : Bool :=
  match skipBlanks line with
  | '[' :: '[' :: rest =>
      match dottedKey (rest.length + 1) (skipBlanks rest) with
      | some (']' :: ']' :: tail) => isHeaderEnd tail
      | _ => false
  | '[' :: rest =>
      match dottedKey (rest.length + 1) (skipBlanks rest) with
      | some (']' :: tail) => isHeaderEnd tail
      | _ => false
  | _ => false

/-! ## The editor -/

def TomlLexState.isTop (state : TomlLexState) : Bool :=
  state.multilineString = none && state.arrayDepth = 0 && state.inlineTableDepth = 0

/-- The loop of `findNextTableHeader` over the lines that are left. -/
def nextTableHeader : (lineStart : Nat) → (isHeaderRemainder : Bool) → TomlLexState → List Text →
    Option Nat
  | _, _, _, [] => none
  | lineStart, isHeaderRemainder, state, line :: lines =>
      if !isHeaderRemainder && state.isTop && isTomlTableHeader line then some lineStart
      else nextTableHeader (lineStart + line.length + 1) false (scanTomlLine line state) lines

def findNextTableHeader (content : Text) («from» : Nat) : Nat :=
  (nextTableHeader «from» true {} (Text.split '\n' (content.drop «from»))).getD content.length

def findHeaderIndex (content headerLine : Text) : Option Nat :=
  if headerLine <+: content then some 0
  else (indexOf content ('\n' :: headerLine)).map (· + 1)

def isNewline (c : Char) : Bool := c = '\n'

/-- `text.replace(/\n+$/, '')` -/
def stripEnd (t : Text) : Text := t.rdropWhile isNewline

/-- `text.replace(/^\n+/, '')` -/
def stripStart (t : Text) : Text := t.dropWhile isNewline

inductive UpsertAction where
  | inserted | replaced | unchanged
  deriving DecidableEq, Repr

def upsertTomlTable (fileContent header block : Text) : Text × UpsertAction :=
  match findHeaderIndex fileContent (headerLine header) with
  | none =>
      let trimmed := fileContent.trimEnd
      let sep := if 0 < trimmed.length then ['\n', '\n'] else []
      (trimmed ++ (sep ++ (block ++ ['\n'])), .inserted)
  | some headerIdx =>
      let blockEnd := findNextTableHeader fileContent (headerIdx + (headerLine header).length)
      let existingBlock := stripEnd ((fileContent.take blockEnd).drop headerIdx)
      if existingBlock = block then (fileContent, .unchanged)
      else
        let beforeClean := stripEnd (fileContent.take headerIdx)
        let afterClean := stripStart (fileContent.drop blockEnd)
        let sepBefore := if 0 < beforeClean.length then ['\n', '\n'] else []
        let sepAfter := if 0 < afterClean.length then ['\n', '\n'] else ['\n']
        (beforeClean ++ (sepBefore ++ (block ++ (sepAfter ++ afterClean))), .replaced)

inductive RemoveTableAction where
  | removed | notFound
  deriving DecidableEq, Repr

def removeTomlTable (fileContent header : Text) : Text × RemoveTableAction :=
  match findHeaderIndex fileContent (headerLine header) with
  | none => (fileContent, .notFound)
  | some headerIdx =>
      let blockEnd := findNextTableHeader fileContent (headerIdx + (headerLine header).length)
      let before := stripEnd (fileContent.take headerIdx)
      let after := stripStart (fileContent.drop blockEnd)
      let sep := if 0 < before.length ∧ 0 < after.length then ['\n', '\n'] else []
      (before ++ (sep ++ after), .removed)

end AfyxGraph.Installer.Toml
