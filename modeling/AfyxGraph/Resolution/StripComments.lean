import AfyxGraph.Core.Lexing
import AfyxGraph.UiServer.TrailStore

/-! # Comments taken out of a source text

Comments become blanks, so that positions stay. Each language has a scanner of its own: a loop over
the positions with one branch for each kind of comment and literal. The branches differ in how they
open, where they end and whether a backslash takes the next unit with it; those that do not fit are
nested comments, `=begin` comments and the character literals of Erlang.
-/

namespace AfyxGraph.Resolution.Comments

open AfyxGraph.Core AfyxGraph.Runtime
open AfyxGraph.UiServer (js)

/-! ## Positions -/

def newline : CodeUnit := unit '\n'

def backslash : CodeUnit := unit '\\'

/-- `src.startsWith(mark, i)`, and so `src[i] === '*' && src[i + 1] === '/'` too. -/
def startsWith (mark src : JsString) (i : Nat) : Bool := mark.isPrefixOf (src.drop i)

/-- `buf[i] = c`; behind the end it makes the buffer longer. -/
def put (buf : JsString) (i : Nat) (c : CodeUnit) : JsString :=
  if i < buf.length then buf.set i c else buf ++ [c]

def blankOf (c : Option CodeUnit) : CodeUnit := if c = some newline then newline else unit ' '

/-- The range in blanks, but for the newlines. -/
def blankRange (buf : JsString) (start stop : Nat) (src : JsString) : JsString :=
  (List.range' start (stop - start)).foldl (fun buf i => put buf i (blankOf src[i]?)) buf

/-! ## Loops -/

/-- Goes on to where the text `ends`; where it `escapes`, a backslash takes the next unit along. -/
def skip (escapes : Bool) (ends : JsString → Bool) (src : JsString) (i : Nat) : Nat :=
  if i < src.length ∧ ends (src.drop i) = false then
    if escapes = true ∧ src[i]? = some backslash ∧ i + 1 < src.length then
      skip escapes ends src (i + 2)
    else skip escapes ends src (i + 1)
  else i
termination_by src.length - i

/-- Goes on to where every comment that is open has closed. -/
def skipNested (src : JsString) (depth i : Nat) : Nat :=
  if i < src.length ∧ 0 < depth then
    if startsWith (js "/*") src i then skipNested src (depth + 1) (i + 2)
    else if startsWith (js "*/") src i then skipNested src (depth - 1) (i + 2)
    else skipNested src depth (i + 1)
  else i
termination_by src.length - i

def isNewline (rest : JsString) : Bool := rest.head? = some newline

def isBlank (c : CodeUnit) : Bool := c = unit ' ' || c = unit '\t'

/-- The line that begins here is `=end`. -/
def endsBegin (rest : JsString) : Bool :=
  isNewline rest && (js "=end").isPrefixOf (rest.tail.dropWhile isBlank)

/-! ## Branches -/

/-- A comment or a literal that the loop `skip` reads. -/
structure Span where
  opening : JsString
  escapes : Bool
  ends : JsString → Bool
  closing : JsString
  comment : Bool

inductive Form where
  | span (s : Span)
  | nested
  | begin
  | character

namespace Form

def opening : Form → JsString
  | span s => s.opening
  | nested => js "/*"
  | begin => js "=begin"
  | character => js "$"

def comment : Form → Bool
  | span s => s.comment
  | nested => true
  | begin => true
  | character => false

/-- Where the branch leaves the index. -/
def stop (f : Form) (src : JsString) (i : Nat) : Nat :=
  match f with
  | span s =>
      let j := skip s.escapes s.ends src (i + s.opening.length)
      if startsWith s.closing src j then j + s.closing.length else j
  | nested => skipNested src 1 (i + 2)
  | begin =>
      let j := skip false endsBegin src (i + 6)
      if j < src.length then
        let k := skip false (fun rest => !rest.head?.any isBlank) src (j + 1)
        skip false isNewline src (k + 4)
      else j
  | character =>
      let j := if src[i + 1]? = some backslash then i + 2 else i + 1
      j + 1

end Form

/-- `atLineStart`, which only `=begin` asks for. -/
def lineStart (before : Bool) (f : Option Form) (last : Option CodeUnit) : Bool :=
  match f with
  | none => last = some newline || (before && last.any isBlank)
  | some .begin => last = some newline
  | some _ => false

/-- The first branch that takes the position. -/
def Form.takes (f : Form) (atLineStart : Bool) (src : JsString) (i : Nat) : Bool :=
  startsWith f.opening src i &&
    match f with
    | begin => atLineStart
    | _ => true

def reader (forms : List Form) : Reader CodeUnit Form Bool where
  branch atLineStart src i := forms.find? (·.takes atLineStart src i)
  stop := Form.stop
  edit f src i out := if f.comment then blankRange out i (f.stop src i) src else out
  after := lineStart

/-- The loop over a text with the branches of a language; it has as many rounds as units. -/
def strip (forms : List Form) (src : JsString) : Option JsString :=
  (reader forms).run src src.length true 0 src

/-! ## Languages -/

/-- A comment to the end of the line. -/
def lineComment (mark : JsString) : Form := .span ⟨mark, false, isNewline, [], true⟩

def blockComment : Form := .span ⟨js "/*", false, (js "*/").isPrefixOf, js "*/", true⟩

/-- A literal that a newline ends too. -/
def quoted (quote : CodeUnit) : Form :=
  .span ⟨[quote], true, fun rest => [quote].isPrefixOf rest || isNewline rest, [quote], false⟩

/-- A literal over lines. -/
def template (quote : CodeUnit) : Form :=
  .span ⟨[quote], true, [quote].isPrefixOf, [quote], false⟩

/-- A literal without escapes. -/
def raw (quote : CodeUnit) : Form :=
  .span ⟨[quote], false, [quote].isPrefixOf, [quote], false⟩

/-- Three quotes; taken out like a comment. -/
def triple (quote : CodeUnit) : Form :=
  .span ⟨[quote, quote, quote], true, [quote, quote, quote].isPrefixOf, [quote, quote, quote],
    true⟩

def single : CodeUnit := unit '\''

def double : CodeUnit := unit '"'

def backtick : CodeUnit := unit '\x60'

inductive CommentLang where
  | python
  | javascript
  | typescript
  | php
  | ruby
  | java
  | csharp
  | swift
  | go
  | rust
  | c
  | cpp
  | erlang
  deriving DecidableEq

def pythonForms : List Form :=
  [triple double, triple single, quoted double, quoted single, lineComment (js "#")]

def rubyForms : List Form := [.begin, quoted double, quoted single, lineComment (js "#")]

def cStyleForms (allowSingleQuoteStrings : Bool) : List Form :=
  [blockComment, lineComment (js "//"), quoted double] ++
    (if allowSingleQuoteStrings then [quoted single] else []) ++ [template backtick]

def phpForms : List Form :=
  [blockComment, lineComment (js "//"), lineComment (js "#"), quoted double, quoted single,
    quoted backtick]

def goForms : List Form :=
  [blockComment, lineComment (js "//"), raw backtick, quoted double, quoted single]

def rustForms : List Form :=
  [.nested, lineComment (js "//"), template double, quoted single]

def erlangForms : List Form :=
  [template double, template single, .character, lineComment (js "%")]

def stripPython (src : JsString) : Option JsString := strip pythonForms src

def stripRuby (src : JsString) : Option JsString := strip rubyForms src

def stripCStyle (src : JsString) (allowSingleQuoteStrings : Bool) : Option JsString :=
  strip (cStyleForms allowSingleQuoteStrings) src

def stripPhp (src : JsString) : Option JsString := strip phpForms src

def stripGo (src : JsString) : Option JsString := strip goForms src

def stripRust (src : JsString) : Option JsString := strip rustForms src

def stripErlang (src : JsString) : Option JsString := strip erlangForms src

def stripCommentsForRegex (content : JsString) (lang : CommentLang) : Option JsString :=
  match lang with
  | .python => stripPython content
  | .ruby => stripRuby content
  | .rust => stripRust content
  | .erlang => stripErlang content
  | .php => stripPhp content
  | .go => stripGo content
  | .javascript | .typescript => stripCStyle content true
  | .java | .csharp | .swift | .c | .cpp => stripCStyle content false

example : stripCommentsForRegex (js "a // 'b'\n'c'") .java = some (js "a       \n'c'") := by
  decide +kernel

end AfyxGraph.Resolution.Comments
