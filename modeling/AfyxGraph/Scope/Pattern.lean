import AfyxGraph.Core.PathText

/-! # Path patterns

`compilePathPattern` writes a regular expression from a bounded glob grammar. The
expression is kept as its list of tokens; matching gives what is left of the
text, in the order in which a backtracking matcher tries it, so that the first
success is the match `exec` reports. A character stands for one UTF-16 unit.
-/

namespace AfyxGraph.Scope

open AfyxGraph.Core

/-- What `compilePathPattern` appends to its expression in one turn. -/
inductive Token where
  /-- A literal character. -/
  | char (c : Char)
  /-- `[^/]*` -/
  | star
  /-- `[^/]` -/
  | one
  /-- `.*` -/
  | any
  /-- `(?:[^/]+/)*` -/
  | segments
  /-- `[…]`, as its ranges. -/
  | cls (negated : Bool) (ranges : List (Char × Char))
  deriving DecidableEq, Repr

/-- The exceptions of `compilePathPattern`; the last one is the `SyntaxError` of
`new RegExp` on a range such as `[z-a]`. -/
inductive PatternError where
  | nul | unsupported | unterminatedClass | emptyClass | rangeOutOfOrder
  deriving DecidableEq, Repr

/-- A regular expression without `u` reads the body of a class from the left. -/
def classRanges : Text → Except PatternError (List (Char × Char))
  | a :: '-' :: b :: cs => do
      if b < a then throw .rangeOutOfOrder
      let rest ← classRanges cs
      return (a, b) :: rest
  | a :: cs => do
      let rest ← classRanges cs
      return (a, a) :: rest
  | [] => return []

/-- A class is negated by `!`, which is rewritten, or by `^`. -/
def classToken (body : Text) : Except PatternError Token :=
  match body with
  | [] => throw .emptyClass
  | c :: cs =>
      if c = '!' ∨ c = '^' then return .cls true (← classRanges cs)
      else return .cls false (← classRanges (c :: cs))

/-- Where the loop of `compilePathPattern` stands between two characters. -/
inductive Reading where
  | plain
  /-- After `*`, or after two and more. -/
  | stars (many : Bool)
  /-- Between `[` and the next `]`; the body so far, last character first. -/
  | body (read : Text)
  deriving DecidableEq, Repr

/-- The token of the stars read. -/
def starToken (many : Bool) : Token := if many then .any else .star

def readPlain (c : Char) : Reading × List Token :=
  if c = '*' then (.stars false, [])
  else if c = '?' then (.plain, [.one])
  else if c = '[' then (.body [], [])
  else (.plain, [.char c])

def readCharacter (reading : Reading) (c : Char) : Except PatternError (Reading × List Token) :=
  match reading with
  | .plain => return readPlain c
  | .stars many =>
      if c = '*' then return (.stars true, [])
      else if many ∧ c = '/' then return (.plain, [.segments])
      else return ((readPlain c).1, starToken many :: (readPlain c).2)
  | .body read =>
      if c = ']' then return (.plain, [← classToken read.reverse])
      else return (.body (c :: read), [])

/-- The loop of `compilePathPattern`. -/
def compileFrom : Reading → Text → Except PatternError (List Token)
  | .plain, [] => return []
  | .stars many, [] => return [starToken many]
  | .body _, [] => throw .unterminatedClass
  | reading, c :: cs => do
      let (next, tokens) ← readCharacter reading c
      let rest ← compileFrom next cs
      return tokens ++ rest

/-- `/[+@?!*]\(/` -/
def hasExtglob : Text → Bool
  | [] => false
  | c :: cs => (c ∈ ['+', '@', '?', '!', '*'] && cs.head? = some '(') || hasExtglob cs

/-- `.replace(/\\/g, '/').replace(/^\.\//, '')` -/
def normalizeSeparators (t : Text) : Text :=
  match t.map fun c => if c = '\\' then '/' else c with
  | '.' :: '/' :: rest => rest
  | text => text

def compilePathPattern (pattern : Text) : Except PatternError (List Token) :=
  if pattern.contains (Char.ofNat 0) then throw .nul
  else if pattern.contains '{' || pattern.contains '}' || hasExtglob pattern then
    throw .unsupported
  else compileFrom .plain (normalizeSeparators pattern)

/-- `.` does not stand for these. -/
def isLineTerminator (c : Char) : Bool :=
  c = '\n' || c = '\r' || c = Char.ofNat 0x2028 || c = Char.ofNat 0x2029

/-- A greedy run of characters: the longest one first. -/
def afterRun (p : Char → Bool) : Text → List Text
  | [] => [[]]
  | c :: cs => if p c then afterRun p cs ++ [c :: cs] else [c :: cs]

/-- The rests behind one segment and more; `inside` says that the segment being
read has a character. -/
def afterSegments : (inside : Bool) → Text → List Text
  | _, [] => []
  | inside, c :: cs =>
      if c = '/' then
        if inside then afterSegments false cs ++ [cs] else []
      else afterSegments true cs

def inRange (c : Char) (range : Char × Char) : Bool := range.1 ≤ c && c ≤ range.2

/-- What a token can leave of a text, in the order of trial. -/
def Token.rests (token : Token) (t : Text) : List Text :=
  match token, t with
  | .star, t => afterRun (· ≠ '/') t
  | .any, t => afterRun (!isLineTerminator ·) t
  | .segments, t => afterSegments false t ++ [t]
  | _, [] => []
  | .char c, d :: ds => if d = c then [ds] else []
  | .one, d :: ds => if d ≠ '/' then [ds] else []
  | .cls negated ranges, d :: ds => if ranges.any (inRange d) != negated then [ds] else []

def rests : List Token → Text → List Text
  | [], t => [t]
  | token :: tokens, t => (token.rests t).flatMap (rests tokens)

end AfyxGraph.Scope
