import AfyxGraph.Core.FirstDistinct
import AfyxGraph.Core.Groups
import AfyxGraph.Runtime.Jsonc

/-! # File references inside queries

A token of a query is unwrapped and looked up among the indexed paths: by its lower-case form, by
the ends of that form, or by the stem of a hyphenated file name. Tokens that name files are taken
out of the query and their files are pinned.
-/

namespace AfyxGraph.Search.PathReferences

open AfyxGraph.Core AfyxGraph.Runtime

def MAX_SUFFIX_DROPS := 8
def MAX_EXPLICIT_SPANS := 8
def MAX_REPORTED_UNRESOLVED := 4
def MIN_SPAN_LENGTH := 4

def units (s : String) : JsString := s.toList.map unit

def slash : CodeUnit := unit '/'

def backslash : CodeUnit := unit '\\'

/-! ## Shapes of names -/

/-- `[A-Za-z]` -/
def isLetter (c : CodeUnit) : Bool :=
  (unit 'a' ≤ c && c ≤ unit 'z') || (unit 'A' ≤ c && c ≤ unit 'Z')

/-- `[A-Za-z0-9]` -/
def isAlphanumeric (c : CodeUnit) : Bool := isLetter c || isDigit c

/-- `^\.[A-Za-z][A-Za-z0-9]{0,7}$` -/
def isExtension : JsString → Bool
  | dot :: first :: rest =>
      dot = unit '.' && isLetter first && rest.all isAlphanumeric && rest.length ≤ 7
  | _ => false

/-- `/^[^\s/\\]+\.[A-Za-z][A-Za-z0-9]{0,7}$/`, with the extension from some position on. -/
def isDottedBasename (text : JsString) : Bool :=
  (List.range text.length).any fun i =>
    0 < i && (text.take i).all (fun c => !isSpace c && c != slash && c != backslash) &&
      isExtension (text.drop i)

/-- `/^[A-Za-z0-9]+(?:-[A-Za-z0-9]+)+$/` -/
def isKebabBasename (text : JsString) : Bool :=
  let parts := text.splitOn (unit '-')
  2 ≤ parts.length && parts.all fun part => part ≠ [] && part.all isAlphanumeric

/-- The text in front of the first position from which a pattern matches to the end. -/
def removeTail (matchesToEnd : JsString → Bool) : JsString → JsString
  | [] => []
  | c :: rest => if matchesToEnd (c :: rest) then [] else c :: removeTail matchesToEnd rest

/-- `basename.replace(FINAL_EXTENSION, '')` -/
def dropExtension (basename : JsString) : JsString := removeTail isExtension basename

/-- `\d+(?:-\d+)?$`, or `\d+(?:-L?\d+)?$` where `lettered`. -/
def isLineRange (lettered : Bool) (text : JsString) : Bool :=
  !(text.takeWhile isDigit).isEmpty &&
    match text.dropWhile isDigit with
    | [] => true
    | dash :: rest =>
        dash = unit '-' &&
          (isDigits rest || lettered && rest.head? = some (unit 'L') && isDigits rest.tail)

/-- `^(?::\d+(?:-\d+)?|#L\d+(?:-L?\d+)?)$` -/
def isLineReference : JsString → Bool
  | [] => false
  | c :: rest =>
      c = unit ':' && isLineRange false rest ||
        c = unit '#' && rest.head? = some (unit 'L') && isLineRange true rest.tail

/-! ## Tokens -/

def LEADING_ALWAYS : JsString := units "'\"`<"

def TRAILING_ALWAYS : JsString := units "'\"`>.,;!?"

/-- Opening and closing brackets. -/
def BRACKETS : List (CodeUnit × CodeUnit) :=
  [(unit '(', unit ')'), (unit '[', unit ']'), (unit '\x7b', unit '\x7d')]

/-- Takes quotes, and brackets whose partner is not in the text, off the front. -/
def peel (always : JsString) (partners : List (CodeUnit × CodeUnit)) : JsString → JsString
  | [] => []
  | head :: rest =>
      let unpaired := match partners.lookup head with
        | some partner => !(head :: rest).contains partner
        | none => false
      if always.contains head || unpaired then peel always partners rest else head :: rest

/-- The front is peeled, then the back, and then a line reference goes. -/
def unwrap (token : JsString) : JsString :=
  let front := peel LEADING_ALWAYS BRACKETS token
  let back := peel TRAILING_ALWAYS (BRACKETS.map Prod.swap) front.reverse
  removeTail isLineReference back.reverse

/-- `.replace(/^(?:\.\/)+/, '')` -/
def dropDotSlash : JsString → JsString
  | dot :: sep :: rest =>
      if dot = unit '.' && sep = slash then dropDotSlash rest else dot :: sep :: rest
  | text => text

/-- `.replace(/\/{2,}/g, '/')` -/
def collapseSlashes : JsString → JsString
  | [] => []
  | c :: rest =>
      if c = slash && rest.head? = some slash then collapseSlashes rest
      else c :: collapseSlashes rest

/-- Repo-relative, forward-slash form as stored in the file table. -/
def toRepoRelative (span : JsString) : JsString :=
  let slashed := span.map fun c => if c = backslash then slash else c
  (collapseSlashes (dropDotSlash slashed)).rdropWhile (· = slash)

/-- What stands behind the last separator. -/
def afterLast (isSeparator : CodeUnit → Bool) (text : JsString) : JsString :=
  (text.reverse.takeWhile fun c => !isSeparator c).reverse

/-- The last slash is there and not at the front, and a dotted name stands behind it. -/
def isUnambiguouslyPath (normalized : JsString) : Bool :=
  let basename := afterLast (· = slash) normalized
  basename.length + 1 < normalized.length && isDottedBasename basename

/-! ## The catalog -/

structure Resolution where
  found : List JsString
  ambiguous : Bool
  deriving DecidableEq, Repr

section Catalog

variable (toLowerCase : JsString → JsString) (paths : List JsString)

/-- From lower-case forms to paths. -/
def foldedPaths : List (JsString × JsString) :=
  paths.foldl (fun folded file => setEntry folded (toLowerCase file) file) []

/-- The indexed paths that are the suffix or end with it behind a slash. -/
def suffixMatches (suffix : JsString) : List JsString :=
  ((foldedPaths toLowerCase paths).filter fun entry =>
    entry.1 = suffix || (slash :: suffix).isSuffixOf entry.1).map Prod.snd

/-- Tries the segments from each one on, for as many of them as `drops`. A search is ambiguous as
soon as it has found more than the limit. No segment is blank, and so no suffix is. -/
def resolveSuffix (limit : Nat) : (drops : Nat) → (segments : List JsString) → Resolution
  | 0, _ => ⟨[], false⟩
  | _, [] => ⟨[], false⟩
  | drops + 1, segment :: segments =>
      let found := suffixMatches toLowerCase paths ([slash].intercalate (segment :: segments))
      if limit < found.length then ⟨[], true⟩
      else if found ≠ [] then ⟨found, false⟩
      else resolveSuffix limit drops segments

def resolve (span : JsString) (limit : Nat) : Resolution :=
  match (foldedPaths toLowerCase paths).lookup span with
  | some exact => ⟨[exact], false⟩
  | none =>
      resolveSuffix toLowerCase paths limit MAX_SUFFIX_DROPS ((span.splitOn slash).filter (· ≠ []))

/-- The key of a file whose name has a hyphen. -/
def stemKey (file : JsString) : Option JsString :=
  let basename := afterLast (fun c => c = slash || c = backslash) file
  let key := toLowerCase (dropExtension basename)
  if basename.contains (unit '-') && key ≠ [] then some key else none

/-- From stems to the paths with them, in the order of the index. -/
def stems : List (JsString × List JsString) :=
  groupBy Prod.fst Prod.snd (paths.filterMap fun file => (stemKey toLowerCase file).map (·, file))

def byStem (stem : JsString) : Option (List JsString) := (stems toLowerCase paths).lookup stem

end Catalog

/-! ## Extraction -/

structure QueryPathExtraction where
  strippedQuery : JsString
  pinnedFiles : List JsString
  unresolvedPathSpans : List JsString
  deriving DecidableEq, Repr

structure ExtractionOptions where
  maxPins : Option Int := none
  maxMatchesPerSpan : Option Int := none

/-- What the passes read. -/
structure Setting where
  toLowerCase : JsString → JsString
  indexedPaths : List JsString
  options : ExtractionOptions := {}

/-- The state of the passes over the tokens. A set is listed in the order of insertion. -/
structure Scan where
  consumed : List Nat := []
  pinned : List JsString := []
  unresolved : List JsString := []
  examined : Nat := 0

/-- `query.split(/\s+/).filter(Boolean)` -/
def tokensOf (query : JsString) : List JsString := (query.splitOnP isSpace).filter (· ≠ [])

/-- The normalised text of a token that pass 1 looks up. -/
def explicitSpan (token : JsString) : Option JsString :=
  let span := unwrap token
  if span.length < MIN_SPAN_LENGTH then none
  else if !(span.contains slash || span.contains backslash) && !isDottedBasename span then none
  else
    let normalized := toRepoRelative span
    if normalized = [] then none else some normalized

namespace Setting

variable (g : Setting)

def maxPins : Nat := (max 1 (g.options.maxPins.getD 8)).toNat

def maxMatches : Nat := (max 1 (g.options.maxMatchesPerSpan.getD 3)).toNat

def resolveSpan (normalized : JsString) : Resolution :=
  resolve g.toLowerCase g.indexedPaths (g.toLowerCase normalized) g.maxMatches

def pin (pinned files : List JsString) : List JsString := collectDistinct g.maxPins pinned files

def examine (i : Nat) (normalized : JsString) (s : Scan) : Scan :=
  let resolution := g.resolveSpan normalized
  let s := { s with examined := s.examined + 1 }
  if resolution.found ≠ [] then
    { s with consumed := s.consumed ++ [i], pinned := g.pin s.pinned resolution.found }
  else if resolution.ambiguous || isUnambiguouslyPath normalized then
    { s with
      consumed := s.consumed ++ [i]
      unresolved := if s.unresolved.length < MAX_REPORTED_UNRESOLVED then
        s.unresolved ++ [normalized] else s.unresolved }
  else s

/-- Slashed or dotted spans, resolved against the index; `i` is the position of the next token. -/
def pass1 : (i : Nat) → (tokens : List JsString) → Scan → Scan
  | _, [], s => s
  | i, token :: tokens, s =>
      if g.maxPins ≤ s.pinned.length || MAX_EXPLICIT_SPANS ≤ s.examined then s
      else match explicitSpan token with
        | some normalized => pass1 (i + 1) tokens (g.examine i normalized s)
        | none => pass1 (i + 1) tokens s

/-- The files of an extension-less kebab name, unless they are too many. -/
def kebabFiles (token : JsString) : Option (List JsString) :=
  let span := unwrap token
  if span.length < MIN_SPAN_LENGTH || !isKebabBasename span then none
  else match byStem g.toLowerCase g.indexedPaths (g.toLowerCase span) with
    | some files => if g.maxMatches < files.length then none else some files
    | none => none

def pass2 : (i : Nat) → (tokens : List JsString) → Scan → Scan
  | _, [], s => s
  | i, token :: tokens, s =>
      if g.maxPins ≤ s.pinned.length then s
      else if i ∈ s.consumed then pass2 (i + 1) tokens s
      else match g.kebabFiles token with
        | some files => pass2 (i + 1) tokens
            { s with consumed := s.consumed ++ [i], pinned := g.pin s.pinned files }
        | none => pass2 (i + 1) tokens s

def scan (query : JsString) : Scan :=
  g.pass2 0 (tokensOf query) (g.pass1 0 (tokensOf query) {})

/-- `!query.trim() || indexedPaths.length === 0` -/
def isIdle (query : JsString) : Bool := query.all isSpace || g.indexedPaths.isEmpty

/-- The tokens at other positions, joined by single spaces. -/
def withoutTokens (query : JsString) (consumed : List Nat) : JsString :=
  [unit ' '].intercalate
    (((tokensOf query).zipIdx.filter fun entry => entry.2 ∉ consumed).map Prod.fst)

def untouched (query : JsString) : QueryPathExtraction := ⟨query, [], []⟩

end Setting

def extractQueryPaths (toLowerCase : JsString → JsString) (query : JsString)
    (indexedPaths : List JsString) (options : ExtractionOptions := {}) : QueryPathExtraction :=
  let g : Setting := ⟨toLowerCase, indexedPaths, options⟩
  if g.isIdle query then Setting.untouched query
  else
    let s := g.scan query
    if s.consumed = [] then Setting.untouched query
    else ⟨Setting.withoutTokens query s.consumed, s.pinned, s.unresolved⟩

end AfyxGraph.Search.PathReferences
