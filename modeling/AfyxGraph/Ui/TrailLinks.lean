import AfyxGraph.Core.Percent

/-! # Links of the viewer

The viewer's address is the hash of the page. A symbol's link carries its id in the path, and the
trail walked so far and a line in the query; the trail is a text of its own inside the query. The
server writes the same text for a saved trail.
-/

namespace AfyxGraph.Ui

open AfyxGraph.Core AfyxGraph.Core.Percent

/-! ## The trail codec -/

inductive HopDirection where
  | start | down | up
  deriving DecidableEq, Repr

structure TrailHop where
  id : Text
  name : Option Text
  kind : Option Text
  dir : HopDirection
  deriving DecidableEq, Repr

def dirToChar : HopDirection → Char
  | .start => 's'
  | .down => 'd'
  | .up => 'u'

def charToDir (c : Char) : Option HopDirection :=
  if c = 's' then some .start else if c = 'd' then some .down else if c = 'u' then some .up
  else none

def encodeTrail (hops : List TrailHop) : Text :=
  Text.joinWith ',' (hops.map fun h => dirToChar h.dir :: encodeURIComponent h.id)

/-- One turn of the loop of `decodeTrail`; a component that cannot be decoded is taken as it is. -/
def decodeToken : Text → Option TrailHop
  | [] => none
  | c :: rest =>
      if rest.isEmpty then none
      else
        match charToDir c with
        | none => none
        | some dir =>
            let id := (decodeURIComponent rest).getD rest
            if id.isEmpty then none else some { id, name := none, kind := none, dir }

def decodeTrail : Option Text → List TrailHop
  | none => []
  | some encoded =>
      if encoded.isEmpty then [] else (encoded.split ',').filterMap decodeToken

/-! ## Navigation -/

def encodePath (value : Text) : Text :=
  Text.joinWith '/' ((value.split '/').map encodeURIComponent)

def query (params : SearchParams) : Text :=
  let text := params.toText
  if text.isEmpty then [] else '?' :: text

structure SymbolHrefOptions where
  line : Option Nat := none
  trail : Option Text := none

/-- An option is set when it is there and not empty or zero. -/
def symbolParams (opts : SymbolHrefOptions) : SearchParams :=
  let params : SearchParams := match opts.trail with
    | some trail => if trail.isEmpty then [] else SearchParams.set [] "t".toList trail
    | none => []
  match opts.line with
  | some line => if line = 0 then params else params.set "hl".toList (Text.ofNat line)
  | none => params

def symbolHref (id : Option Text) (opts : SymbolHrefOptions) : Text :=
  let id := id.getD []
  if id.isEmpty then "#/s".toList ++ query (symbolParams opts)
  else "#/s/".toList ++ (encodePath id ++ query (symbolParams opts))

/-! ## The router -/

inductive Reading where
  | order | tree
  deriving DecidableEq, Repr

inductive Route where
  | home
  | symbol (id : Option Text) (line : Option Nat)
  | file (path : Text) (line : Option Nat) (source : Bool)
  | map (root : Option Text) (depth : Option Nat) (tests : Bool)
  | flow (start stop symbols trail : Option Text)
  | entry
  | screens
  | steps (anchor symbol : Option Text) (depth : Option Nat) (through : Bool)
      (reading : Option Reading)
  | dead (exported : Bool)
  | unknown (path : Text)
  deriving DecidableEq, Repr

structure RouterLocation where
  route : Route
  params : SearchParams
  raw : Text

def decodeSegment (segment : Text) : Text := (decodeURIComponent segment).getD segment

/-- A positive number, of at most the given size where one is given. -/
def numberParam (params : SearchParams) (name : Text) (atMost : Option Nat) : Option Nat :=
  match Text.parseInt ((params.get name).getD []) with
  | none => none
  | some n =>
      let small := match atMost with
        | some m => decide (n ≤ (m : Int))
        | none => true
      if 0 < n && small then some n.toNat else none

def parseLine (params : SearchParams) : Option Nat := numberParam params "hl".toList none

def flagParam (params : SearchParams) (name : Text) : Bool := params.get name = some "1".toList

def readingParam (params : SearchParams) : Option Reading :=
  if params.get "view".toList = some "order".toList then some .order
  else if params.get "view".toList = some "tree".toList then some .tree
  else none

def routeOf (segments : List Text) (pathPart : Text) (params : SearchParams) : Route :=
  let line := parseLine params
  match segments with
  | [] => .home
  | head :: rest =>
      if head = "s".toList then
        .symbol (if rest.isEmpty then none else some (Text.joinWith '/' rest)) line
      else if head = "file".toList ∧ rest ≠ [] then
        .file (Text.joinWith '/' rest) line (flagParam params "src".toList)
      else if rest ≠ [] then .unknown pathPart
      else if head = "map".toList then
        .map (params.get "root".toList) (numberParam params "depth".toList (some 4))
          (flagParam params "tests".toList)
      else if head = "entry".toList then .entry
      else if head = "screens".toList then .screens
      else if head = "steps".toList then
        .steps (params.get "anchor".toList) (params.get "symbol".toList)
          (numberParam params "depth".toList (some 14)) (flagParam params "through".toList)
          (readingParam params)
      else if head = "dead".toList then .dead (flagParam params "exported".toList)
      else if head = "flow".toList then
        .flow (params.get "from".toList) (params.get "to".toList) (params.get "symbols".toList)
          (params.get "t".toList)
      else .unknown pathPart

def parseHash (d : Bytes.TextDecoder) (hash : Text) : RouterLocation :=
  let raw : Text := if hash.head? = some '#' then hash.tail else hash
  let parts : Text × Text := (Text.cut '?' raw).getD (raw, [])
  let params := SearchParams.ofText d parts.2
  let segments := ((parts.1.split '/').filter fun s => !s.isEmpty).map decodeSegment
  { route := routeOf segments parts.1 params, params, raw }

/-! ## Saved trails -/

/-- Of a hop on the wire, the id it resolved to and its direction. -/
structure WireTrailHop where
  id : Option Text
  dir : HopDirection

structure RunScan where
  bestStart : Nat := 0
  bestLength : Nat := 0
  start : Option Nat := none
  deriving DecidableEq

/-- One turn of the loop at index `i`. -/
def RunScan.turn (s : RunScan) (i : Nat) (resolved : Bool) : RunScan :=
  if resolved then { s with start := some (s.start.getD i) }
  else
    match s.start with
    | some start =>
        if s.bestLength < i - start then { bestStart := start, bestLength := i - start }
        else { s with start := none }
    | none => s

/-- The loop runs once more behind the last hop. -/
def RunScan.loop : List WireTrailHop → Nat → RunScan → RunScan
  | [], i, s => s.turn i false
  | hop :: hops, i, s => loop hops (i + 1) (s.turn i hop.id.isSome)

structure ResolvedRun where
  encoded : Option Text
  openFrom : Nat
  openCount : Nat
  openId : Option Text

def runTokens : List WireTrailHop → List Text
  | [] => []
  | first :: rest =>
      ('s' :: encodeURIComponent (first.id.getD [])) ::
        rest.map fun hop => dirToChar hop.dir :: encodeURIComponent (hop.id.getD [])

def encodeResolvedRun (hops : List WireTrailHop) : ResolvedRun :=
  let s := RunScan.loop hops 0 {}
  if s.bestLength = 0 then { encoded := none, openFrom := 0, openCount := 0, openId := none }
  else
    let run := (hops.drop s.bestStart).take s.bestLength
    { encoded := some (Text.joinWith ',' (runTokens run))
      openFrom := s.bestStart + 1
      openCount := s.bestLength
      openId := (run.getLast?.map (·.id)).join }

end AfyxGraph.Ui
