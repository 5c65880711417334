import AfyxGraph.Core.FirstFew
import AfyxGraph.Runtime.JsonText

/-! # Saved trails

One JSON file a trail, in one directory of the project. A listing reads the files in the order of
their names and skips what is no trail of ours; a save picks a name that no listed trail of
another name has, and writes a temporary file that is renamed.
-/

namespace AfyxGraph.UiServer

open AfyxGraph.Core AfyxGraph.Runtime

def js (s : String) : JsString := s.toList.map unit

/-- `version` of what is written. -/
def TRAIL_FORMAT_VERSION : Nat := 1

def MAX_TRAILS : Nat := 200

def MAX_TRAIL_HOPS : Nat := 64

def MAX_TRAIL_NAME : Nat := 120

def MAX_TRAIL_NOTE : Nat := 600

def MAX_TRAIL_FILE_BYTES : Nat := 64 * 1024

def MAX_SLUG : Nat := 60

/-! ## Text -/

/-- `\s` -/
def isWhite (c : CodeUnit) : Bool :=
  (0x09 ≤ c && c ≤ 0x0D) || c = 0x20 || c = 0xA0 || c = 0x1680 || (0x2000 ≤ c && c ≤ 0x200A) ||
    c = 0x2028 || c = 0x2029 || c = 0x202F || c = 0x205F || c = 0x3000 || c = 0xFEFF

/-- Without the units at the end. -/
def stripEnd (p : CodeUnit → Bool) (s : JsString) : JsString := (s.reverse.dropWhile p).reverse

def trim (s : JsString) : JsString := stripEnd isWhite (s.dropWhile isWhite)

/-- `.replace(/…+/g, c)`; `inside` says that the run being read is replaced already. -/
def replaceRuns (p : CodeUnit → Bool) (by_ : CodeUnit) : (inside : Bool) → JsString → JsString
  | _, [] => []
  | inside, c :: cs =>
      if p c then
        if inside then replaceRuns p by_ true cs else by_ :: replaceRuns p by_ true cs
      else c :: replaceRuns p by_ false cs

def isSlugUnit (c : CodeUnit) : Bool :=
  (unit 'a' ≤ c && c ≤ unit 'z') || isDigit c

/-- `/^[a-z0-9][a-z0-9-]{0,79}$/` -/
def isTrailId : JsString → Bool
  | [] => false
  | c :: cs => isSlugUnit c && cs.all (fun d => isSlugUnit d || d = unit '-') && cs.length ≤ 79

def slugify (toLowerCase : JsString → JsString) (name : JsString) : JsString :=
  let dashed := replaceRuns (!isSlugUnit ·) (unit '-') false (toLowerCase name)
  let stripped := stripEnd (· = unit '-') (dashed.dropWhile (· = unit '-'))
  let slug := stripEnd (· = unit '-') (stripped.take MAX_SLUG)
  if slug = [] then js "trail" else slug

/-! ## Trails -/

inductive StoredHopDirection where
  | start | down | up
  deriving DecidableEq, Repr

def StoredHopDirection.text : StoredHopDirection → JsString
  | .start => js "start"
  | .down => js "down"
  | .up => js "up"

def directionOf (dir : Option JsString) : StoredHopDirection :=
  if dir = some (js "up") then .up else if dir = some (js "down") then .down else .start

structure StoredHop (ν : Type) where
  dir : StoredHopDirection
  name : JsString
  qualifiedName : JsString
  kind : JsString
  file : JsString
  line : ν
  id : JsString
  deriving DecidableEq

structure StoredTrail (ν : Type) where
  version : ν
  id : JsString
  name : JsString
  note : JsString
  author : JsString
  createdAt : JsString
  updatedAt : JsString
  hops : List (StoredHop ν)
  deriving DecidableEq

/-- The hop with its line as another kind of number. -/
def StoredHop.mapLine {μ ν : Type} (f : μ → ν) (hop : StoredHop μ) : StoredHop ν :=
  ⟨hop.dir, hop.name, hop.qualifiedName, hop.kind, hop.file, f hop.line, hop.id⟩

/-! ## What is read -/

section Read

variable {ν : Type}

/-- `typeof value === 'object' && value !== null` -/
def Json.isObject : Json ν → Bool
  | .array _ | .object _ => true
  | _ => false

/-- `value[key]` of an object without inherited keys. -/
def Json.field (value : Json ν) (key : JsString) : Option (Json ν) :=
  match value with
  | .object entries => entries.lookup key
  | _ => none

/-- `typeof value[key] === 'string' ? value[key] : ''` -/
def Json.textField (value : Json ν) (key : JsString) : JsString :=
  match Json.field value key with
  | some (.string text) => text
  | _ => []

/-- `typeof value[key] === 'string' ? value[key] : undefined` -/
def Json.textField? (value : Json ν) (key : JsString) : Option JsString :=
  match Json.field value key with
  | some (.string text) => some text
  | _ => none

def Json.itemsField? (value : Json ν) (key : JsString) : Option (List (Json ν)) :=
  match Json.field value key with
  | some (.array items) => some items
  | _ => none

/-- One turn of the loop of `parseTrail`. -/
def parseHop (numbers : Numbers ν) (entry : Json ν) : Option (StoredHop ν) :=
  if Json.isObject entry then
    let qualifiedName := Json.textField entry (js "qualifiedName")
    let name := Json.textField entry (js "name")
    if qualifiedName = [] ∧ name = [] then none
    else
      some
        { dir := directionOf (Json.textField? entry (js "dir"))
          name := if name = [] then qualifiedName else name
          qualifiedName := if qualifiedName = [] then name else qualifiedName
          kind := Json.textField entry (js "kind")
          file := Json.textField entry (js "file")
          line :=
            match Json.field entry (js "line") with
            | some (.number line) => if numbers.isPositive line then numbers.floor line
                else numbers.ofNat 0
            | _ => numbers.ofNat 0
          id := Json.textField entry (js "id") }
  else none

def parseTrail (numbers : Numbers ν) (id text : JsString) : Option (StoredTrail ν) :=
  match parseJson numbers.ofLiteral text with
  | none => none
  | some value =>
      match Json.textField? value (js "name"), Json.itemsField? value (js "hops") with
      | some name, some items =>
          if trim name = [] ∨ items = [] then none
          else
            ((items.take MAX_TRAIL_HOPS).mapM (parseHop numbers)).map fun hops =>
              let created := Json.textField value (js "createdAt")
              { version :=
                  match Json.field value (js "version") with
                  | some (.number version) => version
                  | _ => numbers.ofNat TRAIL_FORMAT_VERSION
                id := id
                name := name.take MAX_TRAIL_NAME
                note := (Json.textField value (js "note")).take MAX_TRAIL_NOTE
                author := (Json.textField value (js "author")).take 120
                createdAt := created
                updatedAt := (Json.textField? value (js "updatedAt")).getD created
                hops := hops }
      | _, _ => none

end Read

/-! ## The directory -/

/-- A file, and whether it can be read and written, or a directory. -/
inductive Entry where
  | file (bytes : Bytes) (readable writable : Bool)
  | directory
  deriving DecidableEq, Repr

/-- The entries by name; a missing directory has none. -/
structure Directory where
  entries : List (JsString × Entry)
  names_nodup : (entries.map Prod.fst).Nodup

namespace Directory

def names (dir : Directory) : List JsString := dir.entries.map Prod.fst

def lookup (dir : Directory) (name : JsString) : Option Entry := dir.entries.lookup name

def put (dir : Directory) (name : JsString) (entry : Entry) : Directory where
  entries := setEntry dir.entries name entry
  names_nodup := nodup_keys_setEntry dir.names_nodup name entry

def remove (dir : Directory) (name : JsString) : Directory where
  entries := dir.entries.filter fun entry => entry.1 ≠ name
  names_nodup := (List.filter_sublist.map Prod.fst).nodup dir.names_nodup

/-- `unlinkSync`, its exception caught. -/
def unlink (dir : Directory) (name : JsString) : Directory :=
  if dir.lookup name = some .directory then dir else dir.remove name

/-- `writeFileSync` -/
def write (dir : Directory) (name : JsString) (bytes : Bytes) : Option Directory :=
  match dir.lookup name with
  | some .directory => none
  | some (.file _ readable writable) =>
      if writable then some (dir.put name (.file bytes readable true)) else none
  | none => some (dir.put name (.file bytes true true))

/-- `renameSync` of a file. -/
def rename (dir : Directory) (source target : JsString) : Option Directory :=
  match dir.lookup source with
  | some (.file bytes readable writable) =>
      if dir.lookup target = some .directory then none
      else some ((dir.remove source).put target (.file bytes readable writable))
  | _ => none

end Directory

/-! ## The store -/

/-- What a save meets outside: the built-ins of the language, the index, the process, the clock
and the name of the author. -/
structure TrailEnvironment (ν : Type) where
  numbers : Numbers ν
  decoder : Bytes.TextDecoder
  toLowerCase : JsString → JsString
  /-- `a.localeCompare(b) <= 0` -/
  localeLE : JsString → JsString → Bool
  pid : Nat
  now : JsString
  author : JsString

section Store

variable {ν : Type} (env : TrailEnvironment ν)

def dotJson : JsString := js ".json"

/-- `name.slice(0, -'.json'.length)` -/
def idOf (name : JsString) : JsString := name.take (name.length - dotJson.length)

def readTrailFile (entry : Option Entry) (id : JsString) : Option (StoredTrail ν) :=
  match entry with
  | some (.file bytes readable _) =>
      if MAX_TRAIL_FILE_BYTES < bytes.length ∨ readable = false then none
      else parseTrail env.numbers id (decodeUtf8 env.decoder bytes)
  | _ => none

/-- The loop over the names, with the trails and the number of files skipped so far. -/
def listFrom (dir : Directory) : List JsString → List (StoredTrail ν) → Nat →
    List (StoredTrail ν) × Nat
  | [], trails, skipped => (trails, skipped)
  | name :: names, trails, skipped =>
      if ¬ dotJson <:+ name then listFrom dir names trails skipped
      else if MAX_TRAILS ≤ trails.length then (trails, skipped)
      else if isTrailId (idOf name) then
        match readTrailFile env (dir.lookup name) (idOf name) with
        | some trail => listFrom dir names (trails ++ [trail]) skipped
        | none => listFrom dir names trails (skipped + 1)
      else listFrom dir names trails (skipped + 1)

/-- The newest save first. -/
def newerFirst (a b : StoredTrail ν) : Bool :=
  if a.updatedAt < b.updatedAt then false
  else if b.updatedAt < a.updatedAt then true
  else env.localeLE a.name b.name

structure StoredTrailList (ν : Type) where
  trails : List (StoredTrail ν)
  skipped : Nat

def listStoredTrails (dir : Directory) : StoredTrailList ν where
  trails := (listFrom env dir (inOrder dir.names) [] 0).1.mergeSort (newerFirst env)
  skipped := (listFrom env dir (inOrder dir.names) [] 0).2

/-! ## What is written -/

def StoredHop.fields (hop : StoredHop Nat) : List (JsString × Json Nat) :=
  [(js "dir", .string hop.dir.text), (js "name", .string hop.name),
    (js "qualifiedName", .string hop.qualifiedName), (js "kind", .string hop.kind),
    (js "file", .string hop.file), (js "line", .number hop.line), (js "id", .string hop.id)]

def StoredTrail.fields (trail : StoredTrail Nat) : List (JsString × Json Nat) :=
  [(js "version", .number trail.version), (js "id", .string trail.id),
    (js "name", .string trail.name), (js "note", .string trail.note),
    (js "author", .string trail.author), (js "createdAt", .string trail.createdAt),
    (js "updatedAt", .string trail.updatedAt),
    (js "hops", .array (trail.hops.map fun hop => .object hop.fields))]

/-- `JSON.stringify(trail, null, 2)` and a line feed. -/
def StoredTrail.bytes (trail : StoredTrail Nat) : Bytes :=
  encodeUtf8 (stringify wholeNumbers (js "  ") [] (.object trail.fields) ++ [unit '\n'])

/-- The exceptions of a save. -/
inductive SaveError where
  | readOnly | notObject | nameMissing | nameTooLong | noteTooLong | hopsMissing | tooManyHops
  | notHop | hopWithoutId
  | notIndexed (hop : Nat) (id : JsString)
  | notTrailId (id : JsString)
  | tooManyNamed (base : JsString)
  | writeFailed
  deriving DecidableEq, Repr

def trailFile (id : JsString) : JsString := id ++ dotJson

def tempFile (id : JsString) : JsString :=
  trailFile id ++ unit '.' :: ((Text.ofNat env.pid).map unit ++ js ".tmp")

/-- The directory behind the call, and whether the call returned. -/
def writeStoredTrail (dir : Directory) (trail : StoredTrail Nat) :
    Directory × Except SaveError Unit :=
  if isTrailId trail.id then
    match dir.write (tempFile env trail.id) trail.bytes with
    | none => (dir.unlink (tempFile env trail.id), .error .writeFailed)
    | some written =>
        match written.rename (tempFile env trail.id) (trailFile trail.id) with
        | none => (written.unlink (tempFile env trail.id), .error .writeFailed)
        | some renamed => (renamed, .ok ())
  else (dir, .error (.notTrailId trail.id))

/-- `${base}-${n}` -/
def numbered (base : JsString) (n : Nat) : JsString :=
  base ++ unit '-' :: (Text.ofNat n).map unit

def uniqueTrailId (base : JsString) (taken : List JsString) : Except SaveError JsString :=
  if base ∈ taken then
    match (List.range' 2 998).find? fun n => numbered base n ∉ taken with
    | some n => .ok (numbered base n)
    | none => .error (.tooManyNamed base)
  else .ok base

end Store

/-! ## Saving -/

/-- The fields of a node of the index that a hop takes. -/
structure HopNode where
  id : JsString
  kind : JsString
  name : JsString
  qualifiedName : JsString
  filePath : JsString
  startLine : Nat
  deriving DecidableEq

/-- `dir` and `id` of every hop. -/
structure SaveTrailRequest where
  name : JsString
  note : JsString
  hops : List (Option JsString × JsString)

section Save

variable {ν : Type}

def parseRequestHop (entry : Json ν) : Except SaveError (Option JsString × JsString) :=
  if Json.isObject entry then
    match Json.textField? entry (js "id") with
    | some id =>
        if id = [] then .error .hopWithoutId else .ok (Json.textField? entry (js "dir"), id)
    | none => .error .hopWithoutId
  else .error .notHop

def parseSaveRequest (body : Json ν) : Except SaveError SaveTrailRequest :=
  match body with
  | .object _ =>
      let name := replaceRuns isWhite (unit ' ') false (trim (Json.textField body (js "name")))
      let note := trim (Json.textField body (js "note"))
      if name = [] then .error .nameMissing
      else if MAX_TRAIL_NAME < name.length then .error .nameTooLong
      else if MAX_TRAIL_NOTE < note.length then .error .noteTooLong
      else
        match Json.itemsField? body (js "hops") with
        | none => .error .hopsMissing
        | some items =>
            if items = [] then .error .hopsMissing
            else if MAX_TRAIL_HOPS < items.length then .error .tooManyHops
            else (items.mapM parseRequestHop).map fun hops => ⟨name, note, hops⟩
  | _ => .error .notObject

/-- `toNodeRef`, and the direction that was asked for. -/
def hopOf (dir : Option JsString) (node : HopNode) : StoredHop Nat where
  dir := directionOf dir
  name := node.name
  qualifiedName := node.qualifiedName
  kind := node.kind
  file := node.filePath.map fun c => if c = unit '\\' then unit '/' else c
  line := node.startLine
  id := node.id

/-- The hops from the one at `index` on. -/
def hopsFrom (getNode : JsString → Option HopNode) : (index : Nat) →
    List (Option JsString × JsString) → Except SaveError (List (StoredHop Nat))
  | _, [] => .ok []
  | index, (dir, id) :: rest =>
      match getNode id with
      | none => .error (.notIndexed (index + 1) id)
      | some node => (hopsFrom getNode (index + 1) rest).map (hopOf dir node :: ·)

/-- The first hop is where the walk began, whatever the client called it. -/
def startFirst : List (StoredHop Nat) → List (StoredHop Nat)
  | [] => []
  | first :: rest => { first with dir := .start } :: rest

structure Saved where
  id : JsString
  replaced : Bool
  deriving DecidableEq

variable (env : TrailEnvironment ν) (getNode : JsString → Option HopNode)

/-- The listed trail that has the name already. -/
def sameName (dir : Directory) (name : JsString) : Option (StoredTrail ν) :=
  (listStoredTrails env dir).trails.find? fun trail => trail.name = name

/-- The ids of the listed trails that have another name. -/
def takenByOthers (dir : Directory) (name : JsString) : List JsString :=
  ((listStoredTrails env dir).trails.filter fun trail => trail.name ≠ name).map (·.id)

def trailIdFor (dir : Directory) (name : JsString) : Except SaveError JsString :=
  match sameName env dir name with
  | some trail => .ok trail.id
  | none => uniqueTrailId (slugify env.toLowerCase name) (takenByOthers env dir name)

/-- The trail that a save under an id writes. -/
def trailToSave (dir : Directory) (request : SaveTrailRequest) (hops : List (StoredHop Nat))
    (id : JsString) : StoredTrail Nat where
  version := TRAIL_FORMAT_VERSION
  id := id
  name := request.name
  note := request.note
  author := env.author
  createdAt :=
    match sameName env dir request.name with
    | some trail => if trail.createdAt = [] then env.now else trail.createdAt
    | none => env.now
  updatedAt := env.now
  hops := hops

/-- The request with its hops looked up. -/
def requested (readOnly : Bool) (body : Json ν) :
    Except SaveError (SaveTrailRequest × List (StoredHop Nat)) :=
  if readOnly then .error .readOnly
  else
    match parseSaveRequest body with
    | .error e => .error e
    | .ok request =>
        (hopsFrom getNode 0 request.hops).map fun hops => (request, startFirst hops)

/-- The directory behind the call, and what it answers beside the listing. -/
def saveTrail (readOnly : Bool) (dir : Directory) (body : Json ν) :
    Directory × Except SaveError Saved :=
  match requested getNode readOnly body with
  | .error e => (dir, .error e)
  | .ok (request, hops) =>
      match trailIdFor env dir request.name with
      | .error e => (dir, .error e)
      | .ok id =>
          let written := writeStoredTrail env dir (trailToSave env dir request hops id)
          (written.1, written.2.map fun _ => ⟨id, (sameName env dir request.name).isSome⟩)

end Save

end AfyxGraph.UiServer
