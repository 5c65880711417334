import AfyxGraph.Core.Entries
import AfyxGraph.Extraction.Types
import Mathlib.Algebra.GroupWithZero.Nat

/-! # The dead-code report

Symbols nothing refers to, filtered by five passes that each say why a row was left out, and the
survivors grouped under the types that own them. The tables are read by queries; sources are read
through a cache of bounded size.
-/

namespace AfyxGraph.Graph.DeadCode

open AfyxGraph.Core AfyxGraph.Extraction

/-! ## The graph -/

/-- A row of `nodes` with the columns the policy looks at. -/
structure Symbol extends Node where
  endLine : Nat
  isExported : Bool
  isAbstract : Bool
  decorators : List String
  deriving DecidableEq

structure SourceFile where
  path : String
  generated : Bool

structure PendingReference where
  referenceName : String
  nameTail : String

/-- The tables; node ids are a primary key. -/
structure CodeGraph where
  nodes : List Symbol
  edges : List Edge
  files : List SourceFile
  unresolvedRefs : List PendingReference
  ids : (nodes.map (·.id)).Nodup

/-- What the policy takes from its platform, and the path conventions of tests. -/
structure Platform where
  toLowerCase : String → String
  localeCompare : String → String → Ordering
  isLetterOrNumber : Char → Bool
  isTestFile : String → Bool

structure Candidate where
  node : Symbol
  generated : Bool

/-- `[...new Set(values)]` -/
def unique {α : Type} [DecidableEq α] (values : List α) : List α :=
  values.foldl (fun seen v => if v ∈ seen then seen else seen ++ [v]) []

namespace CodeGraph

variable (cg : CodeGraph)

/-- An edge that makes its target referenced: from another node, and not `contains`. -/
def refersTo (id : String) (e : Edge) : Bool :=
  e.target = id && e.kind != .contains && e.source != id

/-- `ORDER BY file_path, start_line, name` -/
def rowOrder (a b : Candidate) : Bool :=
  ((compare a.node.filePath b.node.filePath).then
    ((compare a.node.startLine b.node.startLine).then (compare a.node.name b.node.name))).isLE

def getUnreferencedNodes (kinds : List NodeKind) (limit : Nat) : List Candidate :=
  let rows := cg.nodes.filter fun n => n.kind ∈ kinds && !cg.edges.any (refersTo n.id)
  let candidates := rows.map fun n =>
    { node := n
      generated := ((cg.files.find? fun f => f.path = n.filePath).map (·.generated)).getD false }
  (candidates.mergeSort rowOrder).take limit

def getOutgoingEdgesFrom (ids : List String) (kinds : List EdgeKind) : List Edge :=
  cg.edges.filter fun e => e.source ∈ ids && e.kind ∈ kinds

def getIncomingEdgesTo (ids : List String) (kinds : List EdgeKind) : List Edge :=
  cg.edges.filter fun e => e.target ∈ ids && e.kind ∈ kinds

def getNode (id : String) : Option Symbol := cg.nodes.find? fun n => n.id = id

/-- Whether `getNodesByIds(ids)` finds the node is whether the table has it. -/
def getNodesByIds (ids : List String) : List Symbol := (unique ids).filterMap cg.getNode

def getLanguagesWithExports (languages : List Language) : List Language :=
  (unique languages).filter fun l => cg.nodes.any fun n => n.language = l && n.isExported

def filePathOf (id : String) : Option String := (cg.getNode id).map (·.filePath)

/-- Paths of the other files with an edge, not `contains`, into the file. -/
def getFileDependents (file : String) : List String :=
  unique ((cg.edges.filter fun e => e.kind != .contains && cg.filePathOf e.target = some file
    && cg.filePathOf e.source != some file).filterMap fun e => cg.filePathOf e.source)

def getFileDependentCount (file : String) : Nat := (cg.getFileDependents file).length

def getUnresolvedNamesAmong (names : List String) : List String :=
  (unique names).filter fun name => name ≠ "" &&
    cg.unresolvedRefs.any fun r => r.referenceName = name || r.nameTail = name

/-- Names several nodes have, of which some node is referred to. -/
def getAmbiguousReferencedNames (names : List String) : List String :=
  (unique names).filter fun name => name ≠ "" &&
    decide (1 < (cg.nodes.filter fun n => n.name = name).length) &&
    (cg.nodes.filter fun n => n.name = name).any fun n =>
      cg.edges.any fun e => e.target = n.id && e.kind != .contains

end CodeGraph

/-! ## Constants -/

def deadCodeKinds : List NodeKind :=
  [.function, .method, .class, .component, .interface, .struct, .trait, .protocol, .enum, .union,
    .typeAlias]

def deadCodeAllowedKinds : List NodeKind :=
  deadCodeKinds ++ [.variable, .constant, .property, .field, .enumMember, .namespace, .module]

def maxDeadCodeCandidates : Nat := 20000
def maxOverrideAncestorDepth : Nat := 8
def maxCorroborationFiles : Nat := 600

def memberContainers : List NodeKind :=
  [.class, .interface, .struct, .trait, .protocol, .enum, .union, .typeAlias]

def declarationContainers : List NodeKind := [.interface, .trait, .protocol]

def overridable : List NodeKind := [.method, .function, .property, .field]

def implicitNames : List String :=
  ["constructor", "main", "init", "deinit", "finalize", "destructor", "dispose", "drop", "default",
    "tostring", "equals", "gethashcode", "hashcode"]

def testSegments : List String :=
  ["test", "tests", "__tests__", "spec", "specs", "testing"]

/-- The markup languages that are languages of a node. -/
def markupLanguages : List Language := [.svelte, .vue, .astro, .liquid, .razor, .twig]

def headerSuffixes : List String :=
  [".h", ".hh", ".hpp", ".hxx", ".h++", ".inc", ".d.ts", ".d.mts", ".d.cts", ".pyi", ".pxd"]

def vendorSegments : List String :=
  ["vendor", "vendored", "third_party", "third-party", "thirdparty", "external", "externals",
    "node_modules", "bower_components", "site-packages", "godeps", "pods", ".venv", "venv"]

/-! ## Names and paths -/

section Names

variable (platform : Platform)

def isHeaderFile (filePath : String) : Bool :=
  headerSuffixes.any fun suffix => suffix.toList.isSuffixOf (platform.toLowerCase filePath).toList

/-- The separators are a class; the empty parts between two of them are no segment. -/
def isTestScope (qualifiedName : String) : Bool :=
  (qualifiedName.toList.splitOnP fun c => c ∈ ['.', ':', '/', '\\', '#', '>']).any fun part =>
    platform.toLowerCase (String.ofList part) ∈ testSegments

def isVendoredPath (filePath : String) : Bool :=
  (filePath.toList.splitOnP fun c => c = '\\' || c = '/').any fun part =>
    platform.toLowerCase (String.ofList part) ∈ vendorSegments

/-- `/^__[a-z0-9_]+__$/i` -/
def isDunderName (name : String) : Bool :=
  let cs := name.toList
  decide (5 ≤ cs.length) && ['_', '_'].isPrefixOf cs && ['_', '_'].isSuffixOf cs &&
    cs.all fun c => c.isAlphanum || c = '_'

def isImplicitEntryName (name : String) : Bool :=
  isDunderName name || platform.toLowerCase name ∈ implicitNames

def identifierChar : Option Char → Bool
  | none => false
  | some c => c = '_' || c = '$' || platform.isLetterOrNumber c

/-- `source.indexOf(name, cursor)` -/
def indexOf (source name : List Char) (cursor : Nat) : Option Nat :=
  (List.range' cursor (source.length + 1 - cursor)).find? fun i => name.isPrefixOf (source.drop i)

/-- The loop of `mentionCount`; a name is not empty, so every round moves on. -/
def countMentions (source name : List Char) (stopAt : Nat) : Nat → Nat → Nat → Nat
  | 0, _, count => count
  | rounds + 1, cursor, count =>
      match indexOf source name cursor with
      | none => count
      | some found =>
          let cursor := found + name.length
          let before := if found = 0 then none else source[found - 1]?
          if !identifierChar platform before && !identifierChar platform source[cursor]? then
            if stopAt ≤ count + 1 then count + 1
            else countMentions source name stopAt rounds cursor (count + 1)
          else countMentions source name stopAt rounds cursor count

def mentionCount (source name : String) (stopAt : Nat) : Nat :=
  if name.isEmpty then 0
  else countMentions platform source.toList name.toList stopAt (source.length + 1) 0 0

end Names

/-! ## The ledger -/

inductive Exclusion where
  | tests | generated | exported | exportsUnknown | declarations | decorated | overriding
  | implicit | vendored | testScope | markup | unreachableFile | unresolvedName | ambiguousName
  | mentioned | unreadable | nested
  deriving DecidableEq, Repr

def Exclusion.all : List Exclusion :=
  [.tests, .generated, .exported, .exportsUnknown, .declarations, .decorated, .overriding,
    .implicit, .vendored, .testScope, .markup, .unreachableFile, .unresolvedName, .ambiguousName,
    .mentioned, .unreadable, .nested]

/-- The counters. -/
abbrev Ledger := Exclusion → Nat

def emptyLedger : Ledger := fun _ => 0

/-- `ledger[reason] += 1` -/
def Ledger.bump (ledger : Ledger) (reason : Exclusion) : Ledger :=
  fun r => if r = reason then ledger r + 1 else ledger r

def Ledger.sum (ledger : Ledger) : Nat := (Exclusion.all.map ledger).sum

/-- `reject`, where what `reasonFor` closes over may change from row to row. -/
def rejectFrom {σ : Type} (reasonFor : σ → Candidate → Option Exclusion × σ) :
    σ → List Candidate → Ledger → List Candidate × Ledger
  | _, [], ledger => ([], ledger)
  | s, row :: rows, ledger =>
      match reasonFor s row with
      | (none, s) =>
          let (accepted, ledger) := rejectFrom reasonFor s rows ledger
          (row :: accepted, ledger)
      | (some reason, s) => rejectFrom reasonFor s rows (ledger.bump reason)

def reject (rows : List Candidate) (ledger : Ledger) (reasonFor : Candidate → Option Exclusion) :
    List Candidate × Ledger :=
  rejectFrom (fun () row => (reasonFor row, ())) () rows ledger

/-! ## The passes -/

structure Options where
  tests : Bool
  generated : Bool
  exported : Bool

section Passes

variable (platform : Platform) (cg : CodeGraph)

def cheapReason (options : Options) (exportLanguages : List Language) (row : Candidate) :
    Option Exclusion :=
  let node := row.node
  if !options.tests && platform.isTestFile node.filePath then some .tests
  else if !options.generated && row.generated then some .generated
  else if !options.exported && (node.isExported || isHeaderFile platform node.filePath) then
    some .exported
  else if !options.exported && node.language ∉ exportLanguages then some .exportsUnknown
  else if node.isAbstract then some .declarations
  else if isImplicitEntryName platform node.name then some .implicit
  else if isVendoredPath platform node.filePath then some .vendored
  else if !options.tests && isTestScope platform node.qualifiedName then some .testScope
  else if node.language ∈ markupLanguages then some .markup
  else none

/-- Of several `contains` edges into a member the first names its owner. -/
def ownerByMember (edges : List Edge) : List (String × String) :=
  edges.foldl
    (fun owners e =>
      if (owners.lookup e.target).isSome then owners else setEntry owners e.target e.source) []

def candidateContainers (rows : List Candidate) : List (String × Symbol) :=
  let memberIds := (rows.filter fun row => row.node.kind ∈ overridable).map (·.node.id)
  (ownerByMember (cg.getIncomingEdgesTo memberIds [.contains])).filterMap fun (memberId, ownerId) =>
    match cg.getNode ownerId with
    | some owner => if owner.kind ∈ memberContainers then some (memberId, owner) else none
    | none => none

/-- A map from ids to sets of ids. -/
abbrev IdSets := List (String × List String)

def IdSets.add (m : IdSets) (key : String) (values : List String) : IdSets :=
  setEntry m key (unique ((m.lookup key).getD [] ++ values))

structure Ancestry where
  ancestors : IdSets := []
  seen : List String
  wave : IdSets

/-- One level of the walk up `extends` and `implements`. -/
def Ancestry.level (a : Ancestry) : Ancestry :=
  let edges := cg.getOutgoingEdgesFrom (a.wave.map Prod.fst) [.extends, .implements]
  let reached := edges.filterMap fun e =>
    match a.wave.lookup e.source with
    | some roots => if e.source = e.target then none else some (e.target, roots)
    | none => none
  let next := reached.foldl (fun (m : IdSets) (target, roots) => m.add target roots) []
  { ancestors := reached.foldl (fun (m : IdSets) (target, roots) => m.add target roots) a.ancestors
    seen := a.seen ++ (next.map Prod.fst).filter (· ∉ a.seen)
    wave := next.filter fun (id, _) => id ∉ a.seen }

def Ancestry.climb : Nat → Ancestry → Ancestry
  | 0, a => a
  | levels + 1, a => if a.wave.isEmpty then a else climb levels (a.level cg)

structure AncestorEvidence where
  namesByRoot : IdSets := []
  uncertainRoots : List String := []

def ancestorEvidence (rootIds : List String) : AncestorEvidence :=
  let a := Ancestry.climb cg maxOverrideAncestorDepth
    { seen := rootIds, wave := rootIds.map fun id => (id, [id]) }
  -- The look-ahead only detects unresolved ancestry; it does not traverse it.
  let ahead := (cg.getOutgoingEdgesFrom (a.wave.map Prod.fst) [.extends, .implements]).flatMap
    fun e => if e.source = e.target || e.target ∈ a.seen then []
      else (a.wave.lookup e.source).getD []
  let contained := cg.getOutgoingEdgesFrom (a.ancestors.map Prod.fst) [.contains]
  a.ancestors.foldl
    (fun evidence (ancestorId, roots) =>
      let members := (contained.filter fun e => e.source = ancestorId).filterMap
        fun e => cg.getNode e.target
      let names := (members.filter fun n => n.kind ∈ overridable).map (·.name)
      if names.isEmpty then
        { evidence with uncertainRoots := unique (evidence.uncertainRoots ++ roots) }
      else
        { evidence with
          namesByRoot := roots.foldl (fun (m : IdSets) root => m.add root names)
            evidence.namesByRoot })
    { uncertainRoots := unique ahead }

def overridingCandidates (rows : List Candidate) (containers : List (String × Symbol)) :
    List String :=
  let evidence := ancestorEvidence cg (unique (containers.map fun entry => entry.2.id))
  (rows.filter fun row =>
    match containers.lookup row.node.id with
    | some owner => owner.id ∈ evidence.uncertainRoots ||
        row.node.name ∈ (evidence.namesByRoot.lookup owner.id).getD []
    | none => false).map (·.node.id)

def unreachedFiles (rows : List Candidate) : List String :=
  (unique (rows.map (·.node.filePath))).filter fun file => cg.getFileDependentCount file = 0

/-- Sources as they were first read. -/
abbrev SourceCache := List (String × Option String)

def load (readSource : String → Option String) (cache : SourceCache) (file : String) :
    Option String × SourceCache :=
  match cache.lookup file with
  | some source => (source, cache)
  | none =>
      let source := if cache.length < maxCorroborationFiles then readSource file else none
      (source, cache ++ [(file, source)])

/-- The inner loop of `corroborate`: two mentions end it. -/
def scanScope (readSource : String → Option String) (node : Symbol) :
    List String → SourceCache → Option String → Nat → Option String × Nat × SourceCache
  | [], cache, own, mentions => (own, mentions, cache)
  | file :: files, cache, own, mentions =>
      let (source, cache) := load readSource cache file
      let own := if file = node.filePath then source else own
      let mentions := match source with
        | some text => mentions + mentionCount platform text node.name (2 - mentions)
        | none => mentions
      if 2 ≤ mentions then (own, mentions, cache)
      else scanScope readSource node files cache own mentions

def corroborationReason (readSource : String → Option String) (cache : SourceCache)
    (row : Candidate) : Option Exclusion × SourceCache :=
  let node := row.node
  let (own, mentions, cache) := scanScope platform readSource node
    (node.filePath :: cg.getFileDependents node.filePath) cache none 0
  match own with
  | none => (some .unreadable, cache)
  | some _ => (if 2 ≤ mentions then some .mentioned else none, cache)

def corroborate (rows : List Candidate) (readSource : String → Option String) (ledger : Ledger) :
    List Candidate × Ledger :=
  rejectFrom (corroborationReason platform cg readSource) [] rows ledger

/-- `if (sourceReader) remaining = corroborate(…)` -/
def corroborateWith (sourceReader : Option (String → Option String)) (rows : List Candidate)
    (ledger : Ledger) : List Candidate × Ledger :=
  match sourceReader with
  | some readSource => corroborate platform cg rows readSource ledger
  | none => (rows, ledger)

end Passes

/-! ## Assembly -/

structure DeadCodeEntry where
  node : Symbol
  members : List Symbol
  lines : Nat
  exported : Bool

section Assembly

variable (platform : Platform)

def memberOrder (a b : Symbol) : Bool :=
  ((compare a.startLine b.startLine).then (platform.localeCompare a.name b.name)).isLE

def entryOrder (a b : DeadCodeEntry) : Bool :=
  ((compare b.lines a.lines).then
    ((platform.localeCompare a.node.filePath b.node.filePath).then
      (compare a.node.startLine b.node.startLine))).isLE

def entryOf (node : Symbol) : DeadCodeEntry where
  node := node
  members := []
  lines := max 1 (node.endLine + 1 - node.startLine)
  exported := node.isExported

structure Child where
  node : Symbol
  owner : String

structure Assembly where
  entries : List (String × DeadCodeEntry) := []
  children : List Child := []
  ledger : Ledger

def placeRow (containers : List (String × Symbol)) (survivingIds : List String) (a : Assembly)
    (row : Candidate) : Assembly :=
  let entry := { a with entries := setEntry a.entries row.node.id (entryOf row.node) }
  match containers.lookup row.node.id with
  | some owner =>
      if owner.id ∈ survivingIds then
        { a with
          children := a.children ++ [{ node := row.node, owner := owner.id }]
          ledger := a.ledger.bump .nested }
      else entry
  | none => entry

/-- `entries.get(child.owner)?.members.push(child.node)` -/
def pushMember (entries : List (String × DeadCodeEntry)) (child : Child) :
    List (String × DeadCodeEntry) :=
  entries.map fun (id, entry) =>
    (id, if id = child.owner then { entry with members := entry.members ++ [child.node] }
      else entry)

def assemble (rows : List Candidate) (containers : List (String × Symbol)) (ledger : Ledger) :
    List DeadCodeEntry × Ledger :=
  let survivingIds := rows.map (·.node.id)
  let a := rows.foldl (placeRow containers survivingIds) { ledger }
  let entries := (a.children.foldl pushMember a.entries).map fun (_, entry) =>
    { entry with members := entry.members.mergeSort (memberOrder platform) }
  (entries.mergeSort (entryOrder platform), a.ledger)

end Assembly

/-! ## The report -/

/-- `readSource`: left out, the project's own reader is used; `null` turns corroboration off. -/
structure DeadCodeQuery where
  kinds : Option (List NodeKind) := none
  includeExported : Bool := false
  includeTests : Bool := false
  includeGenerated : Bool := false
  limit : Option Int := none
  readSource : Option (Option (String → Option String)) := none

structure DeadCodeReport where
  entries : List DeadCodeEntry
  total : Nat
  candidates : Nat
  excluded : Ledger
  kinds : List NodeKind
  includeExported : Bool
  bounded : Bool
  corroborated : Bool

def requestedKinds (kinds : Option (List NodeKind)) : List NodeKind :=
  let valid := (kinds.getD []).filter (· ∈ deadCodeAllowedKinds)
  if valid.isEmpty then deadCodeKinds else unique valid

section Report

variable (platform : Platform) (cg : CodeGraph) (projectSource : String → Option String)

def candidatesOf (query : DeadCodeQuery) : List Candidate :=
  (cg.getUnreferencedNodes (requestedKinds query.kinds) (maxDeadCodeCandidates + 1)).take
    maxDeadCodeCandidates

def DeadCodeQuery.sourceReader (query : DeadCodeQuery) : Option (String → Option String) :=
  query.readSource.getD (some projectSource)

def graphReason (decorated overriding unresolved ambiguous : List String)
    (containers : List (String × Symbol)) (row : Candidate) : Option Exclusion :=
  let node := row.node
  let owner := containers.lookup node.id
  if node.id ∈ decorated || !node.decorators.isEmpty then some .decorated
  else if (owner.map fun o => decide (o.kind ∈ declarationContainers)).getD false then
    some .declarations
  else if node.id ∈ overriding then some .overriding
  else if node.name ∈ unresolved then some .unresolvedName
  else if node.name ∈ ambiguous then some .ambiguousName
  else none

/-- The ranked entries before they are cut to the limit, and the ledger. -/
def ranked (query : DeadCodeQuery) : List DeadCodeEntry × Ledger :=
  let options : Options :=
    { tests := query.includeTests, generated := query.includeGenerated,
      exported := query.includeExported }
  let candidates := candidatesOf cg query
  let exportLanguages := if options.exported then []
    else cg.getLanguagesWithExports (candidates.map (·.node.language))
  let (remaining, ledger) := reject candidates emptyLedger
    (cheapReason platform options exportLanguages)
  let decorated := (cg.getOutgoingEdgesFrom (remaining.map (·.node.id)) [.decorates]).map (·.source)
  let containers := candidateContainers cg remaining
  let overriding := overridingCandidates cg remaining containers
  let islands := unreachedFiles cg remaining
  let (remaining, ledger) := reject remaining ledger fun row =>
    if row.node.filePath ∈ islands then some .unreachableFile else none
  let names := remaining.map (·.node.name)
  let (remaining, ledger) := reject remaining ledger
    (graphReason decorated overriding (cg.getUnresolvedNamesAmong names)
      (cg.getAmbiguousReferencedNames names) containers)
  let (remaining, ledger) := corroborateWith platform cg (query.sourceReader projectSource)
    remaining ledger
  assemble platform remaining containers ledger

def DeadCodeQuery.entryLimit (query : DeadCodeQuery) : Nat := (max 1 (query.limit.getD 200)).toNat

def buildDeadCodeReport (query : DeadCodeQuery) : DeadCodeReport :=
  let kinds := requestedKinds query.kinds
  let (entries, ledger) := ranked platform cg projectSource query
  { entries := entries.take query.entryLimit
    total := entries.length
    candidates := (candidatesOf cg query).length
    excluded := ledger
    kinds
    includeExported := query.includeExported
    bounded := decide (maxDeadCodeCandidates <
      (cg.getUnreferencedNodes kinds (maxDeadCodeCandidates + 1)).length)
    corroborated := (query.sourceReader projectSource).isSome }

end Report

end AfyxGraph.Graph.DeadCode
