import AfyxGraph.Admission.Admit
import AfyxGraph.Core.Counts
import Mathlib.Algebra.GroupWithZero.Nat
import Mathlib.Data.Finset.Lattice.Lemmas
import Mathlib.Data.Finset.Option
import Mathlib.Data.List.DropRight
import Mathlib.Data.Rat.Defs

/-! # References, their resolution and its admission

The resolver is a parameter: what it answers for a reference depends on the reference and
on the edges that are committed. The table of references is in row-id order, and every row
has the id it was stored with.
-/

namespace AfyxGraph.Resolution

open AfyxGraph.Core
open Extraction (NodeKind EdgeKind Language Node)

inductive ReferenceKind where
  | edge (kind : EdgeKind)
  | functionRef
  deriving DecidableEq, Repr

def ReferenceKind.text : ReferenceKind → String
  | .edge kind => Store.kindText kind
  | .functionRef => "function_ref"

inductive ResolvedBy where
  | exactMatch
  | import
  | qualifiedName
  | framework
  | fuzzy
  | instanceMethod
  | filePath
  | functionRef
  deriving DecidableEq, Repr

def ResolvedBy.text : ResolvedBy → String
  | .exactMatch => "exact-match"
  | .import => "import"
  | .qualifiedName => "qualified-name"
  | .framework => "framework"
  | .fuzzy => "fuzzy"
  | .instanceMethod => "instance-method"
  | .filePath => "file-path"
  | .functionRef => "function-ref"

structure UnresolvedRef where
  fromNodeId : String
  referenceName : String
  referenceKind : ReferenceKind
  line : Nat
  column : Nat
  filePath : String
  language : Language
  rowId : Option Nat
  deriving DecidableEq, Repr

/-- `json` is a value a strategy wants persisted; a score is a finite double. -/
inductive MetadataValue where
  | json (text : String)
  | text (value : String)
  | score (value : ℚ)
  | flag (value : Bool)
  deriving DecidableEq, Repr

abbrev Metadata := List (String × MetadataValue)

structure Target where
  targetNodeId : String
  metadata : Option Metadata
  deriving DecidableEq, Repr

structure ResolvedRef where
  original : UnresolvedRef
  targetNodeId : String
  confidence : ℚ
  resolvedBy : ResolvedBy
  edgeKind : Option EdgeKind
  metadata : Option Metadata
  alsoTargets : List Target
  deriving DecidableEq, Repr

structure Edge where
  source : String
  target : String
  kind : EdgeKind
  line : Nat
  column : Nat
  metadata : Metadata
  deriving DecidableEq, Repr

/-- What `resolveOne` comes to: a match, nothing, or nothing yet and a place in the queue of a
later pass. -/
inductive Verdict where
  | resolved (ref : ResolvedRef)
  | failed
  | deferredChain
  | deferredThisMember
  deriving DecidableEq, Repr

/-- A match is one for the reference that was asked. -/
structure Resolver where
  resolveOne : List Edge → UnresolvedRef → Verdict
  original_rowId : ∀ {edges ref found}, resolveOne edges ref = .resolved found →
    found.original.rowId = ref.rowId

/-! ## The tables -/

inductive RefStatus where
  | pending
  | failed
  deriving DecidableEq, Repr

/-- A row of `unresolved_refs`. -/
structure RefRow where
  id : Nat
  fromNodeId : String
  referenceName : String
  referenceKind : ReferenceKind
  line : Nat
  column : Nat
  filePath : String
  language : Language
  status : RefStatus
  nameTail : String
  deriving DecidableEq, Repr

structure RefKey where
  fromNodeId : String
  referenceName : String
  referenceKind : ReferenceKind
  deriving DecidableEq, Repr

namespace RefRow

def isPending (row : RefRow) : Bool := row.status = .pending

def isPrerequisite (row : RefRow) : Bool :=
  row.referenceKind = .edge .imports || row.referenceKind = .edge .extends ||
    row.referenceKind = .edge .implements

def key (row : RefRow) : RefKey := ⟨row.fromNodeId, row.referenceName, row.referenceKind⟩

end RefRow

/-- `referenceName.replace(/\/\d{1,3}$/, '')` -/
def dropArity (name : List Char) : List Char :=
  let digits := (name.reverse.takeWhile Char.isDigit).length
  match name.reverse.drop digits with
  | [] => name
  | c :: rest => if c = '/' && 1 ≤ digits && digits ≤ 3 then rest.reverse else name

def referenceNameTail (referenceName : String) : String :=
  let stem := dropArity referenceName.toList
  let stem := if stem.isEmpty then referenceName.toList else stem
  String.ofList (stem.rtakeWhile fun c => c ≠ '.' && c ≠ ':')

/-- `WHERE status = 'pending' AND id > ? AND reference_kind (NOT) IN … ORDER BY id LIMIT ?` -/
def getUnresolvedReferencesBatchAfter (refs : List RefRow) (afterRowId limit : Nat)
    (prerequisites : Bool) : List RefRow :=
  (refs.filter fun row =>
    row.isPending && decide (afterRowId < row.id) && row.isPrerequisite == prerequisites).take limit

def getUnresolvedReferencesCount (refs : List RefRow) : Nat := refs.countP (·.isPending)

/-- A transaction of the batch loop. -/
inductive Write where
  | insertEdges (edges : List Edge)
  | deleteReferencesByRowIds (rowIds : List Nat)
  | deleteSpecificResolvedReferences (keys : List RefKey)
  | markReferencesFailedByRowIds (refs : List (Nat × String))
  | markReferencesFailed (keys : List RefKey)
  deriving DecidableEq, Repr

structure EdgeIdentity where
  source : String
  target : String
  kind : EdgeKind
  line : Nat
  column : Nat
  deriving DecidableEq, Repr

def identity (e : Edge) : EdgeIdentity := ⟨e.source, e.target, e.kind, e.line, e.column⟩

def markFailed (refs : List RefRow) (hit : RefRow → Bool) (referenceName : String) : List RefRow :=
  refs.map fun row =>
    if hit row then { row with status := .failed, nameTail := referenceNameTail referenceName }
    else row

structure Store where
  edges : List Edge
  refs : List RefRow
  deriving DecidableEq, Repr

/-- The tables after a transaction, and the rows of `unresolved_refs` it changed. -/
def Store.write (getNodeById : String → Option Node) (store : Store) : Write → Store × Nat
  | .insertEdges edges =>
      let stored := edges.filter fun e =>
        (getNodeById e.source).isSome && (getNodeById e.target).isSome
      ({ store with edges := insertAllOrIgnore identity store.edges stored }, 0)
  | .deleteReferencesByRowIds rowIds =>
      ({ store with refs := store.refs.filter (·.id ∉ rowIds) }, store.refs.countP (·.id ∈ rowIds))
  | .deleteSpecificResolvedReferences keys =>
      ({ store with refs := store.refs.filter (·.key ∉ keys) }, store.refs.countP (·.key ∈ keys))
  | .markReferencesFailedByRowIds refs =>
      let marked := refs.foldl (fun rows ref => markFailed rows (·.id = ref.1) ref.2) store.refs
      ({ store with refs := marked }, (refs.map fun ref => store.refs.countP (·.id = ref.1)).sum)
  | .markReferencesFailed keys =>
      let marked := keys.foldl
        (fun rows key => markFailed rows (·.key = key) key.referenceName) store.refs
      ({ store with refs := marked }, (keys.map fun key => store.refs.countP (·.key = key)).sum)

/-! ## Admission -/

structure ResolvedCleanup where
  rowIds : List Nat
  legacyKeys : List RefKey

structure FailedCleanup where
  byRowId : List (Nat × String)
  legacyKeys : List RefKey

def resolvedCleanup (refs : List ResolvedRef) : ResolvedCleanup where
  rowIds := refs.filterMap (·.original.rowId)
  legacyKeys := (refs.filter (·.original.rowId.isNone)).map fun ref =>
    ⟨ref.original.fromNodeId, ref.original.referenceName, ref.original.referenceKind⟩

def failedCleanup (refs : List UnresolvedRef) : FailedCleanup where
  byRowId := refs.filterMap fun ref => ref.rowId.map fun rowId => (rowId, ref.referenceName)
  legacyKeys := (refs.filter (·.rowId.isNone)).map fun ref =>
    ⟨ref.fromNodeId, ref.referenceName, ref.referenceKind⟩

section CreateEdges

variable (getNodeById : String → Option Node)

def isConstructable (node : Node) : Bool :=
  node.kind = .class || node.kind = .struct || node.kind = .union

def isAbstraction (node : Node) : Bool := node.kind = .interface || node.kind = .protocol

/-- The kind of the edges of a match: a class implements what it extends if that is an
interface, and a call of a class makes an instance. -/
def edgeKindOf (ref : ResolvedRef) : EdgeKind :=
  let kind := ref.edgeKind.getD <|
    match ref.original.referenceKind with
    | .functionRef => .references
    | .edge kind => kind
  let kind :=
    if kind = .extends && (getNodeById ref.targetNodeId).any isAbstraction &&
        (getNodeById ref.original.fromNodeId).any fun source => !isAbstraction source then
      .implements
    else kind
  if kind = .calls && (getNodeById ref.targetNodeId).any isConstructable then .instantiates
  else kind

def edgeMetadata (ref : ResolvedRef) (kind : EdgeKind) (target : Target) : Metadata :=
  let metadata := target.metadata.getD []
  let metadata := setEntry metadata "confidence" (.score ref.confidence)
  let metadata := setEntry metadata "resolvedBy" (.text ref.resolvedBy.text)
  let metadata := setEntry metadata "refName" (.text ref.original.referenceName)
  let metadata :=
    if ref.original.referenceKind ≠ .edge kind then
      setEntry metadata "refKind" (.text ref.original.referenceKind.text)
    else metadata
  if ref.original.referenceKind = .functionRef then setEntry metadata "fnRef" (.flag true)
  else metadata

def createEdges (resolved : List ResolvedRef) : List Edge :=
  resolved.flatMap fun ref =>
    let kind := edgeKindOf getNodeById ref
    let targets := ⟨ref.targetNodeId, ref.metadata⟩ :: ref.alsoTargets
    targets.map fun target =>
      { source := ref.original.fromNodeId
        target := target.targetNodeId
        kind := kind
        line := ref.original.line
        column := ref.original.column
        metadata := edgeMetadata ref kind target }

end CreateEdges

end AfyxGraph.Resolution
