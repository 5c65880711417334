import AfyxGraph.Kernel.Buffers

/-! # Decoding the kernel's buffers

The reader of the extraction pipeline, with its own table of offsets. A property that is
`undefined` is `none`; a read outside a buffer, a buffer of another version and a column that is
no JSON throw.
-/

namespace AfyxGraph.Kernel

open AfyxGraph.Core AfyxGraph.Extraction

/-! ## Layout -/

namespace Layout

/-- `NODE_KINDS` of the reader. -/
def nodeKinds : List NodeKind :=
  [.file, .module, .class, .struct, .interface, .trait, .protocol, .function, .method, .property,
    .field, .variable, .constant, .enum, .enumMember, .typeAlias, .namespace, .parameter, .import,
    .export, .route, .component, .union]

/-- `EDGE_KINDS` of the reader. -/
def edgeKinds : List EdgeKind :=
  [.contains, .calls, .imports, .exports, .extends, .implements, .references, .typeOf, .returns,
    .instantiates, .overrides, .decorates, .navigates]

def visibilities : List (Option Visibility) :=
  [none, some .public, some .private, some .protected, some .internal]

def provenances : List (Option Provenance) :=
  [none, some .treeSitter, some .scip, some .heuristic]

def abiVersion : UInt8 := 2
def noneMark : UInt32 := 0xffffffff
def functionRefCode : UInt8 := 200
def refFlagFilePath : UInt8 := 1

def metaSize : Nat := 36
def nodeRowSize : Nat := 96
def edgeRowSize : Nat := 44
def refRowSize : Nat := 40

namespace Meta
def version : Nat := 0
def nodeCount : Nat := 4
def edgeCount : Nat := 8
def refCount : Nat := 12
def errorsOff : Nat := 20
def errorsLen : Nat := 24
end Meta

namespace Node
def kind : Nat := 0
def visibility : Nat := 1
def flags : Nat := 2
def startLine : Nat := 4
def endLine : Nat := 8
def startColumn : Nat := 12
def endColumn : Nat := 16
def name : Nat := 20
def qualifiedName : Nat := 28
def id : Nat := 36
def docstring : Nat := 44
def signature : Nat := 52
def decorators : Nat := 60
def typeParameters : Nat := 68
def returnType : Nat := 76
def extraJson : Nat := 84
end Node

namespace Edge
def sourceIdx : Nat := 0
def targetIdx : Nat := 4
def kind : Nat := 8
def provenance : Nat := 9
def line : Nat := 12
def column : Nat := 16
def metadataJson : Nat := 20
def sourceIdStr : Nat := 28
def targetIdStr : Nat := 36
end Edge

namespace Ref
def fromIdx : Nat := 0
def kind : Nat := 4
def flags : Nat := 5
def line : Nat := 8
def column : Nat := 12
def referenceName : Nat := 16
def candidates : Nat := 24
def fromIdStr : Nat := 32
end Ref

namespace Flag
def isExported : UInt16 := 0
def isAsync : UInt16 := 1
def isStatic : UInt16 := 2
def isAbstract : UInt16 := 3
end Flag

end Layout

/-! ## What is read -/

variable {J : Type}

/-- `extra` is what the escape hatch assigns over the properties. -/
structure DecodedNode (J : Type) where
  id : Option Text
  kind : Option NodeKind
  name : Option Text
  qualifiedName : Option Text
  filePath : Text
  language : Language
  startLine : UInt32
  endLine : UInt32
  startColumn : UInt32
  endColumn : UInt32
  updatedAt : Nat
  docstring : Option Text
  signature : Option Text
  visibility : Option Visibility
  isExported : Option Bool
  isAsync : Option Bool
  isStatic : Option Bool
  isAbstract : Option Bool
  decorators : Option (List Text)
  typeParameters : Option (List Text)
  returnType : Option Text
  extra : Option J

structure DecodedEdge (J : Type) where
  source : Option Text
  target : Option Text
  kind : Option EdgeKind
  line : Option UInt32
  column : Option UInt32
  provenance : Option Provenance
  «metadata» : Option J

structure DecodedReference where
  fromNodeId : Option Text
  referenceName : Option Text
  referenceKind : Option ReferenceKind
  line : UInt32
  column : UInt32
  filePath : Option Text
  candidates : Option (List Text)

/-- `errors` is `none` for the empty list. -/
structure DecodedResult (J : Type) where
  nodes : List (DecodedNode J)
  edges : List (DecodedEdge J)
  unresolvedReferences : List DecodedReference
  errors : Option J

inductive DecodeError where
  | metaTooShort (length : Nat)
  | abiVersion (version : UInt8)
  | outOfRange
  | invalidJson
  deriving DecidableEq, Repr

/-- What the reader takes from its platform and its caller: `toString('utf8')`, `JSON.parse`, the
file's path and language, and the clock. -/
structure Reader (J : Type) where
  utf8 : Bytes.TextDecoder
  parse : Text → Option J
  filePath : Text
  language : Language
  now : Nat

/-! ## Reading -/

def readU8 (row : Bytes) (offset : Nat) : Except DecodeError UInt8 :=
  ((row.readUInt8 offset).map .ok).getD (.error .outOfRange)

def readU16 (row : Bytes) (offset : Nat) : Except DecodeError UInt16 :=
  ((row.readUInt16LE offset).map .ok).getD (.error .outOfRange)

def readU32 (row : Bytes) (offset : Nat) : Except DecodeError UInt32 :=
  ((row.readUInt32LE offset).map .ok).getD (.error .outOfRange)

namespace Reader

variable (reader : Reader J) (arena : Bytes)

def str (row : Bytes) (offset : Nat) : Except DecodeError (Option Text) := do
  let off ← readU32 row offset
  if off = Layout.noneMark then return none
  let len ← readU32 row (offset + 4)
  return some (reader.utf8.slice arena off.toNat (off.toNat + len.toNat))

def strList (row : Bytes) (offset : Nat) : Except DecodeError (Option (List Text)) := do
  let joined ← reader.str arena row offset
  return joined.map (Text.split '\x00')

def parseJson : Option Text → Except DecodeError (Option J)
  | none => .ok none
  | some t => ((reader.parse t).map (.ok ∘ some)).getD (.error .invalidJson)

end Reader

def flag (flags pair : UInt16) : Option Bool :=
  if flags &&& 1 <<< (pair * 2) = 0 then none else some (flags &&& 1 <<< (pair * 2 + 1) != 0)

def u32opt (row : Bytes) (offset : Nat) : Except DecodeError (Option UInt32) := do
  let v ← readU32 row offset
  return if v = Layout.noneMark then none else some v

namespace Reader

variable (reader : Reader J) (arena : Bytes)

def decodeNode (row : Bytes) : Except DecodeError (DecodedNode J) := do
  let id ← reader.str arena row Layout.Node.id
  let flags ← readU16 row Layout.Node.flags
  let kind ← readU8 row Layout.Node.kind
  let name ← reader.str arena row Layout.Node.name
  let qualifiedName ← reader.str arena row Layout.Node.qualifiedName
  let startLine ← readU32 row Layout.Node.startLine
  let endLine ← readU32 row Layout.Node.endLine
  let startColumn ← readU32 row Layout.Node.startColumn
  let endColumn ← readU32 row Layout.Node.endColumn
  let docstring ← reader.str arena row Layout.Node.docstring
  let signature ← reader.str arena row Layout.Node.signature
  let visibility ← readU8 row Layout.Node.visibility
  let decorators ← reader.strList arena row Layout.Node.decorators
  let typeParameters ← reader.strList arena row Layout.Node.typeParameters
  let returnType ← reader.str arena row Layout.Node.returnType
  let extraJson ← reader.str arena row Layout.Node.extraJson
  let extra ← reader.parseJson extraJson
  return {
    id, name, qualifiedName, startLine, endLine, startColumn, endColumn, docstring, signature,
    decorators, typeParameters, returnType, extra
    kind := Layout.nodeKinds[kind.toNat]?
    filePath := reader.filePath
    language := reader.language
    updatedAt := reader.now
    visibility := Layout.visibilities[visibility.toNat]?.join
    isExported := flag flags Layout.Flag.isExported
    isAsync := flag flags Layout.Flag.isAsync
    isStatic := flag flags Layout.Flag.isStatic
    isAbstract := flag flags Layout.Flag.isAbstract }

/-- `idx === NONE ? str(…) : idByRow[idx]` -/
def endpoint (idByRow : List (Option Text)) (row : Bytes) (idx : UInt32) (idStr : Nat) :
    Except DecodeError (Option Text) :=
  if idx = Layout.noneMark then reader.str arena row idStr else .ok idByRow[idx.toNat]?.join

def decodeEdge (idByRow : List (Option Text)) (row : Bytes) :
    Except DecodeError (DecodedEdge J) := do
  let sourceIdx ← readU32 row Layout.Edge.sourceIdx
  let targetIdx ← readU32 row Layout.Edge.targetIdx
  let source ← reader.endpoint arena idByRow row sourceIdx Layout.Edge.sourceIdStr
  let target ← reader.endpoint arena idByRow row targetIdx Layout.Edge.targetIdStr
  let kind ← readU8 row Layout.Edge.kind
  let line ← u32opt row Layout.Edge.line
  let column ← u32opt row Layout.Edge.column
  let provenance ← readU8 row Layout.Edge.provenance
  let metadataJson ← reader.str arena row Layout.Edge.metadataJson
  let «metadata» ← reader.parseJson metadataJson
  return {
    source, target, line, column, «metadata»
    kind := Layout.edgeKinds[kind.toNat]?
    provenance := Layout.provenances[provenance.toNat]?.join }

def decodeReference (idByRow : List (Option Text)) (row : Bytes) :
    Except DecodeError DecodedReference := do
  let fromIdx ← readU32 row Layout.Ref.fromIdx
  let kindByte ← readU8 row Layout.Ref.kind
  let fromNodeId ← reader.endpoint arena idByRow row fromIdx Layout.Ref.fromIdStr
  let referenceName ← reader.str arena row Layout.Ref.referenceName
  let line ← readU32 row Layout.Ref.line
  let column ← readU32 row Layout.Ref.column
  let flags ← readU8 row Layout.Ref.flags
  let candidates ← reader.strList arena row Layout.Ref.candidates
  return {
    fromNodeId, referenceName, line, column, candidates
    referenceKind :=
      if kindByte = Layout.functionRefCode then some .functionRef
      else Layout.edgeKinds[kindByte.toNat]?.map .edge
    filePath := if flags &&& Layout.refFlagFilePath != 0 then some reader.filePath else none }

/-- One of the three loops over a table. -/
def decodeRows {α : Type} (table : Bytes) (size count : Nat)
    (decode : Bytes → Except DecodeError α) : Except DecodeError (List α) :=
  (List.range count).mapM fun i => decode (table.row size i)

/-- The end of `decodeExtractBuffers`. -/
def decodeErrors (header : Bytes) : Except DecodeError (Option J) := do
  let errorsOff ← readU32 header Layout.Meta.errorsOff
  if errorsOff = Layout.noneMark then return none
  let errorsLen ← readU32 header Layout.Meta.errorsLen
  reader.parseJson
    (some (reader.utf8.slice arena errorsOff.toNat (errorsOff.toNat + errorsLen.toNat)))

def decodeExtractBuffers (buffers : EmitOut) : Except DecodeError (DecodedResult J) :=
  let header := buffers.meta
  if header.length < Layout.metaSize then .error (.metaTooShort header.length)
  else do
    let version ← readU8 header Layout.Meta.version
    if version ≠ Layout.abiVersion then .error (.abiVersion version)
    else
      let nodeCount ← readU32 header Layout.Meta.nodeCount
      let edgeCount ← readU32 header Layout.Meta.edgeCount
      let refCount ← readU32 header Layout.Meta.refCount
      let nodes ← decodeRows buffers.nodes Layout.nodeRowSize nodeCount.toNat
        (reader.decodeNode buffers.arena)
      let idByRow := nodes.map (·.id)
      let edges ← decodeRows buffers.edges Layout.edgeRowSize edgeCount.toNat
        (reader.decodeEdge buffers.arena idByRow)
      let unresolvedReferences ← decodeRows buffers.refs Layout.refRowSize refCount.toNat
        (reader.decodeReference buffers.arena idByRow)
      let errors ← reader.decodeErrors buffers.arena header
      return { nodes, edges, unresolvedReferences, errors }

end Reader

end AfyxGraph.Kernel
