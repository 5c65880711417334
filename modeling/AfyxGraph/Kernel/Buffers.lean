import AfyxGraph.Core.Bytes
import AfyxGraph.Extraction.Types

/-! # The kernel's buffers

What the native kernel writes for one file: fixed-width little-endian rows for nodes, edges and
references, a string arena that the rows point into, and a header of counts. An offset of
`noneMark` stands for an absent field. Counts, offsets and lengths are 32-bit and wrap.
-/

namespace AfyxGraph.Kernel

open AfyxGraph.Core AfyxGraph.Extraction

inductive Visibility where
  | «public» | «private» | «protected» | internal
  deriving DecidableEq, Repr

inductive Provenance where
  | treeSitter | scip | heuristic
  deriving DecidableEq, Repr

/-- An edge kind, or the internal `function_ref`. -/
inductive ReferenceKind where
  | edge (kind : EdgeKind)
  | functionRef
  deriving DecidableEq, Repr

def abiVersion : UInt8 := 2

def noneMark : UInt32 := 0xFFFFFFFF

/-! ## Codes -/

/-- `NODE_KINDS` of the kernel. -/
def kernelNodeKinds : List NodeKind :=
  [.file, .module, .class, .struct, .interface, .trait, .protocol, .function, .method, .property,
    .field, .variable, .constant, .enum, .enumMember, .typeAlias, .namespace, .parameter, .import,
    .export, .route, .component, .union]

/-- `EDGE_KINDS` of the kernel. -/
def kernelEdgeKinds : List EdgeKind :=
  [.contains, .calls, .imports, .exports, .extends, .implements, .references, .typeOf, .returns,
    .instantiates, .overrides, .decorates, .navigates]

def functionRefCode : UInt8 := 200

/-- The reference carries the path of the file it was extracted from. -/
def refFlagFilePath : UInt8 := 1

def nodeKindIndex (kind : NodeKind) : UInt8 := UInt8.ofNat (kernelNodeKinds.idxOf kind)

def edgeKindIndex (kind : EdgeKind) : UInt8 := UInt8.ofNat (kernelEdgeKinds.idxOf kind)

def referenceKindCode : ReferenceKind → UInt8
  | .edge kind => edgeKindIndex kind
  | .functionRef => functionRefCode

def visibilityCode : Option Visibility → UInt8
  | none => 0
  | some .public => 1
  | some .private => 2
  | some .protected => 3
  | some .internal => 4

def provenanceCode : Option Provenance → UInt8
  | none => 0
  | some .treeSitter => 1
  | some .scip => 2
  | some .heuristic => 3

/-! ## The arena -/

/-- Offset and length. -/
abbrev StrRef := UInt32 × UInt32

def noneStr : StrRef := (noneMark, 0)

abbrev Arena := Bytes

namespace Arena

def put (arena : Arena) (s : Text) : StrRef × Arena :=
  ((UInt32.ofNat arena.length, UInt32.ofNat (Bytes.ofText s).length), arena ++ Bytes.ofText s)

def putOpt (arena : Arena) : Option Text → StrRef × Arena
  | some s => arena.put s
  | none => (noneStr, arena)

/-- Absent when the list is empty. -/
def putList (arena : Arena) (items : List Text) : StrRef × Arena :=
  if items.isEmpty then (noneStr, arena) else arena.put (Text.joinWith '\x00' items)

end Arena

/-! ## Flags -/

/-- Tri-state booleans as pairs of bits: present, value. -/
structure BoolFlags where
  bits : UInt16 := 0
  deriving DecidableEq, Repr

namespace BoolFlags

def isExported : UInt16 := 0
def isAsync : UInt16 := 1
def isStatic : UInt16 := 2
def isAbstract : UInt16 := 3

def set (f : BoolFlags) (pair : UInt16) (value : Bool) : BoolFlags :=
  let f : BoolFlags := ⟨f.bits ||| 1 <<< (pair * 2)⟩
  if value then ⟨f.bits ||| 1 <<< (pair * 2 + 1)⟩ else f

/-- Emitters set a pair only for a property they know. -/
def setOpt (f : BoolFlags) (pair : UInt16) : Option Bool → BoolFlags
  | some value => f.set pair value
  | none => f

end BoolFlags

/-! ## Rows -/

structure NodeRow where
  kind : UInt8
  visibility : UInt8
  flags : BoolFlags
  startLine : UInt32
  endLine : UInt32
  startColumn : UInt32
  endColumn : UInt32
  name : StrRef
  qualifiedName : StrRef
  id : StrRef
  docstring : StrRef
  signature : StrRef
  decorators : StrRef
  typeParameters : StrRef
  returnType : StrRef
  extraJson : StrRef

structure EdgeRow where
  sourceIdx : UInt32
  targetIdx : UInt32
  kind : UInt8
  provenance : UInt8
  line : UInt32
  column : UInt32
  metadataJson : StrRef
  sourceIdStr : StrRef
  targetIdStr : StrRef

structure RefRow where
  fromIdx : UInt32
  kind : UInt8
  line : UInt32
  column : UInt32
  referenceName : StrRef
  candidates : StrRef
  fromIdStr : StrRef

/-- `push_str_ref` -/
def strRefBytes (r : StrRef) : Bytes := Bytes.u32 r.1 ++ Bytes.u32 r.2

/-- What `push_node` appends; the last four bytes are the unused metrics slot. -/
def NodeRow.bytes (r : NodeRow) : Bytes :=
  [r.kind] ++ ([r.visibility] ++ (Bytes.u16 r.flags.bits ++ (Bytes.u32 r.startLine ++
    (Bytes.u32 r.endLine ++ (Bytes.u32 r.startColumn ++ (Bytes.u32 r.endColumn ++
    (strRefBytes r.name ++ (strRefBytes r.qualifiedName ++ (strRefBytes r.id ++
    (strRefBytes r.docstring ++ (strRefBytes r.signature ++ (strRefBytes r.decorators ++
    (strRefBytes r.typeParameters ++ (strRefBytes r.returnType ++ (strRefBytes r.extraJson ++
    Bytes.u32 0)))))))))))))))

/-- What `push_edge` appends. -/
def EdgeRow.bytes (r : EdgeRow) : Bytes :=
  Bytes.u32 r.sourceIdx ++ (Bytes.u32 r.targetIdx ++ ([r.kind] ++ ([r.provenance] ++
    (Bytes.u16 0 ++ (Bytes.u32 r.line ++ (Bytes.u32 r.column ++ (strRefBytes r.metadataJson ++
    (strRefBytes r.sourceIdStr ++ strRefBytes r.targetIdStr))))))))

/-- What `push_ref_flagged` appends. -/
def RefRow.bytes (r : RefRow) (flags : UInt8) : Bytes :=
  Bytes.u32 r.fromIdx ++ ([r.kind] ++ ([flags] ++ ([0, 0] ++ (Bytes.u32 r.line ++
    (Bytes.u32 r.column ++ (strRefBytes r.referenceName ++ (strRefBytes r.candidates ++
    strRefBytes r.fromIdStr)))))))

theorem NodeRow.length_bytes (r : NodeRow) : r.bytes.length = 96 := rfl

theorem EdgeRow.length_bytes (r : EdgeRow) : r.bytes.length = 44 := rfl

theorem RefRow.length_bytes (r : RefRow) (flags : UInt8) : (r.bytes flags).length = 40 := rfl

structure Tables where
  nodes : Bytes := []
  edges : Bytes := []
  refs : Bytes := []
  nodeCount : UInt32 := 0
  edgeCount : UInt32 := 0
  refCount : UInt32 := 0

namespace Tables

/-- The index of the row, and the tables with it. -/
def pushNode (t : Tables) (r : NodeRow) : UInt32 × Tables :=
  (t.nodeCount, { t with nodes := t.nodes ++ r.bytes, nodeCount := t.nodeCount + 1 })

def pushEdge (t : Tables) (r : EdgeRow) : Tables :=
  { t with edges := t.edges ++ r.bytes, edgeCount := t.edgeCount + 1 }

def pushRefFlagged (t : Tables) (r : RefRow) (flags : UInt8) : Tables :=
  { t with refs := t.refs ++ r.bytes flags, refCount := t.refCount + 1 }

def pushRef (t : Tables) (r : RefRow) : Tables := t.pushRefFlagged r 0

end Tables

/-- One file's encoded tables. -/
structure EmitOut where
  «meta» : Bytes
  nodes : Bytes
  edges : Bytes
  refs : Bytes
  arena : Bytes

/-- The duration is a float; here its bits. -/
def buildMeta (t : Tables) (arenaLen : UInt32) (errorsJson : StrRef) (durationMs : UInt64) :
    Bytes :=
  [abiVersion] ++ ([0, 0, 0] ++ (Bytes.u32 t.nodeCount ++ (Bytes.u32 t.edgeCount ++
    (Bytes.u32 t.refCount ++ (Bytes.u32 arenaLen ++ (Bytes.u32 errorsJson.1 ++
    (Bytes.u32 errorsJson.2 ++ Bytes.u64 durationMs)))))))

/-- What an emitter holds while it walks a file. -/
structure Walker where
  arena : Arena := []
  tables : Tables := {}

namespace Walker

def finish (w : Walker) (errorsJson : StrRef) (durationMs : UInt64) : EmitOut where
  «meta» := buildMeta w.tables (UInt32.ofNat w.arena.length) errorsJson durationMs
  nodes := w.tables.nodes
  edges := w.tables.edges
  refs := w.tables.refs
  arena := w.arena

end Walker

end AfyxGraph.Kernel
