import AfyxGraph.Kernel.Decode
import Mathlib.Data.List.Forall2

/-! # Rows and what they mean

The entries an emitter means and the records they should be read as. A row means an entry when
its codes are the entry's and its references are ones the arena has handed out for the entry's
strings; such a row is read back as the entry.
-/

namespace AfyxGraph.Kernel

open AfyxGraph.Core AfyxGraph.Extraction

/-! ## What an emitter means -/

/-- An item of a list column. -/
abbrev Item := { t : Text // '\x00' ∉ t }

/-- A line or column that may be absent. -/
abbrev Place := { v : UInt32 // v ≠ noneMark }

variable {J : Type}

/-- A JSON column: its text and what that text parses to. -/
structure JsonText (parse : Text → Option J) where
  text : Text
  value : J
  parse_text : parse text = some value

inductive Endpoint where
  | row (index : Place)
  | id (id : Text)

structure NodeEntry (parse : Text → Option J) where
  kind : NodeKind
  visibility : Option Visibility := none
  isExported : Option Bool := none
  isAsync : Option Bool := none
  isStatic : Option Bool := none
  isAbstract : Option Bool := none
  startLine : UInt32
  endLine : UInt32
  startColumn : UInt32
  endColumn : UInt32
  name : Text
  qualifiedName : Text
  id : Text
  docstring : Option Text := none
  signature : Option Text := none
  decorators : List Item := []
  typeParameters : List Item := []
  returnType : Option Text := none
  extra : Option (JsonText parse) := none

structure EdgeEntry (parse : Text → Option J) where
  source : Endpoint
  target : Endpoint
  kind : EdgeKind
  provenance : Option Provenance := none
  line : Option Place := none
  column : Option Place := none
  «metadata» : Option (JsonText parse) := none

structure RefEntry where
  source : Endpoint
  kind : ReferenceKind
  line : UInt32
  column : UInt32
  referenceName : Text
  candidates : List Item := []
  carriesFilePath : Bool := false

structure Batch (parse : Text → Option J) where
  nodes : List (NodeEntry parse) := []
  edges : List (EdgeEntry parse) := []
  refs : List RefEntry := []

/-- The counts fit their fields. -/
structure Batch.Fits {parse : Text → Option J} (b : Batch parse) : Prop where
  nodes : b.nodes.length < 2 ^ 32
  edges : b.edges.length < 2 ^ 32
  refs : b.refs.length < 2 ^ 32

/-! ## The rows as they should be read -/

/-- An empty list column is absent. -/
def listed (items : List Item) : Option (List Text) :=
  if items.isEmpty then none else some (items.map Subtype.val)

namespace Reader

variable (reader : Reader J)

def node (n : NodeEntry reader.parse) : DecodedNode J where
  id := some n.id
  kind := some n.kind
  name := some n.name
  qualifiedName := some n.qualifiedName
  filePath := reader.filePath
  language := reader.language
  startLine := n.startLine
  endLine := n.endLine
  startColumn := n.startColumn
  endColumn := n.endColumn
  updatedAt := reader.now
  docstring := n.docstring
  signature := n.signature
  visibility := n.visibility
  isExported := n.isExported
  isAsync := n.isAsync
  isStatic := n.isStatic
  isAbstract := n.isAbstract
  decorators := listed n.decorators
  typeParameters := listed n.typeParameters
  returnType := n.returnType
  extra := n.extra.map (·.value)

/-- A row index names the node in that row. -/
def nodeId (nodes : List (NodeEntry reader.parse)) : Endpoint → Option Text
  | .row index => nodes[index.val.toNat]?.map (·.id)
  | .id id => some id

def edge (nodes : List (NodeEntry reader.parse)) (e : EdgeEntry reader.parse) :
    DecodedEdge J where
  source := reader.nodeId nodes e.source
  target := reader.nodeId nodes e.target
  kind := some e.kind
  line := e.line.map Subtype.val
  column := e.column.map Subtype.val
  provenance := e.provenance
  «metadata» := e.metadata.map (·.value)

def reference (nodes : List (NodeEntry reader.parse)) (r : RefEntry) : DecodedReference where
  fromNodeId := reader.nodeId nodes r.source
  referenceName := some r.referenceName
  referenceKind := some r.kind
  line := r.line
  column := r.column
  filePath := if r.carriesFilePath then some reader.filePath else none
  candidates := listed r.candidates

def result (b : Batch reader.parse) (errors : Option (JsonText reader.parse)) :
    DecodedResult J where
  nodes := b.nodes.map reader.node
  edges := b.edges.map (reader.edge b.nodes)
  unresolvedReferences := b.refs.map (reader.reference b.nodes)
  errors := errors.map (·.value)

end Reader

/-! ## References into the arena -/

/-- The arena handed out the reference for the text; no text is the absent field. -/
inductive Issued : Arena → StrRef → Option Text → Prop
  | absent (arena : Arena) : Issued arena noneStr none
  | put (arena : Arena) (s : Text) : Issued (arena.put s).2 (arena.put s).1 (some s)
  | later {arena : Arena} {ref : StrRef} {field : Option Text} (s : Text)
      (h : Issued arena ref field) : Issued (arena.put s).2 ref field

/-- The text of a list column. -/
def listText (items : List Item) : Option Text :=
  if items.isEmpty then none else some (Text.joinWith '\x00' (items.map Subtype.val))

/-- Where the text of an issued reference lies. -/
theorem Issued.spec {arena : Arena} {ref : StrRef} {field : Option Text}
    (h : Issued arena ref field) (hsize : arena.length < noneMark.toNat) :
    match field with
    | none => ref.1 = noneMark
    | some s => ∃ before after, arena = before ++ (Bytes.ofText s ++ after) ∧
        ref.1.toNat = before.length ∧ ref.2.toNat = (Bytes.ofText s).length := by
  induction h with
  | absent arena => rfl
  | put arena s =>
      simp only [Arena.put, List.length_append] at hsize ⊢
      have hmark : noneMark.toNat < 2 ^ 32 := noneMark.toNat_lt
      refine ⟨arena, [], by rw [List.append_nil], ?_, ?_⟩
      · exact UInt32.toNat_ofNat_of_lt' (by simp only [UInt32.size]; omega)
      · exact UInt32.toNat_ofNat_of_lt' (by simp only [UInt32.size]; omega)
  | @later arena ref field s h ih =>
      simp only [Arena.put, List.length_append] at hsize ⊢
      have hspec := ih (by omega)
      cases field with
      | none => exact hspec
      | some t =>
          obtain ⟨before, after, rfl, hoff, hlen⟩ := hspec
          refine ⟨before, after ++ Bytes.ofText s, ?_, hoff, hlen⟩
          simp only [List.append_assoc]

theorem Issued.putOpt (arena : Arena) (field : Option Text) :
    Issued (arena.putOpt field).2 (arena.putOpt field).1 field := by
  cases field with
  | none => exact .absent arena
  | some s => exact .put arena s

theorem Issued.putList (arena : Arena) (items : List Item) :
    Issued (arena.putList (items.map Subtype.val)).2 (arena.putList (items.map Subtype.val)).1
      (listText items) := by
  cases items with
  | nil => exact .absent arena
  | cons i is => exact .put arena _

/-! ## Reading one field -/

theorem bind_of_ok {α β : Type} {x : Except DecodeError α} {a : α} (h : x = .ok a)
    (next : α → Except DecodeError β) : (x >>= next) = next a := by
  rw [h]
  rfl

theorem readU8_of_drop {row rest : Bytes} {offset : Nat} {v : UInt8}
    (h : row.drop offset = [v] ++ rest) : readU8 row offset = .ok v := by
  rw [readU8, Bytes.readUInt8_of_drop h]
  rfl

theorem readU16_of_drop {row rest : Bytes} {offset : Nat} {v : UInt16}
    (h : row.drop offset = Bytes.u16 v ++ rest) : readU16 row offset = .ok v := by
  rw [readU16, Bytes.readUInt16LE_of_drop h]
  rfl

theorem readU32_of_drop {row rest : Bytes} {offset : Nat} {v : UInt32}
    (h : row.drop offset = Bytes.u32 v ++ rest) : readU32 row offset = .ok v := by
  rw [readU32, Bytes.readUInt32LE_of_drop h]
  rfl

theorem readU32_length_of_drop {row rest : Bytes} {offset : Nat} {ref : StrRef}
    (h : row.drop offset = strRefBytes ref ++ rest) : readU32 row (offset + 4) = .ok ref.2 := by
  have hlength : row.drop (offset + 4) = Bytes.u32 ref.2 ++ rest := by
    rw [← List.drop_drop, h]
    rfl
  exact readU32_of_drop hlength

namespace Reader

variable (reader : Reader J)

theorem str_of_drop {arena : Arena} {ref : StrRef} {field : Option Text}
    (hissued : Issued arena ref field) (hsize : arena.length < noneMark.toNat)
    {row rest : Bytes} {offset : Nat} (h : row.drop offset = strRefBytes ref ++ rest) :
    reader.str arena row offset = .ok field := by
  have hfirst : row.drop offset = Bytes.u32 ref.1 ++ (Bytes.u32 ref.2 ++ rest) := by
    rw [h, strRefBytes, List.append_assoc]
  have hoffset : readU32 row offset = .ok ref.1 := readU32_of_drop hfirst
  have hspec := hissued.spec hsize
  rw [str, hoffset]
  cases field with
  | none => 
      simp only at hspec
      rw [hspec]
      rfl
  | some s =>
      obtain ⟨before, after, rfl, hoff, hlen⟩ := hspec
      have hne : ref.1 ≠ Layout.noneMark := by
        intro hmark
        rw [hmark] at hoff
        simp only [List.length_append] at hsize
        change noneMark.toNat = _ at hoff
        omega
      change (if ref.1 = Layout.noneMark then _ else _ : Except DecodeError (Option Text)) = _
      rw [if_neg hne, readU32_length_of_drop h]
      change Except.ok (some _) = _
      rw [hoff, hlen, reader.utf8.slice_append]

theorem strList_of_drop {arena : Arena} {ref : StrRef} {items : List Item}
    (hissued : Issued arena ref (listText items)) (hsize : arena.length < noneMark.toNat)
    {row rest : Bytes} {offset : Nat} (h : row.drop offset = strRefBytes ref ++ rest) :
    reader.strList arena row offset = .ok (listed items) := by
  rw [strList, reader.str_of_drop hissued hsize h]
  cases items with
  | nil => rfl
  | cons i is =>
      have hitems : ∀ t ∈ (i :: is).map Subtype.val, '\x00' ∉ t := by
        intro t ht
        obtain ⟨item, -, rfl⟩ := List.mem_map.mp ht
        exact item.property
      have hsplit := Text.split_joinWith (List.cons_ne_nil _ _) hitems
      exact congrArg (fun parts => Except.ok (some parts)) hsplit

theorem parseJson_text (column : Option (JsonText reader.parse)) :
    reader.parseJson (column.map (·.text)) = .ok (column.map (·.value)) := by
  cases column with
  | none => rfl
  | some j =>
      rw [Option.map_some, parseJson, j.parse_text]
      rfl

end Reader

/-- What stands in a column for a line that may be absent. -/
def placeWord (place : Option Place) : UInt32 := (place.map Subtype.val).getD noneMark

theorem u32opt_of_drop {v : UInt32} {place : Option Place} (hv : v = placeWord place)
    {row rest : Bytes} {offset : Nat} (h : row.drop offset = Bytes.u32 v ++ rest) :
    u32opt row offset = .ok (place.map Subtype.val) := by
  rw [u32opt, readU32_of_drop h, hv]
  cases place with
  | none => rfl
  | some v =>
      change Except.ok (if v.val = noneMark then _ else _) = _
      rw [if_neg v.property]
      rfl

/-! ## Codes and flags -/

theorem nodeKinds_nodeKindIndex (kind : NodeKind) :
    Layout.nodeKinds[(nodeKindIndex kind).toNat]? = some kind := by
  cases kind <;> rfl

theorem edgeKinds_edgeKindIndex (kind : EdgeKind) :
    Layout.edgeKinds[(edgeKindIndex kind).toNat]? = some kind := by
  cases kind <;> rfl

theorem visibilities_visibilityCode (visibility : Option Visibility) :
    Layout.visibilities[(visibilityCode visibility).toNat]?.join = visibility := by
  rcases visibility with _ | v
  · rfl
  · cases v <;> rfl

theorem provenances_provenanceCode (provenance : Option Provenance) :
    Layout.provenances[(provenanceCode provenance).toNat]?.join = provenance := by
  rcases provenance with _ | p
  · rfl
  · cases p <;> rfl

theorem referenceKind_code (kind : ReferenceKind) :
    (if referenceKindCode kind = Layout.functionRefCode then some ReferenceKind.functionRef
      else Layout.edgeKinds[(referenceKindCode kind).toNat]?.map .edge) = some kind := by
  cases kind with
  | functionRef => rfl
  | edge kind => cases kind <;> rfl

/-- The pairs an emitter sets for the properties it knows. -/
def flagsOf (isExported isAsync isStatic isAbstract : Option Bool) : BoolFlags :=
  ((((⟨0⟩ : BoolFlags).setOpt BoolFlags.isExported isExported).setOpt
    BoolFlags.isAsync isAsync).setOpt BoolFlags.isStatic isStatic).setOpt
    BoolFlags.isAbstract isAbstract

theorem flag_flagsOf (e a s b : Option Bool) :
    flag (flagsOf e a s b).bits Layout.Flag.isExported = e ∧
      flag (flagsOf e a s b).bits Layout.Flag.isAsync = a ∧
      flag (flagsOf e a s b).bits Layout.Flag.isStatic = s ∧
      flag (flagsOf e a s b).bits Layout.Flag.isAbstract = b := by
  rcases e with _ | _ | _ <;> rcases a with _ | _ | _ <;> rcases s with _ | _ | _ <;>
    rcases b with _ | _ | _ <;> exact ⟨rfl, rfl, rfl, rfl⟩

/-! ## Rows that mean an entry -/

structure NodeWritten {parse : Text → Option J} (arena : Arena) (r : NodeRow)
    (n : NodeEntry parse) : Prop where
  kind : r.kind = nodeKindIndex n.kind
  visibility : r.visibility = visibilityCode n.visibility
  flags : r.flags = flagsOf n.isExported n.isAsync n.isStatic n.isAbstract
  startLine : r.startLine = n.startLine
  endLine : r.endLine = n.endLine
  startColumn : r.startColumn = n.startColumn
  endColumn : r.endColumn = n.endColumn
  name : Issued arena r.name (some n.name)
  qualifiedName : Issued arena r.qualifiedName (some n.qualifiedName)
  id : Issued arena r.id (some n.id)
  docstring : Issued arena r.docstring n.docstring
  signature : Issued arena r.signature n.signature
  decorators : Issued arena r.decorators (listText n.decorators)
  typeParameters : Issued arena r.typeParameters (listText n.typeParameters)
  returnType : Issued arena r.returnType n.returnType
  extraJson : Issued arena r.extraJson (n.extra.map (·.text))

/-- An endpoint is a row index, or `noneMark` and an id. With an index the id column is not
read. -/
def EndpointWritten (arena : Arena) (idx : UInt32) (idStr : StrRef) : Endpoint → Prop
  | .row index => idx = index.val
  | .id id => idx = noneMark ∧ Issued arena idStr (some id)

structure EdgeWritten {parse : Text → Option J} (arena : Arena) (r : EdgeRow)
    (e : EdgeEntry parse) : Prop where
  source : EndpointWritten arena r.sourceIdx r.sourceIdStr e.source
  target : EndpointWritten arena r.targetIdx r.targetIdStr e.target
  kind : r.kind = edgeKindIndex e.kind
  provenance : r.provenance = provenanceCode e.provenance
  line : r.line = placeWord e.line
  column : r.column = placeWord e.column
  metadataJson : Issued arena r.metadataJson (e.metadata.map (·.text))

structure RefWritten (arena : Arena) (r : RefRow) (e : RefEntry) : Prop where
  source : EndpointWritten arena r.fromIdx r.fromIdStr e.source
  kind : r.kind = referenceKindCode e.kind
  line : r.line = e.line
  column : r.column = e.column
  referenceName : Issued arena r.referenceName (some e.referenceName)
  candidates : Issued arena r.candidates (listText e.candidates)

def refFlags (e : RefEntry) : UInt8 := if e.carriesFilePath then refFlagFilePath else 0

namespace Reader

variable (reader : Reader J)

theorem decodeNode_bytes {arena : Arena} {r : NodeRow} {n : NodeEntry reader.parse}
    (h : NodeWritten arena r n) (hsize : arena.length < noneMark.toNat) :
    reader.decodeNode arena r.bytes = .ok (reader.node n) := by
  obtain ⟨hexported, hasync, hstatic, habstract⟩ :=
    flag_flagsOf n.isExported n.isAsync n.isStatic n.isAbstract
  have hid : reader.str arena r.bytes Layout.Node.id = .ok (some n.id) :=
    reader.str_of_drop h.id hsize rfl
  have hflags : readU16 r.bytes Layout.Node.flags = .ok r.flags.bits := readU16_of_drop rfl
  have hkind : readU8 r.bytes Layout.Node.kind = .ok r.kind := readU8_of_drop rfl
  have hname : reader.str arena r.bytes Layout.Node.name = .ok (some n.name) :=
    reader.str_of_drop h.name hsize rfl
  have hqualifiedName : reader.str arena r.bytes Layout.Node.qualifiedName = .ok (some n.qualifiedName) :=
    reader.str_of_drop h.qualifiedName hsize rfl
  have hstartLine : readU32 r.bytes Layout.Node.startLine = .ok r.startLine := readU32_of_drop rfl
  have hendLine : readU32 r.bytes Layout.Node.endLine = .ok r.endLine := readU32_of_drop rfl
  have hstartColumn : readU32 r.bytes Layout.Node.startColumn = .ok r.startColumn := readU32_of_drop rfl
  have hendColumn : readU32 r.bytes Layout.Node.endColumn = .ok r.endColumn := readU32_of_drop rfl
  have hdocstring : reader.str arena r.bytes Layout.Node.docstring = .ok n.docstring :=
    reader.str_of_drop h.docstring hsize rfl
  have hsignature : reader.str arena r.bytes Layout.Node.signature = .ok n.signature :=
    reader.str_of_drop h.signature hsize rfl
  have hvisibility : readU8 r.bytes Layout.Node.visibility = .ok r.visibility := readU8_of_drop rfl
  have hdecorators : reader.strList arena r.bytes Layout.Node.decorators = .ok (listed n.decorators) :=
    reader.strList_of_drop h.decorators hsize rfl
  have htypeParameters :
      reader.strList arena r.bytes Layout.Node.typeParameters = .ok (listed n.typeParameters) :=
    reader.strList_of_drop h.typeParameters hsize rfl
  have hreturnType : reader.str arena r.bytes Layout.Node.returnType = .ok n.returnType :=
    reader.str_of_drop h.returnType hsize rfl
  have hextraJson : reader.str arena r.bytes Layout.Node.extraJson = .ok (n.extra.map (·.text)) :=
    reader.str_of_drop h.extraJson hsize rfl
  rw [decodeNode, bind_of_ok hid, bind_of_ok hflags, bind_of_ok hkind, bind_of_ok hname,
    bind_of_ok hqualifiedName, bind_of_ok hstartLine, bind_of_ok hendLine,
    bind_of_ok hstartColumn, bind_of_ok hendColumn, bind_of_ok hdocstring,
    bind_of_ok hsignature, bind_of_ok hvisibility, bind_of_ok hdecorators,
    bind_of_ok htypeParameters, bind_of_ok hreturnType, bind_of_ok hextraJson,
    bind_of_ok (reader.parseJson_text _)]
  rw [h.kind, h.visibility, h.flags, h.startLine, h.endLine, h.startColumn, h.endColumn,
    nodeKinds_nodeKindIndex, visibilities_visibilityCode, hexported, hasync, hstatic, habstract]
  rfl

/-- The ids the reader keeps by row. -/
def idByRow (nodes : List (NodeEntry reader.parse)) : List (Option Text) :=
  (nodes.map reader.node).map (·.id)

theorem endpoint_written {arena : Arena} {idx : UInt32} {idStr : StrRef} {endpoint : Endpoint}
    (h : EndpointWritten arena idx idStr endpoint) (hsize : arena.length < noneMark.toNat)
    (nodes : List (NodeEntry reader.parse)) {row rest : Bytes} {offset : Nat}
    (hdrop : row.drop offset = strRefBytes idStr ++ rest) :
    reader.endpoint arena (reader.idByRow nodes) row idx offset =
      .ok (reader.nodeId nodes endpoint) := by
  cases endpoint with
  | id id =>
      obtain ⟨rfl, hid⟩ := h
      rw [Reader.endpoint, if_pos (show noneMark = Layout.noneMark from rfl),
        reader.str_of_drop hid hsize hdrop]
      rfl
  | row index =>
      obtain rfl : idx = index.val := h
      have hne : index.val ≠ Layout.noneMark := index.property
      rw [Reader.endpoint, if_neg hne, nodeId, idByRow, List.map_map, List.getElem?_map]
      cases nodes[index.val.toNat]? with
      | none => rfl
      | some n => rfl

theorem decodeEdge_bytes {arena : Arena} {r : EdgeRow} {e : EdgeEntry reader.parse}
    (h : EdgeWritten arena r e) (hsize : arena.length < noneMark.toNat)
    (nodes : List (NodeEntry reader.parse)) :
    reader.decodeEdge arena (reader.idByRow nodes) r.bytes = .ok (reader.edge nodes e) := by
  have hsourceIdx : readU32 r.bytes Layout.Edge.sourceIdx = .ok r.sourceIdx := readU32_of_drop rfl
  have htargetIdx : readU32 r.bytes Layout.Edge.targetIdx = .ok r.targetIdx := readU32_of_drop rfl
  have hsource : reader.endpoint arena (reader.idByRow nodes) r.bytes r.sourceIdx
      Layout.Edge.sourceIdStr = .ok (reader.nodeId nodes e.source) :=
    reader.endpoint_written h.source hsize nodes rfl
  have htarget : reader.endpoint arena (reader.idByRow nodes) r.bytes r.targetIdx
      Layout.Edge.targetIdStr = .ok (reader.nodeId nodes e.target) :=
    reader.endpoint_written h.target hsize nodes (List.append_nil _).symm
  have hkind : readU8 r.bytes Layout.Edge.kind = .ok r.kind := readU8_of_drop rfl
  have hline : u32opt r.bytes Layout.Edge.line = .ok (e.line.map Subtype.val) :=
    u32opt_of_drop h.line rfl
  have hcolumn : u32opt r.bytes Layout.Edge.column = .ok (e.column.map Subtype.val) :=
    u32opt_of_drop h.column rfl
  have hprovenance : readU8 r.bytes Layout.Edge.provenance = .ok r.provenance :=
    readU8_of_drop rfl
  have hmetadata : reader.str arena r.bytes Layout.Edge.metadataJson =
      .ok (e.metadata.map (·.text)) :=
    reader.str_of_drop h.metadataJson hsize rfl
  rw [decodeEdge, bind_of_ok hsourceIdx, bind_of_ok htargetIdx, bind_of_ok hsource,
    bind_of_ok htarget, bind_of_ok hkind, bind_of_ok hline, bind_of_ok hcolumn,
    bind_of_ok hprovenance, bind_of_ok hmetadata, bind_of_ok (reader.parseJson_text _),
    h.kind, h.provenance, edgeKinds_edgeKindIndex, provenances_provenanceCode]
  rfl

theorem decodeReference_bytes {arena : Arena} {r : RefRow} {e : RefEntry}
    (h : RefWritten arena r e) (hsize : arena.length < noneMark.toNat)
    (nodes : List (NodeEntry reader.parse)) :
    reader.decodeReference arena (reader.idByRow nodes) (r.bytes (refFlags e)) =
      .ok (reader.reference nodes e) := by
  have hfromIdx : readU32 (r.bytes (refFlags e)) Layout.Ref.fromIdx = .ok r.fromIdx :=
    readU32_of_drop rfl
  have hkind : readU8 (r.bytes (refFlags e)) Layout.Ref.kind = .ok r.kind := readU8_of_drop rfl
  have hsource : reader.endpoint arena (reader.idByRow nodes) (r.bytes (refFlags e)) r.fromIdx
      Layout.Ref.fromIdStr = .ok (reader.nodeId nodes e.source) :=
    reader.endpoint_written h.source hsize nodes (List.append_nil _).symm
  have hname : reader.str arena (r.bytes (refFlags e)) Layout.Ref.referenceName =
      .ok (some e.referenceName) :=
    reader.str_of_drop h.referenceName hsize rfl
  have hline : readU32 (r.bytes (refFlags e)) Layout.Ref.line = .ok r.line := readU32_of_drop rfl
  have hcolumn : readU32 (r.bytes (refFlags e)) Layout.Ref.column = .ok r.column :=
    readU32_of_drop rfl
  have hflags : readU8 (r.bytes (refFlags e)) Layout.Ref.flags = .ok (refFlags e) :=
    readU8_of_drop rfl
  have hcandidates : reader.strList arena (r.bytes (refFlags e)) Layout.Ref.candidates =
      .ok (listed e.candidates) :=
    reader.strList_of_drop h.candidates hsize rfl
  have hcarries : (refFlags e &&& Layout.refFlagFilePath != 0) = e.carriesFilePath := by
    rw [refFlags]
    cases e.carriesFilePath <;> rfl
  rw [decodeReference, bind_of_ok hfromIdx, bind_of_ok hkind, bind_of_ok hsource,
    bind_of_ok hname, bind_of_ok hline, bind_of_ok hcolumn, bind_of_ok hflags,
    bind_of_ok hcandidates, hcarries, h.kind, h.line, h.column, referenceKind_code]
  rfl

end Reader

end AfyxGraph.Kernel
