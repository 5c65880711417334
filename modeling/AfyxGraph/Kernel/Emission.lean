import AfyxGraph.Kernel.Rows

/-! # Emission

An emitter interns strings and pushes rows in any order it likes; a row may only use references
the arena has handed out. `Emitted` is every such run with the batch it meant, and every batch
has one.
-/

namespace AfyxGraph.Kernel

open AfyxGraph.Core AfyxGraph.Extraction

variable {J : Type}

/-! ## Tables -/

theorem mapM_range'_ok {α : Type} {values : List α} {start : Nat}
    {f : Nat → Except DecodeError α}
    (h : ∀ i v, values[i]? = some v → f (start + i) = .ok v) :
    (List.range' start values.length).mapM f = .ok values := by
  induction values generalizing start with
  | nil => rfl
  | cons v vs ih =>
      have hfirst : f start = .ok v := h 0 v rfl
      have hrest : (List.range' (start + 1) vs.length).mapM f = .ok vs := by
        apply ih
        intro i w hw
        rw [Nat.add_assoc, Nat.add_comm 1 i]
        exact h (i + 1) w hw
      rw [List.length_cons, List.range'_succ, List.mapM_cons, bind_of_ok hfirst,
        bind_of_ok hrest]
      rfl

/-! ## Runs of an emitter -/

/-- Everything an emitter can have done: interned a string, or pushed a row whose references the
arena has handed out. -/
inductive Emitted {parse : Text → Option J} : Walker → Batch parse → Prop
  | start : Emitted {} {}
  | put {w : Walker} {b : Batch parse} (h : Emitted w b) (s : Text) :
      Emitted { w with arena := (w.arena.put s).2 } b
  | node {w : Walker} {b : Batch parse} (h : Emitted w b) {r : NodeRow} {n : NodeEntry parse}
      (hr : NodeWritten w.arena r n) :
      Emitted { w with tables := (w.tables.pushNode r).2 } { b with nodes := b.nodes ++ [n] }
  | edge {w : Walker} {b : Batch parse} (h : Emitted w b) {r : EdgeRow} {e : EdgeEntry parse}
      (hr : EdgeWritten w.arena r e) :
      Emitted { w with tables := w.tables.pushEdge r } { b with edges := b.edges ++ [e] }
  | ref {w : Walker} {b : Batch parse} (h : Emitted w b) {r : RefRow} {e : RefEntry}
      (hr : RefWritten w.arena r e) :
      Emitted { w with tables := w.tables.pushRefFlagged r (refFlags e) }
        { b with refs := b.refs ++ [e] }

/-- The bytes are the entries' rows, one after the other. -/
def TableOf {β : Type} (Written : Bytes → β → Prop) (bytes : Bytes) (entries : List β) : Prop :=
  ∃ table : List Bytes, bytes = table.flatten ∧ List.Forall₂ Written table entries

theorem TableOf.push {β : Type} {Written : Bytes → β → Prop} {bytes row : Bytes}
    {entries : List β} {e : β} (h : TableOf Written bytes entries) (hrow : Written row e) :
    TableOf Written (bytes ++ row) (entries ++ [e]) := by
  obtain ⟨table, rfl, hrows⟩ := h
  refine ⟨table ++ [row], by simp, ?_⟩
  exact List.rel_append hrows (List.Forall₂.cons hrow List.Forall₂.nil)

theorem TableOf.imp {β : Type} {Written Written' : Bytes → β → Prop} {bytes : Bytes}
    {entries : List β} (h : TableOf Written bytes entries)
    (himp : ∀ row e, Written row e → Written' row e) : TableOf Written' bytes entries := by
  obtain ⟨table, hflat, hrows⟩ := h
  exact ⟨table, hflat, hrows.imp himp⟩

/-- A table of rows of one width is read row by row. -/
theorem TableOf.decodeRows {α β : Type} {Written : Bytes → β → Prop} {bytes : Bytes}
    {entries : List β} (h : TableOf Written bytes entries) {size : Nat}
    {decode : Bytes → Except DecodeError α} {value : β → α}
    (hwidth : ∀ row e, Written row e → row.length = size)
    (hdecode : ∀ row e, Written row e → decode row = .ok (value e)) {count : UInt32}
    (hcount : count = UInt32.ofNat entries.length) (hfits : entries.length < 2 ^ 32) :
    Reader.decodeRows bytes size count.toNat decode = .ok (entries.map value) := by
  obtain ⟨table, rfl, hrows⟩ := h
  have hlength : table.length = entries.length := hrows.length_eq
  have hsize : ∀ row ∈ table, row.length = size := by
    intro row hrow
    obtain ⟨i, hi, rfl⟩ := List.mem_iff_getElem.mp hrow
    exact hwidth _ _ (hrows.get hi (hlength ▸ hi))
  have hread : ∀ i v, (entries.map value)[i]? = some v →
      decode (Bytes.row table.flatten size (0 + i)) = .ok v := by
    intro i v hv
    rw [List.getElem?_map, Option.map_eq_some_iff] at hv
    obtain ⟨e, he, rfl⟩ := hv
    obtain ⟨hlt, rfl⟩ := List.getElem?_eq_some_iff.mp he
    have hi : i < table.length := by omega
    rw [Nat.zero_add, Bytes.row_flatten hsize (List.getElem?_eq_getElem hi)]
    exact hdecode _ _ (hrows.get hi hlt)
  have hall := mapM_range'_ok (f := fun i => decode (Bytes.row table.flatten size i)) hread
  rw [List.length_map, ← List.range_eq_range'] at hall
  rw [hcount, UInt32.toNat_ofNat_of_lt' hfits]
  exact hall

def NodeRowOf {parse : Text → Option J} (arena : Arena) (row : Bytes) (n : NodeEntry parse) :
    Prop :=
  ∃ r, row = r.bytes ∧ NodeWritten arena r n

def EdgeRowOf {parse : Text → Option J} (arena : Arena) (row : Bytes) (e : EdgeEntry parse) :
    Prop :=
  ∃ r, row = r.bytes ∧ EdgeWritten arena r e

def RefRowOf (arena : Arena) (row : Bytes) (e : RefEntry) : Prop :=
  ∃ r, row = r.bytes (refFlags e) ∧ RefWritten arena r e

theorem NodeRowOf.later {parse : Text → Option J} {arena : Arena} {row : Bytes}
    {n : NodeEntry parse} (s : Text) (h : NodeRowOf arena row n) :
    NodeRowOf (arena.put s).2 row n := by
  obtain ⟨r, hrow, hr⟩ := h
  exact ⟨r, hrow, { hr with
    name := hr.name.later s
    qualifiedName := hr.qualifiedName.later s
    id := hr.id.later s
    docstring := hr.docstring.later s
    signature := hr.signature.later s
    decorators := hr.decorators.later s
    typeParameters := hr.typeParameters.later s
    returnType := hr.returnType.later s
    extraJson := hr.extraJson.later s }⟩

theorem EndpointWritten.later {arena : Arena} {idx : UInt32} {idStr : StrRef}
    {endpoint : Endpoint} (s : Text) (h : EndpointWritten arena idx idStr endpoint) :
    EndpointWritten (arena.put s).2 idx idStr endpoint := by
  cases endpoint with
  | row index => exact h
  | id id => exact ⟨h.1, h.2.later s⟩

theorem EdgeRowOf.later {parse : Text → Option J} {arena : Arena} {row : Bytes}
    {e : EdgeEntry parse} (s : Text) (h : EdgeRowOf arena row e) :
    EdgeRowOf (arena.put s).2 row e := by
  obtain ⟨r, hrow, hr⟩ := h
  exact ⟨r, hrow, { hr with
    source := hr.source.later s
    target := hr.target.later s
    metadataJson := hr.metadataJson.later s }⟩

theorem RefRowOf.later {arena : Arena} {row : Bytes} {e : RefEntry} (s : Text)
    (h : RefRowOf arena row e) : RefRowOf (arena.put s).2 row e := by
  obtain ⟨r, hrow, hr⟩ := h
  exact ⟨r, hrow, { hr with
    source := hr.source.later s
    referenceName := hr.referenceName.later s
    candidates := hr.candidates.later s }⟩

/-- What a walker holds of the batch it has emitted. -/
structure Holds {parse : Text → Option J} (w : Walker) (b : Batch parse) : Prop where
  nodes : TableOf (NodeRowOf w.arena) w.tables.nodes b.nodes
  edges : TableOf (EdgeRowOf w.arena) w.tables.edges b.edges
  refs : TableOf (RefRowOf w.arena) w.tables.refs b.refs
  nodeCount : w.tables.nodeCount = UInt32.ofNat b.nodes.length
  edgeCount : w.tables.edgeCount = UInt32.ofNat b.edges.length
  refCount : w.tables.refCount = UInt32.ofNat b.refs.length

theorem count_push {β : Type} {count : UInt32} {entries : List β} (e : β)
    (h : count = UInt32.ofNat entries.length) :
    count + 1 = UInt32.ofNat (entries ++ [e]).length := by
  rw [h, List.length_append, List.length_singleton, UInt32.ofNat_add]
  rfl

theorem Emitted.holds {parse : Text → Option J} {w : Walker} {b : Batch parse}
    (h : Emitted w b) : Holds w b := by
  induction h with
  | start => exact ⟨⟨[], rfl, .nil⟩, ⟨[], rfl, .nil⟩, ⟨[], rfl, .nil⟩, rfl, rfl, rfl⟩
  | put h s ih =>
      exact { ih with
        nodes := ih.nodes.imp (fun _ _ hr => hr.later s)
        edges := ih.edges.imp (fun _ _ hr => hr.later s)
        refs := ih.refs.imp (fun _ _ hr => hr.later s) }
  | @node w b h r n hr ih =>
      exact { ih with
        nodes := ih.nodes.push ⟨r, rfl, hr⟩
        nodeCount := count_push n ih.nodeCount }
  | @edge w b h r e hr ih =>
      exact { ih with
        edges := ih.edges.push ⟨r, rfl, hr⟩
        edgeCount := count_push e ih.edgeCount }
  | @ref w b h r e hr ih =>
      exact { ih with
        refs := ih.refs.push ⟨r, rfl, hr⟩
        refCount := count_push e ih.refCount }

/-! ## An emitter -/

/-- Strings have been interned since. -/
inductive Grows : Arena → Arena → Prop
  | refl (arena : Arena) : Grows arena arena
  | put {arena later : Arena} (s : Text) (h : Grows (arena.put s).2 later) : Grows arena later

theorem Grows.putOpt {arena later : Arena} (field : Option Text)
    (h : Grows (arena.putOpt field).2 later) : Grows arena later := by
  cases field with
  | none => exact h
  | some s => exact .put s h

theorem Grows.putList {arena later : Arena} (items : List Text)
    (h : Grows (arena.putList items).2 later) : Grows arena later := by
  cases items with
  | nil => exact h
  | cons t ts => exact .put _ h

theorem Issued.grow {arena later : Arena} {ref : StrRef} {field : Option Text}
    (h : Issued arena ref field) (hgrows : Grows arena later) : Issued later ref field := by
  induction hgrows with
  | refl arena => exact h
  | put s hgrows ih => exact ih (h.later s)

theorem Emitted.grow {parse : Text → Option J} {w : Walker} {b : Batch parse}
    (h : Emitted w b) {arena : Arena} (hgrows : Grows w.arena arena) :
    Emitted { w with arena } b := by
  obtain ⟨start, tables⟩ := w
  simp only at hgrows ⊢
  induction hgrows with
  | refl arena => exact h
  | put s hgrows ih => exact ih (h.put s)

/-- The columns' strings in the order of the columns, then the row. -/
def Walker.emitNode {parse : Text → Option J} (w : Walker) (n : NodeEntry parse) : Walker :=
  let name := w.arena.put n.name
  let qualifiedName := name.2.put n.qualifiedName
  let id := qualifiedName.2.put n.id
  let docstring := id.2.putOpt n.docstring
  let signature := docstring.2.putOpt n.signature
  let decorators := signature.2.putList (n.decorators.map Subtype.val)
  let typeParameters := decorators.2.putList (n.typeParameters.map Subtype.val)
  let returnType := typeParameters.2.putOpt n.returnType
  let extraJson := returnType.2.putOpt (n.extra.map (·.text))
  { arena := extraJson.2
    tables := (w.tables.pushNode
      { kind := nodeKindIndex n.kind
        visibility := visibilityCode n.visibility
        flags := flagsOf n.isExported n.isAsync n.isStatic n.isAbstract
        startLine := n.startLine
        endLine := n.endLine
        startColumn := n.startColumn
        endColumn := n.endColumn
        name := name.1
        qualifiedName := qualifiedName.1
        id := id.1
        docstring := docstring.1
        signature := signature.1
        decorators := decorators.1
        typeParameters := typeParameters.1
        returnType := returnType.1
        extraJson := extraJson.1 }).2 }

def Endpoint.idx : Endpoint → UInt32
  | .row index => index.val
  | .id _ => noneMark

def Endpoint.idText : Endpoint → Option Text
  | .row _ => none
  | .id text => some text

theorem Endpoint.written {arena : Arena} {ref : StrRef} (endpoint : Endpoint)
    (h : Issued arena ref endpoint.idText) : EndpointWritten arena endpoint.idx ref endpoint := by
  cases endpoint with
  | row index => rfl
  | id id => exact ⟨rfl, h⟩

def Walker.emitEdge {parse : Text → Option J} (w : Walker) (e : EdgeEntry parse) : Walker :=
  let metadataJson := w.arena.putOpt (e.metadata.map (·.text))
  let sourceIdStr := metadataJson.2.putOpt e.source.idText
  let targetIdStr := sourceIdStr.2.putOpt e.target.idText
  { arena := targetIdStr.2
    tables := w.tables.pushEdge
      { sourceIdx := e.source.idx
        targetIdx := e.target.idx
        kind := edgeKindIndex e.kind
        provenance := provenanceCode e.provenance
        line := placeWord e.line
        column := placeWord e.column
        metadataJson := metadataJson.1
        sourceIdStr := sourceIdStr.1
        targetIdStr := targetIdStr.1 } }

def Walker.emitRef (w : Walker) (e : RefEntry) : Walker :=
  let referenceName := w.arena.put e.referenceName
  let candidates := referenceName.2.putList (e.candidates.map Subtype.val)
  let fromIdStr := candidates.2.putOpt e.source.idText
  { arena := fromIdStr.2
    tables := w.tables.pushRefFlagged
      { fromIdx := e.source.idx
        kind := referenceKindCode e.kind
        line := e.line
        column := e.column
        referenceName := referenceName.1
        candidates := candidates.1
        fromIdStr := fromIdStr.1 } (refFlags e) }

theorem Emitted.emitNode {parse : Text → Option J} {w : Walker} {b : Batch parse}
    (h : Emitted w b) (n : NodeEntry parse) :
    Emitted (w.emitNode n) { b with nodes := b.nodes ++ [n] } := by
  unfold Walker.emitNode
  extract_lets name qualifiedName id docstring signature decorators typeParameters returnType
    extraJson
  have hreturn : Grows returnType.2 extraJson.2 := Grows.putOpt _ (.refl _)
  have htypes : Grows typeParameters.2 extraJson.2 := Grows.putOpt _ hreturn
  have hdecorators : Grows decorators.2 extraJson.2 := Grows.putList _ htypes
  have hsignature : Grows signature.2 extraJson.2 := Grows.putList _ hdecorators
  have hdocstring : Grows docstring.2 extraJson.2 := Grows.putOpt _ hsignature
  have hid : Grows id.2 extraJson.2 := Grows.putOpt _ hdocstring
  have hqualified : Grows qualifiedName.2 extraJson.2 := Grows.put _ hid
  have hname : Grows name.2 extraJson.2 := Grows.put _ hqualified
  refine (h.grow (Grows.put _ hname)).node ?_
  exact ⟨rfl, rfl, rfl, rfl, rfl, rfl, rfl, (Issued.put _ _).grow hname,
    (Issued.put _ _).grow hqualified, (Issued.put _ _).grow hid,
    (Issued.putOpt _ _).grow hdocstring, (Issued.putOpt _ _).grow hsignature,
    (Issued.putList _ _).grow hdecorators, (Issued.putList _ _).grow htypes,
    (Issued.putOpt _ _).grow hreturn, Issued.putOpt _ _⟩

theorem Emitted.emitEdge {parse : Text → Option J} {w : Walker} {b : Batch parse}
    (h : Emitted w b) (e : EdgeEntry parse) :
    Emitted (w.emitEdge e) { b with edges := b.edges ++ [e] } := by
  unfold Walker.emitEdge
  extract_lets metadataJson sourceIdStr targetIdStr
  have hsource : Grows sourceIdStr.2 targetIdStr.2 := Grows.putOpt _ (.refl _)
  have hmetadata : Grows metadataJson.2 targetIdStr.2 := Grows.putOpt _ hsource
  refine (h.grow (Grows.putOpt _ hmetadata)).edge ?_
  exact ⟨e.source.written ((Issued.putOpt _ _).grow hsource),
    e.target.written (Issued.putOpt _ _), rfl, rfl, rfl, rfl,
    (Issued.putOpt _ _).grow hmetadata⟩

theorem Emitted.emitRef {parse : Text → Option J} {w : Walker} {b : Batch parse}
    (h : Emitted w b) (e : RefEntry) :
    Emitted (w.emitRef e) { b with refs := b.refs ++ [e] } := by
  unfold Walker.emitRef
  extract_lets referenceName candidates fromIdStr
  have hcandidates : Grows candidates.2 fromIdStr.2 := Grows.putOpt _ (.refl _)
  have hname : Grows referenceName.2 fromIdStr.2 := Grows.putList _ hcandidates
  refine (h.grow (Grows.put _ hname)).ref ?_
  exact ⟨e.source.written (Issued.putOpt _ _), rfl, rfl, rfl, (Issued.put _ _).grow hname,
    (Issued.putList _ _).grow hcandidates⟩

/-- Every batch can be emitted. -/
theorem exists_emitted {parse : Text → Option J} (b : Batch parse) : ∃ w, Emitted w b := by
  have hnodes : ∀ nodes : List (NodeEntry parse),
      ∃ w, Emitted w ({ nodes := nodes } : Batch parse) := by
    intro nodes
    induction nodes using List.reverseRecOn with
    | nil => exact ⟨_, .start⟩
    | append_singleton nodes n ih =>
        obtain ⟨w, hw⟩ := ih
        exact ⟨_, hw.emitNode n⟩
  have hedges : ∀ nodes : List (NodeEntry parse), ∀ edges : List (EdgeEntry parse),
      ∃ w, Emitted w ({ nodes := nodes, edges := edges } : Batch parse) := by
    intro nodes edges
    induction edges using List.reverseRecOn with
    | nil => exact hnodes nodes
    | append_singleton edges e ih =>
        obtain ⟨w, hw⟩ := ih
        exact ⟨_, hw.emitEdge e⟩
  obtain ⟨nodes, edges, refs⟩ := b
  induction refs using List.reverseRecOn with
  | nil => exact hedges nodes edges
  | append_singleton refs e ih =>
      obtain ⟨w, hw⟩ := ih
      exact ⟨_, hw.emitRef e⟩

end AfyxGraph.Kernel
