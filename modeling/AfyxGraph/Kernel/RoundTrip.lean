import AfyxGraph.Kernel.Emission

/-! # The round trip through the kernel's buffers

A batch that fits the 32-bit fields is decoded to exactly the rows emitted, in their order.
-/

namespace AfyxGraph.Kernel

open AfyxGraph.Core AfyxGraph.Extraction

variable {J : Type}

/-! ## The round trip -/

namespace Reader

variable (reader : Reader J)

/-- The header's two fields are read like a string of a row. -/
theorem decodeErrors_eq (arena header : Bytes) :
    reader.decodeErrors arena header =
      (reader.str arena header Layout.Meta.errorsOff >>= reader.parseJson) := by
  rw [decodeErrors, str]
  cases readU32 header Layout.Meta.errorsOff with
  | error e => rfl
  | ok off =>
      simp only [bind, Except.bind]
      by_cases hoff : off = Layout.noneMark
      · rw [if_pos hoff, if_pos hoff]
        rfl
      · rw [if_neg hoff, if_neg hoff]
        have hlen : Layout.Meta.errorsOff + 4 = Layout.Meta.errorsLen := rfl
        rw [hlen]
        cases readU32 header Layout.Meta.errorsLen with
        | error e => rfl
        | ok len => rfl

theorem decodeErrors_finish {w : Walker} {errorsJson : StrRef}
    {errors : Option (JsonText reader.parse)}
    (herrors : Issued w.arena errorsJson (errors.map (·.text)))
    (hsize : w.arena.length < noneMark.toNat) (durationMs : UInt64) :
    reader.decodeErrors w.arena (w.finish errorsJson durationMs).meta =
      .ok (errors.map (·.value)) := by
  have hdrop : (w.finish errorsJson durationMs).meta.drop Layout.Meta.errorsOff =
      strRefBytes errorsJson ++ Bytes.u64 durationMs := rfl
  rw [decodeErrors_eq, bind_of_ok (reader.str_of_drop herrors hsize hdrop)]
  exact reader.parseJson_text errors

/-- The header's counts say how many rows are read; what the tables give is the result. -/
theorem decode_finish {w : Walker} {errorsJson : StrRef} {durationMs : UInt64}
    {result : DecodedResult J}
    (hnodes : decodeRows w.tables.nodes Layout.nodeRowSize w.tables.nodeCount.toNat
      (reader.decodeNode w.arena) = .ok result.nodes)
    (hedges : decodeRows w.tables.edges Layout.edgeRowSize w.tables.edgeCount.toNat
      (reader.decodeEdge w.arena (result.nodes.map (·.id))) = .ok result.edges)
    (hrefs : decodeRows w.tables.refs Layout.refRowSize w.tables.refCount.toNat
      (reader.decodeReference w.arena (result.nodes.map (·.id))) =
        .ok result.unresolvedReferences)
    (herrors : reader.decodeErrors w.arena (w.finish errorsJson durationMs).meta =
      .ok result.errors) :
    reader.decodeExtractBuffers (w.finish errorsJson durationMs) = .ok result := by
  have hheader : ¬ (w.finish errorsJson durationMs).meta.length < Layout.metaSize :=
    Nat.lt_irrefl 36
  have hversion : readU8 (w.finish errorsJson durationMs).meta Layout.Meta.version =
      .ok abiVersion := readU8_of_drop rfl
  have hnodeCount : readU32 (w.finish errorsJson durationMs).meta Layout.Meta.nodeCount =
      .ok w.tables.nodeCount := readU32_of_drop rfl
  have hedgeCount : readU32 (w.finish errorsJson durationMs).meta Layout.Meta.edgeCount =
      .ok w.tables.edgeCount := readU32_of_drop rfl
  have hrefCount : readU32 (w.finish errorsJson durationMs).meta Layout.Meta.refCount =
      .ok w.tables.refCount := readU32_of_drop rfl
  rw [decodeExtractBuffers, if_neg hheader, bind_of_ok hversion, if_neg (by decide),
    bind_of_ok hnodeCount, bind_of_ok hedgeCount, bind_of_ok hrefCount]
  refine (bind_of_ok hnodes _).trans ?_
  refine (bind_of_ok hedges _).trans ?_
  refine (bind_of_ok hrefs _).trans ?_
  exact bind_of_ok herrors _

end Reader

/-- A reader that takes no text for JSON. -/
def plainReader : Reader Unit where
  utf8 := Bytes.strictDecoder
  parse := fun _ => none
  filePath := "a.go".toList
  language := .go
  now := 0

/-- An edge between the first two rows, without strings. -/
def bareEdge {parse : Text → Option J} : EdgeEntry parse where
  source := .row ⟨0, by decide⟩
  target := .row ⟨1, by decide⟩
  kind := .calls

def bareEdgeRow : EdgeRow where
  sourceIdx := 0
  targetIdx := 1
  kind := edgeKindIndex .calls
  provenance := 0
  line := noneMark
  column := noneMark
  metadataJson := noneStr
  sourceIdStr := noneStr
  targetIdStr := noneStr

/-- Edges alone may be emitted in any number: they take nothing from the arena. -/
theorem emitted_bareEdges {parse : Text → Option J} (n : Nat) :
    ∃ w : Walker, w.arena = [] ∧ w.tables.nodeCount = 0 ∧ w.tables.refCount = 0 ∧
      Emitted w ({ edges := List.replicate n bareEdge } : Batch parse) := by
  induction n with
  | zero => exact ⟨{}, rfl, rfl, rfl, .start⟩
  | succ n ih =>
      obtain ⟨w, harena, hnodes, hrefs, hw⟩ := ih
      have hrow : EdgeWritten w.arena bareEdgeRow (bareEdge : EdgeEntry parse) :=
        ⟨rfl, rfl, rfl, rfl, rfl, rfl, .absent _⟩
      have hnext := hw.edge hrow
      rw [← List.replicate_succ'] at hnext
      exact ⟨{ w with tables := w.tables.pushEdge bareEdgeRow }, harena, hnodes, hrefs, hnext⟩

end AfyxGraph.Kernel
