import AfyxGraph.Installer.TomlEdits

/-! # The file as tables

What the file is for its reader is what stands before the first table header and a list of tables,
each its header and the lines up to the next one. On these an edit is what its name says: one table
is put in, in its old place if it was there, or taken out, and all others stay.
-/

namespace AfyxGraph.Installer.Toml

open AfyxGraph.Core

variable {A B C X lines : List Text} {line h r : Text} {table : Table} {content : Text}
  {s : TomlLexState}

/-! ## Tables -/

/-- Empty lines at the end of a table say nothing. -/
structure Document where
  preamble : List Text
  tables : List (List Text)
  deriving DecidableEq

/-- The lines before the first table header, and those from each header on. -/
def tablesFrom : TomlLexState → List Text → List Text × List (List Text)
  | _, [] => ([], [])
  | state, line :: lines =>
      let rest := tablesFrom (scanTomlLine line state) lines
      if headsTable state line then ([], (line :: rest.1) :: rest.2) else (line :: rest.1, rest.2)

def documentFrom (state : TomlLexState) (lines : List Text) : Document where
  preamble := dropBlank (tablesFrom state lines).1
  tables := (tablesFrom state lines).2.map dropBlank

/-- The text as its reader sees it: the scanner goes over all of it, from the first line on. -/
def document (content : Text) : Document := documentFrom {} (Text.split '\n' content)

/-- The table that starts with the line is there. -/
def startsWith (h : Text) (lines : List Text) : Bool := lines.head?.any fun line => h <+: line

/-- The block in the place of the first table that starts with the header, or at the end. -/
def setTable (h : Text) (block : List Text) : List (List Text) → List (List Text)
  | [] => [block]
  | t :: ts => if startsWith h t then block :: ts else t :: setTable h block ts

theorem isTop_iff : s.isTop = true ↔ s = {} := by
  obtain ⟨m, a, i⟩ := s
  simp [TomlLexState.isTop, and_assoc]

theorem tablesFrom_noHeader (h : NoHeader s B) : tablesFrom s B = (B, []) := by
  induction h with
  | nil => rfl
  | cons hline hrest ih => rw [tablesFrom, ih, hline]; rfl

theorem tablesFrom_starts (h : StartsTable s C) : (tablesFrom s C).1 = [] := by
  cases C with
  | nil => rfl
  | cons line C =>
      have hheads : headsTable s line = true := h
      rw [tablesFrom, hheads]
      rfl

/-- At a table header the tables are those before it and those behind. -/
theorem tablesFrom_append (hC : StartsTable (scanLines A s) C) :
    tablesFrom s (A ++ C) =
      ((tablesFrom s A).1, (tablesFrom s A).2 ++ (tablesFrom (scanLines A s) C).2) := by
  induction A generalizing s with
  | nil => exact Prod.ext (tablesFrom_starts hC) rfl
  | cons line A ih =>
      rw [List.cons_append, tablesFrom, tablesFrom, ih hC]
      cases headsTable s line <;> rfl

theorem tablesFrom_behind (hC : StartsTable s C) : (tablesFrom s C).2 = (tablesFrom {} C).2 := by
  cases C with
  | nil => rfl
  | cons line C =>
      have hheads : headsTable s line = true := hC
      rw [isTop_iff.mp (Bool.and_eq_true_iff.mp hheads).1]

/-- The tables around one: it starts with a line that heads it, and no line behind does. -/
theorem tablesFrom_around (htop : scanLines A {} = {}) (hline : headsTable {} line = true)
    (hscan : scanTomlLine line {} = {}) (hB : NoHeader {} B)
    (hC : StartsTable (scanLines B {}) C) :
    tablesFrom {} (A ++ ((line :: B) ++ C)) =
      ((tablesFrom {} A).1, (tablesFrom {} A).2 ++ (line :: B) :: (tablesFrom {} C).2) := by
  have hbody := tablesFrom_append (A := B) (s := {}) hC
  rw [tablesFrom_noHeader hB, tablesFrom_behind hC] at hbody
  have hstart : StartsTable (scanLines A {}) (line :: B ++ C) := by
    rw [htop]
    exact hline
  rw [tablesFrom_append hstart, htop, List.cons_append, tablesFrom, hscan, hbody, hline]
  rfl

/-! ## Empty lines -/

theorem dropBlank_append_replicate (A : List Text) (n : Nat) :
    dropBlank (A ++ List.replicate n []) = dropBlank A := by
  induction n with
  | zero => rw [List.replicate_zero, List.append_nil]
  | succ n ih => rw [List.replicate_succ', ← List.append_assoc, dropBlank_concat_nil, ih]

theorem dropBlank_cons (line : Text) (A : List Text) :
    dropBlank (line :: dropBlank A) = dropBlank (line :: A) := by
  obtain ⟨n, hA, -⟩ := exists_dropBlank A
  conv_rhs => rw [hA, ← List.cons_append, dropBlank_append_replicate]

theorem dropBlank_cons_of_ne (hline : line ≠ []) (A : List Text) :
    dropBlank (line :: A) = line :: dropBlank A := by
  rw [← dropBlank_cons]
  rcases List.eq_nil_or_concat (dropBlank A) with hnil | ⟨front, last, heq⟩
  · rw [hnil]
    exact dropBlank_concat_of_ne [] hline
  · have hlast : last ≠ [] := by
      rintro rfl
      have hidem := dropBlank_idem A
      rw [heq, List.concat_eq_append, dropBlank_concat_nil] at hidem
      have hle : (dropBlank front).length ≤ front.length :=
        (List.rdropWhile_prefix isEmptyLine front).length_le
      rw [hidem, List.length_append, List.length_singleton] at hle
      omega
    rw [heq, List.concat_eq_append, ← List.cons_append]
    exact dropBlank_concat_of_ne (line :: front) hlast

theorem documentFrom_concat_nil (s : TomlLexState) (A : List Text) :
    documentFrom s (A ++ [[]]) = documentFrom s A := by
  induction A generalizing s with
  | nil =>
      have hno : headsTable s [] = false := Bool.and_false _
      simp only [List.nil_append, documentFrom, tablesFrom, hno]
      rfl
  | cons line A ih =>
      have hrest := ih (scanTomlLine line s)
      simp only [documentFrom, Document.mk.injEq] at hrest
      obtain ⟨hfirst, htables⟩ := hrest
      simp only [List.cons_append, documentFrom, tablesFrom]
      split
      · simp only [List.map_cons, htables, ← dropBlank_cons line (tablesFrom _ (A ++ [[]])).1,
          hfirst, dropBlank_cons]
      · simp only [htables, ← dropBlank_cons line (tablesFrom _ (A ++ [[]])).1, hfirst,
          dropBlank_cons]

theorem documentFrom_replicate (s : TomlLexState) (A : List Text) (n : Nat) :
    documentFrom s (A ++ List.replicate n []) = documentFrom s A := by
  induction n with
  | zero => rw [List.replicate_zero, List.append_nil]
  | succ n ih => rw [List.replicate_succ', ← List.append_assoc, documentFrom_concat_nil, ih]

theorem scanTomlLine_nil (s : TomlLexState) : scanTomlLine [] s = s := rfl

theorem scanLines_replicate (s : TomlLexState) (A : List Text) (n : Nat) :
    scanLines (A ++ List.replicate n []) s = scanLines A s := by
  induction n with
  | zero => rw [List.replicate_zero, List.append_nil]
  | succ n ih =>
      rw [List.replicate_succ', ← List.append_assoc, scanLines_append, ih, scanLines_cons,
        scanTomlLine_nil, scanLines_nil]

/-- Empty lines at the end are nothing to the reader. -/
theorem dropBlank_spec (s : TomlLexState) (A : List Text) :
    documentFrom s (dropBlank A) = documentFrom s A ∧
      scanLines (dropBlank A) s = scanLines A s := by
  obtain ⟨n, hA, -⟩ := exists_dropBlank A
  have hdocument := documentFrom_replicate s (dropBlank A) n
  have hscan := scanLines_replicate s (dropBlank A) n
  rw [← hA] at hdocument hscan
  exact ⟨hdocument.symm, hscan.symm⟩

/-- The lines that an edit puts before the block are to the reader those that stood there. -/
theorem gap_spec (s : TomlLexState) (A : List Text) :
    documentFrom s (gap A) = documentFrom s A ∧ scanLines (gap A) s = scanLines A s := by
  unfold gap
  split
  · rename_i hnil
    rw [hnil]
    exact ⟨rfl, rfl⟩
  · exact ⟨documentFrom_concat_nil s _, scanLines_replicate s _ 1⟩

theorem document_join (hlines : Lines lines) : document (join lines) = documentFrom {} lines := by
  cases lines with
  | nil => exact documentFrom_concat_nil {} []
  | cons line lines => rw [document, split_join (List.cons_ne_nil _ _) hlines]

/-! ## Edits of tables -/

theorem head_of_mem_tables {t : List Text} (ht : t ∈ (tablesFrom s A).2) :
    ∃ line ∈ A, ∃ body, t = line :: body ∧ line ≠ [] := by
  induction A generalizing s with
  | nil => exact absurd ht List.not_mem_nil
  | cons line A ih =>
      rw [tablesFrom] at ht
      cases hheads : headsTable s line with
      | true =>
          simp only [hheads, if_true] at ht
          rcases List.mem_cons.mp ht with rfl | ht
          · refine ⟨line, List.mem_cons_self, _, rfl, ?_⟩
            rintro rfl
            exact absurd (Bool.and_eq_true_iff.mp hheads).2 (by decide)
          · obtain ⟨first, hfirst, hbody⟩ := ih ht
            exact ⟨first, List.mem_cons_of_mem _ hfirst, hbody⟩
      | false =>
          simp only [hheads, Bool.false_eq_true, if_false] at ht
          obtain ⟨first, hfirst, hbody⟩ := ih ht
          exact ⟨first, List.mem_cons_of_mem _ hfirst, hbody⟩

theorem startsWith_dropBlank (hline : line ≠ []) (body : List Text) :
    startsWith h (dropBlank (line :: body)) = decide (h <+: line) := by
  rw [dropBlank_cons_of_ne hline]
  rfl

/-- No table of a document starts with what no line of it starts with. -/
theorem startsWith_of_tables (hno : ∀ line ∈ A, ¬ h <+: line) :
    ∀ t ∈ (documentFrom s A).tables, startsWith h t = false := by
  intro t ht
  obtain ⟨t', ht', rfl⟩ := List.mem_map.mp ht
  obtain ⟨line, hmem, body, rfl, hline⟩ := head_of_mem_tables ht'
  rw [startsWith_dropBlank hline]
  exact decide_eq_false (hno line hmem)

theorem setTable_append {ts more : List (List Text)} {t block : List Text}
    (hno : ∀ t ∈ ts, startsWith h t = false) (ht : startsWith h t = true) :
    setTable h block (ts ++ t :: more) = ts ++ block :: more := by
  induction ts with
  | nil => rw [List.nil_append, setTable, if_pos ht]; rfl
  | cons first ts ih =>
      rw [List.cons_append, setTable, hno first List.mem_cons_self, if_neg (by decide),
        ih fun t ht => hno t (List.mem_cons_of_mem _ ht)]
      rfl

theorem setTable_absent {ts : List (List Text)} {block : List Text}
    (hno : ∀ t ∈ ts, startsWith h t = false) : setTable h block ts = ts ++ [block] := by
  induction ts with
  | nil => rfl
  | cons first ts ih =>
      rw [setTable, hno first List.mem_cons_self, if_neg (by decide),
        ih fun t ht => hno t (List.mem_cons_of_mem _ ht)]
      rfl

/-! ## The editor on tables -/

/-- The first line that starts with the header, if there is one, heads a table. -/
def headsFirst (h : Text) : TomlLexState → List Text → Bool
  | _, [] => true
  | state, line :: lines =>
      if h <+: line then headsTable state line else headsFirst h (scanTomlLine line state) lines

/-- What the editor takes for granted of a file: a line that starts with the header is not inside a
value, and no value is open at the end of a file that gets the table there. -/
structure Editable (table : Table) (content : Text) : Prop where
  heads : headsFirst table.headerLine {} (Text.split '\n' content) = true
  closed : (∀ line ∈ Text.split '\n' content, ¬ table.headerLine <+: line) →
    (scanLines (Text.split '\n' content.trimEnd) {}).isTop = true

theorem headsFirst_append (hA : ∀ line ∈ A, ¬ h <+: line) (hline : h <+: line) :
    headsFirst h s (A ++ line :: B) = headsTable (scanLines A s) line := by
  induction A generalizing s with
  | nil => exact if_pos hline
  | cons first A ih =>
      rw [List.cons_append, headsFirst, if_neg (hA first List.mem_cons_self),
        ih fun l hl => hA l (List.mem_cons_of_mem _ hl), scanLines_cons]

/-- The document around the block of a cut. -/
theorem Cut.document_eq {block : List Text} (cut : Cut table.headerLine A block C)
    (heads : headsFirst table.headerLine {} (A ++ (block ++ C)) = true) :
    scanLines A {} = {} ∧ startsWith table.headerLine (dropBlank block) = true ∧
      documentFrom {} (A ++ (block ++ C)) =
        { preamble := (documentFrom {} A).preamble
          tables := (documentFrom {} A).tables ++
            dropBlank block :: (documentFrom {} C).tables } := by
  obtain ⟨r, B, rfl, hB, hC⟩ := cut.block
  rw [List.cons_append, headsFirst_append cut.front (List.prefix_append _ _)] at heads
  obtain ⟨htop, hheader⟩ := Bool.and_eq_true_iff.mp heads
  rw [isTop_iff] at htop
  have hend := hheader
  rw [table.isTomlTableHeader_append] at hend
  obtain ⟨hr, hline⟩ := table.scanTomlLine_headerEnd hend
  rw [hr] at hB hC
  have hheads : headsTable {} (table.headerLine ++ r) = true := htop ▸ heads
  refine ⟨htop, ?_, ?_⟩
  · rw [startsWith_dropBlank (List.append_ne_nil_of_left_ne_nil table.headerLine_ne_nil r)]
    exact decide_eq_true (List.prefix_append _ _)
  · rw [documentFrom, tablesFrom_around htop hheads hline hB hC]
    simp [documentFrom]

/-- The document of an edited file. -/
theorem document_edited (hX : Lines X) (hno : ∀ line ∈ X, ¬ table.headerLine <+: line)
    (hC : Lines C) (hstart : StartsTable {} C) (htop : scanLines X {} = {}) :
    document (join (gap X ++ (table.blockLines ++ [[]] ++ C))) =
      { preamble := (documentFrom {} X).preamble
        tables := (documentFrom {} X).tables ++
          table.blockLines :: (documentFrom {} C).tables } := by
  have cut := cut_edited hX hno hC hstart
  obtain ⟨hgap, hscan⟩ := gap_spec {} X
  have heads :
      headsFirst table.headerLine {} (gap X ++ (table.blockLines ++ [[]] ++ C)) = true := by
    have hfirst := headsFirst_append (B := table.values.map entryLine ++ [[]] ++ C) (s := {})
      cut.front (List.prefix_refl table.headerLine)
    rw [hscan, htop] at hfirst
    exact hfirst.trans table.isTomlTableHeader_headerLine
  rw [document_join cut.lines, (cut.document_eq heads).2.2, table.dropBlank_blockLines, hgap]

theorem lines_closeUp (hA : Lines A) (hC : Lines C) : Lines (closeUp A C) := by
  unfold closeUp
  split
  · exact hC
  · split
    · exact hA
    · intro l hl
      rcases List.mem_append.mp hl with hl | hl
      · rcases List.mem_append.mp hl with hl | hl
        · exact hA l hl
        · rw [List.mem_singleton.mp hl]
          exact List.not_mem_nil
      · exact hC l hl

theorem documentFrom_closeUp (htop : scanLines A {} = {}) (hstart : StartsTable {} C) :
    documentFrom {} (closeUp (dropBlank A) C) =
      { preamble := (documentFrom {} A).preamble
        tables := (documentFrom {} A).tables ++ (documentFrom {} C).tables } := by
  obtain ⟨hdocument, hscan⟩ := dropBlank_spec {} A
  obtain ⟨hgap, hgapScan⟩ := gap_spec {} (dropBlank A)
  rw [← hdocument, ← hgap]
  have happend : documentFrom {} (gap (dropBlank A) ++ C) =
      { preamble := (documentFrom {} (gap (dropBlank A))).preamble
        tables := (documentFrom {} (gap (dropBlank A))).tables ++ (documentFrom {} C).tables } := by
    have hclean : scanLines (gap (dropBlank A)) {} = {} := hgapScan.trans (hscan.trans htop)
    have htables := tablesFrom_append (A := gap (dropBlank A)) (s := {}) (hclean ▸ hstart)
    rw [hclean] at htables
    simp [documentFrom, htables]
  unfold closeUp
  split
  · rename_i hnil
    rw [hnil] at happend ⊢
    exact happend
  · rename_i hne
    split
    · rename_i hC
      rw [hC, List.append_nil] at happend
      rw [hC, ← happend, hgap]
    · rw [← happend, gap, if_neg hne]

/-- The part of the file that `upsertTomlTable` works on: the blanks at its end are dropped when
the block is put behind it. -/
def worked (table : Table) (content : Text) : Text :=
  if (upsertTomlTable content table.header table.block).2 = .inserted then content.trimEnd
  else content

/-- On the tables of a file, one edit sets the table of the block and the other one erases it. -/
theorem edits_are_table_edits (table : Table) (content : Text) (h : Editable table content) :
    document (upsertTomlTable content table.header table.block).1 =
        { preamble := (document (worked table content)).preamble
          tables := setTable table.headerLine table.blockLines
            (document (worked table content)).tables } ∧
      document (removeTomlTable content table.header).1 =
        { preamble := (document content).preamble
          tables := (document content).tables.eraseP (startsWith table.headerLine) } := by
  obtain ⟨heads, closed⟩ := h
  unfold worked
  rcases exists_cut table.headerLine content with hno | ⟨A, block, C, rfl, cut⟩
  · obtain ⟨X, hX, hkept, hfront, hjoin, hupsert⟩ := upsert_absent hno
    have htop : scanLines X {} = {} := by
      have hend := isTop_iff.mp (closed hno)
      rw [← hjoin] at hend
      by_cases hne : X = []
      · rw [hne]
        rfl
      · rwa [split_join hne hX] at hend
    have hnil : Lines [] := fun _ hl => absurd hl List.not_mem_nil
    have hedited := document_edited hX hfront hnil trivial htop
    have habsent := startsWith_of_tables (s := {}) hfront
    rw [List.append_nil] at hedited
    constructor
    · rw [hupsert, if_pos rfl, hedited, ← hjoin, document_join hX, setTable_absent habsent]
      rfl
    · have hkeep : removeTomlTable content table.header = (content, .notFound) := by
        simp only [removeTomlTable, findHeaderIndex_absent hno]
      have herase : (document content).tables.eraseP (startsWith table.headerLine) =
          (document content).tables := by
        refine List.eraseP_of_forall_not fun t ht => ?_
        rw [startsWith_of_tables (s := {}) hno t ht]
        decide
      rw [hkeep, herase]
  · have hlines := cut.lines
    have hne : A ++ (block ++ C) ≠ [] := by
      simp [cut.block_ne]
    rw [split_join hne hlines] at heads
    obtain ⟨htop, hstarts, hdocument⟩ := cut.document_eq heads
    have hfront := startsWith_of_tables (s := {}) cut.front
    obtain ⟨hsame, hscan⟩ := dropBlank_spec {} A
    constructor
    · rw [cut.upsert_eq]
      split
      · rename_i hequal
        have hblock : dropBlank block = table.blockLines := by
          have hnonempty : dropBlank block ≠ [] := by
            intro hnil
            rw [hnil] at hstarts
            cases hstarts
          rw [← split_join hnonempty fun l hl => cut.lines_block l (mem_of_mem_dropBlank hl),
            hequal, table.block_eq, split_join table.blockLines_ne_nil table.lines_blockLines]
        rw [if_neg (by simp), document_join hlines, hdocument, setTable_append hfront hstarts,
          hblock]
      · have hX : Lines (dropBlank A) := fun l hl => cut.lines_front l (mem_of_mem_dropBlank hl)
        have hfront' : ∀ line ∈ dropBlank A, ¬ table.headerLine <+: line :=
          fun l hl => cut.front l (mem_of_mem_dropBlank hl)
        rw [if_neg (by simp), document_join hlines, hdocument, setTable_append hfront hstarts,
          document_edited hX hfront' cut.lines_behind cut.startsTable (hscan.trans htop), hsame]
    · have hclosed : Lines (closeUp (dropBlank A) C) :=
        lines_closeUp (fun l hl => cut.lines_front l (mem_of_mem_dropBlank hl)) cut.lines_behind
      rw [cut.remove_eq, document_join hclosed, documentFrom_closeUp htop cut.startsTable,
        document_join hlines, hdocument, List.eraseP_append_right _ ?_,
        List.eraseP_cons_of_pos hstarts]
      intro t ht
      rw [hfront t ht]
      decide

/-- `buildAfyxGraphBlock` -/
def afyxGraphTable : Table where
  parts := ["mcp_servers".toList, "afyx_graph".toList]
  values := [("command".toList, .string "afyx-graph".toList),
    ("args".toList, .array ["serve".toList, "--mcp".toList])]
  parts_ne := by decide
  part_ne := by decide
  part_bare := by simp [isBareKeyChar]
  values_ne := by decide
  key_bare := by simp [isBareKeyChar]
  oneLine := by decide

/-- An old table between others, with a bracket and what looks like a header inside values. -/
def codexConfig : Text :=
  ("[notes]\ntext = \"\"\"\n[model]\n\"\"\"\n\n" ++
    "[mcp_servers.afyx_graph] # old\ncommand = \"a[\"\n[model]\nx = 1").toList

theorem codexConfig_editable : Editable afyxGraphTable codexConfig where
  heads := by decide +kernel
  closed := by decide +kernel

theorem edits_are_table_edits_codex :
    (document (upsertTomlTable codexConfig afyxGraphTable.header afyxGraphTable.block).1).tables =
        [["[notes]".toList, "text = \"\"\"".toList, "[model]".toList, "\"\"\"".toList],
          afyxGraphTable.blockLines, ["[model]".toList, "x = 1".toList]] := by
  have hedit := (edits_are_table_edits afyxGraphTable codexConfig codexConfig_editable).1
  rw [hedit]
  decide +kernel

/-- Inside a value the header is taken for a table, and the value loses its end. -/
example : ¬ Editable afyxGraphTable "x = '''\n[mcp_servers.afyx_graph]\n'''".toList :=
  fun h => absurd h.heads (by decide +kernel)

end AfyxGraph.Installer.Toml
