import AfyxGraph.Installer.TomlBlock

/-! # Edits of the file

Where the first line with the header stands, the file is cut into the lines before it, the lines
of its table and the lines from the next header on. Both edits are said on that cut, and the cut of
an edited file is known, so that edits compose.
-/

namespace AfyxGraph.Installer.Toml

open AfyxGraph.Core

variable {A B C X : List Text} {line h t : Text} {table : Table} {content : Text}

/-! ## The cut -/

/-- The first line that starts with `h` heads `block`, the lines up to the next table header. -/
structure Cut (h : Text) (A block C : List Text) : Prop where
  lines : Lines (A ++ (block ++ C))
  front : ∀ line ∈ A, ¬ h <+: line
  block : ∃ r B, block = (h ++ r) :: B ∧ NoHeader (scanTomlLine r {}) B ∧
    StartsTable (scanLines B (scanTomlLine r {})) C

theorem exists_first_line (h : Text) (lines : List Text) :
    (∀ line ∈ lines, ¬ h <+: line) ∨
      ∃ A line B, lines = A ++ line :: B ∧ (∀ l ∈ A, ¬ h <+: l) ∧ h <+: line := by
  induction lines with
  | nil => exact .inl fun _ hl => absurd hl List.not_mem_nil
  | cons line lines ih =>
      by_cases hline : h <+: line
      · exact .inr ⟨[], line, lines, rfl, fun _ hl => absurd hl List.not_mem_nil, hline⟩
      · rcases ih with hno | ⟨A, first, B, rfl, hA, hfirst⟩
        · exact .inl (List.forall_mem_cons.mpr ⟨hline, hno⟩)
        · exact .inr ⟨line :: A, first, B, rfl, List.forall_mem_cons.mpr ⟨hline, hA⟩, hfirst⟩

/-- Every text has no such line, or a cut. -/
theorem exists_cut (h content : Text) :
    (∀ line ∈ Text.split '\n' content, ¬ h <+: line) ∨
      ∃ A block C, content = join (A ++ (block ++ C)) ∧ Cut h A block C := by
  rcases exists_first_line h (Text.split '\n' content) with hno | ⟨A, line, rest, hsplit, hA, hline⟩
  · exact .inl hno
  · obtain ⟨r, rfl⟩ := hline
    obtain ⟨B, C, rfl, hB, hC⟩ := exists_noHeader (scanTomlLine r {}) rest
    refine .inr ⟨A, (h ++ r) :: B, C, ?_, ?_, hA, r, B, rfl, hB, hC⟩
    · rw [← join_split content, hsplit]
      rfl
    · have hlines := lines_split content
      rw [hsplit] at hlines
      exact hlines

/-- Lines put behind the front: with an empty line between. -/
def gap (A : List Text) : List Text := if A = [] then [] else A ++ [[]]

theorem mem_gap (hl : line ∈ gap A) : line ∈ A ∨ line = [] := by
  unfold gap at hl
  split at hl
  · exact absurd hl List.not_mem_nil
  · rcases List.mem_append.mp hl with hl | hl
    · exact .inl hl
    · exact .inr (List.mem_singleton.mp hl)

namespace Cut

variable {block : List Text}

theorem lines_front (cut : Cut h A block C) : Lines A :=
  fun l hl => cut.lines l (List.mem_append_left _ hl)

theorem lines_block (cut : Cut h A block C) : Lines block :=
  fun l hl => cut.lines l (List.mem_append_right _ (List.mem_append_left _ hl))

theorem lines_behind (cut : Cut h A block C) : Lines C :=
  fun l hl => cut.lines l (List.mem_append_right _ (List.mem_append_right _ hl))

theorem block_ne (cut : Cut h A block C) : block ≠ [] := by
  obtain ⟨r, B, rfl, -, -⟩ := cut.block
  exact List.cons_ne_nil _ _

/-- The text of the block, with the newline before the next header. -/
def text (block C : List Text) : Text := if C = [] then join block else unlines block

theorem join_eq (cut : Cut h A block C) :
    join (A ++ (block ++ C)) = unlines A ++ (text block C ++ join C) := by
  rw [join_append A (List.append_ne_nil_of_left_ne_nil cut.block_ne C)]
  unfold text
  split
  · rename_i hC
    rw [hC, List.append_nil]
    exact congrArg _ (List.append_nil _).symm
  · rename_i hC
    rw [join_append block hC]

theorem findHeaderIndex_eq (cut : Cut h A block C) (hh : '\n' ∉ h) :
    findHeaderIndex (join (A ++ (block ++ C))) h = some (unlines A).length := by
  rw [join_append A (List.append_ne_nil_of_left_ne_nil cut.block_ne C)]
  refine findHeaderIndex_some hh cut.lines_front cut.front ?_
  obtain ⟨r, B, rfl, -, -⟩ := cut.block
  by_cases hrest : B ++ C = []
  · rw [List.cons_append, hrest]
    exact List.prefix_append h r
  · rw [List.cons_append, join_cons _ hrest, List.append_assoc]
    exact List.prefix_append h _

theorem findNextTableHeader_eq (cut : Cut h A block C) :
    findNextTableHeader (join (A ++ (block ++ C))) ((unlines A).length + h.length) =
      (unlines A).length + (text block C).length := by
  have hlines := cut.lines
  have hjoin := cut.join_eq
  obtain ⟨r, B, rfl, hB, hC⟩ := cut.block
  have hrest : (join (A ++ ((h ++ r) :: B ++ C))).drop ((unlines A).length + h.length) =
      join (r :: (B ++ C)) := by
    rw [join_append A (by simp), ← List.drop_drop, List.drop_left]
    by_cases hlast : B ++ C = []
    · rw [List.cons_append, hlast, join_singleton, List.drop_left, join_singleton]
    · rw [List.cons_append, join_cons _ hlast, List.append_assoc, List.drop_left, join_cons _ hlast]
  have hr : Lines (r :: (B ++ C)) := by
    intro l hl
    rcases List.mem_cons.mp hl with rfl | hl
    · intro hmem
      exact hlines (h ++ l) (by simp) (List.mem_append_right _ hmem)
    · exact hlines l (List.mem_append_right _ (List.mem_cons_of_mem _ hl))
  rw [findNextTableHeader, hrest, split_join (List.cons_ne_nil _ _) hr, nextTableHeader,
    if_neg (by simp), nextTableHeader_noHeader hB hC]
  unfold text
  split
  · rename_i hnil
    rw [hjoin, hnil]
    simp [text, join, Text.joinWith]
  · simp only [Option.getD_some, unlines_cons, List.length_append, List.length_cons]
    omega

theorem stripEnd_text (cut : Cut h A block C) :
    stripEnd (text block C) = join (dropBlank block) := by
  unfold text
  split
  · exact stripEnd_join cut.lines_block
  · exact stripEnd_unlines cut.lines_block

/-- What stands behind the block starts with a header, if there is anything. -/
theorem behind_head (cut : Cut h A block C) :
    C = [] ∨ ∃ c rest, join C = c :: rest ∧ c ≠ '\n' := by
  obtain ⟨r, B, -, -, hC⟩ := cut.block
  cases hcons : C with
  | nil => exact .inl rfl
  | cons line C' =>
      rw [hcons] at hC
      have hheader : isTomlTableHeader line = true := (Bool.and_eq_true_iff.mp hC).2
      obtain ⟨c, rest, rfl⟩ : ∃ c rest, line = c :: rest := by
        cases line with
        | nil => exact absurd hheader (by decide)
        | cons c rest => exact ⟨c, rest, rfl⟩
      have hc : c ≠ '\n' := by
        rintro rfl
        exact cut.lines_behind ('\n' :: rest) (hcons ▸ List.mem_cons_self) List.mem_cons_self
      by_cases hlast : C' = []
      · exact .inr ⟨c, rest, by rw [hlast]; rfl, hc⟩
      · exact .inr ⟨c, _, join_cons _ hlast, hc⟩

theorem stripStart_behind (cut : Cut h A block C) : stripStart (join C) = join C := by
  rcases cut.behind_head with rfl | ⟨c, rest, heq, hc⟩
  · rfl
  · rw [heq]
    exact List.dropWhile_cons_of_neg (by simpa [isNewline] using hc)

/-- Past its first line, the text behind the block is read from outside a value. -/
theorem startsTable (cut : Cut h A block C) : StartsTable {} C := by
  obtain ⟨r, B, -, -, hC⟩ := cut.block
  cases C with
  | nil => trivial
  | cons line C =>
      have hheads : headsTable _ line = true := hC
      have hheader := (Bool.and_eq_true_iff.mp hheads).2
      show headsTable {} line = true
      rw [headsTable, hheader]
      rfl

end Cut

theorem join_gap_append (hB : B ≠ []) :
    join (dropBlank A) ++
        ((if 0 < (join (dropBlank A)).length then ['\n', '\n'] else []) ++ join B) =
      join (gap (dropBlank A) ++ B) := by
  unfold gap
  by_cases hA : dropBlank A = []
  · rw [hA]
    rfl
  · have hpos : 0 < (join (dropBlank A)).length :=
      List.length_pos_iff.mpr fun hnil => hA (join_dropBlank_eq_nil.mp hnil)
    rw [if_neg hA, if_pos hpos, join_append _ hB, unlines_eq_join, join_concat_nil (by simp),
      join_concat_nil hA]
    simp

/-! ## The edits -/

theorem Cut.take_front {block : List Text} (cut : Cut table.headerLine A block C) :
    (join (A ++ (block ++ C))).take (unlines A).length = unlines A := by
  rw [cut.join_eq, List.take_left]

theorem Cut.drop_block {block : List Text} (cut : Cut table.headerLine A block C) :
    (join (A ++ (block ++ C))).drop ((unlines A).length + (text block C).length) = join C := by
  rw [cut.join_eq, ← List.drop_drop, List.drop_left, List.drop_left]

theorem Cut.upsert_eq {block : List Text} (cut : Cut table.headerLine A block C) :
    upsertTomlTable (join (A ++ (block ++ C))) table.header table.block =
      if join (dropBlank block) = table.block then (join (A ++ (block ++ C)), .unchanged)
      else (join (gap (dropBlank A) ++ (table.blockLines ++ [[]] ++ C)), .replaced) := by
  have hindex := cut.findHeaderIndex_eq table.newline_notMem_headerLine
  have hend := cut.findNextTableHeader_eq
  have htake : ((join (A ++ (block ++ C))).take ((unlines A).length + (text block C).length)).drop
      (unlines A).length = text block C := by
    rw [cut.join_eq, List.take_length_add_append, List.drop_left, List.take_left]
  have hblock : table.block ++ ((if 0 < (join C).length then ['\n', '\n'] else ['\n']) ++ join C) =
      join (table.blockLines ++ [[]] ++ C) := by
    have hne := table.blockLines_ne_nil
    rw [table.block_eq]
    rcases cut.behind_head with rfl | ⟨c, rest, heq, -⟩
    · rw [List.append_nil, join_concat_nil hne]
      rfl
    · have hC : C ≠ [] := by
        rintro rfl
        cases heq
      have hpos : 0 < (join C).length := by
        rw [heq]
        exact Nat.succ_pos _
      rw [if_pos hpos, join_append _ hC, unlines_eq_join, join_concat_nil (by simp),
        join_concat_nil hne]
      simp
  unfold Table.headerLine at hindex hend
  simp only [upsertTomlTable, hindex, hend, htake, cut.take_front, cut.drop_block,
    cut.stripEnd_text, stripEnd_unlines cut.lines_front, cut.stripStart_behind, hblock]
  split
  · rfl
  · rw [join_gap_append (by simp [Table.blockLines])]

/-- `removeTomlTable` joins what is left: with an empty line between when both are there. -/
def closeUp (A C : List Text) : List Text :=
  if A = [] then C else if C = [] then A else A ++ [[]] ++ C

theorem Cut.remove_eq {block : List Text} (cut : Cut table.headerLine A block C) :
    removeTomlTable (join (A ++ (block ++ C))) table.header =
      (join (closeUp (dropBlank A) C), .removed) := by
  have hindex := cut.findHeaderIndex_eq table.newline_notMem_headerLine
  have hend := cut.findNextTableHeader_eq
  unfold Table.headerLine at hindex hend
  simp only [removeTomlTable, hindex, hend, cut.take_front, cut.drop_block,
    stripEnd_unlines cut.lines_front, cut.stripStart_behind]
  unfold closeUp
  rcases cut.behind_head with rfl | ⟨c, rest, heq, -⟩
  · by_cases hA : dropBlank A = []
    · simp [hA, join, Text.joinWith]
    · simp [hA, join, Text.joinWith]
  · have hC : C ≠ [] := by
      rintro rfl
      cases heq
    by_cases hA : dropBlank A = []
    · rw [hA, if_pos rfl]
      rfl
    · have hpos : 0 < (join (dropBlank A)).length :=
        List.length_pos_iff.mpr fun hnil => hA (join_dropBlank_eq_nil.mp hnil)
      have hpos' : 0 < (join C).length := by
        rw [heq]
        exact Nat.succ_pos _
      rw [if_neg hA, if_neg hC, if_pos ⟨hpos, hpos'⟩, join_append _ hC, unlines_eq_join,
        join_concat_nil (by simp), join_concat_nil hA]
      simp

theorem findHeaderIndex_absent
    (hno : ∀ line ∈ Text.split '\n' content, ¬ table.headerLine <+: line) :
    findHeaderIndex content (headerLine table.header) = none := by
  rw [← join_split content]
  exact findHeaderIndex_none table.newline_notMem_headerLine table.headerLine_ne_nil
    (lines_split content) hno

/-- Without the header the block is put behind the text, whose blanks at the end are dropped. -/
theorem upsert_absent (hno : ∀ line ∈ Text.split '\n' content, ¬ table.headerLine <+: line) :
    ∃ X, Lines X ∧ dropBlank X = X ∧ (∀ line ∈ X, ¬ table.headerLine <+: line) ∧
      join X = content.trimEnd ∧
      upsertTomlTable content table.header table.block =
        (join (gap X ++ (table.blockLines ++ [[]])), .inserted) := by
  have hblock : join (table.blockLines ++ [[]]) = table.block ++ ['\n'] := by
    rw [join_concat_nil table.blockLines_ne_nil, table.block_eq]
  simp only [upsertTomlTable, findHeaderIndex_absent hno]
  by_cases htrimmed : content.trimEnd = []
  · refine ⟨[], fun _ hl => absurd hl List.not_mem_nil, rfl, fun _ hl => absurd hl List.not_mem_nil,
      htrimmed.symm, ?_⟩
    have hgap : gap [] ++ (table.blockLines ++ [[]]) = table.blockLines ++ [[]] := rfl
    rw [htrimmed, hgap, hblock]
    rfl
  · have hX := lines_split content.trimEnd
    have hjoin := join_split content.trimEnd
    have hkept := dropBlank_split_trimEnd htrimmed
    refine ⟨Text.split '\n' content.trimEnd, hX, hkept, ?_, hjoin, ?_⟩
    · obtain ⟨blanks, hcontent, -⟩ := Text.exists_trimEnd_append content
      obtain ⟨front, last, x, more, hfront, hall⟩ := split_append content.trimEnd blanks
      rw [← hcontent] at hall
      rw [hfront]
      intro l hl
      rcases List.mem_append.mp hl with hl | hl
      · exact hno l (hall ▸ List.mem_append_left _ hl)
      · rw [List.mem_singleton.mp hl]
        intro hpre
        refine hno (last ++ x) (hall ▸ ?_) (hpre.trans (List.prefix_append _ _))
        exact List.mem_append_right _ List.mem_cons_self
    · rw [← hkept, ← join_gap_append (by simp), hkept, hjoin, hblock]

/-! ## Edits of an edited file -/

/-- The cut of a file in which the block was put between two parts. -/
theorem cut_edited (hX : Lines X) (hno : ∀ line ∈ X, ¬ table.headerLine <+: line) (hC : Lines C)
    (hstart : StartsTable {} C) : Cut table.headerLine (gap X) (table.blockLines ++ [[]]) C where
  lines := by
    intro l hl
    rcases List.mem_append.mp hl with hl | hl
    · rcases mem_gap hl with hl | rfl
      · exact hX l hl
      · exact List.not_mem_nil
    · rcases List.mem_append.mp hl with hl | hl
      · rcases List.mem_append.mp hl with hl | hl
        · exact table.lines_blockLines l hl
        · rw [List.mem_singleton.mp hl]
          exact List.not_mem_nil
      · exact hC l hl
  front := by
    intro l hl
    rcases mem_gap hl with hl | rfl
    · exact hno l hl
    · exact fun hpre => table.headerLine_ne_nil (List.prefix_nil.mp hpre)
  block := by
    refine ⟨[], table.values.map entryLine ++ [[]], by simp [Table.blockLines], ?_⟩
    obtain ⟨hquiet, hend⟩ := table.quiet_entries.spec
    refine ⟨hquiet, ?_⟩
    show StartsTable (scanLines (table.values.map entryLine ++ [[]]) {}) C
    rw [hend]
    exact hstart

theorem dropBlank_gap (A : List Text) : dropBlank (gap (dropBlank A)) = dropBlank A := by
  unfold gap
  split
  · rename_i hnil
    rw [hnil]
    rfl
  · rw [dropBlank_concat_nil, dropBlank_idem]

/-- Both edits of a file in which the block was put between two parts. -/
theorem edits_edited (hX : Lines X) (hno : ∀ line ∈ X, ¬ table.headerLine <+: line) (hC : Lines C)
    (hstart : StartsTable {} C) (hkept : dropBlank X = X) :
    upsertTomlTable (join (gap X ++ (table.blockLines ++ [[]] ++ C))) table.header table.block =
        (join (gap X ++ (table.blockLines ++ [[]] ++ C)), .unchanged) ∧
      removeTomlTable (join (gap X ++ (table.blockLines ++ [[]] ++ C))) table.header =
        (join (closeUp X C), .removed) := by
  have hcut := cut_edited hX hno hC hstart
  constructor
  · rw [hcut.upsert_eq, table.dropBlank_blockLines, if_pos table.block_eq.symm]
  · have hgap := dropBlank_gap X
    rw [hkept] at hgap
    rw [hcut.remove_eq, hgap]

/-- For every file and table: a second edit has nothing to do, and taking the table out of the
edited file gives what taking it out of the file gives, or the file without its last blanks. -/
theorem upsert_then (table : Table) (content : Text) :
    upsertTomlTable (upsertTomlTable content table.header table.block).1 table.header table.block =
        ((upsertTomlTable content table.header table.block).1, .unchanged) ∧
      removeTomlTable (upsertTomlTable content table.header table.block).1 table.header =
        (if (removeTomlTable content table.header).2 = .removed then
          (removeTomlTable content table.header).1 else content.trimEnd, .removed) := by
  rcases exists_cut table.headerLine content with hno | ⟨A, block, C, rfl, cut⟩
  · obtain ⟨X, hX, hkept, hfront, hjoin, hupsert⟩ := upsert_absent hno
    have hremove : (removeTomlTable content table.header).2 = .notFound := by
      simp only [removeTomlTable, findHeaderIndex_absent hno]
    have hedits := edits_edited (C := []) hX hfront (fun _ hl => absurd hl List.not_mem_nil) trivial
      hkept
    rw [List.append_nil] at hedits
    rw [hupsert, hremove, if_neg (by decide), ← hjoin]
    refine ⟨hedits.1, hedits.2.trans ?_⟩
    unfold closeUp
    split
    · rename_i hnil
      rw [hnil]
    · rfl
  · have hX : Lines (dropBlank A) := fun l hl => cut.lines_front l (mem_of_mem_dropBlank hl)
    have hfront : ∀ line ∈ dropBlank A, ¬ table.headerLine <+: line :=
      fun l hl => cut.front l (mem_of_mem_dropBlank hl)
    have hedits := edits_edited hX hfront cut.lines_behind cut.startsTable (dropBlank_idem A)
    rw [cut.upsert_eq, cut.remove_eq, if_pos rfl]
    split
    · rename_i hsame
      rw [cut.upsert_eq, if_pos hsame]
      exact ⟨rfl, cut.remove_eq⟩
    · exact hedits

end AfyxGraph.Installer.Toml
