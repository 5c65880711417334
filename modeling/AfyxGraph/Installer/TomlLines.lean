import AfyxGraph.Installer.Toml

/-! # The file as lines

The editor works on positions of the text. Here the text is its lines, none of them with a newline
in it, and what the editor finds and cuts are lists of lines.
-/

namespace AfyxGraph.Installer.Toml

open AfyxGraph.Core

/-! ## Lines and text -/

/-- Lines with a newline behind each. -/
def unlines (lines : List Text) : Text := lines.flatMap (· ++ ['\n'])

def join (lines : List Text) : Text := Text.joinWith '\n' lines

def Lines (lines : List Text) : Prop := ∀ line ∈ lines, '\n' ∉ line

variable {A B C lines : List Text} {line h t : Text}

@[simp] theorem unlines_nil : unlines [] = [] := rfl

@[simp] theorem unlines_cons (line : Text) (lines : List Text) :
    unlines (line :: lines) = line ++ '\n' :: unlines lines := by
  simp [unlines]

@[simp] theorem join_singleton (line : Text) : join [line] = line := rfl

theorem join_cons (line : Text) (h : B ≠ []) : join (line :: B) = line ++ '\n' :: join B :=
  Text.joinWith_cons '\n' line h

theorem join_append (A : List Text) (h : B ≠ []) : join (A ++ B) = unlines A ++ join B := by
  induction A with
  | nil => rfl
  | cons line A ih =>
      rw [List.cons_append, join_cons _ (List.append_ne_nil_of_right_ne_nil A h), ih, unlines_cons]
      simp

theorem join_concat_nil (h : A ≠ []) : join (A ++ [[]]) = join A ++ ['\n'] := by
  induction A with
  | nil => exact absurd rfl h
  | cons line A ih =>
      cases A with
      | nil => rfl
      | cons other A =>
          have hne : other :: A ≠ [] := List.cons_ne_nil other A
          rw [List.cons_append, join_cons _ (by simp), ih hne, join_cons _ hne]
          simp

theorem unlines_eq_join (A : List Text) : unlines A = join (A ++ [[]]) := by
  rw [join_append A (List.cons_ne_nil _ _), join_singleton, List.append_nil]

theorem split_join (hne : lines ≠ []) (h : Lines lines) : Text.split '\n' (join lines) = lines :=
  Text.split_joinWith hne h

theorem join_split (t : Text) : join (Text.split '\n' t) = t := Text.joinWith_split '\n' t

theorem lines_split (t : Text) : Lines (Text.split '\n' t) := fun _ h => Text.notMem_of_mem_split h

/-- More text behind leaves all lines but the last one, which it makes longer. -/
theorem split_append (t u : Text) :
    ∃ front last x more, Text.split '\n' t = front ++ [last] ∧
      Text.split '\n' (t ++ u) = front ++ (last ++ x) :: more := by
  induction t with
  | nil =>
      obtain ⟨x, more, hu⟩ := List.exists_cons_of_ne_nil (Text.split_ne_nil '\n' u)
      exact ⟨[], [], x, more, rfl, hu⟩
  | cons c t ih =>
      obtain ⟨front, last, x, more, ht, hu⟩ := ih
      by_cases hc : c = '\n'
      · refine ⟨[] :: front, last, x, more, ?_, ?_⟩
        · simp [Text.split, hc, ht]
        · simp [Text.split, hc, hu]
      · cases front with
        | nil =>
            refine ⟨[], c :: last, x, more, ?_, ?_⟩
            · simp [Text.split, hc, ht]
            · simp [Text.split, hc, hu]
        | cons line front =>
            refine ⟨(c :: line) :: front, last, x, more, ?_, ?_⟩
            · simp [Text.split, hc, ht]
            · simp [Text.split, hc, hu]

/-! ## Blank lines at the end -/

def isEmptyLine (line : Text) : Bool := line = []

def dropBlank (lines : List Text) : List Text := lines.rdropWhile isEmptyLine

theorem dropBlank_concat_nil (A : List Text) : dropBlank (A ++ [[]]) = dropBlank A :=
  List.rdropWhile_concat_pos isEmptyLine A [] rfl

theorem dropBlank_concat_of_ne (A : List Text) (h : line ≠ []) :
    dropBlank (A ++ [line]) = A ++ [line] :=
  List.rdropWhile_concat_neg isEmptyLine A line (by simpa [isEmptyLine] using h)

theorem exists_dropBlank (A : List Text) :
    ∃ n, A = dropBlank A ++ List.replicate n [] ∧
      (dropBlank A = [] ∨ ∃ front last, dropBlank A = front ++ [last] ∧ last ≠ []) := by
  induction A using List.reverseRecOn with
  | nil => exact ⟨0, rfl, .inl rfl⟩
  | append_singleton A line ih =>
      by_cases hline : line = []
      · obtain ⟨n, hA, hlast⟩ := ih
        rw [hline, dropBlank_concat_nil]
        refine ⟨n + 1, ?_, hlast⟩
        rw [List.replicate_succ', ← List.append_assoc, ← hA]
      · rw [dropBlank_concat_of_ne A hline]
        exact ⟨0, by simp, .inr ⟨A, line, rfl, hline⟩⟩

theorem dropBlank_idem (A : List Text) : dropBlank (dropBlank A) = dropBlank A := by
  obtain ⟨-, -, hnil | ⟨front, last, heq, hlast⟩⟩ := exists_dropBlank A
  · rw [hnil]
    rfl
  · rw [heq, dropBlank_concat_of_ne front hlast]

theorem mem_of_mem_dropBlank (h : line ∈ dropBlank A) : line ∈ A := by
  obtain ⟨n, hA, -⟩ := exists_dropBlank A
  rw [hA]
  exact List.mem_append_left _ h

theorem stripEnd_append_newline (t : Text) : stripEnd (t ++ ['\n']) = stripEnd t :=
  List.rdropWhile_concat_pos isNewline t '\n' rfl

theorem stripEnd_join (hA : Lines A) : stripEnd (join A) = join (dropBlank A) := by
  induction A using List.reverseRecOn with
  | nil => rfl
  | append_singleton A line ih =>
      have hA' : Lines A := fun l hl => hA l (List.mem_append_left _ hl)
      by_cases hline : line = []
      · rw [hline, dropBlank_concat_nil]
        by_cases hne : A = []
        · rw [hne]
          rfl
        · rw [join_concat_nil hne, stripEnd_append_newline, ih hA']
      · rw [dropBlank_concat_of_ne A hline]
        obtain ⟨front, c, rfl⟩ : ∃ front c, line = front ++ [c] :=
          ⟨_, _, (List.dropLast_append_getLast hline).symm⟩
        have hc : c ≠ '\n' := by
          rintro rfl
          exact hA (front ++ ['\n']) (by simp) (by simp)
        rw [join_append A (List.cons_ne_nil _ _), join_singleton, ← List.append_assoc]
        exact List.rdropWhile_concat_neg isNewline _ c (by simpa [isNewline] using hc)

theorem stripEnd_unlines (hA : Lines A) : stripEnd (unlines A) = join (dropBlank A) := by
  have hA' : Lines (A ++ [[]]) := by
    intro l hl
    rcases List.mem_append.mp hl with hl | hl
    · exact hA l hl
    · rw [List.mem_singleton.mp hl]
      exact List.not_mem_nil
  rw [unlines_eq_join, stripEnd_join hA', dropBlank_concat_nil]

theorem join_dropBlank_eq_nil : join (dropBlank A) = [] ↔ dropBlank A = [] := by
  constructor
  · intro h
    obtain ⟨-, -, hnil | ⟨front, last, heq, hlast⟩⟩ := exists_dropBlank A
    · exact hnil
    · rw [heq, join_append front (List.cons_ne_nil _ _)] at h
      exact absurd (List.append_eq_nil_iff.mp h).2 hlast
  · intro h
    rw [h]
    rfl

theorem stripEnd_trimEnd (t : Text) : stripEnd t.trimEnd = t.trimEnd := by
  by_cases hnil : t.trimEnd = []
  · rw [hnil]
    rfl
  · obtain ⟨front, c, heq⟩ : ∃ front c, t.trimEnd = front ++ [c] :=
      ⟨_, _, (List.dropLast_append_getLast hnil).symm⟩
    have hc : Text.isBlank c = false := by
      cases hblank : Text.isBlank c with
      | false => rfl
      | true =>
          have htwice := Text.trimEnd_trimEnd t
          rw [heq, Text.trimEnd_append_blanks front (by simpa using hblank)] at htwice
          have hle : (Text.trimEnd front).length ≤ front.length :=
            (List.rdropWhile_prefix Text.isBlank front).length_le
          rw [htwice, List.length_append, List.length_singleton] at hle
          omega
    have hne : ¬ isNewline c = true := by
      intro hnewline
      rw [isNewline, decide_eq_true_eq] at hnewline
      rw [hnewline] at hc
      cases hc
    rw [heq]
    exact List.rdropWhile_concat_neg isNewline front c hne

/-- A text without blanks at the end has no empty line there. -/
theorem dropBlank_split_trimEnd (h : t.trimEnd ≠ []) :
    dropBlank (Text.split '\n' t.trimEnd) = Text.split '\n' t.trimEnd := by
  have hlines := lines_split t.trimEnd
  have hdropped : join (dropBlank (Text.split '\n' t.trimEnd)) = t.trimEnd := by
    rw [← stripEnd_join hlines, join_split, stripEnd_trimEnd]
  have hne : dropBlank (Text.split '\n' t.trimEnd) ≠ [] := fun hnil =>
    h (hdropped.symm.trans (join_dropBlank_eq_nil.mpr hnil))
  have hsplit := split_join hne fun l hl => hlines l (mem_of_mem_dropBlank hl)
  rw [hdropped] at hsplit
  exact hsplit.symm

/-! ## Where the header is found -/

/-- A text without a newline stands at the front of the first line. -/
theorem prefix_line (hh : '\n' ∉ h) (rest : Text) : h <+: line ++ '\n' :: rest ↔ h <+: line := by
  constructor
  · intro hpre
    rcases Nat.lt_or_ge line.length h.length with hlt | hle
    · have hline : line ++ ['\n'] <+: h := by
        refine List.prefix_of_prefix_length_le ?_ hpre (by simp; omega)
        exact ⟨rest, by simp⟩
      exact absurd (hline.subset (by simp)) hh
    · exact List.prefix_of_prefix_length_le hpre (List.prefix_append _ _) hle
  · exact fun hpre => hpre.trans (List.prefix_append _ _)

theorem occursAt_newline_line (hline : '\n' ∉ line) {rest : Text} {i : Nat} :
    OccursAt ('\n' :: h) (line ++ '\n' :: rest) i ↔
      (i = line.length ∧ h <+: rest) ∨
        ∃ j, i = line.length + 1 + j ∧ OccursAt ('\n' :: h) rest j := by
  rcases Nat.lt_trichotomy i line.length with hlt | rfl | hgt
  · have hno : ¬ OccursAt ('\n' :: h) (line ++ '\n' :: rest) i := by
      intro hocc
      obtain ⟨after, hafter⟩ := hocc
      have hget : (line ++ '\n' :: rest)[i]? = some '\n' := by
        rw [← List.head?_drop, ← hafter]
        rfl
      rw [List.getElem?_append_left hlt] at hget
      exact hline (List.mem_of_getElem? hget)
    refine iff_of_false hno ?_
    rintro (⟨rfl, -⟩ | ⟨j, rfl, -⟩)
    · exact absurd hlt (Nat.lt_irrefl _)
    · omega
  · rw [OccursAt, List.drop_left, List.cons_prefix_cons]
    constructor
    · exact fun hocc => .inl ⟨rfl, hocc.2⟩
    · rintro (⟨-, hocc⟩ | ⟨j, hj, -⟩)
      · exact ⟨rfl, hocc⟩
      · omega
  · obtain ⟨j, rfl⟩ := Nat.exists_eq_add_of_le (Nat.succ_le_of_lt hgt)
    have hshift : OccursAt ('\n' :: h) (line ++ '\n' :: rest) (line.length + 1 + j) ↔
        OccursAt ('\n' :: h) rest j := by
      have hsplit : line ++ '\n' :: rest = (line ++ ['\n']) ++ rest := by simp
      have hlen : line.length + 1 = (line ++ ['\n']).length := by simp
      rw [hsplit, hlen, occursAt_append_right]
    rw [hshift]
    constructor
    · exact fun hocc => .inr ⟨j, rfl, hocc⟩
    · rintro (⟨heq, -⟩ | ⟨k, heq, hocc⟩)
      · omega
      · obtain rfl : j = k := by omega
        exact hocc

/-- Past a line that does not start with it, the header is looked for in the lines behind. -/
theorem findHeaderIndex_line (hh : '\n' ∉ h) (hline : '\n' ∉ line) (hno : ¬ h <+: line)
    (rest : Text) :
    findHeaderIndex (line ++ '\n' :: rest) h =
      (findHeaderIndex rest h).map (line.length + 1 + ·) := by
  have hpart : '\n' :: h ≠ [] := List.cons_ne_nil _ _
  rw [findHeaderIndex, if_neg (fun hpre => hno ((prefix_line hh rest).mp hpre)), findHeaderIndex]
  by_cases hrest : h <+: rest
  · have hfirst : indexOf (line ++ '\n' :: rest) ('\n' :: h) = some line.length := by
      rw [indexOf_eq_some_iff_first hpart]
      refine ⟨(occursAt_newline_line hline).mpr (.inl ⟨rfl, hrest⟩), fun j hj hocc => ?_⟩
      rcases (occursAt_newline_line hline).mp hocc with ⟨rfl, -⟩ | ⟨k, rfl, -⟩
      · exact Nat.lt_irrefl _ hj
      · omega
    rw [if_pos hrest, hfirst]
    rfl
  · rw [if_neg hrest]
    cases hindex : indexOf rest ('\n' :: h) with
    | none =>
        rw [indexOf_eq_none_iff_forall hpart] at hindex
        have hnone : indexOf (line ++ '\n' :: rest) ('\n' :: h) = none := by
          rw [indexOf_eq_none_iff_forall hpart]
          intro i hocc
          rcases (occursAt_newline_line hline).mp hocc with ⟨-, hpre⟩ | ⟨j, -, hocc⟩
          · exact hrest hpre
          · exact hindex j hocc
        rw [hnone]
        rfl
    | some j =>
        rw [indexOf_eq_some_iff_first hpart] at hindex
        have hsome : indexOf (line ++ '\n' :: rest) ('\n' :: h) = some (line.length + 1 + j) := by
          rw [indexOf_eq_some_iff_first hpart]
          refine ⟨(occursAt_newline_line hline).mpr (.inr ⟨j, rfl, hindex.1⟩), fun i hi hocc => ?_⟩
          rcases (occursAt_newline_line hline).mp hocc with ⟨-, hpre⟩ | ⟨k, rfl, hlater⟩
          · exact hrest hpre
          · exact hindex.2 k (by omega) hlater
        rw [hsome]
        rfl

theorem findHeaderIndex_last (hline : '\n' ∉ line) (hno : ¬ h <+: line) :
    findHeaderIndex line h = none := by
  rw [findHeaderIndex, if_neg hno, Option.map_eq_none_iff,
    indexOf_eq_none_iff_forall (List.cons_ne_nil _ _)]
  intro i hocc
  have hmem : '\n' ∈ line.drop i := hocc.subset List.mem_cons_self
  exact hline (List.mem_of_mem_drop hmem)

theorem findHeaderIndex_none (hh : '\n' ∉ h) (hne : h ≠ []) (hlines : Lines lines)
    (hno : ∀ line ∈ lines, ¬ h <+: line) : findHeaderIndex (join lines) h = none := by
  induction lines with
  | nil => exact findHeaderIndex_last List.not_mem_nil fun hpre => hne (List.prefix_nil.mp hpre)
  | cons line lines ih =>
      have hline := hlines line List.mem_cons_self
      have hfirst := hno line List.mem_cons_self
      by_cases hlast : lines = []
      · rw [hlast]
        exact findHeaderIndex_last hline hfirst
      · rw [join_cons line hlast, findHeaderIndex_line hh hline hfirst,
          ih (fun l hl => hlines l (List.mem_cons_of_mem _ hl))
            fun l hl => hno l (List.mem_cons_of_mem _ hl)]
        rfl

theorem findHeaderIndex_some (hh : '\n' ∉ h) (hA : Lines A)
    (hno : ∀ line ∈ A, ¬ h <+: line) (ht : h <+: t) :
    findHeaderIndex (unlines A ++ t) h = some (unlines A).length := by
  induction A with
  | nil => rw [unlines_nil, List.nil_append, findHeaderIndex, if_pos ht]; rfl
  | cons line A ih =>
      rw [unlines_cons, List.append_assoc, List.cons_append,
        findHeaderIndex_line hh (hA line List.mem_cons_self) (hno line List.mem_cons_self),
        ih (fun l hl => hA l (List.mem_cons_of_mem _ hl))
          fun l hl => hno l (List.mem_cons_of_mem _ hl)]
      simp only [Option.map_some, List.length_append, List.length_cons]
      congr 1
      omega

/-! ## Where its table ends -/

def scanLines (lines : List Text) (state : TomlLexState) : TomlLexState :=
  lines.foldl (fun state line => scanTomlLine line state) state

@[simp] theorem scanLines_nil (state : TomlLexState) : scanLines [] state = state := rfl

@[simp] theorem scanLines_cons (line : Text) (lines : List Text) (state : TomlLexState) :
    scanLines (line :: lines) state = scanLines lines (scanTomlLine line state) := rfl

theorem scanLines_append (A B : List Text) (state : TomlLexState) :
    scanLines (A ++ B) state = scanLines B (scanLines A state) := List.foldl_append

/-- The line is a table header where the scanner stands. -/
def headsTable (state : TomlLexState) (line : Text) : Bool := state.isTop && isTomlTableHeader line

/-- No line of them heads a table. -/
inductive NoHeader : TomlLexState → List Text → Prop
  | nil {state} : NoHeader state []
  | cons {state line lines} (hline : headsTable state line = false)
      (hrest : NoHeader (scanTomlLine line state) lines) : NoHeader state (line :: lines)

/-- There is no line, or the first one heads a table. -/
def StartsTable (state : TomlLexState) : List Text → Prop
  | [] => True
  | line :: _ => headsTable state line = true

theorem exists_noHeader (state : TomlLexState) (lines : List Text) :
    ∃ body rest, lines = body ++ rest ∧ NoHeader state body ∧
      StartsTable (scanLines body state) rest := by
  induction lines generalizing state with
  | nil => exact ⟨[], [], rfl, .nil, trivial⟩
  | cons line lines ih =>
      cases hline : headsTable state line with
      | true => exact ⟨[], line :: lines, rfl, .nil, hline⟩
      | false =>
          obtain ⟨body, rest, rfl, hbody, hrest⟩ := ih (scanTomlLine line state)
          exact ⟨line :: body, rest, rfl, .cons hline hbody, hrest⟩

theorem nextTableHeader_noHeader {state : TomlLexState} {start : Nat} (hB : NoHeader state B)
    (hC : StartsTable (scanLines B state) C) :
    nextTableHeader start false state (B ++ C) =
      if C = [] then none else some (start + (unlines B).length) := by
  induction hB generalizing start with
  | nil =>
      cases C with
      | nil => rfl
      | cons line C =>
          have hline : headsTable _ line = true := hC
          simp only [headsTable, Bool.and_eq_true, scanLines_nil] at hline
          rw [List.nil_append, nextTableHeader]
          simp [hline]
  | @cons state line lines hline hrest ih =>
      have hno : (!false && state.isTop && isTomlTableHeader line) = false := by
        simpa [headsTable] using hline
      rw [List.cons_append, nextTableHeader, hno, if_neg (by simp), ih hC]
      simp only [unlines_cons, List.length_append, List.length_cons]
      split
      · rfl
      · congr 1
        omega

end AfyxGraph.Installer.Toml
