import AfyxGraph.Installer.TomlLines

/-! # The block of the editor

The block that the editor writes is one table, whatever its values are: the scanner reads each of
its lines from outside a value to outside a value, and only the first one is a header.
-/

namespace AfyxGraph.Installer.Toml

open AfyxGraph.Core

/-! ## What the scanner makes of one line -/

/-- From position `i` and state `s` the scanner comes to position `j` and state `s'`. -/
def Scans (line : Text) (i : Nat) (s : TomlLexState) (j : Nat) (s' : TomlLexState) : Prop :=
  ∀ fuel, line.length ≤ i + fuel → ∃ fuel', line.length ≤ j + fuel' ∧
    scanFrom line fuel i s = scanFrom line fuel' j s'

variable {line : Text} {i j k : Nat} {s s' s'' : TomlLexState} {c : Char}

theorem Scans.refl : Scans line i s i s := fun fuel h => ⟨fuel, h, rfl⟩

theorem Scans.trans (h : Scans line i s j s') (h' : Scans line j s' k s'') :
    Scans line i s k s'' := by
  intro fuel hfuel
  obtain ⟨fuel', hfuel', heq⟩ := h fuel hfuel
  obtain ⟨fuel'', hfuel'', heq'⟩ := h' fuel' hfuel'
  exact ⟨fuel'', hfuel'', heq.trans heq'⟩

theorem scanFrom_end (fuel : Nat) (s : TomlLexState) (h : line.length ≤ i) :
    scanFrom line fuel i s = s := by
  cases fuel with
  | zero => rfl
  | succ fuel => rw [scanFrom, List.drop_eq_nil_of_le h]

theorem Scans.scanTomlLine_eq (h : Scans line 0 s line.length s') : scanTomlLine line s = s' := by
  obtain ⟨fuel', -, heq⟩ := h line.length (by omega)
  exact heq.trans (scanFrom_end fuel' s' (Nat.le_refl _))

/-- A character that starts no comment and no string. -/
def isOrdinary (c : Char) : Bool := !(c = '#' || c = '"' || c = '\'')

theorem multilineAt_of_ordinary (rest : Text) (h : isOrdinary c = true) :
    multilineAt (c :: rest) = none := by
  simp only [isOrdinary, Bool.not_eq_true', Bool.or_eq_false_iff, decide_eq_false_iff_not] at h
  obtain ⟨⟨-, hbasic⟩, hliteral⟩ := h
  unfold multilineAt MultilineStringDelimiter.text
  rw [if_neg fun hpre => hbasic (List.cons_prefix_cons.mp hpre).1.symm,
    if_neg fun hpre => hliteral (List.cons_prefix_cons.mp hpre).1.symm]

theorem scans_char (before : Text) (c : Char) (rest : Text) (hline : line = before ++ c :: rest)
    (hs : s.multilineString = none) (h : isOrdinary c = true) :
    Scans line before.length s (before.length + 1) (s.bracket c) := by
  intro fuel hfuel
  cases fuel with
  | zero =>
      rw [hline, List.length_append, List.length_cons] at hfuel
      omega
  | succ fuel =>
      refine ⟨fuel, by omega, ?_⟩
      have hdrop : line.drop before.length = c :: rest := by rw [hline, List.drop_left]
      have hnone := multilineAt_of_ordinary rest h
      simp only [isOrdinary, Bool.not_eq_true', Bool.or_eq_false_iff, decide_eq_false_iff_not] at h
      obtain ⟨⟨hcomment, hbasic⟩, hliteral⟩ := h
      rw [scanFrom, hdrop]
      simp only [hs, if_neg hcomment, hnone, if_neg (not_or.mpr ⟨hbasic, hliteral⟩)]

/-- A character that leaves the scanner as it is. -/
def isPlain (c : Char) : Bool :=
  isOrdinary c && !(c = '[' || c = ']' || c = '\x7b' || c = '\x7d')

theorem bracket_plain (h : isPlain c = true) : s.bracket c = s := by
  simp only [isPlain, Bool.and_eq_true, Bool.not_eq_true', Bool.or_eq_false_iff,
    decide_eq_false_iff_not] at h
  obtain ⟨-, ⟨⟨hopen, hclose⟩, hbrace⟩, hunbrace⟩ := h
  unfold TomlLexState.bracket
  rw [if_neg hopen, if_neg fun hc => hclose hc.1, if_neg hbrace, if_neg fun hc => hunbrace hc.1]

theorem scans_plain (before mid rest : Text) (hline : line = before ++ (mid ++ rest))
    (hs : s.multilineString = none) (h : ∀ c ∈ mid, isPlain c = true) :
    Scans line before.length s (before.length + mid.length) s := by
  induction mid generalizing before with
  | nil => exact .refl
  | cons c mid ih =>
      have hc := h c List.mem_cons_self
      have hordinary : isOrdinary c = true := (Bool.and_eq_true_iff.mp hc).1
      have hfirst := scans_char before c (mid ++ rest) (by simpa using hline) hs hordinary
      rw [bracket_plain hc] at hfirst
      have hrest := ih (before ++ [c]) (by simpa using hline)
        fun d hd => h d (List.mem_cons_of_mem c hd)
      simp only [List.length_append, List.length_cons, List.length_nil] at hrest ⊢
      rw [Nat.zero_add, Nat.add_assoc, Nat.add_comm 1] at hrest
      exact hfirst.trans hrest

/-! ## Strings -/

theorem closingQuote_escaped_append (c : Char) (t : Text) :
    closingQuote '"' false (escaped c ++ t) =
      (closingQuote '"' false t).map ((escaped c).length + ·) := by
  by_cases hspecial : c = '\\' ∨ c = '"'
  · rcases hspecial with rfl | rfl
    all_goals
      cases h : closingQuote '"' false t with
      | none => simp [escaped, closingQuote, h]
      | some i => simp [escaped, closingQuote, h, Nat.add_comm 2]
  · obtain ⟨hback, hquote⟩ := not_or.mp hspecial
    have hsame : escaped c = [c] := by
      unfold escaped
      split <;> simp_all
    cases h : closingQuote '"' false t <;>
      simp [hsame, closingQuote, hback, hquote, h, Nat.add_comm]

theorem closingQuote_escaped (v rest : Text) :
    closingQuote '"' false (v.flatMap escaped ++ '"' :: rest) =
      some (v.flatMap escaped).length := by
  induction v with
  | nil => simp [closingQuote]
  | cons c v ih =>
      rw [List.flatMap_cons, List.append_assoc, closingQuote_escaped_append, ih, Option.map_some,
        List.length_append]

theorem escaped_head (c : Char) : ∃ d tail, escaped c = d :: tail ∧ d ≠ '"' := by
  unfold escaped
  split
  · exact ⟨_, _, rfl, by decide⟩
  · exact ⟨_, _, rfl, by decide⟩
  · exact ⟨_, _, rfl, by assumption⟩

theorem multilineAt_quoteString (v : Text) {rest : Text} (hrest : rest.head? ≠ some '"') :
    multilineAt (quoteString v ++ rest) = none := by
  unfold multilineAt MultilineStringDelimiter.text
  have hliteral : ¬ ['\'', '\'', '\''] <+: quoteString v ++ rest := by
    intro hpre
    exact absurd (List.cons_prefix_cons.mp hpre).1 (by decide)
  have hbasic : ¬ ['"', '"', '"'] <+: quoteString v ++ rest := by
    intro hpre
    have hpre : ['"', '"'] <+: v.flatMap escaped ++ ['"'] ++ rest :=
      (List.cons_prefix_cons.mp hpre).2
    cases v with
    | nil =>
        obtain ⟨after, hafter⟩ := (List.cons_prefix_cons.mp hpre).2
        have hrest' : '"' :: after = rest := hafter
        exact hrest (hrest' ▸ rfl)
    | cons c v =>
        obtain ⟨d, tail, heq, hd⟩ := escaped_head c
        rw [List.flatMap_cons, heq] at hpre
        exact hd (List.cons_prefix_cons.mp hpre).1.symm
  rw [if_neg hbasic, if_neg hliteral]

theorem scans_quoteString (before v rest : Text) (hline : line = before ++ (quoteString v ++ rest))
    (hs : s.multilineString = none) (hrest : rest.head? ≠ some '"') :
    Scans line before.length s (before.length + (quoteString v).length) s := by
  intro fuel hfuel
  cases fuel with
  | zero =>
      rw [hline, List.length_append, List.length_append, quoteString, List.length_cons] at hfuel
      omega
  | succ fuel =>
      have hdrop : line.drop before.length = '"' :: (v.flatMap escaped ++ '"' :: rest) := by
        rw [hline, List.drop_left]
        simp [quoteString]
      have hnone : multilineAt ('"' :: (v.flatMap escaped ++ '"' :: rest)) = none := by
        have hquoted := multilineAt_quoteString v hrest
        simpa [quoteString] using hquoted
      have hskip : skipSingleLineString line before.length '"' =
          before.length + (quoteString v).length := by
        have hbehind : line.drop (before.length + 1) = v.flatMap escaped ++ '"' :: rest := by
          rw [← List.drop_drop, hdrop]
          rfl
        rw [skipSingleLineString, hbehind, closingQuote_escaped]
        simp only [quoteString, List.length_cons, List.length_append, List.length_nil]
        omega
      refine ⟨fuel, by simp only [quoteString, List.length_cons]; omega, ?_⟩
      rw [scanFrom, hdrop]
      simp only [hs, hnone, hskip, if_neg (show ¬ '"' = '#' by decide), true_or, if_true]

theorem joinComma_cons (item : Text) {items : List Text} (h : items ≠ []) :
    joinComma (item :: items) = item ++ (',' :: ' ' :: joinComma items) := by
  cases items with
  | nil => exact absurd rfl h
  | cons other items => rfl

theorem scans_joinComma (before : Text) (items : List Text) (rest : Text)
    (hline : line = before ++ (joinComma (items.map quoteString) ++ rest))
    (hs : s.multilineString = none) (hrest : rest.head? ≠ some '"') :
    Scans line before.length s (before.length + (joinComma (items.map quoteString)).length) s := by
  induction items generalizing before with
  | nil => exact .refl
  | cons item items ih =>
      by_cases hlast : items = []
      · rw [hlast] at hline ⊢
        exact scans_quoteString before item rest hline hs hrest
      · have hmap : items.map quoteString ≠ [] := by simpa using hlast
        rw [List.map_cons, joinComma_cons _ hmap] at hline ⊢
        have hfirst : Scans line before.length s (before.length + (quoteString item).length) s :=
          scans_quoteString before item (',' :: ' ' :: joinComma (items.map quoteString) ++ rest)
            (by simpa using hline) hs (by simp)
        have hcomma : Scans line (before ++ quoteString item).length s _ s :=
          scans_plain (before ++ quoteString item) [',', ' ']
            (joinComma (items.map quoteString) ++ rest) (by simpa using hline) hs
            (List.all_eq_true.mp (by decide))
        have hitems := ih (before ++ quoteString item ++ [',', ' ']) (by simpa using hline)
        simp only [List.length_append, List.length_cons, List.length_nil] at hcomma hitems ⊢
        have hall := hfirst.trans (hcomma.trans hitems)
        convert hall using 1
        omega

/-! ## Lines that the editor writes -/

theorem isPlain_of_bare (h : isBareKeyChar c = true) : isPlain c = true := by
  have hne : ∀ d : Char, isBareKeyChar d = false → c ≠ d := by
    rintro d hd rfl
    rw [h] at hd
    cases hd
  simp [isPlain, isOrdinary, hne _ (show isBareKeyChar '#' = false by decide),
    hne _ (show isBareKeyChar '"' = false by decide),
    hne _ (show isBareKeyChar '\'' = false by decide),
    hne _ (show isBareKeyChar '[' = false by decide),
    hne _ (show isBareKeyChar ']' = false by decide),
    hne _ (show isBareKeyChar '\x7b' = false by decide),
    hne _ (show isBareKeyChar '\x7d' = false by decide)]

theorem scans_valueText (before : Text) (value : Value) (hline : line = before ++ valueText value) :
    Scans line before.length {} line.length {} := by
  have hlength : line.length = before.length + (valueText value).length := by
    rw [hline, List.length_append]
  rw [hlength]
  cases value with
  | string v =>
      exact scans_quoteString before v [] (by simpa [valueText] using hline) rfl (by simp)
  | array items =>
      have hopen : Scans line before.length {} _ { arrayDepth := 1 } :=
        scans_char before '[' (joinComma (items.map quoteString) ++ [']'])
          (by simpa [valueText] using hline) rfl rfl
      have hitems : Scans line (before ++ ['[']).length { arrayDepth := 1 } _ _ :=
        scans_joinComma (before ++ ['[']) items [']'] (by simpa [valueText] using hline) rfl
          (by simp)
      have hclose : Scans line (before ++ ['['] ++ joinComma (items.map quoteString)).length
          { arrayDepth := 1 } _ {} :=
        scans_char (before ++ ['['] ++ joinComma (items.map quoteString)) ']' []
          (by simpa [valueText] using hline) rfl rfl
      simp only [List.length_append, List.length_cons, List.length_nil] at hitems hclose
      have hall : Scans line before.length {} _ {} := hopen.trans (hitems.trans hclose)
      convert hall using 1
      simp only [valueText, List.length_append, List.length_cons, List.length_nil]
      omega

theorem scanTomlLine_entryLine {entry : Text × Value}
    (hkey : ∀ c ∈ entry.1, isBareKeyChar c = true) : scanTomlLine (entryLine entry) {} = {} := by
  refine Scans.scanTomlLine_eq ?_
  have hfront : Scans (entryLine entry) 0 {} (entry.1 ++ [' ', '=', ' ']).length {} := by
    have hplain : Scans (entryLine entry) 0 {} _ {} :=
      scans_plain [] (entry.1 ++ [' ', '=', ' ']) (valueText entry.2) (by simp [entryLine]) rfl ?_
    · simpa using hplain
    · intro c hc
      rcases List.mem_append.mp hc with hc | hc
      · exact isPlain_of_bare (hkey c hc)
      · simp only [List.mem_cons, List.not_mem_nil, or_false] at hc
        rcases hc with rfl | rfl | rfl <;> rfl
  have hline : entryLine entry = (entry.1 ++ [' ', '=', ' ']) ++ valueText entry.2 := by
    simp [entryLine]
  exact hfront.trans (scans_valueText (entry.1 ++ [' ', '=', ' ']) entry.2 hline)

/-- A line of a key and its value is no header. -/
theorem isTomlTableHeader_entryLine {entry : Text × Value}
    (hkey : ∀ c ∈ entry.1, isBareKeyChar c = true) :
    isTomlTableHeader (entryLine entry) = false := by
  have hhead : ∃ c rest, skipBlanks (entryLine entry) = c :: rest ∧ c ≠ '[' := by
    obtain ⟨key, value⟩ := entry
    cases key with
    | nil => exact ⟨'=', _, rfl, by decide⟩
    | cons c key =>
        have hc : isBareKeyChar c = true := hkey c List.mem_cons_self
        have hno : ∀ d : Char, isBareKeyChar d = false → c ≠ d := by
          rintro d hd rfl
          rw [hc] at hd
          cases hd
        refine ⟨c, _, List.dropWhile_cons_of_neg ?_, hno '[' (by decide)⟩
        simp [isInlineBlank, hno ' ' (by decide), hno '\t' (by decide)]
  obtain ⟨c, rest, heq, hc⟩ := hhead
  unfold isTomlTableHeader
  rw [heq]
  split
  · rename_i hcons
    exact absurd (List.cons.inj hcons).1 hc
  · rename_i hcons
    exact absurd (List.cons.inj hcons).1 hc
  · rfl

/-! ## The table -/

/-- A dotted header of bare keys, and at least one line of a bare key and a value. -/
structure Table where
  parts : List Text
  values : List (Text × Value)
  parts_ne : parts ≠ []
  part_ne : ∀ part ∈ parts, part ≠ []
  part_bare : ∀ part ∈ parts, ∀ c ∈ part, isBareKeyChar c = true
  values_ne : values ≠ []
  key_bare : ∀ entry ∈ values, ∀ c ∈ entry.1, isBareKeyChar c = true
  oneLine : ∀ entry ∈ values, '\n' ∉ valueText entry.2

namespace Table

def header (table : Table) : Text := Text.joinWith '.' table.parts

def headerLine (table : Table) : Text := Toml.headerLine table.header

def block (table : Table) : Text := buildTomlTable table.header table.values

def blockLines (table : Table) : List Text := table.headerLine :: table.values.map entryLine

variable (table : Table)

theorem block_eq : table.block = join table.blockLines := by
  have hne : table.values.map entryLine ≠ [] := by simpa using table.values_ne
  exact (join_cons table.headerLine hne).symm

theorem blockLines_ne_nil : table.blockLines ≠ [] := List.cons_ne_nil _ _

theorem headerLine_ne_nil : table.headerLine ≠ [] := List.cons_ne_nil _ _

theorem plain_header : ∀ c ∈ table.header, isPlain c = true := by
  have hdot : ∀ (parts : List Text), (∀ part ∈ parts, ∀ c ∈ part, isBareKeyChar c = true) →
      ∀ c ∈ Text.joinWith '.' parts, isBareKeyChar c = true ∨ c = '.' := by
    intro parts
    induction parts with
    | nil => exact fun _ _ hc => absurd hc List.not_mem_nil
    | cons part parts ih =>
        intro hbare c hc
        cases parts with
        | nil => exact .inl (hbare part List.mem_cons_self c hc)
        | cons other parts =>
            rw [Text.joinWith_cons '.' part (List.cons_ne_nil _ _)] at hc
            rcases List.mem_append.mp hc with hc | hc
            · exact .inl (hbare part List.mem_cons_self c hc)
            · rcases List.mem_cons.mp hc with hc | hc
              · exact .inr hc
              · exact ih (fun p hp => hbare p (List.mem_cons_of_mem _ hp)) c hc
  intro c hc
  rcases hdot table.parts table.part_bare c hc with hbare | rfl
  · exact isPlain_of_bare hbare
  · rfl

theorem newline_notMem_header : '\n' ∉ table.header := by
  refine Text.notMem_joinWith (by decide) fun part hpart hmem => ?_
  have hbare := table.part_bare part hpart '\n' hmem
  revert hbare
  decide

theorem newline_notMem_headerLine : '\n' ∉ table.headerLine := by
  have hheader := table.newline_notMem_header
  simp [headerLine, Toml.headerLine, hheader]

theorem lines_blockLines : Lines table.blockLines := by
  intro line hline
  rcases List.mem_cons.mp hline with rfl | hline
  · exact table.newline_notMem_headerLine
  · obtain ⟨entry, hentry, rfl⟩ := List.mem_map.mp hline
    have hkey : '\n' ∉ entry.1 := by
      intro hmem
      have hbare := table.key_bare entry hentry '\n' hmem
      revert hbare
      decide
    have hvalue := table.oneLine entry hentry
    simp [entryLine, hkey, hvalue]

theorem scans_headerLine {line r : Text} (hline : line = table.headerLine ++ r) :
    Scans line 0 {} table.headerLine.length {} := by
  have hline' : line = '[' :: (table.header ++ ']' :: r) := by
    rw [hline]
    simp [headerLine, Toml.headerLine]
  have hopen : Scans line 0 {} 1 { arrayDepth := 1 } :=
    scans_char [] '[' (table.header ++ ']' :: r) hline' rfl rfl
  have hheader : Scans line 1 { arrayDepth := 1 } _ { arrayDepth := 1 } :=
    scans_plain ['['] table.header (']' :: r) hline' rfl table.plain_header
  have hclose : Scans line ('[' :: table.header).length { arrayDepth := 1 } _ {} :=
    scans_char ('[' :: table.header) ']' r (by simpa using hline') rfl rfl
  simp only [List.length_cons, List.length_nil, Nat.zero_add, Nat.add_comm 1] at hheader hclose
  have hall : Scans line 0 {} _ {} := hopen.trans (hheader.trans hclose)
  convert hall using 1
  simp [headerLine, Toml.headerLine]

/-- What may follow a header leaves the scanner outside a value. -/
theorem scans_headerEnd {r : Text} (before : Text) (hline : line = before ++ r)
    (hend : isHeaderEnd r = true) : Scans line before.length {} line.length {} := by
  have hsplit : r = r.takeWhile isInlineBlank ++ skipBlanks r :=
    List.takeWhile_append_dropWhile.symm
  have hblanks : Scans line before.length {}
      (before.length + (r.takeWhile isInlineBlank).length) {} := by
    refine scans_plain before _ (skipBlanks r) (by rw [hline, ← hsplit]) rfl fun c hc => ?_
    have hblank := List.mem_takeWhile_imp hc
    simp only [isInlineBlank, Bool.or_eq_true, decide_eq_true_eq] at hblank
    rcases hblank with rfl | rfl <;> rfl
  refine hblanks.trans ?_
  have hline' : line = (before ++ r.takeWhile isInlineBlank) ++ skipBlanks r := by
    rw [List.append_assoc, ← hsplit, hline]
  rw [← List.length_append]
  unfold isHeaderEnd at hend
  split at hend
  · rename_i hnil
    rw [hnil, List.append_nil] at hline'
    rw [hline']
    exact .refl
  · rename_i comment hcomment
    rw [hcomment] at hline'
    intro fuel hfuel
    refine ⟨0, Nat.le_refl _, ?_⟩
    cases fuel with
    | zero => rfl
    | succ fuel =>
        have hdrop : line.drop (before ++ r.takeWhile isInlineBlank).length = '#' :: comment := by
          rw [hline', List.drop_left]
        unfold scanFrom
        rw [hdrop]
        rfl
  · rw [decide_eq_true_eq] at hend
    rw [hend] at hline'
    have hreturn : Scans line (before ++ r.takeWhile isInlineBlank).length {} _ {} :=
      scans_plain (before ++ r.takeWhile isInlineBlank) ['\r'] [] hline' rfl
        (List.all_eq_true.mp (by decide))
    have hlength : line.length = (before ++ r.takeWhile isInlineBlank).length + 1 := by
      rw [hline', List.length_append, List.length_singleton]
    rw [hlength]
    exact hreturn

theorem scanTomlLine_headerEnd {r : Text} (hend : isHeaderEnd r = true) :
    scanTomlLine r {} = {} ∧ scanTomlLine (table.headerLine ++ r) {} = {} := by
  refine ⟨(scans_headerEnd [] rfl hend).scanTomlLine_eq, ?_⟩
  have hfront := table.scans_headerLine (r := r) rfl
  exact (hfront.trans (scans_headerEnd table.headerLine rfl hend)).scanTomlLine_eq

theorem keyPart_bare {part : Text} (rest : Text) {d : Char} (hne : part ≠ [])
    (hbare : ∀ c ∈ part, isBareKeyChar c = true) (hd : isBareKeyChar d = false) :
    keyPart (part ++ d :: rest) = some (d :: rest) := by
  cases part with
  | nil => exact absurd rfl hne
  | cons c part =>
      have hc := hbare c List.mem_cons_self
      have hno : ∀ e : Char, isBareKeyChar e = false → c ≠ e := by
        rintro e he rfl
        rw [hc] at he
        cases he
      have hdrop : (part ++ d :: rest).dropWhile isBareKeyChar = d :: rest := by
        rw [List.dropWhile_append_of_pos fun e he => hbare e (List.mem_cons_of_mem c he),
          List.dropWhile_cons_of_neg (by simp [hd])]
      simp [keyPart, hc, hdrop, hno '"' (by decide), hno '\'' (by decide)]

theorem joinWith_head {parts : List Text} (hne : parts ≠ []) (hparts : ∀ part ∈ parts, part ≠ [])
    (hbare : ∀ part ∈ parts, ∀ c ∈ part, isBareKeyChar c = true) :
    ∃ c rest, Text.joinWith '.' parts = c :: rest ∧ isBareKeyChar c = true := by
  cases parts with
  | nil => exact absurd rfl hne
  | cons part parts =>
      cases part with
      | nil => exact absurd rfl (hparts [] List.mem_cons_self)
      | cons c part =>
          have hc := hbare _ List.mem_cons_self c List.mem_cons_self
          cases parts with
          | nil => exact ⟨c, part, rfl, hc⟩
          | cons other parts => exact ⟨c, _, rfl, hc⟩

theorem skipBlanks_bare {c : Char} {rest : Text} (h : isBareKeyChar c = true) :
    skipBlanks (c :: rest) = c :: rest := by
  refine List.dropWhile_cons_of_neg fun hblank => ?_
  simp only [isInlineBlank, Bool.or_eq_true, decide_eq_true_eq] at hblank
  rcases hblank with rfl | rfl
  · revert h
    decide
  · revert h
    decide

theorem dottedKey_joinWith {parts : List Text} {fuel : Nat} (hne : parts ≠ [])
    (hparts : ∀ part ∈ parts, part ≠ [])
    (hbare : ∀ part ∈ parts, ∀ c ∈ part, isBareKeyChar c = true) (hfuel : parts.length ≤ fuel)
    (tail : Text) :
    dottedKey fuel (Text.joinWith '.' parts ++ ']' :: tail) = some (']' :: tail) := by
  induction parts generalizing fuel with
  | nil => exact absurd rfl hne
  | cons part parts ih =>
      obtain ⟨fuel, rfl⟩ : ∃ n, fuel = n + 1 :=
        Nat.exists_eq_succ_of_ne_zero (by simp only [List.length_cons] at hfuel; omega)
      have hpart := hparts part List.mem_cons_self
      have hchars := hbare part List.mem_cons_self
      by_cases hlast : parts = []
      · have hkey := keyPart_bare tail hpart hchars (show isBareKeyChar ']' = false by decide)
        simp [hlast, Text.joinWith, dottedKey, hkey, skipBlanks, isInlineBlank]
      · have hkey := keyPart_bare (Text.joinWith '.' parts ++ ']' :: tail) hpart hchars
          (show isBareKeyChar '.' = false by decide)
        have hrest : ∀ p ∈ parts, p ≠ [] := fun p hp => hparts p (List.mem_cons_of_mem _ hp)
        have hbare' : ∀ p ∈ parts, ∀ c ∈ p, isBareKeyChar c = true :=
          fun p hp => hbare p (List.mem_cons_of_mem _ hp)
        have hmore : skipBlanks (Text.joinWith '.' parts ++ ']' :: tail) =
            Text.joinWith '.' parts ++ ']' :: tail := by
          obtain ⟨c, rest, heq, hc⟩ := joinWith_head hlast hrest hbare'
          rw [heq]
          exact skipBlanks_bare hc
        have hdot : skipBlanks ('.' :: (Text.joinWith '.' parts ++ ']' :: tail)) =
            '.' :: (Text.joinWith '.' parts ++ ']' :: tail) := rfl
        rw [Text.joinWith_cons '.' part hlast, List.append_assoc, List.cons_append, dottedKey, hkey]
        simp only [hdot, hmore]
        exact ih hlast hrest hbare' (by simp only [List.length_cons] at hfuel; omega)

theorem length_le_joinWith (sep : Char) (parts : List Text) :
    parts.length ≤ (Text.joinWith sep parts).length + 1 := by
  induction parts with
  | nil => exact Nat.zero_le _
  | cons part parts ih =>
      cases parts with
      | nil => simp [Text.joinWith]
      | cons other parts =>
          rw [Text.joinWith_cons sep part (List.cons_ne_nil _ _)]
          simp only [List.length_append, List.length_cons] at ih ⊢
          omega

/-- A line that starts with the header is a table header if nothing but a comment follows. -/
theorem isTomlTableHeader_append (r : Text) :
    isTomlTableHeader (table.headerLine ++ r) = isHeaderEnd r := by
  obtain ⟨c, rest, heq, hc⟩ := joinWith_head table.parts_ne table.part_ne table.part_bare
  have hline : table.headerLine ++ r = '[' :: (table.header ++ ']' :: r) := by
    simp [headerLine, Toml.headerLine]
  have hkey : dottedKey ((table.header ++ ']' :: r).length + 1) (table.header ++ ']' :: r) =
      some (']' :: r) := by
    refine dottedKey_joinWith table.parts_ne table.part_ne table.part_bare ?_ r
    have hle := length_le_joinWith '.' table.parts
    simp only [header, List.length_append]
    omega
  have hfront : skipBlanks (table.headerLine ++ r) = '[' :: (table.header ++ ']' :: r) := by
    rw [hline]
    rfl
  have hheader : table.header = c :: rest := heq
  have hne : c ≠ '[' := by
    rintro rfl
    revert hc
    decide
  have hskip : skipBlanks (table.header ++ ']' :: r) = table.header ++ ']' :: r := by
    rw [hheader]
    exact skipBlanks_bare hc
  unfold isTomlTableHeader
  rw [hfront]
  split
  · rename_i tail hcons
    rw [hheader] at hcons
    exact absurd (List.cons.inj (List.cons.inj hcons).2).1 hne
  · rename_i tail hno hcons
    obtain rfl := (List.cons.inj hcons).2
    rw [hskip, hkey]
    rfl
  · rename_i hno
    exact absurd rfl (hno _)

theorem isTomlTableHeader_headerLine : isTomlTableHeader table.headerLine = true := by
  have happend := table.isTomlTableHeader_append []
  rwa [List.append_nil] at happend

/-- Lines that the scanner reads from outside a value to outside a value. -/
def Quiet (lines : List Text) : Prop :=
  ∀ line ∈ lines, isTomlTableHeader line = false ∧ scanTomlLine line {} = {}

theorem Quiet.spec {lines : List Text} (h : Quiet lines) :
    NoHeader {} lines ∧ scanLines lines {} = {} := by
  induction lines with
  | nil => exact ⟨.nil, rfl⟩
  | cons line lines ih =>
      obtain ⟨hheader, hscan⟩ := h line List.mem_cons_self
      obtain ⟨hno, hend⟩ := ih fun l hl => h l (List.mem_cons_of_mem _ hl)
      refine ⟨.cons (by simp [headsTable, hheader]) (by rwa [hscan]), ?_⟩
      rw [scanLines_cons, hscan, hend]

theorem quiet_entries : Quiet (table.values.map entryLine ++ [[]]) := by
  intro line hline
  rcases List.mem_append.mp hline with hline | hline
  · obtain ⟨entry, hentry, rfl⟩ := List.mem_map.mp hline
    have hkey := table.key_bare entry hentry
    exact ⟨isTomlTableHeader_entryLine hkey, scanTomlLine_entryLine hkey⟩
  · rw [List.mem_singleton.mp hline]
    exact ⟨rfl, rfl⟩

theorem dropBlank_blockLines : dropBlank (table.blockLines ++ [[]]) = table.blockLines := by
  obtain ⟨front, entry, hvalues⟩ : ∃ front entry, table.values = front ++ [entry] :=
    ⟨_, _, (List.dropLast_append_getLast table.values_ne).symm⟩
  have hlines :
      table.blockLines = table.headerLine :: front.map entryLine ++ [entryLine entry] := by
    simp [blockLines, hvalues]
  rw [dropBlank_concat_nil, hlines]
  exact dropBlank_concat_of_ne _ (by simp [entryLine])

end Table

end AfyxGraph.Installer.Toml
