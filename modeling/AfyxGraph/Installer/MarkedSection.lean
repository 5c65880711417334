import AfyxGraph.Core.Occurrences
import AfyxGraph.Core.TextParts

/-! # The marked section of an instructions file

The installer keeps one section of a file that the user edits as well. The section is found by the
first start marker and the first end marker of the file, each looked for on its own.
-/

namespace AfyxGraph.Installer

open AfyxGraph.Core

/-! ## The edit and its inverse -/

inductive WriteAction where
  | created | updated | appended | unchanged
  deriving DecidableEq, Repr

inductive RemoveAction where
  | removed | notFound | kept
  deriving DecidableEq, Repr

/-- The positions of the two markers, when the end marker stands behind the start marker. -/
def findSection (content startMarker endMarker : Text) : Option (Nat × Nat) :=
  match indexOf content startMarker, indexOf content endMarker with
  | some startIdx, some endIdx => if startIdx < endIdx then some (startIdx, endIdx) else none
  | _, _ => none

/-- The text that `replaceOrAppendMarkedSection` appends to, with the separating blank line. -/
def appendBase (content : Text) : Text :=
  let trimmed := content.trimEnd
  trimmed ++ if 0 < trimmed.length then ['\n', '\n'] else []

/-- A file is its text; there is none when it does not exist. -/
def replaceOrAppendMarkedSection (file : Option Text) (body startMarker endMarker : Text) :
    WriteAction × Option Text :=
  match file with
  | none => (.created, some (body ++ ['\n']))
  | some content =>
      match findSection content startMarker endMarker with
      | some (startIdx, endIdx) =>
          let existingBlock := (content.take (endIdx + endMarker.length)).drop startIdx
          if existingBlock = body then (.unchanged, some content)
          else
            let before := content.take startIdx
            let after := content.drop (endIdx + endMarker.length)
            (.updated, some (before ++ (body ++ after)))
      | none => (.appended, some (appendBase content ++ (body ++ ['\n'])))

def removeMarkedSection (file : Option Text) (startMarker endMarker : Text) :
    RemoveAction × Option Text :=
  match file with
  | none => (.kept, none)
  | some content =>
      match findSection content startMarker endMarker with
      | none => (.notFound, some content)
      | some (startIdx, endIdx) =>
          let before := Text.trimEnd (content.take startIdx)
          let after := Text.trimStart (content.drop (endIdx + endMarker.length))
          let joined := before ++
            ((if 0 < before.length ∧ 0 < after.length then ['\n', '\n'] else []) ++ after)
          if joined.trim = [] then (.removed, none) else (.removed, some (joined.trim ++ ['\n']))

/-! ## Markers -/

/-- Two markers that end in a visible character and never overlap, wherever they stand. -/
structure SectionMarkers where
  startMarker : Text
  endMarker : Text
  visible : ∀ a ∈ [startMarker, endMarker], a.getLast?.any (fun c => !Text.isBlank c) = true
  clear : ∀ a ∈ [startMarker, endMarker], ∀ b ∈ [startMarker, endMarker], Clear a b
  differ : ¬ startMarker <+: endMarker ∧ ¬ endMarker <+: startMarker

/-- `AFYX_GRAPH_SECTION_START` and `AFYX_GRAPH_SECTION_END` -/
def afyxGraphMarkers : SectionMarkers where
  startMarker := "<!-- AFYX_GRAPH_START -->".toList
  endMarker := "<!-- AFYX_GRAPH_END -->".toList
  visible := by decide
  clear := by decide
  differ := by decide

def occurrences (text part : Text) : List Nat :=
  (List.range (text.length + 1)).filter fun i => OccursAt part text i

/-- A body that starts with the start marker, ends with the end marker and has each once. -/
structure IsSection (markers : SectionMarkers) (body : Text) : Prop where
  starts : markers.startMarker <+: body
  ends : markers.endMarker <:+ body
  startOnce : (occurrences body markers.startMarker).length = 1
  endOnce : (occurrences body markers.endMarker).length = 1

/-- What is not in the section stays: in place, or without the blanks at its end. -/
inductive KeepsOutside (markers : SectionMarkers) (body : Text) : Text → Text → Prop
  | replaced {before block after : Text} (hstarts : markers.startMarker <+: block)
      (hends : markers.endMarker <:+ block) :
      KeepsOutside markers body (before ++ (block ++ after)) (before ++ (body ++ after))
  | appended {kept blanks sep : Text} (hblanks : ∀ c ∈ blanks, Text.isBlank c = true)
      (hsep : ∀ c ∈ sep, Text.isBlank c = true) :
      KeepsOutside markers body (kept ++ blanks) (kept ++ (sep ++ (body ++ ['\n'])))

/-! ## Where the markers are found -/

section Markers

variable {markers : SectionMarkers} {body a t blanks : Text} {i : Nat}

theorem visible_ne_nil (h : a.getLast?.any (fun c => !Text.isBlank c) = true) : a ≠ [] := by
  rintro rfl
  cases h

/-- A marker never reaches into the blanks at the end. -/
theorem occursAt_append_blanks (h : a.getLast?.any (fun c => !Text.isBlank c) = true)
    (hblanks : ∀ c ∈ blanks, Text.isBlank c = true) :
    OccursAt a (t ++ blanks) i ↔ OccursAt a t i := by
  constructor
  · intro hocc
    apply (occursAt_append_left ?_).mp hocc
    by_contra hlt
    have hne := visible_ne_nil h
    have hpos := List.length_pos_iff.mpr hne
    obtain ⟨before, after, htext, rfl⟩ := hocc.split (by
      have hle := hocc.le_length hne
      omega)
    have hlast : (t ++ blanks)[before.length + (a.length - 1)]? = a.getLast? := by
      rw [htext, List.getElem?_append_right (Nat.le_add_right _ _), Nat.add_sub_cancel_left,
        List.getElem?_append_left (by omega), List.getLast?_eq_getElem?]
    rw [List.getElem?_append_right (by omega)] at hlast
    rw [← hlast, Option.any_eq_true] at h
    obtain ⟨c, hc, hvisible⟩ := h
    rw [hblanks c (List.mem_of_getElem? hc)] at hvisible
    cases hvisible
  · exact fun hocc => hocc.append (visible_ne_nil h) blanks

theorem exists_appendBase (content : Text) :
    ∃ sep, appendBase content = content.trimEnd ++ sep ∧ ∀ c ∈ sep, Text.isBlank c = true := by
  refine ⟨_, rfl, fun c hc => ?_⟩
  split at hc
  · have hnewline : c = '\n' := by simpa using hc
    subst hnewline
    decide
  · exact absurd hc List.not_mem_nil

theorem indexOf_appendBase (h : a.getLast?.any (fun c => !Text.isBlank c) = true)
    (content : Text) : indexOf (appendBase content) a = indexOf content a := by
  obtain ⟨sep, hbase, hsep⟩ := exists_appendBase content
  obtain ⟨blanks, hcontent, hblanks⟩ := Text.exists_trimEnd_append content
  apply indexOf_congr (visible_ne_nil h)
  intro i
  conv_rhs => rw [hcontent]
  rw [hbase, occursAt_append_blanks h hsep, occursAt_append_blanks h hblanks]

theorem eq_of_once {i j : Nat} (h : (occurrences t a).length = 1) (ha : a ≠ [])
    (hi : OccursAt a t i) (hj : OccursAt a t j) : i = j := by
  obtain ⟨k, hk⟩ := List.length_eq_one_iff.mp h
  have honly : ∀ l, OccursAt a t l → l = k := by
    intro l hl
    have hle := hl.le_length ha
    have hmem : l ∈ occurrences t a := by
      rw [occurrences, List.mem_filter, List.mem_range, decide_eq_true_eq]
      exact ⟨by omega, hl⟩
    rw [hk] at hmem
    exact List.mem_singleton.mp hmem
  rw [honly i hi, honly j hj]

namespace SectionMarkers

theorem start_visible (markers : SectionMarkers) :
    markers.startMarker.getLast?.any (fun c => !Text.isBlank c) = true :=
  markers.visible _ (by simp)

theorem end_visible (markers : SectionMarkers) :
    markers.endMarker.getLast?.any (fun c => !Text.isBlank c) = true :=
  markers.visible _ (by simp)

end SectionMarkers

namespace IsSection

theorem start_occurs (h : IsSection markers body) (after : Text) :
    OccursAt markers.startMarker (body ++ after) 0 := h.starts.trans (List.prefix_append _ _)

theorem end_occurs (h : IsSection markers body) (after : Text) :
    OccursAt markers.endMarker (body ++ after) (body.length - markers.endMarker.length) := by
  obtain ⟨front, hbody⟩ := h.ends
  rw [← hbody, List.length_append, Nat.add_sub_cancel_right, List.append_assoc]
  exact occursAt_length markers.endMarker after front

theorem end_behind (h : IsSection markers body) :
    0 < body.length - markers.endMarker.length := by
  obtain ⟨front, rfl⟩ := h.ends
  rw [List.length_append, Nat.add_sub_cancel_right]
  cases front with
  | nil => exact absurd h.starts markers.differ.1
  | cons c front => exact Nat.succ_pos _

theorem indexOf_start (h : IsSection markers body) (before after : Text) :
    indexOf (before ++ (body ++ after)) markers.startMarker =
      some ((indexOf before markers.startMarker).getD before.length) := by
  apply indexOf_append (visible_ne_nil markers.start_visible) (h.start_occurs after)
  · exact fun j hj => absurd hj (Nat.not_lt_zero j)
  · intro j hj hocc
    have hstart : OccursAt markers.startMarker (before ++ (body ++ after)) before.length :=
      (occursAt_append_right before).mpr (h.start_occurs after)
    exact (markers.clear _ (by simp) _ (by simp)).apart hocc hstart hj

theorem indexOf_end (h : IsSection markers body) (before after : Text) :
    indexOf (before ++ (body ++ after)) markers.endMarker =
      some ((indexOf before markers.endMarker).getD
        (before.length + (body.length - markers.endMarker.length))) := by
  have hne := visible_ne_nil markers.end_visible
  apply indexOf_append hne (h.end_occurs after)
  · intro j hj hocc
    have hinside : OccursAt markers.endMarker body j :=
      (occursAt_append_left (by omega)).mp hocc
    have hown : OccursAt markers.endMarker body (body.length - markers.endMarker.length) := by
      simpa using h.end_occurs []
    exact absurd (eq_of_once h.endOnce hne hinside hown) (by omega)
  · intro j hj hocc
    have hstart : OccursAt markers.startMarker (before ++ (body ++ after)) before.length :=
      (occursAt_append_right before).mpr (h.start_occurs after)
    exact (markers.clear _ (by simp) _ (by simp)).apart hocc hstart hj

end IsSection

/-! ## A second edit and the removal -/

theorem findSection_eq_some {content : Text} {j : Nat}
    (hi : indexOf content markers.startMarker = some i)
    (hj : indexOf content markers.endMarker = some j) :
    findSection content markers.startMarker markers.endMarker =
      if i < j then some (i, j) else none := by
  rw [findSection, hi, hj]

theorem IsSection.findSection_body (h : IsSection markers body) {before : Text} (after : Text)
    (hstart : indexOf before markers.startMarker = none)
    (hend : indexOf before markers.endMarker = none) :
    findSection (before ++ (body ++ after)) markers.startMarker markers.endMarker =
      some (before.length, before.length + (body.length - markers.endMarker.length)) := by
  have hi := h.indexOf_start before after
  have hj := h.indexOf_end before after
  rw [hstart, Option.getD_none] at hi
  rw [hend, Option.getD_none] at hj
  rw [findSection_eq_some hi hj, if_pos (Nat.lt_add_of_pos_right h.end_behind)]

theorem IsSection.end_length (h : IsSection markers body) :
    body.length - markers.endMarker.length + markers.endMarker.length = body.length :=
  Nat.sub_add_cancel h.ends.length_le

theorem IsSection.replace_body (h : IsSection markers body) {before : Text} (after : Text)
    (hstart : indexOf before markers.startMarker = none)
    (hend : indexOf before markers.endMarker = none) :
    replaceOrAppendMarkedSection (some (before ++ (body ++ after))) body markers.startMarker
      markers.endMarker = (.unchanged, some (before ++ (body ++ after))) := by
  have hblock : ((before ++ (body ++ after)).take (before.length +
      (body.length - markers.endMarker.length) + markers.endMarker.length)).drop before.length =
        body := by
    rw [Nat.add_assoc, h.end_length, List.take_length_add_append, List.drop_left,
      List.take_left]
  simp only [replaceOrAppendMarkedSection, h.findSection_body after hstart hend, if_pos hblock]

theorem IsSection.remove_body (h : IsSection markers body) {before : Text} (after : Text)
    (hstart : indexOf before markers.startMarker = none)
    (hend : indexOf before markers.endMarker = none) (hafter : ∀ c ∈ after, Text.isBlank c = true) :
    ((removeMarkedSection (some (before ++ (body ++ after))) markers.startMarker
      markers.endMarker).2.getD []).trim = before.trim := by
  have hrest : (before ++ (body ++ after)).drop (before.length +
      (body.length - markers.endMarker.length) + markers.endMarker.length) = after := by
    rw [Nat.add_assoc, h.end_length, ← List.append_assoc, List.drop_left' (by simp)]
  have hblank : Text.trimStart after = [] := List.dropWhile_eq_nil_iff.mpr hafter
  have hnewline : ∀ c ∈ ['\n'], Text.isBlank c = true := List.forall_mem_singleton.mpr rfl
  simp only [removeMarkedSection, h.findSection_body after hstart hend, hrest, hblank,
    List.take_left, List.length_nil, Nat.lt_irrefl, and_false, if_false, List.append_nil,
    Text.trim_trimEnd]
  split
  · rename_i hempty
    rw [hempty]
    rfl
  · rw [Option.getD_some, Text.trim_append_blanks _ hnewline, Text.trim_trim]

/-! ## The laws -/

/-- What one edit promises: a second one has nothing to do, the rest of the file stays, and
without markers before, removing the section undoes it. -/
structure EditLaws (markers : SectionMarkers) (body content : Text) : Prop where
  idempotent : (replaceOrAppendMarkedSection (replaceOrAppendMarkedSection (some content) body
    markers.startMarker markers.endMarker).2 body markers.startMarker markers.endMarker).1 =
      .unchanged
  keeps : ∃ text, (replaceOrAppendMarkedSection (some content) body markers.startMarker
    markers.endMarker).2 = some text ∧ KeepsOutside markers body content text
  removable : ¬ markers.startMarker <:+: content → ¬ markers.endMarker <:+: content →
    ((removeMarkedSection (replaceOrAppendMarkedSection (some content) body markers.startMarker
      markers.endMarker).2 markers.startMarker markers.endMarker).2.getD []).trim = content.trim

/-- The file has no marker, or its first start marker stands before its first end marker. -/
def InOrder (markers : SectionMarkers) (content : Text) : Prop :=
  (¬ markers.startMarker <:+: content ∧ ¬ markers.endMarker <:+: content) ∨
    ∃ i j, indexOf content markers.startMarker = some i ∧
      indexOf content markers.endMarker = some j ∧ i < j

/-- The text with the section that was found, cut at its two markers. -/
theorem exists_section {content : Text} {j : Nat}
    (hi : indexOf content markers.startMarker = some i)
    (hj : indexOf content markers.endMarker = some j) (hij : i < j) :
    ∃ before block after, content = before ++ (block ++ after) ∧ before.length = i ∧
      before.length + block.length = j + markers.endMarker.length ∧
      markers.startMarker <+: block ∧ markers.endMarker <:+ block ∧
      indexOf before markers.startMarker = none ∧ indexOf before markers.endMarker = none := by
  have hstartNe := visible_ne_nil markers.start_visible
  have hendNe := visible_ne_nil markers.end_visible
  obtain ⟨hstart, hstartFirst⟩ := (indexOf_eq_some_iff_first hstartNe).mp hi
  obtain ⟨hend, hendFirst⟩ := (indexOf_eq_some_iff_first hendNe).mp hj
  have hapart := (markers.clear _ (by simp) _ (by simp)).apart hstart hend hij
  have hle := hend.le_length hendNe
  obtain ⟨front, after, rfl, rfl⟩ := hend.split (by omega)
  have hsplit : front.take i ++ ((front.drop i ++ markers.endMarker) ++ after) =
      front ++ (markers.endMarker ++ after) := by
    rw [List.append_assoc, ← List.append_assoc, List.take_append_drop]
  have hlength : (front.take i).length = i := List.length_take_of_le (by omega)
  refine ⟨front.take i, front.drop i ++ markers.endMarker, after, hsplit.symm, hlength, ?_, ?_,
    List.suffix_append _ _, ?_, ?_⟩
  · rw [List.length_append, List.length_drop, hlength]
    omega
  · have hfront : OccursAt markers.startMarker front i := (occursAt_append_left hapart).mp hstart
    exact List.IsPrefix.trans hfront (List.prefix_append _ _)
  · rw [indexOf_eq_none_iff_forall hstartNe]
    intro k hk
    have hlt := hk.le_length hstartNe
    rw [hlength] at hlt
    have hpos := List.length_pos_iff.mpr hstartNe
    refine hstartFirst k (by omega) ?_
    rw [← hsplit]
    exact hk.append hstartNe _
  · rw [indexOf_eq_none_iff_forall hendNe]
    intro k hk
    have hlt := hk.le_length hendNe
    rw [hlength] at hlt
    have hpos := List.length_pos_iff.mpr hendNe
    refine hendFirst k (by omega) ?_
    rw [← hsplit]
    exact hk.append hendNe _

/-- An edit of a section that is there puts the body in its place. -/
theorem replace_section (body : Text) {before block after : Text}
    (hfind : findSection (before ++ (block ++ after)) markers.startMarker markers.endMarker =
      some (before.length, i))
    (hlength : before.length + block.length = i + markers.endMarker.length) :
    (replaceOrAppendMarkedSection (some (before ++ (block ++ after))) body markers.startMarker
      markers.endMarker).2 = some (before ++ (body ++ after)) := by
  have hexisting : ((before ++ (block ++ after)).take
      (i + markers.endMarker.length)).drop before.length = block := by
    rw [← hlength, List.take_length_add_append, List.drop_left, List.take_left]
  have hrest : (before ++ (block ++ after)).drop (i + markers.endMarker.length) = after := by
    rw [← hlength, ← List.append_assoc, List.drop_left' (by simp)]
  simp only [replaceOrAppendMarkedSection, hfind, hexisting, hrest, List.take_left]
  split
  · rename_i hsame
    rw [hsame]
  · rfl

theorem replace_appended (body : Text) {content : Text}
    (hfind : findSection content markers.startMarker markers.endMarker = none) :
    (replaceOrAppendMarkedSection (some content) body markers.startMarker
      markers.endMarker).2 = some (appendBase content ++ (body ++ ['\n'])) := by
  simp only [replaceOrAppendMarkedSection, hfind]

theorem keepsOutside_appended (markers : SectionMarkers) (body content : Text) :
    KeepsOutside markers body content (appendBase content ++ (body ++ ['\n'])) := by
  obtain ⟨sep, hbase, hsep⟩ := exists_appendBase content
  obtain ⟨blanks, hcontent, hblanks⟩ := Text.exists_trimEnd_append content
  rw [hbase, List.append_assoc]
  conv => arg 3; rw [hcontent]
  exact KeepsOutside.appended hblanks hsep

theorem trim_appendBase (content : Text) : (appendBase content).trim = content.trim := by
  obtain ⟨sep, hbase, hsep⟩ := exists_appendBase content
  rw [hbase, Text.trim_append_blanks _ hsep, Text.trim_trimEnd]

/-- With a stray marker in front of it, the section that was appended is not what is found. -/
theorem IsSection.replace_stray (h : IsSection markers body) (before after : Text)
    (hsome : (indexOf before markers.startMarker).isSome ∨
      (indexOf before markers.endMarker).isSome)
    (hnone : findSection before markers.startMarker markers.endMarker = none) :
    (replaceOrAppendMarkedSection (some (before ++ (body ++ after))) body markers.startMarker
      markers.endMarker).1 ≠ .unchanged := by
  have hi := h.indexOf_start before after
  have hj := h.indexOf_end before after
  have hpos := List.length_pos_iff.mpr (visible_ne_nil markers.start_visible)
  have hposEnd := List.length_pos_iff.mpr (visible_ne_nil markers.end_visible)
  simp only [replaceOrAppendMarkedSection, findSection_eq_some hi hj]
  cases hstart : indexOf before markers.startMarker with
  | none =>
      cases hend : indexOf before markers.endMarker with
      | none => simp [hstart, hend] at hsome
      | some l =>
          obtain ⟨hocc, -⟩ :=
            (indexOf_eq_some_iff_first (visible_ne_nil markers.end_visible)).mp hend
          have hle := hocc.le_length (visible_ne_nil markers.end_visible)
          rw [Option.getD_none, Option.getD_some, if_neg (by omega)]
          simp
  | some k =>
      obtain ⟨hocc, -⟩ :=
        (indexOf_eq_some_iff_first (visible_ne_nil markers.start_visible)).mp hstart
      have hle := hocc.le_length (visible_ne_nil markers.start_visible)
      cases hend : indexOf before markers.endMarker with
      | none =>
          rw [Option.getD_some, Option.getD_none, if_pos (by omega)]
          -- the piece from the stray start marker on is longer than the body
          have hlong : ((before ++ (body ++ after)).take (before.length +
              (body.length - markers.endMarker.length) + markers.endMarker.length)).drop k ≠
                body := by
            intro hblock
            have hlength := congrArg List.length hblock
            rw [Nat.add_assoc, h.end_length, List.take_length_add_append, List.take_left,
              List.length_drop, List.length_append] at hlength
            omega
          simp [hlong]
      | some l =>
          rw [findSection_eq_some hstart hend] at hnone
          rw [Option.getD_some, Option.getD_some, hnone]
          simp

/-- One edit keeps its promises exactly when the markers of the file are in order. -/
theorem editLaws_iff_inOrder (markers : SectionMarkers) (body content : Text)
    (h : IsSection markers body) : EditLaws markers body content ↔ InOrder markers content := by
  have hnewline : ∀ c ∈ ['\n'], Text.isBlank c = true := List.forall_mem_singleton.mpr rfl
  constructor
  · intro hlaws
    by_contra hstray
    obtain ⟨hsome, hordered⟩ := not_or.mp hstray
    have hfind : findSection content markers.startMarker markers.endMarker = none := by
      rw [findSection]
      split
      · rename_i i j hi hj
        exact if_neg fun hij => hordered ⟨i, j, hi, hj, hij⟩
      · rfl
    have hstart := indexOf_appendBase markers.start_visible content
    have hend := indexOf_appendBase markers.end_visible content
    refine h.replace_stray (appendBase content) ['\n'] ?_ ?_ ?_
    · rw [hstart, hend]
      by_contra hneither
      obtain ⟨hnoStart, hnoEnd⟩ := not_or.mp hneither
      rw [Option.not_isSome_iff_eq_none, indexOf_eq_none_iff_infix] at hnoStart hnoEnd
      exact hsome ⟨hnoStart, hnoEnd⟩
    · rw [findSection, hstart, hend]
      exact hfind
    · have hagain := hlaws.idempotent
      rwa [replace_appended body hfind] at hagain
  · rintro (⟨hstart, hend⟩ | ⟨i, j, hi, hj, hij⟩)
    · have hstart' := indexOf_eq_none_iff_infix.mpr hstart
      have hend' := indexOf_eq_none_iff_infix.mpr hend
      have hfind : findSection content markers.startMarker markers.endMarker = none := by
        rw [findSection, hstart']
      have hwritten := replace_appended body hfind
      rw [← indexOf_appendBase markers.start_visible] at hstart'
      rw [← indexOf_appendBase markers.end_visible] at hend'
      refine ⟨?_, ⟨_, hwritten, keepsOutside_appended markers body content⟩, fun _ _ => ?_⟩
      · rw [hwritten, h.replace_body _ hstart' hend']
      · rw [hwritten, h.remove_body _ hstart' hend' hnewline, trim_appendBase]
    · obtain ⟨before, block, after, rfl, rfl, hlength, hstarts, hends, hnoStart, hnoEnd⟩ :=
        exists_section hi hj hij
      have hfind := findSection_eq_some hi hj
      rw [if_pos hij] at hfind
      have hwritten := replace_section body hfind hlength
      refine ⟨?_, ⟨_, hwritten, KeepsOutside.replaced hstarts hends⟩, fun hstart _ => ?_⟩
      · rw [hwritten, h.replace_body _ hnoStart hnoEnd]
      · have hnone := indexOf_eq_none_iff_infix.mpr hstart
        rw [hnone] at hi
        cases hi

end Markers

/-! ## A short section -/

def shortSection : Text :=
  afyxGraphMarkers.startMarker ++ ("\n## Afyx Graph\n".toList ++ afyxGraphMarkers.endMarker)

theorem isSection_shortSection : IsSection afyxGraphMarkers shortSection where
  starts := by decide
  ends := by decide
  startOnce := by decide
  endOnce := by decide

theorem editLaws_shortSection :
    EditLaws afyxGraphMarkers shortSection "# Notes\n".toList :=
  (editLaws_iff_inOrder afyxGraphMarkers shortSection "# Notes\n".toList
    isSection_shortSection).mpr (Or.inl ⟨by decide, by decide⟩)

/-- In a file where only the start marker was left, the second edit replaces what the user wrote. -/
theorem not_editLaws_strayStart :
    ¬ EditLaws afyxGraphMarkers shortSection
      (afyxGraphMarkers.startMarker ++ "\nmine\n".toList) :=
  fun h => absurd h.idempotent (by decide +kernel)

end AfyxGraph.Installer
