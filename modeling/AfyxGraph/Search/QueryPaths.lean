import AfyxGraph.Search.PathReferences

/-! # What a query's file references pin

The passes collect the files that the tokens name, each file once and up to the limit. A path that
a token names exactly is one of them if it is the last indexed path with its lower-case form.
-/

namespace AfyxGraph.Search.PathReferences

open AfyxGraph.Core AfyxGraph.Runtime

/-! ## The catalog -/

section Catalog

variable {toLowerCase : JsString → JsString} {paths : List JsString} {file span key : JsString}
  {limit : Nat}

/-- No path indexed later has the same lower-case form. -/
def LastFolded (toLowerCase : JsString → JsString) (paths : List JsString) (file : JsString) :
    Prop :=
  (paths.filter (toLowerCase · = toLowerCase file)).getLast? = some file

theorem foldedPaths_append_one (paths : List JsString) (file : JsString) :
    foldedPaths toLowerCase (paths ++ [file]) =
      setEntry (foldedPaths toLowerCase paths) (toLowerCase file) file := by
  rw [foldedPaths, List.foldl_append]
  rfl

/-- A lower-case form leads to the last path that has it. -/
theorem lookup_foldedPaths (toLowerCase : JsString → JsString) (paths : List JsString)
    (key : JsString) : (foldedPaths toLowerCase paths).lookup key =
      (paths.filter (toLowerCase · = key)).getLast? := by
  induction paths using List.reverseRecOn with
  | nil => rfl
  | append_singleton paths file ih =>
      rw [foldedPaths_append_one, List.filter_append]
      by_cases hkey : toLowerCase file = key
      · subst hkey
        rw [lookup_setEntry_self]
        simp
      · rw [lookup_setEntry_ne _ _ (Ne.symm hkey), ih]
        simp [hkey]

theorem nodup_keys_foldedPaths (toLowerCase : JsString → JsString) (paths : List JsString) :
    ((foldedPaths toLowerCase paths).map Prod.fst).Nodup := by
  induction paths using List.reverseRecOn with
  | nil => exact List.nodup_nil
  | append_singleton paths file ih =>
      rw [foldedPaths_append_one]
      exact nodup_keys_setEntry ih _ _

theorem lastFolded_of_lookup (h : (foldedPaths toLowerCase paths).lookup key = some file) :
    file ∈ paths ∧ LastFolded toLowerCase paths file := by
  rw [lookup_foldedPaths] at h
  obtain ⟨hmem, hkey⟩ := List.mem_filter.mp (List.mem_of_getLast? h)
  rw [decide_eq_true_eq] at hkey
  refine ⟨hmem, ?_⟩
  rw [LastFolded, hkey]
  exact h

theorem lastFolded_of_mem_suffixMatches {suffix : JsString}
    (h : file ∈ suffixMatches toLowerCase paths suffix) :
    file ∈ paths ∧ LastFolded toLowerCase paths file := by
  obtain ⟨⟨key, other⟩, hentry, rfl⟩ := List.mem_map.mp h
  exact lastFolded_of_lookup
    (lookup_of_mem (nodup_keys_foldedPaths toLowerCase paths) (List.mem_of_mem_filter hentry))

theorem lastFolded_of_mem_resolveSuffix {drops : Nat} {segments : List JsString}
    (h : file ∈ (resolveSuffix toLowerCase paths limit drops segments).found) :
    file ∈ paths ∧ LastFolded toLowerCase paths file := by
  induction segments generalizing drops with
  | nil =>
      cases drops with
      | zero => cases h
      | succ drops => cases h
  | cons segment segments ih =>
      cases drops with
      | zero => cases h
      | succ drops =>
          rw [resolveSuffix] at h
          split at h
          · cases h
          · split at h
            · exact lastFolded_of_mem_suffixMatches h
            · exact ih h

/-- A search finds indexed paths, and of those that fold to one form only the last. -/
theorem lastFolded_of_mem_resolve (h : file ∈ (resolve toLowerCase paths span limit).found) :
    file ∈ paths ∧ LastFolded toLowerCase paths file := by
  unfold resolve at h
  split at h
  · next exact hexact =>
      rw [List.mem_singleton.mp h]
      exact lastFolded_of_lookup hexact
  · exact lastFolded_of_mem_resolveSuffix h

theorem mem_resolve_of_lastFolded (h : LastFolded toLowerCase paths file) :
    file ∈ (resolve toLowerCase paths (toLowerCase file) limit).found := by
  rw [LastFolded, ← lookup_foldedPaths] at h
  rw [resolve, h]
  exact List.mem_cons_self

theorem mem_byStem {stem : JsString} {files : List JsString}
    (h : byStem toLowerCase paths stem = some files) : files ≠ [] ∧ files ⊆ paths := by
  rw [byStem, stems, lookup_groupBy] at h
  split at h
  · next hkey =>
      cases h
      constructor
      · obtain ⟨entry, hentry, hstem⟩ := List.mem_map.mp hkey
        refine List.ne_nil_of_mem (a := entry.2) (List.mem_map_of_mem ?_)
        exact List.mem_filter.mpr ⟨hentry, by simpa using hstem⟩
      · intro file hfile
        obtain ⟨entry, hentry, rfl⟩ := List.mem_map.mp hfile
        obtain ⟨path, hpath, heq⟩ := List.mem_filterMap.mp (List.mem_of_mem_filter hentry)
        obtain ⟨key, -, rfl⟩ := Option.map_eq_some_iff.mp heq
        exact hpath
  · cases h

end Catalog

/-! ## Kebab names are no paths -/

theorem isExtension_head {text : JsString} (h : isExtension text = true) :
    text.head? = some (unit '.') := by
  cases text with
  | nil => cases h
  | cons dot rest =>
      cases rest with
      | nil => cases h
      | cons first rest =>
          simp only [isExtension, Bool.and_eq_true, decide_eq_true_eq] at h
          rw [List.head?_cons, h.1.1.1]

theorem mem_of_isDottedBasename {text : JsString} (h : isDottedBasename text = true) :
    unit '.' ∈ text := by
  obtain ⟨i, -, hi⟩ := List.any_eq_true.mp h
  simp only [Bool.and_eq_true] at hi
  exact List.mem_of_mem_drop (List.mem_of_mem_head? (isExtension_head hi.2))

theorem mem_splitOn {text : JsString} {sep c : CodeUnit} (h : c ∈ text) :
    c = sep ∨ ∃ part ∈ text.splitOn sep, c ∈ part := by
  induction text with
  | nil => cases h
  | cons d text ih =>
      rw [List.splitOn_cons_eq_if_modifyHead]
      by_cases hd : d = sep
      · rw [if_pos (by simpa using hd)]
        rcases List.mem_cons.mp h with rfl | h
        · exact .inl hd
        · exact (ih h).imp_right fun ⟨part, hpart, hc⟩ => ⟨part, List.mem_cons_of_mem _ hpart, hc⟩
      · rw [if_neg (by simpa using hd)]
        cases hparts : text.splitOn sep with
        | nil => exact absurd hparts (List.splitOn_ne_nil _ _)
        | cons first parts =>
            rw [hparts] at ih
            rw [List.modifyHead_cons]
            rcases List.mem_cons.mp h with rfl | h
            · exact .inr ⟨_, List.mem_cons_self, List.mem_cons_self⟩
            · refine (ih h).imp_right fun ⟨part, hpart, hc⟩ => ?_
              rcases List.mem_cons.mp hpart with rfl | hpart
              · exact ⟨_, List.mem_cons_self, List.mem_cons_of_mem _ hc⟩
              · exact ⟨part, List.mem_cons_of_mem _ hpart, hc⟩

theorem isKebabBasename_unit {text : JsString} (h : isKebabBasename text = true) {c : CodeUnit}
    (hc : c ∈ text) : c = unit '-' ∨ isAlphanumeric c = true := by
  refine (mem_splitOn hc).imp_right fun ⟨part, hpart, hmem⟩ => ?_
  have hparts := (Bool.and_eq_true_iff.mp h).2
  have hpart := (Bool.and_eq_true_iff.mp (List.all_eq_true.mp hparts part hpart)).2
  exact List.all_eq_true.mp hpart c hmem

/-- Pass 1 looks no kebab name up. -/
theorem explicitSpan_of_isKebabBasename {token : JsString}
    (h : isKebabBasename (unwrap token) = true) : explicitSpan token = none := by
  have hnot : ∀ c : CodeUnit, c ≠ unit '-' → isAlphanumeric c = false → c ∉ unwrap token := by
    intro c hdash halnum hc
    rcases isKebabBasename_unit h hc with hc | hc
    · exact hdash hc
    · rw [halnum] at hc
      cases hc
  have hdotted : isDottedBasename (unwrap token) = false := by
    rw [Bool.eq_false_iff]
    exact fun hd => hnot (unit '.') (by decide) (by decide) (mem_of_isDottedBasename hd)
  have hslash : (unwrap token).contains slash = false := by
    rw [List.contains_eq_mem, decide_eq_false_iff_not]
    exact hnot slash (by decide) (by decide)
  have hback : (unwrap token).contains backslash = false := by
    rw [List.contains_eq_mem, decide_eq_false_iff_not]
    exact hnot backslash (by decide) (by decide)
  unfold explicitSpan
  simp only [hdotted, hslash, hback]
  simp

/-! ## The passes -/

namespace Setting

variable {g : Setting} {query token file normalized : JsString} {tokens : List JsString} {s : Scan}
  {i : Nat}

theorem explicitSpan_of_kebabFiles {files : List JsString} (h : g.kebabFiles token = some files) :
    explicitSpan token = none ∧ files ≠ [] ∧ files ⊆ g.indexedPaths := by
  unfold kebabFiles at h
  simp only at h
  split at h
  · cases h
  · next hshape =>
      simp only [Bool.or_eq_true, Bool.not_eq_true', not_or, Bool.not_eq_false] at hshape
      refine ⟨explicitSpan_of_isKebabBasename hshape.2, ?_⟩
      split at h
      · next found hfound =>
          split at h
          · cases h
          · cases h
            exact mem_byStem hfound
      · cases h

/-- Pass 1 has come to its end before the tokens have. -/
def Stopped (g : Setting) (s : Scan) : Prop :=
  g.maxPins ≤ s.pinned.length ∨ MAX_EXPLICIT_SPANS ≤ s.examined

theorem pass1_of_stopped (h : g.Stopped s) (i : Nat) (tokens : List JsString) :
    g.pass1 i tokens s = s := by
  cases tokens with
  | nil => rfl
  | cons token tokens => rw [pass1, if_pos (by simpa [Stopped] using h)]

/-- What pass 1 does with one token. -/
def visit (g : Setting) (i : Nat) (token : JsString) (s : Scan) : Scan :=
  match explicitSpan token with
  | some normalized => g.examine i normalized s
  | none => s

theorem pass1_cons (h : ¬ g.Stopped s) (i : Nat) (token : JsString) (tokens : List JsString) :
    g.pass1 i (token :: tokens) s = g.pass1 (i + 1) tokens (g.visit i token s) := by
  rw [pass1, if_neg (by simpa [Stopped] using h), visit]
  cases explicitSpan token with
  | none => rfl
  | some normalized => rfl

theorem examine_pinned : (g.examine i normalized s).pinned =
    g.pin s.pinned (g.resolveSpan normalized).found := by
  unfold examine
  simp only
  split
  · rfl
  · next hnone =>
      rw [show (g.resolveSpan normalized).found = [] by simpa using hnone]
      split
      · rfl
      · rfl

theorem examine_examined : (g.examine i normalized s).examined = s.examined + 1 := by
  unfold examine
  simp only
  split
  · rfl
  · split
    · rfl
    · rfl

/-- Pass 1 pins what its spans resolve to, of as many spans as it may still examine. -/
theorem pass1_pinned (g : Setting) (i : Nat) (tokens : List JsString) (s : Scan) :
    (g.pass1 i tokens s).pinned = g.pin s.pinned
      (((tokens.filterMap explicitSpan).take (MAX_EXPLICIT_SPANS - s.examined)).flatMap
        fun normalized => (g.resolveSpan normalized).found) := by
  induction tokens generalizing i s with
  | nil => simp [pass1, pin, collectDistinct]
  | cons token tokens ih =>
      by_cases hstop : g.Stopped s
      · rw [pass1_of_stopped hstop]
        rcases hstop with hfull | hspent
        · exact (collectDistinct_of_full hfull _).symm
        · rw [Nat.sub_eq_zero_of_le hspent, List.take_zero]
          rfl
      · rw [pass1_cons hstop, ih, visit]
        cases hspan : explicitSpan token with
        | none => rw [List.filterMap_cons_none hspan]
        | some normalized =>
            have hleft : MAX_EXPLICIT_SPANS - s.examined =
                MAX_EXPLICIT_SPANS - (s.examined + 1) + 1 := by
              simp only [Stopped, not_or] at hstop
              omega
            rw [List.filterMap_cons_some hspan, hleft, List.take_succ_cons, List.flatMap_cons,
              examine_pinned, examine_examined]
            exact (collectDistinct_append _ _ _ _).symm

/-- While pass 1 goes on it has examined every span. -/
theorem pass1_examined (h : ¬ g.Stopped (g.pass1 i tokens s)) :
    (g.pass1 i tokens s).examined = s.examined + (tokens.filterMap explicitSpan).length := by
  induction tokens generalizing i s with
  | nil => rfl
  | cons token tokens ih =>
      by_cases hstop : g.Stopped s
      · rw [pass1_of_stopped hstop] at h
        exact absurd hstop h
      · rw [pass1_cons hstop] at h ⊢
        rw [ih h, visit]
        cases hspan : explicitSpan token with
        | none => rw [List.filterMap_cons_none hspan]
        | some normalized =>
            simp only [examine_examined, List.filterMap_cons_some hspan, List.length_cons]
            omega

theorem pass2_pinned (h : ∀ k token, tokens[k]? = some token → i + k ∈ s.consumed →
      g.kebabFiles token = none) :
    (g.pass2 i tokens s).pinned =
      g.pin s.pinned (tokens.flatMap fun token => (g.kebabFiles token).getD []) := by
  induction tokens generalizing i s with
  | nil => rfl
  | cons token tokens ih =>
      have hrest : ∀ k other, tokens[k]? = some other → i + 1 + k ∈ s.consumed →
          g.kebabFiles other = none := by
        intro k other hother hmem
        refine h (k + 1) other (by simpa using hother) ?_
        rwa [show i + (k + 1) = i + 1 + k by omega]
      rw [pass2, List.flatMap_cons]
      by_cases hfull : g.maxPins ≤ s.pinned.length
      · rw [if_pos hfull]
        exact (collectDistinct_of_full hfull _).symm
      · rw [if_neg hfull]
        by_cases hmem : i ∈ s.consumed
        · rw [if_pos hmem, h 0 token rfl hmem]
          exact ih hrest
        · rw [if_neg hmem]
          cases hfiles : g.kebabFiles token with
          | none => exact ih hrest
          | some files =>
              simp only [Option.getD_some]
              rw [ih]
              · exact (collectDistinct_append _ _ _ _).symm
              · intro k other hother hmem
                rcases List.mem_append.mp hmem with hmem | hmem
                · exact hrest k other hother hmem
                · have heq := List.mem_singleton.mp hmem
                  omega

/-! ## Tokens that are taken out -/

/-- The normalised text of a token that names no file and yet is ambiguous or unmistakable. -/
def unresolvedSpan (g : Setting) (token : JsString) : Option JsString :=
  (explicitSpan token).filter fun normalized =>
    (g.resolveSpan normalized).found = [] &&
      ((g.resolveSpan normalized).ambiguous || isUnambiguouslyPath normalized)

/-- The token names these indexed files, by a path or by a stem. -/
def Names (g : Setting) (token : JsString) (files : List JsString) : Prop :=
  (∃ normalized, explicitSpan token = some normalized ∧
    (g.resolveSpan normalized).found = files) ∨ g.kebabFiles token = some files

/-- Why a token may be taken out. -/
def Takeable (g : Setting) (token : JsString) : Prop :=
  (∃ files, g.Names token files ∧ files ≠ [] ∧ files ⊆ g.indexedPaths) ∨
    ∃ normalized, g.unresolvedSpan token = some normalized

def reports (g : Setting) (all : List JsString) (consumed : List Nat) : List JsString :=
  consumed.filterMap fun i => all[i]?.bind g.unresolvedSpan

/-- What the passes keep true of their state. -/
structure ScanInv (g : Setting) (all : List JsString) (s : Scan) : Prop where
  taken : ∀ i ∈ s.consumed, ∃ token, all[i]? = some token ∧ g.Takeable token
  reported : s.unresolved = (g.reports all s.consumed).take MAX_REPORTED_UNRESOLVED
  idle : s.consumed = [] → s.pinned = []

theorem scanInv_empty (g : Setting) (all : List JsString) : g.ScanInv all {} where
  taken := fun _ hi => nomatch hi
  reported := rfl
  idle := fun _ => rfl

theorem reports_append_one (g : Setting) {all : List JsString} (hi : all[i]? = some token)
    (consumed : List Nat) :
    g.reports all (consumed ++ [i]) =
      g.reports all consumed ++ (g.unresolvedSpan token).toList := by
  rw [reports, List.filterMap_append, List.filterMap_cons, hi, Option.bind_some]
  cases g.unresolvedSpan token with
  | none => rfl
  | some normalized => rfl

/-- A token is taken out for the files it names. -/
theorem ScanInv.take_named {all : List JsString} (h : g.ScanInv all s) (hi : all[i]? = some token)
    {files pinned : List JsString} (hnames : g.Names token files) (hne : files ≠ [])
    (hsub : files ⊆ g.indexedPaths) (hspan : g.unresolvedSpan token = none) (examined : Nat) :
    g.ScanInv all ⟨s.consumed ++ [i], pinned, s.unresolved, examined⟩ where
  taken := by
    intro j hj
    rcases List.mem_append.mp hj with hj | hj
    · exact h.taken j hj
    · rw [List.mem_singleton.mp hj]
      exact ⟨token, hi, .inl ⟨files, hnames, hne, hsub⟩⟩
  reported := by
    rw [reports_append_one g hi, hspan, Option.toList_none, List.append_nil]
    exact h.reported
  idle := fun hnil => absurd hnil (List.append_ne_nil_of_right_ne_nil _ (List.cons_ne_nil _ _))

/-- A token is taken out without a file, and reported while there is room for reports. -/
theorem ScanInv.take_unresolved {all : List JsString} (h : g.ScanInv all s)
    (hi : all[i]? = some token) (hspan : g.unresolvedSpan token = some normalized)
    (examined : Nat) :
    g.ScanInv all ⟨s.consumed ++ [i], s.pinned,
      if s.unresolved.length < MAX_REPORTED_UNRESOLVED then s.unresolved ++ [normalized]
        else s.unresolved, examined⟩ where
  taken := by
    intro j hj
    rcases List.mem_append.mp hj with hj | hj
    · exact h.taken j hj
    · rw [List.mem_singleton.mp hj]
      exact ⟨token, hi, .inr ⟨normalized, hspan⟩⟩
  reported := by
    have hreported := h.reported
    have hlength := congrArg List.length hreported
    rw [List.length_take] at hlength
    simp only
    rw [reports_append_one g hi, hspan, Option.toList_some, List.take_append]
    split
    · next hroom =>
        have hall : (g.reports all s.consumed).length < MAX_REPORTED_UNRESOLVED := by omega
        rw [List.take_of_length_le (Nat.le_of_lt hall)] at hreported ⊢
        rw [hreported, List.take_of_length_le]
        rw [List.length_singleton]
        omega
    · next hfull =>
        rw [Nat.sub_eq_zero_of_le (by omega), List.take_zero, List.append_nil]
        exact hreported
  idle := fun hnil => absurd hnil (List.append_ne_nil_of_right_ne_nil _ (List.cons_ne_nil _ _))

theorem ScanInv.visit {all : List JsString} (h : g.ScanInv all s) (hi : all[i]? = some token) :
    g.ScanInv all (g.visit i token s) := by
  unfold Setting.visit
  cases hspan : explicitSpan token with
  | none => exact h
  | some normalized =>
      simp only [examine]
      by_cases hfound : (g.resolveSpan normalized).found = []
      · rw [if_neg (not_not.mpr hfound)]
        split
        · next hpath =>
            refine h.take_unresolved hi ?_ _
            rw [unresolvedSpan, hspan, Option.filter_some, if_pos]
            simpa [hfound] using hpath
        · exact ⟨h.taken, h.reported, h.idle⟩
      · rw [if_pos hfound]
        refine h.take_named hi (.inl ⟨normalized, hspan, rfl⟩) hfound ?_ ?_ _
        · exact fun file hfile => (lastFolded_of_mem_resolve hfile).1
        · rw [unresolvedSpan, hspan, Option.filter_some, if_neg]
          simp [hfound]

theorem ScanInv.pass1 {all : List JsString} (h : g.ScanInv all s)
    (htokens : ∀ k token, tokens[k]? = some token → all[i + k]? = some token) :
    g.ScanInv all (g.pass1 i tokens s) := by
  induction tokens generalizing i s with
  | nil => exact h
  | cons token tokens ih =>
      by_cases hstop : g.Stopped s
      · rwa [pass1_of_stopped hstop]
      · rw [pass1_cons hstop]
        refine ih (h.visit (htokens 0 token rfl)) fun k other hother => ?_
        rw [show i + 1 + k = i + (k + 1) by omega]
        exact htokens (k + 1) other (by simpa using hother)

theorem ScanInv.pass2 {all : List JsString} (h : g.ScanInv all s)
    (htokens : ∀ k token, tokens[k]? = some token → all[i + k]? = some token) :
    g.ScanInv all (g.pass2 i tokens s) := by
  induction tokens generalizing i s with
  | nil => exact h
  | cons token tokens ih =>
      have hrest : ∀ k other, tokens[k]? = some other → all[i + 1 + k]? = some other := by
        intro k other hother
        rw [show i + 1 + k = i + (k + 1) by omega]
        exact htokens (k + 1) other (by simpa using hother)
      rw [Setting.pass2]
      split
      · exact h
      · split
        · exact ih h hrest
        · cases hfiles : g.kebabFiles token with
          | none => exact ih h hrest
          | some files =>
              obtain ⟨hspan, hne, hsub⟩ := explicitSpan_of_kebabFiles hfiles
              refine ih (h.take_named (htokens 0 token rfl) (.inr hfiles) hne hsub ?_ _) hrest
              rw [unresolvedSpan, hspan, Option.filter_none]

theorem mem_examine_consumed {j : Nat} (h : j ∈ (g.examine i normalized s).consumed) :
    j ∈ s.consumed ∨ j = i := by
  have hcases : (g.examine i normalized s).consumed = s.consumed ++ [i] ∨
      (g.examine i normalized s).consumed = s.consumed := by
    unfold examine
    simp only
    split
    · exact .inl rfl
    · split
      · exact .inl rfl
      · exact .inr rfl
  rcases hcases with heq | heq
  · rw [heq] at h
    exact (List.mem_append.mp h).imp_right List.mem_singleton.mp
  · rw [heq] at h
    exact .inl h

/-- Pass 1 takes out only tokens that it looks up. -/
theorem mem_pass1_consumed {j : Nat} (h : j ∈ (g.pass1 i tokens s).consumed) :
    j ∈ s.consumed ∨ ∃ k token, j = i + k ∧ tokens[k]? = some token ∧
      explicitSpan token ≠ none := by
  induction tokens generalizing i s with
  | nil => exact .inl h
  | cons token tokens ih =>
      by_cases hstop : g.Stopped s
      · rw [pass1_of_stopped hstop] at h
        exact .inl h
      · rw [pass1_cons hstop] at h
        rcases ih h with hvisit | ⟨k, other, rfl, hother, hspan⟩
        · rw [visit] at hvisit
          cases hspan : explicitSpan token with
          | none =>
              rw [hspan] at hvisit
              exact .inl hvisit
          | some normalized =>
              rw [hspan] at hvisit
              refine (mem_examine_consumed hvisit).imp_right fun heq => ⟨0, token, heq, rfl, ?_⟩
              rw [hspan]
              exact Option.some_ne_none _
        · exact .inr ⟨k + 1, other, by omega, by simpa using hother, hspan⟩

/-- The files that the first spans and all kebab names lead to, in the order of the passes. -/
def namedFiles (g : Setting) (tokens : List JsString) : List JsString :=
  ((tokens.filterMap explicitSpan).take MAX_EXPLICIT_SPANS).flatMap
      (fun normalized => (g.resolveSpan normalized).found) ++
    tokens.flatMap fun token => (g.kebabFiles token).getD []

/-- Both passes together pin the first of the files that are named. -/
theorem scan_pinned (g : Setting) (query : JsString) :
    (g.scan query).pinned = collectDistinct g.maxPins [] (g.namedFiles (tokensOf query)) := by
  rw [scan, pass2_pinned, pass1_pinned]
  · exact (collectDistinct_append _ _ _ _).symm
  · intro k token htoken hmem
    rcases mem_pass1_consumed hmem with hnone | ⟨j, other, hj, hother, hspan⟩
    · cases hnone
    · rw [Nat.zero_add, Nat.zero_add] at hj
      subst hj
      obtain rfl := Option.some.inj (htoken.symm.trans hother)
      cases hfiles : g.kebabFiles token with
      | none => rfl
      | some files => exact absurd (explicitSpan_of_kebabFiles hfiles).1 hspan

theorem scanInv_scan (g : Setting) (query : JsString) :
    g.ScanInv (tokensOf query) (g.scan query) := by
  have hall : ∀ k token, (tokensOf query)[k]? = some token →
      (tokensOf query)[0 + k]? = some token := by
    intro k token htoken
    rwa [Nat.zero_add]
  exact ((scanInv_empty g _).pass1 hall).pass2 hall

theorem namedFiles_subset (g : Setting) (tokens : List JsString) :
    g.namedFiles tokens ⊆ g.indexedPaths := by
  intro file hfile
  rcases List.mem_append.mp hfile with hfile | hfile
  · obtain ⟨normalized, -, hfound⟩ := List.mem_flatMap.mp hfile
    exact (lastFolded_of_mem_resolve hfound).1
  · obtain ⟨token, -, hkebab⟩ := List.mem_flatMap.mp hfile
    cases hfiles : g.kebabFiles token with
    | none =>
        rw [hfiles] at hkebab
        cases hkebab
    | some files =>
        rw [hfiles] at hkebab
        exact (explicitSpan_of_kebabFiles hfiles).2.2 hkebab

/-! ## What is promised of an extraction -/

/-- Pass 1 comes to the token at this position and looks it up. -/
def Examined (g : Setting) (query : JsString) (i : Nat) (normalized : JsString) : Prop :=
  ∃ token, (tokensOf query)[i]? = some token ∧ explicitSpan token = some normalized ∧
    ¬ g.Stopped (g.pass1 0 ((tokensOf query).take i) {})

/-- The positions of the tokens that are taken out. -/
def takenTokens (g : Setting) (query : JsString) : List Nat :=
  if g.isIdle query then [] else (g.scan query).consumed

structure Extracted (g : Setting) (query : JsString) (result : QueryPathExtraction) : Prop where
  indexed : result.pinnedFiles ⊆ g.indexedPaths
  nodup : result.pinnedFiles.Nodup
  length_le : result.pinnedFiles.length ≤ g.maxPins
  exact : ∀ i file, g.Examined query i file → file ∈ g.indexedPaths →
    file ∈ result.pinnedFiles ∨ g.maxPins ≤ result.pinnedFiles.length
  taken : ∀ i ∈ g.takenTokens query, ∃ token,
    (tokensOf query)[i]? = some token ∧ g.Takeable token
  reported : result.unresolvedPathSpans =
    (g.reports (tokensOf query) (g.takenTokens query)).take MAX_REPORTED_UNRESOLVED
  stripped : result.strippedQuery =
    if g.takenTokens query = [] then query else withoutTokens query (g.takenTokens query)

/-- The extraction in terms of the scan. -/
theorem extractQueryPaths_eq (g : Setting) (query : JsString) :
    extractQueryPaths g.toLowerCase query g.indexedPaths g.options =
      if g.takenTokens query = [] then untouched query
      else ⟨withoutTokens query (g.takenTokens query), (g.scan query).pinned,
        (g.scan query).unresolved⟩ := by
  unfold extractQueryPaths takenTokens
  cases hidle : g.isIdle query with
  | true => simp [hidle]
  | false => simp [hidle]

theorem extracted_pinnedFiles (h : g.isIdle query = false) :
    (extractQueryPaths g.toLowerCase query g.indexedPaths g.options).pinnedFiles =
      (g.scan query).pinned := by
  rw [extractQueryPaths_eq]
  split
  · next hnone =>
      rw [takenTokens, if_neg (by simp [h])] at hnone
      exact ((scanInv_scan g query).idle hnone).symm
  · rfl

theorem Examined.mem_take (h : g.Examined query i normalized) :
    normalized ∈ ((tokensOf query).filterMap explicitSpan).take MAX_EXPLICIT_SPANS := by
  obtain ⟨token, htoken, hspan, hgoing⟩ := h
  have hcount := pass1_examined hgoing
  simp only [Stopped, not_or] at hgoing
  obtain ⟨hi, rfl⟩ := List.getElem?_eq_some_iff.mp htoken
  have hsplit := List.take_append_drop i (tokensOf query)
  rw [List.drop_eq_getElem_cons hi] at hsplit
  rw [← hsplit, List.filterMap_append, List.filterMap_cons_some hspan, List.take_append]
  obtain ⟨room, hroom⟩ : ∃ room, MAX_EXPLICIT_SPANS -
      (((tokensOf query).take i).filterMap explicitSpan).length = room + 1 :=
    ⟨_, (Nat.sub_add_cancel (by omega)).symm⟩
  rw [hroom, List.take_succ_cons]
  exact List.mem_append_right _ List.mem_cons_self

/-- What a token names exactly is among the named files if no path indexed later has the same
lower-case form, and otherwise only by its stem. -/
theorem Examined.mem_namedFiles_iff (h : g.Examined query i file) :
    file ∈ g.namedFiles (tokensOf query) ↔ LastFolded g.toLowerCase g.indexedPaths file ∨
      ∃ token ∈ tokensOf query, ∃ files, g.kebabFiles token = some files ∧ file ∈ files := by
  rw [namedFiles, List.mem_append, List.mem_flatMap, List.mem_flatMap]
  constructor
  · rintro (⟨normalized, -, hfound⟩ | ⟨token, htoken, hkebab⟩)
    · exact .inl (lastFolded_of_mem_resolve hfound).2
    · cases hfiles : g.kebabFiles token with
      | none =>
          rw [hfiles] at hkebab
          cases hkebab
      | some files =>
          rw [hfiles] at hkebab
          exact .inr ⟨token, htoken, files, hfiles, hkebab⟩
  · rintro (hlast | ⟨token, htoken, files, hfiles, hmem⟩)
    · exact .inl ⟨file, h.mem_take, mem_resolve_of_lastFolded hlast⟩
    · refine .inr ⟨token, htoken, ?_⟩
      rwa [hfiles]

theorem tokensOf_of_blank (h : query.all isSpace = true) : tokensOf query = [] := by
  unfold tokensOf
  induction query with
  | nil => rfl
  | cons c query ih =>
      rw [List.all_cons, Bool.and_eq_true] at h
      rw [List.splitOnP_cons_eq_if_modifyHead, if_pos h.1, List.filter_cons_of_neg (by simp)]
      exact ih h.2

/-- Pass 1 does not run without a token and finds nothing without a path. -/
theorem Examined.not_idle (h : g.Examined query i file) (hmem : file ∈ g.indexedPaths) :
    g.isIdle query = false := by
  obtain ⟨token, htoken, -, -⟩ := h
  cases hblank : query.all isSpace with
  | true =>
      rw [tokensOf_of_blank hblank] at htoken
      cases htoken
  | false =>
      rw [isIdle, hblank, Bool.false_or, List.isEmpty_eq_false_iff]
      exact List.ne_nil_of_mem hmem

theorem Examined.pinned_iff (h : g.Examined query i file) (hmem : file ∈ g.indexedPaths) :
    (file ∈ (extractQueryPaths g.toLowerCase query g.indexedPaths g.options).pinnedFiles ∨
      g.maxPins ≤
        (extractQueryPaths g.toLowerCase query g.indexedPaths g.options).pinnedFiles.length) ↔
      LastFolded g.toLowerCase g.indexedPaths file ∨
        (∃ token ∈ tokensOf query, ∃ files, g.kebabFiles token = some files ∧ file ∈ files) ∨
        g.maxPins ≤ (g.namedFiles (tokensOf query)).dedup.length := by
  rw [extracted_pinnedFiles (h.not_idle hmem), scan_pinned, collectDistinct_full_iff, ← or_assoc,
    ← h.mem_namedFiles_iff]
  constructor
  · rintro (hpinned | hfull)
    · exact .inl ((mem_of_mem_collectDistinct hpinned).resolve_left List.not_mem_nil)
    · exact .inr hfull
  · rintro (hnamed | hfull)
    · exact (mem_collectDistinct_or_full hnamed).imp_right collectDistinct_full_iff.mp
    · exact .inr hfull

/-- Only the exactly named files may be missed; everything else is true of every extraction. -/
theorem extractQueryPaths_extracted_iff (g : Setting) (query : JsString) :
    g.Extracted query (extractQueryPaths g.toLowerCase query g.indexedPaths g.options) ↔
      ∀ i file, g.Examined query i file → file ∈ g.indexedPaths →
        LastFolded g.toLowerCase g.indexedPaths file ∨
          (∃ token ∈ tokensOf query, ∃ files, g.kebabFiles token = some files ∧ file ∈ files) ∨
          g.maxPins ≤ (g.namedFiles (tokensOf query)).dedup.length := by
  have hinv := scanInv_scan g query
  refine ⟨fun h i file hexamined hmem => (hexamined.pinned_iff hmem).mp
    (h.exact i file hexamined hmem), fun hcond => ?_⟩
  have hexact := fun i file hexamined hmem =>
    (Examined.pinned_iff (g := g) hexamined hmem).mpr (hcond i file hexamined hmem)
  rw [extractQueryPaths_eq] at hexact ⊢
  by_cases htaken : g.takenTokens query = []
  · rw [if_pos htaken] at hexact ⊢
    exact {
      indexed := List.nil_subset _
      nodup := List.nodup_nil
      length_le := Nat.zero_le _
      exact := hexact
      taken := by simp [htaken]
      reported := by simp [htaken, reports, untouched]
      stripped := by simp [htaken, untouched] }
  · rw [if_neg htaken] at hexact ⊢
    have hconsumed : g.takenTokens query = (g.scan query).consumed := by
      rw [takenTokens]
      exact if_neg fun hidle => htaken (by rw [takenTokens, if_pos hidle])
    exact {
      indexed := by
        intro file hfile
        rw [scan_pinned] at hfile
        exact namedFiles_subset g _
          ((mem_of_mem_collectDistinct hfile).resolve_left List.not_mem_nil)
      nodup := by
        rw [scan_pinned]
        exact nodup_collectDistinct List.nodup_nil
      length_le := by
        rw [scan_pinned]
        exact length_collectDistinct_le (Nat.zero_le _)
      exact := hexact
      taken := by
        rw [hconsumed]
        exact hinv.taken
      reported := by
        rw [hconsumed]
        exact hinv.reported
      stripped := by rw [if_neg htaken] }

/-- Lower-case forms of what has only ASCII letters. -/
def asciiLowerCase (text : JsString) : JsString :=
  text.map fun c => if unit 'A' ≤ c && c ≤ unit 'Z' then c + 32 else c

def twoSpellings : Setting := ⟨asciiLowerCase, [units "src/App.ts", units "src/app.ts"], {}⟩

/-- The exactly named path has its lower-case form in common with a later one, which is pinned. -/
theorem twoSpellings_pins_other :
    ¬ twoSpellings.Extracted (units "src/App.ts") (extractQueryPaths twoSpellings.toLowerCase
      (units "src/App.ts") twoSpellings.indexedPaths twoSpellings.options) := by
  intro h
  have hpinned : (extractQueryPaths twoSpellings.toLowerCase (units "src/App.ts")
      twoSpellings.indexedPaths twoSpellings.options).pinnedFiles = [units "src/app.ts"] := by
    decide +kernel
  have hexamined : twoSpellings.Examined (units "src/App.ts") 0 (units "src/App.ts") := by
    refine ⟨units "src/App.ts", by decide +kernel, by decide +kernel, ?_⟩
    unfold Stopped
    decide +kernel
  have hexact := h.exact 0 _ hexamined List.mem_cons_self
  rw [hpinned] at hexact
  revert hexact
  decide +kernel

end Setting

end AfyxGraph.Search.PathReferences
