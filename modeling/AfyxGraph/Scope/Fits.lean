import AfyxGraph.Core.TextParts
import AfyxGraph.Scope.Matcher

/-! # What a pattern matches

The expression of a rule is found at the front of a path or behind a slash of it. Whether it is
found is told by the texts that the pattern matches as a whole: what is left behind such a text
has no say.
-/

namespace AfyxGraph.Scope

open AfyxGraph.Core

/-- The pattern matches the whole text. -/
def fits (core : List Token) (t : Text) : Bool := [] ∈ rests core t

/-! ## Rests -/

theorem mem_afterRun {p : Char → Bool} {t r : Text} :
    r ∈ afterRun p t ↔ ∃ a, t = a ++ r ∧ [] ∈ afterRun p a := by
  induction t generalizing r with
  | nil =>
      simp only [afterRun, List.mem_singleton]
      constructor
      · rintro rfl
        exact ⟨[], rfl, by simp [afterRun]⟩
      · rintro ⟨a, ha, -⟩
        exact (List.append_eq_nil_iff.mp ha.symm).2
  | cons c cs ih =>
      constructor
      · intro hr
        by_cases hc : p c = true
        · rw [afterRun, if_pos hc] at hr
          rcases List.mem_append.mp hr with hr | hr
          · obtain ⟨a, rfl, ha⟩ := ih.mp hr
            exact ⟨c :: a, rfl, by simp [afterRun, hc, ha]⟩
          · exact ⟨[], by simpa using (List.mem_singleton.mp hr).symm, by simp [afterRun]⟩
        · rw [afterRun, if_neg hc] at hr
          exact ⟨[], by simpa using (List.mem_singleton.mp hr).symm, by simp [afterRun]⟩
      · rintro ⟨a, ha, hrest⟩
        cases a with
        | nil =>
            obtain rfl : c :: cs = r := ha
            rw [afterRun]
            split <;> simp
        | cons d a =>
            obtain ⟨rfl, rfl⟩ := List.cons.inj ha
            by_cases hc : p c = true
            · rw [afterRun, if_pos hc] at hrest ⊢
              have hin : [] ∈ afterRun p a := by simpa using hrest
              exact List.mem_append_left _ (ih.mpr ⟨a, rfl, hin⟩)
            · rw [afterRun, if_neg hc] at hrest
              simp at hrest

theorem mem_afterSegments {inside : Bool} {t r : Text} :
    r ∈ afterSegments inside t ↔ ∃ a, t = a ++ r ∧ [] ∈ afterSegments inside a := by
  induction t generalizing inside r with
  | nil =>
      simp only [afterSegments, List.not_mem_nil, false_iff, not_exists, not_and]
      rintro a ha hmem
      obtain rfl := (List.append_eq_nil_iff.mp ha.symm).1
      simp [afterSegments] at hmem
  | cons c cs ih =>
      by_cases hslash : c = '/'
      · subst hslash
        cases inside with
        | false =>
            simp only [afterSegments, if_true, Bool.false_eq_true, if_false, List.not_mem_nil,
              false_iff, not_exists, not_and]
            rintro a ha hmem
            cases a with
            | nil => simp [afterSegments] at hmem
            | cons d a =>
                obtain ⟨rfl, -⟩ := List.cons.inj ha
                simp [afterSegments] at hmem
        | true =>
            simp only [afterSegments, if_true, List.mem_append, List.mem_singleton, ih]
            constructor
            · rintro (⟨a, rfl, ha⟩ | rfl)
              · exact ⟨'/' :: a, rfl, by simp [afterSegments, ha]⟩
              · exact ⟨['/'], rfl, by simp [afterSegments]⟩
            · rintro ⟨a, ha, hmem⟩
              cases a with
              | nil => simp [afterSegments] at hmem
              | cons d a =>
                  obtain ⟨rfl, rfl⟩ := List.cons.inj ha
                  simp only [afterSegments, if_true, List.mem_append, List.mem_singleton] at hmem
                  rcases hmem with hmem | hmem
                  · exact .inl ⟨a, rfl, hmem⟩
                  · exact .inr (by simp [← hmem])
      · simp only [afterSegments, if_neg hslash, ih]
        constructor
        · rintro ⟨a, rfl, ha⟩
          exact ⟨c :: a, rfl, by simp [afterSegments, hslash, ha]⟩
        · rintro ⟨a, ha, hmem⟩
          cases a with
          | nil => simp [afterSegments] at hmem
          | cons d a =>
              obtain ⟨rfl, rfl⟩ := List.cons.inj ha
              simp only [afterSegments, if_neg hslash] at hmem
              exact ⟨a, rfl, hmem⟩

theorem mem_ite_singleton {p : Prop} [Decidable p] {u v : Text} :
    v ∈ (if p then [u] else []) ↔ p ∧ v = u := by
  split <;> simp [*]

/-- A token that reads one character. -/
theorem mem_rests_single {rests : Text → List Text} {accepts : Char → Prop} {t r : Text}
    (hnil : rests [] = [])
    (hcons : ∀ (d : Char) (u v : Text), v ∈ rests (d :: u) ↔ accepts d ∧ v = u) :
    r ∈ rests t ↔ ∃ a, t = a ++ r ∧ [] ∈ rests a := by
  constructor
  · intro hr
    cases t with
    | nil =>
        rw [hnil] at hr
        cases hr
    | cons d u =>
        obtain ⟨hd, rfl⟩ := (hcons d u r).mp hr
        exact ⟨[d], rfl, (hcons d [] []).mpr ⟨hd, rfl⟩⟩
  · rintro ⟨a, rfl, ha⟩
    cases a with
    | nil =>
        rw [hnil] at ha
        cases ha
    | cons d u =>
        obtain ⟨hd, rfl⟩ := (hcons d u []).mp ha
        exact (hcons d r r).mpr ⟨hd, rfl⟩

theorem Token.mem_rests {token : Token} {t r : Text} :
    r ∈ token.rests t ↔ ∃ a, t = a ++ r ∧ [] ∈ token.rests a := by
  cases token with
  | star => exact mem_afterRun
  | any => exact mem_afterRun
  | segments =>
      simp only [Token.rests, List.mem_append, List.mem_singleton, @mem_afterSegments false t r]
      constructor
      · rintro (⟨a, rfl, ha⟩ | rfl)
        · exact ⟨a, rfl, .inl ha⟩
        · exact ⟨[], rfl, .inr rfl⟩
      · rintro ⟨a, rfl, ha | rfl⟩
        · exact .inl ⟨a, rfl, ha⟩
        · exact .inr rfl
  | char c => exact mem_rests_single rfl fun _ _ _ => mem_ite_singleton
  | one => exact mem_rests_single rfl fun _ _ _ => mem_ite_singleton
  | cls negated ranges => exact mem_rests_single rfl fun _ _ _ => mem_ite_singleton

/-- A rest is left behind a text that the pattern matches. -/
theorem mem_rests_iff {core : List Token} {t r : Text} :
    r ∈ rests core t ↔ ∃ a, t = a ++ r ∧ fits core a = true := by
  simp only [fits, decide_eq_true_eq]
  induction core generalizing t r with
  | nil =>
      simp only [rests, List.mem_singleton]
      constructor
      · rintro rfl
        exact ⟨[], rfl, rfl⟩
      · rintro ⟨a, rfl, ha⟩
        rw [← ha]
        rfl
  | cons token core ih =>
      simp only [rests, List.mem_flatMap]
      constructor
      · rintro ⟨u, hu, hr⟩
        obtain ⟨a, rfl, ha⟩ := Token.mem_rests.mp hu
        obtain ⟨b, rfl, hb⟩ := ih.mp hr
        exact ⟨a ++ b, by simp, b, Token.mem_rests.mpr ⟨a, rfl, ha⟩, hb⟩
      · rintro ⟨a, rfl, u, hu, hempty⟩
        obtain ⟨b, rfl, hb⟩ := Token.mem_rests.mp hu
        refine ⟨u ++ r, Token.mem_rests.mpr ⟨b, by simp, hb⟩, ih.mpr ⟨u, rfl, hempty⟩⟩

/-- The token reads no slash. -/
def Token.inner : Token → Bool
  | .char c => c ≠ '/'
  | .star | .one => true
  | .any | .segments => false
  | .cls negated ranges => (Token.cls negated ranges).rests ['/'] = []

theorem notMem_of_afterRun {a : Text} (h : [] ∈ afterRun (· ≠ '/') a) : '/' ∉ a := by
  induction a with
  | nil => exact List.not_mem_nil
  | cons c cs ih =>
      rw [afterRun] at h
      split at h
      · rename_i hc
        have hrest : [] ∈ afterRun (· ≠ '/') cs := by simpa using h
        have hne : '/' ≠ c := fun heq => by simp [← heq] at hc
        rw [List.mem_cons, not_or]
        exact ⟨hne, ih hrest⟩
      · simp at h

theorem Token.notMem_of_inner {token : Token} {a : Text} (hinner : token.inner = true)
    (h : [] ∈ token.rests a) : '/' ∉ a := by
  cases token with
  | star => exact notMem_of_afterRun h
  | any => cases hinner
  | segments => cases hinner
  | char c =>
      cases a with
      | nil => exact List.not_mem_nil
      | cons d u =>
          obtain ⟨rfl, rfl⟩ := mem_ite_singleton.mp h
          have hne : d ≠ '/' := of_decide_eq_true hinner
          exact fun hslash => hne (List.mem_singleton.mp hslash).symm
  | one =>
      cases a with
      | nil => exact List.not_mem_nil
      | cons d u =>
          obtain ⟨hd, rfl⟩ := mem_ite_singleton.mp h
          exact fun hslash => hd (List.mem_singleton.mp hslash).symm
  | cls negated ranges =>
      cases a with
      | nil => exact List.not_mem_nil
      | cons d u =>
          obtain ⟨hd, rfl⟩ := mem_ite_singleton.mp h
          rintro hslash
          obtain rfl := List.mem_singleton.mp hslash
          simp only [Token.inner, decide_eq_true_eq] at hinner
          rw [hinner] at h
          cases h

theorem notMem_of_fits {core : List Token} {a : Text} (hinner : ∀ token ∈ core, token.inner = true)
    (h : fits core a = true) : '/' ∉ a := by
  simp only [fits, decide_eq_true_eq] at h
  induction core generalizing a with
  | nil =>
      obtain rfl : [] = a := List.mem_singleton.mp h
      exact List.not_mem_nil
  | cons token core ih =>
      simp only [rests, List.mem_flatMap] at h
      obtain ⟨u, hu, hrest⟩ := h
      obtain ⟨b, rfl, hb⟩ := Token.mem_rests.mp hu
      rw [List.mem_append, not_or]
      constructor
      · exact Token.notMem_of_inner (hinner token (List.mem_cons_self ..)) hb
      · exact ih (fun r hr => hinner r (List.mem_cons_of_mem _ hr)) hrest

/-! ## Expressions of rules -/

theorem isSome_atBoundary {r : Text} : (atBoundary r).isSome = true ↔ r = [] ∨ ∃ u, r = '/' :: u := by
  cases r with
  | nil => simp [atBoundary]
  | cons c cs =>
      by_cases hc : c = '/'
      · simp [atBoundary, hc]
      · simp [atBoundary, hc]

theorem atBoundary_eq_some {r rest : Text} (h : atBoundary r = some rest) :
    (r = [] ∧ rest = []) ∨ r = '/' :: rest := by
  cases r with
  | nil =>
      rw [atBoundary, Option.some.injEq] at h
      exact .inl ⟨rfl, h.symm⟩
  | cons c cs =>
      by_cases hc : c = '/'
      · rw [atBoundary, if_pos hc, Option.some.injEq] at h
        exact .inr (by rw [hc, h])
      · rw [atBoundary, if_neg hc] at h
        cases h

/-- The expression takes the whole text, or a text with the slash behind it. -/
theorem takeCore_eq_some {core : List Token} {t found : Text} (h : takeCore core t = some found) :
    (fits core t = true ∧ found = t) ∨
      ∃ a u, t = a ++ '/' :: u ∧ fits core a = true ∧ found = a ++ ['/'] := by
  rw [takeCore, Option.map_eq_some_iff] at h
  obtain ⟨rest, hrest, rfl⟩ := h
  obtain ⟨r, hr, hboundary⟩ := List.exists_of_findSome?_eq_some hrest
  obtain ⟨a, rfl, ha⟩ := mem_rests_iff.mp hr
  rcases atBoundary_eq_some hboundary with ⟨rfl, rfl⟩ | rfl
  · exact .inl ⟨by simpa using ha, by simp⟩
  · refine .inr ⟨a, rest, rfl, ha, ?_⟩
    have hsplit : a ++ '/' :: rest = (a ++ ['/']) ++ rest := by simp
    rw [hsplit]
    exact List.take_left' (by simp only [List.length_append]; omega)

theorem searchCore_eq_some {core : List Token} {start : Bool} {t found : Text}
    (h : searchCore core start t = some found) :
    (start = true ∧ takeCore core t = some found) ∨
      ∃ a u taken, t = a ++ '/' :: u ∧ takeCore core u = some taken ∧ found = '/' :: taken := by
  induction t generalizing start with
  | nil =>
      cases start with
      | true => exact .inl ⟨rfl, h⟩
      | false => cases h
  | cons c cs ih =>
      rw [searchCore, Option.or_eq_some_iff, Option.or_eq_some_iff] at h
      rcases h with (hfront | ⟨-, hslash⟩) | ⟨-, hrest⟩
      · cases start with
        | true => exact .inl ⟨rfl, hfront⟩
        | false => cases hfront
      · by_cases hc : c = '/'
        · rw [if_pos hc, Option.map_eq_some_iff] at hslash
          obtain ⟨taken, htaken, rfl⟩ := hslash
          exact .inr ⟨[], cs, taken, by rw [hc]; rfl, htaken, by rw [hc]⟩
        · rw [if_neg hc] at hslash
          cases hslash
      · rcases ih hrest with ⟨hfalse, -⟩ | ⟨a, u, taken, rfl, htaken, rfl⟩
        · cases hfalse
        · exact .inr ⟨c :: a, u, taken, rfl, htaken, rfl⟩

theorem isSome_takeCore {core : List Token} {t : Text} : (takeCore core t).isSome = true ↔
    ∃ a r, t = a ++ r ∧ fits core a = true ∧ (r = [] ∨ ∃ u, r = '/' :: u) := by
  simp only [takeCore, Option.isSome_map, List.isSome_findSome?, List.any_eq_true, mem_rests_iff,
    isSome_atBoundary]
  constructor
  · rintro ⟨r, ⟨a, rfl, ha⟩, hr⟩
    exact ⟨a, r, rfl, ha, hr⟩
  · rintro ⟨a, r, rfl, ha, hr⟩
    exact ⟨r, ⟨a, rfl, ha⟩, hr⟩

theorem isSome_searchCore {core : List Token} {start : Bool} {t : Text} :
    (searchCore core start t).isSome = true ↔ (start = true ∧ (takeCore core t).isSome = true) ∨
      ∃ a u, t = a ++ '/' :: u ∧ (takeCore core u).isSome = true := by
  induction t generalizing start with
  | nil => cases start <;> simp [searchCore]
  | cons c cs ih =>
      rw [searchCore]
      simp only [Option.isSome_or, Bool.or_eq_true, ih, Bool.false_eq_true, false_and, false_or]
      constructor
      · rintro ((hfront | hslash) | ⟨a, u, rfl, hu⟩)
        · cases start with
          | true => exact .inl ⟨rfl, hfront⟩
          | false => simp at hfront
        · by_cases hc : c = '/'
          · rw [if_pos hc, Option.isSome_map] at hslash
            exact .inr ⟨[], cs, by rw [hc]; rfl, hslash⟩
          · simp [hc] at hslash
        · exact .inr ⟨c :: a, u, rfl, hu⟩
      · rintro (⟨rfl, hfront⟩ | ⟨a, u, heq, hu⟩)
        · exact .inl (.inl hfront)
        · cases a with
          | nil =>
              obtain ⟨rfl, rfl⟩ := List.cons.inj heq
              exact .inl (.inr (by simpa using hu))
          | cons d a =>
              obtain ⟨rfl, rfl⟩ := List.cons.inj heq
              exact .inr ⟨a, u, rfl, hu⟩

/-! ## Segments -/

/-- A directory above a path is what stands before one of its slashes. -/
theorem mem_directoriesAbove_iff {d q : Text} :
    d ∈ Matcher.directoriesAbove q ↔ ∃ u, q = d ++ '/' :: u := by
  constructor
  · intro hd
    obtain ⟨count, hpos, hlt, rfl⟩ := Matcher.mem_directoriesAbove.mp hd
    have htake : q.segments.take count ≠ [] := by
      apply List.length_pos_iff.mp
      rw [List.length_take]
      omega
    have hdrop : q.segments.drop count ≠ [] := by
      apply List.length_pos_iff.mp
      rw [List.length_drop]
      omega
    refine ⟨Text.join (q.segments.drop count), ?_⟩
    rw [← Text.join_append htake hdrop, List.take_append_drop, Text.join_segments]
  · rintro ⟨u, rfl⟩
    exact Matcher.directory_mem_directoriesAbove d u

theorem directoriesAbove_trans {c d q : Text} (hc : c ∈ Matcher.directoriesAbove d)
    (hd : d ∈ Matcher.directoriesAbove q) : c ∈ Matcher.directoriesAbove q := by
  obtain ⟨u, rfl⟩ := mem_directoriesAbove_iff.mp hc
  obtain ⟨v, rfl⟩ := mem_directoriesAbove_iff.mp hd
  exact mem_directoriesAbove_iff.mpr ⟨u ++ '/' :: v, by simp⟩

/-- What stands behind the last slash. -/
def lastSegment (t : Text) : Text := t.segments.getLast t.segments_ne_nil

theorem segments_join {ss : List Text} (hne : ss ≠ []) (hslash : ∀ s ∈ ss, '/' ∉ s) :
    (Text.join ss).segments = ss := by
  induction ss with
  | nil => exact absurd rfl hne
  | cons s ss ih =>
      have hs : s.segments = [s] := Text.split_of_notMem (hslash s (List.mem_cons_self ..))
      cases ss with
      | nil => exact hs
      | cons r rs =>
          have hrest := ih (List.cons_ne_nil r rs) fun x hx => hslash x (List.mem_cons_of_mem _ hx)
          rw [Text.join_cons (List.cons_ne_nil r rs), Text.segments_append, hs, hrest]
          rfl

theorem eq_lastSegment (t : Text) : t = lastSegment t ∨ ∃ a, t = a ++ '/' :: lastSegment t := by
  have hsplit := List.dropLast_append_getLast t.segments_ne_nil
  have hjoin : Text.join (t.segments.dropLast ++ [lastSegment t]) = t := by
    rw [lastSegment, hsplit, Text.join_segments]
  by_cases hfront : t.segments.dropLast = []
  · rw [hfront] at hjoin
    exact .inl hjoin.symm
  · rw [Text.join_append hfront (List.cons_ne_nil _ _)] at hjoin
    exact .inr ⟨_, hjoin.symm⟩

/-- The segments of a path are the last segments of the path and of the directories above. -/
theorem mem_segments_iff {q s : Text} : s ∈ q.segments ↔
    ∃ d, (d = q ∨ d ∈ Matcher.directoriesAbove q) ∧ lastSegment d = s := by
  constructor
  · intro hs
    obtain ⟨before, after, hsplit⟩ := List.append_of_mem hs
    have hslash : ∀ r ∈ before ++ [s], '/' ∉ r := by
      intro r hr
      refine Text.notMem_of_mem_split (t := q) ?_
      rw [← Text.segments, hsplit]
      rcases List.mem_append.mp hr with hr | hr
      · exact List.mem_append_left _ hr
      · simp [List.mem_singleton.mp hr]
    have hsegments := segments_join (by simp) hslash
    have hlast : lastSegment (Text.join (before ++ [s])) = s := by
      simp [lastSegment, hsegments]
    refine ⟨Text.join (before ++ [s]), ?_, hlast⟩
    cases after with
    | nil =>
        left
        rw [← hsplit, Text.join_segments]
    | cons r rs =>
        right
        refine mem_directoriesAbove_iff.mpr ⟨Text.join (r :: rs), ?_⟩
        rw [← Text.join_append (by simp) (List.cons_ne_nil r rs), List.append_assoc,
          List.singleton_append, ← hsplit, Text.join_segments]
  · rintro ⟨d, rfl | hd, rfl⟩
    · exact List.getLast_mem _
    · obtain ⟨u, rfl⟩ := mem_directoriesAbove_iff.mp hd
      rw [Text.segments_append]
      exact List.mem_append_left _ (List.getLast_mem _)

end AfyxGraph.Scope
