import Mathlib.Data.List.Basic

/-! # Slash-separated paths as text

A path is a list of characters; its segments are what stands between slashes.
`Normal` paths have no empty segment and no dots-only step, so a directory above
a file is exactly a proper prefix of its segments.
-/

namespace AfyxGraph.Core

abbrev Text := List Char

-- Membership in a list of texts is decided with these, by name.
instance : LawfulBEq Text := List.instLawfulBEq

instance : LawfulBEq (List Text) := List.instLawfulBEq

namespace Text

/-- `text.split(sep)` for a single character. -/
def split (sep : Char) : Text → List Text
  | [] => [[]]
  | c :: cs =>
      if c = sep then [] :: split sep cs
      else
        match split sep cs with
        | [] => [[c]]
        | s :: ss => (c :: s) :: ss

/-- `text.split('/')`. -/
def segments (t : Text) : List Text := t.split '/'

/-- `parts.join('/')`. -/
def join : List Text → Text
  | [] => []
  | [s] => s
  | s :: ss => s ++ '/' :: join ss

theorem segments_nil : segments [] = [[]] := rfl

theorem segments_cons (c : Char) (cs : Text) :
    segments (c :: cs) =
      if c = '/' then [] :: segments cs
      else
        match segments cs with
        | [] => [[c]]
        | s :: ss => (c :: s) :: ss := rfl

theorem segments_ne_nil (t : Text) : t.segments ≠ [] := by
  cases t with
  | nil => simp [segments_nil]
  | cons c cs =>
      rw [segments_cons]
      split
      · simp
      · split <;> simp

theorem join_cons {s : Text} {ss : List Text} (h : ss ≠ []) :
    join (s :: ss) = s ++ '/' :: join ss := by
  cases ss with
  | nil => exact (h rfl).elim
  | cons r rs => rfl

/-- Splitting at a slash splits the segments. -/
theorem segments_append (a b : Text) : segments (a ++ '/' :: b) = segments a ++ segments b := by
  induction a with
  | nil => simp [segments_nil, segments_cons]
  | cons c cs ih =>
      rw [List.cons_append, segments_cons, segments_cons, ih]
      split
      · rfl
      · cases h : segments cs with
        | nil => exact (segments_ne_nil cs h).elim
        | cons s ss => rfl

theorem join_append {ss rs : List Text} (hs : ss ≠ []) (hr : rs ≠ []) :
    join (ss ++ rs) = join ss ++ '/' :: join rs := by
  induction ss with
  | nil => exact (hs rfl).elim
  | cons s ss ih =>
      cases ss with
      | nil => exact join_cons hr
      | cons t ts =>
          have hne : t :: ts ≠ [] := by simp
          rw [List.cons_append, join_cons (by simp), ih hne, join_cons hne]
          simp

@[simp] theorem join_segments (t : Text) : join t.segments = t := by
  induction t with
  | nil => rfl
  | cons c cs ih =>
      rw [segments_cons]
      split
      · rename_i hc
        rw [join_cons (segments_ne_nil cs), ih, hc]
        rfl
      · cases h : segments cs with
        | nil => exact (segments_ne_nil cs h).elim
        | cons s ss =>
            rw [h] at ih
            dsimp only
            cases ss with
            | nil => rw [← ih]; rfl
            | cons r rs =>
                rw [join_cons (by simp)] at ih ⊢
                rw [List.cons_append, ih]

/-- A segment of a normalized path. -/
def NormalSegment (s : Text) : Prop := s ≠ [] ∧ s ≠ ['.'] ∧ s ≠ ['.', '.'] ∧ '\\' ∉ s

instance : DecidablePred NormalSegment := fun s =>
  inferInstanceAs (Decidable (s ≠ [] ∧ s ≠ ['.'] ∧ s ≠ ['.', '.'] ∧ '\\' ∉ s))

/-- A normalized relative path. -/
def Normal (t : Text) : Prop := ∀ s ∈ t.segments, NormalSegment s

instance : DecidablePred Normal := fun t =>
  inferInstanceAs (Decidable (∀ s ∈ t.segments, NormalSegment s))

theorem Normal.left {a b : Text} (h : Normal (a ++ '/' :: b)) : Normal a := fun s hs =>
  h s (by rw [segments_append]; exact List.mem_append_left _ hs)

theorem Normal.right {a b : Text} (h : Normal (a ++ '/' :: b)) : Normal b := fun s hs =>
  h s (by rw [segments_append]; exact List.mem_append_right _ hs)

theorem not_normal_nil : ¬ Normal [] := fun h => (h [] (by simp [segments_nil])).1 rfl

theorem Normal.ne_nil {t : Text} (h : Normal t) : t ≠ [] := by
  rintro rfl
  exact not_normal_nil h

theorem Normal.head {t : Text} (h : Normal t) : t.head? ≠ some '/' := by
  intro hhead
  cases t with
  | nil => simp at hhead
  | cons c cs =>
      obtain rfl : c = '/' := by simpa using hhead
      exact not_normal_nil (Normal.left (a := []) h)

theorem Normal.last {t : Text} (h : Normal t) : t.getLast? ≠ some '/' := by
  intro hlast
  obtain ⟨ys, rfl⟩ := List.getLast?_eq_some_iff.mp hlast
  exact not_normal_nil (Normal.right (a := ys) (b := []) h)

/-- Every character but a slash is in some segment. -/
theorem exists_segment {t : Text} {c : Char} (hc : c ∈ t) (hne : c ≠ '/') :
    ∃ s ∈ t.segments, c ∈ s := by
  induction t with
  | nil => simp at hc
  | cons d ds ih =>
      rw [segments_cons]
      rcases List.mem_cons.mp hc with rfl | hc
      · rw [if_neg hne]
        cases h : segments ds with
        | nil => exact (segments_ne_nil ds h).elim
        | cons r rs => exact ⟨c :: r, List.mem_cons_self, List.mem_cons_self⟩
      · obtain ⟨s, hs, hcs⟩ := ih hc
        split
        · exact ⟨s, List.mem_cons_of_mem _ hs, hcs⟩
        · cases h : segments ds with
          | nil => exact (segments_ne_nil ds h).elim
          | cons r rs =>
              rw [h] at hs
              rcases List.mem_cons.mp hs with rfl | hs
              · exact ⟨d :: s, List.mem_cons_self, List.mem_cons_of_mem _ hcs⟩
              · exact ⟨s, List.mem_cons_of_mem _ hs, hcs⟩

theorem Normal.no_backslash {t : Text} (h : Normal t) : '\\' ∉ t := by
  intro hc
  obtain ⟨s, hs, hcs⟩ := exists_segment hc (by decide)
  exact (h s hs).2.2.2 hcs

/-- No step up anywhere. -/
theorem Normal.no_parent {t : Text} (h : Normal t) :
    t ≠ ['.', '.'] ∧ ¬ ['.', '.', '/'] <+: t ∧ ¬ ['/', '.', '.', '/'] <:+: t := by
  refine ⟨?_, ?_, ?_⟩
  · rintro rfl
    exact (h ['.', '.'] (by decide)).2.2.1 rfl
  · rintro ⟨b, rfl⟩
    have hleft : Normal ['.', '.'] := Normal.left (b := b) h
    exact (hleft ['.', '.'] (by decide)).2.2.1 rfl
  · rintro ⟨a, b, rfl⟩
    have hsplit : a ++ ['/', '.', '.', '/'] ++ b = a ++ '/' :: (['.', '.'] ++ '/' :: b) := by simp
    rw [hsplit] at h
    exact (h.right.left ['.', '.'] (by decide)).2.2.1 rfl

theorem Normal.no_here {t : Text} (h : Normal t) : ¬ ['.', '/'] <+: t := by
  rintro ⟨b, rfl⟩
  have hleft : Normal ['.'] := Normal.left (b := b) h
  exact (hleft ['.'] (by decide)).2.1 rfl

/-- A directory with another in front of it is that one or lies below it. -/
theorem eq_or_below {root dir : Text} (h : root ++ ['/'] <+: dir ++ ['/']) :
    dir = root ∨ ∃ below, dir = root ++ '/' :: below := by
  obtain ⟨inner, hinner⟩ := h
  rcases List.eq_nil_or_concat inner with rfl | ⟨below, last, rfl⟩
  · left
    rw [List.append_nil] at hinner
    exact (List.append_cancel_right hinner).symm
  · right
    rw [List.concat_eq_append, ← List.append_assoc] at hinner
    refine ⟨below, ?_⟩
    simpa using (List.append_inj' hinner rfl).1.symm

end Text

/-- A file below the root, as a normalized relative path. -/
structure FilePath where
  text : Text
  normal : text.Normal

end AfyxGraph.Core
