import Mathlib.Data.List.Induction

/-! # Rows with a key

Lists of rows in insertion order under a unique key, with the two ways a
conflicting insert can go: the new row is ignored, or it replaces the old one.
Which row of a batch survives is a question about positions: the first with its
key under the one rule, the last with its key under the other.
-/

namespace AfyxGraph.Core

universe u v

variable {α : Type u} {κ : Type v}

/-! ## First and last -/

/-- `row` satisfies `p` and no row before it does. -/
def FirstWith (p : α → Prop) (rows : List α) (row : α) : Prop :=
  ∃ before after, rows = before ++ row :: after ∧ p row ∧ ∀ r ∈ before, ¬ p r

/-- `row` satisfies `p` and no row after it does. -/
def LastWith (p : α → Prop) (rows : List α) (row : α) : Prop :=
  ∃ before after, rows = before ++ row :: after ∧ p row ∧ ∀ r ∈ after, ¬ p r

theorem FirstWith.mem {p : α → Prop} {rows : List α} {row : α} (h : FirstWith p rows row) :
    row ∈ rows := by
  obtain ⟨before, after, rfl, _⟩ := h
  simp

theorem LastWith.mem {p : α → Prop} {rows : List α} {row : α} (h : LastWith p rows row) :
    row ∈ rows := by
  obtain ⟨before, after, rfl, _⟩ := h
  simp

theorem LastWith.holds {p : α → Prop} {rows : List α} {row : α} (h : LastWith p rows row) :
    p row := by
  obtain ⟨before, after, _, hp, _⟩ := h
  exact hp

theorem not_lastWith_nil {p : α → Prop} {row : α} : ¬ LastWith p [] row := by
  intro h
  simpa using h.mem

theorem not_firstWith_nil {p : α → Prop} {row : α} : ¬ FirstWith p [] row := by
  intro h
  simpa using h.mem

/-- The first row of a list extended at its end. -/
theorem firstWith_append_singleton {p : α → Prop} {rows : List α} {last row : α} :
    FirstWith p (rows ++ [last]) row ↔
      FirstWith p rows row ∨ (row = last ∧ p row ∧ ∀ r ∈ rows, ¬ p r) := by
  constructor
  · rintro ⟨before, after, h, hp, hbefore⟩
    rcases List.eq_nil_or_concat after with rfl | ⟨after', x, rfl⟩
    · obtain ⟨rfl, hx⟩ := List.append_inj' h rfl
      cases hx
      exact Or.inr ⟨rfl, hp, hbefore⟩
    · rw [List.concat_eq_append, ← List.cons_append, ← List.append_assoc] at h
      obtain ⟨rfl, _⟩ := List.append_inj' h rfl
      exact Or.inl ⟨before, after', rfl, hp, hbefore⟩
  · rintro (⟨before, after, rfl, hp, hbefore⟩ | ⟨rfl, hp, hnone⟩)
    · exact ⟨before, after ++ [last], by simp, hp, hbefore⟩
    · exact ⟨rows, [], rfl, hp, hnone⟩

theorem firstWith_append {p : α → Prop} {rows more : List α} {row : α} :
    FirstWith p (rows ++ more) row ↔
      FirstWith p rows row ∨ ((∀ r ∈ rows, ¬ p r) ∧ FirstWith p more row) := by
  induction more using List.reverseRecOn with
  | nil => simp [FirstWith]
  | append_singleton more last ih =>
      rw [← List.append_assoc, firstWith_append_singleton, firstWith_append_singleton, ih]
      constructor
      · rintro ((h | ⟨hnone, h⟩) | ⟨rfl, hp, hnone⟩)
        · exact Or.inl h
        · exact Or.inr ⟨hnone, Or.inl h⟩
        · exact Or.inr ⟨fun r hr => hnone r (List.mem_append_left _ hr),
            Or.inr ⟨rfl, hp, fun r hr => hnone r (List.mem_append_right _ hr)⟩⟩
      · rintro (h | ⟨hnone, h | ⟨rfl, hp, hmore⟩⟩)
        · exact Or.inl (Or.inl h)
        · exact Or.inl (Or.inr ⟨hnone, h⟩)
        · refine Or.inr ⟨rfl, hp, fun r hr => ?_⟩
          rcases List.mem_append.mp hr with hr | hr
          · exact hnone r hr
          · exact hmore r hr

/-- The first image comes from the first row whose image satisfies `p`. -/
theorem firstWith_filterMap {β : Type v} {f : β → Option α} {p : α → Prop} {rows : List β}
    {image : α} : FirstWith p (rows.filterMap f) image ↔
      ∃ row, f row = some image ∧ FirstWith (fun r => ∃ i, f r = some i ∧ p i) rows row := by
  induction rows using List.reverseRecOn with
  | nil => simp [not_firstWith_nil]
  | append_singleton rows last ih =>
      have hnone : (∀ r ∈ rows.filterMap f, ¬ p r) ↔ ∀ r ∈ rows, ¬ ∃ i, f r = some i ∧ p i := by
        constructor
        · rintro h r hr ⟨i, hi, hp⟩
          exact h i (List.mem_filterMap.mpr ⟨r, hr, hi⟩) hp
        · intro h i hi hp
          obtain ⟨r, hr, hf⟩ := List.mem_filterMap.mp hi
          exact h r hr ⟨i, hf, hp⟩
      rw [List.filterMap_append, firstWith_append, ih]
      simp only [firstWith_append_singleton]
      cases hlast : f last with
      | none =>
          rw [List.filterMap_cons_none hlast]
          constructor
          · rintro (⟨row, hrow, h⟩ | ⟨_, h⟩)
            · exact ⟨row, hrow, Or.inl h⟩
            · exact (not_firstWith_nil h).elim
          · rintro ⟨row, hrow, h | ⟨rfl, _⟩⟩
            · exact Or.inl ⟨row, hrow, h⟩
            · rw [hlast] at hrow
              cases hrow
      | some i =>
          rw [List.filterMap_cons_some hlast, hnone]
          constructor
          · rintro (⟨row, hrow, h⟩ | ⟨hno, h⟩)
            · exact ⟨row, hrow, Or.inl h⟩
            · obtain ⟨before, after, hsplit, hp, _⟩ := h
              obtain ⟨rfl, rfl, _⟩ : before = [] ∧ i = image ∧ after = [] := by
                cases before with
                | nil => simpa using hsplit
                | cons b before => simp at hsplit
              exact ⟨last, hlast, Or.inr ⟨rfl, ⟨i, hlast, hp⟩, hno⟩⟩
          · rintro ⟨row, hrow, h | ⟨rfl, ⟨j, hj, hp⟩, hno⟩⟩
            · exact Or.inl ⟨row, hrow, h⟩
            · rw [hlast] at hrow hj
              cases hrow
              cases hj
              exact Or.inr ⟨hno, [], [], rfl, hp, by simp⟩

/-- The last row of a list extended at its end. -/
theorem lastWith_append_singleton {p : α → Prop} {rows : List α} {last row : α} :
    LastWith p (rows ++ [last]) row ↔ (row = last ∧ p row) ∨ (¬ p last ∧ LastWith p rows row) := by
  constructor
  · rintro ⟨before, after, h, hp, hafter⟩
    rcases List.eq_nil_or_concat after with rfl | ⟨after', x, rfl⟩
    · obtain ⟨rfl, hx⟩ := List.append_inj' h rfl
      cases hx
      exact Or.inl ⟨rfl, hp⟩
    · rw [List.concat_eq_append, ← List.cons_append, ← List.append_assoc] at h
      obtain ⟨rfl, hx⟩ := List.append_inj' h rfl
      cases hx
      exact Or.inr ⟨hafter last (by simp),
        before, after', rfl, hp, fun r hr => hafter r (by simp [hr])⟩
  · rintro (⟨rfl, hp⟩ | ⟨hlast, before, after, rfl, hp, hafter⟩)
    · exact ⟨rows, [], rfl, hp, by simp⟩
    · refine ⟨before, after ++ [last], by simp, hp, fun r hr => ?_⟩
      rcases List.mem_append.mp hr with hr | hr
      · exact hafter r hr
      · rw [List.mem_singleton.mp hr]
        exact hlast

theorem LastWith.unique {p : α → Prop} {rows : List α} {row other : α} (h : LastWith p rows row)
    (h' : LastWith p rows other) : row = other := by
  induction rows using List.reverseRecOn with
  | nil => exact (not_lastWith_nil h).elim
  | append_singleton rows last ih =>
      rcases lastWith_append_singleton.mp h with ⟨rfl, hp⟩ | ⟨hlast, h⟩
      · rcases lastWith_append_singleton.mp h' with ⟨rfl, _⟩ | ⟨hnot, _⟩
        · rfl
        · exact (hnot hp).elim
      · rcases lastWith_append_singleton.mp h' with ⟨rfl, hp⟩ | ⟨_, h'⟩
        · exact (hlast hp).elim
        · exact ih h h'

/-- Where some row satisfies `p`, one of them is the last. -/
theorem exists_lastWith {p : α → Prop} {rows : List α} {row : α} (hr : row ∈ rows) (hp : p row) :
    ∃ last, LastWith p rows last := by
  induction rows using List.reverseRecOn with
  | nil => simp at hr
  | append_singleton rows last ih =>
      by_cases hlast : p last
      · exact ⟨last, lastWith_append_singleton.mpr (Or.inl ⟨rfl, hlast⟩)⟩
      · rcases List.mem_append.mp hr with hr | hr
        · obtain ⟨found, h⟩ := ih hr
          exact ⟨found, lastWith_append_singleton.mpr (Or.inr ⟨hlast, h⟩)⟩
        · rw [List.mem_singleton.mp hr] at hp
          exact (hlast hp).elim

/-! ## `INSERT OR IGNORE` -/

section Ignore

variable [DecidableEq κ] (key : α → κ)

def insertOrIgnore (rows : List α) (row : α) : List α :=
  if ∃ r ∈ rows, key r = key row then rows else rows ++ [row]

def insertAllOrIgnore (rows new : List α) : List α := new.foldl (insertOrIgnore key) rows

theorem insertAllOrIgnore_append (rows new more : List α) :
    insertAllOrIgnore key rows (new ++ more) =
      insertAllOrIgnore key (insertAllOrIgnore key rows new) more := by
  simp [insertAllOrIgnore]

theorem insertAllOrIgnore_concat (rows new : List α) (row : α) :
    insertAllOrIgnore key rows (new ++ [row]) =
      insertOrIgnore key (insertAllOrIgnore key rows new) row := by
  simp [insertAllOrIgnore]

variable {key}

theorem mem_insertOrIgnore {rows : List α} {row r : α} :
    r ∈ insertOrIgnore key rows row ↔ r ∈ rows ∨ (r = row ∧ ∀ s ∈ rows, key s ≠ key row) := by
  unfold insertOrIgnore
  split
  · rename_i h
    obtain ⟨s, hs, hkey⟩ := h
    constructor
    · exact Or.inl
    · rintro (hr | ⟨_, hnone⟩)
      · exact hr
      · exact (hnone s hs hkey).elim
  · rename_i h
    have hnone : ∀ s ∈ rows, key s ≠ key row := fun s hs hkey => h ⟨s, hs, hkey⟩
    simp only [List.mem_append, List.mem_singleton]
    constructor
    · rintro (hr | hr)
      · exact Or.inl hr
      · exact Or.inr ⟨hr, hnone⟩
    · rintro (hr | ⟨hr, _⟩)
      · exact Or.inl hr
      · exact Or.inr hr

/-- Every key that comes in is there afterwards. -/
theorem exists_key_insertAllOrIgnore {rows new : List α} {row : α} (h : row ∈ rows ++ new) :
    ∃ r ∈ insertAllOrIgnore key rows new, key r = key row := by
  induction new using List.reverseRecOn with
  | nil => exact ⟨row, by simpa [insertAllOrIgnore] using h, rfl⟩
  | append_singleton new last ih =>
      rw [insertAllOrIgnore_concat]
      rw [← List.append_assoc, List.mem_append] at h
      rcases h with h | h
      · obtain ⟨r, hr, hkey⟩ := ih h
        exact ⟨r, mem_insertOrIgnore.mpr (Or.inl hr), hkey⟩
      · rw [List.mem_singleton.mp h]
        by_cases hold : ∃ r ∈ insertAllOrIgnore key rows new, key r = key last
        · obtain ⟨r, hr, hkey⟩ := hold
          exact ⟨r, mem_insertOrIgnore.mpr (Or.inl hr), hkey⟩
        · refine ⟨last, mem_insertOrIgnore.mpr (Or.inr ⟨rfl, fun s hs hkey => ?_⟩), rfl⟩
          exact hold ⟨s, hs, hkey⟩

theorem mem_of_mem_insertAllOrIgnore {rows new : List α} {row : α}
    (h : row ∈ insertAllOrIgnore key rows new) : row ∈ rows ∨ row ∈ new := by
  induction new using List.reverseRecOn with
  | nil => exact Or.inl h
  | append_singleton new last ih =>
      rw [insertAllOrIgnore_concat, mem_insertOrIgnore] at h
      rcases h with h | ⟨rfl, _⟩
      · exact (ih h).imp id fun hnew => List.mem_append_left _ hnew
      · exact Or.inr (by simp)

/-- A row that comes in stays when its key is new and it is the first with it. -/
theorem mem_insertAllOrIgnore {rows new : List α} {row : α} :
    row ∈ insertAllOrIgnore key rows new ↔ row ∈ rows ∨
      ((∀ r ∈ rows, key r ≠ key row) ∧ FirstWith (fun r => key r = key row) new row) := by
  induction new using List.reverseRecOn with
  | nil => simp [insertAllOrIgnore, not_firstWith_nil]
  | append_singleton new last ih =>
      rw [insertAllOrIgnore_concat, mem_insertOrIgnore, ih, firstWith_append_singleton]
      constructor
      · rintro ((hr | ⟨hnone, hfirst⟩) | ⟨rfl, hnone⟩)
        · exact Or.inl hr
        · exact Or.inr ⟨hnone, Or.inl hfirst⟩
        · have hno : ∀ r ∈ rows ++ new, key r ≠ key row := fun r hr hkey => by
            obtain ⟨s, hs, hsame⟩ := @exists_key_insertAllOrIgnore _ _ _ key _ _ _ hr
            exact hnone s hs (hsame.trans hkey)
          exact Or.inr ⟨fun r hr => hno r (by simp [hr]), Or.inr ⟨rfl, rfl, fun r hr =>
            hno r (by simp [hr])⟩⟩
      · rintro (hr | ⟨hnone, hfirst | ⟨rfl, _, hnew⟩⟩)
        · exact Or.inl (Or.inl hr)
        · exact Or.inl (Or.inr ⟨hnone, hfirst⟩)
        · refine Or.inr ⟨rfl, fun s hs => ?_⟩
          rcases mem_of_mem_insertAllOrIgnore hs with hs | hs
          · exact hnone s hs
          · exact hnew s hs

theorem nodup_insertAllOrIgnore {rows new : List α} (h : (rows.map key).Nodup) :
    ((insertAllOrIgnore key rows new).map key).Nodup := by
  induction new using List.reverseRecOn with
  | nil => exact h
  | append_singleton new last ih =>
      rw [insertAllOrIgnore_concat]
      unfold insertOrIgnore
      split
      · exact ih
      · rename_i hnone
        rw [List.map_append, List.nodup_append]
        refine ⟨ih, by simp, fun a ha b hb => ?_⟩
        obtain ⟨r, hr, rfl⟩ := List.mem_map.mp ha
        rw [List.map_singleton, List.mem_singleton] at hb
        rintro rfl
        exact hnone ⟨r, hr, hb⟩

end Ignore

end AfyxGraph.Core
