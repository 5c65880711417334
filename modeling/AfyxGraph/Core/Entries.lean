import Mathlib.Data.List.Basic

/-! # Entries in the order they were first set

An association list in which setting a key replaces its value where it stands, or adds the
key at the end.
-/

namespace AfyxGraph.Core

universe u v

variable {κ : Type u} {α : Type v} [DecidableEq κ]

def setEntry : List (κ × α) → κ → α → List (κ × α)
  | [], key, value => [(key, value)]
  | (key', value') :: rest, key, value =>
      if key' = key then (key, value) :: rest else (key', value') :: setEntry rest key value

@[simp] theorem setEntry_nil (key : κ) (value : α) : setEntry [] key value = [(key, value)] := rfl

theorem setEntry_cons_self (key : κ) (old value : α) (rest : List (κ × α)) :
    setEntry ((key, old) :: rest) key value = (key, value) :: rest := by simp [setEntry]

theorem setEntry_cons_ne {key other : κ} (old value : α) (rest : List (κ × α)) (h : other ≠ key) :
    setEntry ((other, old) :: rest) key value = (other, old) :: setEntry rest key value := by
  simp [setEntry, h]

theorem mem_keys_setEntry (entries : List (κ × α)) (key other : κ) (value : α) :
    other ∈ (setEntry entries key value).map Prod.fst ↔
      other = key ∨ other ∈ entries.map Prod.fst := by
  induction entries with
  | nil => simp
  | cons entry rest ih =>
      obtain ⟨key', value'⟩ := entry
      by_cases h : key' = key
      · subst h
        simp [setEntry_cons_self]
      · rw [setEntry_cons_ne _ _ _ h]
        simp only [List.map_cons, List.mem_cons, ih]
        exact or_left_comm

theorem mem_setEntry {entries : List (κ × α)} {key : κ} {value : α} {entry : κ × α}
    (h : entry ∈ setEntry entries key value) :
    entry = (key, value) ∨ entry ∈ entries := by
  induction entries with
  | nil => exact .inl (by simpa using h)
  | cons first rest ih =>
      obtain ⟨key', value'⟩ := first
      by_cases hkey : key' = key
      · subst hkey
        rw [setEntry_cons_self] at h
        rcases List.mem_cons.mp h with rfl | hrest
        · exact .inl rfl
        · exact .inr (List.mem_cons_of_mem _ hrest)
      · rw [setEntry_cons_ne _ _ _ hkey] at h
        rcases List.mem_cons.mp h with rfl | hrest
        · exact .inr (List.mem_cons_self ..)
        · exact (ih hrest).imp id (List.mem_cons_of_mem _)

/-- Setting an entry keeps the keys distinct. -/
theorem nodup_keys_setEntry {entries : List (κ × α)} (h : (entries.map Prod.fst).Nodup) (key : κ)
    (value : α) : ((setEntry entries key value).map Prod.fst).Nodup := by
  induction entries with
  | nil => simp
  | cons entry rest ih =>
      obtain ⟨key', value'⟩ := entry
      rw [List.map_cons, List.nodup_cons] at h
      by_cases hkey : key' = key
      · subst hkey
        rw [setEntry_cons_self, List.map_cons, List.nodup_cons]
        exact h
      · rw [setEntry_cons_ne _ _ _ hkey, List.map_cons, List.nodup_cons]
        refine ⟨fun hmem => ?_, ih h.2⟩
        rcases (mem_keys_setEntry rest key key' value).mp hmem with heq | hrest
        · exact hkey heq
        · exact h.1 hrest

theorem setEntry_of_not_mem {entries : List (κ × α)} {key : κ} (value : α)
    (h : key ∉ entries.map Prod.fst) : setEntry entries key value = entries ++ [(key, value)] := by
  induction entries with
  | nil => rfl
  | cons entry rest ih =>
      obtain ⟨key', value'⟩ := entry
      simp only [List.map_cons, List.mem_cons, not_or] at h
      rw [setEntry_cons_ne _ _ _ (Ne.symm h.1), ih h.2]
      rfl

theorem setEntry_setEntry (entries : List (κ × α)) (key : κ) (old value : α) :
    setEntry (setEntry entries key old) key value = setEntry entries key value := by
  induction entries with
  | nil => simp [setEntry_cons_self]
  | cons entry rest ih =>
      obtain ⟨key', value'⟩ := entry
      by_cases h : key' = key
      · subst h
        simp [setEntry_cons_self]
      · simp only [setEntry_cons_ne _ _ _ h, ih]

/-- A key that is there can be set before or after another. -/
theorem setEntry_comm {entries : List (κ × α)} {key other : κ} (value more : α)
    (hne : other ≠ key) (hmem : key ∈ entries.map Prod.fst) :
    setEntry (setEntry entries key value) other more =
      setEntry (setEntry entries other more) key value := by
  induction entries with
  | nil => cases hmem
  | cons entry rest ih =>
      obtain ⟨key', value'⟩ := entry
      by_cases h : key' = key
      · subst h
        rw [setEntry_cons_self, setEntry_cons_ne _ _ _ (Ne.symm hne),
          setEntry_cons_ne _ _ _ (Ne.symm hne), setEntry_cons_self]
      · have hrest : key ∈ rest.map Prod.fst := by
          simpa [Ne.symm h] using hmem
        rw [setEntry_cons_ne _ _ _ h]
        by_cases h' : key' = other
        · subst h'
          rw [setEntry_cons_self, setEntry_cons_self, setEntry_cons_ne _ _ _ h]
        · rw [setEntry_cons_ne _ _ _ h', setEntry_cons_ne _ _ _ h', setEntry_cons_ne _ _ _ h,
            ih hrest]

/-- The entry that is set, and the entries of the other keys. -/
theorem perm_setEntry {entries : List (κ × α)} (h : (entries.map Prod.fst).Nodup) (key : κ)
    (value : α) :
    (setEntry entries key value).Perm ((key, value) :: entries.filter (·.1 ≠ key)) := by
  induction entries with
  | nil => simp
  | cons entry rest ih =>
      obtain ⟨key', value'⟩ := entry
      rw [List.map_cons, List.nodup_cons] at h
      by_cases hkey : key' = key
      · subst hkey
        have hothers : rest.filter (·.1 ≠ key') = rest := by
          refine List.filter_eq_self.mpr fun other hother => ?_
          have hne : other.1 ≠ key' := fun heq => h.1 (List.mem_map.mpr ⟨other, hother, heq⟩)
          simpa using hne
        rw [setEntry_cons_self, List.filter_cons_of_neg (by simp), hothers]
      · rw [setEntry_cons_ne _ _ _ hkey, List.filter_cons_of_pos (by simpa using hkey)]
        exact ((ih h.2).cons _).trans (List.Perm.swap ..)

/-! ## Removing a key -/

def removeEntry (entries : List (κ × α)) (key : κ) : List (κ × α) :=
  entries.filter (·.1 ≠ key)

theorem removeEntry_cons_self (key : κ) (value : α) (rest : List (κ × α)) :
    removeEntry ((key, value) :: rest) key = removeEntry rest key := by simp [removeEntry]

theorem removeEntry_cons_ne {key other : κ} (value : α) (rest : List (κ × α)) (h : other ≠ key) :
    removeEntry ((other, value) :: rest) key = (other, value) :: removeEntry rest key := by
  simp [removeEntry, h]

theorem removeEntry_setEntry_self (entries : List (κ × α)) (key : κ) (value : α) :
    removeEntry (setEntry entries key value) key = removeEntry entries key := by
  induction entries with
  | nil => simp [removeEntry]
  | cons entry rest ih =>
      obtain ⟨key', value'⟩ := entry
      by_cases h : key' = key
      · subst h
        rw [setEntry_cons_self, removeEntry_cons_self, removeEntry_cons_self]
      · rw [setEntry_cons_ne _ _ _ h, removeEntry_cons_ne _ _ h, removeEntry_cons_ne _ _ h, ih]

theorem removeEntry_setEntry_ne (entries : List (κ × α)) {key other : κ} (value : α)
    (hne : other ≠ key) : removeEntry (setEntry entries other value) key =
      setEntry (removeEntry entries key) other value := by
  induction entries with
  | nil => simp [removeEntry, hne]
  | cons entry rest ih =>
      obtain ⟨key', value'⟩ := entry
      by_cases h : key' = key
      · subst h
        rw [setEntry_cons_ne _ _ _ (Ne.symm hne), removeEntry_cons_self, removeEntry_cons_self, ih]
      · rw [removeEntry_cons_ne _ _ h]
        by_cases h' : key' = other
        · subst h'
          rw [setEntry_cons_self, setEntry_cons_self, removeEntry_cons_ne _ _ h]
        · rw [setEntry_cons_ne _ _ _ h', setEntry_cons_ne _ _ _ h', removeEntry_cons_ne _ _ h, ih]

section Lookup

variable [BEq κ] [LawfulBEq κ]

theorem lookup_setEntry_self (entries : List (κ × α)) (key : κ) (value : α) :
    (setEntry entries key value).lookup key = some value := by
  induction entries with
  | nil => simp
  | cons entry rest ih =>
      obtain ⟨key', value'⟩ := entry
      by_cases h : key' = key
      · subst h
        simp [setEntry_cons_self]
      · have hbeq : (key == key') = false := beq_eq_false_iff_ne.mpr (Ne.symm h)
        rw [setEntry_cons_ne _ _ _ h, List.lookup_cons, hbeq]
        exact ih

theorem setEntry_lookup_self {entries : List (κ × α)} {key : κ} {value : α}
    (h : entries.lookup key = some value) : setEntry entries key value = entries := by
  induction entries with
  | nil => cases h
  | cons entry rest ih =>
      obtain ⟨key', value'⟩ := entry
      by_cases hkey : key' = key
      · subst hkey
        rw [List.lookup_cons_self] at h
        rw [setEntry_cons_self, Option.some.inj h]
      · have hbeq : (key == key') = false := beq_eq_false_iff_ne.mpr (Ne.symm hkey)
        rw [List.lookup_cons, hbeq] at h
        rw [setEntry_cons_ne _ _ _ hkey, ih h]

theorem lookup_setEntry_ne (entries : List (κ × α)) {key other : κ} (value : α)
    (hne : other ≠ key) : (setEntry entries key value).lookup other = entries.lookup other := by
  have hbeq : (other == key) = false := beq_eq_false_iff_ne.mpr hne
  induction entries with
  | nil => simp [List.lookup_cons, hbeq]
  | cons entry rest ih =>
      obtain ⟨key', value'⟩ := entry
      by_cases h : key' = key
      · subst h
        rw [setEntry_cons_self, List.lookup_cons, List.lookup_cons, hbeq]
      · rw [setEntry_cons_ne _ _ _ h, List.lookup_cons, List.lookup_cons, ih]

/-- Setting the entries of a table one by one. -/
theorem lookup_foldl_setEntry {β : Type v} (f : β → α) {table : List (κ × β)}
    (hkeys : (table.map Prod.fst).Nodup) (entries : List (κ × α)) (key : κ) :
    (table.foldl (fun entries e => setEntry entries e.1 (f e.2)) entries).lookup key =
      ((table.lookup key).map f).or (entries.lookup key) := by
  induction table generalizing entries with
  | nil => rfl
  | cons e table ih =>
      obtain ⟨key', value⟩ := e
      rw [List.map_cons, List.nodup_cons] at hkeys
      rw [List.foldl_cons, ih hkeys.2, List.lookup_cons]
      by_cases h : key = key'
      · subst h
        have hnone : table.lookup key = none := by
          rw [List.lookup_eq_none_iff]
          intro e he
          have hne : key ≠ e.1 := by
            rintro rfl
            exact hkeys.1 (List.mem_map.mpr ⟨e, he, rfl⟩)
          simpa using hne
        rw [hnone, lookup_setEntry_self]
        simp
      · have hbeq : (key == key') = false := beq_eq_false_iff_ne.mpr h
        rw [lookup_setEntry_ne _ _ h, hbeq]

theorem removeEntry_eq_self {entries : List (κ × α)} {key : κ} (h : entries.lookup key = none) :
    removeEntry entries key = entries := by
  refine List.filter_eq_self.mpr fun entry hentry => ?_
  have hne : entry.1 ≠ key := by
    rintro rfl
    simpa using List.lookup_eq_none_iff.mp h entry hentry
  simpa using hne

theorem lookup_removeEntry_self (entries : List (κ × α)) (key : κ) :
    (removeEntry entries key).lookup key = none := by
  induction entries with
  | nil => rfl
  | cons entry rest ih =>
      obtain ⟨key', value'⟩ := entry
      by_cases h : key' = key
      · subst h
        rwa [removeEntry_cons_self]
      · have hbeq : (key == key') = false := beq_eq_false_iff_ne.mpr (Ne.symm h)
        rw [removeEntry_cons_ne _ _ h, List.lookup_cons, hbeq]
        exact ih

theorem lookup_removeEntry_ne (entries : List (κ × α)) {key other : κ} (hne : other ≠ key) :
    (removeEntry entries key).lookup other = entries.lookup other := by
  induction entries with
  | nil => rfl
  | cons entry rest ih =>
      obtain ⟨key', value'⟩ := entry
      by_cases h : key' = key
      · subst h
        have hbeq : (other == key') = false := beq_eq_false_iff_ne.mpr hne
        rw [removeEntry_cons_self, List.lookup_cons, hbeq]
        exact ih
      · rw [removeEntry_cons_ne _ _ h, List.lookup_cons, List.lookup_cons, ih]

end Lookup

end AfyxGraph.Core
