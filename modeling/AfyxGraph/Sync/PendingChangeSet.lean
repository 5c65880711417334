import Mathlib.Data.List.Nodup

/-! # Pending change set

Files the watcher has seen an event for but has not yet synced, keyed by
project-relative path in first-seen order. A repeated touch keeps the position
and the first-seen time of its key, so no path occurs twice; the field `nodup`
carries that.
-/

namespace AfyxGraph.Sync

structure PendingEntry where
  firstSeenMs : Nat
  lastSeenMs : Nat
  deriving DecidableEq, Repr

structure PendingFile where
  path : String
  firstSeenMs : Nat
  lastSeenMs : Nat
  indexing : Bool
  deriving DecidableEq, Repr

structure PendingChangeSet where
  entries : List (String × PendingEntry)
  nodup : (entries.map Prod.fst).Nodup
  deriving DecidableEq

namespace PendingChangeSet

/-- `Map.set` with the first-seen time of an existing key preserved. -/
def touchEntries (path : String) (nowMs : Nat) :
    List (String × PendingEntry) → List (String × PendingEntry)
  | [] => [(path, ⟨nowMs, nowMs⟩)]
  | (key, info) :: rest =>
      if key = path then (key, ⟨info.firstSeenMs, nowMs⟩) :: rest
      else (key, info) :: touchEntries path nowMs rest

theorem mem_touchEntries_keys (path : String) (nowMs : Nat) (entries : List (String × PendingEntry))
    (key : String) :
    key ∈ (touchEntries path nowMs entries).map Prod.fst ↔
      key = path ∨ key ∈ entries.map Prod.fst := by
  induction entries with
  | nil => simp [touchEntries]
  | cons head rest ih =>
      obtain ⟨k, info⟩ := head
      by_cases hk : k = path
      · subst hk
        simp [touchEntries]
      · simp only [touchEntries, if_neg hk, List.map_cons, List.mem_cons, ih]
        exact or_left_comm

theorem touchEntries_nodup (path : String) (nowMs : Nat) (entries : List (String × PendingEntry))
    (h : (entries.map Prod.fst).Nodup) :
    ((touchEntries path nowMs entries).map Prod.fst).Nodup := by
  induction entries with
  | nil => simp [touchEntries]
  | cons head rest ih =>
      obtain ⟨k, info⟩ := head
      simp only [List.map_cons, List.nodup_cons] at h
      by_cases hk : k = path
      · simpa [touchEntries, hk] using h
      · simp only [touchEntries, if_neg hk, List.map_cons, List.nodup_cons]
        refine ⟨?_, ih h.2⟩
        rw [mem_touchEntries_keys]
        rintro (rfl | hm)
        · exact hk rfl
        · exact h.1 hm

def empty : PendingChangeSet := ⟨[], List.nodup_nil⟩

/-- Record an event for `path` at `nowMs`. -/
def touch (s : PendingChangeSet) (path : String) (nowMs : Nat) : PendingChangeSet :=
  ⟨touchEntries path nowMs s.entries, touchEntries_nodup path nowMs s.entries s.nodup⟩

def size (s : PendingChangeSet) : Nat := s.entries.length

/-- First-seen insertion order, the order a scoped sync call receives. -/
def paths (s : PendingChangeSet) : List String := s.entries.map Prod.fst

/-- Remove every entry whose most recent event is at or before `syncStartedMs`. -/
def retainTouchedAfter (s : PendingChangeSet) (syncStartedMs : Nat) : PendingChangeSet :=
  ⟨s.entries.filter (fun entry => decide (syncStartedMs < entry.2.lastSeenMs)),
    s.nodup.sublist ((List.filter_sublist).map _)⟩

def clear (_ : PendingChangeSet) : PendingChangeSet := empty

/-- Snapshot for `getPendingFiles`; `isIndexing` decides the per-entry flag. -/
def snapshot (s : PendingChangeSet) (isIndexing : PendingEntry → Bool) : List PendingFile :=
  s.entries.map fun entry =>
    ⟨entry.1, entry.2.firstSeenMs, entry.2.lastSeenMs, isIndexing entry.2⟩

/-- The path was last touched at `ms`. -/
def TouchedAt (s : PendingChangeSet) (path : String) (ms : Nat) : Prop :=
  ∃ info, (path, info) ∈ s.entries ∧ info.lastSeenMs = ms

/-! ## Sizes and membership -/

theorem size_pos_iff (s : PendingChangeSet) : 0 < s.size ↔ ∃ path, path ∈ s.paths := by
  rw [size, ← List.length_map (f := Prod.fst), List.length_pos_iff_exists_mem]
  rfl

theorem mem_paths_iff (s : PendingChangeSet) (path : String) :
    path ∈ s.paths ↔ ∃ ms, s.TouchedAt path ms := by
  simp only [paths, TouchedAt, List.mem_map, Prod.exists, exists_and_right, exists_eq_right]
  constructor
  · rintro ⟨info, h⟩
    exact ⟨info.lastSeenMs, info, h, rfl⟩
  · rintro ⟨ms, info, h, _⟩
    exact ⟨info, h⟩

@[simp] theorem mem_paths_touch (s : PendingChangeSet) (path : String) (nowMs : Nat)
    (key : String) : key ∈ (s.touch path nowMs).paths ↔ key = path ∨ key ∈ s.paths :=
  mem_touchEntries_keys path nowMs s.entries key

theorem mem_paths_retain (s : PendingChangeSet) (ms : Nat) (path : String) :
    path ∈ (s.retainTouchedAfter ms).paths ↔ ∃ last, s.TouchedAt path last ∧ ms < last := by
  simp only [paths, retainTouchedAfter, TouchedAt, List.mem_map, List.mem_filter,
    decide_eq_true_eq, Prod.exists, exists_and_right, exists_eq_right]
  constructor
  · rintro ⟨info, h, hlt⟩
    exact ⟨info.lastSeenMs, ⟨info, h, rfl⟩, hlt⟩
  · rintro ⟨last, ⟨info, h, rfl⟩, hlt⟩
    exact ⟨info, h, hlt⟩

theorem retain_paths_sub (s : PendingChangeSet) (ms : Nat) {path : String}
    (h : path ∈ (s.retainTouchedAfter ms).paths) : path ∈ s.paths := by
  obtain ⟨last, ht, _⟩ := (mem_paths_retain s ms path).mp h
  exact (mem_paths_iff s path).mpr ⟨last, ht⟩

/-- Retention never grows the set. -/
theorem size_retain_pos {s : PendingChangeSet} {ms : Nat}
    (h : 0 < (s.retainTouchedAfter ms).size) : 0 < s.size := by
  obtain ⟨path, hp⟩ := (size_pos_iff _).mp h
  exact (size_pos_iff s).mpr ⟨path, retain_paths_sub s ms hp⟩

/-- A touch dates its own path and leaves the date of every other path alone. -/
theorem touchedAt_touch (s : PendingChangeSet) (path : String) (nowMs : Nat) (key : String)
    (ms : Nat) : (s.touch path nowMs).TouchedAt key ms ↔
      (key = path ∧ ms = nowMs) ∨ (key ≠ path ∧ s.TouchedAt key ms) := by
  obtain ⟨entries, nodup⟩ := s
  simp only [TouchedAt, touch]
  induction entries with
  | nil =>
      simp only [touchEntries, List.mem_singleton, Prod.mk.injEq, List.not_mem_nil, false_and,
        exists_false, and_false, or_false]
      constructor
      · rintro ⟨info, ⟨rfl, rfl⟩, rfl⟩
        exact ⟨rfl, rfl⟩
      · rintro ⟨rfl, rfl⟩
        exact ⟨⟨ms, ms⟩, ⟨rfl, rfl⟩, rfl⟩
  | cons head rest ih =>
      obtain ⟨k, info⟩ := head
      simp only [List.map_cons, List.nodup_cons] at nodup
      by_cases hk : k = path
      · subst hk
        have habsent : ∀ e, (k, e) ∉ rest := fun e he =>
          nodup.1 (List.mem_map.mpr ⟨(k, e), he, rfl⟩)
        simp only [touchEntries, if_pos, List.mem_cons, Prod.mk.injEq]
        constructor
        · rintro ⟨e, ⟨rfl, rfl⟩ | he, rfl⟩
          · exact Or.inl ⟨rfl, rfl⟩
          · refine Or.inr ⟨?_, e, Or.inr he, rfl⟩
            rintro rfl
            exact habsent e he
        · rintro (⟨rfl, rfl⟩ | ⟨hne, e, ⟨rfl, _⟩ | he, rfl⟩)
          · exact ⟨_, Or.inl ⟨rfl, rfl⟩, rfl⟩
          · exact (hne rfl).elim
          · exact ⟨e, Or.inr he, rfl⟩
      · simp only [touchEntries, if_neg hk, List.mem_cons, Prod.mk.injEq]
        have ih' := ih nodup.2
        constructor
        · rintro ⟨e, ⟨rfl, rfl⟩ | he, rfl⟩
          · exact Or.inr ⟨hk, e, Or.inl ⟨rfl, rfl⟩, rfl⟩
          · rcases ih'.mp ⟨e, he, rfl⟩ with h | ⟨hne, e', he', hms⟩
            · exact Or.inl h
            · exact Or.inr ⟨hne, e', Or.inr he', hms⟩
        · rintro (h | ⟨hne, e, ⟨rfl, rfl⟩ | he, rfl⟩)
          · obtain ⟨e, he, hms⟩ := ih'.mpr (Or.inl h)
            exact ⟨e, Or.inr he, hms⟩
          · exact ⟨e, Or.inl ⟨rfl, rfl⟩, rfl⟩
          · obtain ⟨e', he', hms⟩ := ih'.mpr (Or.inr ⟨hne, e, he, rfl⟩)
            exact ⟨e', Or.inr he', hms⟩

/-- A path has one date. -/
theorem touchedAt_unique {s : PendingChangeSet} {path : String} {ms ms' : Nat}
    (h : s.TouchedAt path ms) (h' : s.TouchedAt path ms') : ms = ms' := by
  obtain ⟨info, hm, rfl⟩ := h
  obtain ⟨info', hm', rfl⟩ := h'
  have heq : (path, info) = (path, info') := List.inj_on_of_nodup_map s.nodup hm hm' rfl
  cases heq
  rfl

end PendingChangeSet

end AfyxGraph.Sync
