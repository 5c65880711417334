import Mathlib.Data.List.Basic

/-! # Nested transactions that join

A connection with one transaction at most. A transaction opened inside another one joins it:
only the outermost boundary commits or rolls back, and it rolls back to what `BEGIN` found.
-/

namespace AfyxGraph.Core

universe u

/-- `saved` is what the outermost `BEGIN` found. -/
structure Session (δ : Type u) where
  data : δ
  saved : Option δ := none
  depth : Nat := 0
  deriving DecidableEq

namespace Session

variable {δ : Type u}

/-- A transaction begins, or joins the one that is open. -/
def enter (s : Session δ) : Session δ :=
  { s with saved := if s.depth = 0 then some s.data else s.saved, depth := s.depth + 1 }

/-- It ends; the outermost one commits. -/
def leave (s : Session δ) : Session δ :=
  { s with saved := if s.depth = 1 then none else s.saved, depth := s.depth - 1 }

/-- It throws; the outermost one rolls back. -/
def fail (s : Session δ) : Session δ where
  data := if s.depth = 1 then s.saved.getD s.data else s.data
  saved := if s.depth = 1 then none else s.saved
  depth := s.depth - 1

/-- What the connection writes. -/
def write (s : Session δ) (f : δ → δ) : Session δ := { s with data := f s.data }

/-- What other connections see. -/
def committed (s : Session δ) : δ := s.saved.getD s.data

/-- There is something to roll back to exactly inside a transaction. -/
def WellFormed (s : Session δ) : Prop := s.saved.isSome = true ↔ 0 < s.depth

variable {s : Session δ}

@[simp] theorem enter_data : s.enter.data = s.data := rfl

@[simp] theorem leave_data : s.leave.data = s.data := rfl

@[simp] theorem write_data (f : δ → δ) : (s.write f).data = f s.data := rfl

@[simp] theorem enter_depth : s.enter.depth = s.depth + 1 := rfl

@[simp] theorem leave_depth : s.leave.depth = s.depth - 1 := rfl

@[simp] theorem fail_depth : s.fail.depth = s.depth - 1 := rfl

@[simp] theorem write_depth (f : δ → δ) : (s.write f).depth = s.depth := rfl

theorem fail_data_of_ne (h : s.depth ≠ 1) : s.fail.data = s.data := if_neg h

theorem WellFormed.enter (h : s.WellFormed) : s.enter.WellFormed := by
  simp only [WellFormed, Session.enter] at h ⊢
  by_cases hdepth : s.depth = 0
  · simp [hdepth]
  · simp only [hdepth, if_false, h]
    omega

theorem WellFormed.leave (h : s.WellFormed) : s.leave.WellFormed := by
  simp only [WellFormed, Session.leave] at h ⊢
  by_cases hdepth : s.depth = 1
  · simp [hdepth]
  · simp only [hdepth, if_false, h]
    omega

theorem WellFormed.fail (h : s.WellFormed) : s.fail.WellFormed := by
  simp only [WellFormed, Session.fail] at h ⊢
  by_cases hdepth : s.depth = 1
  · simp [hdepth]
  · simp only [hdepth, if_false, h]
    omega

theorem WellFormed.write (h : s.WellFormed) (f : δ → δ) : (s.write f).WellFormed := h

/-- A transaction of its own that throws leaves the data as they were. -/
theorem fail_write_enter (f : δ → δ) (h : s.depth = 0) :
    ((s.enter.write f).fail).data = s.data := by
  simp [fail, enter, write, h]

/-- One that has joined leaves what it has written. -/
theorem fail_write_enter_of_pos (f : δ → δ) (h : 0 < s.depth) :
    ((s.enter.write f).fail).data = f s.data := by
  rw [fail_data_of_ne]
  · rfl
  · simp only [write_depth, enter_depth]
    omega

/-- A transaction that throws restores `saved` and `depth`. -/
theorem saved_fail_write_enter (h : s.WellFormed) (f : δ → δ) :
    ((s.enter.write f).fail).saved = s.saved := by
  by_cases hdepth : s.depth = 0
  · have hnone : s.saved = none := by
      rw [WellFormed, hdepth] at h
      simpa using h
    simp [fail, enter, write, hdepth, hnone]
  · simp [fail, enter, write, hdepth]

theorem saved_leave_write_enter (h : s.WellFormed) (f : δ → δ) :
    ((s.enter.write f).leave).saved = s.saved := by
  by_cases hdepth : s.depth = 0
  · have hnone : s.saved = none := by
      rw [WellFormed, hdepth] at h
      simpa using h
    simp [leave, enter, write, hdepth, hnone]
  · simp [leave, enter, write, hdepth]

end Session

end AfyxGraph.Core
