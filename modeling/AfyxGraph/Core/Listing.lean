import Mathlib.Data.List.Basic

/-! # Directory trees

A directory is the listing of its entries, files and directories with their own listings. A path
is the list of the names that lead to an entry.
-/

namespace AfyxGraph.Core

universe u

inductive Listing (N : Type u) where
  | nil
  | file (name : N) (rest : Listing N)
  | dir (name : N) (inside rest : Listing N)

namespace Listing

variable {N : Type u} {l inside : Listing N} {name : N} {path below : List N}

def names : Listing N → List N
  | nil => []
  | file name rest => name :: rest.names
  | dir name _ rest => name :: rest.names

/-- No directory has two entries of one name. -/
def Distinct : Listing N → Prop
  | nil => True
  | file name rest => name ∉ rest.names ∧ rest.Distinct
  | dir name inside rest => name ∉ rest.names ∧ inside.Distinct ∧ rest.Distinct

/-- Every entry, at whatever depth, has a name of this kind. -/
def Named (p : N → Prop) : Listing N → Prop
  | nil => True
  | file name rest => p name ∧ rest.Named p
  | dir name inside rest => p name ∧ inside.Named p ∧ rest.Named p

def HasFile : Listing N → List N → Prop
  | nil, _ => False
  | file name rest, path => path = [name] ∨ rest.HasFile path
  | dir name inside rest, path =>
      (∃ below, path = name :: below ∧ inside.HasFile below) ∨ rest.HasFile path

section Opening

variable [DecidableEq N]

def subdirectory : Listing N → N → Option (Listing N)
  | nil, _ => none
  | file _ rest, n => rest.subdirectory n
  | dir name inside rest, n => if name = n then some inside else rest.subdirectory n

/-- The directory at the end of a path. -/
def openDir : Listing N → List N → Option (Listing N)
  | l, [] => some l
  | l, n :: path => (l.subdirectory n).bind fun inside => inside.openDir path

end Opening

/-! ## Files below a directory -/

theorem not_hasFile_nil (l : Listing N) : ¬ l.HasFile [] := by
  induction l with
  | nil => exact id
  | file name rest ih =>
      rintro (h | h)
      · cases h
      · exact ih h
  | dir name inside rest _ ih =>
      rintro (⟨_, h, _⟩ | h)
      · cases h
      · exact ih h

theorem head_mem_names (h : l.HasFile (name :: below)) : name ∈ l.names := by
  induction l with
  | nil => exact h.elim
  | file other rest ih =>
      rcases h with h | h
      · rw [(List.cons.inj h).1]
        exact List.mem_cons_self
      · exact List.mem_cons_of_mem _ (ih h)
  | dir other inside rest _ ih =>
      rcases h with ⟨_, h, _⟩ | h
      · rw [(List.cons.inj h).1]
        exact List.mem_cons_self
      · exact List.mem_cons_of_mem _ (ih h)

theorem named_of_hasFile {q : N → Prop} (hl : l.Named q) (h : l.HasFile path) :
    ∀ name ∈ path, q name := by
  induction l generalizing path with
  | nil => exact h.elim
  | file other rest ih =>
      rcases h with rfl | h
      · exact List.forall_mem_singleton.mpr hl.1
      · exact ih hl.2 h
  | dir other inside rest ihInside ih =>
      rcases h with ⟨below, rfl, h⟩ | h
      · exact List.forall_mem_cons.mpr ⟨hl.1, ihInside hl.2.1 h⟩
      · exact ih hl.2.2 h

variable [DecidableEq N]

theorem mem_names_of_subdirectory (h : l.subdirectory name = some inside) : name ∈ l.names := by
  induction l with
  | nil => cases h
  | file other rest ih => exact List.mem_cons_of_mem _ (ih h)
  | dir other own rest _ ih =>
      rw [subdirectory] at h
      split at h
      · next heq =>
          rw [heq]
          exact List.mem_cons_self
      · exact List.mem_cons_of_mem _ (ih h)

/-- The files below an entry that is a directory are those of its listing. -/
theorem hasFile_cons_iff (hl : l.Distinct) (h : l.subdirectory name = some inside) :
    l.HasFile (name :: below) ↔ inside.HasFile below := by
  induction l with
  | nil => cases h
  | file other rest ih =>
      have hne : name ≠ other := fun heq => hl.1 (heq ▸ mem_names_of_subdirectory h)
      refine (or_iff_right fun heq => hne (List.cons.inj heq).1).trans (ih hl.2 h)
  | dir other own rest _ ih =>
      rw [subdirectory] at h
      split at h
      · next heq =>
          obtain rfl := Option.some.inj h
          subst heq
          constructor
          · rintro (⟨below, heq, hbelow⟩ | hrest)
            · rwa [(List.cons.inj heq).2]
            · exact absurd (head_mem_names hrest) hl.1
          · exact fun hbelow => .inl ⟨below, rfl, hbelow⟩
      · next hne =>
          refine (or_iff_right ?_).trans (ih hl.2.2 h)
          rintro ⟨_, heq, _⟩
          exact hne (List.cons.inj heq).1.symm

/-- A path that goes on behind a name leads through a directory. -/
theorem exists_subdirectory (h : l.HasFile (name :: below)) (hbelow : below ≠ []) :
    ∃ inside, l.subdirectory name = some inside := by
  induction l with
  | nil => exact h.elim
  | file other rest ih =>
      rcases h with h | h
      · exact absurd (List.cons.inj h).2 hbelow
      · exact ih h
  | dir other own rest _ ih =>
      rw [subdirectory]
      split
      · exact ⟨own, rfl⟩
      · next hne =>
          rcases h with ⟨_, heq, _⟩ | h
          · exact absurd (List.cons.inj heq).1.symm hne
          · exact ih h

theorem distinct_subdirectory (hl : l.Distinct) (h : l.subdirectory name = some inside) :
    inside.Distinct := by
  induction l with
  | nil => cases h
  | file other rest ih => exact ih hl.2 h
  | dir other own rest _ ih =>
      rw [subdirectory] at h
      split at h
      · obtain rfl := Option.some.inj h
        exact hl.2.1
      · exact ih hl.2.2 h

theorem named_subdirectory {q : N → Prop} (hl : l.Named q)
    (h : l.subdirectory name = some inside) : inside.Named q := by
  induction l with
  | nil => cases h
  | file other rest ih => exact ih hl.2 h
  | dir other own rest _ ih =>
      rw [subdirectory] at h
      split at h
      · obtain rfl := Option.some.inj h
        exact hl.2.1
      · exact ih hl.2.2 h

theorem named_openDir {q : N → Prop} (hl : l.Named q) (h : l.openDir path = some inside) :
    inside.Named q := by
  induction path generalizing l with
  | nil =>
      obtain rfl := Option.some.inj h
      exact hl
  | cons name path ih =>
      obtain ⟨next, hnext, h⟩ := Option.bind_eq_some_iff.mp h
      exact ih (named_subdirectory hl hnext) h

theorem distinct_openDir (hl : l.Distinct) (h : l.openDir path = some inside) :
    inside.Distinct := by
  induction path generalizing l with
  | nil =>
      obtain rfl := Option.some.inj h
      exact hl
  | cons name path ih =>
      obtain ⟨next, hnext, h⟩ := Option.bind_eq_some_iff.mp h
      exact ih (distinct_subdirectory hl hnext) h

theorem hasFile_append_iff (hl : l.Distinct) (h : l.openDir path = some inside) :
    l.HasFile (path ++ below) ↔ inside.HasFile below := by
  induction path generalizing l with
  | nil =>
      obtain rfl := Option.some.inj h
      exact Iff.rfl
  | cons name path ih =>
      obtain ⟨next, hnext, h⟩ := Option.bind_eq_some_iff.mp h
      exact (hasFile_cons_iff hl hnext).trans (ih (distinct_subdirectory hl hnext) h)

/-- Every part of a file's path but the whole leads to a directory. -/
theorem exists_openDir (hl : l.Distinct) (h : l.HasFile (path ++ below)) (hbelow : below ≠ []) :
    ∃ inside, l.openDir path = some inside := by
  induction path generalizing l with
  | nil => exact ⟨l, rfl⟩
  | cons name path ih =>
      obtain ⟨next, hnext⟩ := exists_subdirectory h (List.append_ne_nil_of_right_ne_nil _ hbelow)
      obtain ⟨inside, hinside⟩ := ih (distinct_subdirectory hl hnext)
        ((hasFile_cons_iff hl hnext).mp h)
      exact ⟨inside, Option.bind_eq_some_iff.mpr ⟨next, hnext, hinside⟩⟩

theorem openDir_append_one (h : l.openDir path = some inside) :
    l.openDir (path ++ [name]) = inside.subdirectory name := by
  induction path generalizing l with
  | nil =>
      obtain rfl := Option.some.inj h
      rw [List.nil_append, openDir]
      cases l.subdirectory name with
      | none => rfl
      | some own => rfl
  | cons first path ih =>
      obtain ⟨next, hnext, h⟩ := Option.bind_eq_some_iff.mp h
      rw [List.cons_append, openDir, hnext]
      exact ih h

end Listing

end AfyxGraph.Core
