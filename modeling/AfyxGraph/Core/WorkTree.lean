import Mathlib.Data.List.Basic

/-! # Working trees under version control

A working tree has a `HEAD`, an index of staged contents and the files themselves. The
store of commits is a parameter: `tree sha` lists the files of a commit. A tracked file
is a staged one.
-/

namespace AfyxGraph.Core

/-- Contents by path; the first entry of a path counts. -/
abbrev Contents (Path Content : Type) := List (Path × Content)

namespace Contents

variable {Path Content : Type} [DecidableEq Path]

def set (files : Contents Path Content) (path : Path) (content : Option Content) :
    Contents Path Content :=
  match content with
  | some content => (path, content) :: files
  | none => files.filter (·.1 ≠ path)

/-- The entries of `files` at the paths of `paths` agree with those of `other`. -/
def agreeOn [DecidableEq Content] (paths files other : Contents Path Content) : Bool :=
  paths.all fun entry => files.lookup entry.1 = other.lookup entry.1

theorem agreeOn_iff [DecidableEq Content] {paths files other : Contents Path Content} :
    agreeOn paths files other = true ↔
      ∀ path, paths.lookup path ≠ none → files.lookup path = other.lookup path := by
  simp only [agreeOn, List.all_eq_true, decide_eq_true_eq]
  constructor
  · intro h path hpath
    obtain ⟨content, hcontent⟩ := Option.ne_none_iff_exists'.mp hpath
    obtain ⟨before, after, hsplit, _⟩ := List.lookup_eq_some_iff.mp hcontent
    exact h (path, content) (by simp [hsplit])
  · intro h entry hentry
    apply h
    intro hnone
    have := List.lookup_eq_none_iff.mp hnone entry hentry
    simp at this

end Contents

structure WorkTree (Sha Path Content : Type) where
  head : Option Sha
  staged : Contents Path Content
  files : Contents Path Content
  deriving DecidableEq, Repr

namespace WorkTree

variable {Sha Path Content : Type} [DecidableEq Path] [DecidableEq Content]
variable (tree : Sha → Contents Path Content) (w : WorkTree Sha Path Content)

def Tracked (path : Path) : Prop := w.staged.lookup path ≠ none

def committed : Contents Path Content :=
  match w.head with
  | none => []
  | some sha => tree sha

/-- Nothing staged differs from `HEAD`, and no tracked file from what is staged. -/
def clean : Bool :=
  Contents.agreeOn w.staged w.staged (w.committed tree) &&
    Contents.agreeOn (w.committed tree) w.staged (w.committed tree) &&
    Contents.agreeOn w.staged w.files w.staged

inductive Move (Sha Path Content : Type) where
  | edit (path : Path) (content : Option Content)
  | stage (path : Path)
  /-- `HEAD` moves to a commit and the files stay. -/
  | commit (sha : Sha)
  /-- The files of a commit replace the tracked ones. -/
  | checkout (sha : Sha)
  deriving DecidableEq, Repr

def move (w : WorkTree Sha Path Content) : Move Sha Path Content → WorkTree Sha Path Content
  | .edit path content => { w with files := w.files.set path content }
  | .stage path => { w with staged := w.staged.set path (w.files.lookup path) }
  | .commit sha => { w with head := some sha }
  | .checkout sha =>
      { head := some sha
        staged := tree sha
        files := tree sha ++ w.files.filter fun entry => (w.staged.lookup entry.1).isNone }

def moves (w : WorkTree Sha Path Content) (ms : List (Move Sha Path Content)) :
    WorkTree Sha Path Content :=
  ms.foldl (fun w m => w.move tree m) w

variable {tree} {w}

/-- In a clean tree the tracked files are those of `HEAD`, with the contents they have there. -/
theorem staged_of_clean (h : w.clean tree = true) (path : Path) :
    w.staged.lookup path = (w.committed tree).lookup path := by
  simp only [clean, Bool.and_eq_true, Contents.agreeOn_iff] at h
  obtain ⟨⟨hstaged, hcommitted⟩, -⟩ := h
  by_cases hnone : w.staged.lookup path = none
  · by_cases hcnone : (w.committed tree).lookup path = none
    · rw [hnone, hcnone]
    · exact hcommitted path hcnone
  · exact hstaged path hnone

theorem files_of_clean (h : w.clean tree = true) {path : Path} (htracked : w.Tracked path) :
    w.files.lookup path = (w.committed tree).lookup path := by
  have hfiles := h
  simp only [clean, Bool.and_eq_true, Contents.agreeOn_iff] at hfiles
  rw [hfiles.2 path htracked]
  exact staged_of_clean h path

theorem checkout_clean (w : WorkTree Sha Path Content) (sha : Sha) :
    (w.move tree (.checkout sha)).clean tree = true := by
  simp only [clean, Bool.and_eq_true, Contents.agreeOn_iff]
  refine ⟨⟨fun _ _ => rfl, fun _ _ => rfl⟩, ?_⟩
  intro path htracked
  obtain ⟨content, hcontent⟩ := Option.ne_none_iff_exists'.mp htracked
  change (tree sha).lookup path = some content at hcontent
  change (tree sha ++ _).lookup path = (tree sha).lookup path
  rw [List.lookup_append, hcontent]
  rfl

end WorkTree

end AfyxGraph.Core
