import Mathlib.Data.List.Induction

/-! # Links under a key

Links between nodes are kept in a table under a key that is made of their ends. Of the links with
one key the first is kept and the others are lost.
-/

namespace AfyxGraph.Core

universe u v

variable {ν : Type u} {κ : Type v} [DecidableEq κ] (key : ν → ν → κ)

/-- The first of the links that have the key of `u` and `v`. -/
def firstLink (links : List (ν × ν)) (u v : ν) : Option (ν × ν) :=
  links.find? fun l => key l.1 l.2 = key u v

def Kept (links : List (ν × ν)) (u v : ν) : Prop := firstLink key links u v = some (u, v)

/-- One more link, unless its key is taken. -/
def keepLink (kept : List (ν × ν)) (l : ν × ν) : List (ν × ν) :=
  if (firstLink key kept l.1 l.2).isSome then kept else kept ++ [l]

def keepLinks (links : List (ν × ν)) : List (ν × ν) := links.foldl (keepLink key) []

variable {key} {links : List (ν × ν)} {a b u v : ν}

theorem firstLink_append_of_eq (hkey : key a b = key u v) :
    firstLink key (links ++ [(a, b)]) u v = (firstLink key links u v).or (some (a, b)) := by
  rw [firstLink, List.find?_append, List.find?_cons_of_pos (by simpa using hkey)]
  rfl

theorem firstLink_append_of_ne (hkey : key a b ≠ key u v) :
    firstLink key (links ++ [(a, b)]) u v = firstLink key links u v := by
  rw [firstLink, List.find?_append, List.find?_cons_of_neg (by simpa using hkey), List.find?_nil,
    Option.or_none]
  rfl

theorem firstLink_congr (hkey : key a b = key u v) :
    firstLink key links a b = firstLink key links u v := by
  rw [firstLink, firstLink, hkey]

theorem isSome_firstLink_append : (firstLink key (links ++ [(a, b)]) u v).isSome =
    ((firstLink key links u v).isSome || decide (key a b = key u v)) := by
  by_cases hkey : key a b = key u v
  · rw [firstLink_append_of_eq hkey, decide_eq_true hkey, Option.isSome_or]
    rfl
  · rw [firstLink_append_of_ne hkey, decide_eq_false hkey, Bool.or_false]

theorem kept_append : Kept key (links ++ [(a, b)]) u v ↔
    Kept key links u v ∨ firstLink key links a b = none ∧ (u, v) = (a, b) := by
  by_cases hkey : key a b = key u v
  · rw [Kept, firstLink_append_of_eq hkey, firstLink_congr hkey]
    cases hfirst : firstLink key links u v with
    | none =>
        simp only [Option.none_or, Kept, hfirst, Option.some.injEq, reduceCtorEq, false_or,
          true_and]
        exact eq_comm
    | some l => simp [Kept, hfirst]
  · rw [Kept, firstLink_append_of_ne hkey]
    refine (or_iff_left fun h => hkey ?_).symm
    obtain ⟨rfl, rfl⟩ := Prod.mk.inj h.2
    rfl

theorem mem_of_kept (h : Kept key links u v) : (u, v) ∈ links := List.mem_of_find?_eq_some h

theorem key_of_firstLink {l : ν × ν} (h : firstLink key links u v = some l) :
    l ∈ links ∧ key l.1 l.2 = key u v := by
  have hsame := List.find?_some
    (show links.find? (fun l => key l.1 l.2 = key u v) = some l from h)
  exact ⟨List.mem_of_find?_eq_some h, of_decide_eq_true hsame⟩

theorem firstLink_isSome_of_mem (h : (u, v) ∈ links) : (firstLink key links u v).isSome := by
  by_contra hnone
  have hout := List.find?_eq_none.mp (Option.not_isSome_iff_eq_none.mp hnone) (u, v) h
  simp at hout

/-! ## The links that are kept -/

theorem keepLinks_append (links : List (ν × ν)) (l : ν × ν) :
    keepLinks key (links ++ [l]) = keepLink key (keepLinks key links) l := by
  rw [keepLinks, List.foldl_append]
  rfl

/-- A key is taken by a kept link where it is taken at all. -/
theorem isSome_firstLink_keepLinks (links : List (ν × ν)) (u v : ν) :
    (firstLink key (keepLinks key links) u v).isSome = (firstLink key links u v).isSome := by
  induction links using List.reverseRecOn generalizing u v with
  | nil => rfl
  | append_singleton links l ih =>
      obtain ⟨a, b⟩ := l
      rw [keepLinks_append, keepLink, isSome_firstLink_append]
      split
      · rename_i htaken
        rw [ih u v]
        by_cases hkey : key a b = key u v
        · rw [ih a b, firstLink_congr hkey] at htaken
          rw [htaken, Bool.true_or]
        · rw [decide_eq_false hkey, Bool.or_false]
      · rw [isSome_firstLink_append, ih u v]

theorem mem_keepLinks : (u, v) ∈ keepLinks key links ↔ Kept key links u v := by
  induction links using List.reverseRecOn with
  | nil => exact iff_of_false List.not_mem_nil fun h => nomatch h
  | append_singleton links l ih =>
      obtain ⟨a, b⟩ := l
      rw [keepLinks_append, keepLink, kept_append, isSome_firstLink_keepLinks]
      split
      · rename_i htaken
        rw [ih]
        refine (or_iff_left fun h => ?_).symm
        rw [h.1] at htaken
        cases htaken
      · rename_i hfree
        rw [List.mem_append, List.mem_singleton, ih]
        exact or_congr_right (and_iff_right (Option.not_isSome_iff_eq_none.mp hfree)).symm

end AfyxGraph.Core
