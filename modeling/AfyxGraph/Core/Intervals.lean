import Mathlib.Data.List.Sort
import Mathlib.Data.Int.Order.Basic

/-! # Closed intervals of integers

Joining intervals that overlap or touch, and cutting intervals out of one. Both are described
by the numbers they cover: a join covers what its intervals do, and a cut what is left.
-/

namespace AfyxGraph.Core

/-- An inclusive span. -/
structure IntSpan where
  start : Int
  «end» : Int
  deriving DecidableEq, Repr

namespace IntSpan

def Covers (r : IntSpan) (x : Int) : Prop := r.start ≤ x ∧ x ≤ r.end

instance (r : IntSpan) (x : Int) : Decidable (r.Covers x) :=
  inferInstanceAs (Decidable (_ ∧ _))

/-- Some of the intervals covers the number. -/
def Covered (rs : List IntSpan) (x : Int) : Prop := ∃ r ∈ rs, r.Covers x

instance (rs : List IntSpan) (x : Int) : Decidable (Covered rs x) :=
  inferInstanceAs (Decidable (∃ r ∈ rs, r.Covers x))

@[simp] theorem not_covered_nil (x : Int) : ¬ Covered [] x := by
  simp [Covered]

theorem covered_cons (r : IntSpan) (rs : List IntSpan) (x : Int) :
    Covered (r :: rs) x ↔ r.Covers x ∨ Covered rs x := by
  simp [Covered]

theorem covered_singleton (r : IntSpan) (x : Int) : Covered [r] x ↔ r.Covers x := by
  simp [Covered]

theorem covered_append (rs more : List IntSpan) (x : Int) :
    Covered (rs ++ more) x ↔ Covered rs x ∨ Covered more x := by
  simp [Covered, or_and_right, exists_or]

theorem Covered.mono {rs more : List IntSpan} {x : Int} (h : Covered rs x)
    (hsub : ∀ r ∈ rs, r ∈ more) : Covered more x := by
  obtain ⟨r, hr, hx⟩ := h
  exact ⟨r, hsub r hr, hx⟩

/-! ## Sorting -/

/-- By start, then by end. -/
def le (a b : IntSpan) : Bool := a.start < b.start || (a.start = b.start && a.end ≤ b.end)

theorem le_trans' (a b c : IntSpan) (hab : le a b = true) (hbc : le b c = true) :
    le a c = true := by
  simp only [le, Bool.or_eq_true, Bool.and_eq_true, decide_eq_true_eq] at *
  omega

theorem le_total' (a b : IntSpan) : (le a b || le b a) = true := by
  simp only [le, Bool.or_eq_true, Bool.and_eq_true, decide_eq_true_eq]
  omega

def sorted (rs : List IntSpan) : List IntSpan := rs.mergeSort le

theorem mem_sorted {rs : List IntSpan} {r : IntSpan} : r ∈ sorted rs ↔ r ∈ rs :=
  (List.mergeSort_perm rs le).mem_iff

/-- In the order of their starts. -/
def Ascending (rs : List IntSpan) : Prop := rs.Pairwise fun a b => a.start ≤ b.start

theorem ascending_sorted (rs : List IntSpan) : Ascending (sorted rs) := by
  refine (List.pairwise_mergeSort le_trans' le_total' rs).imp fun h => ?_
  simp only [le, Bool.or_eq_true, Bool.and_eq_true, decide_eq_true_eq] at h
  omega

/-! ## Joins -/

/-- Join the intervals to the last one as long as they overlap it or touch it. -/
def joinFrom (last : IntSpan) : List IntSpan → List IntSpan
  | [] => [last]
  | r :: rs =>
      if r.start ≤ last.end + 1 then joinFrom ⟨last.start, max last.end r.end⟩ rs
      else last :: joinFrom r rs

def join : List IntSpan → List IntSpan
  | [] => []
  | r :: rs => joinFrom r rs

theorem covered_joinFrom {last : IntSpan} {rs : List IntSpan}
    (h : Ascending (last :: rs)) (x : Int) :
    Covered (joinFrom last rs) x ↔ last.Covers x ∨ Covered rs x := by
  induction rs generalizing last with
  | nil => simp [joinFrom, covered_singleton]
  | cons r rs ih =>
      obtain ⟨hlast, hr, hrs⟩ := by simpa [Ascending] using h
      rw [joinFrom, covered_cons]
      split
      · rename_i htouch
        rw [ih (by simpa [Ascending] using ⟨hlast.2, hrs⟩), ← or_assoc]
        apply or_congr_left
        simp only [Covers]
        have hstart := hlast.1
        omega
      · rw [covered_cons, ih (by simpa [Ascending] using ⟨hr, hrs⟩)]

/-- A join covers what its intervals cover. -/
theorem covered_join {rs : List IntSpan} (h : Ascending rs) (x : Int) :
    Covered (join rs) x ↔ Covered rs x := by
  cases rs with
  | nil => rfl
  | cons r rs => rw [join, covered_joinFrom h, covered_cons]

theorem start_le_of_mem_joinFrom {last : IntSpan} {rs : List IntSpan}
    (h : Ascending (last :: rs)) {r : IntSpan} (hr : r ∈ joinFrom last rs) :
    last.start ≤ r.start := by
  induction rs generalizing last with
  | nil =>
      obtain rfl := List.mem_singleton.mp hr
      exact Int.le_refl _
  | cons first rs ih =>
      obtain ⟨hlast, hfirst, hrs⟩ := by simpa [Ascending] using h
      rw [joinFrom] at hr
      split at hr
      · have hjoined : Ascending (⟨last.start, max last.end first.end⟩ :: rs) := by
          simpa [Ascending] using ⟨hlast.2, hrs⟩
        have hle := ih hjoined hr
        exact hle
      · rcases List.mem_cons.mp hr with rfl | hr
        · exact Int.le_refl _
        · exact Int.le_trans hlast.1 (ih (by simpa [Ascending] using ⟨hfirst, hrs⟩) hr)

theorem ascending_joinFrom {last : IntSpan} {rs : List IntSpan} (h : Ascending (last :: rs)) :
    Ascending (joinFrom last rs) := by
  induction rs generalizing last with
  | nil => simp [joinFrom, Ascending]
  | cons first rs ih =>
      obtain ⟨hlast, hfirst, hrs⟩ := by simpa [Ascending] using h
      rw [joinFrom]
      split
      · exact ih (by simpa [Ascending] using ⟨hlast.2, hrs⟩)
      · have hfirst' : Ascending (first :: rs) := by simpa [Ascending] using ⟨hfirst, hrs⟩
        refine List.pairwise_cons.mpr ⟨fun r hr => ?_, ih hfirst'⟩
        exact Int.le_trans hlast.1 (start_le_of_mem_joinFrom hfirst' hr)

theorem ascending_join {rs : List IntSpan} (h : Ascending rs) : Ascending (join rs) := by
  cases rs with
  | nil => exact h
  | cons r rs => exact ascending_joinFrom h

/-- A join starts where one of its intervals does. -/
theorem exists_start_of_mem_joinFrom {last : IntSpan} {rs : List IntSpan} {r : IntSpan}
    (hr : r ∈ joinFrom last rs) : ∃ r' ∈ last :: rs, r'.start = r.start ∧ r'.end ≤ r.end := by
  induction rs generalizing last with
  | nil =>
      obtain rfl := List.mem_singleton.mp hr
      exact ⟨r, List.mem_singleton_self _, rfl, Int.le_refl _⟩
  | cons first rs ih =>
      rw [joinFrom] at hr
      split at hr
      · obtain ⟨r', hr', hstart, hend⟩ := ih hr
        rcases List.mem_cons.mp hr' with rfl | hmem
        · exact ⟨last, List.mem_cons_self .., hstart, Int.le_trans (Int.le_max_left ..) hend⟩
        · exact ⟨r', List.mem_cons_of_mem _ (List.mem_cons_of_mem _ hmem), hstart, hend⟩
      · rcases List.mem_cons.mp hr with rfl | hr
        · exact ⟨r, List.mem_cons_self .., rfl, Int.le_refl _⟩
        · obtain ⟨r', hr', hstart, hend⟩ := ih hr
          exact ⟨r', List.mem_cons_of_mem _ hr', hstart, hend⟩

theorem exists_start_of_mem_join {rs : List IntSpan} {r : IntSpan} (hr : r ∈ join rs) :
    ∃ r' ∈ rs, r'.start = r.start ∧ r'.end ≤ r.end := by
  cases rs with
  | nil => cases hr
  | cons first rs => exact exists_start_of_mem_joinFrom hr

/-! ## Cuts -/

/-- What is left from the cursor to the interval. -/
def gap (last cursor : Int) (c : IntSpan) : List IntSpan :=
  if cursor < c.start then [⟨cursor, min (c.start - 1) last⟩] else []

/-- What is left from the cursor on when the intervals are cut out. -/
def cutFrom (last cursor : Int) : List IntSpan → List IntSpan
  | [] => if cursor ≤ last then [⟨cursor, last⟩] else []
  | c :: cs =>
      if c.end < cursor then cutFrom last cursor cs
      else if last < c.start then if cursor ≤ last then [⟨cursor, last⟩] else []
      else if last < max cursor (c.end + 1) then gap last cursor c
      else gap last cursor c ++ cutFrom last (max cursor (c.end + 1)) cs

/-- A cut covers what is not cut out. -/
theorem covered_cutFrom {last : Int} {cs : List IntSpan} (h : Ascending cs) (cursor x : Int) :
    Covered (cutFrom last cursor cs) x ↔ (cursor ≤ x ∧ x ≤ last) ∧ ¬ Covered cs x := by
  induction cs generalizing cursor with
  | nil =>
      rw [cutFrom]
      split
      · simp [covered_singleton, Covers]
      · simp only [not_covered_nil, not_false_eq_true, and_true, false_iff]
        omega
  | cons c cs ih =>
      obtain ⟨hc, hcs⟩ := List.pairwise_cons.mp h
      have hlater : ∀ y, y < c.start → ¬ Covered cs y := by
        rintro y hy ⟨r, hr, hstart, -⟩
        have hle := hc r hr
        omega
      rw [covered_cons, not_or, cutFrom]
      split
      · rename_i hbefore
        rw [ih hcs]
        simp only [Covers]
        constructor
        · rintro ⟨hx, hrest⟩
          exact ⟨hx, by omega, hrest⟩
        · rintro ⟨hx, -, hrest⟩
          exact ⟨hx, hrest⟩
      · split
        · rename_i hafter
          have hnone : x ≤ last → ¬ c.Covers x ∧ ¬ Covered cs x := by
            intro hx
            refine ⟨?_, hlater x (by omega)⟩
            simp only [Covers]
            omega
          split
          · rw [covered_singleton]
            simp only [Covers]
            exact ⟨fun hx => ⟨hx, hnone hx.2⟩, fun hx => hx.1⟩
          · simp only [not_covered_nil, false_iff, not_and]
            intro hx
            omega
        · rename_i hreaches hstarts
          have hfront : Covered (gap last cursor c) x ↔ cursor ≤ x ∧ x < c.start := by
            rw [gap]
            split
            · rw [covered_singleton]
              simp only [Covers]
              omega
            · simp only [not_covered_nil, false_iff]
              omega
          have hrest : x < c.start → ¬ Covered cs x := hlater x
          split
          · rename_i hends
            rw [hfront]
            simp only [Covers]
            constructor
            · intro hx
              exact ⟨by omega, by omega, hrest hx.2⟩
            · rintro ⟨hx, hnot, -⟩
              omega
          · rw [covered_append, hfront, ih hcs]
            simp only [Covers]
            constructor
            · rintro (hx | ⟨hx, hnot⟩)
              · exact ⟨by omega, by omega, hrest hx.2⟩
              · exact ⟨by omega, by omega, hnot⟩
            · rintro ⟨hx, hnot, hcovered⟩
              by_cases hfirst : x < c.start
              · exact .inl ⟨hx.1, hfirst⟩
              · exact .inr ⟨by omega, hcovered⟩

end IntSpan

end AfyxGraph.Core
