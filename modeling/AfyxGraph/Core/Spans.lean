import Mathlib.Order.Defs.LinearOrder
import Mathlib.Data.Set.Basic

/-! # Spans ordered with the inner one first

A span has a start and a stop in a linear order. Of two spans the one that starts inside the other
comes first, and otherwise the one that starts earlier. On a laminar family this is a strict weak
order unless a span starts inside another one behind a third that shares the start of the other.
-/

namespace AfyxGraph.Core.Spans

universe u v

variable {σ : Type u} {α : Type v} [LinearOrder α] (start stop : σ → α)

/-! ## Two spans -/

/-- The one starts behind the start of the other and before its stop. -/
def StartsInside (x y : σ) : Prop := start y < start x ∧ start x < stop y

def Apart (x y : σ) : Prop := stop x ≤ start y ∨ stop y ≤ start x

def Within (x y : σ) : Prop := start y ≤ start x ∧ stop x ≤ stop y

def InnerFirst (x y : σ) : Prop :=
  StartsInside start stop x y ∨ ¬ StartsInside start stop y x ∧ start x < start y

/-- Any two are apart, or one is within the other. -/
def Laminar (family : Set σ) : Prop :=
  ∀ x ∈ family, ∀ y ∈ family,
    Apart start stop x y ∨ Within start stop x y ∨ Within start stop y x

/-- A span starts inside another behind a span that shares the start of the other. -/
def StartsBehind (family : Set σ) : Prop :=
  ∃ x ∈ family, ∃ y ∈ family, ∃ z ∈ family,
    start x = start z ∧ stop x ≤ start y ∧ StartsInside start stop y z

/-- A relation that is a strict weak order on a family. -/
structure StrictWeakOn (lt : σ → σ → Prop) (family : Set σ) : Prop where
  irrefl : ∀ x ∈ family, ¬ lt x x
  trans : ∀ x ∈ family, ∀ y ∈ family, ∀ z ∈ family, lt x y → lt y z → lt x z
  incomparable_trans : ∀ x ∈ family, ∀ y ∈ family, ∀ z ∈ family,
    ¬ lt x y ∧ ¬ lt y x → ¬ lt y z ∧ ¬ lt z y → ¬ lt x z ∧ ¬ lt z x

theorem StrictWeakOn.congr {lt lt' : σ → σ → Prop} {family : Set σ}
    (hweak : StrictWeakOn lt family) (h : ∀ x ∈ family, ∀ y ∈ family, (lt x y ↔ lt' x y)) :
    StrictWeakOn lt' family := by
  refine ⟨fun x hx => ?_, fun x hx y hy z hz => ?_, fun x hx y hy z hz => ?_⟩
  · rw [← h x hx x hx]
    exact hweak.irrefl x hx
  · rw [← h x hx y hy, ← h y hy z hz, ← h x hx z hz]
    exact hweak.trans x hx y hy z hz
  · rw [← h x hx y hy, ← h y hy x hx, ← h y hy z hz, ← h z hz y hy, ← h x hx z hz,
      ← h z hz x hx]
    exact hweak.incomparable_trans x hx y hy z hz

theorem strictWeakOn_congr {lt lt' : σ → σ → Prop} {family : Set σ}
    (h : ∀ x ∈ family, ∀ y ∈ family, (lt x y ↔ lt' x y)) :
    StrictWeakOn lt family ↔ StrictWeakOn lt' family :=
  ⟨fun hweak => hweak.congr h, fun hweak => hweak.congr fun x hx y hy => (h x hx y hy).symm⟩

variable {start stop}

theorem innerFirst_cases {x y : σ} (h : InnerFirst start stop x y) :
    StartsInside start stop x y ∨ start x < start y ∧ stop x ≤ start y := by
  rcases h with h | ⟨hnot, hlt⟩
  · exact .inl h
  · exact .inr ⟨hlt, le_of_not_gt fun hin => hnot ⟨hlt, hin⟩⟩

theorem innerFirst_of_stop_le {x y : σ} (hlt : start x < start y) (h : stop x ≤ start y) :
    InnerFirst start stop x y :=
  .inr ⟨fun hin => absurd hin.2 h.not_gt, hlt⟩

theorem innerFirst_irrefl (x : σ) : ¬ InnerFirst start stop x x := by
  rintro (h | ⟨-, h⟩)
  · exact lt_irrefl _ h.1
  · exact lt_irrefl _ h

/-- Neither of two spans comes first exactly when they share their start. -/
theorem incomparable_iff {x y : σ} :
    ¬ InnerFirst start stop x y ∧ ¬ InnerFirst start stop y x ↔ start x = start y := by
  constructor
  · rintro ⟨hxy, hyx⟩
    rcases lt_trichotomy (start x) (start y) with h | h | h
    · by_cases hin : StartsInside start stop y x
      · exact absurd (.inl hin) hyx
      · exact absurd (.inr ⟨hin, h⟩) hxy
    · exact h
    · by_cases hin : StartsInside start stop x y
      · exact absurd (.inl hin) hxy
      · exact absurd (.inr ⟨hin, h⟩) hyx
  · intro h
    constructor
    · rintro (hin | ⟨-, hlt⟩)
      · exact hin.1.ne h.symm
      · exact hlt.ne h
    · rintro (hin | ⟨-, hlt⟩)
      · exact hin.1.ne h
      · exact hlt.ne h.symm

/-! ## Three spans of a laminar family -/

variable {family : Set σ}

/-- A span that starts inside one of a laminar family stops in it too. -/
theorem Laminar.stop_le (h : Laminar start stop family) {x y : σ} (hx : x ∈ family)
    (hy : y ∈ family) (hin : StartsInside start stop x y) :
    stop x ≤ stop y ∨ stop x ≤ start y := by
  rcases h x hx y hy with (hapart | hapart) | hwithin | hwithin
  · exact .inr hapart
  · exact absurd hin.2 hapart.not_gt
  · exact .inl hwithin.2
  · exact absurd hin.1 hwithin.1.not_gt

theorem Laminar.innerFirst_trans (h : Laminar start stop family)
    (hbehind : ¬ StartsBehind start stop family) {x y z : σ} (hx : x ∈ family) (hy : y ∈ family)
    (hz : z ∈ family) (hxy : InnerFirst start stop x y) (hyz : InnerFirst start stop y z) :
    InnerFirst start stop x z := by
  rcases innerFirst_cases hxy with hin | ⟨hlt, hstop⟩
  · rcases innerFirst_cases hyz with hin' | ⟨hlt', hstop'⟩
    · -- `x` starts inside `y`, and `y` inside `z`
      rcases h.stop_le hy hz hin' with hle | hle
      · exact .inl ⟨hin'.1.trans hin.1, hin.2.trans_le hle⟩
      · exact absurd (hin.1.trans hin.2) (hle.trans hin'.1.le).not_gt
    · -- `x` starts inside `y`, and `y` is before `z`
      refine innerFirst_of_stop_le (hin.2.trans_le hstop') ?_
      rcases h.stop_le hx hy hin with hle | hle
      · exact hle.trans hstop'
      · exact hle.trans hlt'.le
  · rcases innerFirst_cases hyz with hin' | ⟨hlt', hstop'⟩
    · -- `x` is before `y`, and `y` starts inside `z`
      rcases lt_trichotomy (start x) (start z) with hs | hs | hs
      · refine .inr ⟨fun hin => ?_, hs⟩
        rcases h.stop_le hz hx hin with hle | hle
        · exact absurd hin'.2 (hle.trans hstop).not_gt
        · exact absurd (hin'.1.trans hin'.2) (hle.trans hs.le).not_gt
      · exact absurd ⟨x, hx, y, hy, z, hz, hs, hstop, hin'⟩ hbehind
      · exact .inl ⟨hs, hlt.trans hin'.2⟩
    · exact innerFirst_of_stop_le (hlt.trans hlt') (hstop.trans hlt'.le)

theorem Laminar.strictWeakOn_iff (h : Laminar start stop family) :
    StrictWeakOn (InnerFirst start stop) family ↔ ¬ StartsBehind start stop family := by
  constructor
  · rintro hweak ⟨x, hx, y, hy, z, hz, hs, hstop, hin⟩
    have hxy : InnerFirst start stop x y := innerFirst_of_stop_le (hs.trans_lt hin.1) hstop
    have hxz := hweak.trans x hx y hy z hz hxy (.inl hin)
    exact (incomparable_iff.mpr hs).1 hxz
  · intro hbehind
    refine ⟨fun x _ => innerFirst_irrefl x, ?_, ?_⟩
    · intro x hx y hy z hz hxy hyz
      exact h.innerFirst_trans hbehind hx hy hz hxy hyz
    · intro x _ y _ z _ hxy hyz
      exact incomparable_iff.mpr ((incomparable_iff.mp hxy).trans (incomparable_iff.mp hyz))

/-! ## A sorted list -/

/-- Nothing in the list comes before what is put in front of it. -/
def Sorted (lt : σ → σ → Prop) (l : List σ) : Prop := l.Pairwise fun x y => ¬ lt y x

theorem Sorted.innerFirst {l : List σ} (h : Sorted (InnerFirst start stop) l) :
    l.Pairwise fun x y => ¬ StartsInside start stop y x :=
  h.imp fun hnot hin => hnot (.inl hin)

theorem Sorted.sourceOrder {l : List σ} (h : Sorted (InnerFirst start stop) l)
    (hspan : ∀ x ∈ l, start x ≤ stop x) :
    l.Pairwise fun x y => Apart start stop x y → start x ≤ start y := by
  refine h.imp_of_mem fun {x y} hx _ hnot hapart => le_of_not_gt fun hlt => ?_
  rcases hapart with hapart | hapart
  · exact absurd hlt ((hspan x hx).trans hapart).not_gt
  · exact hnot (innerFirst_of_stop_le hlt hapart)

end AfyxGraph.Core.Spans
