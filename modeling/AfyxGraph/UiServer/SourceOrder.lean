import AfyxGraph.Core.Spans
import Mathlib.Data.Prod.Lex

/-! # The order of calls

Two comparisons put calls in the order in which they run: `compareSites` for the sites of one
function, `hopCompare` for the hops of a row. A call written inside another one comes first, then
the position of the start decides.
-/

namespace AfyxGraph.UiServer.SourceOrder

open AfyxGraph.Core

/-! ## Positions and spans -/

structure Position where
  line : Nat
  column : Nat
  deriving DecidableEq

/-- Where a call is written: its start, and the end of its span. -/
structure Span extends Position where
  «end» : Position
  deriving DecidableEq

/-- A site of the program view, by where it is. -/
structure ProgramSite where
  at_ : Span

structure HopSite where
  file : String
  span : Span

/-- `x` starts strictly after `y` starts and before `y` ends. -/
def inside (x y : Span) : Bool :=
  let afterStart := x.line > y.line || (x.line = y.line && x.column > y.column)
  let beforeEnd := x.line < y.end.line || (x.line = y.end.line && x.column < y.end.column)
  afterStart && beforeEnd

/-- The comparison of two spans that both functions end with. -/
def compareSpans (a b : Span) : Int :=
  if inside a b then -1
  else if inside b a then 1
  else
    let lines : Int := a.line - b.line
    if lines ≠ 0 then lines else a.column - b.column

def compareSites (a b : ProgramSite) : Int := compareSpans a.at_ b.at_

def hopInside (x y : HopSite) : Bool := inside x.span y.span

/-- A hop that is not there sorts behind; another file sorts by its name. -/
def hopCompare (localeCompare : String → String → Int) : Option HopSite → Option HopSite → Int
  | some a, some b =>
      if a.file ≠ b.file then localeCompare a.file b.file else compareSpans a.span b.span
  | some _, none => -1
  | none, some _ => 1
  | none, none => 0

/-! ## The order of positions -/

def Position.key (p : Position) : ℕ ×ₗ ℕ := toLex (p.line, p.column)

def Span.start (s : Span) : ℕ ×ₗ ℕ := s.toPosition.key

def Span.stop (s : Span) : ℕ ×ₗ ℕ := s.end.key

theorem Position.key_lt {p q : Position} :
    p.key < q.key ↔ p.line < q.line ∨ p.line = q.line ∧ p.column < q.column :=
  Prod.Lex.toLex_lt_toLex

theorem inside_iff {x y : Span} :
    inside x y = true ↔ Spans.StartsInside Span.start Span.stop x y := by
  simp only [inside, Spans.StartsInside, Span.start, Span.stop, Position.key_lt, Bool.and_eq_true,
    Bool.or_eq_true, decide_eq_true_eq]
  omega

/-- The comparison is negative where the inner one, or else the earlier one, is the first. -/
theorem compareSpans_lt {a b : Span} :
    compareSpans a b < 0 ↔ Spans.InnerFirst Span.start Span.stop a b := by
  unfold compareSpans Spans.InnerFirst
  rw [← inside_iff, ← inside_iff]
  cases hab : inside a b with
  | true => simp
  | false =>
      cases hba : inside b a with
      | true => simp
      | false =>
          simp only [Span.start, Position.key_lt]
          split
          · simp_all
          · simp_all
            omega

/-! ## Families of calls -/

/-- Calls of which any two are apart, or one contains the other. -/
structure CallFamily (σ : Type) (span : σ → Span) where
  calls : Set σ
  spans : ∀ x ∈ calls, (span x).start ≤ (span x).stop
  laminar : Spans.Laminar (fun x => (span x).start) (fun x => (span x).stop) calls

variable {σ : Type} {span : σ → Span}

/-- The comparison is a strict weak order on the calls, and a list sorted by it has every call that
starts inside another one before that one, and calls apart from one another in source order. -/
structure OrdersCalls (compare : σ → σ → Int) (family : CallFamily σ span) : Prop where
  strictWeak : Spans.StrictWeakOn (fun a b => compare a b < 0) family.calls
  innerFirst : ∀ l : List σ, (∀ x ∈ l, x ∈ family.calls) →
    Spans.Sorted (fun a b => compare a b < 0) l →
    l.Pairwise fun x y => inside (span y) (span x) = false
  sourceOrder : ∀ l : List σ, (∀ x ∈ l, x ∈ family.calls) →
    Spans.Sorted (fun a b => compare a b < 0) l →
    l.Pairwise fun x y =>
      (span x).stop ≤ (span y).start ∨ (span y).stop ≤ (span x).start →
        (span x).start ≤ (span y).start

/-- A call in the arguments of a chained call: behind the call that the chain goes on from. -/
def ChainedArgument (family : CallFamily σ span) : Prop :=
  ∃ x ∈ family.calls, ∃ y ∈ family.calls, ∃ z ∈ family.calls,
    (span x).start = (span z).start ∧ (span x).stop ≤ (span y).start ∧
      inside (span y) (span z) = true

/-- The comparison of the spans, on the calls of a family. -/
def ComparesSpans (compare : σ → σ → Int) (family : CallFamily σ span) : Prop :=
  ∀ a ∈ family.calls, ∀ b ∈ family.calls, compare a b = compareSpans (span a) (span b)

variable {compare : σ → σ → Int} {family : CallFamily σ span}

theorem ComparesSpans.lt_iff (h : ComparesSpans compare family) {a b : σ} (ha : a ∈ family.calls)
    (hb : b ∈ family.calls) : compare a b < 0 ↔
      Spans.InnerFirst (fun x => (span x).start) (fun x => (span x).stop) a b := by
  rw [h a ha b hb, compareSpans_lt]
  rfl

theorem ComparesSpans.strictWeakOn_iff (h : ComparesSpans compare family) :
    Spans.StrictWeakOn (fun a b => compare a b < 0) family.calls ↔
      Spans.StrictWeakOn (Spans.InnerFirst (fun x => (span x).start) (fun x => (span x).stop))
        family.calls :=
  Spans.strictWeakOn_congr fun _ ha _ hb => h.lt_iff ha hb

theorem ComparesSpans.sorted (h : ComparesSpans compare family) {l : List σ}
    (hl : ∀ x ∈ l, x ∈ family.calls) (hsorted : Spans.Sorted (fun a b => compare a b < 0) l) :
    Spans.Sorted (Spans.InnerFirst (fun x => (span x).start) (fun x => (span x).stop)) l :=
  hsorted.imp_of_mem fun hx hy hnot hlt => hnot ((h.lt_iff (hl _ hy) (hl _ hx)).mpr hlt)

theorem chainedArgument_iff : ChainedArgument family ↔
    Spans.StartsBehind (fun x => (span x).start) (fun x => (span x).stop) family.calls := by
  simp only [ChainedArgument, Spans.StartsBehind, inside_iff]
  rfl

theorem ComparesSpans.orders_iff (h : ComparesSpans compare family) :
    OrdersCalls compare family ↔ ¬ ChainedArgument family := by
  rw [chainedArgument_iff, ← family.laminar.strictWeakOn_iff, ← h.strictWeakOn_iff]
  constructor
  · exact OrdersCalls.strictWeak
  · intro hweak
    refine ⟨hweak, fun l hl hsorted => ?_, fun l hl hsorted => ?_⟩
    · refine (h.sorted hl hsorted).innerFirst.imp fun hnot => ?_
      exact Bool.eq_false_iff.mpr fun hin => hnot (inside_iff.mp hin)
    · exact (h.sorted hl hsorted).sourceOrder fun x hx => family.spans x (hl x hx)

/-! ## The two comparisons -/

/-- The hops of one file. -/
structure HopFamily extends CallFamily HopSite HopSite.span where
  file : String
  inFile : ∀ x ∈ calls, x.file = file

theorem hopCompare_comparesSpans (localeCompare : String → String → Int) (hops : HopFamily) :
    ComparesSpans (fun a b => hopCompare localeCompare (some a) (some b)) hops.toCallFamily := by
  intro a ha b hb
  have hfile : a.file = b.file := (hops.inFile a ha).trans (hops.inFile b hb).symm
  simp [hopCompare, hfile]

/-- Both comparisons order the calls of exactly the families without a call in the arguments of a
chained call. -/
theorem ordersCalls_iff (localeCompare : String → String → Int) :
    (∀ sites : CallFamily ProgramSite ProgramSite.at_,
      OrdersCalls compareSites sites ↔ ¬ ChainedArgument sites) ∧
    ∀ hops : HopFamily,
      OrdersCalls (fun a b => hopCompare localeCompare (some a) (some b)) hops.toCallFamily ↔
        ¬ ChainedArgument hops.toCallFamily := by
  refine ⟨fun sites => ?_, fun hops => ?_⟩
  · have hsites : ComparesSpans compareSites sites := fun _ _ _ _ => rfl
    exact hsites.orders_iff
  · exact (hopCompare_comparesSpans localeCompare hops).orders_iff

/-! ## A chain -/

/-- A call on the first line, by its columns. -/
def onLine (start stop : Nat) : ProgramSite := ⟨⟨⟨1, start⟩, ⟨1, stop⟩⟩⟩

/-- `load().then(show())`: the first call, the one in the arguments, and the whole. -/
def chain : CallFamily ProgramSite ProgramSite.at_ where
  calls := {onLine 0 6, onLine 12 18, onLine 0 19}
  spans := by
    rintro x (rfl | rfl | rfl) <;> decide
  laminar := by
    rintro x (rfl | rfl | rfl) y (rfl | rfl | rfl) <;>
      simp only [Spans.Apart, Spans.Within] <;> decide

theorem ordersCalls_fails : ¬ OrdersCalls compareSites chain := by
  intro h
  have hbefore : compareSites (onLine 0 6) (onLine 12 18) < 0 := by decide
  have hinside : compareSites (onLine 12 18) (onLine 0 19) < 0 := by decide
  have hsame : ¬ compareSites (onLine 0 6) (onLine 0 19) < 0 := by decide
  exact hsame (h.strictWeak.trans _ (.inl rfl) _ (.inr (.inl rfl)) _ (.inr (.inr rfl)) hbefore
    hinside)

end AfyxGraph.UiServer.SourceOrder
