import Mathlib.Logic.Relation
import Mathlib.Order.WellFounded

/-! # Partial labelled machines

A machine answers a label with the next state or refuses it. Everything below
is about complete label lists: a run composes at any boundary, a guard is a
condition on every accepted step of a run, and `Always` speaks of every state a
run visits. The last section is about machines that stop: halting is
accessibility of the successor relation, so a halting state starts no infinite
run whatever the order of its labels.
-/

namespace AfyxGraph.Core

universe u v

/-- A machine takes a labelled step or refuses the label. -/
abbrev Machine (σ : Type u) (α : Type v) := σ → α → Option σ

namespace Machine

variable {σ : Type u} {α : Type v} {m : Machine σ α}

/-! ## Runs -/

/-- Take the labels in order; a refused label ends the run without a result. -/
def run (m : Machine σ α) : σ → List α → Option σ
  | s, [] => some s
  | s, a :: as => (m s a).bind (run m · as)

@[simp] theorem run_nil (m : Machine σ α) (s : σ) : m.run s [] = some s := rfl

@[simp] theorem run_cons (m : Machine σ α) (s : σ) (a : α) (as : List α) :
    m.run s (a :: as) = (m s a).bind (m.run · as) := rfl

/-- Split a run at any label boundary. -/
theorem run_append (m : Machine σ α) (s : σ) (as bs : List α) :
    m.run s (as ++ bs) = (m.run s as).bind (m.run · bs) := by
  induction as generalizing s with
  | nil => simp
  | cons a as ih =>
      cases h : m s a with
      | none => simp [h]
      | some t => simpa [h] using ih t

/-- A state is reachable when some label list leads to it. -/
def Reaches (m : Machine σ α) (s t : σ) : Prop := ∃ as, m.run s as = some t

theorem Reaches.refl (m : Machine σ α) (s : σ) : m.Reaches s s := ⟨[], rfl⟩

theorem Reaches.trans {s t u : σ} (h₁ : m.Reaches s t) (h₂ : m.Reaches t u) :
    m.Reaches s u := by
  obtain ⟨as, ha⟩ := h₁
  obtain ⟨bs, hb⟩ := h₂
  exact ⟨as ++ bs, by simp [run_append, ha, hb]⟩

theorem Reaches.of_step {s t : σ} {a : α} (h : m s a = some t) : m.Reaches s t :=
  ⟨[a], by simp [h]⟩

theorem Reaches.tail {s t u : σ} {a : α} (h₁ : m.Reaches s t) (h₂ : m t a = some u) :
    m.Reaches s u :=
  h₁.trans (.of_step h₂)

/-- What every step preserves, every run preserves. -/
theorem run_invariant {Inv : σ → Prop} (step : ∀ s a t, Inv s → m s a = some t → Inv t)
    {s t : σ} {as : List α} (hs : Inv s) (h : m.run s as = some t) : Inv t := by
  induction as generalizing s with
  | nil => cases h; exact hs
  | cons a as ih =>
      obtain ⟨u, hu, hrest⟩ := Option.bind_eq_some_iff.mp h
      exact ih (step s a u hs hu) hrest

theorem Reaches.invariant {Inv : σ → Prop} (step : ∀ s a t, Inv s → m s a = some t → Inv t)
    {s t : σ} (h : m.Reaches s t) (hs : Inv s) : Inv t := by
  obtain ⟨as, ha⟩ := h
  exact run_invariant step hs ha

/-! ## Guarded runs -/

/-- Every step the run takes meets the guard. -/
def Guarded (m : Machine σ α) (guard : σ → α → Prop) : σ → List α → Prop
  | _, [] => True
  | s, a :: as => ∀ t, m s a = some t → guard s a ∧ Guarded m guard t as

/-- Every state the run visits, the first one included, satisfies the property. -/
def Always (m : Machine σ α) (P : σ → Prop) : σ → List α → Prop
  | s, [] => P s
  | s, a :: as => P s ∧ ∀ t, m s a = some t → Always m P t as

theorem Always.head {P : σ → Prop} {s : σ} {as : List α} (h : m.Always P s as) : P s := by
  cases as with
  | nil => exact h
  | cons a as => exact h.1

theorem Always.last {P : σ → Prop} {s t : σ} {as : List α} (h : m.Always P s as)
    (hr : m.run s as = some t) : P t := by
  induction as generalizing s with
  | nil => cases hr; exact h
  | cons a as ih =>
      obtain ⟨u, hu, hrest⟩ := Option.bind_eq_some_iff.mp hr
      exact ih (h.2 u hu) hrest

/-- A property that a step keeps exactly when it meets the guard holds along a
run exactly when every step of the run meets the guard. The invariant carries
what the property of the earlier states implies. -/
theorem always_iff_guarded {I P : σ → Prop} {guard : σ → α → Prop}
    (keeps : ∀ s a t, I s → P s → m s a = some t → I t)
    (decides : ∀ s a t, I s → P s → m s a = some t → (P t ↔ guard s a))
    {s : σ} (hi : I s) (hp : P s) (as : List α) :
    m.Always P s as ↔ m.Guarded guard s as := by
  induction as generalizing s with
  | nil => simp [Always, Guarded, hp]
  | cons a as ih =>
      constructor
      · intro h t ht
        have hpt : P t := (h.2 t ht).head
        exact ⟨(decides s a t hi hp ht).mp hpt, (ih (keeps s a t hi hp ht) hpt).mp (h.2 t ht)⟩
      · intro h
        refine ⟨hp, fun t ht => ?_⟩
        obtain ⟨hg, hrest⟩ := h t ht
        exact (ih (keeps s a t hi hp ht) ((decides s a t hi hp ht).mpr hg)).mpr hrest

/-- An invariant that implies the property is enough along every run. -/
theorem always_of_invariant {I P : σ → Prop} (keeps : ∀ s a t, I s → m s a = some t → I t)
    (holds : ∀ s, I s → P s) {s : σ} (hi : I s) (as : List α) : m.Always P s as := by
  induction as generalizing s with
  | nil => exact holds s hi
  | cons a as ih => exact ⟨holds s hi, fun t ht => ih (keeps s a t hi ht)⟩

/-- The same for an invariant that only guarded steps keep. -/
theorem Guarded.always {I P : σ → Prop} {guard : σ → α → Prop}
    (keeps : ∀ s a t, I s → guard s a → m s a = some t → I t) (holds : ∀ s, I s → P s)
    {s : σ} {as : List α} (h : m.Guarded guard s as) (hi : I s) : m.Always P s as := by
  induction as generalizing s with
  | nil => exact holds s hi
  | cons a as ih =>
      refine ⟨holds s hi, fun t ht => ?_⟩
      obtain ⟨hguard, hrest⟩ := h t ht
      exact ih hrest (keeps s a t hi hguard ht)

instance decidableGuarded (m : Machine σ α) (guard : σ → α → Prop)
    [∀ s a, Decidable (guard s a)] : ∀ s as, Decidable (m.Guarded guard s as)
  | _, [] => isTrue trivial
  | s, a :: as =>
      match h : m s a with
      | none => isTrue fun t ht => by simp [h] at ht
      | some t =>
          have := decidableGuarded m guard t as
          decidable_of_iff (guard s a ∧ m.Guarded guard t as) (by simp [Guarded, h])

/-! ## Stopping -/

/-- `t` follows `s` under some label. -/
def Next (m : Machine σ α) (t s : σ) : Prop := ∃ a, m s a = some t

/-- No infinite run starts here. -/
def Halts (m : Machine σ α) (s : σ) : Prop := Acc m.Next s

/-- No label is accepted. -/
def Stuck (m : Machine σ α) (s : σ) : Prop := ∀ a, m s a = none

/-- A measure that every step from an invariant state decreases. -/
theorem halts_of_measure {Inv : σ → Prop} {r : σ → σ → Prop} (wf : WellFounded r)
    (keeps : ∀ s a t, Inv s → m s a = some t → Inv t)
    (decreases : ∀ s a t, Inv s → m s a = some t → r t s) {s : σ} (hs : Inv s) :
    m.Halts s := by
  induction s using wf.induction with
  | _ s ih =>
      refine Acc.intro s ?_
      rintro t ⟨a, ha⟩
      exact ih t (decreases s a t hs ha) (keeps s a t hs ha)

/-- From a halting state some run ends in a state that accepts nothing more. -/
theorem Halts.reaches_stuck {s : σ} (h : m.Halts s) : ∃ t, m.Reaches s t ∧ m.Stuck t := by
  induction h with
  | intro s _ ih =>
      by_cases hs : m.Stuck s
      · exact ⟨s, .refl m s, hs⟩
      · simp only [Stuck, not_forall, ← ne_eq, Option.ne_none_iff_exists'] at hs
        obtain ⟨a, t, ht⟩ := hs
        obtain ⟨u, hu, stuck⟩ := ih t ⟨a, ht⟩
        exact ⟨u, (Reaches.of_step ht).trans hu, stuck⟩

/-! ## Schedules -/

/-- The runs of a machine in which every label was allowed when it was taken. -/
def restrict (m : Machine σ α) (allowed : σ → α → Bool) : Machine σ α := fun s a =>
  if allowed s a then m s a else none

variable {allowed : σ → α → Bool}

theorem restrict_eq_some {s t : σ} {a : α} :
    m.restrict allowed s a = some t ↔ allowed s a = true ∧ m s a = some t := by
  simp only [restrict, Option.ite_none_right_eq_some]

theorem Reaches.of_restrict {s t : σ} (h : (m.restrict allowed).Reaches s t) : m.Reaches s t :=
  h.invariant (fun _ _ _ hs ht => hs.tail (restrict_eq_some.mp ht).2) (.refl m s)

theorem Halts.restrict {s : σ} (h : m.Halts s) : (m.restrict allowed).Halts s := by
  induction h with
  | intro s _ ih =>
      refine Acc.intro s ?_
      rintro t ⟨a, ha⟩
      exact ih t ⟨a, (restrict_eq_some.mp ha).2⟩

/-- A schedule that blocks a label only while some other one is open does not
get stuck earlier than the machine. -/
theorem Stuck.of_restrict {s : σ} (h : (m.restrict allowed).Stuck s)
    (open_ : ∀ a, allowed s a = false → ∃ b, allowed s b = true ∧ m s b ≠ none) : m.Stuck s := by
  have hallowed : ∀ b, allowed s b = true → m s b = none := fun b hb => by
    simpa [Machine.restrict, hb] using h b
  intro a
  cases ha : allowed s a with
  | true => exact hallowed a ha
  | false =>
      obtain ⟨b, hb, hne⟩ := open_ a ha
      exact (hne (hallowed b hb)).elim

end Machine

end AfyxGraph.Core
