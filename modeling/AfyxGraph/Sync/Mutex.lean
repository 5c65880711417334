import AfyxGraph.Core.Transition
import Mathlib.Data.List.Nodup
import Mathlib.Logic.Function.Basic

/-! # The in-process mutex

Releasing clears the flag and then wakes one waiter, which checks the flag again when its microtask
runs; whoever calls `acquire` in between may take the lock first. The microtasks are run in any
order here, and a call of `acquire` may come between any two of them.
-/

namespace AfyxGraph.Sync

open AfyxGraph.Core

variable {τ : Type} [DecidableEq τ]

/-! ## The lock -/

/-- `waitQueue` has the task each resolver belongs to. -/
structure Mutex (τ : Type) where
  locked : Bool
  waitQueue : List τ

namespace Mutex

/-- The head of the loop of `acquire`: wait, or take the lock. -/
def check (m : Mutex τ) (t : τ) : Mutex τ × Bool :=
  if m.locked then ({ m with waitQueue := m.waitQueue ++ [t] }, false)
  else ({ m with locked := true }, true)

/-- The function `acquire` returns; also whom it wakes. -/
def release (m : Mutex τ) : Mutex τ × Option τ :=
  ({ locked := false, waitQueue := m.waitQueue.tail }, m.waitQueue.head?)

end Mutex

/-! ## The tasks -/

/-- A task calls `acquire` once, and then its release once. A woken task has its microtask
pending. -/
inductive TaskPhase where
  | outside
  | queued
  | woken
  | holding
  | done
  deriving DecidableEq

structure LockSystem (τ : Type) where
  mutex : Mutex τ
  phase : τ → TaskPhase

inductive LockStep (τ : Type) where
  | acquire (t : τ)
  | resume (t : τ)
  | release (t : τ)
  deriving DecidableEq

namespace LockSystem

def initial : LockSystem τ := ⟨⟨false, []⟩, fun _ => .outside⟩

def checks (s : LockSystem τ) (t : τ) : LockSystem τ :=
  let (mutex, taken) := s.mutex.check t
  ⟨mutex, Function.update s.phase t (if taken then .holding else .queued)⟩

def releases (s : LockSystem τ) (t : τ) : LockSystem τ :=
  let (mutex, next) := s.mutex.release
  let phase := Function.update s.phase t .done
  match next with
  | none => ⟨mutex, phase⟩
  | some w => ⟨mutex, Function.update phase w .woken⟩

/-- One step of one task. -/
def step : Machine (LockSystem τ) (LockStep τ)
  | s, .acquire t => if s.phase t = .outside then some (s.checks t) else none
  | s, .resume t => if s.phase t = .woken then some (s.checks t) else none
  | s, .release t => if s.phase t = .holding then some (s.releases t) else none

/-! ## What is to hold -/

/-- A woken task finds the lock free, or the task that has it wakes another one when it
releases. -/
def GetsOn (s : LockSystem τ) (w : τ) : Prop :=
  ∀ as s' s'', step.run s as = some s' → step s' (.resume w) = some s'' →
    (s'.mutex.locked = false ∧ s''.phase w = .holding) ∨
      ∃ h, s''.phase h = .holding ∧ ∀ bs u u', step.run s'' bs = some u →
        .release h ∉ bs → step u (.release h) = some u' →
          ∃ q ∈ u.mutex.waitQueue, u'.phase q = .woken

/-- Mutual exclusion, and no wake-up is lost. -/
structure Sound (s : LockSystem τ) : Prop where
  exclusive : ∀ t u, s.phase t = .holding → s.phase u = .holding → t = u
  noneLost : s.mutex.locked = false → s.mutex.waitQueue ≠ [] → ∃ w, s.phase w = .woken
  getsOn : s.mutex.locked = false → (∃ t, s.phase t = .queued ∨ s.phase t = .woken) →
    ∃ w, s.phase w = .woken ∧ s.GetsOn w

/-- The flag is the holder, the queue is the queued tasks, and a free lock with a queue has a
woken task. -/
structure Inv (s : LockSystem τ) : Prop where
  exclusive : ∀ t u, s.phase t = .holding → s.phase u = .holding → t = u
  held : s.mutex.locked = true ↔ ∃ t, s.phase t = .holding
  queued : ∀ t, t ∈ s.mutex.waitQueue ↔ s.phase t = .queued
  nodup : s.mutex.waitQueue.Nodup
  noneLost : s.mutex.locked = false → s.mutex.waitQueue ≠ [] → ∃ w, s.phase w = .woken

omit [DecidableEq τ] in
theorem Inv.initial : (initial : LockSystem τ).Inv where
  exclusive _ _ h := TaskPhase.noConfusion h
  held := ⟨fun h => Bool.noConfusion h, fun ⟨_, h⟩ => TaskPhase.noConfusion h⟩
  queued _ := ⟨fun h => absurd h List.not_mem_nil, fun h => TaskPhase.noConfusion h⟩
  nodup := List.nodup_nil
  noneLost _ h := absurd rfl h

variable {s s' : LockSystem τ} {t : τ}

/-- A task outside or woken checks the lock, or the one that holds it releases it. -/
theorem step_cases {a : LockStep τ} (h : step s a = some s') :
    (∃ t, (a = .acquire t ∧ s.phase t = .outside ∨ a = .resume t ∧ s.phase t = .woken) ∧
      s' = s.checks t) ∨
    ∃ t, a = .release t ∧ s.phase t = .holding ∧ s' = s.releases t := by
  cases a with
  | acquire t =>
      obtain ⟨hphase, hs⟩ := Option.ite_none_right_eq_some.mp h
      exact .inl ⟨t, .inl ⟨rfl, hphase⟩, (Option.some.inj hs).symm⟩
  | resume t =>
      obtain ⟨hphase, hs⟩ := Option.ite_none_right_eq_some.mp h
      exact .inl ⟨t, .inr ⟨rfl, hphase⟩, (Option.some.inj hs).symm⟩
  | release t =>
      obtain ⟨hphase, hs⟩ := Option.ite_none_right_eq_some.mp h
      exact .inr ⟨t, rfl, hphase, (Option.some.inj hs).symm⟩

/-! ## The two ways of a check -/

theorem checks_of_locked (h : s.mutex.locked = true) : s.checks t =
    ⟨⟨true, s.mutex.waitQueue ++ [t]⟩, Function.update s.phase t .queued⟩ := by
  simp [checks, Mutex.check, h]

theorem checks_of_free (h : s.mutex.locked = false) : s.checks t =
    ⟨⟨true, s.mutex.waitQueue⟩, Function.update s.phase t .holding⟩ := by
  simp [checks, Mutex.check, h]

/-- The lock is taken: the task waits behind the others. -/
theorem Inv.queues (hinv : s.Inv) (hlocked : s.mutex.locked = true)
    (hphase : s.phase t = .outside ∨ s.phase t = .woken) :
    Inv ⟨⟨true, s.mutex.waitQueue ++ [t]⟩, Function.update s.phase t .queued⟩ := by
  have hout : t ∉ s.mutex.waitQueue := by
    rw [hinv.queued]
    rcases hphase with h | h <;> simp [h]
  have hnot : s.phase t ≠ .holding := by
    rcases hphase with h | h <;> simp [h]
  have hholding : ∀ u, Function.update s.phase t .queued u = .holding ↔ s.phase u = .holding := by
    intro u
    by_cases hu : u = t
    · subst hu
      simp [hnot]
    · rw [Function.update_of_ne hu]
  refine ⟨?_, ?_, ?_, ?_, fun h => Bool.noConfusion h⟩
  · intro a b ha hb
    exact hinv.exclusive a b ((hholding a).mp ha) ((hholding b).mp hb)
  · obtain ⟨h, hh⟩ := hinv.held.mp hlocked
    exact ⟨fun _ => ⟨h, (hholding h).mpr hh⟩, fun _ => rfl⟩
  · intro u
    simp only [List.mem_append, List.mem_singleton]
    by_cases hu : u = t
    · simp [hu]
    · rw [Function.update_of_ne hu, hinv.queued]
      simp [hu]
  · exact hinv.nodup.append (List.nodup_singleton t) (List.disjoint_singleton.mpr hout)

/-- The lock is free: the task takes it. -/
theorem Inv.takes (hinv : s.Inv) (hfree : s.mutex.locked = false)
    (hphase : s.phase t = .outside ∨ s.phase t = .woken) :
    Inv ⟨⟨true, s.mutex.waitQueue⟩, Function.update s.phase t .holding⟩ := by
  have hnone : ∀ u, s.phase u ≠ .holding := by
    intro u hu
    rw [hinv.held.mpr ⟨u, hu⟩] at hfree
    exact Bool.noConfusion hfree
  have honly : ∀ u, Function.update s.phase t .holding u = .holding → u = t := by
    intro u hu
    by_contra hne
    rw [Function.update_of_ne hne] at hu
    exact hnone u hu
  refine ⟨?_, ?_, ?_, hinv.nodup, fun h => Bool.noConfusion h⟩
  · intro a b ha hb
    rw [honly a ha, honly b hb]
  · exact ⟨fun _ => ⟨t, Function.update_self ..⟩, fun _ => rfl⟩
  · intro u
    dsimp only
    by_cases hu : u = t
    · subst hu
      rw [Function.update_self, hinv.queued]
      rcases hphase with h | h <;> simp [h]
    · rw [Function.update_of_ne hu, hinv.queued]

theorem Inv.checks (hinv : s.Inv) (hphase : s.phase t = .outside ∨ s.phase t = .woken) :
    (s.checks t).Inv := by
  cases hlocked : s.mutex.locked with
  | true =>
      rw [checks_of_locked hlocked]
      exact hinv.queues hlocked hphase
  | false =>
      rw [checks_of_free hlocked]
      exact hinv.takes hlocked hphase

/-! ## The release -/

theorem releases_of_nil (h : s.mutex.waitQueue = []) :
    s.releases t = ⟨⟨false, []⟩, Function.update s.phase t .done⟩ := by
  simp [releases, Mutex.release, h]

theorem releases_of_cons {w : τ} {queue : List τ} (h : s.mutex.waitQueue = w :: queue) :
    s.releases t =
      ⟨⟨false, queue⟩, Function.update (Function.update s.phase t .done) w .woken⟩ := by
  simp [releases, Mutex.release, h]

/-- After the one that holds the lock is done, nobody holds it. -/
theorem Inv.not_holding (hinv : s.Inv) (hphase : s.phase t = .holding) (u : τ) :
    Function.update s.phase t .done u ≠ .holding := by
  intro hu
  by_cases hut : u = t
  · rw [hut, Function.update_self] at hu
    exact TaskPhase.noConfusion hu
  · rw [Function.update_of_ne hut] at hu
    exact hut (hinv.exclusive u t hu hphase)

theorem Inv.queued_done (hinv : s.Inv) (hphase : s.phase t = .holding) (u : τ) :
    u ∈ s.mutex.waitQueue ↔ Function.update s.phase t .done u = .queued := by
  by_cases hut : u = t
  · rw [hut, Function.update_self, hinv.queued, hphase]
    simp
  · rw [Function.update_of_ne hut, hinv.queued]

theorem Inv.releases (hinv : s.Inv) (hphase : s.phase t = .holding) : (s.releases t).Inv := by
  cases hqueue : s.mutex.waitQueue with
  | nil =>
      rw [releases_of_nil hqueue]
      refine ⟨fun a _ ha => absurd ha (hinv.not_holding hphase a), ?_, ?_, List.nodup_nil,
        fun _ h => absurd rfl h⟩
      · exact ⟨fun h => Bool.noConfusion h, fun ⟨u, hu⟩ => absurd hu (hinv.not_holding hphase u)⟩
      · intro u
        rw [← hqueue]
        exact hinv.queued_done hphase u
  | cons w queue =>
      rw [releases_of_cons hqueue]
      have hnodup := hinv.nodup
      rw [hqueue, List.nodup_cons] at hnodup
      have hnot : ∀ u, Function.update (Function.update s.phase t .done) w .woken u
          ≠ .holding := by
        intro u hu
        by_cases huw : u = w
        · rw [huw, Function.update_self] at hu
          exact TaskPhase.noConfusion hu
        · rw [Function.update_of_ne huw] at hu
          exact hinv.not_holding hphase u hu
      refine ⟨fun a _ ha => absurd ha (hnot a), ?_, ?_, hnodup.2, fun _ _ =>
        ⟨w, Function.update_self ..⟩⟩
      · exact ⟨fun h => Bool.noConfusion h, fun ⟨u, hu⟩ => absurd hu (hnot u)⟩
      · intro u
        dsimp only
        by_cases huw : u = w
        · subst huw
          rw [Function.update_self]
          simp [hnodup.1]
        · rw [Function.update_of_ne huw, ← hinv.queued_done hphase, hqueue]
          simp [huw]

/-! ## Runs -/

/-- Every step keeps the invariant. -/
theorem Inv.step (hinv : s.Inv) {a : LockStep τ} (h : LockSystem.step s a = some s') :
    s'.Inv := by
  rcases step_cases h with ⟨t, ⟨-, hphase⟩ | ⟨-, hphase⟩, rfl⟩ | ⟨t, -, hphase, rfl⟩
  · exact hinv.checks (.inl hphase)
  · exact hinv.checks (.inr hphase)
  · exact hinv.releases hphase

/-- While a task holds the lock it stays locked and nobody leaves the queue. -/
theorem Inv.keeps_waiting (hinv : s.Inv) {h w : τ} (hholds : s.phase h = .holding)
    (hwaits : w ∈ s.mutex.waitQueue) {a : LockStep τ} (hstep : LockSystem.step s a = some s')
    (ha : a ≠ .release h) : s'.phase h = .holding ∧ w ∈ s'.mutex.waitQueue := by
  have hlocked : s.mutex.locked = true := hinv.held.mpr ⟨h, hholds⟩
  rcases step_cases hstep with ⟨t, hphase, rfl⟩ | ⟨t, rfl, hphase, -⟩
  · have hne : h ≠ t := by
      rintro rfl
      rcases hphase with ⟨-, hp⟩ | ⟨-, hp⟩ <;> simp [hp] at hholds
    rw [checks_of_locked hlocked]
    exact ⟨(Function.update_of_ne hne _ _).trans hholds, List.mem_append_left _ hwaits⟩
  · exact absurd (congrArg LockStep.release (hinv.exclusive t h hphase hholds)) ha

theorem Inv.still_waiting (hinv : s.Inv) {h w : τ} (hholds : s.phase h = .holding)
    (hwaits : w ∈ s.mutex.waitQueue) {bs : List (LockStep τ)} {u : LockSystem τ}
    (hrun : LockSystem.step.run s bs = some u) (hbs : .release h ∉ bs) :
    w ∈ u.mutex.waitQueue := by
  induction bs generalizing s with
  | nil =>
      cases hrun
      exact hwaits
  | cons a bs ih =>
      obtain ⟨v, hv, hrest⟩ := Option.bind_eq_some_iff.mp hrun
      rw [List.mem_cons, not_or] at hbs
      obtain ⟨hholds', hwaits'⟩ := hinv.keeps_waiting hholds hwaits hv (Ne.symm hbs.1)
      exact ih (hinv.step hv) hholds' hwaits' hrest hbs.2

/-- A release wakes the head of the queue. -/
theorem releases_wakes {u u' : LockSystem τ} {h : τ} (hqueue : u.mutex.waitQueue ≠ [])
    (hstep : LockSystem.step u (.release h) = some u') :
    ∃ q ∈ u.mutex.waitQueue, u'.phase q = .woken := by
  obtain ⟨-, hu⟩ := Option.ite_none_right_eq_some.mp hstep
  obtain rfl := Option.some.inj hu
  obtain ⟨w, queue, hw⟩ := List.exists_cons_of_ne_nil hqueue
  refine ⟨w, hw ▸ List.mem_cons_self, ?_⟩
  rw [releases_of_cons hw]
  exact Function.update_self ..

theorem Inv.getsOn (hinv : s.Inv) (w : τ) : s.GetsOn w := by
  intro as s' s'' hrun hresume
  have hinv' : s'.Inv := Machine.run_invariant (fun _ _ _ hs => hs.step) hinv hrun
  have hinv'' : s''.Inv := hinv'.step hresume
  obtain ⟨hphase, hs⟩ := Option.ite_none_right_eq_some.mp hresume
  obtain rfl := Option.some.inj hs
  cases hlocked : s'.mutex.locked with
  | false =>
      refine .inl ⟨rfl, ?_⟩
      rw [checks_of_free hlocked]
      exact Function.update_self ..
  | true =>
      obtain ⟨h, hh⟩ := hinv'.held.mp hlocked
      have hne : h ≠ w := by
        rintro rfl
        simp [hphase] at hh
      have hholds : (s'.checks w).phase h = .holding := by
        rw [checks_of_locked hlocked]
        exact (Function.update_of_ne hne _ _).trans hh
      have hwaits : w ∈ (s'.checks w).mutex.waitQueue := by
        rw [checks_of_locked hlocked]
        exact List.mem_append_right _ (List.mem_singleton.mpr rfl)
      refine .inr ⟨h, hholds, fun bs u u' hbs hno hstep => ?_⟩
      have hstill := hinv''.still_waiting hholds hwaits hbs hno
      exact releases_wakes (List.ne_nil_of_mem hstill) hstep

theorem Inv.sound (hinv : s.Inv) : s.Sound where
  exclusive := hinv.exclusive
  noneLost := hinv.noneLost
  getsOn hfree hsome := by
    obtain ⟨t, ht⟩ := hsome
    have hwoken : ∃ w, s.phase w = .woken := by
      rcases ht with ht | ht
      · exact hinv.noneLost hfree (List.ne_nil_of_mem ((hinv.queued t).mpr ht))
      · exact ⟨t, ht⟩
    obtain ⟨w, hw⟩ := hwoken
    exact ⟨w, hw, hinv.getsOn w⟩

/-- Under every order of the microtasks and of the calls of `acquire`, in every state of a run. -/
theorem always_sound (as : List (LockStep τ)) :
    step.Always Sound (initial : LockSystem τ) as :=
  Machine.always_of_invariant (fun _ _ _ hs => hs.step) (fun _ hs => hs.sound) Inv.initial as

end LockSystem

end AfyxGraph.Sync
