import Mathlib.Data.List.Induction

/-! # Obligations discharged by single-flight jobs

A log of what a component was asked for and of the jobs it ran. An obligation
is raised at a position of the log; a job discharges it when the job started
after that position, covers it and succeeded. Jobs are numbered, at most one is
in flight, and a result entry names the job it belongs to. Nothing here says how
the component decides to start a job: `Outstanding` only compares positions.
-/

namespace AfyxGraph.Core

universe u v

/-- One observed fact: an obligation was raised, a job started, a job ended. -/
inductive Entry (ω : Type u) (κ : Type v) where
  | raised (o : ω)
  | started (n : Nat) (job : κ)
  | succeeded (n : Nat)
  | failed (n : Nat)
  deriving DecidableEq, Repr

namespace Entry

variable {ω : Type u} {κ : Type v}

/-- The entry starts a job. -/
def isStart : Entry ω κ → Bool
  | started _ _ => true
  | _ => false

end Entry

abbrev Log (ω : Type u) (κ : Type v) := List (Entry ω κ)

namespace Log

variable {ω : Type u} {κ : Type v} {covers : κ → ω → Prop} {log : Log ω κ} {o : ω}

/-- Raised at some position after which no covering job has started and succeeded. -/
def Outstanding (covers : κ → ω → Prop) (log : Log ω κ) (o : ω) : Prop :=
  ∃ before after, log = before ++ .raised o :: after ∧
    ∀ n job, .started n job ∈ after → covers job o → .succeeded n ∉ log

/-- Raised at some position after which no job has started at all. -/
def Recent (log : Log ω κ) (o : ω) : Prop :=
  ∃ before after, log = before ++ .raised o :: after ∧ ∀ e ∈ after, e.isStart = false

/-- The last job the log saw starting. -/
def lastStart : Log ω κ → Option (Nat × κ)
  | [] => none
  | e :: rest => (lastStart rest).or (match e with | .started n job => some (n, job) | _ => none)

/-- Every job number in the log is at most `bound`. -/
def Numbered (bound : Nat) (log : Log ω κ) : Prop :=
  (∀ n job, .started n job ∈ log → n ≤ bound) ∧ (∀ n, .succeeded n ∈ log → n ≤ bound)

/-- Job `n` is the one in flight. Its start may be missing from a log that was
emptied while it ran, but no other job has started since. -/
structure Current (log : Log ω κ) (n : Nat) (job : κ) : Prop where
  last : lastStart log = none ∨ lastStart log = some (n, job)
  numbered : Numbered n log
  unsettled : .succeeded n ∉ log
  same : ∀ job', .started n job' ∈ log → job' = job

/-! ## The empty log and appending -/

theorem not_outstanding_nil : ¬ Outstanding covers ([] : Log ω κ) o := by
  rintro ⟨before, after, h, _⟩
  cases before <;> cases h

theorem not_recent_nil : ¬ Recent ([] : Log ω κ) o := by
  rintro ⟨before, after, h, _⟩
  cases before <;> cases h

theorem numbered_nil (bound : Nat) : Numbered bound ([] : Log ω κ) := by
  simp [Numbered]

theorem current_nil (n : Nat) (job : κ) : Current ([] : Log ω κ) n job :=
  ⟨Or.inl rfl, numbered_nil n, by simp, by simp⟩

theorem lastStart_append (log more : Log ω κ) :
    lastStart (log ++ more) = (lastStart more).or (lastStart log) := by
  induction log with
  | nil => simp [lastStart]
  | cons e rest ih => simp [lastStart, ih, Option.or_assoc]

theorem lastStart_eq_none (h : lastStart log = none) : ∀ e ∈ log, e.isStart = false := by
  induction log with
  | nil => simp
  | cons e rest ih =>
      simp only [lastStart, Option.or_eq_none_iff] at h
      intro e' he
      rcases List.mem_cons.mp he with rfl | he
      · cases e' <;> simp_all [Entry.isStart]
      · exact ih h.1 e' he

theorem lastStart_mem {p : Nat × κ} (h : lastStart log = some p) : .started p.1 p.2 ∈ log := by
  induction log with
  | nil => cases h
  | cons e rest ih =>
      cases hr : lastStart rest with
      | some q =>
          simp only [lastStart, hr, Option.some_or, Option.some.injEq] at h
          subst h
          exact List.mem_cons_of_mem _ (ih hr)
      | none =>
          cases e with
          | started n job =>
              simp only [lastStart, hr, Option.none_or, Option.some.injEq] at h
              subst h
              exact List.mem_cons_self
          | _ => simp [lastStart, hr] at h

theorem Numbered.mono {a b : Nat} (hab : a ≤ b) (h : Numbered a log) : Numbered b log :=
  ⟨fun n job hn => Nat.le_trans (h.1 n job hn) hab, fun n hn => Nat.le_trans (h.2 n hn) hab⟩

theorem Numbered.append {bound : Nat} {more : Log ω κ} (h : Numbered bound log)
    (hm : Numbered bound more) : Numbered bound (log ++ more) := by
  constructor
  · intro n job hn
    rcases List.mem_append.mp hn with hn | hn
    · exact h.1 n job hn
    · exact hm.1 n job hn
  · intro n hn
    rcases List.mem_append.mp hn with hn | hn
    · exact h.2 n hn
    · exact hm.2 n hn

/-- A raised entry of an extended log is the new entry or stands in the old log. -/
theorem raised_split {e : Entry ω κ} {before after : Log ω κ}
    (h : log ++ [e] = before ++ .raised o :: after) :
    (e = .raised o ∧ after = []) ∨
      ∃ old, after = old ++ [e] ∧ log = before ++ .raised o :: old := by
  induction after using List.reverseRecOn with
  | nil =>
      obtain ⟨_, he⟩ := List.append_inj' h rfl
      exact Or.inl ⟨List.head_eq_of_cons_eq he, rfl⟩
  | append_singleton old last _ =>
      rw [← List.cons_append, ← List.append_assoc] at h
      obtain ⟨hl, he⟩ := List.append_inj' h rfl
      rw [List.head_eq_of_cons_eq he]
      exact Or.inr ⟨old, rfl, hl⟩

/-! ## What one more entry changes -/

theorem recent_raised_iff (o' : ω) :
    Recent (log ++ [.raised o']) o ↔ o = o' ∨ Recent log o := by
  constructor
  · rintro ⟨before, after, h, quiet⟩
    rcases raised_split h with ⟨he, _⟩ | ⟨old, rfl, hl⟩
    · cases he
      exact Or.inl rfl
    · exact Or.inr ⟨before, old, hl, fun e he => quiet e (List.mem_append_left _ he)⟩
  · rintro (rfl | ⟨before, after, rfl, quiet⟩)
    · exact ⟨log, [], rfl, by simp⟩
    · refine ⟨before, after ++ [.raised o'], by simp, ?_⟩
      intro e he
      rcases List.mem_append.mp he with he | he
      · exact quiet e he
      · rw [List.mem_singleton.mp he]
        rfl

theorem not_recent_started (n : Nat) (job : κ) : ¬ Recent (log ++ [.started n job]) o := by
  rintro ⟨before, after, h, quiet⟩
  rcases raised_split h with ⟨he, _⟩ | ⟨old, rfl, _⟩
  · cases he
  · have := quiet (.started n job) (by simp)
    simp [Entry.isStart] at this

theorem outstanding_raised_iff (o' : ω) :
    Outstanding covers (log ++ [.raised o']) o ↔ o = o' ∨ Outstanding covers log o := by
  constructor
  · rintro ⟨before, after, h, open_⟩
    rcases raised_split h with ⟨he, _⟩ | ⟨old, rfl, hl⟩
    · cases he
      exact Or.inl rfl
    · refine Or.inr ⟨before, old, hl, fun n job hn hc hs => ?_⟩
      exact open_ n job (List.mem_append_left _ hn) hc (List.mem_append_left _ hs)
  · rintro (rfl | ⟨before, after, hl, open_⟩)
    · exact ⟨log, [], rfl, by simp⟩
    · refine ⟨before, after ++ [.raised o'], by simp [hl], fun n job hn hc hs => ?_⟩
      exact open_ n job (by simpa using hn) hc (by simpa using hs)

/-- Starting a job discharges nothing: its number has not succeeded yet. -/
theorem outstanding_started_iff {bound n : Nat} {job : κ} (hb : Numbered bound log)
    (hn : bound < n) : Outstanding covers (log ++ [.started n job]) o ↔ Outstanding covers log o := by
  constructor
  · rintro ⟨before, after, h, open_⟩
    rcases raised_split h with ⟨he, _⟩ | ⟨old, rfl, hl⟩
    · cases he
    · refine ⟨before, old, hl, fun k job' hk hc hs => ?_⟩
      exact open_ k job' (List.mem_append_left _ hk) hc (List.mem_append_left _ hs)
  · rintro ⟨before, after, hl, open_⟩
    refine ⟨before, after ++ [.started n job], by simp [hl], fun k job' hk hc hs => ?_⟩
    have hs' : .succeeded k ∈ log := by simpa using hs
    rcases List.mem_append.mp hk with hk | hk
    · exact open_ k job' hk hc hs'
    · have hkn : k = n := by simpa using And.left (by simpa using hk)
      have := hb.2 k hs'
      omega

theorem outstanding_failed_iff (n : Nat) :
    Outstanding covers (log ++ [.failed n]) o ↔ Outstanding covers log o := by
  constructor
  · rintro ⟨before, after, h, open_⟩
    rcases raised_split h with ⟨he, _⟩ | ⟨old, rfl, hl⟩
    · cases he
    · refine ⟨before, old, hl, fun k job hk hc hs => ?_⟩
      exact open_ k job (List.mem_append_left _ hk) hc (List.mem_append_left _ hs)
  · rintro ⟨before, after, hl, open_⟩
    refine ⟨before, after ++ [.failed n], by simp [hl], fun k job hk hc hs => ?_⟩
    exact open_ k job (by simpa using hk) hc (by simpa using hs)

theorem Recent.outstanding (h : Recent log o) : Outstanding covers log o := by
  obtain ⟨before, after, hl, quiet⟩ := h
  refine ⟨before, after, hl, fun n job hn _ => ?_⟩
  have := quiet _ hn
  simp [Entry.isStart] at this

/-- The success of the job in flight leaves outstanding what was raised after
its start and what it does not cover. -/
theorem outstanding_succeeded_iff {n : Nat} {job : κ} (hc : Current log n job) :
    Outstanding covers (log ++ [.succeeded n]) o ↔
      Recent log o ∨ (¬ covers job o ∧ Outstanding covers log o) := by
  constructor
  · rintro ⟨before, after, h, open_⟩
    rcases raised_split h with ⟨he, _⟩ | ⟨old, rfl, hl⟩
    · cases he
    · cases hs : lastStart old with
      | none => exact Or.inl ⟨before, old, hl, lastStart_eq_none hs⟩
      | some p =>
          have hlast : lastStart log = some p := by
            rw [hl, lastStart_append]
            simp [lastStart, hs]
          have hp : p = (n, job) := by
            rcases hc.last with hnone | hsome
            · rw [hnone] at hlast
              cases hlast
            · rw [hsome] at hlast
              exact (Option.some.inj hlast).symm
          have hin : .started n job ∈ old := by
            have := lastStart_mem hs
            rwa [hp] at this
          refine Or.inr ⟨fun hcov => ?_, before, old, hl, fun k job' hk hcov hsucc => ?_⟩
          · exact open_ n job (List.mem_append_left _ hin) hcov (by simp)
          · exact open_ k job' (List.mem_append_left _ hk) hcov (List.mem_append_left _ hsucc)
  · rintro (⟨before, after, hl, quiet⟩ | ⟨hcov, before, after, hl, open_⟩)
    · refine ⟨before, after ++ [.succeeded n], by simp [hl], fun k job' hk => ?_⟩
      have hk' : .started k job' ∈ after := by simpa using hk
      have := quiet _ hk'
      simp [Entry.isStart] at this
    · refine ⟨before, after ++ [.succeeded n], by simp [hl], fun k job' hk hcov' hsucc => ?_⟩
      have hk' : .started k job' ∈ after := by simpa using hk
      rcases List.mem_append.mp hsucc with hsucc | hsucc
      · exact open_ k job' hk' hcov' hsucc
      · have hkn : k = n := by simpa using hsucc
        subst hkn
        have hmem : .started k job' ∈ log := by
          rw [hl]
          exact List.mem_append_right _ (List.mem_cons_of_mem _ hk')
        rw [hc.same job' hmem] at hcov'
        exact hcov hcov'

/-! ## The job in flight -/

theorem Current.raised {n : Nat} {job : κ} (h : Current log n job) (o : ω) :
    Current (log ++ [.raised o]) n job where
  last := by simpa [lastStart_append, lastStart] using h.last
  numbered := h.numbered.append (by simp [Numbered])
  unsettled := by simpa using h.unsettled
  same := fun job' hm => h.same job' (by simpa using hm)

/-- The job in flight ends with its own number. -/
theorem Current.settled {n : Nat} {job : κ} (h : Current log n job) {e : Entry ω κ}
    (he : e = .succeeded n ∨ e = .failed n) : Numbered n (log ++ [e]) := by
  refine h.numbered.append ?_
  rcases he with rfl | rfl <;> simp [Numbered]

theorem Numbered.current {bound n : Nat} (h : Numbered bound log) (hn : bound < n) (job : κ) :
    Current (log ++ [.started n job]) n job where
  last := Or.inr (by simp [lastStart_append, lastStart])
  numbered := (h.mono (Nat.le_of_lt hn)).append (by simp [Numbered])
  unsettled := by
    intro hm
    have := h.2 n (by simpa using hm)
    omega
  same := by
    intro job' hm
    rcases List.mem_append.mp hm with hm | hm
    · have := h.1 n job' hm
      omega
    · simpa using hm

end Log

end AfyxGraph.Core
