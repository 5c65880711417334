import Mathlib.Data.List.Induction

/-! # The last rule decides

Rules are read in order, and the last one that hits has its way. When a rule hits wherever it
has hit something below in an order, the decisions of the whole order come down to the rules
that are not overridden from below.
-/

namespace AfyxGraph.Core

universe u v

variable {ρ : Type u} {rules : List ρ} {hit : ρ → Prop} {rule : ρ}

/-- The rule hits, and no later one does. -/
def Decides (rules : List ρ) (hit : ρ → Prop) (rule : ρ) : Prop :=
  ∃ before after, rules = before ++ rule :: after ∧ hit rule ∧ ∀ r ∈ after, ¬ hit r

theorem not_decides_nil : ¬ Decides [] hit rule := by
  rintro ⟨before, after, heq, -⟩
  simp at heq

theorem Decides.mem (h : Decides rules hit rule) : rule ∈ rules := by
  obtain ⟨before, after, rfl, -⟩ := h
  simp

theorem Decides.append_left (front : List ρ) (h : Decides rules hit rule) :
    Decides (front ++ rules) hit rule := by
  obtain ⟨before, after, rfl, hrule, hafter⟩ := h
  exact ⟨front ++ before, after, by simp, hrule, hafter⟩

theorem decides_concat {last : ρ} : Decides (rules ++ [last]) hit rule ↔
    (hit last ∧ rule = last) ∨ (¬ hit last ∧ Decides rules hit rule) := by
  constructor
  · rintro ⟨before, after, heq, hrule, hafter⟩
    rcases List.eq_nil_or_concat after with rfl | ⟨rest, r, rfl⟩
    · obtain ⟨-, hsame⟩ := List.append_inj' heq rfl
      obtain rfl : last = rule := by simpa using hsame
      exact .inl ⟨hrule, rfl⟩
    · rw [List.concat_eq_append] at heq hafter
      have hsplit : rules ++ [last] = (before ++ rule :: rest) ++ [r] := by simpa using heq
      obtain ⟨rfl, hsame⟩ := List.append_inj' hsplit rfl
      obtain rfl : last = r := by simpa using hsame
      refine .inr ⟨hafter last (by simp), before, rest, rfl, hrule, fun other hother => ?_⟩
      exact hafter other (List.mem_append_left _ hother)
  · rintro (⟨hlast, rfl⟩ | ⟨hlast, before, after, rfl, hrule, hafter⟩)
    · exact ⟨rules, [], rfl, hlast, nofun⟩
    · refine ⟨before, after ++ [last], by simp, hrule, fun other hother => ?_⟩
      rcases List.mem_append.mp hother with hother | hother
      · exact hafter other hother
      · exact List.mem_singleton.mp hother ▸ hlast

theorem exists_decides (hmem : rule ∈ rules) (hrule : hit rule) : ∃ last, Decides rules hit last := by
  induction rules using List.reverseRecOn with
  | nil => cases hmem
  | append_singleton rules last ih =>
      by_cases hlast : hit last
      · exact ⟨last, decides_concat.mpr (.inl ⟨hlast, rfl⟩)⟩
      · rcases List.mem_append.mp hmem with hmem | hmem
        · obtain ⟨found, hfound⟩ := ih hmem
          exact ⟨found, decides_concat.mpr (.inr ⟨hlast, hfound⟩)⟩
        · exact absurd (List.mem_singleton.mp hmem ▸ hrule) hlast

/-- A pass over the rules that keeps the verdict of the last one that hit. -/
theorem foldl_eq_true_iff {hits verdict : ρ → Bool} :
    rules.foldl (fun found r => if hits r then verdict r else found) false = true ↔
      ∃ rule, Decides rules (hits · = true) rule ∧ verdict rule = true := by
  induction rules using List.reverseRecOn with
  | nil =>
      simp only [List.foldl_nil, Bool.false_eq_true, false_iff, not_exists, not_and]
      exact fun rule h => absurd h not_decides_nil
  | append_singleton rules last ih =>
      rw [List.foldl_append, List.foldl_cons, List.foldl_nil]
      simp only [decides_concat]
      split
      · rename_i hlast
        constructor
        · exact fun hverdict => ⟨last, .inl ⟨hlast, rfl⟩, hverdict⟩
        · rintro ⟨rule, ⟨-, rfl⟩ | ⟨hnot, -⟩, hverdict⟩
          · exact hverdict
          · exact absurd hlast hnot
      · rename_i hlast
        rw [ih]
        constructor
        · rintro ⟨rule, hrule, hverdict⟩
          exact ⟨rule, .inr ⟨hlast, hrule⟩, hverdict⟩
        · rintro ⟨rule, ⟨hhit, -⟩ | ⟨-, hrule⟩, hverdict⟩
          · exact absurd hhit hlast
          · exact ⟨rule, hrule, hverdict⟩

/-! ## Rules along an order -/

variable {ε : Type v} {own : ρ → ε → Prop} {le : ε → ε → Prop} {places : ε → Prop}

/-- The rule is the place's own, and no later one is of the place or of one below it in the
order. -/
def Settles (rules : List ρ) (own : ρ → ε → Prop) (le : ε → ε → Prop) (e : ε) (rule : ρ) : Prop :=
  ∃ before after, rules = before ++ rule :: after ∧ own rule e ∧
    ∀ r ∈ after, ∀ d, le d e → ¬ own r d

/-- Rules hit their own places, and nothing that is not above one of their own. Where a rule
that is not accepted stays in force above its own places, some place is decided by an accepted
rule exactly when some place is settled by one. -/
theorem exists_decides_iff_exists_settles {hit : ρ → ε → Prop} (accepted : ρ → Prop)
    (refl : ∀ e, le e e) (trans : ∀ c d e, le c d → le d e → le c e)
    (closed : ∀ d e, places e → le d e → places d)
    (ofOwn : ∀ e, places e → ∀ r ∈ rules, own r e → hit r e)
    (toOwn : ∀ e, places e → ∀ r ∈ rules, hit r e → ∃ d, le d e ∧ own r d)
    (stays : ∀ e, places e → ∀ r ∈ rules, ¬ accepted r → ∀ d, le d e → own r d → hit r e) :
    (∃ e, places e ∧ ∃ rule, Decides rules (hit · e) rule ∧ accepted rule) ↔
      ∃ e, places e ∧ ∃ rule, Settles rules own le e rule ∧ accepted rule := by
  constructor
  · rintro ⟨e, he, rule, ⟨before, after, rfl, hhit, hafter⟩, haccepted⟩
    obtain ⟨d, hd, hown⟩ := toOwn e he rule (by simp) hhit
    -- the last of the rules from here on that has a place of its own up to `d`
    have hlast : ∃ last, Decides (rule :: after) (fun r => ∃ c, le c d ∧ own r c) last :=
      exists_decides (List.mem_cons_self ..) ⟨d, refl d, hown⟩
    obtain ⟨last, hlast⟩ := hlast
    have hlastAccepted : accepted last := by
      rcases List.mem_cons.mp hlast.mem with rfl | hmem
      · exact haccepted
      · obtain ⟨-, -, -, ⟨c, hc, hother⟩, -⟩ := hlast
        refine Classical.byContradiction fun hnot => hafter last hmem ?_
        exact stays e he last (by simp [hmem]) hnot c (trans c d e hc hd) hother
    obtain ⟨front, rest, heq, ⟨c, hc, hother⟩, hrest⟩ := hlast.append_left before
    have hplace : places c := closed c e he (trans c d e hc hd)
    refine ⟨c, hplace, last, ⟨front, rest, heq, hother, fun r hr b hb hown => ?_⟩, hlastAccepted⟩
    exact hrest r hr ⟨b, trans b c d hb hc, hown⟩
  · rintro ⟨e, he, rule, ⟨before, after, rfl, hown, hafter⟩, haccepted⟩
    refine ⟨e, he, rule, ⟨before, after, rfl, ofOwn e he rule (by simp) hown, fun r hr hhit => ?_⟩,
      haccepted⟩
    obtain ⟨d, hd, hother⟩ := toOwn e he r (by simp [hr]) hhit
    exact hafter r hr d hd hother

/-- A settled place is decided by its own rules alone. -/
theorem Settles.decides {e : ε} (refl : ∀ e, le e e) (h : Settles rules own le e rule) :
    Decides rules (own · e) rule := by
  obtain ⟨before, after, heq, hown, hafter⟩ := h
  exact ⟨before, after, heq, hown, fun r hr => hafter r hr e (refl e)⟩

end AfyxGraph.Core
