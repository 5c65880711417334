import Mathlib.Data.List.Basic

/-! # Reading a text by positions

A reader goes over a text with an index and writes into a copy of it. At a position it takes a
lexeme, of a kind it picks there, or passes one unit. The relation `Lexed` says the same of the text
itself: what is read before, and the rest, divided into lexemes. A reader that agrees with a grammar
renders every division.
-/

namespace AfyxGraph.Core

variable {α φ σ : Type}

/-- Where a lexeme begins, where it stops, what is written over it, and the state behind it. -/
structure Reader (α φ σ : Type) where
  branch : σ → List α → Nat → Option φ
  stop : φ → List α → Nat → Nat
  edit : φ → List α → Nat → List α → List α
  after : σ → Option φ → Option α → σ

namespace Reader

/-- The loop `while (i < n)`; `none` when it goes round more often than `fuel` says. -/
def run (r : Reader α φ σ) (src : List α) : (fuel : Nat) → σ → Nat → List α → Option (List α)
  | 0, _, i, out => if i < src.length then none else some out
  | fuel + 1, s, i, out =>
      if i < src.length then
        match r.branch s src i with
        | some f =>
            let next := r.stop f src i
            r.run src fuel (r.after s (some f) src[next - 1]?) next (r.edit f src i out)
        | none => r.run src fuel (r.after s none src[i]?) (i + 1) out
      else some out

theorem run_of_le (r : Reader α φ σ) {src : List α} {fuel : Nat} {s : σ} {i : Nat} {out : List α}
    (h : src.length ≤ i) : r.run src fuel s i out = some out := by
  cases fuel with
  | zero => exact if_neg (Nat.not_lt.mpr h)
  | succ fuel => exact if_neg (Nat.not_lt.mpr h)

end Reader

/-- What a lexeme of a kind is, before the rest of the text, and what it is rendered as. -/
structure Grammar (α φ : Type) where
  reads : φ → List α → List α → Prop
  paint : φ → List α → List α

/-- A part of a text: a lexeme of a kind, or a single unit. -/
abbrev Lexeme (α φ : Type) := Option φ × List α

def Grammar.render (g : Grammar α φ) (lexemes : List (Lexeme α φ)) : List α :=
  lexemes.flatMap fun l =>
    match l.1 with
    | some f => g.paint f l.2
    | none => l.2

/-- The rest of a text divided into lexemes. -/
inductive Lexed (r : Reader α φ σ) (g : Grammar α φ) :
    σ → List α → List α → List (Lexeme α φ) → Prop
  | done (s : σ) (before : List α) : Lexed r g s before [] []
  | lexeme {s : σ} {before t rest : List α} {ls : List (Lexeme α φ)} {f : φ} (first : t ≠ [])
      (begins : r.branch s (before ++ (t ++ rest)) before.length = some f)
      (reads : g.reads f t rest)
      (more : Lexed r g (r.after s (some f) t.getLast?) (before ++ t) rest ls) :
      Lexed r g s before (t ++ rest) ((some f, t) :: ls)
  | unit {s : σ} {before rest : List α} {ls : List (Lexeme α φ)} {c : α}
      (begins : r.branch s (before ++ c :: rest) before.length = none)
      (more : Lexed r g (r.after s none (some c)) (before ++ [c]) rest ls) :
      Lexed r g s before (c :: rest) ((none, [c]) :: ls)

/-- The reader takes what the grammar says, and stays inside the text. -/
structure Agrees (r : Reader α φ σ) (g : Grammar α φ) : Prop where
  exists_reads : ∀ {s before f} {rest : List α}, rest ≠ [] →
    r.branch s (before ++ rest) before.length = some f →
      ∃ t tail, rest = t ++ tail ∧ t ≠ [] ∧ g.reads f t tail
  stop_eq : ∀ {s before t rest f}, r.branch s (before ++ (t ++ rest)) before.length = some f →
    t ≠ [] → g.reads f t rest →
      r.stop f (before ++ (t ++ rest)) before.length = before.length + t.length ∨
        rest = [] ∧ before.length + t.length ≤ r.stop f (before ++ (t ++ rest)) before.length
  edit_eq : ∀ {s before t rest f}, r.branch s (before ++ (t ++ rest)) before.length = some f →
    t ≠ [] → g.reads f t rest → ∀ done : List α, done.length = before.length →
      r.edit f (before ++ (t ++ rest)) before.length (done ++ (t ++ rest)) =
        done ++ (g.paint f t ++ rest)
  length_paint : ∀ f t, (g.paint f t).length = t.length

variable {r : Reader α φ σ} {g : Grammar α φ}

namespace Lexed

theorem flatten_eq {s : σ} {before rest : List α} {ls : List (Lexeme α φ)}
    (h : Lexed r g s before rest ls) : (ls.map (·.2)).flatten = rest := by
  induction h with
  | done => rfl
  | lexeme _ _ _ _ ih => rw [List.map_cons, List.flatten_cons, ih]
  | unit _ _ ih =>
      rw [List.map_cons, List.flatten_cons, ih]
      rfl

theorem length_le {s : σ} {before rest : List α} {ls : List (Lexeme α φ)}
    (h : Lexed r g s before rest ls) : ls.length ≤ rest.length := by
  induction h with
  | done => exact Nat.le_refl _
  | lexeme first _ _ _ ih =>
      have hpos := List.length_pos_iff.mpr first
      rw [List.length_cons, List.length_append]
      omega
  | unit _ _ ih => exact Nat.succ_le_succ ih

end Lexed

/-- What keeps the length of every part keeps the length of the text. -/
theorem length_flatMap_parts {β : Type} {f : Lexeme α φ → List β}
    (h : ∀ l, (f l).length = l.2.length) (ls : List (Lexeme α φ)) :
    (ls.flatMap f).length = (ls.map (·.2)).flatten.length := by
  induction ls with
  | nil => rfl
  | cons l ls ih =>
      rw [List.flatMap_cons, List.map_cons, List.flatten_cons, List.length_append,
        List.length_append, h, ih]

namespace Agrees

theorem exists_lexed (h : Agrees r g) (s : σ) (before rest : List α) :
    ∃ ls, Lexed r g s before rest ls := by
  induction hlen : rest.length using Nat.strongRecOn generalizing s before rest with
  | _ len ih =>
      subst hlen
      cases rest with
      | nil => exact ⟨[], .done s before⟩
      | cons c rest =>
          cases hbranch : r.branch s (before ++ c :: rest) before.length with
          | none =>
              obtain ⟨ls, hls⟩ := ih _ (Nat.lt_succ_self _) (r.after s none (some c))
                (before ++ [c]) rest rfl
              exact ⟨_, .unit hbranch hls⟩
          | some f =>
              obtain ⟨t, tail, heq, hne, hreads⟩ := h.exists_reads (List.cons_ne_nil _ _) hbranch
              have hpos := List.length_pos_iff.mpr hne
              rw [heq] at ih hbranch ⊢
              obtain ⟨ls, hls⟩ := ih tail.length
                (by rw [List.length_append]; omega) (r.after s (some f) t.getLast?)
                (before ++ t) tail rfl
              exact ⟨_, .lexeme hne hbranch hreads hls⟩

theorem lexeme_unique (h : Agrees r g) {s : σ} {before t rest t' rest' : List α} {f : φ}
    (begins : r.branch s (before ++ (t ++ rest)) before.length = some f) (ht : t ≠ [])
    (ht' : t' ≠ []) (hreads : g.reads f t rest) (hreads' : g.reads f t' rest')
    (heq : t ++ rest = t' ++ rest') : t = t' ∧ rest = rest' := by
  have hlength := congrArg List.length heq
  rw [List.length_append, List.length_append] at hlength
  have hstop := h.stop_eq begins ht hreads
  rw [heq] at begins hstop
  have hstop' := h.stop_eq begins ht' hreads'
  refine List.append_inj heq ?_
  rcases hstop with hstop | ⟨hnil, hstop⟩ <;> rcases hstop' with hstop' | ⟨hnil', hstop'⟩
  · omega
  · rw [hnil', List.length_nil] at hlength
    omega
  · rw [hnil, List.length_nil] at hlength
    omega
  · rw [hnil, hnil'] at hlength
    omega

theorem lexed_unique (h : Agrees r g) {s : σ} {before rest rest' : List α}
    {ls ls' : List (Lexeme α φ)} (hls : Lexed r g s before rest ls)
    (hls' : Lexed r g s before rest' ls') (heq : rest = rest') : ls = ls' := by
  induction hls generalizing rest' ls' with
  | done s before =>
      cases hls' with
      | done => rfl
      | lexeme first => exact absurd (List.append_eq_nil_iff.mp heq.symm).1 first
      | unit => cases heq
  | @lexeme s before t rest ls f first begins reads more ih =>
      cases hls' with
      | done => exact absurd (List.append_eq_nil_iff.mp heq).1 first
      | @lexeme _ _ t' rest' ls' f' first' begins' reads' more' =>
          obtain rfl : f' = f := Option.some.inj (begins'.symm.trans (heq ▸ begins))
          obtain ⟨rfl, rfl⟩ := h.lexeme_unique begins first first' reads reads' heq
          rw [ih more' rfl]
      | unit begins' => cases begins'.symm.trans (heq ▸ begins)
  | @unit s before rest ls c begins more ih =>
      cases hls' with
      | done => cases heq
      | lexeme first' begins' => cases begins'.symm.trans (heq ▸ begins)
      | unit begins' more' =>
          cases heq
          rw [ih more' rfl]

/-- Every text can be divided, in one way. -/
theorem existsUnique_lexed (h : Agrees r g) (s : σ) (before rest : List α) :
    ∃! ls, Lexed r g s before rest ls := by
  obtain ⟨ls, hls⟩ := h.exists_lexed s before rest
  exact ⟨ls, hls, fun ls' hls' => h.lexed_unique hls' hls rfl⟩

/-- The loop ends and renders the division. -/
theorem run_eq (h : Agrees r g) {s : σ} {before rest : List α} {ls : List (Lexeme α φ)}
    (hlexed : Lexed r g s before rest ls) {fuel : Nat} (hfuel : ls.length ≤ fuel)
    (done : List α) (hdone : done.length = before.length) :
    r.run (before ++ rest) fuel s before.length (done ++ rest) = some (done ++ g.render ls) := by
  induction hlexed generalizing fuel done with
  | done s before =>
      rw [Reader.run_of_le r (by simp)]
      rfl
  | @lexeme s before t rest ls f first begins reads more ih =>
      obtain ⟨fuel, rfl⟩ : ∃ k, fuel = k + 1 :=
        Nat.exists_eq_add_of_le' (Nat.le_trans (Nat.succ_le_succ (Nat.zero_le _)) hfuel)
      have hpos := List.length_pos_iff.mpr first
      have hin : before.length < (before ++ (t ++ rest)).length := by
        simp only [List.length_append]
        omega
      rw [Reader.run, if_pos hin]
      simp only [begins]
      rw [h.edit_eq begins first reads done hdone]
      have hpainted : (done ++ g.paint f t).length = (before ++ t).length := by
        rw [List.length_append, List.length_append, hdone, h.length_paint]
      have hrest := ih (Nat.le_of_succ_le_succ hfuel) _ hpainted
      have hrender : g.render ((some f, t) :: ls) = g.paint f t ++ g.render ls := rfl
      rw [hrender]
      rcases h.stop_eq begins first reads with hstop | ⟨rfl, hstop⟩
      · have hlast : (before ++ (t ++ rest))[before.length + t.length - 1]? = t.getLast? := by
          rw [List.getElem?_append_right (by omega), List.getElem?_append_left (by omega),
            List.getLast?_eq_getElem?]
          congr 1
          omega
        rw [hstop, hlast]
        simpa only [List.append_assoc, List.length_append] using hrest
      · obtain rfl : ls = [] := by
          simpa using more.length_le
        rw [Reader.run_of_le r (by simpa using hstop)]
        simp [Grammar.render]
  | @unit s before rest ls c begins more ih =>
      obtain ⟨fuel, rfl⟩ : ∃ k, fuel = k + 1 :=
        Nat.exists_eq_add_of_le' (Nat.le_trans (Nat.succ_le_succ (Nat.zero_le _)) hfuel)
      have hin : before.length < (before ++ c :: rest).length := by simp
      have hunit : (before ++ c :: rest)[before.length]? = some c := by simp
      have hrest := ih (Nat.le_of_succ_le_succ hfuel) (done ++ [c]) (by simp [hdone])
      rw [Reader.run, if_pos hin]
      simp only [begins, hunit]
      simpa [Grammar.render] using hrest

theorem length_render (h : Agrees r g) (ls : List (Lexeme α φ)) :
    (g.render ls).length = (ls.map (·.2)).flatten.length := by
  refine length_flatMap_parts (fun l => ?_) ls
  obtain ⟨f | f, t⟩ := l
  · rfl
  · exact h.length_paint f t

end Agrees

end AfyxGraph.Core
