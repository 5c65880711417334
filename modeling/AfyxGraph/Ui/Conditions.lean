import AfyxGraph.Graph.GuardLabels

/-! # The clauses of a condition

The viewer takes a condition apart again: it splits the joined label at each ` && ` outside quotes
and brackets. What a label leaves open, though, stays open over the join, and the clauses behind it
are no longer told apart.
-/

namespace AfyxGraph.Ui.Conditions

open AfyxGraph.Runtime AfyxGraph.Graph.Guards
open AfyxGraph.UiServer (js isWhite trim replaceRuns stripEnd)

/-! ## The split -/

/-- The loop of `splitTop`: the terms as they stand; `skip` units of a separator are passed over. -/
def termsFrom (sep : JsString) : (skip : Nat) → Nesting → JsString → List JsString
  | _, _, [] => [[]]
  | skip + 1, n, _ :: rest => termsFrom sep skip n rest
  | 0, n, c :: rest =>
      if n = .top && !(isQuote c || isOpening c || isClosing c) && sep.isPrefixOf (c :: rest) then
        [] :: termsFrom sep (sep.length - 1) n rest
      else (termsFrom sep 0 (n.next c) rest).modifyHead (c :: ·)

/-- Trimmed, and without the empty ones. -/
def trimmed (terms : List JsString) : List JsString :=
  (terms.map trim).filter fun term => !term.isEmpty

/-- The top-level terms of a text around a separator. -/
def splitTop (sep text : JsString) : List JsString := trimmed (termsFrom sep 0 .top text)

/-! ## The separator -/

theorem plain_of_mem_conjunction {c : CodeUnit} (h : c ∈ conjunction) : isPlain c = true := by
  have hall : conjunction.all isPlain = true := by decide
  exact List.all_eq_true.mp hall c h

theorem after_conjunction : Nesting.top.after conjunction = .top :=
  Nesting.after_plain_top fun _ => plain_of_mem_conjunction

/-- The separator stands here, outside of everything. -/
def Splits (n : Nesting) (s : JsString) : Prop := n = .top ∧ conjunction <+: s

instance (n : Nesting) (s : JsString) : Decidable (Splits n s) :=
  inferInstanceAs (Decidable (_ ∧ _))

theorem splits_eq (n : Nesting) (c : CodeUnit) (rest : JsString) :
    (n = .top && !(isQuote c || isOpening c || isClosing c) &&
      conjunction.isPrefixOf (c :: rest)) = decide (Splits n (c :: rest)) := by
  by_cases hsep : conjunction <+: c :: rest
  · obtain ⟨t, ht⟩ := hsep
    obtain rfl : unit ' ' = c := (List.cons.inj ht).1
    have hstands : conjunction.isPrefixOf (unit ' ' :: rest) = true :=
      List.isPrefixOf_iff_prefix.mpr ⟨t, ht⟩
    rw [hstands, show (isQuote (unit ' ') || isOpening (unit ' ') || isClosing (unit ' ')) = false
      from by decide]
    simp only [Splits, Bool.not_false, Bool.and_true]
    exact (decide_eq_decide.mpr ⟨And.left, fun hn => ⟨hn, ⟨t, ht⟩⟩⟩).symm
  · have hstands : conjunction.isPrefixOf (c :: rest) = false :=
      Bool.eq_false_iff.mpr fun h => hsep (List.isPrefixOf_iff_prefix.mp h)
    rw [hstands, Bool.and_false]
    exact (decide_eq_false fun h => hsep h.2).symm

variable {n : Nesting} {s t rest : JsString} {c : CodeUnit}

/-- The terms around ` && `. -/
def terms (n : Nesting) (s : JsString) : List JsString := termsFrom conjunction 0 n s

theorem termsFrom_drop (skip : Nat) (n : Nesting) (s : JsString) :
    termsFrom conjunction skip n s = terms n (s.drop skip) := by
  induction s generalizing skip with
  | nil =>
      rw [List.drop_nil]
      cases skip <;> rfl
  | cons c s ih =>
      cases skip with
      | zero => rfl
      | succ skip =>
          rw [termsFrom, ih]
          rfl

theorem terms_of_splits (hn : n = .top) : terms n (conjunction ++ t) = [] :: terms n t := by
  have hsplits : Splits n (unit ' ' :: (js "&& " ++ t)) := ⟨hn, ⟨t, rfl⟩⟩
  show termsFrom conjunction 0 n (unit ' ' :: (js "&& " ++ t)) = _
  rw [termsFrom, splits_eq, if_pos (decide_eq_true hsplits), termsFrom_drop]
  rfl

theorem terms_cons (h : ¬ Splits n (c :: rest)) :
    terms n (c :: rest) = (terms (n.next c) rest).modifyHead (c :: ·) := by
  show termsFrom conjunction 0 n (c :: rest) = _
  rw [termsFrom, splits_eq, if_neg (by simpa using h)]
  rfl

/-! ## A text with more behind it -/

/-- Whether the separator stands here is up to the text and the next join. -/
theorem splits_of_splits_append (u : JsString) (h : Splits n (c :: (s ++ (conjunction ++ t)))) :
    Splits n (c :: (s ++ (conjunction ++ u))) := by
  have hsplit : ∀ v, c :: (s ++ (conjunction ++ v)) = (c :: (s ++ conjunction)) ++ v := by
    intro v
    simp only [List.cons_append, List.append_assoc]
  obtain ⟨hn, hin⟩ := h
  rw [hsplit] at hin
  have hlen : conjunction.length ≤ (c :: (s ++ conjunction)).length := by
    simp only [List.length_cons, List.length_append]
    omega
  have hshort := List.prefix_of_prefix_length_le hin (List.prefix_append ..) hlen
  rw [Splits, hsplit]
  exact ⟨hn, hshort.trans (List.prefix_append ..)⟩

/-- A separator that begins in a text without one and ends behind it begins with the text. -/
theorem eq_openJoin (hnot : ¬ conjunction <+: s)
    (h : conjunction <+: s ++ (conjunction ++ t)) : s = [] ∨ s = openJoin := by
  rcases List.prefix_or_prefix_of_prefix h (List.prefix_append ..) with hin | hin
  · exact absurd hin hnot
  · obtain ⟨u, hu⟩ := hin
    have hnext : u <+: conjunction ++ t := (List.prefix_append_right_inj s).mp (hu.symm ▸ h)
    have hlen : s.length + u.length = 4 := by
      rw [← List.length_append, hu]
      rfl
    rw [List.prefix_iff_eq_take] at hnext
    have htake : ∀ k ≤ 4, (conjunction ++ t).take k = conjunction.take k := fun k hk =>
      List.take_append_of_le_length hk
    rw [htake _ (by omega)] at hnext
    have hs : s = conjunction.take s.length := by
      rw [← hu, List.take_left]
    have hdrop : conjunction.drop s.length = conjunction.take u.length := by
      rw [← hnext, ← hu, List.drop_left]
    -- only the empty text and the separator without its last blank leave a rest that fits
    have hfits : ∀ k ≤ 4, conjunction.drop k = conjunction.take (4 - k) →
        conjunction.take k = [] ∨ conjunction.take k = openJoin ∨ conjunction.take k = conjunction
        := by
      decide
    rw [show u.length = 4 - s.length from by omega] at hdrop
    rcases hfits s.length (by omega) hdrop with hcase | hcase | hcase
    · exact .inl (hs.trans hcase)
    · exact .inr (hs.trans hcase)
    · exact absurd (hs.trans hcase ▸ List.prefix_rfl) hnot

/-- A text is one term, or its first term ends at a separator. -/
theorem first_term (n : Nesting) (s : JsString) :
    terms n s = [s] ∨ ∃ a b, s = a ++ (conjunction ++ b) ∧ n.after a = .top ∧
      ∀ u, terms n (a ++ (conjunction ++ u)) = a :: terms .top u := by
  induction s generalizing n with
  | nil => exact .inl rfl
  | cons c rest ih =>
      by_cases hsplits : Splits n (c :: rest)
      · obtain ⟨rfl, b, hb⟩ := hsplits
        exact .inr ⟨[], b, hb.symm, rfl, fun u => terms_of_splits rfl⟩
      · rcases ih (n.next c) with hone | ⟨a, b, rfl, htop, hterms⟩
        · refine .inl ?_
          rw [terms_cons hsplits, hone]
          rfl
        · refine .inr ⟨c :: a, b, rfl, htop, fun u => ?_⟩
          rw [List.cons_append, terms_cons fun h => hsplits (splits_of_splits_append b h),
            hterms]
          rfl

theorem terms_ne_nil (n : Nesting) (s : JsString) : terms n s ≠ [] := by
  rcases first_term n s with hone | ⟨a, b, rfl, -, hterms⟩
  · rw [hone]
    exact List.cons_ne_nil _ _
  · rw [hterms]
    exact List.cons_ne_nil _ _

theorem terms_plain (hn : n ≠ .top) (hs : ∀ c ∈ s, isPlain c = true) :
    terms n (s ++ t) = (terms (n.after s) t).modifyHead (s ++ ·) := by
  induction s generalizing n with
  | nil => exact (congrFun List.modifyHead_id _).symm
  | cons c rest ih =>
      have hnext := Nesting.next_plain_ne_top (hs c List.mem_cons_self) hn
      rw [List.cons_append, terms_cons fun h => hn h.1,
        ih hnext fun d hd => hs d (List.mem_cons_of_mem _ hd), List.modifyHead_modifyHead]
      rfl

/-- Where something is open a join is no separator. -/
theorem terms_of_open (hn : n ≠ .top) :
    ∃ q qs, terms n (conjunction ++ t) = (conjunction ++ q) :: qs := by
  obtain ⟨q, qs, hterms⟩ := List.exists_cons_of_ne_nil (terms_ne_nil (n.after conjunction) t)
  refine ⟨q, qs, ?_⟩
  rw [terms_plain hn fun _ => plain_of_mem_conjunction, hterms]
  rfl

theorem terms_eq_self (h : terms n (c :: rest) = [c :: rest]) :
    ¬ Splits n (c :: rest) ∧ terms (n.next c) rest = [rest] := by
  have hsplits : ¬ Splits n (c :: rest) := by
    rintro ⟨rfl, b, hb⟩
    rw [← hb, terms_of_splits rfl] at h
    cases (List.cons.inj h).1
  refine ⟨hsplits, ?_⟩
  rw [terms_cons hsplits] at h
  cases hterms : terms (n.next c) rest with
  | nil =>
      rw [hterms] at h
      cases h
  | cons q qs =>
      rw [hterms] at h
      simp only [List.modifyHead_cons, List.cons.injEq, true_and] at h
      rw [h.1, h.2]

/-- A text that is one term with a join behind it. -/
theorem one_term_append (h : terms n s = [s]) (hjoin : ¬ (n.after s = .top ∧ openJoin <:+ s)) :
    terms n (s ++ (conjunction ++ t)) =
      (terms (n.after s) (conjunction ++ t)).modifyHead (s ++ ·) := by
  induction s generalizing n with
  | nil => exact (congrFun List.modifyHead_id _).symm
  | cons c rest ih =>
      obtain ⟨hsplits, hrest⟩ := terms_eq_self h
      have hmore : ¬ Splits n (c :: (rest ++ (conjunction ++ t))) := by
        rintro ⟨hn, hin⟩
        rcases eq_openJoin (fun hpre => hsplits ⟨hn, hpre⟩) hin with hnil | heq
        · cases hnil
        · refine hjoin ⟨?_, heq ▸ List.suffix_rfl⟩
          rw [heq, hn]
          decide
      rw [List.cons_append, terms_cons hmore, ih hrest fun hj =>
        hjoin ⟨hj.1, hj.2.trans (List.suffix_cons ..)⟩, List.modifyHead_modifyHead]
      rfl

/-- The blank of a join completes a ` &&` at the end. -/
theorem one_term_append_openJoin (h : terms n (s ++ openJoin) = [s ++ openJoin])
    (htop : n.after s = .top) : terms n (s ++ (conjunction ++ t)) = s :: terms .top t := by
  induction s generalizing n with
  | nil =>
      obtain rfl : n = .top := htop
      exact terms_of_splits rfl
  | cons c rest ih =>
      obtain ⟨hsplits, hrest⟩ := terms_eq_self h
      have hmore : ¬ Splits n (c :: (rest ++ (conjunction ++ t))) := by
        rintro ⟨hn, hin⟩
        have hin' : c :: (rest ++ openJoin) <+: c :: (rest ++ (conjunction ++ t)) :=
          ⟨unit ' ' :: t, by simp only [List.cons_append, List.append_assoc]; rfl⟩
        have hlen : conjunction.length ≤ (c :: (rest ++ openJoin)).length := by
          simp only [List.length_cons, List.length_append]
          exact Nat.le_add_left ..
        exact hsplits ⟨hn, List.prefix_of_prefix_length_le hin hin' hlen⟩
      rw [List.cons_append, terms_cons hmore, ih hrest htop]
      rfl

/-- The last term of a text, the terms and the text before it. -/
structure LastTerm (s before last : JsString) (others : List JsString) : Prop where
  text : s = before ++ last
  one : terms .top last = [last]
  more : ∀ u, terms .top (before ++ u) = others ++ terms .top u
  begins : before = [] ∨ ∃ x, before = x ++ conjunction
  level : Nesting.top.after before = .top

theorem exists_lastTerm (s : JsString) : ∃ before last others, LastTerm s before last others := by
  induction hlen : s.length using Nat.strong_induction_on generalizing s with
  | _ len ih =>
      subst hlen
      rcases first_term .top s with hone | ⟨a, b, rfl, htop, hterms⟩
      · exact ⟨[], s, [], rfl, hone, fun _ => rfl, .inl rfl, rfl⟩
      · have hshort : b.length < (a ++ (conjunction ++ b)).length := by
          simp only [List.length_append, show conjunction.length = 4 from rfl]
          omega
        obtain ⟨before, last, others, hlast⟩ := ih _ hshort b rfl
        refine ⟨a ++ (conjunction ++ before), last, a :: others, ?_, hlast.one, ?_, .inr ?_, ?_⟩
        · rw [hlast.text]
          simp only [List.append_assoc]
        · intro u
          simp only [List.append_assoc]
          rw [hterms, hlast.more]
          rfl
        · rcases hlast.begins with hnil | ⟨x, hx⟩
          · exact ⟨a, by rw [hnil, List.append_nil]⟩
          · exact ⟨a ++ (conjunction ++ x), by rw [hx]; simp only [List.append_assoc]⟩
        · rw [Nesting.after_append, Nesting.after_append, htop, after_conjunction, hlast.level]

namespace LastTerm

variable {before last : JsString} {others : List JsString}

theorem terms_eq (h : LastTerm s before last others) : terms .top s = others ++ [last] := by
  rw [h.text, h.more, h.one]

theorem after_eq (h : LastTerm s before last others) :
    Nesting.top.after s = Nesting.top.after last := by
  rw [h.text, Nesting.after_append, h.level]

end LastTerm

/-! ## Blanks -/

theorem plain_of_isWhite {c : CodeUnit} (h : isWhite c = true) : isPlain c = true := by
  have hwhite : ∀ d ∈ [unit '\'', unit '"', unit '\x60', unit '(', unit '[', unit '\x7b', unit ')',
      unit ']', unit '\x7d', unit '\\'], c ≠ d := by
    rintro d hd rfl
    have hall : [unit '\'', unit '"', unit '\x60', unit '(', unit '[', unit '\x7b',
        unit ')', unit ']', unit '\x7d', unit '\\'].all (!isWhite ·) = true := by decide
    have hnot := List.all_eq_true.mp hall c hd
    rw [h] at hnot
    cases hnot
  simp only [List.forall_mem_cons] at hwhite
  simp [isPlain, isQuote, isOpening, isClosing, hwhite]

/-- How many units of a text are not white. -/
def solid (s : JsString) : Nat := s.countP (!isWhite ·)

theorem solid_append (s t : JsString) : solid (s ++ t) = solid s + solid t := List.countP_append

theorem solid_dropWhile (s : JsString) : solid (s.dropWhile isWhite) = solid s := by
  have hdropped : solid (s.takeWhile isWhite) = 0 := by
    rw [solid, List.countP_eq_zero]
    intro c hc
    simp [List.mem_takeWhile_imp hc]
  calc
    solid (s.dropWhile isWhite) = solid (s.takeWhile isWhite) + solid (s.dropWhile isWhite) := by
      rw [hdropped, Nat.zero_add]
    _ = solid s := by rw [← solid_append, List.takeWhile_append_dropWhile]

theorem solid_trim (s : JsString) : solid (trim s) = solid s := by
  have hreverse : ∀ t : JsString, solid t.reverse = solid t := fun t => List.countP_reverse
  rw [trim, stripEnd, hreverse, solid_dropWhile, hreverse, solid_dropWhile]

theorem trimmed_append (xs ys : List JsString) :
    trimmed (xs ++ ys) = trimmed xs ++ trimmed ys := by
  rw [trimmed, List.map_append, List.filter_append]
  rfl

theorem trimmed_cons_of_solid {x : JsString} {xs : List JsString} (h : solid x ≠ 0) :
    trimmed (x :: xs) = trim x :: trimmed xs := by
  have hne : trim x ≠ [] := by
    intro hnil
    rw [← solid_trim, hnil] at h
    exact h rfl
  rw [trimmed, List.map_cons, List.filter_cons_of_pos (by simpa using hne)]
  rfl

/-- Lists of terms that go apart at a term that is not blank. -/
theorem trimmed_ne {x y : JsString} {others xs zs : List JsString} (hx : solid x ≠ 0)
    (hy : solid y ≠ 0) (hne : solid x ≠ solid y) :
    trimmed (others ++ x :: xs) ≠ trimmed (others ++ [y]) ++ zs := by
  intro h
  rw [trimmed_append, trimmed_append, trimmed_cons_of_solid hx, trimmed_cons_of_solid hy,
    List.append_assoc, List.append_cancel_left_eq] at h
  have hhead : trim x = trim y := (List.cons.inj h).1
  apply hne
  rw [← solid_trim x, hhead, solid_trim]

/-- A text that leaves something open is not blank. -/
theorem solid_ne_zero (h : Nesting.top.after s ≠ .top) : solid s ≠ 0 := by
  intro hzero
  apply h
  refine Nesting.after_plain_top fun c hc => ?_
  rw [solid, List.countP_eq_zero] at hzero
  exact plain_of_isWhite (by simpa using hzero c hc)

/-! ## Joins -/

/-- The text behind the last separator. -/
def lastTerm (label : JsString) : JsString := (terms .top label).getLastD []

/-- A join can follow: nothing is open, and its blank completes no ` &&`. -/
def Joins (label : JsString) : Prop :=
  Nesting.top.after label = .top ∧ ¬ openJoin <:+ lastTerm label

instance (label : JsString) : Decidable (Joins label) :=
  inferInstanceAs (Decidable (_ ∧ _))

theorem LastTerm.lastTerm_eq {before last : JsString} {others : List JsString}
    (h : LastTerm s before last others) : lastTerm s = last := by
  rw [lastTerm, h.terms_eq, List.getLastD_concat]

theorem splitTop_eq (s : JsString) : splitTop conjunction s = trimmed (terms .top s) := rfl

theorem splitTop_join (h : Joins s) :
    splitTop conjunction (s ++ (conjunction ++ t)) =
      splitTop conjunction s ++ splitTop conjunction t := by
  obtain ⟨before, last, others, hlast⟩ := exists_lastTerm s
  obtain ⟨htop, hjoin⟩ := h
  rw [hlast.lastTerm_eq] at hjoin
  have hlevel : Nesting.top.after last = .top := hlast.after_eq.symm.trans htop
  have hmore : terms .top (last ++ (conjunction ++ t)) = last :: terms .top t := by
    rw [one_term_append hlast.one fun h => hjoin h.2, hlevel, terms_of_splits rfl,
      List.modifyHead_cons, List.append_nil]
  have hwhole : terms .top (s ++ (conjunction ++ t)) = terms .top s ++ terms .top t := by
    rw [hlast.terms_eq, hlast.text, List.append_assoc, hlast.more, hmore]
    simp only [List.append_assoc, List.singleton_append]
  rw [splitTop_eq, hwhole, trimmed_append]
  rfl

theorem not_hasOperands_blank {x : JsString} (hx : solid x = 0) :
    ¬ HasOperands true (x ++ openJoin) := by
  induction x with
  | nil => exact fun h => h.1 ⟨rfl, List.prefix_rfl⟩
  | cons c x ih =>
      rw [solid, List.countP_eq_zero] at hx ih
      have hc : isWhite c = true := by simpa using hx c List.mem_cons_self
      intro h
      refine ih (fun d hd => hx d (List.mem_cons_of_mem _ hd)) ?_
      have hrest := h.2
      rwa [hc] at hrest

/-- Where a ` &&` ends the last term, the term has more to it. -/
theorem solid_of_openJoin {before x : JsString} {others : List JsString}
    (hs : HasOperands true s) (h : LastTerm s before (x ++ openJoin) others) : solid x ≠ 0 := by
  intro hx
  rw [h.text] at hs
  rcases h.begins with rfl | ⟨y, rfl⟩
  · exact not_hasOperands_blank hx hs
  · rw [List.append_assoc] at hs
    obtain ⟨bare, hright⟩ := hs.right
    exact not_hasOperands_blank hx hright.2.2.2.2

/-- A join that cannot follow takes a term of the text apart, or takes more into it. -/
theorem splitTop_join_ne (hs : HasOperands true s) (h : ¬ Joins s) (zs : List JsString) :
    splitTop conjunction (s ++ (conjunction ++ t)) ≠ splitTop conjunction s ++ zs := by
  obtain ⟨before, last, others, hlast⟩ := exists_lastTerm s
  rw [splitTop_eq, splitTop_eq, hlast.terms_eq, show s ++ (conjunction ++ t) =
    before ++ (last ++ (conjunction ++ t)) from by rw [hlast.text, List.append_assoc], hlast.more]
  by_cases htop : Nesting.top.after last = .top
  · -- the blank of the join completes a separator
    have hjoin : openJoin <:+ last := by
      by_contra hno
      exact h ⟨hlast.after_eq.trans htop, by rwa [hlast.lastTerm_eq]⟩
    obtain ⟨x, rfl⟩ := hjoin
    have hx : Nesting.top.after x = .top := by
      by_contra hne
      rw [Nesting.after_append] at htop
      have hplain : openJoin.all isPlain = true := by decide
      exact Nesting.after_plain_ne_top (List.all_eq_true.mp hplain) hne htop
    have hsplit : x ++ openJoin ++ (conjunction ++ t) =
        x ++ (conjunction ++ (js "&& " ++ t)) := by
      rw [List.append_assoc]
      rfl
    rw [hsplit, one_term_append_openJoin hlast.one hx]
    have hsolid := solid_of_openJoin hs hlast
    have hmore : solid (x ++ openJoin) = solid x + 2 := solid_append ..
    exact trimmed_ne hsolid (by omega) (by omega)
  · -- the join stands inside
    have hmore : terms .top (last ++ (conjunction ++ t)) =
        (terms (Nesting.top.after last) (conjunction ++ t)).modifyHead (last ++ ·) :=
      one_term_append hlast.one fun h => htop h.1
    obtain ⟨q, qs, hinside⟩ := terms_of_open (t := t) htop
    have hlonger : solid (last ++ (conjunction ++ q)) = solid last + (2 + solid q) := by
      rw [solid_append, solid_append]
      rfl
    have hsolid := solid_ne_zero htop
    rw [hmore, hinside, List.modifyHead_cons]
    exact trimmed_ne (by omega) hsolid (by omega)

/-! ## Labels -/

theorem guardLabel_singleton (guard : BranchGuard) : guardLabel [guard] = labelPart guard := by
  simp [guardLabel]

theorem guardLabel_cons {guard : BranchGuard} {rest : List BranchGuard} (h : rest ≠ []) :
    guardLabel (guard :: rest) = labelPart guard ++ (conjunction ++ guardLabel rest) := by
  obtain ⟨second, rest, rfl⟩ := List.exists_cons_of_ne_nil h
  simp [guardLabel, List.intercalate]

/-- The clauses of the joined label are those of the guards, when every guard that another follows
leaves nothing open. -/
theorem splitTop_guardLabel_iff (guards : List Condition) :
    splitTop conjunction (guardLabel (guards.map (·.toBranchGuard))) =
        guards.flatMap (fun guard => splitTop conjunction (guardLabel [guard.toBranchGuard])) ↔
      ∀ guard ∈ guards.dropLast, Joins (labelPart guard.toBranchGuard) := by
  induction guards with
  | nil => simp [guardLabel, splitTop, trimmed, termsFrom, trim, stripEnd]
  | cons guard rest ih =>
      cases rest with
      | nil => simp
      | cons second rest =>
          rw [List.map_cons, guardLabel_cons (by simp), List.flatMap_cons, List.dropLast_cons_cons,
            List.forall_mem_cons, ← ih, guardLabel_singleton]
          by_cases hjoins : Joins (labelPart guard.toBranchGuard)
          · rw [splitTop_join hjoins, List.append_cancel_left_eq]
            exact ⟨fun h => ⟨hjoins, h⟩, And.right⟩
          · have hne := splitTop_join_ne (t := guardLabel ((second :: rest).map (·.toBranchGuard)))
              (labelPart_hasOperands guard.operands) hjoins
            exact ⟨fun h => absurd h (hne _), fun h => absurd h.1 hjoins⟩

/-- A call cut in the middle of its arguments. -/
def cutCall : Condition :=
  .ofSource
    (js "canEdit(currentUser.profile.permissions, folder.owner, folder.workspace, folder.lock)")
    false .if

theorem splitTop_guardLabel_fails :
    ¬ ∀ guards : List Condition, splitTop conjunction (guardLabel (guards.map (·.toBranchGuard))) =
      guards.flatMap (fun guard => splitTop conjunction (guardLabel [guard.toBranchGuard])) := by
  intro h
  exact absurd (h [cutCall, .ofSource (js "ready") false .if]) (by decide +kernel)

end AfyxGraph.Ui.Conditions
