import AfyxGraph.Core.PathText
import Mathlib.Data.List.DropRight

/-! # Parts of a text

A text cut at the first occurrence of a character or split at all of them, blank ends, and
decimal numbers.
-/

namespace AfyxGraph.Core.Text

/-! ## Cuts -/

/-- What stands before and behind the first `c`. -/
def cut (c : Char) : Text → Option (Text × Text)
  | [] => none
  | d :: t => if d = c then some ([], t) else (cut c t).map fun (a, b) => (d :: a, b)

theorem cut_eq_none {c : Char} {t : Text} : cut c t = none ↔ c ∉ t := by
  induction t with
  | nil => simp [cut]
  | cons d t ih =>
      by_cases hd : d = c
      · simp [cut, hd]
      · simp [cut, hd, ih, Ne.symm hd]

theorem cut_append {c : Char} {a : Text} (b : Text) (ha : c ∉ a) :
    cut c (a ++ c :: b) = some (a, b) := by
  induction a with
  | nil => simp [cut]
  | cons d a ih =>
      have hd : d ≠ c := fun h => ha (h ▸ List.mem_cons_self ..)
      rw [List.cons_append, cut, if_neg hd, ih fun h => ha (List.mem_cons_of_mem _ h)]
      rfl

theorem cut_eq_some {c : Char} {t a b : Text} :
    cut c t = some (a, b) ↔ t = a ++ c :: b ∧ c ∉ a := by
  constructor
  · intro h
    induction t generalizing a with
    | nil => cases h
    | cons d t ih =>
        by_cases hd : d = c
        · simp only [cut, hd, if_true, Option.some.injEq, Prod.mk.injEq] at h
          obtain ⟨rfl, rfl⟩ := h
          exact ⟨by rw [hd]; rfl, List.not_mem_nil⟩
        · simp only [cut, hd, if_false, Option.map_eq_some_iff] at h
          obtain ⟨⟨a', b'⟩, hcut, heq⟩ := h
          obtain ⟨rfl, rfl⟩ := Prod.mk.inj heq
          obtain ⟨rfl, hnot⟩ := ih hcut
          refine ⟨rfl, ?_⟩
          intro hmem
          rcases List.mem_cons.mp hmem with hmem | hmem
          · exact hd hmem.symm
          · exact hnot hmem
  · rintro ⟨rfl, hnot⟩
    exact cut_append b hnot

/-! ## Lists -/

/-- `items.join(sep)` -/
def joinWith (sep : Char) : List Text → Text
  | [] => []
  | [t] => t
  | t :: ts => t ++ sep :: joinWith sep ts

theorem joinWith_cons (sep : Char) (t : Text) {ts : List Text} (h : ts ≠ []) :
    joinWith sep (t :: ts) = t ++ sep :: joinWith sep ts := by
  cases ts with
  | nil => exact absurd rfl h
  | cons u us => rfl

theorem notMem_joinWith {sep c : Char} (hc : c ≠ sep) {items : List Text}
    (hitems : ∀ t ∈ items, c ∉ t) : c ∉ joinWith sep items := by
  induction items with
  | nil => exact List.not_mem_nil
  | cons t ts ih =>
      have ht := hitems t (List.mem_cons_self ..)
      cases ts with
      | nil => exact ht
      | cons u us =>
          rw [joinWith_cons sep t (List.cons_ne_nil u us)]
          simp only [List.mem_append, List.mem_cons, not_or]
          exact ⟨ht, hc, ih fun v hv => hitems v (List.mem_cons_of_mem _ hv)⟩

theorem joinWith_ne_nil {sep : Char} {items : List Text} (hne : items ≠ [])
    (hitems : ∀ t ∈ items, t ≠ []) : joinWith sep items ≠ [] := by
  cases items with
  | nil => exact absurd rfl hne
  | cons t ts =>
      have ht := hitems t (List.mem_cons_self ..)
      cases ts with
      | nil => exact ht
      | cons u us =>
          rw [joinWith_cons sep t (List.cons_ne_nil u us)]
          simp

theorem split_ne_nil (sep : Char) (t : Text) : t.split sep ≠ [] := by
  cases t with
  | nil => exact List.cons_ne_nil _ _
  | cons c cs =>
      rw [split]
      split
      · exact List.cons_ne_nil _ _
      · split <;> exact List.cons_ne_nil _ _

theorem split_of_notMem {sep : Char} {t : Text} (h : sep ∉ t) : t.split sep = [t] := by
  induction t with
  | nil => rfl
  | cons c cs ih =>
      simp only [List.mem_cons, not_or] at h
      rw [split, if_neg (Ne.symm h.1), ih h.2]

theorem split_append_cons {sep : Char} {t : Text} (h : sep ∉ t) (rest : Text) :
    split sep (t ++ sep :: rest) = t :: split sep rest := by
  induction t with
  | nil => rw [List.nil_append, split, if_pos rfl]
  | cons c cs ih =>
      simp only [List.mem_cons, not_or] at h
      rw [List.cons_append, split, if_neg (Ne.symm h.1), ih h.2]

theorem split_joinWith {sep : Char} {items : List Text} (hne : items ≠ [])
    (hsep : ∀ t ∈ items, sep ∉ t) : (joinWith sep items).split sep = items := by
  induction items with
  | nil => exact absurd rfl hne
  | cons t ts ih =>
      have ht := hsep t (List.mem_cons_self ..)
      cases ts with
      | nil => exact split_of_notMem ht
      | cons u us =>
          have hrest : ∀ v ∈ u :: us, sep ∉ v := fun v hv => hsep v (List.mem_cons_of_mem _ hv)
          rw [joinWith_cons sep t (List.cons_ne_nil u us), split_append_cons ht,
            ih (List.cons_ne_nil u us) hrest]

theorem joinWith_split (sep : Char) (t : Text) : joinWith sep (t.split sep) = t := by
  induction t with
  | nil => rfl
  | cons c cs ih =>
      rw [split]
      split
      · rename_i hc
        rw [joinWith_cons _ _ (split_ne_nil sep cs), ih, hc]
        rfl
      · cases h : split sep cs with
        | nil => exact absurd h (split_ne_nil sep cs)
        | cons s ss =>
            rw [h] at ih
            dsimp only
            cases ss with
            | nil => rw [← ih]; rfl
            | cons r rs =>
                rw [joinWith_cons _ _ (List.cons_ne_nil r rs)] at ih ⊢
                rw [List.cons_append, ih]

theorem notMem_of_mem_split {sep : Char} {t part : Text} (h : part ∈ t.split sep) :
    sep ∉ part := by
  induction t generalizing part with
  | nil =>
      obtain rfl := List.mem_singleton.mp h
      exact List.not_mem_nil
  | cons c cs ih =>
      rw [split] at h
      split at h
      · rcases List.mem_cons.mp h with rfl | h
        · exact List.not_mem_nil
        · exact ih h
      · rename_i hc
        cases hs : split sep cs with
        | nil => exact absurd hs (split_ne_nil sep cs)
        | cons s ss =>
            rw [hs] at h ih
            rcases List.mem_cons.mp h with rfl | h
            · intro hmem
              rcases List.mem_cons.mp hmem with hmem | hmem
              · exact hc hmem.symm
              · exact ih (List.mem_cons_self ..) hmem
            · exact ih (List.mem_cons_of_mem _ h)

/-! ## Blanks -/

/-- White space and line terminators. -/
def isBlank (c : Char) : Bool :=
  (9 ≤ c.toNat && c.toNat ≤ 13) || c.toNat = 0x20 || c.toNat = 0xA0 || c.toNat = 0xFEFF ||
    c.toNat = 0x1680 || (0x2000 ≤ c.toNat && c.toNat ≤ 0x200A) || c.toNat = 0x2028 ||
    c.toNat = 0x2029 || c.toNat = 0x202F || c.toNat = 0x205F || c.toNat = 0x3000

/-- `text.trim()` -/
def trim (t : Text) : Text := (t.dropWhile isBlank).rdropWhile isBlank

/-- `text.trimStart()` -/
def trimStart (t : Text) : Text := t.dropWhile isBlank

/-- `text.trimEnd()` -/
def trimEnd (t : Text) : Text := t.rdropWhile isBlank

/-! ## Numbers -/

/-- `Number(digits)` -/
def decimal (digits : Text) : Nat := digits.foldl (fun n c => 10 * n + (c.toNat - 48)) 0

/-- `String(n)` -/
def ofNat (n : Nat) : Text := Nat.toDigits 10 n

/-- `Number.parseInt(text, 10)`; `none` is no number. -/
def parseInt (t : Text) : Option Int :=
  let t := t.dropWhile isBlank
  let signed : Bool × Text := match t with
    | '-' :: rest => (true, rest)
    | '+' :: rest => (false, rest)
    | _ => (false, t)
  let digits := signed.2.takeWhile Char.isDigit
  if digits.isEmpty then none
  else some (if signed.1 then -(decimal digits : Int) else decimal digits)

theorem decimal_append (digits more : Text) :
    decimal (digits ++ more) =
      more.foldl (fun n c => 10 * n + (c.toNat - 48)) (decimal digits) := by
  rw [decimal, List.foldl_append]
  rfl

theorem decimal_ofNat (n : Nat) : decimal (ofNat n) = n := by
  induction n using Nat.strongRecOn with
  | _ n ih =>
      rw [ofNat, Nat.toDigits_eq_if (by decide)]
      split
      · rename_i hlt
        rw [decimal, List.foldl_cons, List.foldl_nil, Nat.toNat_digitChar_sub_48_of_lt_ten hlt]
        omega
      · rename_i hge
        have hdigit := Nat.toNat_digitChar_sub_48_of_lt_ten (Nat.mod_lt n (show 0 < 10 by decide))
        have hfront := ih (n / 10) (by omega)
        rw [ofNat] at hfront
        rw [decimal_append, hfront, List.foldl_cons, List.foldl_nil, hdigit]
        omega

theorem isDigit_of_mem_ofNat {n : Nat} {c : Char} (h : c ∈ ofNat n) : c.isDigit = true :=
  Nat.isDigit_of_mem_toDigits (by decide) (by decide) h

theorem isBlank_of_isDigit {c : Char} (h : c.isDigit = true) : isBlank c = false := by
  have hrange : 48 ≤ c.toNat ∧ c.toNat ≤ 57 := by
    simp only [Char.isDigit, Bool.and_eq_true, decide_eq_true_eq] at h
    exact ⟨h.1, h.2⟩
  obtain ⟨hlow, hhigh⟩ := hrange
  simp only [isBlank, Bool.or_eq_false_iff, Bool.and_eq_false_iff, decide_eq_false_iff_not]
  omega

theorem parseInt_ofNat (n : Nat) : parseInt (ofNat n) = some (n : Int) := by
  have hdigits : (ofNat n).takeWhile Char.isDigit = ofNat n :=
    List.takeWhile_eq_self_iff.mpr fun c hc => isDigit_of_mem_ofNat hc
  cases h : ofNat n with
  | nil => exact absurd h Nat.toDigits_ne_nil
  | cons c cs =>
      have hc : c.isDigit = true := isDigit_of_mem_ofNat (h ▸ List.mem_cons_self ..)
      have hblank := isBlank_of_isDigit hc
      have hminus : c ≠ '-' := by
        rintro rfl
        revert hc
        decide
      have hplus : c ≠ '+' := by
        rintro rfl
        revert hc
        decide
      have hdrop : (c :: cs).dropWhile isBlank = c :: cs := by
        rw [List.dropWhile_cons, hblank]
        rfl
      rw [h] at hdigits
      have hvalue := decimal_ofNat n
      rw [h] at hvalue
      rw [parseInt, hdrop]
      split
      · rename_i heq
        exact absurd (List.cons.inj heq).1 hminus
      · rename_i heq
        exact absurd (List.cons.inj heq).1 hplus
      · simp only [hdigits, hvalue]
        rfl

/-- A text without blanks is its own trim. -/
theorem trim_of_forall {t : Text} (h : ∀ c ∈ t, isBlank c = false) : trim t = t := by
  have hfront : t.dropWhile isBlank = t := by
    cases t with
    | nil => rfl
    | cons c t => rw [List.dropWhile_cons, h c (List.mem_cons_self ..), if_neg Bool.false_ne_true]
  rw [trim, hfront, List.rdropWhile_eq_self_iff]
  intro hne
  rw [h _ (List.getLast_mem hne)]
  exact Bool.false_ne_true

theorem trim_ofNat (n : Nat) : trim (ofNat n) = ofNat n :=
  trim_of_forall fun _ hc => isBlank_of_isDigit (isDigit_of_mem_ofNat hc)

/-! ## Trimming -/

section Trimming

variable {blanks : Text}

theorem trimEnd_append_blanks (t : Text) (h : ∀ c ∈ blanks, isBlank c = true) :
    trimEnd (t ++ blanks) = trimEnd t := by
  induction blanks using List.reverseRecOn with
  | nil => rw [List.append_nil]
  | append_singleton blanks c ih =>
      rw [trimEnd, ← List.append_assoc, List.rdropWhile_concat_pos isBlank _ c (h c (by simp))]
      exact ih fun d hd => h d (List.mem_append_left _ hd)

theorem trim_append_blanks (t : Text) (h : ∀ c ∈ blanks, isBlank c = true) :
    trim (t ++ blanks) = trim t := by
  rw [trim, trim, List.dropWhile_append]
  cases hfront : t.dropWhile isBlank with
  | nil =>
      have hall : blanks.dropWhile isBlank = [] := List.dropWhile_eq_nil_iff.mpr h
      rw [hall]
      rfl
  | cons c rest => exact trimEnd_append_blanks (c :: rest) h

/-- What `trimEnd` takes away is blank. -/
theorem exists_trimEnd_append (t : Text) :
    ∃ blanks, t = trimEnd t ++ blanks ∧ ∀ c ∈ blanks, isBlank c = true := by
  induction t using List.reverseRecOn with
  | nil => exact ⟨[], rfl, fun _ hc => absurd hc List.not_mem_nil⟩
  | append_singleton t c ih =>
      cases hc : isBlank c with
      | false =>
          refine ⟨[], ?_, fun _ hd => absurd hd List.not_mem_nil⟩
          rw [trimEnd, List.rdropWhile_concat_neg isBlank t c (by simp [hc]), List.append_nil]
      | true =>
          obtain ⟨blanks, ht, hblanks⟩ := ih
          refine ⟨blanks ++ [c], ?_, fun d hd => ?_⟩
          · rw [trimEnd, List.rdropWhile_concat_pos isBlank t c hc, ← List.append_assoc]
            exact congrArg (· ++ [c]) ht
          · rcases List.mem_append.mp hd with hd | hd
            · exact hblanks d hd
            · rwa [List.mem_singleton.mp hd]

theorem trimEnd_trimEnd (t : Text) : trimEnd (trimEnd t) = trimEnd t := by
  obtain ⟨blanks, ht, hblanks⟩ := exists_trimEnd_append t
  conv_rhs => rw [ht]
  rw [trimEnd_append_blanks _ hblanks]

theorem trim_trimEnd (t : Text) : trim (trimEnd t) = trim t := by
  obtain ⟨blanks, ht, hblanks⟩ := exists_trimEnd_append t
  conv_rhs => rw [ht]
  rw [trim_append_blanks _ hblanks]

theorem trimStart_trimEnd_trimStart (t : Text) :
    trimStart (trimEnd (trimStart t)) = trimEnd (trimStart t) := by
  obtain ⟨blanks, hfront, -⟩ := exists_trimEnd_append (trimStart t)
  cases hend : trimEnd (trimStart t) with
  | nil => rfl
  | cons c rest =>
      rw [hend, List.cons_append] at hfront
      have hc : isBlank c = false := by
        have hhead := List.head_dropWhile_not isBlank (l := t)
          (by rw [show t.dropWhile isBlank = trimStart t from rfl, hfront]; simp)
        simpa [show t.dropWhile isBlank = trimStart t from rfl, hfront] using hhead
      rw [trimStart, List.dropWhile_cons_of_neg (by simp [hc])]

theorem trim_trim (t : Text) : trim (trim t) = trim t := by
  change trimEnd (trimStart (trimEnd (trimStart t))) = trimEnd (trimStart t)
  rw [trimStart_trimEnd_trimStart, trimEnd_trimEnd]

end Trimming

end AfyxGraph.Core.Text
