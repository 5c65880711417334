import AfyxGraph.Runtime.Utf16
import Mathlib.Algebra.GroupWithZero.Nat

/-! # Texts that are cut in UTF-16 units

The native kernel holds text as scalar values and cuts it where the scripted extractor calls
`slice`, which counts UTF-16 units. Where a pair of surrogates lies across the cut the kernel
stops one unit short.
-/

namespace AfyxGraph.Kernel

open AfyxGraph.Core AfyxGraph.Runtime

/-! ## The kernel's cut -/

/-- `char::len_utf16` -/
def lenUtf16 (c : Char) : Nat := if c.toNat < 0x10000 then 1 else 2

def utf16Len (s : Text) : Nat := (s.map lenUtf16).sum

/-- The loop over `s.chars()`, with the units used and the characters put out so far. -/
def sliceLoop (s : Text) (n : Nat) : Nat → Text → Text → Text × Bool
  | _, out, [] => (out, false)
  | used, out, c :: rest =>
      if used + lenUtf16 c > n then (out, true)
      else if used + lenUtf16 c = n then
        (out ++ [c], decide ((Bytes.ofText (out ++ [c])).length < (Bytes.ofText s).length))
      else sliceLoop s n (used + lenUtf16 c) (out ++ [c]) rest

def sliceUtf16 (s : Text) (n : Nat) : Text × Bool := sliceLoop s n 0 [] s

def initSignature (valueText : Text) : Text :=
  let (sliced, _) := sliceUtf16 valueText 100
  if utf16Len sliced ≥ 100 then "= ".toList ++ sliced ++ "...".toList
  else "= ".toList ++ sliced

/-! ## The extractor's cut -/

/-- `getNodeText(valueNode, source).slice(0, 100)` -/
def initValue (text : JsString) : JsString := text.take 100

/-- What an initial value adds when it is as long as the cut allows. -/
def ellipsis (init : JsString) : JsString :=
  if init.length ≥ 100 then codeUnits "...".toList else []

/-- `initSignature`: no signature for an empty value. -/
def extractorSignature (text : JsString) : Option JsString :=
  if (initValue text).isEmpty then none
  else some (codeUnits "= ".toList ++ initValue text ++ ellipsis (initValue text))

/-- The slice of a text of whole characters can end in the first half of a pair, and in no
other lone surrogate. -/
def withoutLoneLead (s : JsString) : JsString :=
  if s.getLast?.any isLeadSurrogate then s.dropLast else s

/-- The extractor's signature with half a pair at the end of the slice dropped. -/
def comparedSignature (text : JsString) : JsString :=
  codeUnits "= ".toList ++ withoutLoneLead (initValue text) ++ ellipsis (initValue text)

/-- A pair of surrogates lies across the first `n` units. -/
def PairOnCut (n : Nat) (s : Text) : Prop :=
  ∃ whole c rest, s = whole ++ c :: rest ∧ utf16Len whole + 1 = n ∧ lenUtf16 c = 2

/-! ## Units of characters -/

theorem lenUtf16_eq (c : Char) : lenUtf16 c = 1 ∨ lenUtf16 c = 2 := by
  rw [lenUtf16]
  split
  · exact .inl rfl
  · exact .inr rfl

theorem length_charUnits (c : Char) : (charUnits c).length = lenUtf16 c := by
  rw [charUnits, lenUtf16]
  split
  · rfl
  · rfl

/-- The two halves of a pair. -/
theorem charUnits_of_two {c : Char} (h : lenUtf16 c = 2) :
    ∃ lead trail, charUnits c = [lead, trail] ∧ isLeadSurrogate lead = true ∧
      isLeadSurrogate trail = false := by
  have hlarge : ¬ c.toNat < 0x10000 := by
    intro hsmall
    rw [lenUtf16, if_pos hsmall] at h
    omega
  have hvalid : c.toNat < 0x110000 := by
    have := c.valid
    simp only [UInt32.isValidChar, Nat.isValidChar] at this
    change c.val.toNat < 0x110000
    omega
  refine ⟨_, _, by rw [charUnits, if_neg hlarge], ?_, ?_⟩
  · simp only [isLeadSurrogate, Bool.and_eq_true, decide_eq_true_eq, UInt16.le_iff_toNat_le,
      UInt16.reduceToNat, Nat.toUInt16_eq, UInt16.toNat_ofNat']
    omega
  · simp only [isLeadSurrogate, Bool.and_eq_false_iff, decide_eq_false_iff_not,
      UInt16.le_iff_toNat_le, UInt16.reduceToNat, Nat.toUInt16_eq, UInt16.toNat_ofNat']
    omega

/-- A character of one unit is no surrogate. -/
theorem charUnits_of_one {c : Char} (h : lenUtf16 c = 1) :
    ∃ u, charUnits c = [u] ∧ isLeadSurrogate u = false := by
  have hsmall : c.toNat < 0x10000 := by
    by_contra hlarge
    rw [lenUtf16, if_neg hlarge] at h
    omega
  have hvalid : c.toNat < 0xD800 ∨ 0xDFFF < c.toNat := by
    have := c.valid
    simp only [UInt32.isValidChar, Nat.isValidChar] at this
    change c.val.toNat < 0xD800 ∨ 0xDFFF < c.val.toNat
    omega
  refine ⟨_, by rw [charUnits, if_pos hsmall], ?_⟩
  simp only [isLeadSurrogate, Bool.and_eq_false_iff, decide_eq_false_iff_not,
    UInt16.le_iff_toNat_le, UInt16.reduceToNat, Nat.toUInt16_eq, UInt16.toNat_ofNat']
  omega

@[simp] theorem codeUnits_cons (c : Char) (s : Text) :
    codeUnits (c :: s) = charUnits c ++ codeUnits s := rfl

theorem codeUnits_append (s t : Text) : codeUnits (s ++ t) = codeUnits s ++ codeUnits t :=
  List.flatMap_append

@[simp] theorem utf16Len_cons (c : Char) (s : Text) :
    utf16Len (c :: s) = lenUtf16 c + utf16Len s := by
  rw [utf16Len, utf16Len, List.map_cons, List.sum_cons]

theorem length_codeUnits (s : Text) : (codeUnits s).length = utf16Len s := by
  induction s with
  | nil => rfl
  | cons c s ih => rw [codeUnits_cons, utf16Len_cons, List.length_append, length_charUnits, ih]

/-! ## What fits -/

/-- The characters from the front that fit in `n` units. -/
def wholeChars : Nat → Text → Text
  | _, [] => []
  | n, c :: rest => if lenUtf16 c ≤ n then c :: wholeChars (n - lenUtf16 c) rest else []

theorem wholeChars_zero (s : Text) : wholeChars 0 s = [] := by
  cases s with
  | nil => rfl
  | cons c rest =>
      have hpos := lenUtf16_eq c
      rw [wholeChars, if_neg (by omega)]

theorem sliceLoop_fst (s : Text) {n used : Nat} (hused : used ≤ n) (out rest : Text) :
    (sliceLoop s n used out rest).1 = out ++ wholeChars (n - used) rest := by
  induction rest generalizing used out with
  | nil => rw [sliceLoop, wholeChars, List.append_nil]
  | cons c rest ih =>
      rw [sliceLoop, wholeChars]
      by_cases hover : used + lenUtf16 c > n
      · rw [if_pos hover, if_neg (by omega), List.append_nil]
      have hfits : lenUtf16 c ≤ n - used := by omega
      rw [if_neg hover, if_pos hfits]
      by_cases hfull : used + lenUtf16 c = n
      · rw [if_pos hfull, ← hfull, Nat.add_sub_cancel_left, Nat.sub_self, wholeChars_zero]
      · rw [if_neg hfull, ih (by omega), List.append_assoc, Nat.sub_add_eq]
        rfl

theorem sliceUtf16_fst (s : Text) (n : Nat) : (sliceUtf16 s n).1 = wholeChars n s := by
  rw [sliceUtf16, sliceLoop_fst s (Nat.zero_le n), List.nil_append, Nat.sub_zero]

theorem PairOnCut.cons {n : Nat} {s : Text} (h : PairOnCut n s) (c : Char) :
    PairOnCut (lenUtf16 c + n) (c :: s) := by
  obtain ⟨whole, d, rest, rfl, hn, hd⟩ := h
  refine ⟨c :: whole, d, rest, rfl, ?_, hd⟩
  rw [utf16Len_cons]
  omega

/-- Either the slice is the characters that fit, or it has half a pair more. -/
theorem take_codeUnits (n : Nat) (s : Text) :
    (¬ PairOnCut n s ∧ (codeUnits s).take n = codeUnits (wholeChars n s)) ∨
      (PairOnCut n s ∧ utf16Len (wholeChars n s) + 1 = n ∧ ∃ lead, isLeadSurrogate lead = true ∧
        (codeUnits s).take n = codeUnits (wholeChars n s) ++ [lead]) := by
  induction s generalizing n with
  | nil =>
      refine .inl ⟨?_, by rw [wholeChars]; exact List.take_nil⟩
      rintro ⟨whole, c, rest, hs, -, -⟩
      cases whole <;> cases hs
  | cons c s ih =>
      have hwidth := lenUtf16_eq c
      by_cases hfits : lenUtf16 c ≤ n
      · have htake : (codeUnits (c :: s)).take n =
            charUnits c ++ (codeUnits s).take (n - lenUtf16 c) := by
          rw [codeUnits_cons, List.take_append, length_charUnits,
            List.take_of_length_le (by rw [length_charUnits]; exact hfits)]
        rw [wholeChars, if_pos hfits, htake]
        rcases ih (n - lenUtf16 c) with ⟨hno, heq⟩ | ⟨hpair, hlen, lead, hlead, heq⟩
        · refine .inl ⟨?_, by rw [heq, codeUnits_cons]⟩
          rintro ⟨whole, d, rest, hs, hn, hd⟩
          cases whole with
          | nil =>
              obtain ⟨rfl, rfl⟩ := List.cons.inj hs
              simp only [utf16Len, List.map_nil, List.sum_nil] at hn
              omega
          | cons b whole =>
              obtain ⟨rfl, rfl⟩ := List.cons.inj hs
              rw [utf16Len_cons] at hn
              exact hno ⟨whole, d, rest, rfl, by omega, hd⟩
        · refine .inr ⟨?_, by rw [utf16Len_cons]; omega, lead, hlead, ?_⟩
          · have hcons := hpair.cons c
            rwa [Nat.add_sub_cancel' hfits] at hcons
          · rw [heq, codeUnits_cons, List.append_assoc]
      · rw [wholeChars, if_neg hfits]
        by_cases hzero : n = 0
        · subst hzero
          refine .inl ⟨?_, by rw [List.take_zero]; rfl⟩
          rintro ⟨whole, d, rest, -, hn, -⟩
          omega
        · have htwo : lenUtf16 c = 2 := by omega
          obtain rfl : n = 1 := by omega
          obtain ⟨lead, trail, hunits, hlead, -⟩ := charUnits_of_two htwo
          refine .inr ⟨⟨[], c, s, rfl, rfl, htwo⟩, rfl, lead, hlead, ?_⟩
          rw [codeUnits_cons, hunits]
          rfl

/-! ## Dropping half a pair -/

theorem getLast?_codeUnits (s : Text) : (codeUnits s).getLast?.any isLeadSurrogate = false := by
  induction s with
  | nil => rfl
  | cons c s ih =>
      rw [codeUnits_cons, List.getLast?_append]
      cases hlast : (codeUnits s).getLast? with
      | some u => rwa [hlast] at ih
      | none =>
          rcases lenUtf16_eq c with hone | htwo
          · obtain ⟨u, hu, hlead⟩ := charUnits_of_one hone
            rw [hu]
            exact hlead
          · obtain ⟨lead, trail, hu, -, htrail⟩ := charUnits_of_two htwo
            rw [hu]
            exact htrail

theorem withoutLoneLead_codeUnits (s : Text) : withoutLoneLead (codeUnits s) = codeUnits s := by
  rw [withoutLoneLead, getLast?_codeUnits, if_neg Bool.false_ne_true]

theorem withoutLoneLead_concat (s : JsString) {lead : CodeUnit}
    (h : isLeadSurrogate lead = true) : withoutLoneLead (s ++ [lead]) = s := by
  rw [withoutLoneLead, List.getLast?_concat, Option.any_some, if_pos h, List.dropLast_concat]

/-- The kernel's cut is the slice of the extractor without half a pair at its end. -/
theorem codeUnits_sliceUtf16 (s : Text) (n : Nat) :
    codeUnits (sliceUtf16 s n).1 = withoutLoneLead ((codeUnits s).take n) := by
  rw [sliceUtf16_fst]
  rcases take_codeUnits n s with ⟨-, heq⟩ | ⟨-, -, lead, hlead, heq⟩
  · rw [heq, withoutLoneLead_codeUnits]
  · rw [heq, withoutLoneLead_concat _ hlead]

/-! ## Signatures -/

theorem codeUnits_initSignature (s : Text) :
    codeUnits (initSignature s) =
      codeUnits "= ".toList ++ withoutLoneLead (initValue (codeUnits s)) ++
        if utf16Len (wholeChars 100 s) ≥ 100 then codeUnits "...".toList else [] := by
  rw [initValue, ← codeUnits_sliceUtf16, initSignature, ← sliceUtf16_fst]
  cases sliceUtf16 s 100 with
  | mk sliced truncated =>
      by_cases hlong : utf16Len sliced ≥ 100
      · simp only [if_pos hlong, codeUnits_append]
      · simp only [if_neg hlong, codeUnits_append, List.append_nil]

/-- The signature of a value that is not empty is the one that is compared, up to half a pair. -/
theorem extractorSignature_of_ne_nil {s : Text} (h : s ≠ []) (hcut : ¬ PairOnCut 100 s) :
    extractorSignature (codeUnits s) = some (comparedSignature (codeUnits s)) := by
  have heq : initValue (codeUnits s) = withoutLoneLead (initValue (codeUnits s)) := by
    rcases take_codeUnits 100 s with ⟨-, heq⟩ | ⟨hpair, -⟩
    · rw [initValue, heq, withoutLoneLead_codeUnits]
    · exact absurd hpair hcut
  have hne : (initValue (codeUnits s)).isEmpty = false := by
    cases s with
    | nil => exact absurd rfl h
    | cons c s =>
        have hwidth := lenUtf16_eq c
        have hlen := length_charUnits c
        cases hunits : charUnits c with
        | nil =>
            rw [hunits] at hlen
            simp only [List.length_nil] at hlen
            omega
        | cons u us =>
            rw [initValue, codeUnits_cons, hunits]
            rfl
  rw [extractorSignature, hne, if_neg Bool.false_ne_true, comparedSignature, ← heq]

/-- The two signatures agree exactly on the texts with no pair across the first hundred units. -/
theorem initSignature_agrees_iff (valueText : Text) :
    codeUnits (initSignature valueText) = comparedSignature (codeUnits valueText) ↔
      ¬ PairOnCut 100 valueText := by
  rw [codeUnits_initSignature, comparedSignature, List.append_cancel_left_eq, ellipsis]
  rcases take_codeUnits 100 valueText with ⟨hno, heq⟩ | ⟨hpair, hlen, lead, -, heq⟩
  · rw [initValue, heq, length_codeUnits]
    exact ⟨fun _ => hno, fun _ => rfl⟩
  · have hlong : (initValue (codeUnits valueText)).length ≥ 100 := by
      rw [initValue, heq, List.length_append, length_codeUnits, List.length_singleton]
      omega
    rw [if_neg (by omega), if_pos hlong]
    constructor
    · intro h
      exact absurd (congrArg List.length h) (by decide)
    · intro h
      exact absurd hpair h

/-- 99 letters and a character of two units. -/
def emojiOnCut : Text := List.replicate 99 'x' ++ ['😀']

/-- The extractor's slice has a hundred units and its signature ends in `...`; the kernel's has
99 units and does not. -/
theorem initSignature_drifts :
    comparedSignature (codeUnits emojiOnCut) = codeUnits (initSignature emojiOnCut ++ "...".toList)
      ∧ ¬ ∀ valueText, codeUnits (initSignature valueText) =
        comparedSignature (codeUnits valueText) := by
  have hdrift : comparedSignature (codeUnits emojiOnCut) =
      codeUnits (initSignature emojiOnCut ++ "...".toList) := by decide +kernel
  refine ⟨hdrift, fun h => ?_⟩
  have hsame := h emojiOnCut
  rw [hdrift, codeUnits_append] at hsame
  exact absurd (congrArg List.length hsame) (by rw [List.length_append]; simp +decide)

end AfyxGraph.Kernel
