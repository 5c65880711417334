import AfyxGraph.Core.Bytes
import AfyxGraph.Runtime.Json

/-! # Strings and the bytes they are written as

A string is written to a file as the UTF-8 of its characters. Half a surrogate pair that stands
alone is no character: it is written as the replacement character and does not come back.
-/

namespace AfyxGraph.Runtime

open AfyxGraph.Core

/-! ## Characters -/

def replacementChar : Char := Char.ofNat 0xFFFD

def isSurrogate (c : CodeUnit) : Bool := isLeadSurrogate c || isTrailSurrogate c

/-- The character of a unit that is not in a pair. -/
def singleChar (c : CodeUnit) : Char :=
  if isSurrogate c then replacementChar else Char.ofNat c.toNat

/-- The character of a pair. -/
def pairChar (lead trail : CodeUnit) : Char :=
  Char.ofNat (0x10000 + (lead.toNat - 0xD800) * 0x400 + (trail.toNat - 0xDC00))

def characters : JsString → Text
  | [] => []
  | [c] => [singleChar c]
  | c :: d :: rest =>
      if isLeadSurrogate c && isTrailSurrogate d then pairChar c d :: characters rest
      else singleChar c :: characters (d :: rest)

def charUnits (c : Char) : JsString :=
  if c.toNat < 0x10000 then [c.toNat.toUInt16]
  else [(0xD800 + (c.toNat - 0x10000) / 0x400).toUInt16,
    (0xDC00 + (c.toNat - 0x10000) % 0x400).toUInt16]

def codeUnits (t : Text) : JsString := t.flatMap charUnits

/-! ## Strings of whole characters -/

/-- `isWellFormed` -/
inductive WellFormed : JsString → Prop
  | nil : WellFormed []
  | unit {c : CodeUnit} {s : JsString} (hc : isSurrogate c = false) (hs : WellFormed s) :
      WellFormed (c :: s)
  | pair {c d : CodeUnit} {s : JsString} (hc : isLeadSurrogate c = true)
      (hd : isTrailSurrogate d = true) (hs : WellFormed s) : WellFormed (c :: d :: s)

theorem WellFormed.append {s t : JsString} (hs : WellFormed s) (ht : WellFormed t) :
    WellFormed (s ++ t) := by
  induction hs with
  | nil => exact ht
  | unit hc _ ih => exact WellFormed.unit hc ih
  | pair hc hd _ ih => exact WellFormed.pair hc hd ih

theorem wellFormed_of_forall {s : JsString} (h : ∀ c ∈ s, isSurrogate c = false) :
    WellFormed s := by
  induction s with
  | nil => exact WellFormed.nil
  | cons c s ih =>
      apply WellFormed.unit (h c (List.mem_cons_self ..))
      exact ih fun d hd => h d (List.mem_cons_of_mem _ hd)

theorem wellFormed_of_all {s : JsString} (h : s.all (fun c => !isSurrogate c) = true) :
    WellFormed s := by
  apply wellFormed_of_forall
  intro c hc
  simpa using List.all_eq_true.mp h c hc

theorem toNat_ofNat {n : Nat} (h : n.isValidChar) : (Char.ofNat n).toNat = n := by
  rw [Char.ofNat, dif_pos h]
  rfl

theorem characters_unit {c : CodeUnit} (hc : isSurrogate c = false) (s : JsString) :
    characters (c :: s) = Char.ofNat c.toNat :: characters s := by
  have hsingle : singleChar c = Char.ofNat c.toNat := by
    rw [singleChar, hc]
    rfl
  cases s with
  | nil => rw [characters, characters, hsingle]
  | cons d s =>
      simp only [isSurrogate, Bool.or_eq_false_iff] at hc
      rw [characters, hc.1, Bool.false_and, if_neg Bool.false_ne_true, hsingle]

theorem charUnits_single {c : CodeUnit} (hc : isSurrogate c = false) :
    charUnits (Char.ofNat c.toNat) = [c] := by
  have hbound := c.toNat_lt
  have hvalid : Nat.isValidChar c.toNat := by
    simp only [isSurrogate, isLeadSurrogate, isTrailSurrogate, Bool.or_eq_false_iff,
      Bool.and_eq_false_iff, decide_eq_false_iff_not, UInt16.le_iff_toNat_le,
      UInt16.reduceToNat] at hc
    rw [Nat.isValidChar]
    omega
  have hnat : (Char.ofNat c.toNat).toNat = c.toNat := toNat_ofNat hvalid
  rw [charUnits, hnat, if_pos (by omega)]
  congr 1
  exact UInt16.ofNat_toNat

theorem charUnits_pair {c d : CodeUnit} (hc : isLeadSurrogate c = true)
    (hd : isTrailSurrogate d = true) : charUnits (pairChar c d) = [c, d] := by
  simp only [isLeadSurrogate, isTrailSurrogate, Bool.and_eq_true, decide_eq_true_eq,
    UInt16.le_iff_toNat_le, UInt16.reduceToNat] at hc hd
  have hvalid : Nat.isValidChar
      (0x10000 + (c.toNat - 0xD800) * 0x400 + (d.toNat - 0xDC00)) := by
    rw [Nat.isValidChar]
    omega
  have hnat : (pairChar c d).toNat = 0x10000 + (c.toNat - 0xD800) * 0x400 + (d.toNat - 0xDC00) :=
    toNat_ofNat hvalid
  have hlead : 0xD800 + ((pairChar c d).toNat - 0x10000) / 0x400 = c.toNat := by
    rw [hnat]
    omega
  have htrail : 0xDC00 + ((pairChar c d).toNat - 0x10000) % 0x400 = d.toNat := by
    rw [hnat]
    omega
  have hlarge : ¬ (pairChar c d).toNat < 0x10000 := by
    rw [hnat]
    omega
  rw [charUnits, if_neg hlarge, hlead, htrail, Nat.toUInt16_eq, Nat.toUInt16_eq,
    UInt16.ofNat_toNat, UInt16.ofNat_toNat]

theorem codeUnits_characters {s : JsString} (h : WellFormed s) :
    codeUnits (characters s) = s := by
  induction h with
  | nil => rfl
  | unit hc _ ih =>
      rw [codeUnits] at ih
      rw [characters_unit hc, codeUnits, List.flatMap_cons, ih, charUnits_single hc]
      rfl
  | pair hc hd _ ih =>
      rw [codeUnits] at ih
      rw [characters, hc, hd, Bool.and_self, if_pos rfl, codeUnits, List.flatMap_cons, ih,
        charUnits_pair hc hd]
      rfl

/-! ## Files -/

/-- `writeFileSync(path, text, 'utf-8')` -/
def encodeUtf8 (s : JsString) : Bytes := Bytes.ofText (characters s)

/-- `readFileSync(path, 'utf-8')` -/
def decodeUtf8 (d : Bytes.TextDecoder) (bytes : Bytes) : JsString := codeUnits (d.decode bytes)

theorem decodeUtf8_encodeUtf8 (d : Bytes.TextDecoder) {s : JsString} (h : WellFormed s) :
    decodeUtf8 d (encodeUtf8 s) = s := by
  rw [decodeUtf8, encodeUtf8, d.decode_ofText, codeUnits_characters h]

end AfyxGraph.Runtime
