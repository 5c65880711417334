import AfyxGraph.Core.Bytes
import AfyxGraph.Core.Entries
import Mathlib.Tactic.IntervalCases

/-! # Percent-encoding

Texts written with `%XX` for the UTF-8 bytes of what may not stand for itself: components of a
URI, whose decoding throws on what is no UTF-8, and query strings as forms write them.
-/

namespace AfyxGraph.Core.Percent

/-! ## Escapes -/

def hexDigit (n : Nat) : Char := (Nat.digitChar n).toUpper

def hexValue (c : Char) : Option Nat :=
  if '0' ≤ c ∧ c ≤ '9' then some (c.toNat - 48)
  else if 'A' ≤ c ∧ c ≤ 'F' then some (c.toNat - 55)
  else if 'a' ≤ c ∧ c ≤ 'f' then some (c.toNat - 87)
  else none

theorem hexValue_hexDigit {n : Nat} (h : n < 16) : hexValue (hexDigit n) = some n := by
  interval_cases n <;> decide

theorem isAlphanum_hexDigit {n : Nat} (h : n < 16) : (hexDigit n).isAlphanum = true := by
  interval_cases n <;> decide

/-- `%XX` -/
def escape (b : UInt8) : Text := ['%', hexDigit (b.toNat / 16), hexDigit (b.toNat % 16)]

def escapes (bytes : Bytes) : Text := bytes.flatMap escape

/-- The byte two hexadecimal digits stand for. -/
def byteOf (high low : Char) : Option UInt8 :=
  (hexValue high).bind fun x => (hexValue low).map fun y => UInt8.ofNat (16 * x + y)

theorem byteOf_hexDigits (b : UInt8) :
    byteOf (hexDigit (b.toNat / 16)) (hexDigit (b.toNat % 16)) = some b := by
  have hb := b.toNat_lt
  rw [byteOf, hexValue_hexDigit (by omega), hexValue_hexDigit (by omega)]
  have hsum : 16 * (b.toNat / 16) + b.toNat % 16 = b.toNat := by omega
  simp only [Option.bind_some, Option.map_some, hsum, UInt8.ofNat_toNat]

theorem mem_escapes {bytes : Bytes} {c : Char} (h : c ∈ escapes bytes) :
    c = '%' ∨ c.isAlphanum = true := by
  obtain ⟨b, -, hc⟩ := List.mem_flatMap.mp h
  have hb := b.toNat_lt
  simp only [escape, List.mem_cons, List.not_mem_nil, or_false] at hc
  rcases hc with rfl | rfl | rfl
  · exact .inl rfl
  · exact .inr (isAlphanum_hexDigit (by omega))
  · exact .inr (isAlphanum_hexDigit (by omega))

/-! ## Components -/

/-- What `encodeURIComponent` leaves as it is. -/
def isUnreserved (c : Char) : Bool :=
  c.isAlphanum || c ∈ ['-', '_', '.', '!', '~', '*', '\'', '(', ')']

def encodeURIComponent (t : Text) : Text :=
  t.flatMap fun c => if isUnreserved c then [c] else escapes (String.utf8EncodeChar c)

/-- Decode, with the bytes of the escapes just read. A run of escapes has to be UTF-8. -/
def decodeFrom (pending : Bytes) : Text → Option Text
  | [] => Bytes.strictDecode pending
  | c :: rest =>
      if c = '%' then
        match rest with
        | high :: low :: rest =>
            match byteOf high low with
            | some b => decodeFrom (pending ++ [b]) rest
            | none => none
        | _ => none
      else
        (Bytes.strictDecode pending).bind fun front =>
          (decodeFrom [] rest).map fun back => front ++ c :: back

theorem decodeFrom_plain {c : Char} (hc : c ≠ '%') (pending : Bytes) (rest : Text) :
    decodeFrom pending (c :: rest) =
      (Bytes.strictDecode pending).bind fun front =>
        (decodeFrom [] rest).map fun back => front ++ c :: back := by
  match rest with
  | [] => simp only [decodeFrom, if_neg hc]
  | [_] => simp only [decodeFrom, if_neg hc]
  | _ :: _ :: _ => simp only [decodeFrom, if_neg hc]

/-- `none` is a `URIError`. -/
def decodeURIComponent (t : Text) : Option Text := decodeFrom [] t

theorem decodeFrom_escapes (pending bytes : Bytes) (rest : Text) :
    decodeFrom pending (escapes bytes ++ rest) = decodeFrom (pending ++ bytes) rest := by
  induction bytes generalizing pending with
  | nil => rw [List.append_nil]; rfl
  | cons b bytes ih =>
      have hcons : escapes (b :: bytes) ++ rest =
          '%' :: hexDigit (b.toNat / 16) :: hexDigit (b.toNat % 16) :: (escapes bytes ++ rest) :=
        rfl
      rw [hcons, decodeFrom, if_pos rfl]
      simp only [byteOf_hexDigits]
      rw [ih, List.append_assoc]
      rfl

theorem isUnreserved_percent : isUnreserved '%' = false := by decide

theorem decodeFrom_encode (front t : Text) :
    decodeFrom (Bytes.ofText front) (encodeURIComponent t) = some (front ++ t) := by
  induction t generalizing front with
  | nil =>
      rw [List.append_nil]
      exact Bytes.strictDecode_ofText front
  | cons c t ih =>
      rw [encodeURIComponent, List.flatMap_cons]
      by_cases hc : isUnreserved c = true
      · have hne : c ≠ '%' := by
          rintro rfl
          rw [isUnreserved_percent] at hc
          cases hc
        have hrest := ih []
        rw [List.nil_append] at hrest
        rw [if_pos hc, List.singleton_append, decodeFrom_plain hne,
          Bytes.strictDecode_ofText]
        exact congrArg (Option.map fun back => front ++ c :: back) hrest
      · have hbytes : Bytes.ofText front ++ String.utf8EncodeChar c = Bytes.ofText (front ++ [c]) := by
          simp [Bytes.ofText]
        rw [if_neg hc, decodeFrom_escapes, hbytes]
        have hrest := ih (front ++ [c])
        rw [List.append_assoc] at hrest
        exact hrest

theorem decodeURIComponent_encode (t : Text) :
    decodeURIComponent (encodeURIComponent t) = some t :=
  decodeFrom_encode [] t

theorem mem_encodeURIComponent {t : Text} {c : Char} (h : c ∈ encodeURIComponent t) :
    isUnreserved c = true ∨ c = '%' := by
  obtain ⟨d, -, hd⟩ := List.mem_flatMap.mp h
  split at hd
  · rename_i hkeep
    obtain rfl := List.mem_singleton.mp hd
    exact .inl hkeep
  · rcases mem_escapes hd with hd | hd
    · exact .inr hd
    · exact .inl (by rw [isUnreserved, hd]; rfl)

theorem encodeURIComponent_eq_nil {t : Text} : encodeURIComponent t = [] ↔ t = [] := by
  constructor
  · intro h
    have hdecoded := decodeURIComponent_encode t
    rw [h] at hdecoded
    exact (Option.some.inj (hdecoded.symm.trans (Bytes.strictDecode_ofText [])))
  · rintro rfl
    rfl

/-! ## Query strings -/

def isFormSafe (c : Char) : Bool := c.isAlphanum || c ∈ ['*', '-', '.', '_']

def formEncode (t : Text) : Text :=
  t.flatMap fun c =>
    if c = ' ' then ['+'] else if isFormSafe c then [c] else escapes (String.utf8EncodeChar c)

/-- The byte of the two digits a text begins with. -/
def leadingByte : Text → Option UInt8
  | high :: low :: _ => byteOf high low
  | _ => none

/-- Decode, with the number of characters that belong to the escape just read. An escape that is
none stands for itself. -/
def percentDecodeFrom : Nat → Text → Bytes
  | _, [] => []
  | skip + 1, _ :: rest => percentDecodeFrom skip rest
  | 0, c :: rest =>
      if c = '%' then
        match leadingByte rest with
        | some b => b :: percentDecodeFrom 2 rest
        | none => String.utf8EncodeChar '%' ++ percentDecodeFrom 0 rest
      else String.utf8EncodeChar c ++ percentDecodeFrom 0 rest

def percentDecode (t : Text) : Bytes := percentDecodeFrom 0 t

def plusToSpace (t : Text) : Text := t.map fun c => if c = '+' then ' ' else c

def formDecode (d : Bytes.TextDecoder) (t : Text) : Text := d.decode (percentDecode (plusToSpace t))

theorem percentDecode_escapes (bytes : Bytes) (rest : Text) :
    percentDecode (escapes bytes ++ rest) = bytes ++ percentDecode rest := by
  induction bytes with
  | nil => rfl
  | cons b bytes ih =>
      have hcons : escapes (b :: bytes) ++ rest =
          '%' :: hexDigit (b.toNat / 16) :: hexDigit (b.toNat % 16) :: (escapes bytes ++ rest) :=
        rfl
      rw [hcons, percentDecode, percentDecodeFrom, if_pos rfl]
      simp only [leadingByte, byteOf_hexDigits]
      rw [List.cons_append, ← ih]
      rfl

theorem plusToSpace_of_notMem {t : Text} (h : '+' ∉ t) : plusToSpace t = t := by
  rw [plusToSpace]
  conv_rhs => rw [← List.map_id t]
  apply List.map_congr_left
  intro c hc
  have hne : c ≠ '+' := fun h' => h (h' ▸ hc)
  rw [if_neg hne, id]

theorem percentDecode_plusToSpace_formEncode (t : Text) :
    percentDecode (plusToSpace (formEncode t)) = Bytes.ofText t := by
  induction t with
  | nil => rfl
  | cons c t ih =>
      have hsplit : plusToSpace (formEncode (c :: t)) =
          plusToSpace (if c = ' ' then ['+'] else if isFormSafe c then [c]
            else escapes (String.utf8EncodeChar c)) ++ plusToSpace (formEncode t) := by
        rw [formEncode, List.flatMap_cons, plusToSpace, List.map_append]
        rfl
      have hbytes : Bytes.ofText (c :: t) = String.utf8EncodeChar c ++ Bytes.ofText t := rfl
      rw [hsplit, hbytes, ← ih]
      by_cases hspace : c = ' '
      · subst hspace
        rw [if_pos rfl]
        rfl
      · rw [if_neg hspace]
        by_cases hsafe : isFormSafe c = true
        · have hplus : c ≠ '+' := by
            rintro rfl
            revert hsafe
            decide
          have hpercent : c ≠ '%' := by
            rintro rfl
            revert hsafe
            decide
          rw [if_pos hsafe, plusToSpace_of_notMem (by simpa using hplus.symm),
            List.singleton_append, percentDecode, percentDecodeFrom, if_neg hpercent]
          rfl
        · have hnone : '+' ∉ escapes (String.utf8EncodeChar c) := by
            intro hmem
            rcases mem_escapes hmem with h | h
            · revert h
              decide
            · revert h
              decide
          rw [if_neg hsafe, plusToSpace_of_notMem hnone, percentDecode_escapes]

theorem formDecode_formEncode (d : Bytes.TextDecoder) (t : Text) :
    formDecode d (formEncode t) = t := by
  rw [formDecode, percentDecode_plusToSpace_formEncode, d.decode_ofText]

theorem mem_formEncode {t : Text} {c : Char} (h : c ∈ formEncode t) :
    isFormSafe c = true ∨ c = '+' ∨ c = '%' := by
  obtain ⟨d, -, hd⟩ := List.mem_flatMap.mp h
  split at hd
  · exact .inr (.inl (List.mem_singleton.mp hd))
  · split at hd
    · rename_i hsafe
      obtain rfl := List.mem_singleton.mp hd
      exact .inl hsafe
    · rcases mem_escapes hd with hd | hd
      · exact .inr (.inr hd)
      · exact .inl (by rw [isFormSafe, hd]; rfl)

/-- A separator of query strings is never written by the encoder. -/
theorem notMem_formEncode {c : Char} (t : Text)
    (h : c = '&' ∨ c = '=' ∨ c = '?') : c ∉ formEncode t := by
  intro hmem
  rcases mem_formEncode hmem with hm | hm | hm
  · rcases h with rfl | rfl | rfl <;> revert hm <;> decide
  · rcases h with rfl | rfl | rfl <;> revert hm <;> decide
  · rcases h with rfl | rfl | rfl <;> revert hm <;> decide

/-! ## Parameters -/

/-- `URLSearchParams`, whose names are set once each. -/
abbrev SearchParams := List (Text × Text)

namespace SearchParams

def set (params : SearchParams) (name value : Text) : SearchParams := setEntry params name value

def get (params : SearchParams) (name : Text) : Option Text := params.lookup name

def pairText (pair : Text × Text) : Text := formEncode pair.1 ++ '=' :: formEncode pair.2

def toText (params : SearchParams) : Text := Text.joinWith '&' (params.map pairText)

def parsePart (d : Bytes.TextDecoder) (part : Text) : Text × Text :=
  match part.cut '=' with
  | some (name, value) => (formDecode d name, formDecode d value)
  | none => (formDecode d part, [])

/-- `new URLSearchParams(text)`: a leading question mark is dropped. -/
def ofText (d : Bytes.TextDecoder) (t : Text) : SearchParams :=
  let t : Text := if t.head? = some '?' then t.tail else t
  ((t.split '&').filter fun part => !part.isEmpty).map (parsePart d)

theorem notMem_toText {params : SearchParams} : '?' ∉ params.toText := by
  apply Text.notMem_joinWith (by decide)
  intro part hpart
  obtain ⟨p, -, rfl⟩ := List.mem_map.mp hpart
  simp only [pairText, List.mem_append, List.mem_cons, not_or]
  exact ⟨notMem_formEncode _ (.inr (.inr rfl)), by decide, notMem_formEncode _ (.inr (.inr rfl))⟩

theorem ofText_toText (d : Bytes.TextDecoder) (params : SearchParams) :
    ofText d params.toText = params := by
  have hhead : ¬ params.toText.head? = some '?' := by
    intro h
    exact notMem_toText (List.mem_of_mem_head? h)
  rw [ofText]
  simp only [if_neg hhead]
  cases params with
  | nil => rfl
  | cons p params =>
      have hne : (p :: params).map pairText ≠ [] := List.cons_ne_nil _ _
      rw [toText, Text.split_joinWith hne]
      · have hfull : ∀ part ∈ (p :: params).map pairText, (!part.isEmpty) = true := by
          intro part hpart
          obtain ⟨q, -, rfl⟩ := List.mem_map.mp hpart
          simp [pairText]
        rw [List.filter_eq_self.mpr hfull, List.map_map]
        conv_rhs => rw [← List.map_id (p :: params)]
        apply List.map_congr_left
        rintro ⟨name, value⟩ -
        simp only [Function.comp, parsePart, pairText]
        rw [Text.cut_append _ (notMem_formEncode _ (.inr (.inl rfl)))]
        simp only [formDecode_formEncode, id]
      · intro part hpart
        obtain ⟨q, -, rfl⟩ := List.mem_map.mp hpart
        simp only [pairText, List.mem_append, List.mem_cons, not_or]
        exact ⟨notMem_formEncode _ (.inl rfl), by decide, notMem_formEncode _ (.inl rfl)⟩

end SearchParams

end AfyxGraph.Core.Percent
