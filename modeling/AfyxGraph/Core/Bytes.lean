import AfyxGraph.Core.TextParts
import Mathlib.Algebra.Group.Nat.Defs

/-! # Byte buffers

Little-endian numbers in a list of bytes, rows of one width, and text as UTF-8. A read past the
end throws. The decoder of text is a structure: on what is no UTF-8 it may answer anything.
-/

namespace AfyxGraph.Core

abbrev Bytes := List UInt8

namespace Bytes

/-! ## Numbers -/

def u16 (v : UInt16) : Bytes := [v.toUInt8, (v >>> 8).toUInt8]

def u32 (v : UInt32) : Bytes :=
  [v.toUInt8, (v >>> 8).toUInt8, (v >>> 16).toUInt8, (v >>> 24).toUInt8]

def u64 (v : UInt64) : Bytes :=
  [v.toUInt8, (v >>> 8).toUInt8, (v >>> 16).toUInt8, (v >>> 24).toUInt8, (v >>> 32).toUInt8,
    (v >>> 40).toUInt8, (v >>> 48).toUInt8, (v >>> 56).toUInt8]

def readUInt8 (bytes : Bytes) (offset : Nat) : Option UInt8 := bytes[offset]?

def readUInt16LE (bytes : Bytes) (offset : Nat) : Option UInt16 :=
  match bytes.drop offset with
  | a :: b :: _ => some (UInt16.ofNat (a.toNat + b.toNat * 2 ^ 8))
  | _ => none

def readUInt32LE (bytes : Bytes) (offset : Nat) : Option UInt32 :=
  match bytes.drop offset with
  | a :: b :: c :: d :: _ =>
      some (UInt32.ofNat (a.toNat + b.toNat * 2 ^ 8 + c.toNat * 2 ^ 16 + d.toNat * 2 ^ 24))
  | _ => none

theorem readUInt8_of_drop {bytes rest : Bytes} {offset : Nat} {v : UInt8}
    (h : bytes.drop offset = v :: rest) : readUInt8 bytes offset = some v := by
  rw [readUInt8, ← List.head?_drop, h]
  rfl

theorem readUInt16LE_of_drop {bytes rest : Bytes} {offset : Nat} {v : UInt16}
    (h : bytes.drop offset = u16 v ++ rest) : readUInt16LE bytes offset = some v := by
  have hv := v.toNat_lt
  simp only [readUInt16LE, h, u16, List.cons_append, List.nil_append, Option.some.injEq]
  apply UInt16.toNat_inj.mp
  simp only [UInt16.toNat_ofNat', UInt16.toNat_toUInt8, UInt16.toNat_shiftRight,
    UInt16.reduceToNat, Nat.shiftRight_eq_div_pow, Nat.reduceMod, Nat.reducePow]
  omega

theorem readUInt32LE_of_drop {bytes rest : Bytes} {offset : Nat} {v : UInt32}
    (h : bytes.drop offset = u32 v ++ rest) : readUInt32LE bytes offset = some v := by
  have hv := v.toNat_lt
  simp only [readUInt32LE, h, u32, List.cons_append, List.nil_append, Option.some.injEq]
  apply UInt32.toNat_inj.mp
  simp only [UInt32.toNat_ofNat', UInt32.toNat_toUInt8, UInt32.toNat_shiftRight,
    UInt32.reduceToNat, Nat.shiftRight_eq_div_pow, Nat.reduceMod, Nat.reducePow]
  omega

/-! ## Rows -/

/-- `subarray(i * size, (i + 1) * size)` -/
def row (bytes : Bytes) (size i : Nat) : Bytes :=
  (bytes.drop (i * size)).take ((i + 1) * size - i * size)

theorem row_flatten {size : Nat} {rows : List Bytes} (hsize : ∀ r ∈ rows, r.length = size)
    {i : Nat} {r : Bytes} (hr : rows[i]? = some r) : row rows.flatten size i = r := by
  have hwidth : (i + 1) * size - i * size = size := by
    rw [Nat.add_mul, Nat.one_mul, Nat.add_sub_cancel_left]
  rw [row, hwidth]
  induction rows generalizing i with
  | nil => cases hr
  | cons first rows ih =>
      have hfirst := hsize first (List.mem_cons_self ..)
      rw [List.flatten_cons]
      cases i with
      | zero =>
          obtain rfl := Option.some.inj hr
          rw [Nat.zero_mul, List.drop_zero, List.take_left' hfirst]
      | succ i =>
          have hskip : (i + 1) * size = first.length + i * size := by
            rw [hfirst, Nat.add_mul, Nat.one_mul, Nat.add_comm]
          rw [hskip, ← List.drop_drop, List.drop_left]
          exact ih (fun r hr => hsize r (List.mem_cons_of_mem _ hr)) hr (by
            rw [Nat.add_mul, Nat.one_mul, Nat.add_sub_cancel_left])

/-! ## Text -/

/-- `as_bytes` -/
def ofText (t : Text) : Bytes := t.flatMap String.utf8EncodeChar

/-- `toString('utf8')` -/
structure TextDecoder where
  decode : Bytes → Text
  decode_ofText : ∀ t, decode (ofText t) = t

/-- `toString('utf8', start, end)` -/
def TextDecoder.slice (d : TextDecoder) (bytes : Bytes) (start stop : Nat) : Text :=
  d.decode ((bytes.take stop).drop start)

theorem TextDecoder.slice_append (d : TextDecoder) (before : Bytes) (t : Text) (after : Bytes) :
    d.slice (before ++ (ofText t ++ after)) before.length
      (before.length + (ofText t).length) = t := by
  rw [slice, List.take_append, List.take_of_length_le (Nat.le_add_right _ _),
    Nat.add_sub_cancel_left, List.drop_left, List.take_left, d.decode_ofText]

/-- The text whose UTF-8 the bytes are. -/
def strictDecode (bytes : Bytes) : Option Text :=
  (ByteArray.mk bytes.toArray).utf8Decode?.map Array.toList

theorem strictDecode_ofText (t : Text) : strictDecode (ofText t) = some t := by
  have hencode : ByteArray.mk (ofText t).toArray = t.utf8Encode := by
    rw [List.utf8Encode, ofText]
    apply ByteArray.ext
    simp
  rw [strictDecode, hencode, List.utf8Decode?_utf8Encode]
  simp

/-- A decoder that answers nothing for what is no UTF-8. -/
def strictDecoder : TextDecoder where
  decode bytes := (strictDecode bytes).getD []
  decode_ofText t := by rw [strictDecode_ofText, Option.getD_some]

end Bytes

end AfyxGraph.Core
