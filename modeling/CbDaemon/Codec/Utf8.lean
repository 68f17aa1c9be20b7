/- module: CbDaemon/Codec/Utf8
   source: src/cblib/note.cpp
   digest: The hand-written UTF-8 encoder over signed wide characters. -/

import Mathlib.Algebra.Order.Ring.Int
import Mathlib.Algebra.Order.Ring.Nat
import Mathlib.Data.List.Basic
import Mathlib.Tactic.Common

set_option autoImplicit false
set_option relaxedAutoImplicit false

namespace CbDaemon.Codec.Utf8

/-- A continuation byte with the six bits of `n` from position `shift` up. -/
def tailByte (n shift : Nat) : UInt8 := UInt8.ofNat (0x80 ||| ((n >>> shift) &&& 0x3f))

/-- One round of `UnicodeToUTF8`. A `wchar_t` is a signed 32-bit value, and no
branch of the source covers a negative one, which is therefore dropped. -/
def encodeChar (wc : Int32) : List UInt8 :=
  let n := wc.toNatClampNeg
  if 0 ≤ wc ∧ wc ≤ 0x7f then [UInt8.ofNat n]
  else if 0x80 ≤ wc ∧ wc ≤ 0x7ff then
    [UInt8.ofNat (0xc0 ||| (n >>> 6)), tailByte n 0]
  else if 0x800 ≤ wc ∧ wc ≤ 0xffff then
    [UInt8.ofNat (0xe0 ||| (n >>> 12)), tailByte n 6, tailByte n 0]
  else if 0x10000 ≤ wc ∧ wc ≤ 0x1fffff then
    [UInt8.ofNat (0xf0 ||| (n >>> 18)), tailByte n 12, tailByte n 6, tailByte n 0]
  else if 0x200000 ≤ wc ∧ wc ≤ 0x3ffffff then
    [UInt8.ofNat (0xf8 ||| (n >>> 24)), tailByte n 18, tailByte n 12, tailByte n 6,
      tailByte n 0]
  else if 0x4000000 ≤ wc ∧ wc ≤ 0x7fffffff then
    [UInt8.ofNat (0xfc ||| (n >>> 30)), tailByte n 24, tailByte n 18, tailByte n 12,
      tailByte n 6, tailByte n 0]
  else []

def unicodeToUTF8 (ws : List Int32) : List UInt8 := ws.flatMap encodeChar

/-- Well-formed UTF-8: the encoding of some list of Unicode scalar values. -/
def ValidUtf8 (s : List UInt8) : Prop := ∃ cs : List Char, s = cs.flatMap String.utf8EncodeChar

/-- A plain `char` is signed on the target, so widening a byte to `wchar_t`
extends its sign bit. -/
def widen (b : UInt8) : Int32 := b.toInt8.toInt32

private theorem toInt_widen (b : UInt8) :
    (widen b).toInt = if b < 0x80 then (b.toNat : Int) else b.toNat - 256 := by
  have bound := b.toNat_lt
  have signed : (widen b).toInt = b.toBitVec.toInt := Int8.toInt_toInt32 b.toInt8
  have limit : (0x80 : UInt8).toNat = 128 := rfl
  rw [signed, BitVec.toInt_eq_toNat_cond]
  simp only [UInt8.lt_iff_toNat_lt, UInt8.toNat_toBitVec, limit]
  split <;> split <;> omega

private theorem encodeChar_of_neg {wc : Int32} (neg : wc.toInt < 0) : encodeChar wc = [] := by
  have below : ∀ low : Int32, 0 ≤ low.toInt → ¬ low ≤ wc := by
    intro low nonneg le
    have := Int32.le_iff_toInt_le.mp le
    omega
  unfold encodeChar
  simp only [below 0 (by decide), below 0x80 (by decide), below 0x800 (by decide),
    below 0x10000 (by decide), below 0x200000 (by decide), below 0x4000000 (by decide),
    false_and, if_false]

private theorem encodeChar_of_ascii {wc : Int32} (nonneg : 0 ≤ wc.toInt)
    (small : wc.toInt ≤ 0x7f) : encodeChar wc = [UInt8.ofNat wc.toInt.toNat] := by
  have range : 0 ≤ wc ∧ wc ≤ 0x7f := by
    constructor
    · exact Int32.le_iff_toInt_le.mpr nonneg
    · exact Int32.le_iff_toInt_le.mpr small
  unfold encodeChar
  rw [if_pos range, Int32.toNat_toInt]

private theorem encodeChar_widen (b : UInt8) :
    encodeChar (widen b) = if b < 0x80 then [b] else [] := by
  have value := toInt_widen b
  have bound := b.toNat_lt
  by_cases ascii : b < 0x80
  · have small : b.toNat < 128 := UInt8.lt_iff_toNat_lt.mp ascii
    rw [if_pos ascii] at value ⊢
    rw [encodeChar_of_ascii (by omega) (by omega), value, Int.toNat_natCast,
      UInt8.ofNat_toNat]
  · rw [if_neg ascii] at value ⊢
    exact encodeChar_of_neg (by omega)

theorem unicodeToUTF8_widen (bytes : List UInt8) :
    unicodeToUTF8 (bytes.map widen) = bytes.filter (· < 0x80) := by
  induction bytes with
  | nil => rfl
  | cons b bytes ih =>
    have head := encodeChar_widen b
    simp only [unicodeToUTF8, List.map_cons, List.flatMap_cons] at ih ⊢
    rw [head, ih]
    by_cases ascii : b < 0x80 <;> simp [ascii]

private theorem utf8EncodeChar_ofNat {b : UInt8} (small : b.toNat < 0x80) :
    String.utf8EncodeChar (Char.ofNat b.toNat) = [b] := by
  have scalar : (Char.ofNat b.toNat).val.toNat = b.toNat := by
    have valid : b.toNat.isValidChar := Or.inl (by omega)
    rw [Char.ofNat, dif_pos valid]
    rfl
  unfold String.utf8EncodeChar
  simp only [scalar, show b.toNat ≤ 127 by omega, if_true, UInt8.ofNat_toNat]

theorem validUtf8_of_ascii {s : List UInt8} (ascii : ∀ b ∈ s, b < 0x80) : ValidUtf8 s := by
  induction s with
  | nil => exact ⟨[], rfl⟩
  | cons b s ih =>
    obtain ⟨cs, rest⟩ := ih fun c mem => ascii c (List.mem_cons_of_mem b mem)
    have small : b.toNat < 0x80 := UInt8.lt_iff_toNat_lt.mp (ascii b List.mem_cons_self)
    refine ⟨Char.ofNat b.toNat :: cs, ?_⟩
    rw [List.flatMap_cons, ← rest, utf8EncodeChar_ofNat small]
    rfl

end CbDaemon.Codec.Utf8
