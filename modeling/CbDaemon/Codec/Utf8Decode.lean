/- module: CbDaemon/Codec/Utf8Decode
   source: src/cblib/note.cpp
   digest: The hand-written UTF-8 decoder, and what it makes of encoded bytes. -/

import CbDaemon.Codec.Utf8

set_option autoImplicit false
set_option relaxedAutoImplicit false

namespace CbDaemon.Codec.Utf8Decode
open Utf8

/-- `s[k]`. The position after the last character holds a NUL, and what lies
behind it is unknown. -/
def byteAt (beyond : Nat → UInt8) (s : List UInt8) (k : Nat) : UInt8 :=
  if inside : k < s.length then s[k]
  else if k = s.length then 0
  else beyond (k - s.length)

/-- One round of `UTF8toUnicode` at the front of `s`: the wide character and the
bytes it steps over. The forms of five and six bytes take all their bits from
the first one. With no matching form the index does not move. -/
def decodeRound (beyond : Nat → UInt8) (s : List UInt8) : Option (Nat × Nat) :=
  let c := byteAt beyond s 0
  let tail (k shift : Nat) := (byteAt beyond s k &&& 0x3F).toNat <<< shift
  let lead (shift : Nat) := (c &&& 0x3F).toNat <<< shift
  if c &&& 0x80 = 0 then some (c.toNat, 1)
  else if c &&& 0xE0 = 0xC0 then some ((c &&& 0x1F).toNat <<< 6 ||| tail 1 0, 2)
  else if c &&& 0xF0 = 0xE0 then
    some ((c &&& 0xF).toNat <<< 12 ||| tail 1 6 ||| tail 2 0, 3)
  else if c &&& 0xF8 = 0xF0 then
    some ((c &&& 0x7).toNat <<< 18 ||| tail 1 12 ||| tail 2 6 ||| tail 3 0, 4)
  else if c &&& 0xFC = 0xF8 then
    some ((c &&& 0x3).toNat <<< 24 ||| lead 18 ||| lead 12 ||| lead 6 ||| lead 0, 5)
  else if c &&& 0xFE = 0xFC then
    some ((c &&& 0x1).toNat <<< 30 ||| lead 24 ||| lead 18 ||| lead 12 ||| lead 6 ||| lead 0, 6)
  else none

/-- The loop of `UTF8toUnicode`, with `none` when it does not end. Every round
that goes on takes a byte, so the length of the text is enough fuel. -/
def decode (beyond : Nat → UInt8) : Nat → List UInt8 → Option (List Nat)
  | _, [] => some []
  | 0, _ :: _ => none
  | fuel + 1, b :: rest =>
    match decodeRound beyond (b :: rest) with
    | none => none
    | some (wc, taken) => (decode beyond fuel ((b :: rest).drop taken)).map (wc :: ·)

def utf8toUnicode (beyond : Nat → UInt8) (s : List UInt8) : Option (List Nat) :=
  decode beyond s.length s

/-- The widening of an `unsigned char` to `wchar_t`. -/
def widenUnsigned (b : UInt8) : Int32 := Int32.ofNat b.toNat

def encodeBytes (bytes : List UInt8) : List UInt8 := unicodeToUTF8 (bytes.map widenUnsigned)

/-! The encoding of one byte, in its two forms. -/

theorem encode_low : ∀ n < 128, encodeChar (widenUnsigned (UInt8.ofNat n)) = [UInt8.ofNat n] ∧
    UInt8.ofNat n &&& 0x80 = 0 := by
  decide +kernel

def leadByte (n : Nat) : UInt8 := UInt8.ofNat (0xc0 ||| (n >>> 6))

private theorem encode_high : ∀ n < 256, 128 ≤ n →
    encodeChar (widenUnsigned (UInt8.ofNat n)) = [leadByte n, tailByte n 0] ∧
      leadByte n &&& 0x80 ≠ 0 ∧ leadByte n &&& 0xE0 = 0xC0 ∧
      (leadByte n &&& 0x1F).toNat <<< 6 ||| (tailByte n 0 &&& 0x3F).toNat <<< 0 = n := by
  decide +kernel

theorem utf8EncodeChar_byte : ∀ n < 256,
    String.utf8EncodeChar (Char.ofNat n) = encodeChar (widenUnsigned (UInt8.ofNat n)) := by
  decide +kernel

private theorem decodeRound_encodeChar (beyond : Nat → UInt8) (b : UInt8) :
    ∃ c more, encodeChar (widenUnsigned b) = c :: more ∧ ∀ rest,
      decodeRound beyond (c :: (more ++ rest)) = some (b.toNat, more.length + 1) := by
  have bound := b.toNat_lt
  have same := UInt8.ofNat_toNat (x := b)
  by_cases small : b.toNat < 128
  · obtain ⟨form, ascii⟩ := encode_low b.toNat small
    rw [same] at form ascii
    refine ⟨b, [], form, fun rest => ?_⟩
    simp [decodeRound, byteAt, ascii]
  · obtain ⟨form, high, lead, value⟩ := encode_high b.toNat bound (by omega)
    rw [same] at form
    refine ⟨leadByte b.toNat, [tailByte b.toNat 0], form, fun rest => ?_⟩
    simp [decodeRound, byteAt, high, lead]
    simpa using value

/-- Where each round takes one whole piece of the text, the loop restores one code
point from each piece. -/
theorem decode_flatMap {α : Type} (beyond : Nat → UInt8) (encode : α → List UInt8)
    (value : α → Nat) {xs : List α}
    (round : ∀ x ∈ xs, ∃ c more, encode x = c :: more ∧ ∀ rest,
      decodeRound beyond (c :: (more ++ rest)) = some (value x, more.length + 1))
    {fuel : Nat} (enough : (xs.flatMap encode).length ≤ fuel) :
    decode beyond fuel (xs.flatMap encode) = some (xs.map value) := by
  induction xs generalizing fuel with
  | nil =>
    cases fuel with
    | zero => rfl
    | succ fuel => rfl
  | cons x xs ih =>
    obtain ⟨c, more, form, taken⟩ := round x List.mem_cons_self
    rw [List.flatMap_cons, form, List.cons_append] at enough ⊢
    cases fuel with
    | zero => cases enough
    | succ fuel =>
      rw [List.length_cons, List.length_append] at enough
      rw [decode, taken (xs.flatMap encode)]
      show (decode beyond fuel ((c :: (more ++ xs.flatMap encode)).drop (more.length + 1))).map
        (value x :: ·) = _
      rw [List.drop_succ_cons, List.drop_left,
        ih (fun y among => round y (List.mem_cons_of_mem x among)) (by omega)]
      rfl

theorem utf8toUnicode_encodeBytes (beyond : Nat → UInt8) (bytes : List UInt8) :
    utf8toUnicode beyond (encodeBytes bytes) = some (bytes.map (·.toNat)) := by
  have pieces : encodeBytes bytes = bytes.flatMap fun b => encodeChar (widenUnsigned b) :=
    List.flatMap_map widenUnsigned encodeChar bytes
  rw [pieces]
  exact decode_flatMap beyond _ _ (fun b _ => decodeRound_encodeChar beyond b) le_rfl

theorem encodeBytes_eq (bytes : List UInt8) :
    encodeBytes bytes = (bytes.map fun b => Char.ofNat b.toNat).flatMap String.utf8EncodeChar := by
  induction bytes with
  | nil => rfl
  | cons b bytes ih =>
    have head := utf8EncodeChar_byte b.toNat b.toNat_lt
    rw [UInt8.ofNat_toNat] at head
    rw [List.map_cons, List.flatMap_cons, head, ← ih]
    rfl

theorem validUtf8_encodeBytes (bytes : List UInt8) : ValidUtf8 (encodeBytes bytes) :=
  ⟨_, encodeBytes_eq bytes⟩

end CbDaemon.Codec.Utf8Decode
