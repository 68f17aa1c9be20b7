/- module: CbDaemon/Codec/Utf8Valid
   source: src/cblib/note.cpp
   digest: The UTF-8 validator accepts exactly the texts the encoder writes from scalar values. -/

import CbDaemon.Codec.Utf8Range

set_option autoImplicit false
set_option relaxedAutoImplicit false

namespace CbDaemon.Codec.Utf8Valid
open Utf8 Utf8Decode Utf8Range

def leading (b : UInt8) : Option (Nat × Nat) :=
  if b &&& 0x80 = 0x00 then some ((b &&& 0x7F).toNat, 1)
  else if b &&& 0xE0 = 0xC0 then some ((b &&& 0x1F).toNat, 2)
  else if b &&& 0xF0 = 0xE0 then some ((b &&& 0x0F).toNat, 3)
  else if b &&& 0xF8 = 0xF0 then some ((b &&& 0x07).toNat, 4)
  else none

/-- The inner loop of `is_valid_utf8`, with the number of bytes still to read. -/
def following : Nat → Nat → List UInt8 → Option (Nat × List UInt8)
  | 0, cp, bytes => some (cp, bytes)
  -- the NUL behind the text is no continuation byte
  | _ + 1, _, [] => none
  | count + 1, cp, b :: bytes =>
    if b &&& 0xC0 ≠ 0x80 then none
    else following count ((cp <<< 6) ||| (b &&& 0x3F).toNat) bytes

/-- A code point that is no scalar value, or is not written with its own number of
bytes. -/
def Rejected (cp num : Nat) : Prop :=
  cp > 0x10FFFF ∨ (cp ≥ 0xD800 ∧ cp ≤ 0xDFFF) ∨ (cp ≤ 0x007F ∧ num ≠ 1) ∨
    (cp ≥ 0x0080 ∧ cp ≤ 0x07FF ∧ num ≠ 2) ∨ (cp ≥ 0x0800 ∧ cp ≤ 0xFFFF ∧ num ≠ 3) ∨
    (cp ≥ 0x10000 ∧ cp ≤ 0x1FFFFF ∧ num ≠ 4)

instance (cp num : Nat) : Decidable (Rejected cp num) :=
  inferInstanceAs (Decidable (_ ∨ _))

/-- One round of `is_valid_utf8`: the bytes behind an accepted character. -/
def validRound (b : UInt8) (bytes : List UInt8) : Option (List UInt8) := do
  let (cp, num) ← leading b
  let (cp, bytes) ← following (num - 1) cp bytes
  if Rejected cp num then none else some bytes

/-- The loop of `is_valid_utf8` over the bytes before the final NUL. Every round takes
a byte, so the length of the text is enough fuel. -/
def validLoop : Nat → List UInt8 → Bool
  | _, [] => true
  | 0, _ :: _ => false
  | fuel + 1, b :: bytes =>
    if b = 0x00 then true
    else
      match validRound b bytes with
      | none => false
      | some bytes => validLoop fuel bytes

/-- `is_valid_utf8`, where `none` is the null pointer. -/
def isValidUtf8 : Option (List UInt8) → Bool
  | none => true
  | some s => validLoop s.length s

def ScalarValue (n : Nat) : Prop := n ≤ 0x10FFFF ∧ ¬ (0xD800 ≤ n ∧ n ≤ 0xDFFF)

/-! The tests of the validator as arithmetic. -/

private theorem leading_eq (b : UInt8) :
    leading b =
      if b.toNat < 128 then some (b.toNat % 2 ^ 7, 1)
      else if b.toNat < 192 then none
      else if b.toNat < 224 then some (b.toNat % 2 ^ 5, 2)
      else if b.toNat < 240 then some (b.toNat % 2 ^ 4, 3)
      else if b.toNat < 248 then some (b.toNat % 2 ^ 3, 4)
      else none := by
  obtain ⟨one, two, three, four, _⟩ := and_tests b
  simp only [leading, one, two, three, four, toNat_and_low b 0x7F (k := 7) rfl,
    toNat_and_low b 0x1F (k := 5) rfl, toNat_and_low b 0x0F (k := 4) rfl,
    toNat_and_low b 0x07 (k := 3) rfl]
  split_ifs <;> first | rfl | omega

private theorem following_cons {count cp : Nat} {b : UInt8} {bytes : List UInt8} :
    following (count + 1) cp (b :: bytes) =
      if 128 ≤ b.toNat ∧ b.toNat < 192 then following count (cp * 64 + b.toNat % 64) bytes
      else none := by
  have digit := or_digitOf cp 0 b
  rw [Nat.shiftLeft_zero, Nat.shiftLeft_zero] at digit
  rw [following, digit, ite_not, if_congr (and_tests b).2.2.2.2.2.2 rfl rfl]

private theorem following_succ_eq_some {count cp : Nat} {bytes : List UInt8}
    {r : Nat × List UInt8} :
    following (count + 1) cp bytes = some r ↔
      ∃ b more, bytes = b :: more ∧ (128 ≤ b.toNat ∧ b.toNat < 192) ∧
        following count (cp * 64 + b.toNat % 64) more = some r := by
  cases bytes with
  | nil => simp [following]
  | cons b more =>
    rw [following_cons]
    constructor
    · intro result
      rw [Option.ite_none_right_eq_some] at result
      exact ⟨b, more, rfl, result⟩
    · rintro ⟨b, more, same, continues, result⟩
      cases same
      rw [if_pos continues, result]

private theorem validRound_eq_some {b : UInt8} {bytes rest : List UInt8} :
    validRound b bytes = some rest ↔ ∃ lead num cp, leading b = some (lead, num) ∧
      following (num - 1) lead bytes = some (cp, rest) ∧ ¬ Rejected cp num := by
  unfold validRound
  constructor
  · intro accepted
    obtain ⟨⟨lead, num⟩, first, accepted⟩ := Option.bind_eq_some_iff.mp accepted
    obtain ⟨⟨cp, left⟩, further, accepted⟩ := Option.bind_eq_some_iff.mp accepted
    rw [Option.ite_none_left_eq_some, Option.some.injEq] at accepted
    obtain ⟨kept, same⟩ := accepted
    exact ⟨lead, num, cp, first, same ▸ further, kept⟩
  · rintro ⟨lead, num, cp, first, further, kept⟩
    simp only [first, further, Option.bind_eq_bind, Option.bind_some, if_neg kept]

private theorem byte_eq {b : UInt8} {m : Nat} (value : b.toNat = m) : UInt8.ofNat m = b := by
  rw [← value, UInt8.ofNat_toNat]

private theorem digitByte_eq {b : UInt8} {n d : Nat} (continues : 128 ≤ b.toNat ∧ b.toNat < 192)
    (digit : b.toNat % 64 = n / d % 64) : digitByte n d = b :=
  byte_eq (by omega)

private theorem formBytes_of_validRound {b : UInt8} {bytes rest : List UInt8}
    (accepted : validRound b bytes = some rest) :
    ∃ n, ScalarValue n ∧ b :: bytes = formBytes n ++ rest := by
  obtain ⟨lead, num, n, first, further, kept⟩ := validRound_eq_some.mp accepted
  unfold Rejected at kept
  refine ⟨n, ⟨by omega, by omega⟩, ?_⟩
  rw [leading_eq] at first
  -- one case for each number of bytes that a first byte announces
  split_ifs at first with one none two three four
  · cases first
    cases further
    rw [formBytes_one (by omega), byte_eq (b := b) (by omega)]
    rfl
  · cases first
    obtain ⟨c, bytes, rfl, second, further⟩ := following_succ_eq_some.mp further
    cases further
    rw [formBytes_two (by omega) (by omega), byte_eq (b := b) (by omega),
      digitByte_eq second (by omega)]
    rfl
  · cases first
    obtain ⟨c, bytes, rfl, second, further⟩ := following_succ_eq_some.mp further
    obtain ⟨d, bytes, rfl, third, further⟩ := following_succ_eq_some.mp further
    cases further
    rw [formBytes_three (by omega) (by omega), byte_eq (b := b) (by omega),
      digitByte_eq second (by omega), digitByte_eq third (by omega)]
    rfl
  · cases first
    obtain ⟨c, bytes, rfl, second, further⟩ := following_succ_eq_some.mp further
    obtain ⟨d, bytes, rfl, third, further⟩ := following_succ_eq_some.mp further
    obtain ⟨e, bytes, rfl, fourth, further⟩ := following_succ_eq_some.mp further
    cases further
    rw [formBytes_four (by omega) (by omega), byte_eq (b := b) (by omega),
      digitByte_eq second (by omega), digitByte_eq third (by omega),
      digitByte_eq fourth (by omega)]
    rfl

private theorem following_digit {e d : Nat} (weight : e = d * 64) (count n : Nat)
    (bytes : List UInt8) :
    following (count + 1) (n / e) (digitByte n d :: bytes) = following count (n / d) bytes := by
  have value : n / e * 64 + (128 + n / d % 64) % 64 = n / d := by
    rw [weight, ← Nat.div_div_eq_div_mul]
    omega
  rw [following_cons, toNat_digitByte, if_pos (by omega), value]

private theorem following_two (n : Nat) (rest : List UInt8) :
    following 1 (n / 2 ^ 6) (digitByte n 1 :: rest) = some (n, rest) := by
  rw [following_digit (by decide), Nat.div_one, following]

private theorem following_three (n : Nat) (rest : List UInt8) :
    following 2 (n / 2 ^ 12) (digitByte n (2 ^ 6) :: digitByte n 1 :: rest) = some (n, rest) := by
  rw [following_digit (by decide), following_two]

private theorem following_four (n : Nat) (rest : List UInt8) :
    following 3 (n / 2 ^ 18) (digitByte n (2 ^ 12) :: digitByte n (2 ^ 6) :: digitByte n 1 :: rest) =
      some (n, rest) := by
  rw [following_digit (by decide), following_three]

private theorem validRound_formBytes {n : Nat} (scalar : ScalarValue n) :
    ∃ b bytes, formBytes n = b :: bytes ∧ ∀ rest, validRound b (bytes ++ rest) = some rest := by
  obtain ⟨bound, noSurrogate⟩ := scalar
  by_cases one : n < 0x80
  · refine ⟨_, _, formBytes_one one, fun rest => ?_⟩
    have value : (UInt8.ofNat n).toNat = n := toNat_byte (by omega)
    have bits : n % 2 ^ 7 = n := Nat.mod_eq_of_lt one
    refine validRound_eq_some.mpr ⟨n, 1, n, ?_, rfl, by unfold Rejected; omega⟩
    rw [leading_eq, value, if_pos one, bits]
  by_cases two : n < 0x800
  · refine ⟨_, _, formBytes_two (by omega) two, fun rest => ?_⟩
    have value : (UInt8.ofNat (192 + n / 2 ^ 6)).toNat = 192 + n / 2 ^ 6 := toNat_byte (by omega)
    have bits : (192 + n / 2 ^ 6) % 2 ^ 5 = n / 2 ^ 6 := by omega
    refine validRound_eq_some.mpr ⟨n / 2 ^ 6, 2, n, ?_, following_two n rest,
      by unfold Rejected; omega⟩
    rw [leading_eq, value, if_neg (by omega), if_neg (by omega), if_pos (by omega), bits]
  by_cases three : n < 0x10000
  · refine ⟨_, _, formBytes_three (by omega) three, fun rest => ?_⟩
    have value : (UInt8.ofNat (224 + n / 2 ^ 12)).toNat = 224 + n / 2 ^ 12 :=
      toNat_byte (by omega)
    have bits : (224 + n / 2 ^ 12) % 2 ^ 4 = n / 2 ^ 12 := by omega
    refine validRound_eq_some.mpr ⟨n / 2 ^ 12, 3, n, ?_, following_three n rest,
      by unfold Rejected; omega⟩
    rw [leading_eq, value, if_neg (by omega), if_neg (by omega), if_neg (by omega),
      if_pos (by omega), bits]
  · refine ⟨_, _, formBytes_four (by omega) (by omega), fun rest => ?_⟩
    have value : (UInt8.ofNat (240 + n / 2 ^ 18)).toNat = 240 + n / 2 ^ 18 :=
      toNat_byte (by omega)
    have bits : (240 + n / 2 ^ 18) % 2 ^ 3 = n / 2 ^ 18 := by omega
    refine validRound_eq_some.mpr ⟨n / 2 ^ 18, 4, n, ?_, following_four n rest,
      by unfold Rejected; omega⟩
    rw [leading_eq, value, if_neg (by omega), if_neg (by omega), if_neg (by omega),
      if_neg (by omega), if_pos (by omega), bits]

/-! The code points as wide characters. -/

def NonzeroScalar (wc : Int32) : Prop :=
  0 < wc ∧ wc ≤ 0x10FFFF ∧ ¬ (0xD800 ≤ wc ∧ wc ≤ 0xDFFF)

instance (wc : Int32) : Decidable (NonzeroScalar wc) :=
  inferInstanceAs (Decidable (_ ∧ _))

private theorem NonzeroScalar.nonneg {wc : Int32} (scalar : NonzeroScalar wc) : 0 ≤ wc :=
  Int32.le_of_lt scalar.1

private theorem nonzeroScalar_iff {wc : Int32} (nonneg : 0 ≤ wc) :
    NonzeroScalar wc ↔ wc.toNatClampNeg ≠ 0 ∧ ScalarValue wc.toNatClampNeg := by
  simp only [NonzeroScalar, ScalarValue, Int32.lt_iff_toInt_lt, Int32.le_iff_toInt_le,
    toInt_eq_clamp nonneg, Int32.reduceToInt]
  omega

private theorem exists_nonzeroScalar {n : Nat} (nonzero : n ≠ 0) (scalar : ScalarValue n) :
    ∃ wc, NonzeroScalar wc ∧ encodeChar wc = formBytes n := by
  have bound := scalar.1
  have value : (Int32.ofNat n).toNatClampNeg = n := by
    rw [← Int32.toNat_toInt, Int32.toInt_ofNat_of_lt (by omega)]
    rfl
  have nonneg : 0 ≤ Int32.ofNat n := by
    rw [Int32.le_iff_toInt_le, Int32.toInt_ofNat_of_lt (by omega)]
    exact Int.natCast_nonneg n
  refine ⟨Int32.ofNat n, (nonzeroScalar_iff nonneg).mpr ?_, ?_⟩
  · rw [value]
    exact ⟨nonzero, scalar⟩
  · rw [encodeChar_eq_formBytes nonneg, value]

private theorem validLoop_unicodeToUTF8 {ws : List Int32} (scalars : ∀ wc ∈ ws, NonzeroScalar wc) :
    ∀ {fuel : Nat}, (unicodeToUTF8 ws).length ≤ fuel → validLoop fuel (unicodeToUTF8 ws) = true := by
  induction ws with
  | nil =>
    intro fuel _
    cases fuel with
    | zero => rfl
    | succ fuel => rfl
  | cons wc ws ih =>
    intro fuel enough
    obtain ⟨scalar, others⟩ := List.forall_mem_cons.mp scalars
    have nonneg := scalar.nonneg
    obtain ⟨b, bytes, form, accepted⟩ :=
      validRound_formBytes ((nonzeroScalar_iff nonneg).mp scalar).2
    have text : unicodeToUTF8 (wc :: ws) = b :: (bytes ++ unicodeToUTF8 ws) := by
      rw [← List.cons_append, ← form, ← encodeChar_eq_formBytes nonneg]
      rfl
    rw [text] at enough ⊢
    cases fuel with
    | zero => cases enough
    | succ fuel =>
      rw [List.length_cons, List.length_append] at enough
      rw [validLoop, accepted]
      by_cases nul : b = 0x00
      · rw [if_pos nul]
      · rw [if_neg nul]
        exact ih others (by omega)

private theorem exists_of_validLoop {fuel : Nat} :
    ∀ {s : List UInt8}, 0 ∉ s → validLoop fuel s = true →
    ∃ ws, (∀ wc ∈ ws, NonzeroScalar wc) ∧ s = unicodeToUTF8 ws := by
  induction fuel with
  | zero =>
    intro s _ accepted
    cases s with
    | nil => exact ⟨[], List.forall_mem_nil _, rfl⟩
    | cons b bytes => cases accepted
  | succ fuel ih =>
    intro s noNul accepted
    cases s with
    | nil => exact ⟨[], List.forall_mem_nil _, rfl⟩
    | cons b bytes =>
      have nonzero : b ≠ 0x00 := fun nul => noNul (nul ▸ List.mem_cons_self)
      rw [validLoop, if_neg nonzero] at accepted
      cases taken : validRound b bytes with
      | none =>
        rw [taken] at accepted
        cases accepted
      | some rest =>
        rw [taken] at accepted
        obtain ⟨n, scalar, text⟩ := formBytes_of_validRound taken
        rw [text] at noNul ⊢
        obtain ⟨ws, scalars, encoded⟩ :=
          ih (fun nul => noNul (List.mem_append_right _ nul)) accepted
        -- the code point NUL would be the byte NUL
        have positive : n ≠ 0 := by
          rintro rfl
          exact noNul (List.mem_append_left _ (List.mem_singleton.mpr rfl))
        obtain ⟨wc, isScalar, form⟩ := exists_nonzeroScalar positive scalar
        refine ⟨wc :: ws, List.forall_mem_cons.mpr ⟨isScalar, scalars⟩, ?_⟩
        rw [encoded, ← form]
        rfl

private theorem restorable_of_nonzeroScalar {wc : Int32} (scalar : NonzeroScalar wc) :
    Restorable wc := by
  left
  have bound := Int32.le_iff_toInt_le.mp scalar.2.1
  rw [Int32.lt_iff_toInt_lt]
  simp only [Int32.reduceToInt] at bound ⊢
  omega

/-- `is_valid_utf8` holds of the texts that the encoder writes from scalar values
other than NUL and of no others, and the decoder gives these values back. -/
theorem isValidUtf8_iff (s : List UInt8) (noNul : 0 ∉ s) :
    (isValidUtf8 (some s) = true ↔
      ∃ ws, (∀ wc ∈ ws, NonzeroScalar wc) ∧ s = unicodeToUTF8 ws) ∧
    ∀ ws, (∀ wc ∈ ws, NonzeroScalar wc) → s = unicodeToUTF8 ws →
      ∀ beyond, utf8toUnicode beyond s = some (ws.map Int32.toNatClampNeg) := by
  refine ⟨⟨exists_of_validLoop noNul, ?_⟩, ?_⟩
  · rintro ⟨ws, scalars, rfl⟩
    exact validLoop_unicodeToUTF8 scalars le_rfl
  · rintro ws scalars rfl beyond
    exact utf8toUnicode_restorable beyond (fun wc among => (scalars wc among).nonneg)
      fun wc among => restorable_of_nonzeroScalar (scalars wc among)

/-- A text with one character of each length. -/
theorem isValidUtf8_sample :
    isValidUtf8 (some (unicodeToUTF8 [0x41, 0xE9, 0x20AC, 0x1F600])) = true :=
  (isValidUtf8_iff (unicodeToUTF8 [0x41, 0xE9, 0x20AC, 0x1F600]) (by decide)).1.mpr
    ⟨[0x41, 0xE9, 0x20AC, 0x1F600], List.all_iff_forall_prop.mp (by decide), rfl⟩

/-- An overlong form, a surrogate, a value out of range, a missing continuation byte
and a stray one. -/
example : [[0xC1, 0x81], [0xED, 0xA0, 0x80], [0xF4, 0x90, 0x80, 0x80], [0xE2, 0x82], [0x82]].map
    (fun s => isValidUtf8 (some s)) = [false, false, false, false, false] := by
  decide

end CbDaemon.Codec.Utf8Valid
