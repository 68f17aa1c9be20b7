/- module: CbDaemon/Codec/Utf8Range
   source: src/cblib/note.cpp
   digest: The texts the UTF-8 decoder gets through within their bounds, and the code points it restores. -/

import CbDaemon.Base.Fallible
import CbDaemon.Codec.Utf8Decode
import Mathlib.Data.Bool.AllAny

set_option autoImplicit false
set_option relaxedAutoImplicit false

namespace CbDaemon.Codec.Utf8Range
open Base.Fallible Utf8 Utf8Decode

/-! The tests and masks of a byte as arithmetic on its value. -/

theorem and_tests (b : UInt8) :
    (b &&& 0x80 = 0 ↔ b.toNat < 128) ∧
      (b &&& 0xE0 = 0xC0 ↔ 192 ≤ b.toNat ∧ b.toNat < 224) ∧
      (b &&& 0xF0 = 0xE0 ↔ 224 ≤ b.toNat ∧ b.toNat < 240) ∧
      (b &&& 0xF8 = 0xF0 ↔ 240 ≤ b.toNat ∧ b.toNat < 248) ∧
      (b &&& 0xFC = 0xF8 ↔ 248 ≤ b.toNat ∧ b.toNat < 252) ∧
      (b &&& 0xFE = 0xFC ↔ 252 ≤ b.toNat ∧ b.toNat < 254) ∧
      (b &&& 0xC0 = 0x80 ↔ 128 ≤ b.toNat ∧ b.toNat < 192) := by
  have all : ∀ n < 256,
      (UInt8.ofNat n &&& 0x80 = 0 ↔ n < 128) ∧
        (UInt8.ofNat n &&& 0xE0 = 0xC0 ↔ 192 ≤ n ∧ n < 224) ∧
        (UInt8.ofNat n &&& 0xF0 = 0xE0 ↔ 224 ≤ n ∧ n < 240) ∧
        (UInt8.ofNat n &&& 0xF8 = 0xF0 ↔ 240 ≤ n ∧ n < 248) ∧
        (UInt8.ofNat n &&& 0xFC = 0xF8 ↔ 248 ≤ n ∧ n < 252) ∧
        (UInt8.ofNat n &&& 0xFE = 0xFC ↔ 252 ≤ n ∧ n < 254) ∧
        (UInt8.ofNat n &&& 0xC0 = 0x80 ↔ 128 ≤ n ∧ n < 192) := by
    decide +kernel
  have this := all b.toNat b.toNat_lt
  rwa [UInt8.ofNat_toNat] at this

theorem toNat_and_low (b mask : UInt8) {k : Nat} (low : mask.toNat = 2 ^ k - 1) :
    (b &&& mask).toNat = b.toNat % 2 ^ k := by
  rw [UInt8.toNat_and, low, Nat.and_two_pow_sub_one_eq_mod]

private theorem or_digit (a shift : Nat) {d : Nat} (small : d < 64) :
    a <<< (shift + 6) ||| d <<< shift = (a * 64 + d) <<< shift := by
  rw [Nat.add_comm shift 6, Nat.shiftLeft_add, ← Nat.shiftLeft_or_distrib,
    ← Nat.shiftLeft_add_eq_or_of_lt small, Nat.shiftLeft_eq a 6]

private theorem or_mark {mark top k : Nat} (n shift : Nat) (aligned : mark = 2 ^ k * top)
    (small : n / 2 ^ shift < 2 ^ k) : mark ||| (n >>> shift) = mark + n / 2 ^ shift := by
  rw [Nat.shiftRight_eq_div_pow, aligned, Nat.two_pow_add_eq_or_of_lt small top]

private theorem tailByte_eq (n shift : Nat) :
    tailByte n shift = UInt8.ofNat (128 + n / 2 ^ shift % 64) := by
  have digit : (n >>> shift) &&& 0x3f = n / 2 ^ shift % 64 := by
    rw [Nat.shiftRight_eq_div_pow]
    exact Nat.and_two_pow_sub_one_eq_mod _ 6
  have small : n / 2 ^ shift % 64 < 2 ^ 7 := by omega
  rw [tailByte, digit, Nat.two_pow_add_eq_or_of_lt small 1]

/-! The decoder with every access to the text written out. -/

/-- One round of `UTF8toUnicode` with an access to the text that may have effects;
`byte k` is the byte `k` places behind the index of the round. -/
def readRound {m : Type → Type} [Monad m] (byte : Nat → m UInt8) : m (Option (Nat × Nat)) := do
  let bits (k : Nat) (mask : UInt8) (shift : Nat) : m Nat :=
    do return ((← byte k) &&& mask).toNat <<< shift
  let c ← byte 0
  if c &&& 0x80 = 0 then
    return some (c.toNat, 1)
  else if c &&& 0xE0 = 0xC0 then
    return some ((← bits 0 0x1F 6) ||| (← bits 1 0x3F 0), 2)
  else if c &&& 0xF0 = 0xE0 then
    return some ((← bits 0 0xF 12) ||| (← bits 1 0x3F 6) ||| (← bits 2 0x3F 0), 3)
  else if c &&& 0xF8 = 0xF0 then
    return some ((← bits 0 0x7 18) ||| (← bits 1 0x3F 12) ||| (← bits 2 0x3F 6) |||
      (← bits 3 0x3F 0), 4)
  else if c &&& 0xFC = 0xF8 then
    -- the source reads `s[i]` in place of the four further bytes
    return some ((← bits 0 0x3 24) ||| (← bits 0 0x3F 18) ||| (← bits 0 0x3F 12) |||
      (← bits 0 0x3F 6) ||| (← bits 0 0x3F 0), 5)
  else if c &&& 0xFE = 0xFC then
    return some ((← bits 0 0x1 30) ||| (← bits 0 0x3F 24) ||| (← bits 0 0x3F 18) |||
      (← bits 0 0x3F 12) ||| (← bits 0 0x3F 6) ||| (← bits 0 0x3F 0), 6)
  else return none

/-- With plain accesses it is the round of the decoder. -/
theorem readRound_byteAt (beyond : Nat → UInt8) (s : List UInt8) :
    readRound (m := Id) (byteAt beyond s) = decodeRound beyond s := rfl

def byteInside (s : List UInt8) (k : Nat) : Except Nat UInt8 :=
  if inside : k < s.length then .ok s[k] else .error k

/-- The loop with checked accesses: an error for one outside the text, and `none`
where the loop does not end. -/
def decodeInside : Nat → List UInt8 → Except Nat (Option (List Nat))
  | _, [] => .ok (some [])
  | 0, _ :: _ => .ok none
  | fuel + 1, b :: rest => do
    match ← readRound (byteInside (b :: rest)) with
    | none => return none
    | some (wc, taken) =>
      return (← decodeInside fuel ((b :: rest).drop taken)).map (wc :: ·)

/-- `UTF8toUnicode` terminates on the text and reads no byte outside it. -/
def Total (s : List UInt8) : Prop := ∃ fuel ws, decodeInside fuel s = .ok (some ws)

/-- The bytes a round steps over, by the first one; none if no form matches. -/
def formLength (c : UInt8) : Nat :=
  if c &&& 0x80 = 0 then 1
  else if c &&& 0xE0 = 0xC0 then 2
  else if c &&& 0xF0 = 0xE0 then 3
  else if c &&& 0xF8 = 0xF0 then 4
  else if c &&& 0xFC = 0xF8 then 5
  else if c &&& 0xFE = 0xFC then 6
  else 0

/-- A text cut into the lengths its first bytes announce, whatever the other bytes
are. Only a last form of five or six bytes, whose further bytes are not read, may
be shorter. -/
inductive Framed : List UInt8 → Prop
  | nil : Framed []
  | whole {c : UInt8} {more rest : List UInt8} (length : formLength c = more.length + 1)
      (framed : Framed rest) : Framed (c :: (more ++ rest))
  | cut {c : UInt8} {more : List UInt8} (long : 5 ≤ formLength c)
      (short : more.length + 1 < formLength c) : Framed (c :: more)

/-- A first byte can be stepped over without a read outside the text. -/
def Fits (c : UInt8) (more : List UInt8) : Prop :=
  0 < formLength c ∧ (formLength c ≤ more.length + 1 ∨ 5 ≤ formLength c)

private theorem framed_cons {c : UInt8} {more : List UInt8} :
    Framed (c :: more) ↔ Fits c more ∧ Framed ((c :: more).drop (formLength c)) := by
  constructor
  · intro framed
    cases framed with
    | @whole _ more rest length framed =>
      rw [Fits, length, List.length_append, List.drop_succ_cons, List.drop_left]
      exact ⟨by omega, framed⟩
    | cut long short =>
      rw [Fits, List.drop_of_length_le (by rw [List.length_cons]; omega)]
      exact ⟨by omega, .nil⟩
  · rintro ⟨⟨positive, fits⟩, framed⟩
    obtain ⟨k, length⟩ : ∃ k, formLength c = k + 1 := ⟨formLength c - 1, by omega⟩
    by_cases short : formLength c ≤ more.length + 1
    · rw [length, List.drop_succ_cons] at framed
      rw [← List.take_append_drop k more]
      refine .whole ?_ framed
      rw [List.length_take_of_le (by omega)]
      exact length
    · exact .cut (by omega) (by omega)

private theorem returns_byteInside (beyond : Nat → UInt8) {s : List UInt8} {k : Nat}
    {P : UInt8 → Prop} :
    Returns (byteInside s k) P ↔ k < s.length ∧ P (byteAt beyond s k) := by
  unfold byteInside byteAt
  by_cases inside : k < s.length
  · simp [inside]
  · simp [inside]

private theorem decodeRound_of_returns (beyond : Nat → UInt8) {s : List UInt8}
    {P : Option (Nat × Nat) → Prop} (returns : Returns (readRound (byteInside s)) P) :
    P (decodeRound beyond s) := by
  rw [readRound, returns_bind, returns_byteInside beyond] at returns
  obtain ⟨_, returns⟩ := returns
  unfold decodeRound
  split_ifs at returns ⊢
  all_goals simp [returns_byteInside beyond, -bind_pure_comp] at returns ⊢
  all_goals grind

private theorem returns_readRound {c : UInt8} {more : List UInt8} {P : Option (Nat × Nat) → Prop}
    {Q : Nat → Prop} (stuck : ¬ P none) (moves : ∀ wc taken, P (some (wc, taken)) ↔ Q taken) :
    Returns (readRound (byteInside (c :: more))) P ↔ Fits c more ∧ Q (formLength c) := by
  have first : byteInside (c :: more) 0 = .ok c := rfl
  unfold readRound Fits formLength
  rw [first, returns_bind, returns_ok]
  by_cases one : c &&& 0x80 = 0
  · simp [one, moves]
  by_cases two : c &&& 0xE0 = 0xC0
  · simp [one, two, moves, first, returns_byteInside fun _ => 0, -bind_pure_comp]
    grind
  by_cases three : c &&& 0xF0 = 0xE0
  · simp [one, two, three, moves, first, returns_byteInside fun _ => 0, -bind_pure_comp]
    grind
  by_cases four : c &&& 0xF8 = 0xF0
  · simp [one, two, three, four, moves, first, returns_byteInside fun _ => 0, -bind_pure_comp]
    grind
  by_cases five : c &&& 0xFC = 0xF8
  · simp [one, two, three, four, five, moves, first]
  by_cases six : c &&& 0xFE = 0xFC
  · simp [one, two, three, four, five, six, moves, first]
  · simp [one, two, three, four, five, six, stuck]

def Decodes (fuel : Nat) (s : List UInt8) : Prop :=
  Returns (decodeInside fuel s) fun ws => ws.isSome = true

private theorem decodes_succ {fuel : Nat} {c : UInt8} {more : List UInt8} :
    Decodes (fuel + 1) (c :: more) ↔
      Fits c more ∧ Decodes fuel ((c :: more).drop (formLength c)) := by
  rw [Decodes, decodeInside, returns_bind]
  apply returns_readRound
    (Q := fun taken => Decodes fuel ((c :: more).drop taken))
  · simp
  · intro wc taken
    simp only [returns_bind, returns_pure, Option.isSome_map]
    exact Iff.rfl

private theorem Decodes.framed {fuel : Nat} : ∀ {s : List UInt8}, Decodes fuel s → Framed s := by
  induction fuel with
  | zero =>
    intro s decodes
    cases s with
    | nil => exact .nil
    | cons c more => simp [Decodes, decodeInside] at decodes
  | succ fuel ih =>
    intro s decodes
    cases s with
    | nil => exact .nil
    | cons c more =>
      obtain ⟨fits, rest⟩ := decodes_succ.mp decodes
      exact framed_cons.mpr ⟨fits, ih rest⟩

private theorem Total.framed {s : List UInt8} (total : Total s) : Framed s := by
  obtain ⟨fuel, ws, result⟩ := total
  have decodes : Decodes fuel s := ⟨some ws, result, rfl⟩
  exact decodes.framed

private theorem Framed.decodes {fuel : Nat} :
    ∀ {s : List UInt8}, Framed s → s.length ≤ fuel → Decodes fuel s := by
  -- each round takes a byte at least, so as many rounds as bytes are enough
  induction fuel with
  | zero =>
    intro s _ enough
    rw [List.length_eq_zero_iff.mp (Nat.le_zero.mp enough)]
    simp [Decodes, decodeInside]
  | succ fuel ih =>
    intro s framed enough
    cases s with
    | nil => simp [Decodes, decodeInside]
    | cons c more =>
      obtain ⟨fits, rest⟩ := framed_cons.mp framed
      refine decodes_succ.mpr ⟨fits, ih rest ?_⟩
      have taken := fits.1
      rw [List.length_cons] at enough
      rw [List.length_drop, List.length_cons]
      omega

private theorem decode_of_returns (beyond : Nat → UInt8) {fuel : Nat} :
    ∀ {s : List UInt8} {P : Option (List Nat) → Prop},
      Returns (decodeInside fuel s) P → P (decode beyond fuel s) := by
  induction fuel with
  | zero =>
    intro s P returns
    cases s with
    | nil => exact returns_ok.mp returns
    | cons c more => exact returns_ok.mp returns
  | succ fuel ih =>
    intro s P returns
    cases s with
    | nil => exact returns_ok.mp returns
    | cons c more =>
      rw [decodeInside, returns_bind] at returns
      have round := decodeRound_of_returns beyond returns
      rw [decode]
      cases taken : decodeRound beyond (c :: more) with
      | none =>
        rw [taken] at round
        exact returns_pure.mp round
      | some step =>
        rw [taken] at round
        exact returns_pure.mp (ih (returns_bind.mp round))

/-- On a framed text the decoder returns, and what lies behind the text is no matter. -/
theorem Framed.utf8toUnicode {s : List UInt8} (framed : Framed s) :
    ∃ ws, ∀ beyond, utf8toUnicode beyond s = some ws := by
  obtain ⟨ws, result, present⟩ := framed.decodes le_rfl
  obtain ⟨ws, rfl⟩ := Option.isSome_iff_exists.mp present
  refine ⟨ws, fun beyond => ?_⟩
  exact decode_of_returns beyond (P := (· = some ws)) ⟨_, result, rfl⟩

/-- `UTF8toUnicode` ends and stays inside its text on the framed texts and on no
others. -/
theorem total_iff_framed (s : List UInt8) : Total s ↔ Framed s := by
  constructor
  · exact Total.framed
  · intro framed
    obtain ⟨ws, result, present⟩ := framed.decodes le_rfl
    obtain ⟨ws, rfl⟩ := Option.isSome_iff_exists.mp present
    exact ⟨s.length, ws, result⟩

/-- A continuation byte at the front is never passed, and a first byte may announce
more bytes than there are. -/
theorem decoder_not_total :
    (¬ Total [0x80] ∧ readRound (byteInside [0x80]) = .ok none) ∧
      ¬ Total [0xC3] ∧ readRound (byteInside [0xC3]) = .error 1 := by
  refine ⟨⟨?_, by rfl⟩, ?_, by rfl⟩
  · intro total
    have framed := total.framed
    exact absurd (framed_cons.mp framed).1.1 (by decide)
  · intro total
    have framed := total.framed
    exact absurd (framed_cons.mp framed).1.2 (by decide)

/-! The forms of the encoder and what the decoder restores from them. -/

/-- The byte that carries the digit of weight `d`. -/
def digitByte (n d : Nat) : UInt8 := UInt8.ofNat (128 + n / d % 64)

/-- The bytes of a code point, in base 64 under a mark for their number. -/
def formBytes (n : Nat) : List UInt8 :=
  if n < 0x80 then [UInt8.ofNat n]
  else if n < 0x800 then [UInt8.ofNat (192 + n / 2 ^ 6), digitByte n 1]
  else if n < 0x10000 then [UInt8.ofNat (224 + n / 2 ^ 12), digitByte n (2 ^ 6), digitByte n 1]
  else if n < 0x200000 then
    [UInt8.ofNat (240 + n / 2 ^ 18), digitByte n (2 ^ 12), digitByte n (2 ^ 6), digitByte n 1]
  else if n < 0x4000000 then
    [UInt8.ofNat (248 + n / 2 ^ 24), digitByte n (2 ^ 18), digitByte n (2 ^ 12),
      digitByte n (2 ^ 6), digitByte n 1]
  else
    [UInt8.ofNat (252 + n / 2 ^ 30), digitByte n (2 ^ 24), digitByte n (2 ^ 18),
      digitByte n (2 ^ 12), digitByte n (2 ^ 6), digitByte n 1]

theorem formBytes_one {n : Nat} (high : n < 0x80) : formBytes n = [UInt8.ofNat n] :=
  if_pos high

theorem formBytes_two {n : Nat} (low : 0x80 ≤ n) (high : n < 0x800) :
    formBytes n = [UInt8.ofNat (192 + n / 2 ^ 6), digitByte n 1] := by
  rw [formBytes, if_neg (by omega), if_pos high]

theorem formBytes_three {n : Nat} (low : 0x800 ≤ n) (high : n < 0x10000) :
    formBytes n = [UInt8.ofNat (224 + n / 2 ^ 12), digitByte n (2 ^ 6), digitByte n 1] := by
  rw [formBytes, if_neg (by omega), if_neg (by omega), if_pos high]

theorem formBytes_four {n : Nat} (low : 0x10000 ≤ n) (high : n < 0x200000) :
    formBytes n = [UInt8.ofNat (240 + n / 2 ^ 18), digitByte n (2 ^ 12), digitByte n (2 ^ 6),
      digitByte n 1] := by
  rw [formBytes, if_neg (by omega), if_neg (by omega), if_neg (by omega), if_pos high]

private theorem formBytes_five {n : Nat} (low : 0x200000 ≤ n) (high : n < 0x4000000) :
    formBytes n = [UInt8.ofNat (248 + n / 2 ^ 24), digitByte n (2 ^ 18), digitByte n (2 ^ 12),
      digitByte n (2 ^ 6), digitByte n 1] := by
  rw [formBytes, if_neg (by omega), if_neg (by omega), if_neg (by omega), if_neg (by omega),
    if_pos high]

private theorem formBytes_six {n : Nat} (low : 0x4000000 ≤ n) :
    formBytes n = [UInt8.ofNat (252 + n / 2 ^ 30), digitByte n (2 ^ 24), digitByte n (2 ^ 18),
      digitByte n (2 ^ 12), digitByte n (2 ^ 6), digitByte n 1] := by
  rw [formBytes, if_neg (by omega), if_neg (by omega), if_neg (by omega), if_neg (by omega),
    if_neg (by omega)]

private theorem tailByte_eq_digitByte (n shift : Nat) :
    tailByte n shift = digitByte n (2 ^ shift) :=
  tailByte_eq n shift

theorem toInt_eq_clamp {wc : Int32} (nonneg : 0 ≤ wc) : wc.toInt = wc.toNatClampNeg := by
  have signed : (0 : Int32).toInt ≤ wc.toInt := Int32.le_iff_toInt_le.mp nonneg
  have zero : (0 : Int32).toInt = 0 := rfl
  rw [← Int32.toNat_toInt]
  omega

theorem encodeChar_eq_formBytes {wc : Int32} (nonneg : 0 ≤ wc) :
    encodeChar wc = formBytes wc.toNatClampNeg := by
  have value := toInt_eq_clamp nonneg
  have bound : wc.toInt < 2 ^ 31 := Int32.toInt_lt wc
  unfold encodeChar formBytes
  generalize wc.toNatClampNeg = n at value bound ⊢
  simp only [Int32.le_iff_toInt_le, value, Int32.reduceToInt, tailByte_eq_digitByte, pow_zero]
  by_cases one : n < 0x80
  · rw [if_pos (by omega), if_pos one]
  rw [if_neg (by omega), if_neg one]
  by_cases two : n < 0x800
  · rw [if_pos (by omega), if_pos two, or_mark (k := 5) n 6 (by decide : 192 = 2 ^ 5 * 6) (by omega)]
  rw [if_neg (by omega), if_neg two]
  by_cases three : n < 0x10000
  · rw [if_pos (by omega), if_pos three,
      or_mark (k := 4) n 12 (by decide : 224 = 2 ^ 4 * 14) (by omega)]
  rw [if_neg (by omega), if_neg three]
  by_cases four : n < 0x200000
  · rw [if_pos (by omega), if_pos four,
      or_mark (k := 3) n 18 (by decide : 240 = 2 ^ 3 * 30) (by omega)]
  rw [if_neg (by omega), if_neg four]
  by_cases five : n < 0x4000000
  · rw [if_pos (by omega), if_pos five,
      or_mark (k := 2) n 24 (by decide : 248 = 2 ^ 2 * 62) (by omega)]
  · rw [if_neg (by omega), if_pos (by omega), if_neg five,
      or_mark (k := 1) n 30 (by decide : 252 = 2 ^ 1 * 126) (by omega)]

private theorem toNat_and_digit (b : UInt8) : (b &&& 0x3F).toNat = b.toNat % 64 :=
  toNat_and_low b 0x3F (k := 6) rfl

theorem or_digitOf (a shift : Nat) (b : UInt8) :
    a <<< (shift + 6) ||| (b &&& 0x3F).toNat <<< shift = (a * 64 + b.toNat % 64) <<< shift := by
  rw [toNat_and_digit]
  exact or_digit a shift (Nat.mod_lt _ (by decide))

section rounds

/-! The rounds of the decoder in base 64, by the range of the first byte. -/

variable (beyond : Nat → UInt8) {c b d e : UInt8} {more : List UInt8}

private theorem decodeRound_one (high : c.toNat < 128) :
    decodeRound beyond (c :: more) = some (c.toNat, 1) := by
  have one := (and_tests c).1.mpr high
  exact if_pos one

private theorem decodeRound_two (low : 192 ≤ c.toNat) (high : c.toNat < 224) :
    decodeRound beyond (c :: b :: more) = some (c.toNat % 2 ^ 5 * 64 + b.toNat % 64, 2) := by
  obtain ⟨one, two, _⟩ := and_tests c
  show (if c &&& 0x80 = 0 then _ else if c &&& 0xE0 = 0xC0 then
    some ((c &&& 0x1F).toNat <<< 6 ||| (b &&& 0x3F).toNat <<< 0, 2) else _) = _
  rw [if_neg (mt one.mp (by omega)), if_pos (two.mpr ⟨low, high⟩), or_digitOf _ 0,
    toNat_and_low c 0x1F (k := 5) rfl, Nat.shiftLeft_zero]

private theorem decodeRound_three (low : 224 ≤ c.toNat) (high : c.toNat < 240) :
    decodeRound beyond (c :: b :: d :: more) =
      some ((c.toNat % 2 ^ 4 * 64 + b.toNat % 64) * 64 + d.toNat % 64, 3) := by
  obtain ⟨one, two, three, _⟩ := and_tests c
  show (if c &&& 0x80 = 0 then _ else if c &&& 0xE0 = 0xC0 then _
    else if c &&& 0xF0 = 0xE0 then
      some ((c &&& 0xF).toNat <<< 12 ||| (b &&& 0x3F).toNat <<< 6 |||
        (d &&& 0x3F).toNat <<< 0, 3) else _) = _
  rw [if_neg (mt one.mp (by omega)), if_neg (mt two.mp (by omega)),
    if_pos (three.mpr ⟨low, high⟩), or_digitOf _ 6, or_digitOf _ 0,
    toNat_and_low c 0xF (k := 4) rfl, Nat.shiftLeft_zero]

private theorem decodeRound_four (low : 240 ≤ c.toNat) (high : c.toNat < 248) :
    decodeRound beyond (c :: b :: d :: e :: more) =
      some (((c.toNat % 2 ^ 3 * 64 + b.toNat % 64) * 64 + d.toNat % 64) * 64 + e.toNat % 64,
        4) := by
  obtain ⟨one, two, three, four, _⟩ := and_tests c
  show (if c &&& 0x80 = 0 then _ else if c &&& 0xE0 = 0xC0 then _
    else if c &&& 0xF0 = 0xE0 then _ else if c &&& 0xF8 = 0xF0 then
      some ((c &&& 0x7).toNat <<< 18 ||| (b &&& 0x3F).toNat <<< 12 |||
        (d &&& 0x3F).toNat <<< 6 ||| (e &&& 0x3F).toNat <<< 0, 4) else _) = _
  rw [if_neg (mt one.mp (by omega)), if_neg (mt two.mp (by omega)),
    if_neg (mt three.mp (by omega)), if_pos (four.mpr ⟨low, high⟩), or_digitOf _ 12,
    or_digitOf _ 6, or_digitOf _ 0, toNat_and_low c 0x7 (k := 3) rfl, Nat.shiftLeft_zero]

private theorem decodeRound_five (low : 248 ≤ c.toNat) (high : c.toNat < 252) :
    decodeRound beyond (c :: more) =
      some (c.toNat % 2 ^ 2 * 2 ^ 24 + c.toNat % 64 * 0x41041, 5) := by
  obtain ⟨one, two, three, four, five, _⟩ := and_tests c
  show (if c &&& 0x80 = 0 then _ else if c &&& 0xE0 = 0xC0 then _
    else if c &&& 0xF0 = 0xE0 then _ else if c &&& 0xF8 = 0xF0 then _
    else if c &&& 0xFC = 0xF8 then
      some ((c &&& 0x3).toNat <<< 24 ||| (c &&& 0x3F).toNat <<< 18 |||
        (c &&& 0x3F).toNat <<< 12 ||| (c &&& 0x3F).toNat <<< 6 |||
        (c &&& 0x3F).toNat <<< 0, 5) else _) = _
  rw [if_neg (mt one.mp (by omega)), if_neg (mt two.mp (by omega)),
    if_neg (mt three.mp (by omega)), if_neg (mt four.mp (by omega)),
    if_pos (five.mpr ⟨low, high⟩), or_digitOf _ 18, or_digitOf _ 12, or_digitOf _ 6,
    or_digitOf _ 0, toNat_and_low c 0x3 (k := 2) rfl, Nat.shiftLeft_zero]
  congr 2
  omega

private theorem decodeRound_six (low : 252 ≤ c.toNat) (high : c.toNat < 254) :
    decodeRound beyond (c :: more) =
      some (c.toNat % 2 ^ 1 * 2 ^ 30 + c.toNat % 64 * 0x1041041, 6) := by
  obtain ⟨one, two, three, four, five, six, _⟩ := and_tests c
  show (if c &&& 0x80 = 0 then _ else if c &&& 0xE0 = 0xC0 then _
    else if c &&& 0xF0 = 0xE0 then _ else if c &&& 0xF8 = 0xF0 then _
    else if c &&& 0xFC = 0xF8 then _ else if c &&& 0xFE = 0xFC then
      some ((c &&& 0x1).toNat <<< 30 ||| (c &&& 0x3F).toNat <<< 24 |||
        (c &&& 0x3F).toNat <<< 18 ||| (c &&& 0x3F).toNat <<< 12 |||
        (c &&& 0x3F).toNat <<< 6 ||| (c &&& 0x3F).toNat <<< 0, 6) else _) = _
  rw [if_neg (mt one.mp (by omega)), if_neg (mt two.mp (by omega)),
    if_neg (mt three.mp (by omega)), if_neg (mt four.mp (by omega)),
    if_neg (mt five.mp (by omega)), if_pos (six.mpr ⟨low, high⟩), or_digitOf _ 24,
    or_digitOf _ 18, or_digitOf _ 12, or_digitOf _ 6, or_digitOf _ 0,
    toNat_and_low c 0x1 (k := 1) rfl, Nat.shiftLeft_zero]
  congr 2
  omega

end rounds

def restored (n : Nat) : Nat :=
  if n < 0x200000 then n
  else if n < 0x4000000 then n / 2 ^ 24 * 2 ^ 24 + (56 + n / 2 ^ 24) * 0x41041
  else n / 2 ^ 30 * 2 ^ 30 + (60 + n / 2 ^ 30) * 0x1041041

theorem toNat_byte {m : Nat} (small : m < 256) : (UInt8.ofNat m).toNat = m :=
  UInt8.toNat_ofNat_of_lt small

theorem toNat_digitByte (n d : Nat) : (digitByte n d).toNat = 128 + n / d % 64 :=
  toNat_byte (by omega)

/-- A round at the front of the bytes takes all of them, as one code point. -/
def TakenAs (beyond : Nat → UInt8) (bytes : List UInt8) (wc : Nat) : Prop :=
  ∃ c more, bytes = c :: more ∧
    ∀ rest, decodeRound beyond (c :: (more ++ rest)) = some (wc, more.length + 1)

section forms
variable (beyond : Nat → UInt8) {n : Nat}

private theorem takenAs_one (high : n < 0x80) : TakenAs beyond (formBytes n) n := by
  refine ⟨_, _, formBytes_one high, fun rest => ?_⟩
  have lead : (UInt8.ofNat n).toNat = n := toNat_byte (by omega)
  rw [decodeRound_one beyond (by omega), lead]
  rfl

private theorem takenAs_two (low : 0x80 ≤ n) (high : n < 0x800) :
    TakenAs beyond (formBytes n) n := by
  refine ⟨_, _, formBytes_two low high, fun rest => ?_⟩
  have lead : (UInt8.ofNat (192 + n / 2 ^ 6)).toNat = 192 + n / 2 ^ 6 := toNat_byte (by omega)
  have value : (192 + n / 2 ^ 6) % 2 ^ 5 * 64 + (128 + n / 1 % 64) % 64 = n := by omega
  rw [List.cons_append, decodeRound_two beyond (by omega) (by omega), lead, toNat_digitByte, value]
  rfl

private theorem takenAs_three (low : 0x800 ≤ n) (high : n < 0x10000) :
    TakenAs beyond (formBytes n) n := by
  refine ⟨_, _, formBytes_three low high, fun rest => ?_⟩
  have lead : (UInt8.ofNat (224 + n / 2 ^ 12)).toNat = 224 + n / 2 ^ 12 := toNat_byte (by omega)
  rw [List.cons_append, List.cons_append, decodeRound_three beyond (by omega) (by omega), lead]
  simp only [toNat_digitByte]
  congr 2
  omega

private theorem takenAs_four (low : 0x10000 ≤ n) (high : n < 0x200000) :
    TakenAs beyond (formBytes n) n := by
  refine ⟨_, _, formBytes_four low high, fun rest => ?_⟩
  have lead : (UInt8.ofNat (240 + n / 2 ^ 18)).toNat = 240 + n / 2 ^ 18 := toNat_byte (by omega)
  rw [List.cons_append, List.cons_append, List.cons_append,
    decodeRound_four beyond (by omega) (by omega), lead]
  simp only [toNat_digitByte]
  congr 2
  omega

private theorem takenAs_five (low : 0x200000 ≤ n) (high : n < 0x4000000) :
    TakenAs beyond (formBytes n) (n / 2 ^ 24 * 2 ^ 24 + (56 + n / 2 ^ 24) * 0x41041) := by
  refine ⟨_, _, formBytes_five low high, fun rest => ?_⟩
  have lead : (UInt8.ofNat (248 + n / 2 ^ 24)).toNat = 248 + n / 2 ^ 24 := toNat_byte (by omega)
  have top : (248 + n / 2 ^ 24) % 2 ^ 2 = n / 2 ^ 24 := by omega
  have digit : (248 + n / 2 ^ 24) % 64 = 56 + n / 2 ^ 24 := by omega
  rw [decodeRound_five beyond (by omega) (by omega), lead, top, digit]
  rfl

private theorem takenAs_six (low : 0x4000000 ≤ n) (high : n < 2 ^ 31) :
    TakenAs beyond (formBytes n) (n / 2 ^ 30 * 2 ^ 30 + (60 + n / 2 ^ 30) * 0x1041041) := by
  refine ⟨_, _, formBytes_six low, fun rest => ?_⟩
  have lead : (UInt8.ofNat (252 + n / 2 ^ 30)).toNat = 252 + n / 2 ^ 30 := toNat_byte (by omega)
  have top : (252 + n / 2 ^ 30) % 2 ^ 1 = n / 2 ^ 30 := by omega
  have digit : (252 + n / 2 ^ 30) % 64 = 60 + n / 2 ^ 30 := by omega
  rw [decodeRound_six beyond (by omega) (by omega), lead, top, digit]
  rfl

private theorem takenAs_restored (bound : n < 2 ^ 31) :
    TakenAs beyond (formBytes n) (restored n) := by
  by_cases short : n < 0x200000
  · rw [restored, if_pos short]
    by_cases one : n < 0x80
    · exact takenAs_one beyond one
    by_cases two : n < 0x800
    · exact takenAs_two beyond (Nat.le_of_not_lt one) two
    by_cases three : n < 0x10000
    · exact takenAs_three beyond (Nat.le_of_not_lt two) three
    · exact takenAs_four beyond (Nat.le_of_not_lt three) short
  · rw [restored, if_neg short]
    split
    next five => exact takenAs_five beyond (Nat.le_of_not_lt short) five
    next six => exact takenAs_six beyond (Nat.le_of_not_lt six) bound

end forms

private theorem toNatClampNeg_lt (wc : Int32) : wc.toNatClampNeg < 2 ^ 31 := by
  rw [← Int32.toNat_toInt]
  have := Int32.toInt_lt wc
  omega

private theorem utf8toUnicode_unicodeToUTF8 (beyond : Nat → UInt8) {ws : List Int32}
    (range : ∀ wc ∈ ws, 0 ≤ wc) :
    utf8toUnicode beyond (unicodeToUTF8 ws) = some (ws.map fun wc => restored wc.toNatClampNeg) := by
  refine decode_flatMap beyond encodeChar _ (fun wc among => ?_) le_rfl
  rw [encodeChar_eq_formBytes (range wc among)]
  exact takenAs_restored beyond (toNatClampNeg_lt wc)

/-- The code points that the decoder restores: those of up to four bytes, and the
six longer ones whose digits all equal that of their first byte. -/
def Restorable (wc : Int32) : Prop :=
  wc < 0x200000 ∨ wc ∈ ([0xE38E38, 0x1E79E79, 0x2EBAEBA, 0x3EFBEFB, 0x3CF3CF3C, 0x7DF7DF7D] :
    List Int32)

instance (wc : Int32) : Decidable (Restorable wc) := inferInstanceAs (Decidable (_ ∨ _))

private theorem restored_eq_iff {n : Nat} (bound : n < 2 ^ 31) :
    restored n = n ↔ n < 0x200000 ∨
      n ∈ [0xE38E38, 0x1E79E79, 0x2EBAEBA, 0x3EFBEFB, 0x3CF3CF3C, 0x7DF7DF7D] := by
  simp only [restored, List.mem_cons, List.not_mem_nil, or_false]
  split_ifs
  · omega
  · omega
  · omega

private theorem restored_eq_iff_restorable {wc : Int32} (nonneg : 0 ≤ wc) :
    restored wc.toNatClampNeg = wc.toNatClampNeg ↔ Restorable wc := by
  rw [restored_eq_iff (toNatClampNeg_lt wc)]
  simp only [Restorable, List.mem_cons, List.not_mem_nil, or_false, Int32.lt_iff_toInt_lt,
    ← Int32.toInt_inj, toInt_eq_clamp nonneg, Int32.reduceToInt]
  omega

theorem utf8toUnicode_restorable (beyond : Nat → UInt8) {ws : List Int32}
    (range : ∀ wc ∈ ws, 0 ≤ wc) (restorable : ∀ wc ∈ ws, Restorable wc) :
    utf8toUnicode beyond (unicodeToUTF8 ws) = some (ws.map Int32.toNatClampNeg) := by
  rw [utf8toUnicode_unicodeToUTF8 beyond range, Option.some.injEq]
  apply List.map_congr_left
  intro wc among
  exact (restored_eq_iff_restorable (range wc among)).mpr (restorable wc among)

/-- Decoding what was encoded gives the code points back if all of them are
restorable. -/
theorem roundTrip_iff_restorable (beyond : Nat → UInt8) (ws : List Int32)
    (range : ∀ wc ∈ ws, 0 ≤ wc) :
    utf8toUnicode beyond (unicodeToUTF8 ws) = some (ws.map Int32.toNatClampNeg) ↔
      ∀ wc ∈ ws, Restorable wc := by
  refine ⟨?_, utf8toUnicode_restorable beyond range⟩
  intro same wc among
  rw [utf8toUnicode_unicodeToUTF8 beyond range, Option.some.injEq, List.map_inj_left] at same
  exact (restored_eq_iff_restorable (range wc among)).mp (same wc among)

/-- Code points of one to four bytes, over a text with unknown bytes behind it. -/
theorem roundTrip_short :
    utf8toUnicode (fun _ => 0xFF) (unicodeToUTF8 [0x41, 0xE9, 0x20AC, 0x1F600]) =
      some [0x41, 0xE9, 0x20AC, 0x1F600] :=
  (roundTrip_iff_restorable (fun _ => 0xFF) [0x41, 0xE9, 0x20AC, 0x1F600]
    (List.all_iff_forall_prop.mp (by decide))).mpr (List.all_iff_forall_prop.mp (by decide))

/-- The first code point of five bytes comes back as another one. -/
theorem five_bytes_not_restored :
    (∀ wc ∈ ([0x200000] : List Int32), 0 ≤ wc) ∧
      unicodeToUTF8 [0x200000] = [0xF8, 0x88, 0x80, 0x80, 0x80] ∧
      utf8toUnicode (fun _ => 0) (unicodeToUTF8 [0x200000]) = some [0xE38E38] ∧
      utf8toUnicode (fun _ => 0) (unicodeToUTF8 [0x200000]) ≠
        some (([0x200000] : List Int32).map Int32.toNatClampNeg) := by
  rw [List.forall_mem_singleton]
  decide +kernel

end CbDaemon.Codec.Utf8Range
