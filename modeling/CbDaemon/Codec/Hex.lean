/- module: CbDaemon/Codec/Hex
   source: uint256.h, uint256.cpp, utilstrencodings.cpp
   digest: The byte-reversed hexadecimal text of a blob reads back as the blob. -/

import CbDaemon.Base.Machine
import CbDaemon.Codec.Integer

set_option autoImplicit false
set_option relaxedAutoImplicit false

namespace CbDaemon.Codec.Hex
open Base.Machine Integer

/-- One digit of `%02x`. -/
def hexChar (n : Nat) : UInt8 := UInt8.ofNat (if n < 10 then 48 + n else 87 + n)

/-- `%02x`. -/
def hexByte (b : UInt8) : Text := [hexChar (b.toNat / 16), hexChar (b.toNat % 16)]

/-- `HexDigit`, with `none` for -1. -/
def hexDigit (c : UInt8) : Option Nat :=
  if 48 ≤ c ∧ c ≤ 57 then some (c.toNat - 48)
  else if 65 ≤ c ∧ c ≤ 70 then some (c.toNat - 55)
  else if 97 ≤ c ∧ c ≤ 102 then some (c.toNat - 87)
  else none

def hexDigits : Text → List Nat
  | [] => []
  | c :: rest =>
    match hexDigit c with
    | none => []
    | some n => n :: hexDigits rest

/-- The skipped `0x`. -/
def skipMark : Text → Text
  | zero :: x :: rest => if zero = 48 ∧ (x = 120 ∨ x = 88) then rest else zero :: x :: rest
  | s => s

/-- The bytes of a blob of some width, from its digits with the lowest first. An
odd digit fills half a byte, and further digits are dropped. -/
def fill : Nat → List Nat → List UInt8
  | 0, _ => []
  | width + 1, [] => 0 :: fill width []
  | width + 1, [low] => UInt8.ofNat low :: fill width []
  | width + 1, low :: high :: rest => UInt8.ofNat (low ||| (high <<< 4)) :: fill width rest

private theorem length_fill (width : Nat) (digits : List Nat) :
    (fill width digits).length = width := by
  induction width generalizing digits with
  | zero => rfl
  | succ width ih =>
    match digits with
    | [] => rw [fill, List.length_cons, ih]
    | [_] => rw [fill, List.length_cons, ih]
    | _ :: _ :: rest => rw [fill, List.length_cons, ih]

variable {width : Nat}

/-- `GetHex`, and `ToString`. -/
def getHex (blob : Blob width) : Text := blob.data.reverse.flatMap hexByte

def setHex (s : Text) : Blob width where
  data := fill width (hexDigits (skipMark (s.dropWhile isSpace))).reverse
  length_eq := length_fill width _

def uint256S (s : Text) : Blob 32 := setHex s

private theorem hexChar_spec {n : Nat} (small : n < 16) :
    hexDigit (hexChar n) = some n ∧ isSpace (hexChar n) = false ∧
      hexChar n ≠ 120 ∧ hexChar n ≠ 88 ∧ hexChar n < 0x80 := by
  have all : ∀ n < 16, hexDigit (hexChar n) = some n ∧ isSpace (hexChar n) = false ∧
      hexChar n ≠ 120 ∧ hexChar n ≠ 88 ∧ hexChar n < 0x80 := by
    decide
  exact all n small

def nibbles (bytes : List UInt8) : List Nat := bytes.flatMap fun b => [b.toNat / 16, b.toNat % 16]

private theorem hexDigits_flatMap (bytes : List UInt8) :
    hexDigits (bytes.flatMap hexByte) = nibbles bytes := by
  induction bytes with
  | nil => rfl
  | cons b bytes ih =>
    have bound := b.toNat_lt
    have high := (hexChar_spec (show b.toNat / 16 < 16 by omega)).1
    have low := (hexChar_spec (show b.toNat % 16 < 16 by omega)).1
    simp only [List.flatMap_cons, hexByte, List.cons_append, List.nil_append, hexDigits, high, low,
      ih]
    rfl

private theorem fill_nibbles (bytes : List UInt8) :
    fill bytes.length (nibbles bytes.reverse).reverse = bytes := by
  induction bytes with
  | nil => rfl
  | cons b bytes ih =>
    have joined : b.toNat % 16 ||| (b.toNat / 16) <<< 4 = b.toNat := by
      have low : b.toNat % 16 < 2 ^ 4 := Nat.mod_lt _ (by decide)
      rw [Nat.or_comm, Nat.shiftLeft_eq, Nat.mul_comm, ← Nat.two_pow_add_eq_or_of_lt low]
      omega
    have digits : (nibbles (b :: bytes).reverse).reverse =
        b.toNat % 16 :: b.toNat / 16 :: (nibbles bytes.reverse).reverse := by
      simp [nibbles]
    rw [digits, List.length_cons, fill, joined, ih, UInt8.ofNat_toNat]

private theorem skip_flatMap (bytes : List UInt8) :
    skipMark ((bytes.flatMap hexByte).dropWhile isSpace) = bytes.flatMap hexByte := by
  cases bytes with
  | nil => rfl
  | cons b bytes =>
    have bound := b.toNat_lt
    obtain ⟨_, space, _⟩ := hexChar_spec (show b.toNat / 16 < 16 by omega)
    obtain ⟨_, _, lower, upper, _⟩ := hexChar_spec (show b.toNat % 16 < 16 by omega)
    simp only [List.flatMap_cons, hexByte, List.cons_append, List.nil_append]
    rw [List.dropWhile_cons_of_neg (by simp [space]), skipMark, if_neg (by simp [lower, upper])]

theorem setHex_getHex (blob : Blob width) : setHex (getHex blob) = blob := by
  apply Blob.ext
  change fill width (hexDigits (skipMark ((getHex blob).dropWhile isSpace))).reverse = blob.data
  rw [getHex, skip_flatMap, hexDigits_flatMap]
  have filled := fill_nibbles blob.data
  rwa [blob.length_eq] at filled

theorem getHex_injective {a b : Blob width} (same : getHex a = getHex b) : a = b := by
  rw [← setHex_getHex a, same, setHex_getHex]

theorem getHex_beq (a b : Blob width) : (getHex a == getHex b) = true ↔ a = b := by
  rw [beq_iff_eq]
  exact ⟨getHex_injective, congrArg getHex⟩

theorem getHex_ascii (blob : Blob width) : ∀ c ∈ getHex blob, c < 0x80 := by
  intro c mem
  obtain ⟨b, _, digit⟩ := List.mem_flatMap.mp mem
  have bound := b.toNat_lt
  rcases List.mem_cons.mp digit with rfl | low
  · exact (hexChar_spec (show b.toNat / 16 < 16 by omega)).2.2.2.2
  · rw [List.mem_singleton.mp low]
    exact (hexChar_spec (show b.toNat % 16 < 16 by omega)).2.2.2.2

/-! Bytes written with upper-case digits, by `string_to_hex` and `encode_uuid`. -/

/-- A character of `"0123456789ABCDEF"`. -/
def upperChar (n : Nat) : UInt8 := (ascii "0123456789ABCDEF").getD n 0

def upperByte (c : UInt8) : Text := [upperChar (c.toNat >>> 4), upperChar (c.toNat &&& 15)]

theorem length_flatMap_upperByte (data : Text) :
    (data.flatMap upperByte).length = 2 * data.length := by
  induction data with
  | nil => rfl
  | cons c data ih =>
    rw [List.flatMap_cons, List.length_append, ih, List.length_cons]
    show 2 + _ = _
    omega

theorem hexDigit_upperChar {n : Nat} (small : n < 16) : hexDigit (upperChar n) = some n := by
  have all : ∀ n < 16, hexDigit (upperChar n) = some n := by decide
  exact all n small

theorem shiftRight_lt (c : UInt8) : c.toNat >>> 4 < 16 := by
  have bound := c.toNat_lt
  rw [Nat.shiftRight_eq_div_pow]
  omega

theorem and_lt (c : UInt8) : c.toNat &&& 15 < 16 :=
  Nat.lt_of_le_of_lt Nat.and_le_right (by decide)

theorem join_halves (c : UInt8) : (c.toNat >>> 4) <<< 4 ||| (c.toNat &&& 15) = c.toNat := by
  have low : c.toNat &&& 15 = c.toNat % 16 := Nat.and_two_pow_sub_one_eq_mod c.toNat 4
  rw [Nat.shiftLeft_eq, Nat.mul_comm, ← Nat.two_pow_add_eq_or_of_lt (and_lt c),
    Nat.shiftRight_eq_div_pow, low]
  omega

end CbDaemon.Codec.Hex
