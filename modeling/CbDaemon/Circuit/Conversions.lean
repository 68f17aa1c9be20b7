/- module: CbDaemon/Circuit/Conversions
   source: zcash/circuit/utils.tcc, zcash/util.cpp
   digest: Blobs, keys and amounts as bit vectors, and the sum that packs an amount. -/

import CbDaemon.Circuit.HashBytes
import CbDaemon.Crypto.Prf

set_option autoImplicit false
set_option relaxedAutoImplicit false

namespace CbDaemon.Circuit.Conversions

open Base.Bits Base.R1cs Base.Machine BasicGadgets HashBytes
open Crypto.Prf
open Codec.Keypair (Uint252)
open Merkle.TreePath (byteBits byteOfBits bytesOfBits hashOfBits convertBytesVectorToVector
  hashOfBits_convert)

variable {p : ℕ} {V : Type}

/-- `uint256_to_bool_vector`. -/
def uint256Bits (x : Uint256) : List Bool := convertBytesVectorToVector x.data

@[simp] theorem length_uint256Bits (x : Uint256) : (uint256Bits x).length = 256 := by
  rw [uint256Bits, length_convert, x.length_eq]

/-- `uint252_to_bool_vector`. -/
def uint252Bits (x : Uint252) : List Bool := (uint256Bits x.contents).drop 4

/-- `uint64_to_bool_vector`. -/
def uint64Bits (x : UInt64) : List Bool := convertBytesVectorToVector (convertIntToVectorLE x)

/-- The two loops of `swap_endianness_u64`, as a list of the places swapped. -/
@[irreducible] def swapPlaces : List (Nat × Nat) :=
  (List.range 4).flatMap fun i => (List.range 8).map fun j => (i * 8 + j, (7 - i) * 8 + j)

/-- `std::swap` of two elements. -/
def swapAt {α : Type} (d : α) (v : List α) (places : Nat × Nat) : List α :=
  (v.set places.1 (v.getD places.2 d)).set places.2 (v.getD places.1 d)

/-- `swap_endianness_u64` past the check that there are sixty-four elements. -/
def swapEndiannessU64 {α : Type} (d : α) (v : List α) : List α := swapPlaces.foldl (swapAt d) v

def packedAddition (input : List (Lc p V)) : Lc p V :=
  packingSum (swapEndiannessU64 0 input).reverse

/-! Every bit vector of the right length comes from a value. -/

private theorem foldl_eq_number (bits : List Bool) :
    bits.foldl (fun n bit => 2 * n + bit.toNat) 0 = number bits.reverse := by
  induction bits using List.reverseRecOn with
  | nil => rfl
  | append_singleton bits bit ih =>
    rw [List.foldl_append, List.foldl_cons, List.foldl_nil, ih, List.reverse_concat, number,
      Nat.add_comm]

private theorem byteBits_byteOfBits {bits : List Bool} (eight : bits.length = 8) :
    byteBits (byteOfBits bits) = bits := by
  have low := number_lt bits.reverse
  rw [List.length_reverse, eight] at low
  rw [byteBits_eq, byteOfBits, foldl_eq_number, UInt8.toNat_ofNat_of_lt' low,
    bitsOf_number (by rw [List.length_reverse, eight]), List.reverse_reverse]

private theorem convert_bytesOfBits {n : Nat} {bits : List Bool} (size : bits.length = 8 * n) :
    convertBytesVectorToVector (bytesOfBits n bits) = bits := by
  induction n generalizing bits with
  | zero =>
    obtain rfl : bits = [] := List.length_eq_zero_iff.mp size
    rfl
  | succ n ih =>
    have front : (bits.take 8).length = 8 := List.length_take_of_le (by omega)
    have back : (bits.drop 8).length = 8 * n := by
      rw [List.length_drop]
      omega
    rw [bytesOfBits, convert_cons, byteBits_byteOfBits front, ih back, List.take_append_drop]

theorem uint256Bits_hashOfBits {bits : List Bool} (size : bits.length = 256) :
    uint256Bits (hashOfBits bits) = bits := convert_bytesOfBits size

theorem uint256Bits_inj {x y : Uint256} : uint256Bits x = uint256Bits y ↔ x = y := by
  constructor
  · intro same
    rw [← hashOfBits_convert x, ← hashOfBits_convert y]
    exact congrArg hashOfBits same
  · intro same
    rw [same]

private theorem and_eq_zero_of_bits {c : UInt8}
    (high : (byteBits c).take 4 = List.replicate 4 false) :
    c &&& 0xF0 = 0 := by
  have bits : c.toNat.testBit 7 = false ∧ c.toNat.testBit 6 = false ∧
      c.toNat.testBit 5 = false ∧ c.toNat.testBit 4 = false := by
    simpa [byteBits, List.range_succ] using high
  have low : c.toNat < 2 ^ 4 := by
    refine Nat.lt_pow_two_of_testBit _ fun k above => ?_
    by_cases within : k < 8
    · interval_cases k
      · exact bits.2.2.2
      · exact bits.2.2.1
      · exact bits.2.1
      · exact bits.1
    · exact Nat.testBit_lt_two_pow (c.toNat_lt.trans_le (Nat.pow_le_pow_right (by decide) (by omega)))
  rw [← UInt8.toNat_inj, UInt8.toNat_and]
  change c.toNat &&& 240 = 0
  generalize c.toNat = n at low
  interval_cases n <;> rfl

theorem exists_uint252Bits {bits : List Bool} (size : bits.length = 252) :
    ∃ key, uint252Bits key = bits := by
  have whole : uint256Bits (hashOfBits (List.replicate 4 false ++ bits)) =
      List.replicate 4 false ++ bits :=
    uint256Bits_hashOfBits (by rw [List.length_append, List.length_replicate, size])
  refine ⟨⟨hashOfBits (List.replicate 4 false ++ bits), and_eq_zero_of_bits ?_⟩, ?_⟩
  · have first := blob_ne_nil (hashOfBits (List.replicate 4 false ++ bits))
    rw [uint256Bits, first, convert_cons] at whole
    have front := congrArg (List.take 4) whole
    rwa [List.take_append_of_le_length (by simp [byteBits]), List.take_left'] at front
    exact List.length_replicate
  · rw [uint252Bits, whole, List.drop_left']
    exact List.length_replicate

/-! Amounts. -/

def swapIndex (places : Nat × Nat) (k : Nat) : Nat :=
  if k = places.2 then places.1 else if k = places.1 then places.2 else k

private theorem getD_swapAt {α : Type} (d : α) (v : List α) {places : Nat × Nat}
    (within : places.1 < v.length ∧ places.2 < v.length) (k : Nat) :
    (swapAt d v places).getD k d = v.getD (swapIndex places k) d := by
  simp only [swapAt, swapIndex, List.getD_eq_getElem?_getD, List.getElem?_set, List.length_set]
  by_cases second : places.2 = k
  · rw [if_pos second, if_pos second.symm, if_pos within.2]
    rfl
  · rw [if_neg second, if_neg (Ne.symm second)]
    by_cases first : places.1 = k
    · rw [if_pos first, if_pos first.symm, if_pos within.1]
      rfl
    · rw [if_neg first, if_neg (Ne.symm first)]

private theorem getD_swaps {α : Type} (d : α) (swaps : List (Nat × Nat)) (v : List α)
    (within : ∀ places ∈ swaps, places.1 < v.length ∧ places.2 < v.length) (k : Nat) :
    (swaps.foldl (swapAt d) v).getD k d = v.getD (swaps.foldr swapIndex k) d := by
  induction swaps generalizing v with
  | nil => rfl
  | cons places swaps ih =>
    have size : (swapAt d v places).length = v.length := by
      rw [swapAt, List.length_set, List.length_set]
    rw [List.foldl_cons, List.foldr_cons, ih, getD_swapAt d v (within _ List.mem_cons_self)]
    intro others listed
    rw [size]
    exact within others (List.mem_cons_of_mem _ listed)

private theorem length_swapEndiannessU64 {α : Type} (d : α) (v : List α) :
    (swapEndiannessU64 d v).length = v.length := by
  have each : ∀ (swaps : List (Nat × Nat)) (v : List α),
      (swaps.foldl (swapAt d) v).length = v.length := by
    intro swaps
    induction swaps with
    | nil => exact fun v => rfl
    | cons places swaps ih =>
      intro v
      rw [List.foldl_cons, ih, swapAt, List.length_set, List.length_set]
  exact each swapPlaces v

private theorem swapPlaces_foldr {k : Nat} (within : k < 64) :
    swapPlaces.foldr swapIndex k = (7 - k / 8) * 8 + k % 8 := by
  have all : ∀ k < 64, swapPlaces.foldr swapIndex k = (7 - k / 8) * 8 + k % 8 := by
    decide +kernel
  exact all k within

private theorem getD_swapEndiannessU64 {α : Type} (d : α) {v : List α} (size : v.length = 64)
    {k : Nat}
    (within : k < 64) :
    (swapEndiannessU64 d v).getD k d = v.getD ((7 - k / 8) * 8 + k % 8) d := by
  have bounds : ∀ places ∈ swapPlaces, places.1 < 64 ∧ places.2 < 64 := by
    decide +kernel
  rw [swapEndiannessU64, getD_swaps d swapPlaces v (by rw [size]; exact bounds),
    swapPlaces_foldr within]

private theorem ext_getD {α : Type} (d : α) {xs ys : List α} {n : Nat} (size : xs.length = n)
    (size' : ys.length = n) (same : ∀ k < n, xs.getD k d = ys.getD k d) : xs = ys := by
  refine List.ext_getElem (size.trans size'.symm) fun k within within' => ?_
  rw [← List.getD_eq_getElem xs d within, ← List.getD_eq_getElem ys d within']
  exact same k (size ▸ within)

private theorem swapEndiannessU64_involutive {α : Type} (d : α) {v : List α}
    (size : v.length = 64) :
    swapEndiannessU64 d (swapEndiannessU64 d v) = v := by
  have once : (swapEndiannessU64 d v).length = 64 := by rw [length_swapEndiannessU64, size]
  refine ext_getD d (by rw [length_swapEndiannessU64, once]) size fun k within => ?_
  rw [getD_swapEndiannessU64 d once within, getD_swapEndiannessU64 d size (by omega)]
  congr 1
  omega

private theorem convert_getD (bytes : List UInt8) {k : Nat} (within : k < 8 * bytes.length) :
    (convertBytesVectorToVector bytes).getD k false =
      (bytes.getD (k / 8) 0).toNat.testBit (7 - k % 8) := by
  induction bytes generalizing k with
  | nil => simp at within
  | cons c bytes ih =>
    have eight : (byteBits c).length = 8 := rfl
    rw [convert_cons]
    by_cases first : k < 8
    · rw [List.getD_append _ _ _ _ (by omega), Nat.div_eq_of_lt first, Nat.mod_eq_of_lt first]
      simp [byteBits, first]
    · have place : k / 8 = (k - 8) / 8 + 1 := by omega
      have offset : k % 8 = (k - 8) % 8 := by omega
      rw [List.getD_append_right _ _ _ _ (by omega), eight, place, offset, List.getD_cons_succ]
      exact ih (by rw [List.length_cons] at within; omega)

private theorem uint64Bits_getD (x : UInt64) {k : Nat} (within : k < 64) :
    (uint64Bits x).getD k false = x.toNat.testBit (8 * (k / 8) + (7 - k % 8)) := by
  have byte : (convertIntToVectorLE x).getD (k / 8) 0 = (x >>> UInt64.ofNat (k / 8 * 8)).toUInt8 := by
    have place : k / 8 < 8 := by omega
    simp [convertIntToVectorLE, place]
  have shift : (UInt64.ofNat (k / 8 * 8)).toNat = k / 8 * 8 :=
    UInt64.toNat_ofNat_of_lt' (by have : UInt64.size = 2 ^ 64 := rfl; omega)
  have turn : k / 8 * 8 % 64 = k / 8 * 8 := Nat.mod_eq_of_lt (by omega)
  rw [uint64Bits, convert_getD _ (by simp [convertIntToVectorLE]; omega), byte,
    UInt64.toNat_toUInt8, UInt64.toNat_shiftRight, shift, turn, Nat.testBit_mod_two_pow, Nat.testBit_shiftRight, decide_eq_true (by omega), Bool.true_and]
  congr 1
  omega

@[simp] theorem length_uint64Bits (x : UInt64) : (uint64Bits x).length = 64 := by
  rw [uint64Bits, length_convert]
  rfl

theorem swap_uint64Bits (x : UInt64) :
    (swapEndiannessU64 false (uint64Bits x)).reverse = bitsOf 64 x.toNat := by
  have size : (swapEndiannessU64 false (uint64Bits x)).length = 64 := by
    rw [length_swapEndiannessU64, length_uint64Bits]
  refine ext_getD false (by rw [List.length_reverse, size]) (length_bitsOf 64 _) fun k within => ?_
  have turned : (swapEndiannessU64 false (uint64Bits x)).reverse.getD k false =
      (swapEndiannessU64 false (uint64Bits x)).getD (63 - k) false := by
    rw [List.getD_reverse _ (by omega), size]
  rw [turned, getD_swapEndiannessU64 false (length_uint64Bits x) (by omega),
    uint64Bits_getD x (by omega), getD_bitsOf within]
  congr 1
  omega

theorem exists_uint64Bits {bits : List Bool} (size : bits.length = 64) :
    ∃ x, uint64Bits x = bits := by
  have swapped : (swapEndiannessU64 false bits).reverse.length = 64 := by
    rw [List.length_reverse, length_swapEndiannessU64, size]
  have low := number_lt (swapEndiannessU64 false bits).reverse
  rw [swapped] at low
  refine ⟨UInt64.ofNat (number (swapEndiannessU64 false bits).reverse), ?_⟩
  have back := swap_uint64Bits (UInt64.ofNat (number (swapEndiannessU64 false bits).reverse))
  rw [UInt64.toNat_ofNat_of_lt' low, bitsOf_number swapped, List.reverse_inj] at back
  rw [← swapEndiannessU64_involutive false (length_uint64Bits _), back,
    swapEndiannessU64_involutive false size]

private theorem encodes_swapEndiannessU64 {σ : V → ZMod p} {wires : List (Lc p V)}
    {bits : List Bool}
    (encodes : Encodes σ wires bits) (size : bits.length = 64) :
    Encodes σ (swapEndiannessU64 0 wires) (swapEndiannessU64 false bits) := by
  -- the loops move wires as they move bits
  have wide : wires.length = 64 := by rw [encodes.length_eq, size]
  rw [encodes_iff_getD (by rw [length_swapEndiannessU64, wide])
    (by rw [length_swapEndiannessU64, size])]
  intro k within
  rw [getD_swapEndiannessU64 0 wide within, getD_swapEndiannessU64 false size within]
  exact encodes.getD _

theorem eval_packedAddition {σ : V → ZMod p} {wires : List (Lc p V)} {x : UInt64}
    (encodes : Encodes σ wires (uint64Bits x)) :
    (packedAddition wires).eval σ = (x.toNat : ZMod p) := by
  have swapped := (encodes_swapEndiannessU64 encodes (length_uint64Bits x)).reverse
  rw [swap_uint64Bits] at swapped
  rw [packedAddition, eval_packingSum swapped, number_bitsOf, Nat.mod_eq_of_lt x.toNat_lt]

end CbDaemon.Circuit.Conversions
