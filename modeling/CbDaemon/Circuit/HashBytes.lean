/- module: CbDaemon/Circuit/HashBytes
   source: zcash/util.cpp, zcash/circuit/utils.tcc, crypto/common.h
   digest: Chunks and digests of bytes, as the bits that the hash gadgets take and give. -/

import CbDaemon.Circuit.Sha256Compression
import CbDaemon.Crypto.Hasher
import CbDaemon.Merkle.TreePath

set_option autoImplicit false
set_option relaxedAutoImplicit false

namespace CbDaemon.Circuit.HashBytes

open Base.Bits Base.R1cs Base.Machine BasicGadgets Sha256Aux Sha256Gadget Sha256Compression
open Crypto.Sha256 Crypto.Hasher
open Merkle.TreePath (byteBits convertBytesVectorToVector)

variable {p : ℕ} {V : Type}

theorem byteBits_eq (c : UInt8) : byteBits c = (bitsOf 8 c.toNat).reverse := by
  rw [byteBits, bitsOf]
  simp [List.range_succ, List.ofFn_succ]

theorem convert_append (bytes more : List UInt8) :
    convertBytesVectorToVector (bytes ++ more) =
      convertBytesVectorToVector bytes ++ convertBytesVectorToVector more :=
  List.flatMap_append

theorem length_convert (bytes : List UInt8) :
    (convertBytesVectorToVector bytes).length = 8 * bytes.length := by
  induction bytes with
  | nil => rfl
  | cons c bytes ih =>
    rw [← List.singleton_append, convert_append, List.length_append, ih, List.length_append]
    have one : (convertBytesVectorToVector [c]).length = 8 := rfl
    rw [one]
    simp only [List.length_singleton]
    omega

theorem convert_cons (c : UInt8) (bytes : List UInt8) :
    convertBytesVectorToVector (c :: bytes) = byteBits c ++ convertBytesVectorToVector bytes := rfl

theorem take_convert (n : Nat) (bytes : List UInt8) :
    convertBytesVectorToVector (bytes.take n) = (convertBytesVectorToVector bytes).take (8 * n) := by
  induction bytes generalizing n with
  | nil => simp [convertBytesVectorToVector]
  | cons c bytes ih =>
    cases n with
    | zero => rfl
    | succ n =>
      have eight : 8 * (n + 1) = (byteBits c).length + 8 * n := by
        rw [Nat.mul_succ, Nat.add_comm]
        rfl
      rw [List.take_succ_cons, convert_cons, convert_cons, ih, eight, List.take_length_add_append]

theorem drop_convert (n : Nat) (bytes : List UInt8) :
    convertBytesVectorToVector (bytes.drop n) = (convertBytesVectorToVector bytes).drop (8 * n) := by
  induction bytes generalizing n with
  | nil => simp [convertBytesVectorToVector]
  | cons c bytes ih =>
    cases n with
    | zero => rfl
    | succ n =>
      have eight : 8 * (n + 1) = (byteBits c).length + 8 * n := by
        rw [Nat.mul_succ, Nat.add_comm]
        rfl
      rw [List.drop_succ_cons, convert_cons, ih, eight, List.drop_length_add_append]

private theorem convert_word (a b c d : UInt8) :
    convertBytesVectorToVector [a, b, c, d] =
      (wordBits (a.toBitVec ++ b.toBitVec ++ c.toBitVec ++ d.toBitVec)).reverse := by
  have bits : wordBits (a.toBitVec ++ b.toBitVec ++ c.toBitVec ++ d.toBitVec) =
      bitsOf 8 d.toNat ++ (bitsOf 8 c.toNat ++ (bitsOf 8 b.toNat ++ bitsOf 8 a.toNat)) := by
    have outer := bitsOf_concat (a.toBitVec ++ b.toBitVec ++ c.toBitVec) d.toBitVec
    have middle := bitsOf_concat (a.toBitVec ++ b.toBitVec) c.toBitVec
    have inner := bitsOf_concat a.toBitVec b.toBitVec
    exact outer.trans (congrArg _ (middle.trans (congrArg _ inner)))
  rw [bits]
  simp only [convertBytesVectorToVector, List.flatMap_cons, List.flatMap_nil, List.append_nil,
    byteBits_eq, List.reverse_append, List.append_assoc]

private theorem convert_chunk {n : Nat} {bytes : List UInt8} (size : bytes.length = 4 * n) :
    convertBytesVectorToVector bytes = bigEndian ((List.range n).map (chunkWords bytes)) := by
  induction n generalizing bytes with
  | zero =>
    obtain rfl : bytes = [] := List.length_eq_zero_iff.mp size
    rfl
  | succ n ih =>
    obtain ⟨a, b, c, d, rest, rfl⟩ : ∃ a b c d rest, bytes = a :: b :: c :: d :: rest := by
      match bytes, size with
      | a :: b :: c :: d :: rest, _ => exact ⟨a, b, c, d, rest, rfl⟩
    have shift : ∀ i, chunkWords (a :: b :: c :: d :: rest) (i + 1) = chunkWords rest i := fun i => rfl
    have later : convertBytesVectorToVector rest = _ := ih (by simpa [Nat.mul_succ] using size)
    have split : convertBytesVectorToVector (a :: b :: c :: d :: rest) =
        convertBytesVectorToVector [a, b, c, d] ++ convertBytesVectorToVector rest :=
      convert_append [a, b, c, d] rest
    rw [split, convert_word, later, List.range_succ_eq_map, List.map_cons, List.map_map, bigEndian,
      bigEndian, List.flatMap_cons]
    rfl

private theorem convert_writeBE32 (w : Word) :
    convertBytesVectorToVector (writeBE32 w) = (wordBits w).reverse := by
  have bytes : writeBE32 w = [UInt8.ofBitVec ((w >>> 24).setWidth 8),
      UInt8.ofBitVec ((w >>> 16).setWidth 8), UInt8.ofBitVec ((w >>> 8).setWidth 8),
      UInt8.ofBitVec ((w >>> 0).setWidth 8)] := rfl
  have again : (w >>> 24).setWidth 8 ++ (w >>> 16).setWidth 8 ++ (w >>> 8).setWidth 8 ++
      (w >>> 0).setWidth 8 = w := by
    refine BitVec.eq_of_getLsbD_eq fun i within => ?_
    have place : ∀ k j, j < 8 → k + j = i →
        (decide (j < 8) && w.getLsbD (k + j)) = w.getLsbD i := by
      intro k j low sum
      rw [decide_eq_true low, Bool.true_and, sum]
    simp only [BitVec.getLsbD_append, BitVec.getLsbD_setWidth, BitVec.getLsbD_ushiftRight]
    split_ifs
    · exact place 0 i (by omega) (by omega)
    · exact place 8 (i - 8) (by omega) (by omega)
    · exact place 16 (i - 8 - 8) (by omega) (by omega)
    · exact place 24 (i - 8 - 8 - 8) (by omega) (by omega)
  rw [bytes, convert_word]
  exact congrArg (fun w => (wordBits w).reverse) again

theorem convert_digest (s : Registers) :
    convertBytesVectorToVector (CSHA256.digest s).data = bigEndian (registerWords s) := by
  simp only [CSHA256.digest, convert_append, convert_writeBE32, bigEndian, registerWords,
    List.flatMap_cons, List.flatMap_nil, List.append_nil, List.append_assoc]

private theorem sha256DefaultIV_bits :
    (List.range 256).map (fun i => (sha256H.getD (i / 32) 0).getLsbD (31 - i % 32)) =
      bigEndian (registerWords initialState) := by
  decide +kernel

theorem encodes_sha256DefaultIV (σ : V → ZMod p) :
    Encodes σ sha256DefaultIV (bigEndian (registerWords initialState)) := by
  rw [← sha256DefaultIV_bits, Encodes, sha256DefaultIV, List.map_map, List.map_map]
  refine List.map_congr_left fun i _ => ?_
  exact LinearCombination.eval_const σ _

private theorem compressionValue_congr {block other : Nat → Word}
    (same : ∀ i < 16, block i = other i)
    (s : Registers) : (compressionValue s block : CompressionWire → ZMod p) =
      compressionValue s other := by
  have words := funext (schedule_congr same)
  have states := funext (rounds_congr same s)
  have sums : ∀ i, unreducedWord block i = unreducedWord other i := by
    intro i
    rw [unreducedWord, unreducedWord, words]
  have schedules : (scheduleValue block : ScheduleWire → ZMod p) = scheduleValue other := by
    funext wire
    cases wire <;> simp only [scheduleValue, words, sums]
  funext wire
  cases wire <;> simp only [compressionValue, words, states, schedules, unreducedOutput, compress]

section

variable [Fact p.Prime] [Fact (2 ^ 253 < p)] {σ : V → ZMod p}

theorem satisfied_compression_bytes {prevOutput newBlock output : List (Lc p V)}
    {loc : CompressionWire → V} {s : Registers} {chunk : List UInt8}
    (state : Encodes σ prevOutput (bigEndian (registerWords s)))
    (block : Encodes σ newBlock (convertBytesVectorToVector chunk)) (whole : chunk.length = 64)
    (size : output.length = 256) :
    Satisfied σ (compression prevOutput newBlock output loc) ↔
      (∀ wire, σ (loc wire) = compressionValue s (chunkWords chunk) wire) ∧
        Encodes σ output (bigEndian (registerWords (compress s (chunkWords chunk)))) := by
  have words : ∀ i < 16, blockOf ((List.range 16).map (chunkWords chunk)) i = chunkWords chunk i := by
    intro i within
    simp [blockOf, within]
  rw [convert_chunk (n := 16) whole] at block
  rw [satisfied_compression state block (by simp) size, compress_congr words,
    compressionValue_congr words]

end

end CbDaemon.Circuit.HashBytes
