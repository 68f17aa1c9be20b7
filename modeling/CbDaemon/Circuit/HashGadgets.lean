/- module: CbDaemon/Circuit/HashGadgets
   source: zcash/circuit/utils.tcc, zcash/circuit/prfs.tcc, zcash/circuit/commitment.tcc
   digest: The gadgets of the keyed functions and of the note commitment compute what the code hashes. -/

import CbDaemon.Circuit.Conversions

set_option autoImplicit false
set_option relaxedAutoImplicit false

namespace CbDaemon.Circuit.HashGadgets

open Base.Bits Base.R1cs Base.Machine BasicGadgets Sha256Aux Sha256Gadget Sha256Compression HashBytes
open Conversions
open LinearCombination (var)
open Crypto.Sha256 Crypto.Hasher Crypto.Prf
open Codec.Keypair (Uint252)
open JoinSplit.Prove (Note)
open Merkle.TreePath (byteBits convertBytesVectorToVector)

variable {p : ℕ} {V : Type}

/-- `from_bits`; `ONE` is the constant. -/
def fromBits (bits : List Bool) (ZERO : V) : List (Lc p V) :=
  bits.map fun bit => if bit then 1 else var ZERO

def prfGadget (ZERO : V) (a b c d : Bool) (x y result : List (Lc p V)) (loc : CompressionWire → V) :
    List (Constraint (ZMod p) V) :=
  compression sha256DefaultIV (fromBits [a, b, c, d] ZERO ++ x ++ y) result loc

def gen256zeroes (ZERO : V) : List (Lc p V) := List.replicate 256 (var ZERO)

def prfAddrAPkGadget (ZERO : V) (aSk result : List (Lc p V)) (loc : CompressionWire → V) :
    List (Constraint (ZMod p) V) :=
  prfGadget ZERO true true false false aSk (gen256zeroes ZERO) result loc

def prfNfGadget (ZERO : V) (aSk rho result : List (Lc p V)) (loc : CompressionWire → V) :
    List (Constraint (ZMod p) V) :=
  prfGadget ZERO true true true false aSk rho result loc

def prfPkGadget (ZERO : V) (aSk hSig : List (Lc p V)) (nonce : Bool) (result : List (Lc p V))
    (loc : CompressionWire → V) : List (Constraint (ZMod p) V) :=
  prfGadget ZERO false nonce false false aSk hSig result loc

def prfRhoGadget (ZERO : V) (phi hSig : List (Lc p V)) (nonce : Bool) (result : List (Lc p V))
    (loc : CompressionWire → V) : List (Constraint (ZMod p) V) :=
  prfGadget ZERO false nonce true false phi hSig result loc

/-- The variables that `note_commitment_gadget` allocates. -/
inductive CommitmentWire where
  | intermediateHash (i : Fin 256)
  | hasher1 (wire : CompressionWire)
  | hasher2 (wire : CompressionWire)

/-- The bits of `leading_byte`. -/
def leadingByte : List Bool := [true, false, true, true, false, false, false, false]

/-- The bits of `length_padding`: a one bit, zeros, and the length of the message in
sixty-four bits, 840. -/
def lengthPadding : List Bool :=
  true :: List.replicate 119 false ++
    (List.replicate 48 false ++ [false, false, false, false, false, false, true, true] ++
      [false, true, false, false, true, false, false, false])

/-- `note_commitment_gadget`. -/
def noteCommitment (ZERO : V) (aPk v rho r result : List (Lc p V)) (loc : CommitmentWire → V) :
    List (Constraint (ZMod p) V) :=
  let intermediateHash := vars fun i => loc (.intermediateHash i)
  compression sha256DefaultIV (fromBits leadingByte ZERO ++ aPk ++ v ++ rho.take 184)
    intermediateHash (fun wire => loc (.hasher1 wire)) ++
  compression intermediateHash (rho.drop 184 ++ r ++ fromBits lengthPadding ZERO) result
    fun wire => loc (.hasher2 wire)

/-! What they compute. -/

private theorem encodes_fromBits {σ : V → ZMod p} {ZERO : V} (zero : σ ZERO = 0)
    (bits : List Bool) :
    Encodes σ (fromBits bits ZERO) bits := by
  rw [Encodes, fromBits, List.map_map]
  refine List.map_congr_left fun bit _ => ?_
  cases bit
  · exact (LinearCombination.eval_var σ ZERO).trans zero
  · exact LinearCombination.eval_one σ

private theorem testBit_prfLead (a b c d : Bool) (lead : UInt8) (k : Nat) :
    (prfLead a b c d lead).toNat.testBit k = (lead.toNat.testBit k && decide (k < 4) ||
      (a && decide (7 = k) || b && decide (6 = k) || c && decide (5 = k) || d && decide (4 = k))) := by
  have flag : ∀ (set : Bool) (place : UInt8), place.toNat < 8 →
      (if set then (1 : UInt8) <<< place else 0).toNat.testBit k =
        (set && decide (place.toNat = k)) := by
    intro set place low
    cases set
    · simp
    · have power : ((1 : UInt8) <<< place).toNat = 2 ^ place.toNat := by
        have small : 2 ^ place.toNat < 2 ^ 8 := Nat.pow_lt_pow_right (by decide) low
        rw [UInt8.toNat_shiftLeft, Nat.mod_eq_of_lt low, UInt8.toNat_one, Nat.one_shiftLeft,
          Nat.mod_eq_of_lt small]
      rw [if_pos rfl, power, Nat.testBit_two_pow, Bool.true_and]
  have mask : (0x0F : UInt8).toNat.testBit k = decide (k < 4) := Nat.testBit_two_pow_sub_one 4 k
  simp only [prfLead, UInt8.toNat_or, UInt8.toNat_and, Nat.testBit_or, Nat.testBit_and, mask,
    flag a 7 (by decide), flag b 6 (by decide), flag c 5 (by decide), flag d 4 (by decide)]
  rfl

private theorem byteBits_prfLead (a b c d : Bool) (lead : UInt8) :
    byteBits (prfLead a b c d lead) = [a, b, c, d] ++ (byteBits lead).drop 4 := by
  simp [byteBits, List.range_succ, testBit_prfLead]

private theorem convert_prfBlob (a b c d : Bool) (x y : Uint256) :
    convertBytesVectorToVector (prfBlob a b c d x y) =
      [a, b, c, d] ++ (uint256Bits x).drop 4 ++ uint256Bits y := by
  have first : uint256Bits x = byteBits x.lead ++ convertBytesVectorToVector x.data.tail := by
    rw [uint256Bits, blob_ne_nil x]
    rfl
  have four : 4 ≤ (byteBits x.lead).length := by simp [byteBits]
  have whole : convertBytesVectorToVector (prfBlob a b c d x y) =
      byteBits (prfLead a b c d x.lead) ++ convertBytesVectorToVector (x.data.tail ++ y.data) := rfl
  rw [whole, convert_append, byteBits_prfLead, first, List.drop_append_of_le_length four,
    uint256Bits]
  simp only [List.append_assoc]

/-- The values of the variables of a hasher that starts from the initial state. -/
def hasherValue (block : List UInt8) : CompressionWire → ZMod p :=
  compressionValue initialState (chunkWords block)

/-- The values of the variables of a `PRF_gadget`. -/
def prfValue (a b c d : Bool) (x : Uint252) (y : Uint256) : CompressionWire → ZMod p :=
  hasherValue (prfBlob a b c d x.contents y)

def noteBlocks (note : Note Uint256) : List UInt8 × List UInt8 :=
  (0xb0 :: (note.aPk.data ++ convertIntToVectorLE note.value ++ note.rho.data.take 23),
    note.rho.data.drop 23 ++ note.r.data ++
      0x80 :: (List.replicate 14 0 ++ writeBE64 (UInt64.ofNat 840)))

private theorem padded_noteBytes (note : Note Uint256) :
    padded (noteBytes note) = (noteBlocks note).1 ++ (noteBlocks note).2 := by
  have filler : fillerLength (noteBytes note) = 14 := by
    rw [fillerLength, length_noteBytes]
  have join : ∀ rest, note.rho.data.take 23 ++ (note.rho.data.drop 23 ++ rest) =
      note.rho.data ++ rest := by
    intro rest
    rw [← List.append_assoc, List.take_append_drop]
  rw [padded, filler, length_noteBytes]
  simp only [noteBytes, noteBlocks, List.cons_append, List.append_assoc, join]

private theorem length_noteBlocks (note : Note Uint256) :
    (noteBlocks note).1.length = 64 ∧ (noteBlocks note).2.length = 64 := by
  simp [noteBlocks, convertIntToVectorLE, writeBE64, Blob.length_eq]

private theorem commitmentOf_eq (note : Note Uint256) :
    commitmentOf note = CSHA256.digest (compress
      (compress initialState (chunkWords (noteBlocks note).1)) (chunkWords (noteBlocks note).2)) := by
  obtain ⟨first, second⟩ := length_noteBlocks note
  have two : (padded (noteBytes note)).length / 64 = 2 := by
    rw [length_padded, length_noteBytes]
  rw [commitmentOf, sha256, two, padded_noteBytes, chain, chain, chain,
    compress_congr fun i within => chunkWords_append (Nat.le_of_eq first.symm) _ within,
    ← first, List.drop_left]

/-- The values of the variables of a `note_commitment_gadget`. -/
def commitmentValue (note : Note Uint256) : CommitmentWire → ZMod p
  | .intermediateHash i => ofBool ((bigEndian (registerWords
      (compress initialState (chunkWords (noteBlocks note).1)))).getD i false)
  | .hasher1 wire => hasherValue (noteBlocks note).1 wire
  | .hasher2 wire => compressionValue
      (compress initialState (chunkWords (noteBlocks note).1)) (chunkWords (noteBlocks note).2) wire

private theorem convert_lengthPadding :
    convertBytesVectorToVector (0x80 :: (List.replicate 14 0 ++ writeBE64 (UInt64.ofNat 840))) =
      lengthPadding := by
  decide +kernel

private theorem convert_noteBlocks (note : Note Uint256) :
    convertBytesVectorToVector (noteBlocks note).1 = leadingByte ++ uint256Bits note.aPk ++
        uint64Bits note.value ++ (uint256Bits note.rho).take 184 ∧
      convertBytesVectorToVector (noteBlocks note).2 = (uint256Bits note.rho).drop 184 ++
        uint256Bits note.r ++ lengthPadding := by
  constructor
  · have lead : convertBytesVectorToVector (noteBlocks note).1 = leadingByte ++
        convertBytesVectorToVector (note.aPk.data ++ convertIntToVectorLE note.value ++
          note.rho.data.take 23) := rfl
    rw [lead, convert_append, convert_append, take_convert]
    simp only [uint256Bits, uint64Bits, List.append_assoc]
  · rw [noteBlocks, convert_append, convert_append, drop_convert, convert_lengthPadding]
    rfl

section

variable [Fact p.Prime] [Fact (2 ^ 253 < p)] {σ : V → ZMod p} {ZERO : V}

theorem satisfied_prfGadget {a b c d : Bool} {x y result : List (Lc p V)}
    {loc : CompressionWire → V} {key : Uint252} {input : Uint256} (zero : σ ZERO = 0)
    (first : Encodes σ x (uint252Bits key)) (second : Encodes σ y (uint256Bits input))
    (size : result.length = 256) :
    Satisfied σ (prfGadget ZERO a b c d x y result loc) ↔
      (∀ wire, σ (loc wire) = prfValue a b c d key input wire) ∧
        Encodes σ result (uint256Bits (blockHash (prfBlob a b c d key.contents input))) := by
  have block : Encodes σ (fromBits [a, b, c, d] ZERO ++ x ++ y)
      (convertBytesVectorToVector (prfBlob a b c d key.contents input)) := by
    rw [convert_prfBlob]
    exact ((encodes_fromBits zero _).append first).append second
  rw [prfGadget, satisfied_compression_bytes (encodes_sha256DefaultIV σ) block
    (length_prfBlob a b c d key.contents input) size, uint256Bits, blockHash, convert_digest]
  rfl

theorem satisfied_noteCommitment {aPk v rho r result : List (Lc p V)} {loc : CommitmentWire → V}
    (note : Note Uint256) (zero : σ ZERO = 0) (address : Encodes σ aPk (uint256Bits note.aPk))
    (value : Encodes σ v (uint64Bits note.value)) (nonce : Encodes σ rho (uint256Bits note.rho))
    (random : Encodes σ r (uint256Bits note.r)) (size : result.length = 256) :
    Satisfied σ (noteCommitment ZERO aPk v rho r result loc) ↔
      (∀ wire, σ (loc wire) = commitmentValue note wire) ∧
        Encodes σ result (uint256Bits (commitmentOf note)) := by
  obtain ⟨bits1, bits2⟩ := convert_noteBlocks note
  obtain ⟨size1, size2⟩ := length_noteBlocks note
  have block1 : Encodes σ (fromBits leadingByte ZERO ++ aPk ++ v ++ rho.take 184)
      (convertBytesVectorToVector (noteBlocks note).1) := by
    rw [bits1]
    exact (((encodes_fromBits zero _).append address).append value).append (nonce.take 184)
  have block2 : Encodes σ (rho.drop 184 ++ r ++ fromBits lengthPadding ZERO)
      (convertBytesVectorToVector (noteBlocks note).2) := by
    rw [bits2]
    exact ((nonce.drop 184).append random).append (encodes_fromBits zero _)
  have middle : Encodes σ (vars fun i => loc (.intermediateHash i))
      (bigEndian (registerWords (compress initialState (chunkWords (noteBlocks note).1)))) ↔
      ∀ i, σ (loc (.intermediateHash i)) = commitmentValue note (.intermediateHash i) :=
    encodes_vars_getD (length_bigEndian _)
  rw [noteCommitment, satisfied_append, satisfied_compression_bytes (encodes_sha256DefaultIV σ)
    block1 size1 (length_vars _), commitmentOf_eq, uint256Bits, convert_digest]
  constructor
  · rintro ⟨⟨wires1, between⟩, last⟩
    rw [satisfied_compression_bytes between block2 size2 size] at last
    obtain ⟨wires2, done⟩ := last
    rw [middle] at between
    refine ⟨fun wire => ?_, done⟩
    cases wire with
    | intermediateHash i => exact between i
    | hasher1 wire => exact wires1 wire
    | hasher2 wire => exact wires2 wire
  · rintro ⟨wires, done⟩
    have between := middle.mpr fun i => wires (.intermediateHash i)
    refine ⟨⟨fun wire => wires (.hasher1 wire), between⟩, ?_⟩
    rw [satisfied_compression_bytes between block2 size2 size]
    exact ⟨fun wire => wires (.hasher2 wire), done⟩

end

end CbDaemon.Circuit.HashGadgets
