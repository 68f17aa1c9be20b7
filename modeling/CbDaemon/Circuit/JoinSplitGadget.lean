/- module: CbDaemon/Circuit/JoinSplitGadget
   source: zcash/circuit/gadget.tcc, snark/libsnark/algebra/fields/field_utils.tcc
   digest: The constraint system of a JoinSplit has a solution exactly for the true statements. -/

import Mathlib.Algebra.BigOperators.Fin
import CbDaemon.Circuit.NoteGadget

set_option autoImplicit false
set_option relaxedAutoImplicit false

namespace CbDaemon.Circuit.JoinSplitGadget

open Base.Bits Base.R1cs Base.Machine BasicGadgets Sha256Gadget Conversions HashGadgets MerkleGadget
open NoteGadget
open LinearCombination (var)
open Crypto.Prf
open Codec.Keypair (Uint252)
open JoinSplit.Prove (Note)
open Merkle.PerfectTree (TreeHash)
open Merkle.TreePath (climb)

variable {p : ℕ} {numInputs numOutputs depth : Nat}

def verifyingInputBitSize (numInputs numOutputs : Nat) : Nat :=
  256 + 256 + numInputs * (256 + 256) + numOutputs * 256 + 64 + 64

@[irreducible] def verifyingFieldElementSize (numInputs numOutputs : Nat) : Nat :=
  divCeil (verifyingInputBitSize numInputs numOutputs) 253

/-- The variables of `joinsplit_gadget`. -/
inductive JoinSplitWire (numInputs numOutputs depth : Nat) where
  | zkPackedInputs (i : Fin (verifyingFieldElementSize numInputs numOutputs))
  | zkMerkleRoot (j : Fin 256)
  | zkHSig (j : Fin 256)
  | zkInputNullifiers (i : Fin numInputs) (j : Fin 256)
  | zkInputMacs (i : Fin numInputs) (j : Fin 256)
  | zkOutputCommitments (i : Fin numOutputs) (j : Fin 256)
  | zkVpubOld (j : Fin 64)
  | zkVpubNew (j : Fin 64)
  | ZERO
  | zkPhi (j : Fin 252)
  | zkTotalUint64 (j : Fin 64)
  | zkInputNotes (i : Fin numInputs) (wire : InputNoteWire depth)
  | zkMacAuthentication (i : Fin numInputs) (wire : CompressionWire)
  | zkOutputNotes (i : Fin numOutputs) (wire : OutputNoteWire)

def valueBalance {V : Type} (left right : Lc p V) (total : Fin 64 → V) :
    List (Constraint (ZMod p) V) :=
  [⟨1, left, right⟩] ++ (vars total).map generateBoolean ++
    [⟨1, left, packedAddition (vars total)⟩]

section

variable (p numInputs numOutputs depth)

def zkUnpackedInputs : List (Lc p (JoinSplitWire numInputs numOutputs depth)) :=
  vars .zkMerkleRoot ++ vars .zkHSig ++
  (List.finRange numInputs).flatMap (fun i =>
    vars (.zkInputNullifiers i) ++ vars (.zkInputMacs i)) ++
  (List.finRange numOutputs).flatMap (fun i => vars (.zkOutputCommitments i)) ++
  vars .zkVpubOld ++ vars .zkVpubNew

def leftSide : Lc p (JoinSplitWire numInputs numOutputs depth) :=
  (List.finRange numInputs).foldl
    (fun side i => side + packedAddition (vars fun j => .zkInputNotes i (.note (.value j))))
    (packedAddition (vars .zkVpubOld))

def rightSide : Lc p (JoinSplitWire numInputs numOutputs depth) :=
  (List.finRange numOutputs).foldl
    (fun side i => side + packedAddition (vars fun j => .zkOutputNotes i (.note (.value j))))
    (packedAddition (vars .zkVpubNew))

/-- `joinsplit_gadget::generate_r1cs_constraints`. -/
def joinSplit : List (Constraint (ZMod p) (JoinSplitWire numInputs numOutputs depth)) :=
  multipacking (zkUnpackedInputs p numInputs numOutputs depth) (vars .zkPackedInputs) 253 true ++
  [⟨1, var .ZERO, .const 0⟩] ++
  (vars .zkPhi).map generateBoolean ++
  (List.finRange numInputs).flatMap (fun i =>
    inputNote .ZERO (vars (.zkInputNullifiers i)) (vars .zkMerkleRoot) (.zkInputNotes i) ++
    prfPkGadget .ZERO (vars fun j => .zkInputNotes i (.aSk j)) (vars .zkHSig) (i.val != 0)
      (vars (.zkInputMacs i)) (.zkMacAuthentication i)) ++
  (List.finRange numOutputs).flatMap (fun i =>
    outputNote .ZERO (vars .zkPhi) (vars .zkHSig) (i.val != 0) (vars (.zkOutputCommitments i))
      (.zkOutputNotes i)) ++
  valueBalance (leftSide p numInputs numOutputs depth) (rightSide p numInputs numOutputs depth)
    .zkTotalUint64

end

/-- What a JoinSplit makes public. -/
@[ext] structure Statement (numInputs numOutputs : Nat) where
  rt : Uint256
  hSig : Uint256
  macs : Fin numInputs → Uint256
  nullifiers : Fin numInputs → Uint256
  commitments : Fin numOutputs → Uint256
  vpubOld : UInt64
  vpubNew : UInt64

/-- `verify_inputs` in `witness_map`. -/
def verifyInputs (st : Statement numInputs numOutputs) : List Bool :=
  uint256Bits st.rt ++ uint256Bits st.hSig ++
  (List.finRange numInputs).flatMap (fun i =>
    uint256Bits (st.nullifiers i) ++ uint256Bits (st.macs i)) ++
  (List.finRange numOutputs).flatMap (fun i => uint256Bits (st.commitments i)) ++
  uint64Bits st.vpubOld ++ uint64Bits st.vpubNew

/-- The inner loop of `pack_bit_vector_into_field_element_vector`, over the first `n`
bits of the chunk. -/
def packChunk (v : List Bool) (chunkBits i n : Nat) : Nat :=
  (List.range n).foldl (fun b j =>
    b ||| (if i * chunkBits + j < v.length ∧ v.getD (i * chunkBits + j) false then 1 else 0) <<< j) 0

def packBitVectorIntoFieldElementVector (v : List Bool) (chunkBits : Nat) : List (ZMod p) :=
  (List.range (divCeil v.length chunkBits)).map fun i => (packChunk v chunkBits i chunkBits : ZMod p)

def witnessMap (st : Statement numInputs numOutputs) : List (ZMod p) :=
  packBitVectorIntoFieldElementVector (verifyInputs st) 253

/-! The packed inputs. -/

private theorem length_verifyInputs (st : Statement numInputs numOutputs) :
    (verifyInputs st).length = verifyingInputBitSize numInputs numOutputs := by
  simp only [verifyInputs, verifyingInputBitSize, List.length_append, List.length_flatMap,
    length_uint256Bits, length_uint64Bits, List.map_const', List.sum_replicate, List.length_finRange,
    smul_eq_mul]

private theorem length_zkUnpackedInputs :
    (zkUnpackedInputs p numInputs numOutputs depth).length =
      verifyingInputBitSize numInputs numOutputs := by
  simp only [zkUnpackedInputs, verifyingInputBitSize, List.length_append, List.length_flatMap,
    length_vars, List.map_const', List.sum_replicate, List.length_finRange, smul_eq_mul]

private theorem packChunk_eq (v : List Bool) {chunkBits i n : Nat} (within : n ≤ chunkBits) :
    packChunk v chunkBits i n = number ((chunk v chunkBits i).take n) := by
  induction n with
  | zero => rfl
  | succ n ih =>
    have element : (chunk v chunkBits i)[n]? = v[i * chunkBits + n]? := by
      rw [chunk, List.getElem?_take_of_lt within, List.getElem?_drop]
    have step : packChunk v chunkBits i (n + 1) = packChunk v chunkBits i n |||
        (if i * chunkBits + n < v.length ∧ v.getD (i * chunkBits + n) false then 1 else 0) <<< n := by
      rw [packChunk, List.range_succ, List.foldl_append]
      rfl
    rw [step, List.take_add_one, element, ih (by omega)]
    by_cases inside : i * chunkBits + n < v.length
    · have size : ((chunk v chunkBits i).take n).length = n := by
        rw [List.length_take_of_le]
        rw [chunk, List.length_take, List.length_drop]
        omega
      have low := number_lt ((chunk v chunkBits i).take n)
      rw [size] at low
      have join : ∀ bit : Nat, number ((chunk v chunkBits i).take n) ||| bit <<< n =
          number ((chunk v chunkBits i).take n) + 2 ^ n * bit := by
        intro bit
        rw [Nat.shiftLeft_eq, Nat.mul_comm bit, Nat.or_comm, ← Nat.two_pow_add_eq_or_of_lt low,
          Nat.add_comm]
      rw [join, List.getElem?_eq_getElem inside, Option.toList_some, number_append, size,
        List.getD_eq_getElem v false inside]
      cases v[i * chunkBits + n] <;> simp [inside, number]
    · rw [if_neg (fun both => inside both.1), Nat.zero_shiftLeft, Nat.or_zero,
        List.getElem?_eq_none (Nat.le_of_not_lt inside), Option.toList_none, List.append_nil]

private theorem getD_packBitVector (v : List Bool) {chunkBits i : Nat}
    (within : i < divCeil v.length chunkBits) :
    (packBitVectorIntoFieldElementVector v chunkBits : List (ZMod p)).getD i 0 =
      (number (chunk v chunkBits i) : ZMod p) := by
  have whole : (chunk v chunkBits i).take chunkBits = chunk v chunkBits i :=
    List.take_of_length_le (List.length_take_le _ _)
  rw [packBitVectorIntoFieldElementVector, List.getD_eq_getElem _ _ (by simpa using within),
    List.getElem_map, List.getElem_range, packChunk_eq v (Nat.le_refl chunkBits), whole]

/-- The public variables carry a statement. -/
structure Publishes (σ : JoinSplitWire numInputs numOutputs depth → ZMod p)
    (st : Statement numInputs numOutputs) : Prop where
  rt : Encodes σ (vars .zkMerkleRoot) (uint256Bits st.rt)
  hSig : Encodes σ (vars .zkHSig) (uint256Bits st.hSig)
  nullifiers : ∀ i, Encodes σ (vars (.zkInputNullifiers i)) (uint256Bits (st.nullifiers i))
  macs : ∀ i, Encodes σ (vars (.zkInputMacs i)) (uint256Bits (st.macs i))
  commitments : ∀ i, Encodes σ (vars (.zkOutputCommitments i)) (uint256Bits (st.commitments i))
  vpubOld : Encodes σ (vars .zkVpubOld) (uint64Bits st.vpubOld)
  vpubNew : Encodes σ (vars .zkVpubNew) (uint64Bits st.vpubNew)

private theorem encodes_zkUnpackedInputs {σ : JoinSplitWire numInputs numOutputs depth → ZMod p}
    {st : Statement numInputs numOutputs} :
    Encodes σ (zkUnpackedInputs p numInputs numOutputs depth) (verifyInputs st) ↔
      Publishes σ st := by
  have pairs : ∀ i, (vars (.zkInputNullifiers i) ++ vars (.zkInputMacs i) :
      List (Lc p (JoinSplitWire numInputs numOutputs depth))).length =
        (uint256Bits (st.nullifiers i) ++ uint256Bits (st.macs i)).length := by
    intro i
    simp only [List.length_append, length_vars, length_uint256Bits]
  have singles : ∀ i, (vars (.zkOutputCommitments i) :
      List (Lc p (JoinSplitWire numInputs numOutputs depth))).length =
        (uint256Bits (st.commitments i)).length := by
    intro i
    rw [length_vars, length_uint256Bits]
  have each : ∀ i, Encodes σ (vars (.zkInputNullifiers i) ++ vars (.zkInputMacs i))
      (uint256Bits (st.nullifiers i) ++ uint256Bits (st.macs i)) ↔
      Encodes σ (vars (.zkInputNullifiers i)) (uint256Bits (st.nullifiers i)) ∧
        Encodes σ (vars (.zkInputMacs i)) (uint256Bits (st.macs i)) := fun i =>
    encodes_append (by rw [length_vars, length_uint256Bits])
  rw [zkUnpackedInputs, verifyInputs, encodes_append, encodes_append, encodes_append,
    encodes_append, encodes_append, encodes_flatMap pairs, encodes_flatMap singles]
  · simp only [each, List.mem_finRange, true_implies]
    constructor
    · rintro ⟨⟨⟨⟨⟨rt, hSig⟩, inputs⟩, outputs⟩, old⟩, new⟩
      exact ⟨rt, hSig, fun i => (inputs i).1, fun i => (inputs i).2, outputs, old, new⟩
    · intro published
      exact ⟨⟨⟨⟨⟨published.rt, published.hSig⟩, fun i => ⟨published.nullifiers i, published.macs i⟩⟩,
        published.commitments⟩, published.vpubOld⟩, published.vpubNew⟩
  all_goals simp only [List.length_append, List.length_flatMap, length_vars, length_uint256Bits,
    length_uint64Bits]

private theorem eval_sum {V : Type} {σ : V → ZMod p} {n : Nat} {start : List (Lc p V)}
    {wires : Fin n → List (Lc p V)} {x : UInt64} {amounts : Fin n → UInt64}
    (first : Encodes σ start (uint64Bits x))
    (others : ∀ i, Encodes σ (wires i) (uint64Bits (amounts i))) :
    ((List.finRange n).foldl (fun side i => side + packedAddition (wires i))
      (packedAddition start)).eval σ = ((x.toNat + ∑ i, (amounts i).toNat : ℕ) : ZMod p) := by
  have folded : ∀ (items : List (Fin n)) (side : Lc p V),
      (items.foldl (fun side i => side + packedAddition (wires i)) side).eval σ =
        side.eval σ + ((items.map fun i => (amounts i).toNat).sum : ℕ) := by
    intro items
    induction items with
    | nil => simp
    | cons i items ih =>
      intro side
      rw [List.foldl_cons, ih, LinearCombination.eval_add, eval_packedAddition (others i),
        List.map_cons, List.sum_cons]
      push_cast
      ring
  rw [folded, eval_packedAddition first, Fin.sum_univ_def]
  push_cast
  rfl

section

variable [Fact p.Prime] [Fact (2 ^ 253 < p)]
  {σ : JoinSplitWire numInputs numOutputs depth → ZMod p} {st : Statement numInputs numOutputs}

private theorem satisfied_unpacker
    (inputs : ∀ i, σ (.zkPackedInputs i) = (witnessMap st).getD i 0) :
    Satisfied σ (multipacking (zkUnpackedInputs p numInputs numOutputs depth)
      (vars .zkPackedInputs) 253 true) ↔ Publishes σ st := by
  -- the unpacker leaves no choice: the packed inputs determine the statement
  have count : divCeil (verifyInputs st).length 253 =
      verifyingFieldElementSize numInputs numOutputs := by
    rw [length_verifyInputs, verifyingFieldElementSize]
  have packed : ∀ i < divCeil (verifyInputs st).length 253,
      ((vars .zkPackedInputs).getD i 0).eval σ =
        (number (chunk (verifyInputs st) 253 i) : ZMod p) := by
    rw [count, forall_eval_getD_vars]
    intro i
    rw [inputs i, witnessMap, getD_packBitVector _ (by rw [count]; exact i.isLt)]
  rw [← encodes_zkUnpackedInputs]
  constructor
  · intro sat
    obtain ⟨bits, encodes⟩ := exists_encodes_of_multipacking (by decide) sat
    have size : bits.length = (verifyInputs st).length := by
      rw [← encodes.length_eq, length_zkUnpackedInputs, length_verifyInputs]
    rw [satisfied_multipacking encodes] at sat
    have same : bits = verifyInputs st := by
      refine eq_of_packed (p := p) (by decide) (Nat.le_refl 253) size fun i within => ?_
      rw [← sat i within, packed i (size ▸ within)]
    rw [← same]
    exact encodes
  · intro encodes
    rw [satisfied_multipacking encodes]
    exact packed

private theorem satisfied_balance {V : Type} {σ : V → ZMod p} {left right : Lc p V}
    {total : Fin 64 → V}
    {x y : Nat} (leftValue : left.eval σ = (x : ZMod p)) (rightValue : right.eval σ = (y : ZMod p))
    (small : x < 2 ^ 253) (small' : y < 2 ^ 253) :
    Satisfied σ (valueBalance left right total) ↔
      x = y ∧ x < 2 ^ 64 ∧ Encodes σ (vars total) (uint64Bits (UInt64.ofNat x)) := by
  -- the sums are compared without wrapping around, and fit in sixty-four bits
  have room : 2 ^ 253 < p := Fact.out
  simp only [valueBalance, satisfied_append, satisfied_cons, satisfied_nil, and_true,
    Constraint.Holds, LinearCombination.eval_one, one_mul, leftValue, rightValue,
    natCast_inj (small.trans room) (small'.trans room), and_assoc]
  refine and_congr_right fun _ => ?_
  constructor
  · rintro ⟨booleans, sum⟩
    obtain ⟨t, amount⟩ := exists_uint64 booleans
    have low := t.toNat_lt
    rw [eval_packedAddition amount, natCast_inj (small.trans room) (by omega)] at sum
    rw [sum, UInt64.ofNat_toNat]
    exact ⟨low, amount⟩
  · rintro ⟨low, amount⟩
    refine ⟨satisfied_boolean amount, ?_⟩
    rw [eval_packedAddition amount, UInt64.toNat_ofNat_of_lt' low]

end

/-! The statements that have a solution. -/

local instance : TreeHash Uint256 := sha256Tree

/-- What a prover knows. -/
structure Opening (numInputs numOutputs depth : Nat) where
  phi : Uint252
  inputs : Fin numInputs → SpentNote depth
  outputs : Fin numOutputs → Note Uint256

/-- The sum of the left side, `left_side_acc`. -/
def Opening.leftValue (w : Opening numInputs numOutputs depth) (vpubOld : UInt64) : Nat :=
  vpubOld.toNat + ∑ i, (w.inputs i).note.value.toNat

def Opening.rightValue (w : Opening numInputs numOutputs depth) (vpubNew : UInt64) : Nat :=
  vpubNew.toNat + ∑ i, (w.outputs i).value.toNat

/-- The statement of a JoinSplit, in terms of the functions of the library. -/
structure Statement.ProvedBy (st : Statement numInputs numOutputs)
    (w : Opening numInputs numOutputs depth) : Prop where
  authorized : ∀ i, prfAddrAPk (w.inputs i).key = .ok (w.inputs i).note.aPk
  revealed : ∀ i, prfNf (w.inputs i).key (w.inputs i).note.rho = .ok (st.nullifiers i)
  authenticated : ∀ i : Fin numInputs, prfPk (w.inputs i).key i st.hSig = .ok (st.macs i)
  anchored : ∀ i, (w.inputs i).note.value ≠ 0 → ∃ leaf, cm (w.inputs i).note = .ok leaf ∧
    climb leaf (List.ofFn (w.inputs i).steps) = st.rt
  derived : ∀ i : Fin numOutputs, prfRho w.phi i st.hSig = .ok (w.outputs i).rho
  committed : ∀ i, cm (w.outputs i) = .ok (st.commitments i)
  balanced : w.leftValue st.vpubOld = w.rightValue st.vpubNew
  bounded : w.leftValue st.vpubOld < 2 ^ 64

def joinSplitValue (st : Statement numInputs numOutputs) (w : Opening numInputs numOutputs depth) :
    JoinSplitWire numInputs numOutputs depth → ZMod p
  | .zkPackedInputs i => (witnessMap st).getD i 0
  | .zkMerkleRoot j => ofBool ((uint256Bits st.rt).getD j false)
  | .zkHSig j => ofBool ((uint256Bits st.hSig).getD j false)
  | .zkInputNullifiers i j => ofBool ((uint256Bits (st.nullifiers i)).getD j false)
  | .zkInputMacs i j => ofBool ((uint256Bits (st.macs i)).getD j false)
  | .zkOutputCommitments i j => ofBool ((uint256Bits (st.commitments i)).getD j false)
  | .zkVpubOld j => ofBool ((uint64Bits st.vpubOld).getD j false)
  | .zkVpubNew j => ofBool ((uint64Bits st.vpubNew).getD j false)
  | .ZERO => 0
  | .zkPhi j => ofBool ((uint252Bits w.phi).getD j false)
  | .zkTotalUint64 j =>
    ofBool ((uint64Bits (UInt64.ofNat (w.leftValue st.vpubOld))).getD j false)
  | .zkInputNotes i wire =>
    inputNoteValue st.rt (w.inputs i) ((w.inputs i).note.value != 0) wire
  | .zkMacAuthentication i wire =>
    prfValue false (i.val != 0) false false (w.inputs i).key st.hSig wire
  | .zkOutputNotes i wire => outputNoteValue w.phi st.hSig (i.val != 0) (w.outputs i) wire

private theorem publishes_joinSplitValue (st : Statement numInputs numOutputs)
    (w : Opening numInputs numOutputs depth) :
    Publishes (joinSplitValue st w : _ → ZMod p) st where
  rt := (encodes_vars_getD (length_uint256Bits _)).mpr fun _ => rfl
  hSig := (encodes_vars_getD (length_uint256Bits _)).mpr fun _ => rfl
  nullifiers _ := (encodes_vars_getD (length_uint256Bits _)).mpr fun _ => rfl
  macs _ := (encodes_vars_getD (length_uint256Bits _)).mpr fun _ => rfl
  commitments _ := (encodes_vars_getD (length_uint256Bits _)).mpr fun _ => rfl
  vpubOld := (encodes_vars_getD (length_uint64Bits _)).mpr fun _ => rfl
  vpubNew := (encodes_vars_getD (length_uint64Bits _)).mpr fun _ => rfl

private theorem sum_toNat_lt {n : Nat} (few : n ≤ 2) (x : UInt64) (amounts : Fin n → UInt64) :
    x.toNat + ∑ i, (amounts i).toNat < 2 ^ 253 := by
  have each : ∑ i, (amounts i).toNat ≤ n * 2 ^ 64 := by
    have bound := Finset.sum_le_card_nsmul Finset.univ (fun i => (amounts i).toNat) (2 ^ 64)
      fun i _ => Nat.le_of_lt (amounts i).toNat_lt
    rwa [Finset.card_univ, Fintype.card_fin, smul_eq_mul] at bound
  have low := x.toNat_lt
  have product : n * 2 ^ 64 ≤ 2 * 2 ^ 64 := Nat.mul_le_mul_right _ few
  omega

section

variable [Fact p.Prime] [Fact (2 ^ 253 < p)] {st : Statement numInputs numOutputs}

theorem provedBy_of_satisfied {σ : JoinSplitWire numInputs numOutputs depth → ZMod p}
    (positive : 0 < depth) (few : numInputs ≤ 2) (few' : numOutputs ≤ 2)
    (packed : ∀ i, σ (.zkPackedInputs i) = (witnessMap st).getD i 0)
    (sat : Satisfied σ (joinSplit p numInputs numOutputs depth)) :
    ∃ w : Opening numInputs numOutputs depth, st.ProvedBy w := by
  simp only [joinSplit, satisfied_append, satisfied_flatMap, List.mem_finRange, true_implies,
    satisfied_cons, satisfied_nil, and_true, and_assoc] at sat
  obtain ⟨unpacked, constant, seeds, ins, outs, balance⟩ := sat
  have published := (satisfied_unpacker packed).mp unpacked
  have zero : σ .ZERO = 0 := by simpa [Constraint.Holds] using constant
  obtain ⟨phi, seeded⟩ := exists_uint252 seeds
  choose input enforce accepted wires nullified using fun i =>
    (satisfied_inputNote positive zero published.rt (length_vars _)).mp (ins i).1
  choose output fresh wires' commitments using fun i =>
    (satisfied_outputNote zero seeded published.hSig (length_vars _)).mp (outs i)
  have secret := fun i => (encodes_vars_getD (length_uint252Bits (input i).key)).mpr
    fun j => wires i (.aSk j)
  have macs := fun i => ((satisfied_prfGadget zero (secret i) published.hSig
    (length_vars _)).mp (ins i).2).2
  have left := eval_sum published.vpubOld fun i => (encodes_note.mp fun wire => wires i (.note wire)).1
  have right := eval_sum published.vpubNew
    fun i => (encodes_note.mp fun wire => wires' i (.note wire)).1
  obtain ⟨balanced, bounded, _⟩ := (satisfied_balance left right (sum_toNat_lt few _ _)
    (sum_toNat_lt few' _ _)).mp balance
  refine ⟨⟨phi, input, output⟩, ?_, ?_, ?_, ?_, ?_, ?_, balanced, bounded⟩
  · intro i
    rw [prfAddrAPk_eq, (accepted i).address]
  · intro i
    rw [prfNf_eq, uint256Bits_inj.mp ((nullified i).unique (published.nullifiers i))]
  · intro i
    rw [prfPk_eq _ (by omega), ← uint256Bits_inj.mp ((macs i).unique (published.macs i)), macOf]
  · intro i worth
    exact ⟨commitmentOf (input i).note, cm_eq _, (accepted i).path ((accepted i).enforced worth)⟩
  · intro i
    rw [prfRho_eq _ (by omega), fresh i]
  · intro i
    rw [cm_eq, uint256Bits_inj.mp ((commitments i).unique (published.commitments i))]

theorem satisfied_of_provedBy {w : Opening numInputs numOutputs depth} (positive : 0 < depth)
    (few : numInputs ≤ 2) (few' : numOutputs ≤ 2) (proved : st.ProvedBy w) :
    Satisfied (joinSplitValue st w) (joinSplit p numInputs numOutputs depth) := by
  have published := publishes_joinSplitValue (p := p) st w
  have zero : joinSplitValue st w .ZERO = (0 : ZMod p) := rfl
  have seeded : Encodes (joinSplitValue st w : _ → ZMod p) (vars .zkPhi) (uint252Bits w.phi) :=
    (encodes_vars_getD (length_uint252Bits _)).mpr fun _ => rfl
  simp only [joinSplit, satisfied_append, satisfied_flatMap, List.mem_finRange, true_implies,
    satisfied_cons, satisfied_nil, and_true, and_assoc]
  refine ⟨(satisfied_unpacker fun _ => rfl).mpr published, ?_, satisfied_boolean seeded,
    fun i => ⟨?_, ?_⟩, fun i => ?_, ?_⟩
  · simp [Constraint.Holds, zero]
  · rw [satisfied_inputNote positive zero published.rt (length_vars _)]
    refine ⟨w.inputs i, (w.inputs i).note.value != 0, ⟨?_, ?_, ?_⟩, fun _ => rfl, ?_⟩
    · exact (Except.ok.inj ((prfAddrAPk_eq _).symm.trans (proved.authorized i))).symm
    · exact fun worth => bne_iff_ne.mpr worth
    · intro worth
      obtain ⟨leaf, hashed, leads⟩ := proved.anchored i (bne_iff_ne.mp worth)
      rw [Except.ok.inj ((cm_eq _).symm.trans hashed)]
      exact leads
    · rw [Except.ok.inj ((prfNf_eq _ _).symm.trans (proved.revealed i))]
      exact published.nullifiers i
  · have secret : Encodes (joinSplitValue st w : _ → ZMod p)
        (vars fun j => .zkInputNotes i (.aSk j)) (uint252Bits (w.inputs i).key) :=
      (encodes_vars_getD (length_uint252Bits _)).mpr fun _ => rfl
    have mac := Except.ok.inj ((prfPk_eq _ (by omega) _).symm.trans (proved.authenticated i))
    rw [prfPkGadget, satisfied_prfGadget zero secret published.hSig (length_vars _)]
    refine ⟨fun _ => rfl, ?_⟩
    rw [← macOf, mac]
    exact published.macs i
  · rw [satisfied_outputNote zero seeded published.hSig (length_vars _)]
    refine ⟨w.outputs i, ?_, fun _ => rfl, ?_⟩
    · exact (Except.ok.inj ((prfRho_eq _ (by omega) _).symm.trans (proved.derived i))).symm
    · rw [Except.ok.inj ((cm_eq _).symm.trans (proved.committed i))]
      exact published.commitments i
  · have left := eval_sum published.vpubOld fun i => (encodes_note.mp fun wire =>
      (rfl : joinSplitValue st w (.zkInputNotes i (.note wire)) = _)).1
    have right := eval_sum published.vpubNew fun i => (encodes_note.mp fun wire =>
      (rfl : joinSplitValue st w (.zkOutputNotes i (.note wire)) = _)).1
    rw [leftSide, rightSide,
      satisfied_balance left right (sum_toNat_lt few _ _) (sum_toNat_lt few' _ _)]
    exact ⟨proved.balanced, proved.bounded, (encodes_vars_getD (length_uint64Bits _)).mpr fun _ => rfl⟩

private theorem exists_opening (numInputs numOutputs depth : Nat) :
    Nonempty (Opening numInputs numOutputs depth) := by
  obtain ⟨key, _⟩ := exists_uint252Bits (List.length_replicate : (List.replicate 252 false).length = 252)
  let note : Note Uint256 := ⟨.null, 0, .null, .null⟩
  exact ⟨⟨key, fun _ => ⟨key, note, fun _ => (false, .null)⟩, fun _ => note⟩⟩

theorem statement_eq_of_witnessMap {other : Statement numInputs numOutputs}
    (same : (witnessMap st : List (ZMod p)) = witnessMap other) : st = other := by
  have size : (verifyInputs st).length = (verifyInputs other).length := by
    rw [length_verifyInputs, length_verifyInputs]
  have bits : verifyInputs st = verifyInputs other := by
    refine eq_of_packed (p := p) (by decide) (Nat.le_refl 253) size fun i within => ?_
    rw [← getD_packBitVector _ within, ← getD_packBitVector _ (size ▸ within)]
    exact congrArg (·.getD i 0) same
  obtain ⟨w⟩ := exists_opening numInputs numOutputs 0
  have first := publishes_joinSplitValue (p := p) st w
  have second : Publishes (joinSplitValue st w : _ → ZMod p) other := by
    rw [← encodes_zkUnpackedInputs, ← bits, encodes_zkUnpackedInputs]
    exact first
  have amount : ∀ {x y : UInt64}, uint64Bits x = uint64Bits y → x = y := by
    intro x y equal
    have numbers := congrArg (fun bits => number (swapEndiannessU64 false bits).reverse) equal
    simp only [swap_uint64Bits, number_bitsOf, Nat.mod_eq_of_lt (UInt64.toNat_lt _)] at numbers
    exact UInt64.toNat_inj.mp numbers
  ext1
  · exact uint256Bits_inj.mp (first.rt.unique second.rt)
  · exact uint256Bits_inj.mp (first.hSig.unique second.hSig)
  · funext i
    exact uint256Bits_inj.mp ((first.macs i).unique (second.macs i))
  · funext i
    exact uint256Bits_inj.mp ((first.nullifiers i).unique (second.nullifiers i))
  · funext i
    exact uint256Bits_inj.mp ((first.commitments i).unique (second.commitments i))
  · exact amount (first.vpubOld.unique second.vpubOld)
  · exact amount (first.vpubNew.unique second.vpubNew)

end

end CbDaemon.Circuit.JoinSplitGadget
