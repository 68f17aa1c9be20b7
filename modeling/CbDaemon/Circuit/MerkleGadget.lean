/- module: CbDaemon/Circuit/MerkleGadget
   source: zcash/circuit/merkle.tcc,
     snark/libsnark/gadgetlib1/gadgets/merkle_tree/merkle_tree_check_read_gadget.tcc,
     snark/libsnark/gadgetlib1/gadgets/merkle_tree/merkle_authentication_path_variable.tcc,
     snark/libsnark/gadgetlib1/gadgets/hashes/digest_selector_gadget.tcc
   digest: An enforced read holds exactly for a path that climbs from the leaf to the root. -/

import CbDaemon.Circuit.HashGadgets
import CbDaemon.Merkle.PathBinding

set_option autoImplicit false
set_option relaxedAutoImplicit false

namespace CbDaemon.Circuit.MerkleGadget

open Base.Bits Base.R1cs Base.Machine BasicGadgets Sha256Aux Sha256Gadget Sha256Compression HashBytes
open Conversions HashGadgets
open LinearCombination (var)
open Crypto.Sha256 Crypto.Hasher Crypto.Prf
open Merkle.PerfectTree Merkle.PathBinding
open Merkle.TreePath (climb climbStep hashOfBits convertBytesVectorToVector)

variable {p : ℕ} {V : Type} {depth : Nat}

/-- The variables that `merkle_tree_gadget` and its parts allocate. The levels of the
path count from below the root, the positions from the leaf. -/
inductive MerkleWire (depth : Nat) where
  | positions (i : Fin depth)
  | leftDigests (i : Fin depth) (j : Fin 256)
  | rightDigests (i : Fin depth) (j : Fin 256)
  | internalOutput (i : Fin (depth - 1)) (j : Fin 256)
  | computedRoot (j : Fin 256)
  | hashers (i : Fin depth) (wire : CompressionWire)
  | packedSource (i : Fin 2)
  | packedTarget (i : Fin 2)

/-- `digest_selector_gadget`. -/
def digestSelector (input : List (Lc p V)) (isRight : Lc p V) (left right : List (Lc p V)) :
    List (Constraint (ZMod p) V) :=
  (List.range 256).map fun i =>
    ⟨isRight, right.getD i 0 - left.getD i 0, input.getD i 0 - left.getD i 0⟩

/-- The hash at a level: the computed root, an internal output, or the leaf. It is
the output of the hasher of its level and the input of the propagator above it. -/
def nodeBits (leaf : List (Lc p V)) (loc : MerkleWire depth → V) (i : Nat) : List (Lc p V) :=
  if top : i = 0 then vars fun j => loc (.computedRoot j)
  else if below : i < depth then vars fun j => loc (.internalOutput ⟨i - 1, by omega⟩ j)
  else leaf

/-- `merkle_authentication_path_variable`: its bits are boolean. -/
def authenticationPath (loc : MerkleWire depth → V) : List (Constraint (ZMod p) V) :=
  (List.finRange depth).flatMap fun i =>
    (vars fun j => loc (.leftDigests i j)).map generateBoolean ++
    (vars fun j => loc (.rightDigests i j)).map generateBoolean

/-- `merkle_tree_check_read_gadget`; the chunks of the root check have `capacity` bits. -/
def checkRead (leaf root : List (Lc p V)) (readSuccessful : Lc p V) (loc : MerkleWire depth → V) :
    List (Constraint (ZMod p) V) :=
  (List.finRange depth).flatMap (fun i : Fin depth =>
    twoToOneHash ((vars fun j => loc (.leftDigests i j)) ++ vars fun j => loc (.rightDigests i j))
      (nodeBits leaf loc i) fun wire => loc (.hashers i wire)) ++
  (List.finRange depth).flatMap (fun i : Fin depth =>
    digestSelector (nodeBits leaf loc (i + 1)) (var (loc (.positions i.rev)))
      (vars fun j => loc (.leftDigests i j)) (vars fun j => loc (.rightDigests i j))) ++
  bitVectorCopy (nodeBits leaf loc 0) root readSuccessful 253
    (vars fun i => loc (.packedSource i)) (vars fun i => loc (.packedTarget i)) false false

/-- `merkle_tree_gadget`. -/
def merkleTree (leaf root : List (Lc p V)) (enforce : V) (loc : MerkleWire depth → V) :
    List (Constraint (ZMod p) V) :=
  (vars fun i => loc (.positions i)).map generateBoolean ++ authenticationPath loc ++
    checkRead leaf root (var enforce) loc

/-! The paths that it accepts. -/

/-- `SHA256Compress` as the hash of a tree. -/
@[reducible] def sha256Tree : TreeHash Uint256 where
  combine a b := blockHash (a.data ++ b.data)
  blank := .null

local instance : TreeHash Uint256 := sha256Tree

/-- The hash that a path has reached `k` levels above the leaf. -/
def reached (leaf : Uint256) (steps : Fin depth → Bool × Uint256) (k : Nat) : Uint256 :=
  climb leaf ((List.ofFn steps).take k)

private theorem reached_succ (leaf : Uint256) (steps : Fin depth → Bool × Uint256) (k : Fin depth) :
    reached leaf steps (k + 1) = climbStep (reached leaf steps k) (steps k) := by
  have within : k.val < (List.ofFn steps).length := by
    rw [List.length_ofFn]
    exact k.isLt
  rw [reached, List.take_succ_eq_append_getElem within, climb, List.foldl_append,
    List.getElem_ofFn]
  rfl

private theorem reached_depth (leaf : Uint256) (steps : Fin depth → Bool × Uint256) :
    reached leaf steps depth = climb leaf (List.ofFn steps) := by
  rw [reached, List.take_of_length_le (Nat.le_of_eq List.length_ofFn)]

def childrenAt (leaf : Uint256) (steps : Fin depth → Bool × Uint256) (i : Fin depth) :
    Uint256 × Uint256 :=
  stepPair (reached leaf steps i.rev) (steps i.rev)

/-- The values of the variables of a `merkle_tree_gadget`. -/
def merkleValue (leaf root : Uint256) (steps : Fin depth → Bool × Uint256) :
    MerkleWire depth → ZMod p
  | .positions k => ofBool (steps k).1
  | .leftDigests i j => ofBool ((uint256Bits (childrenAt leaf steps i).1).getD j false)
  | .rightDigests i j => ofBool ((uint256Bits (childrenAt leaf steps i).2).getD j false)
  | .internalOutput i j =>
    ofBool ((uint256Bits (reached leaf steps (depth - (i + 1)))).getD j false)
  | .computedRoot j => ofBool ((uint256Bits (reached leaf steps depth)).getD j false)
  | .hashers i wire =>
    hasherValue ((childrenAt leaf steps i).1.data ++ (childrenAt leaf steps i).2.data) wire
  | .packedSource i => (number (chunk (uint256Bits (reached leaf steps depth)) 253 i) : ZMod p)
  | .packedTarget i => (number (chunk (uint256Bits root) 253 i) : ZMod p)

section

variable [Fact p.Prime] [Fact (2 ^ 253 < p)] {σ : V → ZMod p}

omit [Fact p.Prime] [Fact (2 ^ 253 < p)] in
private theorem satisfied_digestSelector {input left right : List (Lc p V)} {isRight : Lc p V}
    {bit : Bool} {leftBits rightBits : List Bool} (size : input.length = 256)
    (flag : isRight.eval σ = ofBool bit) (first : Encodes σ left leftBits)
    (second : Encodes σ right rightBits) (wide : leftBits.length = 256)
    (wide' : rightBits.length = 256) :
    Satisfied σ (digestSelector input isRight left right) ↔
      Encodes σ input (if bit then rightBits else leftBits) := by
  have either : (if bit then rightBits else leftBits).length = 256 := by
    cases bit
    · exact wide
    · exact wide'
  rw [digestSelector, satisfied_map, encodes_iff_getD size either]
  simp only [List.mem_range]
  refine forall₂_congr fun i _ => ?_
  rw [Constraint.Holds, flag, LinearCombination.eval_sub, LinearCombination.eval_sub, first.getD,
    second.getD]
  cases bit
  · rw [ofBool_false, zero_mul, eq_comm, sub_eq_zero, if_neg (by decide)]
  · rw [ofBool_true, one_mul, sub_left_inj, if_pos rfl, eq_comm]

omit [Fact (2 ^ 253 < p)] in
theorem exists_uint256 {v : Fin 256 → V}
    (sat : Satisfied σ ((vars v).map generateBoolean)) :
    ∃ x : Uint256, Encodes σ (vars v) (uint256Bits x) := by
  obtain ⟨bits, encodes⟩ := exists_encodes_of_boolean sat
  refine ⟨hashOfBits bits, ?_⟩
  rw [uint256Bits_hashOfBits (by rw [← encodes.length_eq, length_vars])]
  exact encodes

private theorem satisfied_twoToOneHash {left right output : List (Lc p V)}
    {loc : CompressionWire → V}
    {a b : Uint256} (first : Encodes σ left (uint256Bits a))
    (second : Encodes σ right (uint256Bits b)) (size : output.length = 256) :
    Satisfied σ (twoToOneHash (left ++ right) output loc) ↔
      (∀ wire, σ (loc wire) = hasherValue (a.data ++ b.data) wire) ∧
        Encodes σ output (uint256Bits (blockHash (a.data ++ b.data))) := by
  have whole : (a.data ++ b.data).length = 64 := by
    rw [List.length_append, a.length_eq, b.length_eq]
  have block : Encodes σ (left ++ right) (convertBytesVectorToVector (a.data ++ b.data)) := by
    rw [convert_append]
    exact first.append second
  rw [twoToOneHash, satisfied_compression_bytes (encodes_sha256DefaultIV σ) block whole size,
    uint256Bits, blockHash, convert_digest]
  rfl

section

variable {leaf root : List (Lc p V)} {enforce : V} {loc : MerkleWire depth → V} {cm rt : Uint256}
  {asked : Bool}

omit [Fact p.Prime] [Fact (2 ^ 253 < p)] in
private theorem length_nodeBits (size : leaf.length = 256) (i : Nat) :
    (nodeBits leaf loc i).length = 256 := by
  rw [nodeBits]
  split_ifs
  · exact length_vars _
  · exact length_vars _
  · exact size

omit [Fact p.Prime] [Fact (2 ^ 253 < p)] in
private theorem nodeBits_depth (positive : 0 < depth) : nodeBits leaf loc depth = leaf := by
  rw [nodeBits, dif_neg (by omega), dif_neg (by omega)]

omit [Fact p.Prime] [Fact (2 ^ 253 < p)] in
private theorem nodeBits_root :
    nodeBits leaf loc 0 = vars fun j => loc (.computedRoot j) := dif_pos rfl

omit [Fact p.Prime] [Fact (2 ^ 253 < p)] in
private theorem nodeBits_internal (i : Fin (depth - 1)) :
    nodeBits leaf loc (i + 1) = vars fun j => loc (.internalOutput i j) := by
  have below : i.val + 1 < depth := by omega
  rw [nodeBits, dif_neg (Nat.succ_ne_zero i), dif_pos below]
  rfl

private theorem satisfied_rootCopy {computed : Uint256}
    (top : Encodes σ (nodeBits leaf loc 0) (uint256Bits computed))
    (anchor : Encodes σ root (uint256Bits rt)) (flag : σ enforce = ofBool asked) :
    Satisfied σ (bitVectorCopy (nodeBits leaf loc 0) root (var enforce) 253
        (vars fun i => loc (.packedSource i)) (vars fun i => loc (.packedTarget i)) false false) ↔
      (∀ i : Fin 2, σ (loc (.packedSource i)) =
        (number (chunk (uint256Bits computed) 253 i) : ZMod p)) ∧
      (∀ i : Fin 2, σ (loc (.packedTarget i)) =
        (number (chunk (uint256Bits rt) 253 i) : ZMod p)) ∧
      (asked = true → computed = rt) := by
  have two : divCeil (uint256Bits computed).length 253 = 2 := by rw [length_uint256Bits]; rfl
  rw [satisfied_bitVectorCopy (by decide) (Nat.le_refl 253) top anchor
    (by rw [length_uint256Bits, length_uint256Bits]) (by rw [length_vars, two])
    ((LinearCombination.eval_var σ enforce).trans flag), two, forall_eval_getD_vars,
    forall_eval_getD_vars, uint256Bits_inj]

private theorem level_step {i : Fin depth} {left right hash : Uint256} {bit : Bool}
    (size : leaf.length = 256)
    (below : Encodes σ (nodeBits leaf loc (i + 1)) (uint256Bits hash))
    (first : Encodes σ (vars fun j => loc (.leftDigests i j)) (uint256Bits left))
    (second : Encodes σ (vars fun j => loc (.rightDigests i j)) (uint256Bits right))
    (flag : σ (loc (.positions i.rev)) = ofBool bit)
    (selected : Satisfied σ (digestSelector (nodeBits leaf loc (i + 1))
      (var (loc (.positions i.rev))) (vars fun j => loc (.leftDigests i j))
      (vars fun j => loc (.rightDigests i j))))
    (hashed : Satisfied σ (twoToOneHash ((vars fun j => loc (.leftDigests i j)) ++
      vars fun j => loc (.rightDigests i j)) (nodeBits leaf loc i) fun wire =>
        loc (.hashers i wire))) :
    (left, right) = stepPair hash (bit, if bit then left else right) ∧
      Encodes σ (nodeBits leaf loc i)
        (uint256Bits (climbStep hash (bit, if bit then left else right))) := by
  -- one level: the hash below is one of the children, and the hash above is theirs
  have chosen := (satisfied_digestSelector (length_nodeBits size _)
    ((LinearCombination.eval_var σ _).trans flag) first second (length_uint256Bits left)
    (length_uint256Bits right)).mp selected
  have child : (left, right) = stepPair hash (bit, if bit then left else right) := by
    have same := below.unique chosen
    cases bit
    · rw [if_neg (by decide), uint256Bits_inj] at same
      rw [same]
      rfl
    · rw [if_pos rfl, uint256Bits_inj] at same
      rw [same]
      rfl
  refine ⟨child, ?_⟩
  rw [climbStep_eq_combine, ← child]
  exact ((satisfied_twoToOneHash first second (length_nodeBits size _)).mp hashed).2

omit [Fact p.Prime] [Fact (2 ^ 253 < p)] in
private theorem nodes_of_levels {steps : Fin depth → Bool × Uint256} (positive : 0 < depth)
    (element : Encodes σ leaf (uint256Bits cm))
    (level : ∀ i : Fin depth,
      Encodes σ (nodeBits leaf loc (i + 1)) (uint256Bits (reached cm steps i.rev)) →
        Encodes σ (nodeBits leaf loc i) (uint256Bits (reached cm steps (i.rev + 1)))) :
    ∀ k ≤ depth, Encodes σ (nodeBits leaf loc (depth - k)) (uint256Bits (reached cm steps k)) := by
  intro k
  induction k with
  | zero =>
    intro _
    rw [Nat.sub_zero, nodeBits_depth positive]
    exact element
  | succ k ih =>
    intro within
    have up := level (Fin.rev ⟨k, within⟩)
    rw [Fin.rev_rev, Fin.val_rev] at up
    have next : depth - (k + 1) + 1 = depth - k := by omega
    simp only [next] at up
    exact up (ih (by omega))

private theorem exists_steps_of_satisfied (positive : 0 < depth)
    (element : Encodes σ leaf (uint256Bits cm))
    (anchor : Encodes σ root (uint256Bits rt)) (flag : σ enforce = ofBool asked)
    (sat : Satisfied σ (merkleTree leaf root enforce loc)) :
    ∃ steps : Fin depth → Bool × Uint256, (asked = true → climb cm (List.ofFn steps) = rt) ∧
      ∀ wire, σ (loc wire) = merkleValue cm rt steps wire := by
  have size : leaf.length = 256 := by rw [element.length_eq, length_uint256Bits]
  simp only [merkleTree, authenticationPath, checkRead, satisfied_append, satisfied_flatMap,
    List.mem_finRange, true_implies] at sat
  obtain ⟨⟨positions, path⟩, ⟨hashed, selected⟩, copied⟩ := sat
  have bits : ∀ k, ∃ bit, σ (loc (.positions k)) = ofBool bit := by
    intro k
    have listed : var (loc (.positions k)) ∈ (vars fun i => loc (.positions i) : List (Lc p V)) :=
      List.mem_ofFn.mpr ⟨k, rfl⟩
    have boolean := holds_generateBoolean.mp (satisfied_map.mp positions _ listed)
    rwa [LinearCombination.eval_var] at boolean
  choose bit carried using bits
  choose left lefts using fun i => exists_uint256 (path i).1
  choose right rights using fun i => exists_uint256 (path i).2
  let steps : Fin depth → Bool × Uint256 := fun k =>
    (bit k, if bit k then left k.rev else right k.rev)
  have level : ∀ i : Fin depth,
      Encodes σ (nodeBits leaf loc (i + 1)) (uint256Bits (reached cm steps i.rev)) →
        (left i, right i) = childrenAt cm steps i ∧
          Encodes σ (nodeBits leaf loc i) (uint256Bits (reached cm steps (i.rev + 1))) := by
    intro i below
    have step := level_step size below (lefts i) (rights i) (carried i.rev) (selected i) (hashed i)
    have same : steps i.rev = (bit i.rev, if bit i.rev then left i else right i) := by
      simp only [steps, Fin.rev_rev]
    rw [reached_succ, childrenAt, same]
    exact step
  have nodes := nodes_of_levels positive element fun i below => (level i below).2
  have pairs : ∀ i, (left i, right i) = childrenAt cm steps i := by
    intro i
    have below := nodes i.rev (Nat.le_of_lt i.rev.isLt)
    have next : depth - i.rev = i + 1 := by
      rw [Fin.val_rev]
      omega
    rw [next] at below
    exact (level i below).1
  have top := nodes depth (Nat.le_refl depth)
  rw [Nat.sub_self] at top
  rw [satisfied_rootCopy top anchor flag] at copied
  obtain ⟨sources, targets, equal⟩ := copied
  refine ⟨steps, fun yes => (reached_depth cm steps).symm.trans (equal yes), fun wire => ?_⟩
  cases wire with
  | positions k => exact carried k
  | leftDigests i j =>
    rw [merkleValue, ← pairs i]
    exact (encodes_vars_getD (length_uint256Bits _)).mp (lefts i) j
  | rightDigests i j =>
    rw [merkleValue, ← pairs i]
    exact (encodes_vars_getD (length_uint256Bits _)).mp (rights i) j
  | internalOutput i j =>
    have node := nodes (depth - (i + 1)) (by omega)
    rw [Nat.sub_sub_self (by omega), nodeBits_internal] at node
    exact (encodes_vars_getD (length_uint256Bits _)).mp node j
  | computedRoot j =>
    rw [nodeBits_root] at top
    exact (encodes_vars_getD (length_uint256Bits _)).mp top j
  | hashers i wire =>
    rw [merkleValue, ← pairs i]
    exact ((satisfied_twoToOneHash (lefts i) (rights i) (length_nodeBits size i)).mp
      (hashed i)).1 wire
  | packedSource i => exact sources i
  | packedTarget i => exact targets i

omit [Fact p.Prime] [Fact (2 ^ 253 < p)] in
private theorem encodes_nodeBits {steps : Fin depth → Bool × Uint256} (positive : 0 < depth)
    (element : Encodes σ leaf (uint256Bits cm))
    (wires : ∀ wire, σ (loc wire) = merkleValue cm rt steps wire) {i : Nat} (within : i ≤ depth) :
    Encodes σ (nodeBits leaf loc i) (uint256Bits (reached cm steps (depth - i))) := by
  rcases Nat.eq_zero_or_pos i with rfl | below
  · rw [nodeBits_root, Nat.sub_zero, encodes_vars_getD (length_uint256Bits _)]
    exact fun j => wires (.computedRoot j)
  · rcases Nat.lt_or_eq_of_le within with inner | rfl
    · obtain ⟨i, rfl⟩ := Nat.exists_eq_add_one.mpr below
      have node : nodeBits leaf loc (i + 1) = _ :=
        nodeBits_internal (⟨i, Nat.lt_sub_of_add_lt inner⟩ : Fin (depth - 1))
      rw [node, encodes_vars_getD (length_uint256Bits _)]
      exact fun j => wires (.internalOutput _ j)
    · rw [nodeBits_depth positive, Nat.sub_self]
      exact element

private theorem satisfied_of_steps {steps : Fin depth → Bool × Uint256} (positive : 0 < depth)
    (element : Encodes σ leaf (uint256Bits cm)) (anchor : Encodes σ root (uint256Bits rt))
    (flag : σ enforce = ofBool asked) (leads : asked = true → climb cm (List.ofFn steps) = rt)
    (wires : ∀ wire, σ (loc wire) = merkleValue cm rt steps wire) :
    Satisfied σ (merkleTree leaf root enforce loc) := by
  have size : leaf.length = 256 := by rw [element.length_eq, length_uint256Bits]
  have lefts : ∀ i, Encodes σ (vars fun j => loc (.leftDigests i j))
      (uint256Bits (childrenAt cm steps i).1) := fun i =>
    (encodes_vars_getD (length_uint256Bits _)).mpr fun j => wires (.leftDigests i j)
  have rights : ∀ i, Encodes σ (vars fun j => loc (.rightDigests i j))
      (uint256Bits (childrenAt cm steps i).2) := fun i =>
    (encodes_vars_getD (length_uint256Bits _)).mpr fun j => wires (.rightDigests i j)
  simp only [merkleTree, authenticationPath, checkRead, satisfied_append, satisfied_flatMap,
    List.mem_finRange, true_implies]
  refine ⟨⟨?_, fun i => ⟨satisfied_boolean (lefts i), satisfied_boolean (rights i)⟩⟩,
    ⟨fun i => ?_, fun i => ?_⟩, ?_⟩
  · have bits : Encodes σ (vars fun k => loc (.positions k)) (List.ofFn fun k => (steps k).1) :=
      encodes_ofFn.mpr fun k => (LinearCombination.eval_var σ _).trans (wires (.positions k))
    exact satisfied_boolean bits
  · -- a hasher: the level above its children
    have above := encodes_nodeBits positive element wires (Nat.le_of_lt i.isLt)
    have next : depth - i.val = i.rev + 1 := by
      rw [Fin.val_rev]
      omega
    rw [next, reached_succ, climbStep_eq_combine] at above
    exact (satisfied_twoToOneHash (lefts i) (rights i) (length_nodeBits size i)).mpr
      ⟨fun wire => wires (.hashers i wire), above⟩
  · -- a propagator: the level below is the child on its side
    have below := encodes_nodeBits positive element wires i.isLt
    rw [← Fin.val_rev] at below
    rw [satisfied_digestSelector (length_nodeBits size _)
      ((LinearCombination.eval_var σ _).trans (wires (.positions i.rev))) (lefts i) (rights i)
      (length_uint256Bits _) (length_uint256Bits _)]
    have side : (if (steps i.rev).1 then uint256Bits (childrenAt cm steps i).2
        else uint256Bits (childrenAt cm steps i).1) = uint256Bits (reached cm steps i.rev) := by
      rw [childrenAt, stepPair]
      split_ifs <;> rfl
    rw [side]
    exact below
  · have top := encodes_nodeBits positive element wires (Nat.zero_le depth)
    rw [satisfied_rootCopy top anchor flag]
    refine ⟨fun i => wires (.packedSource i), fun i => wires (.packedTarget i), fun yes => ?_⟩
    exact (reached_depth cm steps).trans (leads yes)

/-- A `merkle_tree_gadget` holds for the paths that lead to the root, or for any path when
nothing is enforced. -/
theorem satisfied_merkleTree (positive : 0 < depth) (element : Encodes σ leaf (uint256Bits cm))
    (anchor : Encodes σ root (uint256Bits rt)) (flag : σ enforce = ofBool asked) :
    Satisfied σ (merkleTree leaf root enforce loc) ↔
      ∃ steps : Fin depth → Bool × Uint256, (asked = true → climb cm (List.ofFn steps) = rt) ∧
        ∀ wire, σ (loc wire) = merkleValue cm rt steps wire := by
  constructor
  · exact exists_steps_of_satisfied positive element anchor flag
  · rintro ⟨steps, leads, wires⟩
    exact satisfied_of_steps positive element anchor flag leads wires

end

end

end CbDaemon.Circuit.MerkleGadget
