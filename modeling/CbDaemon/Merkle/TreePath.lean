/- module: CbDaemon/Merkle/TreePath
   source: zcash/IncrementalMerkleTree.hpp, zcash/IncrementalMerkleTree.cpp, zcash/util.cpp
   digest: Authentication paths: folded from the witnessed leaf they give the root of the tree. -/

import CbDaemon.Base.Machine
import CbDaemon.Merkle.TreeWitness

set_option autoImplicit false
set_option relaxedAutoImplicit false

namespace CbDaemon.Merkle.TreePath

open Base.Machine
open CbDaemon.Merkle.PerfectTree
open CbDaemon.Merkle.IncrementalTree
open CbDaemon.Merkle.TreeWitness
open TreeHash
open IncrementalMerkleTree (fillerNext rootParents rootAbove rootLeaves rootAt)

universe u

/-! Paths from the leaf up, with an index bit that tells a right child from a left one. -/

section

variable {H : Type u} [TreeHash H]

/-- The loop over `parents` in `path`, with the depth reached and the fillers left. -/
def pathParents (d : Nat) (queue : List H) : List (Option H) → List (Bool × H) × Nat × List H
  | [] => ([], d, queue)
  | some p :: rest =>
    let above := pathParents (d + 1) queue rest
    ((true, p) :: above.1, above.2)
  | none :: rest =>
    let above := pathParents (d + 1) (fillerNext queue d).2 rest
    ((false, (fillerNext queue d).1) :: above.1, above.2)

/-- The closing `while (d < Depth)` loop of `path`; the first argument is `Depth - d`. -/
def pathAbove : Nat → Nat → List H → List (Bool × H)
  | 0, _, _ => []
  | n + 1, d, queue => (false, (fillerNext queue d).1) :: pathAbove n (d + 1) (fillerNext queue d).2

/-- The index bits and hashes that `path` collects, before it turns them into bits. -/
def pathSteps (Depth : Nat) (filler : List H) (t : IncrementalMerkleTree H) :
    Except String (List (Bool × H)) :=
  match t.left with
  | none => .error "can't create an authentication path for the beginning of the tree"
  | some l =>
    let leaf := match t.right with
      | some _ => ((true, l), filler)
      | none => ((false, (fillerNext filler 0).1), (fillerNext filler 0).2)
    let parents := pathParents 1 leaf.2 t.parents
    .ok (leaf.1 :: (parents.1 ++ pathAbove (Depth - parents.2.1) parents.2.1 parents.2.2))

def climbStep (hash : H) (step : Bool × H) : H :=
  if step.1 then combine step.2 hash else combine hash step.2

def climb (leaf : H) (steps : List (Bool × H)) : H := steps.foldl climbStep leaf

private theorem climb_pathParents (ps : List (Option H)) (d : Nat) (queue : List H) (hash : H) :
    rootParents d hash queue ps =
      ((pathParents d queue ps).2.1, climb hash (pathParents d queue ps).1,
        (pathParents d queue ps).2.2) := by
  induction ps generalizing d queue hash with
  | nil => rfl
  | cons p ps ih =>
    cases p with
    | some p => exact ih (d + 1) queue (combine p hash)
    | none => exact ih (d + 1) (fillerNext queue d).2 (combine hash (fillerNext queue d).1)

private theorem climb_pathAbove (n d : Nat) (queue : List H) (hash : H) :
    rootAbove n d hash queue = climb hash (pathAbove n d queue) := by
  induction n generalizing d queue hash with
  | zero => rfl
  | succ n ih => exact ih (d + 1) (fillerNext queue d).2 (combine hash (fillerNext queue d).1)

theorem climb_pathSteps {t : IncrementalMerkleTree H} {leaf : H} (last : t.last = .ok leaf)
    (leftFirst : t.left = none → t.right = none) (Depth : Nat) (filler : List H) :
    ∃ steps, pathSteps Depth filler t = .ok steps ∧ climb leaf steps = rootAt Depth filler t := by
  obtain ⟨left, right, parents⟩ := t
  cases left with
  | none =>
    obtain rfl : right = none := leftFirst rfl
    cases last
  | some l =>
    refine ⟨_, rfl, ?_⟩
    rw [climb, List.foldl_cons, List.foldl_append]
    cases right with
    | some r =>
      cases last
      simp only [rootAt, rootLeaves, climb_pathParents, climb_pathAbove]
      rfl
    | none =>
      cases last
      simp only [rootAt, rootLeaves, climb_pathParents, climb_pathAbove]
      rfl

end

/-! Hashes as bits. -/

def byteBits (c : UInt8) : List Bool := (List.range 8).map fun j => c.toNat.testBit (7 - j)

def convertBytesVectorToVector (bytes : List UInt8) : List Bool := bytes.flatMap byteBits

def byteOfBits (bits : List Bool) : UInt8 :=
  UInt8.ofNat (bits.foldl (fun n bit => 2 * n + bit.toNat) 0)

def bytesOfBits : Nat → List Bool → List UInt8
  | 0, _ => []
  | n + 1, bits => byteOfBits (bits.take 8) :: bytesOfBits n (bits.drop 8)

private theorem length_bytesOfBits (n : Nat) (bits : List Bool) :
    (bytesOfBits n bits).length = n := by
  induction n generalizing bits with
  | zero => rfl
  | succ n ih => rw [bytesOfBits, List.length_cons, ih]

private theorem foldl_testBit (n k m : Nat) :
    ((List.range k).map fun j => n.testBit (k + m - 1 - j)).foldl
      (fun n bit => 2 * n + bit.toNat) 0 = n / 2 ^ m % 2 ^ k := by
  -- the `k` bits of a number above its lowest `m`, read from the highest on
  induction k generalizing m with
  | zero => exact (Nat.mod_one _).symm
  | succ k ih =>
    have last : k + 1 + m - 1 - k = m := by omega
    have shift : k + 1 + m - 1 = k + (m + 1) - 1 := by omega
    have half : n / 2 ^ (m + 1) = n / 2 ^ m / 2 := by rw [Nat.pow_succ, Nat.div_div_eq_div_mul]
    rw [List.range_succ, List.map_append, List.foldl_append, List.map_singleton, List.foldl_cons,
      List.foldl_nil, last, shift, ih (m + 1), half, Nat.toNat_testBit, Nat.pow_succ',
      Nat.mod_mul, Nat.add_comm]

private theorem byteOfBits_byteBits (c : UInt8) : byteOfBits (byteBits c) = c := by
  have number : (byteBits c).foldl (fun n bit => 2 * n + bit.toNat) 0 = c.toNat := by
    rw [byteBits, foldl_testBit c.toNat 8 0, Nat.pow_zero, Nat.div_one]
    exact Nat.mod_eq_of_lt c.toNat_lt
  rw [byteOfBits, number, UInt8.ofNat_toNat]

private theorem bytesOfBits_convert (bytes : List UInt8) :
    bytesOfBits bytes.length (convertBytesVectorToVector bytes) = bytes := by
  induction bytes with
  | nil => rfl
  | cons c bytes ih =>
    have eight : (byteBits c).length = 8 := rfl
    have split : convertBytesVectorToVector (c :: bytes) =
        byteBits c ++ convertBytesVectorToVector bytes := rfl
    rw [List.length_cons, bytesOfBits, split, List.take_left' eight, List.drop_left' eight,
      byteOfBits_byteBits, ih]

/-! The path that is handed to the circuit. -/

/-- `SHA256Compress`, a `uint256`. -/
abbrev Sha256Compress := Blob 32

def hashOfBits (bits : List Bool) : Sha256Compress := ⟨bytesOfBits 32 bits, length_bytesOfBits 32 bits⟩

theorem hashOfBits_convert (hash : Sha256Compress) :
    hashOfBits (convertBytesVectorToVector hash.data) = hash := by
  apply Blob.ext
  have bytes := bytesOfBits_convert hash.data
  rw [hash.length_eq] at bytes
  exact bytes

/-- `MerklePath`, with the root's side in front. -/
structure MerklePath where
  authenticationPath : List (List Bool)
  index : List Bool
  deriving DecidableEq

/-- The end of `path`: the hashes as bits, and both lists turned around. -/
def MerklePath.ofSteps (steps : List (Bool × Sha256Compress)) : MerklePath where
  authenticationPath := (steps.map fun step => convertBytesVectorToVector step.2.data).reverse
  index := (steps.map Prod.fst).reverse

def MerklePath.levels (path : MerklePath) : List (Bool × Sha256Compress) :=
  path.index.reverse.zip (path.authenticationPath.reverse.map hashOfBits)

private theorem MerklePath.levels_ofSteps (steps : List (Bool × Sha256Compress)) :
    (MerklePath.ofSteps steps).levels = steps := by
  simp only [levels, ofSteps, List.reverse_reverse, List.map_map, Function.comp_def,
    hashOfBits_convert]
  induction steps with
  | nil => rfl
  | cons step steps ih => rw [List.map_cons, List.map_cons, List.zip_cons_cons, ih]

section

variable [TreeHash Sha256Compress]

/-- `IncrementalMerkleTree::path`. -/
def treePath (Depth : Nat) (filler : List Sha256Compress)
    (t : IncrementalMerkleTree Sha256Compress) : Except String MerklePath :=
  (pathSteps Depth filler t).map MerklePath.ofSteps

/-- `IncrementalWitness::path`. -/
def witnessPath (Depth : Nat) (w : IncrementalWitness Sha256Compress) : Except String MerklePath :=
  treePath Depth w.partialPath w.tree

def foldPath (leaf : Sha256Compress) (path : MerklePath) : Sha256Compress := climb leaf path.levels

private theorem foldPath_witnessPath {Depth : Nat} {w : IncrementalWitness Sha256Compress}
    {leaf : Sha256Compress} (element : w.element = .ok leaf)
    (leftFirst : w.tree.left = none → w.tree.right = none) :
    ∃ path, witnessPath Depth w = .ok path ∧ foldPath leaf path = w.root Depth := by
  obtain ⟨steps, collected, climbed⟩ := climb_pathSteps element leftFirst Depth w.partialPath
  refine ⟨MerklePath.ofSteps steps, ?_, ?_⟩
  · rw [witnessPath, treePath, collected]
    rfl
  · rw [foldPath, MerklePath.levels_ofSteps, climbed]
    rfl

/-- A witness taken at the `j`-th leaf and carried on to the last one: its element, its
root and its path all belong to the tree of all leaves. -/
theorem witness_refines_tree {Depth : Nat} (positive : 0 < Depth) (cs : List Sha256Compress)
    (fits : cs.length ≤ 2 ^ Depth) {j : Nat} (low : 1 ≤ j) (high : j ≤ cs.length) :
    ∃ tree whole witness path,
      IncrementalMerkleTree.empty.appendAll Depth (cs.take j) = .ok tree ∧
      IncrementalMerkleTree.empty.appendAll Depth cs = .ok whole ∧
      (IncrementalWitness.ofTree tree).appendAll Depth (cs.drop j) = .ok witness ∧
      witness.element = .ok cs[j - 1] ∧
      witness.root Depth = whole.root Depth ∧
      witnessPath Depth witness = .ok path ∧
      foldPath cs[j - 1] path = whole.root Depth := by
  have front : (cs.take j).length = j := List.length_take_of_le high
  have back : (cs.drop j).length = cs.length - j := List.length_drop
  obtain ⟨tree, taken, holds⟩ := holds_empty.appendAll positive (cs.take j)
    (by rw [front, List.length_nil]; omega)
  obtain ⟨whole, all, holdsAll⟩ := holds_empty.appendAll positive cs
    (by rw [List.length_nil]; omega)
  rw [List.nil_append] at holds holdsAll
  have levels := holds.parents_lt positive (by rw [front]; omega)
  obtain ⟨witness, followed, frozen, follows⟩ := (follows_ofTree holds levels).appendAll (cs.drop j)
    (by rw [front, back, List.length_nil]; omega)
  rw [List.nil_append] at follows
  have ends : cs.take j = cs.take (j - 1) ++ [cs[j - 1]] := by
    rw [List.take_append_getElem, Nat.sub_add_cancel low]
  have element : witness.element = .ok cs[j - 1] := by
    rw [ends] at holds
    rw [IncrementalWitness.element, frozen]
    exact holds.last
  have root : witness.root Depth = whole.root Depth := by
    rw [follows.root_eq, List.take_append_drop, holdsAll.root positive fits]
  obtain ⟨path, made, folded⟩ :=
    foldPath_witnessPath element fun missing => (follows.tree.leftFirst missing).1
  exact ⟨tree, whole, witness, path, taken, all, followed, element, root, made, folded.trans root⟩

end

@[reducible] def weightedHash : TreeHash Sha256Compress where
  combine left right :=
    ⟨List.zipWith (fun a b => 2 * a + 3 * b) left.data right.data, by
      rw [List.length_zipWith, left.length_eq, right.length_eq]
      rfl⟩
  blank := .null

theorem witness_refines_tree_three :
    letI := weightedHash
    ∃ tree whole witness path,
      IncrementalMerkleTree.empty.appendAll 2 [uniform 1, uniform 2] = .ok tree ∧
      IncrementalMerkleTree.empty.appendAll 2 [uniform 1, uniform 2, uniform 3] =
        .ok whole ∧
      (IncrementalWitness.ofTree tree).appendAll 2 [uniform 3] = .ok witness ∧
      witness.element = .ok (uniform 2) ∧
      witness.root 2 = whole.root 2 ∧
      witnessPath 2 witness = .ok path ∧
      foldPath (uniform 2) path = whole.root 2 :=
  @witness_refines_tree weightedHash 2 (by decide) [uniform 1, uniform 2, uniform 3]
    (by decide) 2 (by decide) (by decide)

end CbDaemon.Merkle.TreePath
