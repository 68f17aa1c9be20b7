/- module: CbDaemon/Wallet/TreeDocument
   source: src/cblib/note.cpp (MerkleTree), zcash/IncrementalMerkleTree.hpp, zcash/IncrementalMerkleTree.cpp
   digest: The stored form of a tree is read back as the tree exactly if all its hashes are seven-bit. -/

import CbDaemon.Codec.Serialize
import CbDaemon.Codec.Utf8Valid
import CbDaemon.Wallet.CipherDocument
import CbDaemon.Wallet.Witness

set_option autoImplicit false
set_option relaxedAutoImplicit false

namespace CbDaemon.Wallet.TreeDocument
open Base.Fallible Base.Machine Codec.Serialize Codec.Json Codec.Utf8 Codec.Utf8Decode Codec.Utf8Valid
open Merkle.PerfectTree Merkle.IncrementalTree CipherDocument Witness

def wfcheck (t : IncrementalMerkleTree Uint256) : Except String Unit :=
  if t.parents.length ≥ treeDepth then .error "tree has too many parents"
  else if t.parents.getLast? = some none then
    .error "tree has non-canonical representation of parent"
  else if t.left = none ∧ t.right ≠ none then
    .error "tree has non-canonical representation; right should not exist"
  else if t.left = none ∧ t.parents.length > 0 then
    .error "tree has non-canonical representation; parents should not be unempty"
  else .ok ()

/-- The bytes that `SerializationOp` writes. -/
def treeBytes (t : IncrementalMerkleTree Uint256) : List UInt8 :=
  writeOptional t.left ++ (writeOptional t.right ++ writeVector t.parents)

/-- `SerializationOp` when writing. -/
def serializeTree (t : IncrementalMerkleTree Uint256) : Except String (List UInt8) := do
  wfcheck t
  return treeBytes t

/-- `SerializationOp` when reading. -/
def unserializeTree (input : Input) : Except String (IncrementalMerkleTree Uint256) := do
  let (left, input) ← readOptional input
  let (right, input) ← readOptional input
  let (parents, _) ← readVector input
  wfcheck ⟨left, right, parents⟩
  return ⟨left, right, parents⟩

/-- `MerkleTree::serialize`, up to the text the writer makes of it. -/
def serialize (t : IncrementalMerkleTree Uint256) : Except String Value := do
  let temp ← serializeTree t
  return .object [("merkletree", .string (unicodeToUTF8 (temp.map widen)))]

/-- `to_bytes` with `codecvt_utf8`: the standard encoding of scalar values, and an
exception for any other character. -/
def toBytes (wide : List Nat) : Except String (List UInt8) :=
  if ∀ n ∈ wide, n ≤ 0x10FFFF ∧ ¬ (0xD800 ≤ n ∧ n ≤ 0xDFFF) then
    .ok (wide.flatMap fun n => String.utf8EncodeChar (Char.ofNat n))
  else .error "wstring_convert::to_bytes"

/-- `MerkleTree(std::string)` on the parsed text. -/
def ofJson (beyond : Nat → UInt8) (garbage : Nat → Nat → UInt8) (temp : Value) :
    Except Failure (IncrementalMerkleTree Uint256) :=
  match textField temp "merkletree" with
  | .error message => .error (.threw message)
  | .ok text =>
    match utf8toUnicode beyond text with
    | none => .error .running
    | some destMerkle =>
      (do
        let bytes ← toBytes destMerkle
        unserializeTree ⟨bytes, garbage, 0⟩).mapError .threw

/-- `MerkleTree(MerkleTree(t).serialize()).get_merkle()`. -/
def recovered (layer : Transfer) (beyond : Nat → UInt8) (garbage : Nat → Nat → UInt8)
    (t : IncrementalMerkleTree Uint256) : Except Failure (IncrementalMerkleTree Uint256) :=
  match serialize t with
  | .error message => .error (.threw message)
  | .ok document => ofJson beyond garbage (layer.transfer document)

def hashes (t : IncrementalMerkleTree Uint256) : List Uint256 :=
  t.left.toList ++ (t.right.toList ++ t.parents.flatMap Option.toList)

/-- All bytes of all hashes are below `0x80`. -/
def SevenBitTree (t : IncrementalMerkleTree Uint256) : Prop := ∀ hash ∈ hashes t, SevenBit hash.data

/-! The bytes of a tree. -/

private theorem sevenBit_append {front back : List UInt8} :
    SevenBit (front ++ back) ↔ SevenBit front ∧ SevenBit back := List.forall_mem_append

private theorem sevenBit_writeOptional {item : Option Uint256}
    (low : ∀ blob ∈ item.toList, SevenBit blob.data) : SevenBit (writeOptional item) := by
  cases item with
  | none => exact List.forall_mem_singleton.mpr (by decide)
  | some blob =>
    refine List.forall_mem_cons.mpr ⟨by decide, ?_⟩
    exact low blob List.mem_cons_self

private theorem sevenBit_writeVector {v : List (Option Uint256)} (short : v.length < treeDepth)
    (low : ∀ blob ∈ v.flatMap Option.toList, SevenBit blob.data) : SevenBit (writeVector v) := by
  have bound : v.length < 29 := short
  refine sevenBit_append.mpr ⟨?_, ?_⟩
  · rw [writeCompactSize, if_pos (by omega), numberBytes, numberBytes, Nat.mod_eq_of_lt (by omega)]
    refine List.forall_mem_singleton.mpr (UInt8.lt_iff_toNat_lt.mpr ?_)
    rw [UInt8.toNat_ofNat_of_lt' (by show v.length < 256; omega)]
    show v.length < 128
    omega
  · intro b mem
    obtain ⟨item, inside, written⟩ := List.mem_flatMap.mp mem
    refine sevenBit_writeOptional (fun blob held => ?_) b written
    exact low blob (List.mem_flatMap.mpr ⟨item, inside, held⟩)

private theorem SevenBitTree.treeBytes {t : IncrementalMerkleTree Uint256} (low : SevenBitTree t)
    (short : t.parents.length < treeDepth) : SevenBit (treeBytes t) := by
  obtain ⟨left, others⟩ := List.forall_mem_append.mp low
  obtain ⟨right, parents⟩ := List.forall_mem_append.mp others
  exact sevenBit_append.mpr ⟨sevenBit_writeOptional left,
    sevenBit_append.mpr ⟨sevenBit_writeOptional right, sevenBit_writeVector short parents⟩⟩

private theorem unserializeTree_treeBytes {t : IncrementalMerkleTree Uint256}
    (wellFormed : wfcheck t = .ok ())
    (short : t.parents.length < treeDepth) (garbage : Nat → Nat → UInt8) :
    unserializeTree ⟨treeBytes t, garbage, 0⟩ = .ok t := by
  have count : t.parents.length < 253 := Nat.lt_trans short (by decide)
  have read : Returns (unserializeTree ⟨treeBytes t, garbage, 0⟩) (· = t) := by
    refine returns_bind.mpr ((reads_optional t.left rfl).mono ?_)
    rintro ⟨left, next⟩ ⟨rfl, afterLeft⟩
    refine returns_bind.mpr ((reads_optional t.right afterLeft).mono ?_)
    rintro ⟨right, last⟩ ⟨rfl, afterRight⟩
    have front : last.bytes = writeVector t.parents ++ [] := by rw [afterRight, List.append_nil]
    refine returns_bind.mpr ((reads_vector t.parents count front).mono ?_)
    rintro ⟨parents, ended⟩ ⟨rfl, -⟩
    exact returns_bind.mpr ⟨(), wellFormed, returns_pure.mpr rfl⟩
  obtain ⟨found, result, rfl⟩ := read
  exact result

private theorem yields_unserializeTree {input : Input} (low : SevenBit input.bytes) :
    Yields (unserializeTree input) SevenBitTree := by
  rw [unserializeTree]
  refine yields_bind (yields_readOptional low) ?_
  rintro ⟨left, next⟩ ⟨lowLeft, afterLeft⟩
  refine yields_bind (yields_readOptional afterLeft) ?_
  rintro ⟨right, last⟩ ⟨lowRight, afterRight⟩
  refine yields_bind (yields_readVector afterRight) ?_
  rintro ⟨parents, ended⟩ lowParents
  refine yields_bind (fun _ _ => trivial : Yields _ fun _ => True) ?_
  rintro - -
  refine yields_ok ?_
  refine List.forall_mem_append.mpr ⟨fun hash mem => lowLeft hash (Option.mem_toList.mp mem), ?_⟩
  refine List.forall_mem_append.mpr ⟨fun hash mem => lowRight hash (Option.mem_toList.mp mem), ?_⟩
  intro hash mem
  obtain ⟨item, inside, held⟩ := List.mem_flatMap.mp mem
  exact lowParents item inside hash (Option.mem_toList.mp held)

/-! The way through the text. -/

private theorem utf8toUnicode_sevenBit (beyond : Nat → UInt8) {s : List UInt8} (low : SevenBit s) :
    utf8toUnicode beyond s = some (s.map (·.toNat)) := by
  have same : encodeBytes s = s := by
    induction s with
    | nil => rfl
    | cons b s ih =>
      obtain ⟨first, rest⟩ := List.forall_mem_cons.mp low
      have form := (encode_low b.toNat (UInt8.lt_iff_toNat_lt.mp first)).1
      rw [UInt8.ofNat_toNat] at form
      show encodeChar (widenUnsigned b) ++ encodeBytes s = b :: s
      rw [form, ih rest]
      rfl
  have decoded := utf8toUnicode_encodeBytes beyond s
  rwa [same] at decoded

private theorem toBytes_sevenBit {s : List UInt8} (low : SevenBit s) :
    toBytes (s.map (·.toNat)) = .ok s := by
  have small : ∀ b ∈ s, b.toNat < 128 := fun b mem => UInt8.lt_iff_toNat_lt.mp (low b mem)
  have scalars : ∀ n ∈ s.map (·.toNat), n ≤ 0x10FFFF ∧ ¬ (0xD800 ≤ n ∧ n ≤ 0xDFFF) := by
    intro n mem
    obtain ⟨b, inside, rfl⟩ := List.mem_map.mp mem
    have bound := small b inside
    omega
  rw [toBytes, if_pos scalars]
  congr 1
  clear scalars low
  induction s with
  | nil => rfl
  | cons b s ih =>
    have bound := small b List.mem_cons_self
    have form := (utf8EncodeChar_byte b.toNat (by omega)).trans (encode_low b.toNat bound).1
    rw [UInt8.ofNat_toNat] at form
    rw [List.map_cons, List.flatMap_cons, form, ih fun c mem => small c (List.mem_cons_of_mem b mem)]
    rfl

private theorem sevenBit_filter (bytes : List UInt8) : SevenBit (bytes.filter (· < 0x80)) := by
  intro b mem
  simpa using (List.mem_filter.mp mem).2

private theorem recovered_eq {t : IncrementalMerkleTree Uint256} (wellFormed : wfcheck t = .ok ())
    (layer : Transfer) (beyond : Nat → UInt8) (garbage : Nat → Nat → UInt8) :
    recovered layer beyond garbage t =
      (unserializeTree ⟨(treeBytes t).filter (· < 0x80), garbage, 0⟩).mapError .threw := by
  -- writing, carrying and reading come down to a read of the kept bytes
  have low := sevenBit_filter (treeBytes t)
  have written : serialize t =
      .ok (.object [("merkletree", .string ((treeBytes t).filter (· < 0x80)))]) := by
    rw [serialize, serializeTree, wellFormed, ← unicodeToUTF8_widen]
    rfl
  have carried : layer.transfer
      (.object [("merkletree", .string ((treeBytes t).filter (· < 0x80)))]) =
        .object [("merkletree", .string ((treeBytes t).filter (· < 0x80)))] := by
    apply layer.transfer_object
    exact List.forall_mem_singleton.mpr (validUtf8_of_ascii low)
  have field : textField
      (.object [("merkletree", .string ((treeBytes t).filter (· < 0x80)))]) "merkletree" =
        .ok ((treeBytes t).filter (· < 0x80)) := rfl
  rw [recovered, written]
  simp only
  rw [carried, ofJson, field]
  simp only [utf8toUnicode_sevenBit beyond low, toBytes_sevenBit low]
  rfl

private theorem recovered_iff {t : IncrementalMerkleTree Uint256} (wellFormed : wfcheck t = .ok ())
    (short : t.parents.length < treeDepth) (layer : Transfer) (beyond : Nat → UInt8)
    (garbage : Nat → Nat → UInt8) :
    recovered layer beyond garbage t = .ok t ↔ SevenBitTree t := by
  rw [recovered_eq wellFormed]
  constructor
  · intro result
    have read : unserializeTree ⟨(treeBytes t).filter (· < 0x80), garbage, 0⟩ = .ok t := by
      cases found : unserializeTree ⟨(treeBytes t).filter (· < 0x80), garbage, 0⟩ with
      | error message =>
        rw [found] at result
        cases result
      | ok other =>
        rw [found] at result
        cases result
        rfl
    exact yields_unserializeTree (sevenBit_filter _) t read
  · intro low
    have all : (treeBytes t).filter (· < 0x80) = treeBytes t := by
      apply List.filter_eq_self.mpr
      intro b mem
      exact decide_eq_true (low.treeBytes short b mem)
    rw [all, unserializeTree_treeBytes wellFormed short garbage]
    rfl

section

variable [TreeHash Uint256]

private theorem wfcheck_of_holds {t : IncrementalMerkleTree Uint256} {leaves : List Uint256}
    (holds : Holds t leaves) (short : t.parents.length < treeDepth) : wfcheck t = .ok () := by
  have canonical : ¬ t.parents.getLast? = some none := holds.canonical
  have noRight : ¬ (t.left = none ∧ t.right ≠ none) :=
    fun both => both.2 (holds.leftFirst both.1).1
  have noParents : ¬ (t.left = none ∧ t.parents.length > 0) := by
    rintro ⟨missing, some⟩
    rw [(holds.leftFirst missing).2] at some
    exact Nat.lt_irrefl 0 some
  rw [wfcheck, if_neg (Nat.not_le.mpr short), if_neg canonical, if_neg noRight, if_neg noParents]

/-- A tree made by appends is stored and read back as it was exactly if every byte of its
hashes is below `0x80`. -/
theorem tree_recovered_iff {leaves : List Uint256} {t : IncrementalMerkleTree Uint256}
    (reached : IncrementalMerkleTree.empty.appendAll treeDepth leaves = .ok t) (layer : Transfer)
    (beyond : Nat → UInt8) (garbage : Nat → Nat → UInt8) :
    recovered layer beyond garbage t = .ok t ↔ SevenBitTree t := by
  obtain ⟨fits, holds⟩ := holds_empty.fits_of_appendAll treeDepth_pos (Nat.zero_le _) reached
  rw [List.nil_append] at holds
  have short := holds.parents_lt treeDepth_pos (by simpa using fits)
  have wellFormed := wfcheck_of_holds holds short
  exact recovered_iff wellFormed short layer beyond garbage

end

@[reducible] def leftHash : TreeHash Uint256 := ⟨fun left _ => left, .null⟩

def oneLeaf (hash : Uint256) : IncrementalMerkleTree Uint256 := ⟨some hash, none, []⟩

private theorem sevenBit_uniform {b : UInt8} (low : b < 0x80) :
    SevenBit (uniform b : Uint256).data := by
  intro byte repeated
  rw [List.eq_of_mem_replicate repeated]
  exact low

/-- The tree of eight leaves under a combine function that keeps the left child. -/
def eightLeaves : IncrementalMerkleTree Uint256 :=
  ⟨some (uniform 7), some (uniform 8), [some (uniform 5), some (uniform 1)]⟩

theorem tree_recovered_eight :
    SevenBitTree eightLeaves ∧
      recovered Transfer.exact (fun _ => 0xFF) (fun _ _ => 0xFF) eightLeaves = .ok eightLeaves := by
  have reached : @IncrementalMerkleTree.appendAll Uint256 leftHash treeDepth .empty
      ([1, 2, 3, 4, 5, 6, 7, 8].map uniform) = .ok eightLeaves := rfl
  have listed : hashes eightLeaves = [7, 8, 5, 1].map uniform := rfl
  have low : SevenBitTree eightLeaves := by
    rw [SevenBitTree, listed]
    intro hash among
    simp only [List.map_cons, List.map_nil, List.mem_cons, List.not_mem_nil, or_false] at among
    rcases among with rfl | rfl | rfl | rfl
    · exact sevenBit_uniform (by decide)
    · exact sevenBit_uniform (by decide)
    · exact sevenBit_uniform (by decide)
    · exact sevenBit_uniform (by decide)
  exact ⟨low, (@tree_recovered_iff leftHash _ eightLeaves reached Transfer.exact (fun _ => 0xFF)
    (fun _ _ => 0xFF)).mpr low⟩

/-- The hash `80 00 … 00`. -/
def highHash : Uint256 := ⟨0x80 :: List.replicate 31 0, rfl⟩

/-- The tree of the one leaf `80 00 … 00` can be reached, and it is never read back. Its high
byte is not written; with zeros in the local variables the leaf that is read is zero. -/
theorem tree_recovered_fails :
    @IncrementalMerkleTree.appendAll Uint256 leftHash treeDepth .empty [highHash] =
        .ok (oneLeaf highHash) ∧
      (∀ layer beyond garbage,
        recovered layer beyond garbage (oneLeaf highHash) ≠ .ok (oneLeaf highHash)) ∧
      recovered Transfer.exact (fun _ => 0) (fun _ _ => 0) (oneLeaf highHash) =
        .ok (oneLeaf .null) := by
  have wellFormed : wfcheck (oneLeaf highHash) = .ok () := rfl
  refine ⟨rfl, ?_, ?_⟩
  · intro layer beyond garbage result
    have low := (recovered_iff wellFormed (by decide) layer beyond garbage).mp result
    exact absurd (low highHash List.mem_cons_self 0x80 List.mem_cons_self) (by decide)
  · have read : unserializeTree
        ⟨(treeBytes (oneLeaf highHash)).filter (· < 0x80), fun _ _ => 0, 0⟩ =
          .ok (oneLeaf .null) := by decide +kernel
    rw [recovered_eq wellFormed, read]
    rfl

end CbDaemon.Wallet.TreeDocument
