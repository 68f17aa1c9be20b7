/- module: CbDaemon/JoinSplit/LocalTree
   source: src/cblib/account.cpp (sync_merkle, get_merkle), zcash/IncrementalMerkleTree.cpp (append)
   digest: The tree rebuilt from the stored notes, its root, and the append to a full tree. -/

import CbDaemon.JoinSplit.Creator

set_option autoImplicit false
set_option relaxedAutoImplicit false

namespace CbDaemon.JoinSplit.LocalTree
open Merkle.PerfectTree Merkle.IncrementalTree
open Wallet.Notes Wallet.Sync Wallet.Witness Creator
open TreeHash (combine blank)
open IncrementalMerkleTree (carry)

variable {Hash : Type}

variable [TreeHash Hash]

theorem getMerkle_perm {notes chain : List (NoteCiphertext Hash)} (perm : notes.Perm chain)
    (contiguous : Contiguous chain) :
    getMerkle notes =
      IncrementalMerkleTree.empty.appendAll treeDepth (chain.map (·.noteCommitment)) := by
  have rebuilt := reconstruct_eq perm contiguous chain.length 0 (by omega) .empty
  rw [List.drop_zero, List.take_length] at rebuilt
  rw [getMerkle, latestHeight_perm perm, contiguous.latestHeight, rebuilt]
  cases IncrementalMerkleTree.empty.appendAll treeDepth (chain.map (·.noteCommitment)) with
  | error message => rfl
  | ok tree => rfl

private theorem perfectRoot_append_blanks (d n : Nat) (xs : List Hash) :
    perfectRoot d (xs ++ List.replicate n blank) = perfectRoot d xs := by
  induction n with
  | zero => rw [List.replicate_zero, List.append_nil]
  | succ n ih =>
    rw [List.replicate_succ', ← List.append_assoc, perfectRoot_append_blank, ih]

/-- `append` on the object itself: what it ends in, and the tree that is then there. -/
def appendInPlace (Depth : Nat) (t : IncrementalMerkleTree Hash) (obj : Hash) :
    Except String Unit × IncrementalMerkleTree Hash :=
  if t.isComplete Depth then (.error "tree is full", t)
  else match t.left, t.right with
    | none, _ => (.ok (), { t with left := some obj })
    | some _, none => (.ok (), { t with right := some obj })
    | some l, some r =>
      let t := { t with left := some obj, right := none }
      (.ok (), { t with parents := carry Depth t.parents (combine l r) })

private theorem appendInPlace_eq (Depth : Nat) (t : IncrementalMerkleTree Hash) (obj : Hash) :
    appendInPlace Depth t obj =
      match t.append Depth obj with
      | .ok next => (.ok (), next)
      | .error message => (.error message, t) := by
  -- an append that throws has not touched the tree
  unfold appendInPlace IncrementalMerkleTree.append
  by_cases complete : t.isComplete Depth = true
  · rw [if_pos complete, if_pos complete]
  · rw [if_neg complete, if_neg complete]
    obtain ⟨left, right, parents⟩ := t
    cases left with
    | none => rfl
    | some l => cases right <;> rfl

/-- The root of the tree rebuilt from notes of heights `1, …, n` in any order is the root
of the perfect tree over their commitments and blank leaves. A tree that has as many
leaves as it can hold refuses a further one and stays as it is. -/
theorem local_root_correct {notes chain : List (NoteCiphertext Hash)} (perm : notes.Perm chain)
    (contiguous : Contiguous chain) (fits : chain.length ≤ 2 ^ treeDepth) :
    (∃ tree, getMerkle notes = .ok tree ∧
      tree.root treeDepth =
        perfectRoot treeDepth (chain.map (·.noteCommitment) ++
          List.replicate (2 ^ treeDepth - chain.length) blank)) ∧
      ∀ (leaves : List Hash) (full : IncrementalMerkleTree Hash) (next : Hash),
        leaves.length = 2 ^ treeDepth →
        IncrementalMerkleTree.empty.appendAll treeDepth leaves = .ok full →
        appendInPlace treeDepth full next = (.error "tree is full", full) := by
  constructor
  · have size : (chain.map (·.noteCommitment)).length = chain.length := List.length_map _
    obtain ⟨tree, appended, holds⟩ := holds_empty.appendAll treeDepth_pos
      (chain.map (·.noteCommitment)) (by rw [size, List.length_nil]; omega)
    rw [List.nil_append] at holds
    refine ⟨tree, ?_, ?_⟩
    · rw [getMerkle_perm perm contiguous, appended]
    · rw [perfectRoot_append_blanks, holds.root treeDepth_pos (by rw [size]; exact fits)]
  · intro leaves full next size appended
    have empty : ([] : List Hash).length ≤ 2 ^ treeDepth := Nat.zero_le _
    obtain ⟨-, holds⟩ := holds_empty.fits_of_appendAll treeDepth_pos empty appended
    rw [List.nil_append] at holds
    rw [appendInPlace_eq, holds.append_full treeDepth_pos size next]

/-- Two notes, the later one stored first. -/
theorem local_root_correct_two :
    (∃ tree, getMerkle [secondNote, firstNote] = .ok tree ∧
      tree.root treeDepth =
        perfectRoot treeDepth ([firstNote, secondNote].map (·.noteCommitment) ++
          List.replicate (2 ^ treeDepth - 2) blank)) ∧
      ∀ (leaves : List (BitVec 256)) (full : IncrementalMerkleTree (BitVec 256))
        (next : BitVec 256), leaves.length = 2 ^ treeDepth →
        IncrementalMerkleTree.empty.appendAll treeDepth leaves = .ok full →
        appendInPlace treeDepth full next = (.error "tree is full", full) :=
  local_root_correct (List.Perm.swap _ _ _) rfl (by decide)

end CbDaemon.JoinSplit.LocalTree
