/- module: CbDaemon/Wallet/Witness
   source: src/cblib/note.cpp
   digest: When the witness built for a stored note leads to the requested root. -/

import CbDaemon.Merkle.TreeWitness
import CbDaemon.Wallet.Consistency

set_option autoImplicit false
set_option relaxedAutoImplicit false

namespace CbDaemon.Wallet.Witness
open Base.Machine Base.Sorting Notes Sync Consistency
open Merkle.PerfectTree Merkle.IncrementalTree Merkle.TreeWitness
open TreeHash (blank)

/-- `INCREMENTAL_MERKLE_TREE_DEPTH`. -/
def treeDepth : Nat := 29

theorem treeDepth_pos : 0 < treeDepth := by decide

variable {Hash : Type}

private theorem filter_key_eq {Key : Type} [DecidableEq Key] (key : NoteCiphertext Hash → Key)
    {notes chain : List (NoteCiphertext Hash)} {note : NoteCiphertext Hash}
    (perm : notes.Perm chain) (unique : (chain.map key).Nodup) (mem : note ∈ chain) :
    notes.filter (key · = key note) = [note] := by
  have only : chain.filter (key · = key note) = [note] := by
    obtain ⟨front, back, rfl⟩ := List.append_of_mem mem
    have others : ∀ other ∈ front ++ back, ¬ key other = key note := by
      rw [List.map_append, List.map_cons, List.nodup_middle, List.nodup_cons, ← List.map_append]
        at unique
      intro other inside same
      exact unique.1 (same ▸ List.mem_map_of_mem inside)
    have noFront : front.filter (key · = key note) = [] := by
      apply List.filter_eq_nil_iff.mpr
      intro other inside
      simpa using others other (List.mem_append_left _ inside)
    have noBack : back.filter (key · = key note) = [] := by
      apply List.filter_eq_nil_iff.mpr
      intro other inside
      simpa using others other (List.mem_append_right _ inside)
    rw [List.filter_append, List.filter_cons_of_pos (by simp), noFront, noBack, List.nil_append]
  have both := perm.filter (key · = key note)
  rw [only] at both
  exact List.perm_singleton.mp both

theorem latestHeight_perm {notes chain : List (NoteCiphertext Hash)} (perm : notes.Perm chain) :
    latestHeight notes = latestHeight chain := by
  have heights := perm.map (·.noteHeight)
  have top : (notes.map (·.noteHeight)).max? = (chain.map (·.noteHeight)).max? := by
    apply Option.ext
    intro height
    rw [List.max?_eq_some_iff, List.max?_eq_some_iff, heights.mem_iff]
    exact and_congr_right fun _ => ⟨fun most other mem => most other (heights.mem_iff.mpr mem),
      fun most other mem => most other (heights.mem_iff.mp mem)⟩
  rw [latestHeight, latestHeight, top]

variable [TreeHash Hash]

/-- The rebuild loop over the heights `1, …`; `none` when a height is missing. -/
def reconstruct (notes : List (NoteCiphertext Hash)) :
    List Nat → IncrementalMerkleTree Hash → Except String (Option (IncrementalMerkleTree Hash))
  | [], tree => .ok (some tree)
  | height :: heights, tree =>
    match queryNoteOne height notes with
    | [] => .ok none
    | found :: _ =>
      match tree.append treeDepth found.noteCommitment with
      | .error message => .error message
      | .ok tree => reconstruct notes heights tree

/-- The rebuild over some heights of a collection appends the commitments of the
notes there. -/
theorem reconstruct_eq {notes chain : List (NoteCiphertext Hash)} (perm : notes.Perm chain)
    (contiguous : Contiguous chain) (m s : Nat) (inside : s + m ≤ chain.length)
    (tree : IncrementalMerkleTree Hash) :
    reconstruct notes (List.range' (s + 1) m) tree =
      (tree.appendAll treeDepth (((chain.drop s).take m).map (·.noteCommitment))).map some := by
  induction m generalizing s tree with
  | zero => rfl
  | succ m ih =>
    obtain ⟨note, found⟩ : ∃ note, chain[s]? = some note :=
      ⟨_, List.getElem?_eq_getElem (by omega)⟩
    have height : note.noteHeight = s + 1 := by
      rw [noteHeight_of_heights contiguous found, Nat.add_comm]
    have mem : note ∈ chain := List.mem_of_getElem? found
    have unique : (chain.map (·.noteHeight)).Nodup := by
      rw [contiguous]
      exact List.nodup_range'
    have one : queryNoteOne (s + 1) notes = [note] := by
      rw [← height]
      exact filter_key_eq (·.noteHeight) perm unique mem
    have split : chain.drop s = note :: chain.drop (s + 1) := by
      obtain ⟨below, rfl⟩ := List.getElem?_eq_some_iff.mp found
      exact List.drop_eq_getElem_cons below
    rw [List.range'_succ, reconstruct, one, split, List.take_succ_cons, List.map_cons,
      IncrementalMerkleTree.appendAll, List.foldlM_cons]
    simp only
    cases appended : tree.append treeDepth note.noteCommitment with
    | error message => rfl
    | ok next => exact ih (s + 1) (by omega) next

omit [TreeHash Hash] in
private theorem above_perm {notes chain : List (NoteCiphertext Hash)} (perm : notes.Perm chain)
    (contiguous : Contiguous chain) {note : NoteCiphertext Hash} {j : Nat}
    (found : chain[j]? = some note) :
    (queryNoteAbove note.noteHeight notes).Perm (chain.drop (j + 1)) := by
  -- the notes above a stored one are the rest of the chain
  obtain ⟨inside, _⟩ := List.getElem?_eq_some_iff.mp found
  have size : (chain.take (j + 1)).length = j + 1 := List.length_take_of_le inside
  have split := contiguous
  rw [← List.take_append_drop (j + 1) chain] at split
  have above := (filter_above_append split).1
  rw [size, List.take_append_drop] at above
  rw [queryNoteAbove, noteHeight_of_heights contiguous found, Nat.add_comm, ← above]
  exact perm.filter _

/-- The tree up to a stored note can be rebuilt, and its witness follows all later
notes in the order of the query. -/
private theorem exists_followed {notes chain : List (NoteCiphertext Hash)} (perm : notes.Perm chain)
    (contiguous : Contiguous chain) (fits : chain.length ≤ 2 ^ treeDepth)
    {note : NoteCiphertext Hash} {j : Nat} (found : chain[j]? = some note) :
    ∃ tree witness,
      reconstruct notes (List.range' 1 note.noteHeight) .empty = .ok (some tree) ∧
      (IncrementalWitness.ofTree tree).appendAll treeDepth
        ((queryNoteAbove note.noteHeight notes).map (·.noteCommitment)) = .ok witness ∧
      witness.tree = tree ∧ Holds tree ((chain.take (j + 1)).map (·.noteCommitment)) ∧
      Follows treeDepth witness ((chain.take (j + 1)).map (·.noteCommitment))
        ((queryNoteAbove note.noteHeight notes).map (·.noteCommitment)) := by
  obtain ⟨inside, _⟩ := List.getElem?_eq_some_iff.mp found
  have above := (above_perm perm contiguous found).length_eq
  rw [List.length_drop] at above
  have room : ([] : List Hash).length +
      ((chain.take (j + 1)).map (·.noteCommitment)).length ≤ 2 ^ treeDepth := by
    rw [List.length_map, List.length_take_of_le inside, List.length_nil]
    omega
  obtain ⟨tree, appended, holds⟩ := holds_empty.appendAll treeDepth_pos _ room
  rw [List.nil_append] at holds
  have rebuilt : reconstruct notes (List.range' 1 note.noteHeight) .empty = .ok (some tree) := by
    have loop := reconstruct_eq perm contiguous (j + 1) 0 (by omega) .empty
    rw [List.drop_zero, appended] at loop
    rw [noteHeight_of_heights contiguous found, Nat.add_comm]
    exact loop
  have levels := holds.parents_lt treeDepth_pos (by simpa using room)
  obtain ⟨witness, followed, frozen, follows⟩ := (follows_ofTree holds levels).appendAll
    ((queryNoteAbove note.noteHeight notes).map (·.noteCommitment)) (by
      rw [List.length_map, List.length_map, List.length_take_of_le inside, List.length_nil]
      omega)
  exact ⟨tree, witness, rebuilt, followed, frozen, holds, follows⟩

/-- A notes collection in any order, with the same notes by height: each root is
that of the tree over the commitments so far. -/
structure Chain (notes chain : List (NoteCiphertext Hash)) : Prop where
  perm : notes.Perm chain
  heights : Contiguous chain
  commitments : (chain.map (·.noteCommitment)).Nodup
  roots : (chain.map (·.noteRoot)).Nodup
  recorded : ∀ k note, chain[k]? = some note → ∃ tree,
    IncrementalMerkleTree.empty.appendAll treeDepth
        ((chain.take (k + 1)).map (·.noteCommitment)) = .ok tree ∧
      note.noteRoot = tree.root treeDepth

namespace Chain

variable {notes chain : List (NoteCiphertext Hash)} {note other : NoteCiphertext Hash} {j k : Nat}

theorem fits (valid : Chain notes chain) : chain.length ≤ 2 ^ treeDepth := by
  cases last : chain[chain.length - 1]? with
  | none =>
    have short := List.getElem?_eq_none_iff.mp last
    have : 0 < 2 ^ treeDepth := Nat.two_pow_pos _
    omega
  | some note =>
    obtain ⟨tree, appended, _⟩ := valid.recorded _ note last
    have bound := (holds_empty.fits_of_appendAll treeDepth_pos (Nat.zero_le _) appended).1
    rw [List.take_of_length_le (by omega), List.length_map] at bound
    simpa using bound

private theorem noteRoot_eq (valid : Chain notes chain) (found : chain[k]? = some note) :
    note.noteRoot =
      perfectRoot treeDepth ((chain.take (k + 1)).map (·.noteCommitment)) := by
  obtain ⟨tree, appended, same⟩ := valid.recorded k note found
  obtain ⟨room, holds⟩ := holds_empty.fits_of_appendAll treeDepth_pos (Nat.zero_le _) appended
  rw [same, holds.root treeDepth_pos (by simpa using room), List.nil_append]

end Chain

variable [DecidableEq Hash]

/-- `note_witness_merkle`: the result and the witness left in the argument. -/
def noteWitnessMerkle (commitment root : Hash) (witness : IncrementalWitness Hash)
    (notes : List (NoteCiphertext Hash)) : Except String (Bool × IncrementalWitness Hash) :=
  match queryNoteCommitment commitment notes with
  | [] => .ok (false, witness)
  | found :: _ =>
    match reconstruct notes (List.range' 1 found.noteHeight) .empty with
    | .error message => .error message
    | .ok none => .ok (false, witness)
    | .ok (some tree) =>
      -- the copy cut at the height of the root and sorted is never used
      let witnessAppend := queryNoteAbove found.noteHeight notes
      match queryNoteRoot root notes with
      | [] => .ok (false, .ofTree tree)
      | _ :: _ =>
        match (IncrementalWitness.ofTree tree).appendAll treeDepth
            (witnessAppend.map (·.noteCommitment)) with
        | .error message => .error message
        | .ok witness => .ok (true, witness)

/-- The call succeeds with a witness of the commitment that leads to the root. -/
def Witnesses (notes : List (NoteCiphertext Hash)) (commitment root : Hash)
    (start : IncrementalWitness Hash) : Prop :=
  ∃ witness, noteWitnessMerkle commitment root start notes = .ok (true, witness) ∧
    witness.element = .ok commitment ∧ witness.root treeDepth = root

section

variable {notes chain : List (NoteCiphertext Hash)} {note anchor : NoteCiphertext Hash} {j k : Nat}

/-- For every stored note and recorded root the call succeeds with a witness of
the note; its root is over the notes up to this one and then all later ones, in
the order of the query. -/
theorem Chain.noteWitnessMerkle_eq (valid : Chain notes chain) (found : chain[j]? = some note)
    (anchored : chain[k]? = some anchor) (start : IncrementalWitness Hash) :
    ∃ witness, noteWitnessMerkle note.noteCommitment anchor.noteRoot start notes =
        .ok (true, witness) ∧
      witness.element = .ok note.noteCommitment ∧
      witness.root treeDepth = perfectRoot treeDepth
        ((chain.take (j + 1) ++ queryNoteAbove note.noteHeight notes).map (·.noteCommitment)) := by
  have byCommitment : queryNoteCommitment note.noteCommitment notes = [note] :=
    filter_key_eq (·.noteCommitment) valid.perm valid.commitments (List.mem_of_getElem? found)
  have byRoot : queryNoteRoot anchor.noteRoot notes = [anchor] :=
    filter_key_eq (·.noteRoot) valid.perm valid.roots (List.mem_of_getElem? anchored)
  obtain ⟨tree, witness, rebuilt, followed, frozen, holds, follows⟩ :=
    exists_followed valid.perm valid.heights valid.fits found
  refine ⟨witness, ?_, ?_, ?_⟩
  · simp only [noteWitnessMerkle, byCommitment, byRoot, rebuilt, followed]
  · obtain ⟨below, rfl⟩ := List.getElem?_eq_some_iff.mp found
    rw [List.take_succ_eq_append_getElem below, List.map_append] at holds
    rw [IncrementalWitness.element, frozen]
    exact holds.last
  · rw [follows.root_eq, List.map_append]

theorem exists_noteWitnessMerkle (contiguous : Contiguous notes)
    (fits : notes.length ≤ 2 ^ treeDepth) (commitment root : Hash)
    (start : IncrementalWitness Hash) :
    ∃ result, noteWitnessMerkle commitment root start notes = .ok result := by
  rw [noteWitnessMerkle]
  cases queried : queryNoteCommitment commitment notes with
  | nil => exact ⟨_, rfl⟩
  | cons found others =>
    have mem : found ∈ notes := by
      have listed : found ∈ queryNoteCommitment commitment notes := by simp [queried]
      exact (List.mem_filter.mp listed).1
    obtain ⟨j, place⟩ := List.mem_iff_getElem?.mp mem
    obtain ⟨tree, witness, rebuilt, followed, _⟩ :=
      exists_followed (List.Perm.refl notes) contiguous fits place
    simp only [rebuilt, followed]
    cases queryNoteRoot root notes with
    | nil => exact ⟨_, rfl⟩
    | cons _ _ => exact ⟨_, rfl⟩

omit [TreeHash Hash] [DecidableEq Hash] in
private theorem eq_of_map_eq {Key : Type} {key : NoteCiphertext Hash → Key}
    {all first second : List (NoteCiphertext Hash)} (unique : (all.map key).Nodup)
    (inFirst : first ⊆ all) (inSecond : second ⊆ all) (same : first.map key = second.map key) :
    first = second := by
  induction first generalizing second with
  | nil => simpa using same.symm
  | cons x first ih =>
    cases second with
    | nil => cases same
    | cons y second =>
      rw [List.map_cons, List.map_cons, List.cons.injEq] at same
      rw [List.cons_subset] at inFirst inSecond
      rw [List.inj_on_of_nodup_map unique inFirst.1 inSecond.1 same.1,
        ih inFirst.2 inSecond.2 same.2]

omit [DecidableEq Hash] in
private theorem Chain.perfectRoot_ne (valid : Chain notes chain)
    (anchored : chain[k]? = some anchor)
    (more : k + 1 < chain.length) :
    perfectRoot treeDepth ((chain.take (k + 2)).map (·.noteCommitment)) ≠
      perfectRoot treeDepth ((chain.take (k + 1)).map (·.noteCommitment)) := by
  -- one more commitment changes the root
  have next : chain[k + 1]? = some chain[k + 1] := List.getElem?_eq_getElem more
  rw [← valid.noteRoot_eq next, ← valid.noteRoot_eq anchored]
  intro same
  obtain ⟨inside, rfl⟩ := List.getElem?_eq_some_iff.mp anchored
  have indices := List.inj_on_of_nodup_map valid.roots (List.getElem_mem more)
    (List.getElem_mem inside) same
  have distinct := (List.Nodup.of_map _ valid.roots).getElem_inj_iff.mp indices
  omega

omit [DecidableEq Hash] in
theorem Chain.strict (valid : Chain notes chain) :
    chain.Pairwise (·.noteHeight < ·.noteHeight) :=
  pairwise_of_heights valid.heights

/-- Under the newest root, with the later notes in ascending order, every stored
note has its witness. -/
theorem Chain.witnesses (valid : Chain notes chain) (found : chain[j]? = some note)
    (anchored : chain[k]? = some anchor) (newest : k + 1 = chain.length)
    (ascending : (queryNoteAbove note.noteHeight notes).Pairwise (·.noteHeight < ·.noteHeight))
    (start : IncrementalWitness Hash) :
    Witnesses notes note.noteCommitment anchor.noteRoot start := by
  obtain ⟨witness, returned, element, root⟩ := valid.noteWitnessMerkle_eq found anchored start
  have same : queryNoteAbove note.noteHeight notes = chain.drop (j + 1) :=
    eq_of_ascending (above_perm valid.perm valid.heights found) (ascending.imp Nat.le_of_lt) valid.strict.drop
  refine ⟨witness, returned, element, ?_⟩
  rw [root, same, List.take_append_drop, valid.noteRoot_eq anchored, newest, List.take_length]

theorem Chain.newest_or_collision (valid : Chain notes chain) (found : chain[j]? = some note)
    (anchored : chain[k]? = some anchor) {start : IncrementalWitness Hash}
    (witnesses : Witnesses notes note.noteCommitment anchor.noteRoot start) :
    (k + 1 = chain.length ∧
        (queryNoteAbove note.noteHeight notes).Pairwise (·.noteHeight < ·.noteHeight)) ∨
      Collision
        (hashedPairs treeDepth ((chain.take (j + 1) ++
          queryNoteAbove note.noteHeight notes).map (·.noteCommitment)))
        (hashedPairs treeDepth ((chain.take (k + 1)).map (·.noteCommitment))) := by
  obtain ⟨other, again, _, leads⟩ := witnesses
  obtain ⟨witness, returned, _, root⟩ := valid.noteWitnessMerkle_eq found anchored start
  have above := above_perm valid.perm valid.heights found
  have whole := List.take_append_drop (j + 1) chain
  rw [returned] at again
  cases again
  rw [root, valid.noteRoot_eq anchored] at leads
  rcases leaves_eq_or_collision treeDepth leads with leaves | collision
  · left
    obtain ⟨inside, _⟩ := List.getElem?_eq_some_iff.mp anchored
    have rearranged : (chain.take (j + 1) ++ queryNoteAbove note.noteHeight notes).Perm chain := by
      nth_rewrite 2 [← whole]
      exact above.append_left _
    have fresh := fun more => valid.perfectRoot_ne anchored more
    obtain ⟨newest, same⟩ := eq_of_padded_eq treeDepth (k + 1)
      (rearranged.map (·.noteCommitment)) valid.commitments
      (by simpa using valid.fits) (by rw [List.length_map]; exact inside)
      (by simpa [List.map_take] using leaves) (by simpa [List.map_take] using fresh)
    rw [List.length_map] at newest
    refine ⟨newest, ?_⟩
    have notes_eq := eq_of_map_eq valid.commitments rearranged.subset (List.Subset.refl chain) same
    have rest : queryNoteAbove note.noteHeight notes = chain.drop (j + 1) := by
      nth_rewrite 2 [← whole] at notes_eq
      exact List.append_cancel_left notes_eq
    rw [rest]
    exact valid.strict.drop
  · right
    exact collision

/-- If the anchor is the newest note and the query returns the later notes by
ascending height, the witness leads to the requested root. Conversely a witness
that leads there, other than through a collision of the hash, comes from such a
collection. -/
theorem noteWitnessMerkle_root_iff (valid : Chain notes chain) (found : chain[j]? = some note)
    (anchored : chain[k]? = some anchor) (start : IncrementalWitness Hash) :
    (k + 1 = chain.length ∧
        (queryNoteAbove note.noteHeight notes).Pairwise (·.noteHeight < ·.noteHeight) →
      Witnesses notes note.noteCommitment anchor.noteRoot start) ∧
    (Witnesses notes note.noteCommitment anchor.noteRoot start →
      (k + 1 = chain.length ∧
        (queryNoteAbove note.noteHeight notes).Pairwise (·.noteHeight < ·.noteHeight)) ∨
      Collision
        (hashedPairs treeDepth ((chain.take (j + 1) ++
          queryNoteAbove note.noteHeight notes).map (·.noteCommitment)))
        (hashedPairs treeDepth ((chain.take (k + 1)).map (·.noteCommitment)))) := by
  constructor
  · rintro ⟨newest, ascending⟩
    exact valid.witnesses found anchored newest ascending start
  · exact valid.newest_or_collision found anchored

end

/-! Two notes under a small order-sensitive hash. -/

instance sampleTreeHash : TreeHash (BitVec 256) := ⟨fun left right => 2 * left + 3 * right, 0⟩

def firstTree : IncrementalMerkleTree (BitVec 256) :=
  ⟨some (sampleNote 1).noteCommitment, none, []⟩

def secondTree : IncrementalMerkleTree (BitVec 256) :=
  ⟨some (sampleNote 1).noteCommitment, some (sampleNote 2).noteCommitment, []⟩

def firstNote : NoteCiphertext (BitVec 256) :=
  { sampleNote 1 with noteRoot := firstTree.root treeDepth }

def secondNote : NoteCiphertext (BitVec 256) :=
  { sampleNote 2 with noteRoot := secondTree.root treeDepth }

private theorem two_notes_chain : Chain [firstNote, secondNote] [firstNote, secondNote] where
  perm := List.Perm.refl _
  heights := rfl
  commitments := by decide
  roots := by decide +kernel
  recorded k note found := by
    rcases k with _ | _ | k
    · cases found
      exact ⟨firstTree, rfl, rfl⟩
    · cases found
      exact ⟨secondTree, rfl, rfl⟩
    · simp at found

/-- The newest root has a witness of the first note. -/
theorem witnesses_newest_root :
    Witnesses [firstNote, secondNote] firstNote.noteCommitment secondNote.noteRoot .empty :=
  (noteWitnessMerkle_root_iff (j := 0) (k := 1) two_notes_chain rfl rfl .empty).1
    ⟨rfl, by decide⟩

/-- With the second note stored, the witness of the first leads to the second
root, not to the first one that was asked for. -/
theorem not_witnesses_older_root :
    Chain [firstNote, secondNote] [firstNote, secondNote] ∧
      ¬ Witnesses [firstNote, secondNote] firstNote.noteCommitment firstNote.noteRoot .empty := by
  refine ⟨two_notes_chain, ?_⟩
  rintro ⟨witness, returned, _, leads⟩
  have actual : noteWitnessMerkle firstNote.noteCommitment firstNote.noteRoot .empty
      [firstNote, secondNote] = .ok (true, ⟨firstTree, [secondNote.noteCommitment], none, 0⟩) := by
    decide +kernel
  rw [actual] at returned
  cases returned
  exact absurd leads (by decide +kernel)

end CbDaemon.Wallet.Witness
