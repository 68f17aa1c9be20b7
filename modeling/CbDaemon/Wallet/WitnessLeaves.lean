/- module: CbDaemon/Wallet/WitnessLeaves
   source: src/cblib/note.cpp (note_witness_merkle)
   digest: The stored notes that a witness is built over, and the root they lead to. -/

import CbDaemon.Wallet.Witness

set_option autoImplicit false
set_option relaxedAutoImplicit false

namespace CbDaemon.Wallet.WitnessLeaves
open Notes Sync Witness
open Merkle.PerfectTree Merkle.IncrementalTree Merkle.TreeWitness

variable {Hash : Type}

/-- The notes that a rebuild takes, the first one found at each height. -/
def storedAt (notes : List (NoteCiphertext Hash)) (heights : List Nat) :
    Option (List (NoteCiphertext Hash)) :=
  heights.mapM fun height => (queryNoteOne height notes).head?

private theorem le_latestHeight {notes : List (NoteCiphertext Hash)} {note : NoteCiphertext Hash}
    (mem : note ∈ notes) : note.noteHeight ≤ latestHeight notes := by
  have listed : note.noteHeight ∈ notes.map (·.noteHeight) := List.mem_map_of_mem mem
  rw [latestHeight]
  cases top : (notes.map (·.noteHeight)).max? with
  | none =>
    rw [List.max?_eq_none_iff.mp top] at listed
    cases listed
  | some height => exact (List.max?_eq_some_iff.mp top).2 _ listed

section

variable [TreeHash Hash] {notes : List (NoteCiphertext Hash)}

private theorem reconstruct_append {first second : List Nat} {tree : IncrementalMerkleTree Hash}
    {result : Option (IncrementalMerkleTree Hash)}
    (ok : reconstruct notes (first ++ second) tree = .ok result) :
    ∃ result, reconstruct notes first tree = .ok result := by
  induction first generalizing tree with
  | nil => exact ⟨_, rfl⟩
  | cons height first ih =>
    rw [List.cons_append, reconstruct] at ok
    rw [reconstruct]
    split at ok
    · exact ⟨_, rfl⟩
    · split at ok
      · cases ok
      · exact ih ok

private theorem reconstruct_cases {heights : List Nat} {tree : IncrementalMerkleTree Hash}
    {result : Option (IncrementalMerkleTree Hash)}
    (ok : reconstruct notes heights tree = .ok result) :
    (result = none ∧ storedAt notes heights = none) ∨
      ∃ next below, result = some next ∧ storedAt notes heights = some below ∧
        tree.appendAll treeDepth (below.map (·.noteCommitment)) = .ok next := by
  induction heights generalizing tree with
  | nil =>
    cases ok
    exact .inr ⟨tree, [], rfl, rfl, rfl⟩
  | cons height heights ih =>
    rw [reconstruct] at ok
    rw [storedAt, List.mapM_cons]
    cases queried : queryNoteOne height notes with
    | nil =>
      rw [queried] at ok
      cases ok
      exact .inl ⟨rfl, rfl⟩
    | cons found others =>
      rw [queried] at ok
      cases appended : tree.append treeDepth found.noteCommitment with
      | error message => simp [appended] at ok
      | ok grown =>
        simp only [appended] at ok
        rcases ih ok with ⟨missing, none_⟩ | ⟨next, below, rfl, stored, rest⟩
        · rw [storedAt] at none_
          exact .inl ⟨missing, by simp [none_]⟩
        · rw [storedAt] at stored
          refine .inr ⟨next, found :: below, rfl, by simp [stored], ?_⟩
          rw [IncrementalMerkleTree.appendAll] at rest
          rw [IncrementalMerkleTree.appendAll, List.map_cons, List.foldlM_cons, appended]
          exact rest

end

variable [DecidableEq Hash]

/-- The notes a witness is built over: those up to the first stored note with the
commitment, and, if the root is recorded at all, the later ones as the query returns them. -/
def witnessNotes (commitment root : Hash) (notes : List (NoteCiphertext Hash)) :
    Option (List (NoteCiphertext Hash) × List (NoteCiphertext Hash)) := do
  let note ← (queryNoteCommitment commitment notes).head?
  let below ← storedAt notes (List.range' 1 note.noteHeight)
  return (below, if (queryNoteRoot root notes).isEmpty then []
    else queryNoteAbove note.noteHeight notes)

def WitnessFits (notes : List (NoteCiphertext Hash)) (commitment root : Hash) : Prop :=
  ∀ below above, witnessNotes commitment root notes = some (below, above) →
    below.length + above.length ≤ 2 ^ treeDepth

variable [TreeHash Hash]

/-- The notes of the witness have the root that is asked for, and the last of those
frozen in its tree is the one with the commitment. -/
def Leads (notes : List (NoteCiphertext Hash)) (commitment root : Hash) : Prop :=
  ∃ below above, witnessNotes commitment root notes = some (below, above) ∧
    below.getLast?.map (·.noteCommitment) = some commitment ∧
    perfectRoot treeDepth ((below ++ above).map (·.noteCommitment)) = root

variable {notes : List (NoteCiphertext Hash)} {commitment root : Hash}

omit [DecidableEq Hash] in
private theorem element_iff (commitment : Hash) {tree : IncrementalMerkleTree Hash}
    {below : List (NoteCiphertext Hash)} (holds : Holds tree (below.map (·.noteCommitment))) :
    tree.last = .ok commitment ↔ below.getLast?.map (·.noteCommitment) = some commitment := by
  rcases List.eq_nil_or_concat below with rfl | ⟨front, last, rfl⟩
  · obtain ⟨ys, _, shape⟩ := holds.blocks
    cases isLeft : tree.left with
    | some l => simp [isLeft] at shape
    | none =>
      have noRight := (holds.leftFirst isLeft).1
      simp [IncrementalMerkleTree.last, isLeft, noRight]
  · rw [List.concat_eq_append, List.map_append] at holds
    rw [List.concat_eq_append, holds.last]
    simp

omit [DecidableEq Hash] in
private theorem reconstruct_upTo {note : NoteCiphertext Hash} (mem : note ∈ notes)
    (rebuilt : ∃ result, reconstruct notes (List.range' 1 (latestHeight notes)) .empty =
      .ok result) :
    ∃ result, reconstruct notes (List.range' 1 note.noteHeight) .empty = .ok result := by
  obtain ⟨whole, reached⟩ := rebuilt
  have bound := le_latestHeight mem
  have split : List.range' 1 (latestHeight notes) = List.range' 1 note.noteHeight ++
      List.range' (1 + note.noteHeight) (latestHeight notes - note.noteHeight) := by
    rw [List.range'_append_1]
    congr 1
    omega
  rw [split] at reached
  exact reconstruct_append reached

omit [DecidableEq Hash] in
private theorem appendAll_ofTree_spec {tree : IncrementalMerkleTree Hash} {xs : List Hash}
    (follows : Follows treeDepth (.ofTree tree) xs []) (room : xs.length ≤ 2 ^ treeDepth)
    (ys : List Hash) :
    if xs.length + ys.length ≤ 2 ^ treeDepth then
      ∃ witness, (IncrementalWitness.ofTree tree).appendAll treeDepth ys = .ok witness ∧
        witness.element = tree.last ∧ witness.root treeDepth = perfectRoot treeDepth (xs ++ ys)
    else ∃ message, (IncrementalWitness.ofTree tree).appendAll treeDepth ys = .error message := by
  by_cases fits : xs.length + ys.length ≤ 2 ^ treeDepth
  · obtain ⟨witness, followed, frozen, later⟩ := follows.appendAll ys (by simpa using fits)
    rw [if_pos fits]
    refine ⟨witness, followed, ?_, later.root_eq⟩
    rw [IncrementalWitness.element, frozen]
    rfl
  · rw [if_neg fits]
    cases followed : (IncrementalWitness.ofTree tree).appendAll treeDepth ys with
    | error message => exact ⟨message, rfl⟩
    | ok witness =>
      have room' := follows.fits_of_appendAll (by simpa using room) followed
      exact absurd (by simpa using room') fits

/-- Where the local tree can be rebuilt, the witness of a commitment is built exactly
when its notes fit. It is the default one if a note is missing, and otherwise stands
for its notes. -/
private theorem noteWitnessMerkle_spec (commitment root : Hash) (start : IncrementalWitness Hash)
    (rebuilt : ∃ result, reconstruct notes (List.range' 1 (latestHeight notes)) .empty =
      .ok result) :
    match witnessNotes commitment root notes with
    | none => noteWitnessMerkle commitment root start notes = .ok (false, start)
    | some (below, above) =>
      if below.length + above.length ≤ 2 ^ treeDepth then
        ∃ found witness, noteWitnessMerkle commitment root start notes = .ok (found, witness) ∧
          (witness.element = .ok commitment ↔
            below.getLast?.map (·.noteCommitment) = some commitment) ∧
          witness.root treeDepth =
            perfectRoot treeDepth ((below ++ above).map (·.noteCommitment))
      else ∃ message, noteWitnessMerkle commitment root start notes = .error message := by
  cases queried : queryNoteCommitment commitment notes with
  | nil =>
    have value : witnessNotes commitment root notes = none := by simp [witnessNotes, queried]
    rw [value, noteWitnessMerkle, queried]
  | cons note others =>
    have mem : note ∈ notes := by
      have listed : note ∈ queryNoteCommitment commitment notes := by simp [queried]
      exact (List.mem_filter.mp listed).1
    obtain ⟨result, part⟩ := reconstruct_upTo mem rebuilt
    rcases reconstruct_cases part with ⟨rfl, missing⟩ | ⟨tree, below, rfl, stored, appended⟩
    · have value : witnessNotes commitment root notes = none := by
        simp [witnessNotes, queried, missing]
      rw [value, noteWitnessMerkle, queried]
      simp only [part]
    · obtain ⟨room, holds⟩ := holds_empty.fits_of_appendAll treeDepth_pos (Nat.zero_le _) appended
      rw [List.nil_append] at holds
      rw [List.length_nil, Nat.zero_add, List.length_map] at room
      have levels := holds.parents_lt treeDepth_pos (by simpa using room)
      have follows := follows_ofTree holds levels
      have element := element_iff commitment holds
      cases recorded : queryNoteRoot root notes with
      | nil =>
        have value : witnessNotes commitment root notes = some (below, []) := by
          simp [witnessNotes, queried, stored, recorded]
        rw [value, noteWitnessMerkle, queried]
        simp only [part, recorded, List.length_nil, Nat.add_zero, room, if_true]
        refine ⟨_, _, rfl, element, ?_⟩
        rw [follows.root_eq, List.append_nil, List.append_nil]
      | cons _ _ =>
        have value : witnessNotes commitment root notes =
            some (below, queryNoteAbove note.noteHeight notes) := by
          simp [witnessNotes, queried, stored, recorded]
        rw [value, noteWitnessMerkle, queried]
        simp only [part, recorded]
        have later := appendAll_ofTree_spec follows (by simpa using room)
          ((queryNoteAbove note.noteHeight notes).map (·.noteCommitment))
        rw [List.length_map, List.length_map] at later
        split at later
        · next fits =>
          obtain ⟨witness, followed, frozen, leads⟩ := later
          rw [if_pos fits, followed]
          refine ⟨_, _, rfl, ?_, ?_⟩
          · rw [frozen]
            exact element
          · rw [leads, List.map_append]
        · next full =>
          obtain ⟨message, failed⟩ := later
          rw [if_neg full, failed]
          exact ⟨message, rfl⟩

/-- The call leaves a witness that leads to the root, where one is needed, exactly when
its notes fit and have that root. -/
theorem exists_witness_iff (needed : Prop)
    (rebuilt : ∃ result, reconstruct notes (List.range' 1 (latestHeight notes)) .empty =
      .ok result) :
    (∃ found witness, noteWitnessMerkle commitment root .empty notes = .ok (found, witness) ∧
        (needed → witness.root treeDepth = root ∧ witness.element = .ok commitment)) ↔
      WitnessFits notes commitment root ∧ (needed → Leads notes commitment root) := by
  have spec := noteWitnessMerkle_spec commitment root .empty rebuilt
  unfold WitnessFits Leads
  rcases value : witnessNotes commitment root notes with _ | ⟨below, above⟩
  · rw [value] at spec
    simp only at spec
    have missing : (IncrementalWitness.empty : IncrementalWitness Hash).element ≠
        .ok commitment := by
      intro same
      cases same
    simp [spec, missing]
  · rw [value] at spec
    simp only at spec
    split at spec
    · next fits =>
      obtain ⟨found, witness, returned, element, leads⟩ := spec
      simp [returned, element, leads, fits, and_comm]
    · next beyond =>
      obtain ⟨message, thrown⟩ := spec
      simp [thrown, beyond]

omit [DecidableEq Hash] in
private theorem rebuilt_of_chain {chain : List (NoteCiphertext Hash)} (valid : Chain notes chain) :
    ∃ result, reconstruct notes (List.range' 1 (latestHeight notes)) .empty = .ok result := by
  have height : latestHeight notes = chain.length := by
    rw [latestHeight_perm valid.perm, valid.heights.latestHeight]
  have loop := reconstruct_eq valid.perm valid.heights chain.length 0 (by omega) .empty
  have room : ([] : List Hash).length + (chain.map (·.noteCommitment)).length ≤ 2 ^ treeDepth := by
    simpa using valid.fits
  obtain ⟨tree, appended, _⟩ := holds_empty.appendAll treeDepth_pos _ room
  rw [List.drop_zero, List.take_length, appended] at loop
  exact ⟨_, by rw [height]; exact loop⟩

private theorem leads_iff_witnesses {chain : List (NoteCiphertext Hash)}
    {note anchor : NoteCiphertext Hash} {j k : Nat} (valid : Chain notes chain)
    (found : chain[j]? = some note) (anchored : chain[k]? = some anchor) :
    Leads notes note.noteCommitment anchor.noteRoot ↔
      Witnesses notes note.noteCommitment anchor.noteRoot .empty := by
  have rebuilt := rebuilt_of_chain valid
  obtain ⟨witness, returned, _⟩ := valid.noteWitnessMerkle_eq found anchored .empty
  constructor
  · intro leads
    have fits := ((exists_witness_iff False rebuilt).mp ⟨true, witness, returned, False.elim⟩).1
    obtain ⟨_, _, again, spent⟩ :=
      (exists_witness_iff True rebuilt).mpr ⟨fits, fun _ => leads⟩
    rw [returned] at again
    cases again
    exact ⟨witness, returned, (spent trivial).2, (spent trivial).1⟩
  · rintro ⟨other, again, element, root⟩
    exact ((exists_witness_iff True rebuilt).mp
      ⟨true, other, again, fun _ => ⟨root, element⟩⟩).2 trivial

/-- In a collection in step with the server, the notes of a witness lead to the newest
root if the query returns the later ones by ascending height, and otherwise only through
a collision of the hash. -/
theorem leads_newest {chain : List (NoteCiphertext Hash)} {note anchor : NoteCiphertext Hash}
    {j k : Nat} (valid : Chain notes chain) (found : chain[j]? = some note)
    (anchored : chain[k]? = some anchor) (newest : k + 1 = chain.length) :
    ((queryNoteAbove note.noteHeight notes).Pairwise (·.noteHeight < ·.noteHeight) →
      Leads notes note.noteCommitment anchor.noteRoot) ∧
    (Leads notes note.noteCommitment anchor.noteRoot →
      (queryNoteAbove note.noteHeight notes).Pairwise (·.noteHeight < ·.noteHeight) ∨
      Collision
        (hashedPairs treeDepth ((chain.take (j + 1) ++
          queryNoteAbove note.noteHeight notes).map (·.noteCommitment)))
        (hashedPairs treeDepth ((chain.take (k + 1)).map (·.noteCommitment)))) := by
  rw [leads_iff_witnesses valid found anchored]
  constructor
  · intro ascending
    exact valid.witnesses found anchored newest ascending .empty
  · intro witnesses
    exact (valid.newest_or_collision found anchored witnesses).imp_left And.right

end CbDaemon.Wallet.WitnessLeaves
