/- module: CbDaemon/JoinSplit/Calls
   source: src/cblib/request_methods.cpp
   digest: Successful calls of the creator, and the collections that let them through. -/

import CbDaemon.JoinSplit.LocalTree
import CbDaemon.JoinSplit.Selection
import CbDaemon.Wallet.WitnessLeaves

set_option autoImplicit false
set_option relaxedAutoImplicit false

namespace CbDaemon.JoinSplit.Calls
open Base.Machine Base.Sorting Merkle.PerfectTree Merkle.IncrementalTree
open Wallet.Notes Wallet.Sync Wallet.Witness Wallet.WitnessLeaves
open Prove Creator LocalTree Rounds Selection

variable {Hash : Type}

/-! The candidates of a query, told apart by their places. -/

section

variable {found : List (NotePlaintextDB Hash)} {candidate other : Candidate Hash}

theorem mem_candidates :
    candidate ∈ candidates found ↔ found[candidate.position]? = some candidate.note := by
  rw [candidates, List.mem_map]
  constructor
  · rintro ⟨⟨note, position⟩, mem, rfl⟩
    exact List.mk_mem_zipIdx_iff_getElem?.mp mem
  · intro lookup
    exact ⟨(candidate.note, candidate.position), List.mk_mem_zipIdx_iff_getElem?.mpr lookup, rfl⟩

theorem eq_of_position_eq (mem : candidate ∈ candidates found) (mem' : other ∈ candidates found)
    (same : candidate.position = other.position) : candidate = other := by
  rw [mem_candidates] at mem mem'
  rw [same, mem', Option.some.injEq] at mem
  obtain ⟨position, note⟩ := candidate
  obtain ⟨position', note'⟩ := other
  cases same
  cases mem
  rfl

theorem nodup_unspent (sorting : ValueSort Hash) (found : List (NotePlaintextDB Hash)) :
    (unspent sorting (candidates found)).Nodup := by
  have positions : (candidates found).map (·.position) = List.range' 0 found.length := by
    rw [candidates, List.map_map]
    exact List.zipIdx_map_snd 0 found
  have distinct : (candidates found).Nodup := by
    apply List.Nodup.of_map (·.position)
    rw [positions]
    exact List.nodup_range'
  rw [unspent, (sorting.perm _).nodup_iff]
  exact distinct.filter _

theorem candidates_small {height : Nat} {docs : List (UserNote Hash)}
    (queried : queryUserNote height docs = some found) :
    ∀ candidate ∈ candidates found, candidate.note.value.toNat < 2 ^ 32 := by
  obtain ⟨readable, rfl⟩ := queryUserNote_eq_some.mp queried
  intro candidate mem
  obtain ⟨doc, inside, same⟩ := List.mem_map.mp (List.mem_of_getElem? (mem_candidates.mp mem))
  rw [List.mem_filter, decide_eq_true_eq] at inside
  have parses := readable doc inside.1 inside.2
  have value := toNat_content_value parses
  have bound := parses.2
  rw [← same]
  omega

theorem unspent_status (mem : candidate ∈ candidates found) :
    (∃ note, found[candidate.position]? = some note ∧ note.status = false) ↔
      candidate.note.status = false := by
  rw [mem_candidates.mp mem]
  simp

end

variable [TreeHash Hash] [DecidableEq Hash]

section

variable {request : Request Hash} {sorting : ValueSort Hash} {purge : Delete} {fuel : Nat}
  {fromValue : Int64} {userNotes : List (UserNote Hash)} {found : List (NotePlaintextDB Hash)}
  {made : List (JSDescription Hash)}

def RootCurrent (request : Request Hash) : Prop :=
  ∃ tree, getMerkle request.notes = .ok tree ∧ request.root = tree.root treeDepth

theorem joinsplitCreator_spend (nonneg : 0 ≤ fromValue) :
    joinsplitCreator request sorting purge fuel fromValue userNotes = .returned true made ↔
      RootCurrent request ∧ purge ≠ .thrown ∧
      ∃ found, queryUserNote 0 (purgeUserNotes purge userNotes).2 = some found ∧ found ≠ [] ∧
        selection request sorting fuel fromValue (candidates found) = .returned true made := by
  have spends : ¬ fromValue < 0 := Int64.not_lt.mpr nonneg
  unfold joinsplitCreator RootCurrent
  cases getMerkle request.notes with
  | error message => simp
  | ok tree =>
    by_cases current : request.root = tree.root treeDepth
    · cases purge with
      | thrown => simp [current, spends, purgeUserNotes]
      | applied | hidden =>
        simp only [current, ne_eq, not_true_eq_false, if_false, spends, purgeUserNotes]
        split
        · simp_all
        · simp_all
        · simp_all
    · simp [current]

theorem mint_true (negative : fromValue < 0)
    (returned : mint request fromValue = .returned true made) :
    Batch made [none, none] fromValue.toInt request.vpubOldTotal.toNat
      request.vpubNewTotal.toNat := by
  rw [mint] at returned
  simp only [Outcome.returned.injEq] at returned
  obtain ⟨success, rfl⟩ := returned
  obtain ⟨_, accepts⟩ := emit_finalResult.mp success
  rw [emit_of_accepts accepts, List.nil_append]
  have entering : inputValue [dummyInput request.prims (request.seeds 0),
      dummyInput request.prims (request.seeds 1)] = 0 := rfl
  have minted := toNat_neg (Int64.lt_iff_toInt_lt.mp negative)
  refine Moves.batch (accepts.moves fromValue.toInt ?_)
  change ((-fromValue).toUInt64.toNat : Int) = _
  rw [entering, minted]
  omega

theorem selected (nonneg : 0 ≤ fromValue)
    (queried : queryUserNote 0 (purgeUserNotes purge userNotes).2 = some found)
    (returned : joinsplitCreator request sorting purge fuel fromValue userNotes =
      .returned true made) :
    fromValue.toInt = fromValue.toInt.toNat ∧
      selection request sorting fuel fromValue (candidates found) = .returned true made := by
  obtain ⟨_, _, other, again, _, selects⟩ := (joinsplitCreator_spend nonneg).mp returned
  rw [queried] at again
  cases again
  have : 0 ≤ fromValue.toInt := Int64.le_iff_toInt_le.mp nonneg
  exact ⟨by omega, selects⟩

end

omit [DecidableEq Hash] in
theorem getMerkle_eq {notes : List (NoteCiphertext Hash)} (contiguous : Contiguous notes) :
    getMerkle notes =
      IncrementalMerkleTree.empty.appendAll treeDepth (notes.map (·.noteCommitment)) :=
  getMerkle_perm (List.Perm.refl notes) contiguous

/-! A notes collection in step with the server: the root is current, and every
stored note has its witness. -/

def inputNote (request : Request Hash) (candidate : Candidate Hash) : Note Hash :=
  ⟨request.prims.aPk request.aSk, candidate.note.value, candidate.note.rho, candidate.note.r⟩

/-- The witness of a selected note can be built, and, for a note that is worth something,
its notes lead to the root of the request. -/
def Led (request : Request Hash) (candidate : Candidate Hash) : Prop :=
  WitnessFits request.notes (request.prims.cm (inputNote request candidate)) request.root ∧
    (candidate.note.value ≠ 0 →
      Leads request.notes (request.prims.cm (inputNote request candidate)) request.root)

omit [DecidableEq Hash] in
private theorem rebuilt_of_current {request : Request Hash} (current : RootCurrent request) :
    ∃ result, reconstruct request.notes (List.range' 1 (latestHeight request.notes)) .empty =
      .ok result := by
  obtain ⟨tree, returned, _⟩ := current
  rw [getMerkle] at returned
  split at returned
  · cases returned
  · next none_ => exact ⟨_, none_⟩
  · next whole => exact ⟨_, whole⟩

private theorem candidateInput_eq_ok {request : Request Hash} {candidate : Candidate Hash}
    {input : JSInput Hash} : candidateInput request candidate = .ok input ↔
      ∃ found witness, noteWitnessMerkle (request.prims.cm (inputNote request candidate)) request.root
          .empty request.notes = .ok (found, witness) ∧
        ⟨witness, inputNote request candidate, request.aSk, some candidate.position⟩ = input := by
  simp only [candidateInput, inputNote]
  split
  · next returned =>
    rw [returned]
    constructor
    · rintro ⟨⟩
    · rintro ⟨_, _, ⟨⟩, _⟩
  · next found witness returned =>
    rw [returned]
    constructor
    · rintro ⟨⟩
      exact ⟨found, witness, rfl, rfl⟩
    · rintro ⟨_, _, ⟨⟩, made⟩
      rw [made]

/-- Under the root of the local tree, the inputs that can be spent are those whose
witness leads there. -/
theorem anchored_iff {request : Request Hash} (current : RootCurrent request)
    (candidate : Candidate Hash) : Anchored request candidate ↔ Led request candidate := by
  rw [Led, ← exists_witness_iff _ (rebuilt_of_current current)]
  constructor
  · rintro ⟨input, made, spends, -⟩
    obtain ⟨found, witness, returned, rfl⟩ := candidateInput_eq_ok.mp made
    exact ⟨found, witness, returned, spends⟩
  · rintro ⟨found, witness, returned, spends⟩
    exact ⟨_, candidateInput_eq_ok.mpr ⟨found, witness, returned, rfl⟩, spends, rfl⟩

structure Synced (request : Request Hash) (chain : List (NoteCiphertext Hash)) : Prop where
  valid : Chain request.notes chain
  ascending : request.notes.Pairwise (·.noteHeight < ·.noteHeight)
  newest : ∃ anchor, chain[chain.length - 1]? = some anchor ∧ request.root = anchor.noteRoot

namespace Synced

variable {request : Request Hash} {chain : List (NoteCiphertext Hash)}

omit [DecidableEq Hash] in
theorem rootCurrent (synced : Synced request chain) : RootCurrent request := by
  obtain ⟨valid, ascending, anchor, last, root⟩ := synced
  have notes_eq : request.notes = chain :=
    eq_of_ascending valid.perm (ascending.imp Nat.le_of_lt) valid.strict
  obtain ⟨inside, _⟩ := List.getElem?_eq_some_iff.mp last
  obtain ⟨tree, appended, recorded⟩ := valid.recorded _ anchor last
  rw [show chain.length - 1 + 1 = chain.length by omega, List.take_length] at appended
  refine ⟨tree, ?_, root.trans recorded⟩
  rw [notes_eq, getMerkle_eq valid.heights, appended]

theorem anchored (synced : Synced request chain) {candidate : Candidate Hash}
    (stored : request.prims.cm (inputNote request candidate) ∈ chain.map (·.noteCommitment)) :
    Anchored request candidate := by
  obtain ⟨valid, ascending, anchor, last, root⟩ := synced
  obtain ⟨note, mem, same⟩ := List.mem_map.mp stored
  obtain ⟨j, found⟩ := List.mem_iff_getElem?.mp mem
  obtain ⟨inside, _⟩ := List.getElem?_eq_some_iff.mp last
  obtain ⟨witness, returned, element, leads⟩ :=
    valid.witnesses found last (by omega) (ascending.filter _) .empty
  rw [same, ← root] at returned
  have input : candidateInput request candidate =
      .ok ⟨witness, inputNote request candidate, request.aSk, some candidate.position⟩ := by
    rw [inputNote] at returned ⊢
    rw [candidateInput]
    simp only [returned]
  refine ⟨_, input, fun _ => ⟨?_, ?_⟩, rfl⟩
  · rw [root]
    exact leads
  · rw [← same]
    exact element

end Synced

/-! A wallet with four notes of value 1. -/

section

open Wallet.Consistency (sampleNote)

def chainTree (height : Nat) : Except String (IncrementalMerkleTree (BitVec 256)) :=
  IncrementalMerkleTree.empty.appendAll treeDepth
    ((List.range' 1 height).map fun h => (sampleNote h).noteCommitment)

def chainNote (height : Nat) : NoteCiphertext (BitVec 256) :=
  { sampleNote height with
    noteRoot := ((chainTree height).toOption.map (·.root treeDepth)).getD 0 }

def sampleRequest (vpubOld vpubNew : UInt64) : Request (BitVec 256) where
  prims := ⟨(·.rho), id, id, (· + ·), (· ≠ 0)⟩
  aSk := 7
  seeds _ := ⟨0, 0, 0⟩
  outputKey := 8
  destination := ⟨5, 6⟩
  notes := [chainNote 1, chainNote 2, chainNote 3, chainNote 4]
  root := (chainNote 4).noteRoot
  vpubOldTotal := vpubOld
  vpubNewTotal := vpubNew

def sampleDoc (spent : Bool) (height : Nat) : UserNote (BitVec 256) :=
  ⟨.bool true, 0, (chainNote height).noteCommitment, 1, .bool spent, height⟩

def sampleDocs : List (UserNote (BitVec 256)) :=
  [sampleDoc false 1, sampleDoc false 2, sampleDoc false 3, sampleDoc false 4]

def sampleFound : List (NotePlaintextDB (BitVec 256)) := sampleDocs.map UserNote.content

def made {Hash : Type} : Outcome Hash → List (JSDescription Hash)
  | .returned _ result => result
  | _ => []

abbrev samplePayment (vpubOld vpubNew : UInt64) (fromValue : Int64)
    (docs : List (UserNote (BitVec 256))) : Outcome (BitVec 256) :=
  joinsplitCreator (sampleRequest vpubOld vpubNew) (StdSort.stable _) .applied 2 fromValue docs

theorem sampleRequest_synced (vpubOld vpubNew : UInt64) :
    Synced (sampleRequest vpubOld vpubNew)
      [chainNote 1, chainNote 2, chainNote 3, chainNote 4] where
  valid :=
    { perm := List.Perm.refl _
      heights := rfl
      commitments := by decide
      roots := by
        change ([chainNote 1, chainNote 2, chainNote 3, chainNote 4].map (·.noteRoot)).Nodup
        decide +kernel
      recorded := by
        intro k note found
        rcases k with _ | _ | _ | _ | k
        · cases found
          exact ⟨_, rfl, rfl⟩
        · cases found
          exact ⟨_, rfl, rfl⟩
        · cases found
          exact ⟨_, rfl, rfl⟩
        · cases found
          exact ⟨_, rfl, rfl⟩
        · simp at found }
  ascending := by
    change [chainNote 1, chainNote 2, chainNote 3, chainNote 4].Pairwise _
    decide
  newest := ⟨chainNote 4, rfl, rfl⟩

theorem query_sampleDocs :
    queryUserNote 0 (purgeUserNotes .applied sampleDocs).2 = some sampleFound := rfl

theorem unspent_sampleFound :
    unspent (StdSort.stable _) (candidates sampleFound) = candidates sampleFound := by
  decide +kernel

theorem sampleFound_stored : ∀ candidate ∈ candidates sampleFound, candidate.note.rho ∈
    [chainNote 1, chainNote 2, chainNote 3, chainNote 4].map (·.noteCommitment) := by
  decide +kernel

theorem sampleFound_anchored (vpubOld vpubNew : UInt64) :
    ∀ candidate ∈ candidates sampleFound, Anchored (sampleRequest vpubOld vpubNew) candidate :=
  fun candidate mem =>
    (sampleRequest_synced vpubOld vpubNew).anchored (sampleFound_stored candidate mem)

end

end CbDaemon.JoinSplit.Calls
