/- module: CbDaemon/JoinSplit/Outcome
   source: src/cblib/request_methods.cpp
   digest: The ways a call of the creator ends on contiguous notes, and the anchor of what it makes. -/

import CbDaemon.JoinSplit.Termination

set_option autoImplicit false
set_option relaxedAutoImplicit false

namespace CbDaemon.JoinSplit.Outcome
open Base.Machine Base.Sorting
open Merkle.PerfectTree Merkle.IncrementalTree
open Wallet.Notes Wallet.Sync Wallet.Witness
open Prove Creator Rounds Selection Calls Termination

variable {Hash : Type}

def AnchoredAt (root : Hash) (made : List (JSDescription Hash)) : Prop :=
  ∀ js ∈ made, js.anchor = root

/-- The pair loop gets to its break: fewer than two notes are unspent, nothing is
to be paid, or the two smallest notes have a value. -/
def LoopEnds (rest : Nat) : List (Candidate Hash) → Prop
  | first :: second :: _ => rest = 0 ∨ 0 < first.note.value.toNat + second.note.value.toNat
  | _ => True

instance (rest : Nat) : (unspent : List (Candidate Hash)) → Decidable (LoopEnds rest unspent)
  | _ :: _ :: _ => inferInstanceAs (Decidable (_ ∨ _))
  | [] => inferInstanceAs (Decidable True)
  | [_] => inferInstanceAs (Decidable True)

variable [TreeHash Hash] [DecidableEq Hash]

section

variable {request : Request Hash} {inputs : List (JSInput Hash)}
  {outputs : JSOutput Hash × JSOutput Hash} {next : Int64} {progress final : Progress Hash}
  {first second : Candidate Hash}

private theorem anchoredAt_emit (before : AnchoredAt request.root progress.result) :
    AnchoredAt request.root (emit request inputs outputs next progress).result := by
  by_cases accepts : Accepts request inputs outputs (vpub request progress.included).1
      (vpub request progress.included).2
  · rw [emit_of_accepts accepts]
    intro js mem
    rcases List.mem_append.mp mem with old | new
    · exact before js old
    · rw [List.mem_singleton.mp new]
      rfl
  · rw [emit_of_not_accepts accepts]
    exact before

private theorem anchoredAt_pairRound (round : pairRound request first second progress = .ok final)
    (before : AnchoredAt request.root progress.result) :
    AnchoredAt request.root final.result := by
  unfold pairRound at round
  split at round
  · cases round
  · split at round
    · cases round
    · dsimp only at round
      split at round
      · cases round
        exact anchoredAt_emit before
      · cases round
        exact anchoredAt_emit before

private theorem anchoredAt_pairLoop {fuel : Nat}
    (loop : pairLoop request first second fuel progress = .ok (some final))
    (before : AnchoredAt request.root progress.result) :
    AnchoredAt request.root final.result := by
  induction fuel generalizing progress with
  | zero => cases loop
  | succ fuel ih =>
    rw [pairLoop] at loop
    cases round : pairRound request first second progress with
    | error message =>
      rw [round] at loop
      cases loop
    | ok next =>
      have after := anchoredAt_pairRound round before
      rw [round] at loop
      dsimp only at loop
      split at loop
      · cases loop
        exact after
      · exact ih loop after

private theorem anchoredAt_residualBranch {all : List (Candidate Hash)} {size : Nat}
    (branch : residualBranch request all size progress = .ok final)
    (before : AnchoredAt request.root progress.result) :
    AnchoredAt request.root final.result := by
  unfold residualBranch residualRound at branch
  split at branch
  · split at branch
    · cases branch
      exact before
    · split at branch
      · cases branch
      · split at branch
        · cases branch
          exact before
        · cases branch
          exact anchoredAt_emit before
  · cases branch
    exact before

private theorem anchoredAt_selection {sorting : ValueSort Hash} {fuel : Nat} {fromValue : Int64}
    {all : List (Candidate Hash)} {success : Bool} {made : List (JSDescription Hash)}
    (returned : selection request sorting fuel fromValue all = .returned success made) :
    AnchoredAt request.root made := by
  obtain ⟨progress, final, loop, branch, _, rfl⟩ := selection_eq_returned.mp returned
  have start : AnchoredAt request.root ([] : List (JSDescription Hash)) :=
    List.forall_mem_nil _
  apply anchoredAt_residualBranch branch
  unfold pairs at loop
  split at loop
  · exact anchoredAt_pairLoop loop start
  · cases loop
    exact start

theorem anchoredAt_joinsplitCreator {sorting : ValueSort Hash} {purge : Delete} {fuel : Nat}
    {fromValue : Int64} {userNotes : List (UserNote Hash)} {success : Bool}
    {made : List (JSDescription Hash)}
    (returned : joinsplitCreator request sorting purge fuel fromValue userNotes =
      .returned success made) : AnchoredAt request.root made := by
  have start : AnchoredAt request.root ([] : List (JSDescription Hash)) :=
    List.forall_mem_nil _
  unfold joinsplitCreator at returned
  split at returned
  · cases returned
  · split at returned
    · cases returned
    · split at returned
      · rw [mint] at returned
        simp only [Creator.Outcome.returned.injEq] at returned
        rw [← returned.2]
        exact anchoredAt_emit start
      · split at returned
        · cases returned
          exact start
        · split at returned
          · cases returned
          · cases returned
            exact start
          · exact anchoredAt_selection returned

end

/-! What a selection needs to return. -/

/-- The notes that a selection takes can be made inputs: the two smallest unspent
notes, and the one that the residual branch looks up. -/
structure InputsMade (request : Request Hash) (sorting : ValueSort Hash)
    (all : List (Candidate Hash)) : Prop where
  pair : ∀ first second others, unspent sorting all = first :: second :: others →
    ¬ Throws request first second
  residual : (unspent sorting all).length % 2 = 1 → ∀ candidate,
    all[(unspent sorting all).length - 1]? = some candidate →
      ∃ input, candidateInput request candidate = .ok input

section

variable {request : Request Hash} {sorting : ValueSort Hash} {all : List (Candidate Hash)}
  {fromValue : Int64} {first second : Candidate Hash}

private theorem exists_pairLoop (quiet : ¬ Throws request first second) (fuel : Nat)
    (progress : Progress Hash) :
    ∃ state, pairLoop request first second fuel progress = .ok state := by
  obtain ⟨input, input', found, found'⟩ := exists_input_of_not_throws quiet
  induction fuel generalizing progress with
  | zero => exact ⟨none, rfl⟩
  | succ fuel ih =>
    obtain ⟨next, round⟩ : ∃ next, pairRound request first second progress = .ok next := by
      rw [pairRound]
      simp only [found, found']
      split
      · exact ⟨_, rfl⟩
      · exact ⟨_, rfl⟩
    rw [pairLoop, round]
    dsimp only
    split
    · exact ⟨some next, rfl⟩
    · exact ih next

private theorem residualBranch_returns_iff (size : Nat) (progress : Progress Hash) :
    (∃ final, residualBranch request all size progress = .ok final) ↔
      (size % 2 = 1 → ∀ candidate, all[size - 1]? = some candidate →
        ∃ input, candidateInput request candidate = .ok input) := by
  -- the residual branch throws only with its input
  unfold residualBranch residualRound
  by_cases odd : size % 2 = 1
  · simp only [odd, true_implies, if_true]
    cases all[size - 1]? with
    | none => simp
    | some candidate =>
      simp only [Option.some.injEq, forall_eq']
      cases candidateInput request candidate with
      | error message => simp
      | ok input =>
        refine iff_of_true ?_ ⟨input, rfl⟩
        dsimp only
        split
        · exact ⟨_, rfl⟩
        · exact ⟨_, rfl⟩
  · simp [odd]

/-- A selection of makeable inputs returns, unless the fuel does not reach the end
of the loop. -/
private theorem selection_cases (made : InputsMade request sorting all) (fuel : Nat)
    (fromValue : Int64) :
    (pairs request fuel (unspent sorting all) ⟨fromValue, false, true, []⟩ = .ok none ∧
        selection request sorting fuel fromValue all = .running) ∨
      (pairs request fuel (unspent sorting all) ⟨fromValue, false, true, []⟩ ≠ .ok none ∧
        ∃ success made, selection request sorting fuel fromValue all = .returned success made) := by
  obtain ⟨state, loop⟩ : ∃ state, pairs request fuel (unspent sorting all)
      ⟨fromValue, false, true, []⟩ = .ok state := by
    unfold pairs
    split
    · next first second others listed =>
      exact exists_pairLoop (made.pair first second others listed) fuel _
    · exact ⟨_, rfl⟩
  cases state with
  | none =>
    left
    refine ⟨loop, ?_⟩
    rw [selection, loop]
  | some progress =>
    right
    obtain ⟨final, branch⟩ := (residualBranch_returns_iff _ progress).mpr made.residual
    refine ⟨by simp [loop], final.finalResult, final.result, ?_⟩
    exact selection_eq_returned.mpr ⟨progress, final, loop, branch, rfl, rfl⟩

private theorem pairs_end_iff (made : InputsMade request sorting all) (nonneg : 0 ≤ fromValue)
    (small : ∀ candidate ∈ unspent sorting all, candidate.note.value.toNat < 2 ^ 32) :
    (∃ fuel, pairs request fuel (unspent sorting all) ⟨fromValue, false, true, []⟩ ≠ .ok none) ↔
      LoopEnds fromValue.toInt.toNat (unspent sorting all) := by
  -- some number of rounds is enough if the loop makes progress, and only then
  have quiet := made.pair
  generalize unspent sorting all = notes at quiet small ⊢
  rcases notes with _ | ⟨first, _ | ⟨second, others⟩⟩
  · simp [pairs, LoopEnds]
  · simp [pairs, LoopEnds]
  · obtain ⟨input, input', found, found'⟩ :=
      exists_input_of_not_throws (quiet first second others rfl)
    have value : 0 ≤ fromValue.toInt := Int64.le_iff_toInt_le.mp nonneg
    have start : fromValue.toInt = fromValue.toInt.toNat := by omega
    have running : ∀ fuel, pairLoop request first second (fuel + 1) ⟨fromValue, false, true, []⟩ =
        .ok none ↔ _ := fun fuel =>
      pairLoop_running_iff found found' (small first (by simp)) (small second (by simp)) rfl start
        fuel
    rw [LoopEnds]
    constructor
    · rintro ⟨fuel, ended⟩
      by_contra stuck
      have nothing : first.note.value.toNat + second.note.value.toNat = 0 := by omega
      apply ended
      cases fuel with
      | zero => rfl
      | succ fuel =>
        rw [pairs, running, nothing]
        omega
    · intro progress
      -- as many rounds as the rest has units
      refine ⟨fromValue.toInt.toNat + 1, ?_⟩
      rw [pairs, ne_eq, running]
      rcases progress with none | some
      · omega
      · have enough := Nat.le_mul_of_pos_right (fromValue.toInt.toNat + 1) some
        omega

private theorem inputsMade_of_returned {fuel : Nat} {success : Bool}
    {result : List (JSDescription Hash)}
    (returned : selection request sorting fuel fromValue all = .returned success result) :
    InputsMade request sorting all := by
  obtain ⟨progress, final, loop, branch, _⟩ := selection_eq_returned.mp returned
  refine ⟨?_, (residualBranch_returns_iff _ progress).mp ⟨final, branch⟩⟩
  intro first second others listed throws
  rw [listed, pairs] at loop
  cases fuel with
  | zero => cases loop
  | succ fuel =>
    obtain ⟨message, failed⟩ := pairLoop_of_throws throws fuel ⟨fromValue, false, true, []⟩
    rw [failed] at loop
    cases loop

/-- With some fuel a selection returns, if and only if its inputs can be made and
its loop ends. -/
private theorem selection_returns_iff (nonneg : 0 ≤ fromValue)
    (small : ∀ candidate ∈ unspent sorting all, candidate.note.value.toNat < 2 ^ 32) :
    (∃ fuel success result, selection request sorting fuel fromValue all =
        .returned success result) ↔
      InputsMade request sorting all ∧
        LoopEnds fromValue.toInt.toNat (unspent sorting all) := by
  constructor
  · rintro ⟨fuel, success, result, returned⟩
    have made := inputsMade_of_returned returned
    refine ⟨made, (pairs_end_iff made nonneg small).mp ⟨fuel, ?_⟩⟩
    rcases selection_cases made fuel fromValue with ⟨_, runs⟩ | ⟨ended, _⟩
    · rw [returned] at runs
      cases runs
    · exact ended
  · rintro ⟨made, ends⟩
    obtain ⟨fuel, ended⟩ := (pairs_end_iff made nonneg small).mpr ends
    rcases selection_cases made fuel fromValue with ⟨runs, _⟩ | ⟨_, returned⟩
    · exact absurd runs ended
    · exact ⟨fuel, returned⟩

end

/-! On contiguous notes that fit the tree nothing throws. -/

/-- The notes of a request can be rebuilt into trees and witnesses. -/
structure Rebuilds (request : Request Hash) : Prop where
  contiguous : Contiguous request.notes
  fits : request.notes.length ≤ 2 ^ treeDepth

namespace Rebuilds

variable {request : Request Hash}

private theorem exists_candidateInput (rebuilds : Rebuilds request) (candidate : Candidate Hash) :
    ∃ input, candidateInput request candidate = .ok input := by
  obtain ⟨result, built⟩ := exists_noteWitnessMerkle rebuilds.contiguous rebuilds.fits
    (request.prims.cm (inputNote request candidate)) request.root .empty
  rw [candidateInput]
  rw [inputNote] at built
  simp only [built]
  exact ⟨_, rfl⟩

private theorem inputsMade (rebuilds : Rebuilds request) (sorting : ValueSort Hash)
    (all : List (Candidate Hash)) : InputsMade request sorting all := by
  refine ⟨?_, fun _ candidate _ => rebuilds.exists_candidateInput candidate⟩
  rintro first second _ _ ⟨message, failed | failed⟩
  · obtain ⟨input, found⟩ := rebuilds.exists_candidateInput first
    rw [found] at failed
    cases failed
  · obtain ⟨input, found⟩ := rebuilds.exists_candidateInput second
    rw [found] at failed
    cases failed

end Rebuilds

section

variable {request : Request Hash} {sorting : ValueSort Hash} {purge : Delete}
  {fromValue : Int64} {userNotes : List (UserNote Hash)}

def CallEnds (sorting : ValueSort Hash) (purge : Delete) (fromValue : Int64)
    (userNotes : List (UserNote Hash)) : Prop :=
  0 ≤ fromValue → purge ≠ .thrown → ∀ found,
    queryUserNote 0 (purgeUserNotes purge userNotes).2 = some found →
      LoopEnds fromValue.toInt.toNat (unspent sorting (candidates found))

theorem joinsplitCreator_aborted {tree : IncrementalMerkleTree Hash}
    (rebuilt : getMerkle request.notes = .ok tree) (other : request.root ≠ tree.root treeDepth)
    (fuel : Nat) :
    joinsplitCreator request sorting purge fuel fromValue userNotes = .aborted := by
  rw [joinsplitCreator, rebuilt]
  exact if_pos other

omit [TreeHash Hash] [DecidableEq Hash] in
private theorem unspent_small {docs : List (UserNote Hash)} {found : List (NotePlaintextDB Hash)}
    (queried : queryUserNote 0 docs = some found) :
    ∀ candidate ∈ unspent sorting (candidates found), candidate.note.value.toNat < 2 ^ 32 :=
  fun candidate mem =>
    candidates_small queried candidate ((mem_unspent sorting _ candidate).mp mem).1

/-- The root is that of the local notes. If notes are spent, their documents parse,
the inputs can be made of them and the loop ends. -/
def Creates (request : Request Hash) (sorting : ValueSort Hash) (purge : Delete)
    (fromValue : Int64) (userNotes : List (UserNote Hash)) : Prop :=
  RootCurrent request ∧ (0 ≤ fromValue → purge ≠ .thrown → ∃ found,
    queryUserNote 0 (purgeUserNotes purge userNotes).2 = some found ∧
      InputsMade request sorting (candidates found) ∧
      LoopEnds fromValue.toInt.toNat (unspent sorting (candidates found)))

theorem joinsplitCreator_returns_iff :
    (∃ fuel success made, joinsplitCreator request sorting purge fuel fromValue userNotes =
        .returned success made) ↔ Creates request sorting purge fromValue userNotes := by
  unfold joinsplitCreator Creates RootCurrent
  cases getMerkle request.notes with
  | error message => simp
  | ok tree =>
    by_cases current : request.root = tree.root treeDepth
    · simp only [ne_eq, current, not_true_eq_false, if_false, Except.ok.injEq, exists_eq_left',
        true_and]
      by_cases mints : fromValue < 0
      · have spends : ¬ 0 ≤ fromValue := Int64.not_le.mpr mints
        simp [mints, spends, mint]
      · have nonneg : 0 ≤ fromValue := Int64.not_lt.mp mints
        by_cases thrown : purge = .thrown
        · simp [mints, thrown, purgeUserNotes]
        · rw [purgeUserNotes_eq thrown]
          simp only [if_neg mints, nonneg, thrown, not_false_eq_true, true_implies]
          cases queried : queryUserNote 0 (purgeUserNotes purge userNotes).2 with
          | none => simp
          | some found =>
            simp only [Option.some.injEq, exists_eq_left']
            rw [← selection_returns_iff nonneg (unspent_small queried)]
            cases found with
            | nil =>
              have none : unspent sorting (candidates ([] : List (NotePlaintextDB Hash))) = [] :=
                (sorting.perm []).eq_nil
              simp [selection, none, pairs, residualBranch]
            | cons note found => rfl
    · simp [current]

/-- With the current root, readable documents and makeable inputs a call returns, or
it still runs in its loop. -/
theorem joinsplitCreator_cases (rebuilds : Rebuilds request) (current : RootCurrent request)
    (readable : ∀ doc ∈ userNotes, 0 < doc.noteHeight → doc.Readable) (sorting : ValueSort Hash) (purge : Delete)
    (fromValue : Int64) (fuel : Nat) :
    joinsplitCreator request sorting purge fuel fromValue userNotes = .running ∨
      ∃ success made, joinsplitCreator request sorting purge fuel fromValue userNotes =
        .returned success made := by
  obtain ⟨tree, rebuilt, root⟩ := current
  unfold joinsplitCreator
  rw [rebuilt]
  simp only [ne_eq, root, not_true_eq_false, if_false]
  split
  · exact .inr ⟨_, _, rfl⟩
  · by_cases thrown : purge = .thrown
    · rw [thrown]
      exact .inr ⟨_, _, rfl⟩
    · have kept := purgeUserNotes_subset purge userNotes
      have queried := queryUserNote_eq_some.mpr
        ⟨fun doc mem (high : 0 < doc.noteHeight) => readable doc (kept mem) high, rfl⟩
      rw [purgeUserNotes_eq thrown]
      simp only [queried]
      cases (List.filter _ _).map UserNote.content with
      | nil => exact .inr ⟨_, _, rfl⟩
      | cons note found =>
        rcases selection_cases (rebuilds.inputsMade sorting (candidates (note :: found))) fuel
          fromValue with ⟨_, runs⟩ | ⟨_, returns⟩
        · exact .inl runs
        · exact .inr returns

theorem joinsplitCreator_ends_iff (rebuilds : Rebuilds request) (current : RootCurrent request)
    (readable : ∀ doc ∈ userNotes, 0 < doc.noteHeight → doc.Readable) (sorting : ValueSort Hash) (purge : Delete)
    (fromValue : Int64) :
    (∃ fuel, joinsplitCreator request sorting purge fuel fromValue userNotes ≠ .running) ↔
      CallEnds sorting purge fromValue userNotes := by
  have queried := queryUserNote_eq_some.mpr ⟨fun doc mem (high : 0 < doc.noteHeight) =>
    readable doc (purgeUserNotes_subset purge userNotes mem) high, rfl⟩
  have creates : Creates request sorting purge fromValue userNotes ↔
      CallEnds sorting purge fromValue userNotes := by
    unfold Creates CallEnds
    rw [queried]
    simp [current, rebuilds.inputsMade]
  rw [← creates, ← joinsplitCreator_returns_iff]
  apply exists_congr
  intro fuel
  rcases joinsplitCreator_cases rebuilds current readable sorting purge fromValue fuel with
    runs | ⟨success, made, returned⟩
  · simp [runs]
  · simp [returned]

end

end CbDaemon.JoinSplit.Outcome
