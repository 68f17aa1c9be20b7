/- module: CbDaemon/JoinSplit/Termination
   source: src/cblib/request_methods.cpp
   digest: The pair loop ends within the number of pairs exactly when the two smallest notes, each taken that often, cover the value. -/

import CbDaemon.JoinSplit.Calls

set_option autoImplicit false
set_option relaxedAutoImplicit false

namespace CbDaemon.JoinSplit.Termination
open Base.Sorting Base.Machine
open Merkle.PerfectTree
open Wallet.Notes Prove Creator Rounds Selection Calls

variable {Hash : Type} [TreeHash Hash] [DecidableEq Hash]

def Throws (request : Request Hash) (first second : Candidate Hash) : Prop :=
  ∃ message, candidateInput request first = .error message ∨
    candidateInput request second = .error message

def EndsWithinPairs (request : Request Hash) (unspent : List (Candidate Hash))
    (fromValue : Int64) : Prop :=
  pairs request (unspent.length / 2) unspent ⟨fromValue, false, true, []⟩ ≠ .ok none

/-- The pair of the two smallest notes, taken once for each pair, covers the value. -/
def PairCovers (request : Request Hash) (rest : Nat) : List (Candidate Hash) → Prop
  | first :: second :: others =>
    Throws request first second ∨
      rest ≤ (others.length / 2 + 1) * (first.note.value.toNat + second.note.value.toNat)
  | _ => True

section

variable {request : Request Hash} {first second : Candidate Hash} {progress : Progress Hash}

theorem pairLoop_of_throws (throws : Throws request first second) (fuel : Nat)
    (progress : Progress Hash) :
    ∃ message, pairLoop request first second (fuel + 1) progress = .error message := by
  obtain ⟨message, failed⟩ := throws
  rw [pairLoop, pairRound]
  cases found : candidateInput request first with
  | error other => exact ⟨other, rfl⟩
  | ok input =>
    rcases failed with failed | failed
    · rw [found] at failed
      cases failed
    · exact ⟨message, by rw [failed]⟩

theorem exists_input_of_not_throws (quiet : ¬ Throws request first second) :
    ∃ input input', candidateInput request first = .ok input ∧
      candidateInput request second = .ok input' := by
  cases found : candidateInput request first with
  | error message => exact absurd ⟨message, .inl found⟩ quiet
  | ok input =>
    cases found' : candidateInput request second with
    | error message => exact absurd ⟨message, .inr found'⟩ quiet
    | ok input' => exact ⟨input, input', rfl, rfl⟩

/-- Each round pays the value of the same pair, so the loop still runs after a
number of rounds exactly when these do not cover the rest. -/
theorem pairLoop_running_iff {input input' : JSInput Hash}
    (found : candidateInput request first = .ok input)
    (found' : candidateInput request second = .ok input')
    (small : first.note.value.toNat < 2 ^ 32) (small' : second.note.value.toNat < 2 ^ 32)
    {value rest : Nat} (sum : value = first.note.value.toNat + second.note.value.toNat)
    (remaining : progress.remaining.toInt = rest) (fuel : Nat) :
    pairLoop request first second (fuel + 1) progress = .ok none ↔ (fuel + 1) * value < rest := by
  induction fuel generalizing progress rest with
  | zero =>
    obtain ⟨outputs, next, round, left, -⟩ :=
      pairRound_spec found found' small small' remaining sum rfl
    rw [pairLoop_succ round left, pairLoop]
    split
    · simp
      omega
    · simp
      omega
  | succ fuel ih =>
    obtain ⟨outputs, next, round, left, -⟩ :=
      pairRound_spec found found' small small' remaining sum rfl
    have rounds : (fuel + 1 + 1) * value = (fuel + 1) * value + value := Nat.succ_mul _ _
    rw [pairLoop_succ round left]
    split
    · simp
      omega
    · have again : (emit request [input, input'] outputs next progress).remaining.toInt =
          (rest - value : Nat) := by
        rw [emit_remaining]
        exact left
      rw [ih again]
      omega

private theorem pairs_never_ends {others : List (Candidate Hash)} {input input' : JSInput Hash}
    (found : candidateInput request first = .ok input)
    (found' : candidateInput request second = .ok input') (empty : first.note.value = 0)
    (empty' : second.note.value = 0) {fromValue : Int64} (positive : 0 < fromValue.toInt)
    (fuel : Nat) :
    pairs request fuel (first :: second :: others) ⟨fromValue, false, true, []⟩ = .ok none := by
  -- a pair of notes of value 0 keeps the loop running for ever
  cases fuel with
  | zero => rfl
  | succ fuel =>
    have start : fromValue.toInt = fromValue.toInt.toNat := by omega
    have nothing : (0 : UInt64).toNat = 0 := rfl
    apply (pairLoop_running_iff found found' _ _ rfl start fuel).mpr
    · rw [empty, empty', nothing, Nat.add_zero, Nat.mul_zero]
      omega
    · rw [empty, nothing]
      omega
    · rw [empty', nothing]
      omega

private theorem pairs_ends_iff {unspent : List (Candidate Hash)} {fromValue : Int64}
    (nonneg : 0 ≤ fromValue) (small : ∀ candidate ∈ unspent, candidate.note.value.toNat < 2 ^ 32) :
    EndsWithinPairs request unspent fromValue ↔
      PairCovers request fromValue.toInt.toNat unspent := by
  have value : 0 ≤ fromValue.toInt := Int64.le_iff_toInt_le.mp nonneg
  unfold EndsWithinPairs
  rcases unspent with _ | ⟨first, _ | ⟨second, others⟩⟩
  · simp [pairs, PairCovers]
  · simp [pairs, PairCovers]
  · have count : (first :: second :: others).length / 2 = others.length / 2 + 1 := by
      simp only [List.length_cons]
      omega
    rw [count, pairs, PairCovers]
    by_cases throws : Throws request first second
    · obtain ⟨message, ended⟩ := pairLoop_of_throws throws (others.length / 2)
        ⟨fromValue, false, true, []⟩
      simp [ended, throws]
    · obtain ⟨input, input', found, found'⟩ := exists_input_of_not_throws throws
      have start : fromValue.toInt = fromValue.toInt.toNat := by omega
      have running : pairLoop request first second (others.length / 2 + 1)
            ⟨fromValue, false, true, []⟩ = .ok none ↔ _ :=
        pairLoop_running_iff found found' (small first (by simp)) (small second (by simp)) rfl
          start _
      rw [ne_eq, running]
      simp only [throws, false_or]
      omega

end

/-- The loop of a call ends within the number of its pairs exactly when the pair
it takes in every round covers the value by then, or its first round throws. -/
theorem endsWithinPairs_iff (request : Request Hash) (sorting : ValueSort Hash)
    {fromValue : Int64} {docs : List (UserNote Hash)} {found : List (NotePlaintextDB Hash)}
    (nonneg : 0 ≤ fromValue) (queried : queryUserNote 0 docs = some found) :
    EndsWithinPairs request (unspent sorting (candidates found)) fromValue ↔
      PairCovers request fromValue.toInt.toNat (unspent sorting (candidates found)) := by
  apply pairs_ends_iff nonneg
  intro candidate mem
  exact candidates_small queried candidate ((mem_unspent sorting _ candidate).mp mem).1

/-- Two notes of value 1 pay the value 2 in one round. -/
theorem two_in_one_round :
    EndsWithinPairs (sampleRequest 0 0) (unspent (StdSort.stable _) (candidates sampleFound)) 2 := by
  rw [endsWithinPairs_iff _ _ (by decide) query_sampleDocs, unspent_sampleFound]
  exact .inr (by decide)

/-- Two notes of value 0, as they are left by exact change, before one of value 1. -/
def zeroDocs : List (UserNote (BitVec 256)) :=
  [{ sampleDoc false 1 with value := 0 }, { sampleDoc false 2 with value := 0 }, sampleDoc false 3]

/-- With two notes of value 0, the value 1 is never paid and the loop never ends,
although the third note covers it. -/
theorem zero_notes_never_end :
    (∀ fuel, pairs (sampleRequest 0 0) fuel
        (unspent (StdSort.stable _) (candidates (zeroDocs.map UserNote.content)))
        ⟨1, false, true, []⟩ = .ok none) ∧
      ¬ EndsWithinPairs (sampleRequest 0 0)
        (unspent (StdSort.stable _) (candidates (zeroDocs.map UserNote.content))) 1 := by
  have sorted : unspent (StdSort.stable _) (candidates (zeroDocs.map UserNote.content)) =
      candidates (zeroDocs.map UserNote.content) := by
    decide +kernel
  have stored : ∀ candidate ∈ candidates (zeroDocs.map UserNote.content), candidate.note.rho ∈
      [chainNote 1, chainNote 2, chainNote 3, chainNote 4].map (·.noteCommitment) := by
    decide +kernel
  have anchored : ∀ candidate ∈ candidates (zeroDocs.map UserNote.content),
      Anchored (sampleRequest 0 0) candidate :=
    fun candidate mem => (sampleRequest_synced 0 0).anchored (stored candidate mem)
  have first : (candidates (zeroDocs.map UserNote.content))[0]? = some _ := rfl
  have second : (candidates (zeroDocs.map UserNote.content))[1]? = some _ := rfl
  obtain ⟨input, found, _⟩ := anchored _ (List.mem_of_getElem? first)
  obtain ⟨input', found', _⟩ := anchored _ (List.mem_of_getElem? second)
  have running : ∀ fuel, pairs (sampleRequest 0 0) fuel
      (candidates (zeroDocs.map UserNote.content)) ⟨1, false, true, []⟩ = .ok none :=
    pairs_never_ends found found' rfl rfl (by decide)
  rw [sorted]
  exact ⟨running, fun ended => ended (running _)⟩

end CbDaemon.JoinSplit.Termination
