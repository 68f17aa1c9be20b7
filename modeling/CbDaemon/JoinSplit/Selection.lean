/- module: CbDaemon/JoinSplit/Selection
   source: src/cblib/request_methods.cpp
   digest: The joinsplits a successful selection makes, and exactly when there is one. -/

import CbDaemon.JoinSplit.Rounds

set_option autoImplicit false
set_option relaxedAutoImplicit false

namespace CbDaemon.JoinSplit.Selection
open Base.Machine Base.Sorting Merkle.PerfectTree Prove Creator Rounds

variable {Hash : Type}

def total (amount : JSDescription Hash → Int) (made : List (JSDescription Hash)) : Int :=
  (made.map amount).sum

def origins (made : List (JSDescription Hash)) : List (Option Nat) :=
  made.flatMap fun js => js.inputs.map (·.origin)

/-- A list of joinsplits that together move `paid`. -/
structure Batch (made : List (JSDescription Hash)) (sources : List (Option Nat))
    (paid old new : Int) : Prop where
  origins : origins made = sources
  vpubOld : total (·.vpubOld.toInt) made = old
  vpubNew : total (·.vpubNew.toInt) made = new
  back : total (·.outputs.1.value.toNat) made = total (inputValue ·.inputs) made - paid
  destination : total (·.outputs.2.value.toNat) made = paid + old - new

theorem Moves.batch {js : JSDescription Hash} {sources : List (Option Nat)} {value : Nat}
    {paid : Int} {old new : UInt64} (moves : Moves js sources value paid old new) :
    Batch [js] sources paid old.toNat new.toNat := by
  obtain ⟨from_, entering, vpubOld, vpubNew, back, destination⟩ := moves
  constructor
  · simp [Selection.origins, from_]
  · simp [total, vpubOld]
  · simp [total, vpubNew]
  · simp [total, back, entering]
  · simp [total, destination]

private theorem Batch.append {made made' : List (JSDescription Hash)}
    {sources sources' : List (Option Nat)}
    {paid paid' old old' new new' : Int} (batch : Batch made sources paid old new)
    (batch' : Batch made' sources' paid' old' new') :
    Batch (made ++ made') (sources ++ sources') (paid + paid') (old + old') (new + new') := by
  have split (amount : JSDescription Hash → Int) :
      total amount (made ++ made') = total amount made + total amount made' := by
    simp [total]
  constructor
  · rw [Selection.origins, List.flatMap_append]
    exact congrArg₂ _ batch.origins batch'.origins
  · rw [split, batch.vpubOld, batch'.vpubOld]
  · rw [split, batch.vpubNew, batch'.vpubNew]
  · rw [split, split, batch.back, batch'.back]
    omega
  · rw [split, batch.destination, batch'.destination]
    omega

/-- What the whole pair loop needs of its numbers: a rest that one pair covers,
or a pair that can be used again and again. -/
def LoopOK (value rest : Nat) (old new : UInt64) : Prop :=
  if rest ≤ value then PayOK value rest old new
  else 0 < value ∧ value < 2 ^ 31 ∧ old = new ∧ old.toNat + value ≤ 2100000000000000

instance (value rest : Nat) (old new : UInt64) : Decidable (LoopOK value rest old new) := by
  unfold LoopOK
  infer_instance

private theorem roundOK_of_loopOK {pair : Int64} {value rest : Nat} {old new : UInt64}
    (amount : pair.toInt = value) (ok : LoopOK value rest old new) :
    RoundOK pair value rest old new := by
  unfold LoopOK at ok
  unfold RoundOK
  by_cases covers : rest ≤ value
  · rw [if_pos covers] at ok ⊢
    exact ok
  · rw [if_neg covers] at ok ⊢
    obtain ⟨_, small, rfl, cap⟩ := ok
    rw [narrow_eq amount small]
    exact ⟨rfl, cap⟩

private theorem loopOK_next {value rest : Nat} {old new : UInt64} (ok : LoopOK value rest old new)
    (more : value < rest) : LoopOK value (rest - value) 0 0 := by
  unfold LoopOK PayOK at *
  rw [if_neg (by omega)] at ok
  obtain ⟨positive, small, _, cap⟩ := ok
  have zero : (0 : UInt64).toNat = 0 := rfl
  split
  · omega
  · exact ⟨positive, small, rfl, by omega⟩

/-- A pair that is used again narrows without loss, or one of the later rounds
fails. -/
private theorem loopOK_of_rounds {pair : Int64} {value rest : Nat} {old new : UInt64}
    (amount : pair.toInt = value) (small : value < 2 ^ 40)
    (round : RoundOK pair value rest old new)
    (later : value < rest → LoopOK value (rest - value) 0 0) : LoopOK value rest old new := by
  unfold RoundOK at round
  unfold LoopOK
  by_cases covers : rest ≤ value
  · rw [if_pos covers] at round ⊢
    exact round
  · rw [if_neg covers] at round ⊢
    have next := later (by omega)
    have zero : (0 : UInt64).toNat = 0 := rfl
    unfold LoopOK PayOK at next
    have bounds : 0 < value ∧ value < 2 ^ 32 := by
      split at next <;> omega
    obtain ⟨balance, cap⟩ := round
    rcases narrow_spec amount small with ⟨tiny, same⟩ | ⟨_, t, _, _, lost⟩
    · have equal : old.toNat = new.toNat := by omega
      exact ⟨bounds.1, tiny, UInt64.toNat_inj.mp equal, cap⟩
    · omega

/-- The keys that the whole pair loop encrypts to: it ends with a paying round, and those
before fall short. -/
def LoopKeys (request : Request Hash) (value rest : Nat) : Prop :=
  PayingKeys request ∧ (value < rest → ShortKeys request)

private theorem roundKeys_of_loopKeys {request : Request Hash} {value rest : Nat}
    (keys : LoopKeys request value rest) : RoundKeys request value rest := by
  unfold RoundKeys
  split
  · exact keys.1
  · exact keys.2 (by omega)

private theorem loopKeys_of_rounds {request : Request Hash} {value rest : Nat}
    (round : RoundKeys request value rest)
    (later : value < rest → LoopKeys request value (rest - value)) :
    LoopKeys request value rest := by
  unfold RoundKeys at round
  split at round
  · exact ⟨round, fun more => by omega⟩
  · exact ⟨(later (by omega)).1, fun _ => round⟩

/-- The origins of `count` rounds over the same two notes. -/
def pairOrigins (first second : Candidate Hash) (count : Nat) : List (Option Nat) :=
  (List.replicate count [some first.position, some second.position]).flatten

/-- A round list that pays `rest` out of a pair: the pair is used once exactly
when it covers the rest. -/
def PaysRest (made : List (JSDescription Hash)) (first second : Candidate Hash)
    (value rest : Nat) (old new : UInt64) : Prop :=
  ∃ count, Batch made (pairOrigins first second count) rest old.toNat new.toNat ∧
    1 ≤ count ∧ (count = 1 ↔ rest ≤ value)

variable [TreeHash Hash] [DecidableEq Hash]

section

variable {request : Request Hash} {first second : Candidate Hash} {input input' : JSInput Hash}
  {progress final : Progress Hash} {fuel value rest : Nat} {old new : UInt64}

private theorem vpub_emit {inputs : List (JSInput Hash)} {outputs : JSOutput Hash × JSOutput Hash}
    {next : Int64} : vpub request (emit request inputs outputs next progress).included = (0, 0) := by
  rw [emit_included]
  rfl

private theorem left_eq_zero_iff {next : Int64} (left : next.toInt = (rest - value : Nat)) :
    next = 0 ↔ rest ≤ value := by
  rw [← Int64.toInt_inj, left]
  change ((rest - value : Nat) : Int) = 0 ↔ _
  omega

theorem pairLoop_succ {inputs : List (JSInput Hash)} {outputs : JSOutput Hash × JSOutput Hash}
    {next : Int64}
    (round : pairRound request first second progress =
      .ok (emit request inputs outputs next progress))
    (left : next.toInt = (rest - value : Nat)) :
    pairLoop request first second (fuel + 1) progress =
      if rest ≤ value then .ok (some (emit request inputs outputs next progress))
      else pairLoop request first second fuel (emit request inputs outputs next progress) := by
  rw [pairLoop, round]
  simp only [emit_remaining, left_eq_zero_iff left]

/-- A pair loop that ends with success: every round was accepted, and together
they pay the rest. -/
private theorem pairLoop_true (found : candidateInput request first = .ok input)
    (found' : candidateInput request second = .ok input')
    (small : first.note.value.toNat < 2 ^ 32) (small' : second.note.value.toNat < 2 ^ 32)
    (sum : value = first.note.value.toNat + second.note.value.toNat)
    (remaining : progress.remaining.toInt = rest)
    (public_ : vpub request progress.included = (old, new))
    (loop : pairLoop request first second fuel progress = .ok (some final))
    (success : final.finalResult = true) :
    progress.finalResult = true ∧
      (∀ i ∈ [input, input'], Spendable request.prims request.root i) ∧
      LoopOK value rest old new ∧ LoopKeys request value rest ∧
      final.remaining = 0 ∧ final.included = true ∧
      ∃ made, final.result = progress.result ++ made ∧
        PaysRest made first second value rest old new := by
  induction fuel generalizing progress rest old new with
  | zero => cases loop
  | succ fuel ih =>
    obtain ⟨outputs, next, round, nextValue, accepted, moves⟩ :=
      pairRound_spec found found' small small' remaining sum public_
    have pair := pairValue_eq small small'
    rw [← sum] at pair
    rw [pairLoop_succ round nextValue] at loop
    by_cases covers : rest ≤ value
    · -- the last round
      rw [if_pos covers] at loop
      cases loop
      obtain ⟨before, accepts⟩ := emit_finalResult.mp success
      rw [public_] at accepts
      obtain ⟨spendable, roundOK, keys⟩ := accepted.mp accepts
      have batch := Moves.batch (moves accepts)
      rw [Nat.min_eq_left covers] at batch
      refine ⟨before, spendable, ?_, ?_, ?_, emit_included, _, ?_, 1, batch, Nat.le_refl 1,
        by simp [covers]⟩
      · exact loopOK_of_rounds pair (by omega) roundOK (fun more => by omega)
      · exact loopKeys_of_rounds keys (fun more => by omega)
      · rw [emit_remaining, left_eq_zero_iff nextValue]
        exact covers
      · rw [emit_of_accepts (by rw [public_]; exact accepts), public_]
    · -- a round that leaves something to pay, with the same pair again
      rw [if_neg covers] at loop
      have zero : (0 : UInt64).toNat = 0 := rfl
      obtain ⟨middle, _, later, laterKeys, ended, flagged, made, extended, count, batch, positive,
          _⟩ :=
        ih (by rw [emit_remaining]; exact nextValue) vpub_emit loop
      obtain ⟨before, accepts⟩ := emit_finalResult.mp middle
      rw [public_] at accepts
      obtain ⟨spendable, roundOK, keys⟩ := accepted.mp accepts
      have head := Moves.batch (moves accepts)
      rw [emit_of_accepts (by rw [public_]; exact accepts), public_] at extended
      refine ⟨before, spendable, ?_, ?_, ended, flagged,
        [description request [input, input'] outputs old new] ++ made, ?_, count + 1, ?_, by omega,
        by omega⟩
      · exact loopOK_of_rounds pair (by omega) roundOK (fun _ => later)
      · exact loopKeys_of_rounds keys (fun _ => laterKeys)
      · rw [extended, List.append_assoc]
      · have both := head.append batch
        have paid : ((min rest value : Nat) : Int) + (rest - value : Nat) = rest := by omega
        rw [paid, zero, Int.natCast_zero, Int.add_zero, Int.add_zero] at both
        exact both

private theorem pairLoop_ends (found : candidateInput request first = .ok input)
    (found' : candidateInput request second = .ok input')
    (small : first.note.value.toNat < 2 ^ 32) (small' : second.note.value.toNat < 2 ^ 32)
    (sum : value = first.note.value.toNat + second.note.value.toNat)
    (spendable : ∀ i ∈ [input, input'], Spendable request.prims request.root i)
    (remaining : progress.remaining.toInt = rest)
    (public_ : vpub request progress.included = (old, new)) (ok : LoopOK value rest old new)
    (keys : LoopKeys request value rest) (before : progress.finalResult = true) :
    ∃ fuel final, pairLoop request first second fuel progress = .ok (some final) ∧
      final.finalResult = true := by
  induction rest using Nat.strong_induction_on generalizing progress old new with
  | _ rest ih =>
    obtain ⟨outputs, next, round, nextValue, accepted, _⟩ :=
      pairRound_spec found found' small small' remaining sum public_
    have pair := pairValue_eq small small'
    rw [← sum] at pair
    have accepts := accepted.mpr ⟨spendable, roundOK_of_loopOK pair ok, roundKeys_of_loopKeys keys⟩
    have success : (emit request [input, input'] outputs next progress).finalResult = true :=
      emit_finalResult.mpr ⟨before, by rw [public_]; exact accepts⟩
    by_cases covers : rest ≤ value
    · refine ⟨1, _, ?_, success⟩
      rw [pairLoop_succ round nextValue, if_pos covers]
    · have positive : 0 < value := by
        unfold LoopOK at ok
        rw [if_neg covers] at ok
        exact ok.1
      obtain ⟨fuel, final, loop, ended⟩ := ih (rest - value) (by omega)
        (by rw [emit_remaining]; exact nextValue) vpub_emit
        (loopOK_next ok (by omega)) ⟨keys.1, fun _ => keys.2 (by omega)⟩ success
      refine ⟨fuel + 1, final, ?_, ended⟩
      rw [pairLoop_succ round nextValue, if_neg covers]
      exact loop

def ResidualOK (request : Request Hash) (candidate : Candidate Hash) (rest : Nat)
    (old new : UInt64) : Prop :=
  Anchored request candidate ∧ rest ≤ candidate.note.value.toNat ∧
    PayOK candidate.note.value.toNat rest old new ∧ PayingKeys request

private theorem residualRound_true (small : first.note.value.toNat < 2 ^ 32)
    (remaining : progress.remaining.toInt = rest)
    (public_ : vpub request progress.included = (old, new))
    (round : residualRound request first progress = .ok final)
    (success : final.finalResult = true) :
    ResidualOK request first rest old new ∧
      ∃ js, final.result = progress.result ++ [js] ∧
        Moves js [some first.position, none] first.note.value.toNat rest old new := by
  cases found : candidateInput request first with
  | error message =>
    rw [residualRound, found] at round
    cases round
  | ok input =>
    obtain ⟨short, enough⟩ := residualRound_spec found small remaining rfl public_
    by_cases covers : rest ≤ first.note.value.toNat
    · obtain ⟨outputs, same, accepted, moves⟩ := enough covers
      rw [same] at round
      cases round
      obtain ⟨_, accepts⟩ := emit_finalResult.mp success
      rw [public_] at accepts
      obtain ⟨spendable, payOK, keys⟩ := accepted.mp accepts
      refine ⟨⟨⟨input, found, spendable⟩, covers, payOK, keys⟩, _, ?_, moves accepts⟩
      rw [emit_of_accepts (by rw [public_]; exact accepts), public_]
    · rw [short (by omega)] at round
      cases round
      cases success

private theorem residualRound_ends (small : first.note.value.toNat < 2 ^ 32)
    (remaining : progress.remaining.toInt = rest)
    (public_ : vpub request progress.included = (old, new))
    (ok : ResidualOK request first rest old new) (before : progress.finalResult = true) :
    ∃ final, residualRound request first progress = .ok final ∧ final.finalResult = true := by
  obtain ⟨⟨input, found, spendable⟩, covers, payOK, keys⟩ := ok
  obtain ⟨outputs, same, accepted, _⟩ :=
    (residualRound_spec found small remaining rfl public_).2 covers
  refine ⟨_, same, emit_finalResult.mpr ⟨before, ?_⟩⟩
  rw [public_]
  exact accepted.mpr ⟨spendable, payOK, keys⟩

private theorem pairLoop_found
    (loop : pairLoop request first second fuel progress = .ok (some final)) :
    ∃ input input', candidateInput request first = .ok input ∧
      candidateInput request second = .ok input' := by
  cases fuel with
  | zero => cases loop
  | succ fuel =>
    rw [pairLoop, pairRound] at loop
    cases found : candidateInput request first with
    | error message => simp [found] at loop
    | ok input =>
      cases found' : candidateInput request second with
      | error message => simp [found, found'] at loop
      | ok input' => exact ⟨input, input', rfl, rfl⟩

variable {all : List (Candidate Hash)} {size : Nat}

private theorem finalResult_of_residualBranch
    (branch : residualBranch request all size progress = .ok final)
    (success : final.finalResult = true) : progress.finalResult = true := by
  -- the residual branch never repairs a failure
  unfold residualBranch residualRound at branch
  split at branch
  · split at branch
    · cases branch
      exact success
    · split at branch
      · cases branch
      · split at branch
        · cases branch
          cases success
        · cases branch
          exact (emit_finalResult.mp success).1
  · cases branch
    exact success

private theorem residualBranch_true (small : ∀ candidate ∈ all, candidate.note.value.toNat < 2 ^ 32)
    (inside : size ≤ all.length) (remaining : progress.remaining.toInt = rest)
    (public_ : vpub request progress.included = (old, new))
    (branch : residualBranch request all size progress = .ok final)
    (success : final.finalResult = true) :
    (size % 2 = 0 → final = progress) ∧
      (size % 2 = 1 → ∃ candidate js, all[size - 1]? = some candidate ∧
        ResidualOK request candidate rest old new ∧ final.result = progress.result ++ [js] ∧
        Moves js [some candidate.position, none] candidate.note.value.toNat rest old new) := by
  rw [residualBranch] at branch
  by_cases odd : size % 2 = 1
  · have lookup : all[size - 1]? = some all[size - 1] := List.getElem?_eq_getElem (by omega)
    rw [if_pos odd, lookup] at branch
    obtain ⟨ok, js, extended, moves⟩ :=
      residualRound_true (small _ (List.getElem_mem _)) remaining public_ branch success
    exact ⟨fun even => by omega, fun _ => ⟨_, js, lookup, ok, extended, moves⟩⟩
  · rw [if_neg odd] at branch
    cases branch
    exact ⟨fun _ => rfl, fun contrary => absurd contrary odd⟩

private theorem residualBranch_ends (small : ∀ candidate ∈ all, candidate.note.value.toNat < 2 ^ 32)
    (remaining : progress.remaining.toInt = rest)
    (public_ : vpub request progress.included = (old, new))
    (ok : size % 2 = 1 → ∃ candidate, all[size - 1]? = some candidate ∧
      ResidualOK request candidate rest old new)
    (before : progress.finalResult = true) :
    ∃ final, residualBranch request all size progress = .ok final ∧ final.finalResult = true := by
  rw [residualBranch]
  by_cases odd : size % 2 = 1
  · obtain ⟨candidate, lookup, residualOK⟩ := ok odd
    rw [if_pos odd, lookup]
    exact residualRound_ends (small _ (List.mem_of_getElem? lookup)) remaining public_ residualOK
      before
  · rw [if_neg odd]
    exact ⟨progress, rfl, before⟩

end

/-! The selection as a whole. -/

/-- The conditions under which a selection succeeds: by the two smallest unspent
notes and, for an odd number of them, one note of the whole query result. -/
def SelectionOK (request : Request Hash) (all : List (Candidate Hash)) (rest : Nat) :
    List (Candidate Hash) → Prop
  | [] => True
  | [_] => ∃ residual, all[0]? = some residual ∧
      ResidualOK request residual rest request.vpubOldTotal request.vpubNewTotal
  | first :: second :: others =>
    Anchored request first ∧ Anchored request second ∧
      LoopOK (first.note.value.toNat + second.note.value.toNat) rest request.vpubOldTotal
        request.vpubNewTotal ∧
      LoopKeys request (first.note.value.toNat + second.note.value.toNat) rest ∧
      (others.length % 2 = 1 → ∃ residual, all[others.length + 1]? = some residual ∧
        ResidualOK request residual 0 0 0)

/-- The origins of the joinsplits, the pair being used `count` times. -/
def selectionOrigins (all : List (Candidate Hash)) (count : Nat) :
    List (Candidate Hash) → List (Option Nat)
  | [] => []
  | [_] => [all[0]?.map (·.position), none]
  | first :: second :: others =>
    pairOrigins first second count ++
      if others.length % 2 = 1 then [all[others.length + 1]?.map (·.position), none] else []

omit [TreeHash Hash] [DecidableEq Hash] in
theorem selectionOrigins_ne_nil {all notes : List (Candidate Hash)} {count : Nat}
    (positive : 1 ≤ count) (nonempty : notes ≠ []) : selectionOrigins all count notes ≠ [] := by
  obtain ⟨count, rfl⟩ := Nat.exists_eq_add_of_le' positive
  rcases notes with _ | ⟨first, _ | ⟨second, others⟩⟩
  · exact absurd rfl nonempty
  · exact nofun
  · simp [selectionOrigins, pairOrigins, List.replicate_succ]

section

variable {request : Request Hash} {sorting : ValueSort Hash} {fromValue : Int64} {rest : Nat}
  {all : List (Candidate Hash)} {made : List (JSDescription Hash)}

theorem selection_eq_returned {fuel : Nat} {success : Bool} :
    selection request sorting fuel fromValue all = .returned success made ↔
      ∃ progress final,
        pairs request fuel (unspent sorting all) ⟨fromValue, false, true, []⟩ =
          .ok (some progress) ∧
        residualBranch request all (unspent sorting all).length progress = .ok final ∧
        final.finalResult = success ∧ final.result = made := by
  rw [selection]
  cases pairs request fuel (unspent sorting all) ⟨fromValue, false, true, []⟩ with
  | error message => simp
  | ok loop =>
    cases loop with
    | none => simp
    | some progress =>
      cases branch : residualBranch request all (unspent sorting all).length progress with
      | error message => simp [branch]
      | ok final => simp [branch]

omit [TreeHash Hash] [DecidableEq Hash] in
theorem mem_unspent (sorting : ValueSort Hash) (all : List (Candidate Hash))
    (candidate : Candidate Hash) :
    candidate ∈ unspent sorting all ↔ candidate ∈ all ∧ candidate.note.status = false := by
  rw [unspent, (sorting.perm _).mem_iff, List.mem_filter, decide_eq_true_eq]

omit [TreeHash Hash] [DecidableEq Hash] in
private theorem unspent_length_le (sorting : ValueSort Hash) (all : List (Candidate Hash)) :
    (unspent sorting all).length ≤ all.length := by
  rw [unspent, (sorting.perm _).length_eq]
  exact List.length_filter_le _ _

omit [TreeHash Hash] [DecidableEq Hash] in
private theorem Batch.residual {first second : Candidate Hash} {others : List (Candidate Hash)}
    {pairsMade : List (JSDescription Hash)} {count : Nat} {paid old new : Int}
    (batch : Batch pairsMade (pairOrigins first second count) paid old new)
    (even : others.length % 2 = 0 → made = pairsMade)
    (odd : others.length % 2 = 1 → ∃ candidate js, all[others.length + 1]? = some candidate ∧
      made = pairsMade ++ [js] ∧
      Moves js [some candidate.position, none] candidate.note.value.toNat (0 : Nat) 0 0) :
    Batch made (selectionOrigins all count (first :: second :: others)) paid old new := by
  -- the joinsplits of the pair, and behind them the residual one with nothing to pay
  rw [selectionOrigins]
  by_cases isOdd : others.length % 2 = 1
  · obtain ⟨candidate, js, lookup, joined, moves⟩ := odd isOdd
    have both := batch.append (Moves.batch moves)
    simp only [UInt64.toNat_zero, Int.natCast_zero, Int.add_zero] at both
    rw [if_pos isOdd, lookup, joined]
    exact both
  · rw [if_neg isOdd, List.append_nil, even (by omega)]
    exact batch

/-- A successful selection meets the conditions, and its joinsplits pay the
value: the pair is used once exactly when it covers the value. -/
theorem selection_true {fuel : Nat}
    (small : ∀ candidate ∈ all, candidate.note.value.toNat < 2 ^ 32)
    (value : fromValue.toInt = rest)
    (returned : selection request sorting fuel fromValue all = .returned true made) :
    SelectionOK request all rest (unspent sorting all) ∧
      (unspent sorting all = [] → made = []) ∧
      (unspent sorting all ≠ [] → ∃ count,
        Batch made (selectionOrigins all count (unspent sorting all)) rest
          request.vpubOldTotal.toNat request.vpubNewTotal.toNat ∧
        1 ≤ count ∧ ∀ first second others, unspent sorting all = first :: second :: others →
          (count = 1 ↔ rest ≤ first.note.value.toNat + second.note.value.toNat)) := by
  obtain ⟨progress, final, loop, branch, success, rfl⟩ := selection_eq_returned.mp returned
  have inside := unspent_length_le sorting all
  have members := fun candidate => (mem_unspent sorting all candidate).mp
  have public_ : vpub request false = (request.vpubOldTotal, request.vpubNewTotal) := rfl
  generalize unspent sorting all = notes at loop branch inside members ⊢
  rcases notes with _ | ⟨first, _ | ⟨second, others⟩⟩
  · -- no unspent note: nothing is made
    cases loop
    cases branch
    exact ⟨trivial, fun _ => rfl, fun contrary => absurd rfl contrary⟩
  · -- one: the residual branch pays
    cases loop
    obtain ⟨candidate, js, lookup, ok, extended, moves⟩ :=
      (residualBranch_true small inside value public_ branch success).2 rfl
    refine ⟨⟨candidate, lookup, ok⟩, nofun, fun _ => ⟨1, ?_, Nat.le_refl 1, nofun⟩⟩
    rw [extended, selectionOrigins, show all[0]? = some candidate from lookup]
    exact Moves.batch moves
  · -- two or more: the pair pays, and a residual note is joined with nothing to pay
    obtain ⟨input, input', found, found'⟩ := pairLoop_found loop
    have smallFirst := small first (members first (by simp)).1
    have smallSecond := small second (members second (by simp)).1
    obtain ⟨_, spendable, loopOK, keys, done, included, pairsMade, extended, count, batch, positive,
        once⟩ := pairLoop_true found found' smallFirst smallSecond rfl value public_ loop
      (finalResult_of_residualBranch branch success)
    have nothing : progress.remaining.toInt = (0 : Nat) := by rw [done]; rfl
    have zero : vpub request progress.included = (0, 0) := by rw [included]; rfl
    obtain ⟨even, odd⟩ := residualBranch_true small inside nothing zero branch success
    have parity : (first :: second :: others).length % 2 = others.length % 2 := by
      simp only [List.length_cons]
      omega
    rw [parity] at even odd
    have anchored : Anchored request first ∧ Anchored request second :=
      ⟨⟨input, found, spendable _ (by simp)⟩, ⟨input', found', spendable _ (by simp)⟩⟩
    refine ⟨⟨anchored.1, anchored.2, loopOK, keys, fun isOdd => ?_⟩, nofun, fun _ => ⟨count, ?_,
      positive, ?_⟩⟩
    · obtain ⟨candidate, _, lookup, ok, _, _⟩ := odd isOdd
      exact ⟨candidate, lookup, ok⟩
    · rw [List.nil_append] at extended
      apply batch.residual
      · intro isEven
        rw [even isEven, extended]
      · intro isOdd
        obtain ⟨candidate, js, lookup, _, joined, moves⟩ := odd isOdd
        exact ⟨candidate, js, lookup, by rw [joined, extended], moves⟩
    · rintro _ _ _ ⟨⟩
      exact once

theorem selection_ends (small : ∀ candidate ∈ all, candidate.note.value.toNat < 2 ^ 32)
    (value : fromValue.toInt = rest) (ok : SelectionOK request all rest (unspent sorting all)) :
    ∃ fuel made, selection request sorting fuel fromValue all = .returned true made := by
  have public_ : vpub request false = (request.vpubOldTotal, request.vpubNewTotal) := rfl
  -- it is enough to end the pair loop with success and to meet what the residual branch needs
  suffices reached : ∃ fuel progress rest old new,
      pairs request fuel (unspent sorting all) ⟨fromValue, false, true, []⟩ =
        .ok (some progress) ∧ progress.finalResult = true ∧ progress.remaining.toInt = (rest : Nat) ∧
      vpub request progress.included = (old, new) ∧
      ((unspent sorting all).length % 2 = 1 →
        ∃ candidate, all[(unspent sorting all).length - 1]? = some candidate ∧
          ResidualOK request candidate rest old new) by
    obtain ⟨fuel, progress, rest, old, new, loop, before, remaining, shown, residualOK⟩ := reached
    obtain ⟨final, branch, success⟩ := residualBranch_ends small remaining shown residualOK before
    exact ⟨fuel, final.result, selection_eq_returned.mpr
      ⟨progress, final, loop, branch, success, rfl⟩⟩
  have members := fun candidate => (mem_unspent sorting all candidate).mp
  generalize unspent sorting all = notes at ok members ⊢
  rcases notes with _ | ⟨first, _ | ⟨second, others⟩⟩
  · exact ⟨0, _, rest, _, _, rfl, rfl, value, public_, nofun⟩
  · exact ⟨0, _, rest, _, _, rfl, rfl, value, public_, fun _ => ok⟩
  · obtain ⟨⟨input, found, spendable⟩, ⟨input', found', spendable'⟩, loopOK, keys, residualOK⟩ := ok
    have smallFirst := small first (members first (by simp)).1
    have smallSecond := small second (members second (by simp)).1
    have before : (⟨fromValue, false, true, []⟩ : Progress Hash).finalResult = true := rfl
    obtain ⟨fuel, progress, loop, success⟩ := pairLoop_ends found found' smallFirst smallSecond rfl
      (by simpa using ⟨spendable, spendable'⟩) value public_ loopOK keys before
    obtain ⟨_, _, _, _, done, included, _⟩ := pairLoop_true found found' smallFirst smallSecond rfl
      value public_ loop success
    refine ⟨fuel, progress, 0, 0, 0, loop, success, by rw [done]; rfl, by rw [included]; rfl, ?_⟩
    intro odd
    simp only [List.length_cons] at odd
    exact residualOK (by omega)

end

end CbDaemon.JoinSplit.Selection
