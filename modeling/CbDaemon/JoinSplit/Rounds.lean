/- module: CbDaemon/JoinSplit/Rounds
   source: src/cblib/request_methods.cpp
   digest: What each round of the creator accepts and what its joinsplit moves. -/

import CbDaemon.JoinSplit.Creator

set_option autoImplicit false
set_option relaxedAutoImplicit false

namespace CbDaemon.JoinSplit.Rounds
open Base.Machine Merkle.PerfectTree Prove Creator

variable {Hash : Type} [TreeHash Hash] [DecidableEq Hash]

/-- A selected note has an input that the wallet may spend under the root. -/
def Anchored (request : Request Hash) (candidate : Candidate Hash) : Prop :=
  ∃ input, candidateInput request candidate = .ok input ∧
    Spendable request.prims request.root input

/-- A joinsplit moves `paid` out of inputs of the given origins and value: the
rest goes back, and the destination gets what is paid plus the net public value. -/
structure Moves (js : JSDescription Hash) (sources : List (Option Nat)) (value : Nat) (paid : Int)
    (old new : UInt64) : Prop where
  origins : js.inputs.map (·.origin) = sources
  entering : inputValue js.inputs = value
  vpubOld : js.vpubOld.toInt = old.toNat
  vpubNew : js.vpubNew.toInt = new.toNat
  back : (js.outputs.1.value.toNat : Int) = value - paid
  destination : (js.outputs.2.value.toNat : Int) = paid + old.toNat - new.toNat

def Accepts (request : Request Hash) (inputs : List (JSInput Hash))
    (outputs : JSOutput Hash × JSOutput Hash) (old new : UInt64) : Prop :=
  (∀ input ∈ inputs, Spendable request.prims request.root input) ∧
    old.toNat + inputValue inputs = new.toNat + outputs.1.value.toNat + outputs.2.value.toNat ∧
    old.toNat + inputValue inputs ≤ 2100000000000000 ∧ Encrypts request.prims outputs

def description (request : Request Hash) (inputs : List (JSInput Hash))
    (outputs : JSOutput Hash × JSOutput Hash) (old new : UInt64) : JSDescription Hash :=
  ⟨old.toInt64, new.toInt64, request.root,
    inputs.map fun input => request.prims.nullifier input.key input.note.rho, inputs, outputs⟩

section

variable {request : Request Hash} {inputs : List (JSInput Hash)} {outputs : JSOutput Hash × JSOutput Hash}
  {next : Int64} {progress : Progress Hash}

theorem emit_of_accepts
    (accepts : Accepts request inputs outputs (vpub request progress.included).1
      (vpub request progress.included).2) :
    emit request inputs outputs next progress =
      ⟨next, true, progress.finalResult, progress.result ++
        [description request inputs outputs (vpub request progress.included).1
          (vpub request progress.included).2]⟩ := by
  obtain ⟨spendable, balance, cap, encrypts⟩ := accepts
  have made := describe_eq_ok.mpr ⟨spendable, balance, cap, encrypts, rfl⟩
  rw [emit]
  simp only [made]
  rfl

theorem emit_of_not_accepts
    (refused : ¬ Accepts request inputs outputs (vpub request progress.included).1
      (vpub request progress.included).2) :
    emit request inputs outputs next progress = ⟨next, true, false, progress.result⟩ := by
  rw [emit]
  cases made : describe request.prims request.root inputs outputs
      (vpub request progress.included).1 (vpub request progress.included).2 with
  | error message => simp only [made]
  | ok js =>
    obtain ⟨spendable, balance, cap, encrypts, _⟩ := describe_eq_ok.mp made
    exact absurd ⟨spendable, balance, cap, encrypts⟩ refused

@[simp]
theorem emit_remaining : (emit request inputs outputs next progress).remaining = next := by
  by_cases accepts : Accepts request inputs outputs (vpub request progress.included).1
      (vpub request progress.included).2
  · rw [emit_of_accepts accepts]
  · rw [emit_of_not_accepts accepts]

@[simp]
theorem emit_included : (emit request inputs outputs next progress).included = true := by
  by_cases accepts : Accepts request inputs outputs (vpub request progress.included).1
      (vpub request progress.included).2
  · rw [emit_of_accepts accepts]
  · rw [emit_of_not_accepts accepts]

theorem emit_finalResult :
    (emit request inputs outputs next progress).finalResult = true ↔
      progress.finalResult = true ∧
        Accepts request inputs outputs (vpub request progress.included).1
          (vpub request progress.included).2 := by
  by_cases accepts : Accepts request inputs outputs (vpub request progress.included).1
      (vpub request progress.included).2
  · simp [emit_of_accepts accepts, accepts]
  · simp [emit_of_not_accepts accepts, accepts]

omit [DecidableEq Hash] in
theorem Accepts.moves {old new : UInt64} (accepts : Accepts request inputs outputs old new)
    (paid : Int) (back : (outputs.1.value.toNat : Int) = inputValue inputs - paid) :
    Moves (description request inputs outputs old new) (inputs.map (·.origin)) (inputValue inputs)
      paid old new := by
  obtain ⟨_, balance, cap, _⟩ := accepts
  constructor
  · rfl
  · rfl
  · exact toInt_toInt64 (by omega)
  · exact toInt_toInt64 (by omega)
  · exact back
  · change (outputs.2.value.toNat : Int) = _
    omega

end

private theorem candidateInput_eq_ok {request : Request Hash} {candidate : Candidate Hash}
    {input : JSInput Hash} (found : candidateInput request candidate = .ok input) :
    input.note.value = candidate.note.value ∧ input.origin = some candidate.position := by
  unfold candidateInput at found
  dsimp only at found
  split at found
  · cases found
  · cases found
    exact ⟨rfl, rfl⟩

omit [DecidableEq Hash] in
theorem dummyInput_spendable (prims : Primitives Hash) (rt : Hash) (seed : DummySeed Hash) :
    Spendable prims rt (dummyInput prims seed) :=
  ⟨fun nonzero => absurd rfl nonzero, rfl⟩

/-! The two kinds of outputs. -/

/-- The keys that the outputs of a paying round are encrypted to are accepted. -/
def PayingKeys (request : Request Hash) : Prop :=
  request.prims.accepted (request.prims.pkEnc request.aSk) = true ∧
    request.prims.accepted request.destination.pkEnc = true

def ShortKeys (request : Request Hash) : Prop :=
  request.prims.accepted (request.prims.pkEnc request.outputKey) = true ∧
    request.prims.accepted request.destination.pkEnc = true

/-- The numbers with which a round can pay `rest` out of `value`. -/
def PayOK (value rest : Nat) (old new : UInt64) : Prop :=
  rest < 2 ^ 31 ∧ value - rest < 2 ^ 31 ∧ new.toNat ≤ old.toNat + rest ∧
    old.toNat + value ≤ 2100000000000000

instance (value rest : Nat) (old new : UInt64) : Decidable (PayOK value rest old new) :=
  inferInstanceAs (Decidable (_ ∧ _))

omit [DecidableEq Hash] in
private theorem accepts_payingOutputs {request : Request Hash} {inputs : List (JSInput Hash)}
    {old new : UInt64} {back remaining : Int64} {value rest : Nat} (total : inputValue inputs = value)
    (restValue : remaining.toInt = rest) (backValue : back.toInt = (value - rest : Nat))
    (le : rest ≤ value) (small : value < 2 ^ 40) :
    Accepts request inputs (payingOutputs request old new back remaining) old new ↔
      (∀ input ∈ inputs, Spendable request.prims request.root input) ∧
        PayOK value rest old new ∧ PayingKeys request := by
  have keys : Encrypts request.prims (payingOutputs request old new back remaining) ↔
      PayingKeys request := Iff.rfl
  unfold Accepts PayOK
  rw [total, keys]
  constructor
  · rintro ⟨spendable, balance, cap, accepted⟩
    obtain ⟨one, two, three⟩ := (narrowed_balance_iff restValue backValue le small cap).mp balance
    exact ⟨spendable, ⟨one, two, three, cap⟩, accepted⟩
  · rintro ⟨spendable, ⟨one, two, three, cap⟩, accepted⟩
    exact ⟨spendable, (narrowed_balance_iff restValue backValue le small cap).mpr ⟨one, two, three⟩,
      cap, accepted⟩

theorem narrow_eq {x : Int64} {n : Nat} (value : x.toInt = n) (small : n < 2 ^ 31) :
    (narrow x).toNat = n := by
  rcases narrow_spec value (by omega) with ⟨_, same⟩ | ⟨large, _⟩
  · exact same
  · omega

omit [DecidableEq Hash] in
private theorem Accepts.moves_rest {request : Request Hash} {inputs : List (JSInput Hash)}
    {old new : UInt64} {back remaining : Int64} {value rest : Nat}
    (accepts : Accepts request inputs (payingOutputs request old new back remaining) old new)
    (total : inputValue inputs = value) (restValue : remaining.toInt = rest)
    (backValue : back.toInt = (value - rest : Nat)) (le : rest ≤ value) (small : value < 2 ^ 40) :
    Moves (description request inputs (payingOutputs request old new back remaining) old new)
      (inputs.map (·.origin)) value rest old new := by
  obtain ⟨_, payOK, _⟩ := (accepts_payingOutputs total restValue backValue le small).mp accepts
  have moved := accepts.moves rest (by
    rw [payingOutputs, narrow_eq backValue payOK.2.1, total]
    omega)
  rw [total] at moved
  exact moved

omit [DecidableEq Hash] in
private theorem accepts_shortOutputs {request : Request Hash} {inputs : List (JSInput Hash)}
    {old new : UInt64} {pair : Int64} {value : Nat} (total : inputValue inputs = value) :
    Accepts request inputs (shortOutputs request pair) old new ↔
      (∀ input ∈ inputs, Spendable request.prims request.root input) ∧
        (old.toNat + value = new.toNat + (narrow pair).toNat ∧
          old.toNat + value ≤ 2100000000000000) ∧ ShortKeys request := by
  -- with a dummy first output the balance fixes the second one
  have keys : Encrypts request.prims (shortOutputs request pair) ↔ ShortKeys request := Iff.rfl
  unfold Accepts
  rw [total, keys, and_assoc]
  rfl

def RoundOK (pair : Int64) (value rest : Nat) (old new : UInt64) : Prop :=
  if rest ≤ value then PayOK value rest old new
  else old.toNat + value = new.toNat + (narrow pair).toNat ∧ old.toNat + value ≤ 2100000000000000

/-- The keys that the outputs of a round of the pair loop are encrypted to. -/
def RoundKeys (request : Request Hash) (value rest : Nat) : Prop :=
  if rest ≤ value then PayingKeys request else ShortKeys request

section

variable {request : Request Hash} {first second : Candidate Hash} {input input' : JSInput Hash}
  {progress : Progress Hash} {rest : Nat}

omit [TreeHash Hash] [DecidableEq Hash] in
theorem pairValue_eq (small : first.note.value.toNat < 2 ^ 32)
    (small' : second.note.value.toNat < 2 ^ 32) :
    (pairValue first second).toInt =
      (first.note.value.toNat + second.note.value.toNat : Nat) := by
  have sum : (first.note.value + second.note.value).toNat =
      first.note.value.toNat + second.note.value.toNat := by
    rw [UInt64.toNat_add]
    omega
  rw [pairValue, toInt_toInt64 (by omega), sum]

/-- One round of the pair loop: what it leaves to pay, what it accepts, and what
its joinsplit moves. -/
theorem pairRound_spec (found : candidateInput request first = .ok input)
    (found' : candidateInput request second = .ok input')
    (small : first.note.value.toNat < 2 ^ 32) (small' : second.note.value.toNat < 2 ^ 32)
    (remaining : progress.remaining.toInt = rest) {value : Nat}
    (total : value = first.note.value.toNat + second.note.value.toNat) {old new : UInt64}
    (public_ : vpub request progress.included = (old, new)) :
    ∃ outputs next, pairRound request first second progress =
        .ok (emit request [input, input'] outputs next progress) ∧
      next.toInt = (rest - value : Nat) ∧
      (Accepts request [input, input'] outputs old new ↔
        (∀ i ∈ [input, input'], Spendable request.prims request.root i) ∧
          RoundOK (pairValue first second) value rest old new ∧ RoundKeys request value rest) ∧
      (Accepts request [input, input'] outputs old new →
        Moves (description request [input, input'] outputs old new)
          [some first.position, some second.position] value (min rest value : Nat) old new) := by
  obtain ⟨value₁, origin₁⟩ := candidateInput_eq_ok found
  obtain ⟨value₂, origin₂⟩ := candidateInput_eq_ok found'
  have pair := pairValue_eq small small'
  have entering : inputValue [input, input'] = value := by
    simp [inputValue, value₁, value₂, total]
  have origins : [input, input'].map (·.origin) =
      [some first.position, some second.position] := by
    simp [origin₁, origin₂]
  have bound := progress.remaining.toInt_lt
  rw [← total] at pair
  unfold pairRound RoundOK RoundKeys
  simp only [found, found', public_, Int64.le_iff_toInt_le, remaining, pair]
  by_cases covers : rest ≤ value
  · -- the pair covers the rest
    have back : (pairValue first second - progress.remaining).toInt = (value - rest : Nat) :=
      toInt_sub_eq (by omega) (by omega)
    refine ⟨_, 0, if_pos (by omega), ?_, ?_, ?_⟩
    · rw [Nat.sub_eq_zero_of_le covers]
      rfl
    · rw [accepts_payingOutputs entering remaining back covers (by omega), if_pos covers,
        if_pos covers]
    · intro accepts
      rw [Nat.min_eq_left covers, ← origins]
      exact accepts.moves_rest entering remaining back covers (by omega)
  · -- the pair falls short: nothing goes back, and the destination gets all of it
    refine ⟨_, progress.remaining - pairValue first second, if_neg (by omega), ?_, ?_, ?_⟩
    · exact toInt_sub_eq (by omega) (by omega)
    · rw [accepts_shortOutputs entering, if_neg covers, if_neg covers]
    · intro accepts
      have moved := accepts.moves value (by
        rw [entering]
        simp [shortOutputs, JSOutput.dummy])
      rw [origins, entering] at moved
      rw [Nat.min_eq_right (by omega)]
      exact moved

theorem residualRound_spec (found : candidateInput request first = .ok input)
    (small : first.note.value.toNat < 2 ^ 32) (remaining : progress.remaining.toInt = rest)
    {value : Nat} (total : value = first.note.value.toNat) {old new : UInt64}
    (public_ : vpub request progress.included = (old, new)) :
    (value < rest → residualRound request first progress =
        .ok { progress with finalResult := false }) ∧
    (rest ≤ value → ∃ outputs, residualRound request first progress =
        .ok (emit request [input, dummyInput request.prims (request.seeds 0)] outputs
          progress.remaining progress) ∧
      (Accepts request [input, dummyInput request.prims (request.seeds 0)] outputs old new ↔
        Spendable request.prims request.root input ∧ PayOK value rest old new ∧
          PayingKeys request) ∧
      (Accepts request [input, dummyInput request.prims (request.seeds 0)] outputs old new →
        Moves (description request [input, dummyInput request.prims (request.seeds 0)] outputs
          old new) [some first.position, none] value rest old new)) := by
  obtain ⟨value₁, origin₁⟩ := candidateInput_eq_ok found
  have bound := progress.remaining.toInt_lt
  have unsigned : progress.remaining.toUInt64.toNat = rest := by
    have wrapped := toNat_toUInt64 progress.remaining
    omega
  -- the source compares as unsigned, which agrees because the rest is not negative
  have test : first.note.value < progress.remaining.toUInt64 ↔ value < rest := by
    rw [UInt64.lt_iff_toNat_lt, unsigned, total]
  unfold residualRound
  simp only [found, public_, test]
  constructor
  · intro short
    rw [if_pos short]
  · intro enough
    have entering : inputValue [input, dummyInput request.prims (request.seeds 0)] = value := by
      simp [inputValue, value₁, total, dummyInput]
    have difference : (first.note.value - progress.remaining.toUInt64).toNat = value - rest := by
      rw [UInt64.toNat_sub, unsigned]
      omega
    have back : (first.note.value - progress.remaining.toUInt64).toInt64.toInt =
        (value - rest : Nat) := by
      rw [toInt_toInt64 (by omega), difference]
    refine ⟨_, if_neg (Nat.not_lt.mpr enough), ?_, ?_⟩
    · rw [accepts_payingOutputs entering remaining back enough (by omega)]
      simp [dummyInput_spendable]
    · intro accepts
      have moved := accepts.moves_rest entering remaining back enough (by omega)
      simpa [origin₁, dummyInput] using moved

end

end CbDaemon.JoinSplit.Rounds
