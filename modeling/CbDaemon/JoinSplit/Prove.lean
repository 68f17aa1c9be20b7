/- module: CbDaemon/JoinSplit/Prove
   source: zcash/JoinSplit.hpp, zcash/JoinSplit.cpp, primitives/transaction.cpp
   digest: The checks of one joinsplit accept exactly the spendable, balanced ones. -/

import CbDaemon.Wallet.Witness

set_option autoImplicit false
set_option relaxedAutoImplicit false

namespace CbDaemon.JoinSplit.Prove
open Merkle.PerfectTree Merkle.IncrementalTree Merkle.TreeWitness
open Wallet.Witness (treeDepth)

def maxMoney : UInt64 := 21000000 * 100000000

/-- `libzcash::Note`. -/
structure Note (Hash : Type) where
  aPk : Hash
  value : UInt64
  rho : Hash
  r : Hash
  deriving DecidableEq

structure PaymentAddress (Hash : Type) where
  aPk : Hash
  pkEnc : Hash
  deriving DecidableEq

/-- The functions of the zcash library that `prove` calls: the commitment of a note,
the two parts of the address of a spending key, `PRF_nf`, and whether
`crypto_scalarmult` accepts the `pk_enc` that a note is encrypted to. It refuses the
points of small order, and these whatever the ephemeral secret is. -/
structure Primitives (Hash : Type) where
  cm : Note Hash → Hash
  aPk : Hash → Hash
  pkEnc : Hash → Hash
  nullifier : Hash → Hash → Hash
  accepted : Hash → Bool

/-- `SpendingKey::address`. -/
def Primitives.address {Hash : Type} (prims : Primitives Hash) (key : Hash) :
    PaymentAddress Hash :=
  ⟨prims.aPk key, prims.pkEnc key⟩

/-- `JSInput`. The origin is not in the source: it is the place of the note in
the result of the user-note query, `none` for a dummy. -/
structure JSInput (Hash : Type) where
  witness : IncrementalWitness Hash
  note : Note Hash
  key : Hash
  origin : Option Nat
  deriving DecidableEq

structure JSOutput (Hash : Type) where
  addr : PaymentAddress Hash
  value : UInt64
  deriving DecidableEq

/-- `JSOutput()`, for a random key. -/
def JSOutput.dummy {Hash : Type} (prims : Primitives Hash) (key : Hash) : JSOutput Hash :=
  ⟨prims.address key, 0⟩

/-- `JSDescription`, with the inputs and outputs it was made from. -/
structure JSDescription (Hash : Type) where
  vpubOld : Int64
  vpubNew : Int64
  anchor : Hash
  nullifiers : List Hash
  inputs : List (JSInput Hash)
  outputs : JSOutput Hash × JSOutput Hash
  deriving DecidableEq

section

variable {Hash : Type} [TreeHash Hash] [DecidableEq Hash]

/-- The check of an input's witness, made if its note has a value. -/
def checkWitness (prims : Primitives Hash) (rt : Hash) (i : Nat) (input : JSInput Hash) :
    Except String Unit :=
  if input.note.value = 0 then .ok ()
  else if input.witness.root treeDepth ≠ rt then
    .error "joinsplit not anchored to the correct root"
  else
    match input.witness.element with
    | .error message => .error message
    | .ok element =>
      if prims.cm input.note ≠ element then
        .error ("witness of wrong element for joinsplit input: " ++ toString i)
      else .ok ()

/-- The checks of one input; the result is the new left-hand side. -/
def checkInput (prims : Primitives Hash) (rt : Hash) (i : Nat) (lhs : UInt64)
    (input : JSInput Hash) : Except String UInt64 :=
  match checkWitness prims rt i input with
  | .error message => .error message
  | .ok () =>
    if input.note.aPk ≠ prims.aPk input.key then
      .error "input note not authorized to spend with given key"
    else if maxMoney < input.note.value then .error "nonsensical input note value"
    else if maxMoney < lhs + input.note.value then
      .error "nonsensical left hand size of joinsplit balance"
    else .ok (lhs + input.note.value)

def checkInputs (prims : Primitives Hash) (rt : Hash) (lhs : UInt64)
    (inputs : List (JSInput Hash)) : Except String UInt64 :=
  inputs.zipIdx.foldlM (fun lhs entry => checkInput prims rt entry.2 lhs entry.1) lhs

/-- The checks of one output; the result is the new right-hand side. -/
def checkOutput (rhs : UInt64) (output : JSOutput Hash) : Except String UInt64 :=
  if maxMoney < output.value then .error "nonsensical output value"
  else if maxMoney < rhs + output.value then
    .error "nonsensical right hand side of joinsplit balance"
  else .ok (rhs + output.value)

def checkOutputs (rhs : UInt64) (outputs : List (JSOutput Hash)) : Except String UInt64 :=
  outputs.foldlM checkOutput rhs

/-- The encryption of the output notes to their recipients, up to the ciphertexts. -/
def encryptNotes (prims : Primitives Hash) : List (JSOutput Hash) → Except String Unit
  | [] => .ok ()
  | output :: outputs =>
    if prims.accepted output.addr.pkEnc then encryptNotes prims outputs
    else .error "Could not create DH secret"

/-- `JoinSplitCircuit::prove` without the proof itself (`computeProof` is false):
the nullifiers of the inputs. -/
def prove (prims : Primitives Hash) (inputs : List (JSInput Hash)) (outputs : List (JSOutput Hash))
    (vpubOld vpubNew : UInt64) (rt : Hash) : Except String (List Hash) :=
  if maxMoney < vpubOld then .error "nonsensical vpub_old value"
  else if maxMoney < vpubNew then .error "nonsensical vpub_new value"
  else
    match checkInputs prims rt vpubOld inputs with
    | .error message => .error message
    | .ok lhs =>
      match checkOutputs vpubNew outputs with
      | .error message => .error message
      | .ok rhs =>
        if lhs ≠ rhs then .error "invalid joinsplit balance"
        else
          match encryptNotes prims outputs with
          | .error message => .error message
          | .ok () => .ok (inputs.map fun input => prims.nullifier input.key input.note.rho)

/-- The `JSDescription` constructor: the public values pass through `CAmount`. -/
def describe (prims : Primitives Hash) (rt : Hash) (inputs : List (JSInput Hash))
    (outputs : JSOutput Hash × JSOutput Hash) (vpubOld vpubNew : UInt64) :
    Except String (JSDescription Hash) :=
  match prove prims inputs [outputs.1, outputs.2] vpubOld.toInt64.toUInt64
      vpubNew.toInt64.toUInt64 rt with
  | .error message => .error message
  | .ok nullifiers =>
    .ok ⟨vpubOld.toInt64, vpubNew.toInt64, rt, nullifiers, inputs, outputs⟩

def Spendable (prims : Primitives Hash) (rt : Hash) (input : JSInput Hash) : Prop :=
  (input.note.value ≠ 0 → input.witness.root treeDepth = rt ∧
      input.witness.element = .ok (prims.cm input.note)) ∧
    input.note.aPk = prims.aPk input.key

private theorem checkWitness_eq_ok {prims : Primitives Hash} {rt : Hash} {i : Nat}
    {input : JSInput Hash} :
    checkWitness prims rt i input = .ok () ↔
      (input.note.value ≠ 0 → input.witness.root treeDepth = rt ∧
        input.witness.element = .ok (prims.cm input.note)) := by
  unfold checkWitness
  by_cases zero : input.note.value = 0
  · simp [zero]
  · by_cases anchored : input.witness.root treeDepth = rt
    · cases found : input.witness.element with
      | error message => simp [zero, anchored]
      | ok element => simp [zero, anchored, eq_comm]
    · simp [zero, anchored]

private theorem maxMoney_lt {x : UInt64} : maxMoney < x ↔ 2100000000000000 < x.toNat :=
  UInt64.lt_iff_toNat_lt

private theorem add_capped {sum x total : UInt64} (small : sum.toNat ≤ 2100000000000000) :
    (¬ maxMoney < x ∧ ¬ maxMoney < sum + x ∧ sum + x = total) ↔
      total.toNat = sum.toNat + x.toNat ∧ total.toNat ≤ 2100000000000000 := by
  have wrapped := UInt64.toNat_add sum x
  simp only [maxMoney_lt, ← UInt64.toNat_inj]
  constructor
  · rintro ⟨_, below, same⟩
    omega
  · rintro ⟨same, below⟩
    omega

private theorem checkInput_eq_ok {prims : Primitives Hash} {rt : Hash} {i : Nat}
    {lhs total : UInt64}
    {input : JSInput Hash} (small : lhs.toNat ≤ 2100000000000000) :
    checkInput prims rt i lhs input = .ok total ↔
      Spendable prims rt input ∧ total.toNat = lhs.toNat + input.note.value.toNat ∧
        total.toNat ≤ 2100000000000000 := by
  rw [← add_capped small, Spendable, ← checkWitness_eq_ok, and_assoc]
  unfold checkInput
  cases checkWitness prims rt i input with
  | error message => simp
  | ok _ =>
    by_cases authorized : input.note.aPk = prims.aPk input.key
    · by_cases sensical : maxMoney < input.note.value
      · simp [authorized, sensical]
      · by_cases capped : maxMoney < lhs + input.note.value
        · simp [authorized, sensical, capped]
        · simp [authorized, sensical, capped]
    · simp [authorized]

omit [TreeHash Hash] [DecidableEq Hash] in
private theorem checkOutput_eq_ok {rhs total : UInt64} {output : JSOutput Hash}
    (small : rhs.toNat ≤ 2100000000000000) :
    checkOutput rhs output = .ok total ↔
      total.toNat = rhs.toNat + output.value.toNat ∧ total.toNat ≤ 2100000000000000 := by
  rw [← add_capped small]
  unfold checkOutput
  by_cases sensical : maxMoney < output.value
  · simp [sensical]
  · by_cases capped : maxMoney < rhs + output.value
    · simp [sensical, capped]
    · simp [sensical, capped]

/-- A loop of capped additions succeeds when every step is allowed and the exact
total is within the cap. -/
private theorem foldlM_capped {α : Type} {step : UInt64 → α → Except String UInt64}
    (allowed : α → Prop)
    (value : α → Nat)
    (spec : ∀ sum total item, sum.toNat ≤ 2100000000000000 →
      (step sum item = .ok total ↔
        allowed item ∧ total.toNat = sum.toNat + value item ∧ total.toNat ≤ 2100000000000000))
    (items : List α) {sum total : UInt64} (small : sum.toNat ≤ 2100000000000000) :
    items.foldlM step sum = .ok total ↔
      (∀ item ∈ items, allowed item) ∧ total.toNat = sum.toNat + (items.map value).sum ∧
        total.toNat ≤ 2100000000000000 := by
  induction items generalizing sum with
  | nil =>
    constructor
    · intro ok
      cases ok
      exact ⟨by simp, rfl, small⟩
    · rintro ⟨_, same, _⟩
      rw [UInt64.toNat_inj.mp same]
      rfl
  | cons item items ih =>
    rw [List.foldlM_cons, List.forall_mem_cons, List.map_cons, List.sum_cons]
    constructor
    · intro ok
      cases first : step sum item with
      | error message =>
        rw [first] at ok
        cases ok
      | ok next =>
        rw [first] at ok
        obtain ⟨good, exact, below⟩ := (spec sum next item small).mp first
        obtain ⟨others, rest, capped⟩ := (ih below).mp ok
        exact ⟨⟨good, others⟩, by omega, capped⟩
    · rintro ⟨⟨good, others⟩, exact, capped⟩
      -- the step's result is the exact sum, which the cap keeps from wrapping
      let next := UInt64.ofNat (sum.toNat + value item)
      have value : next.toNat = sum.toNat + value item := UInt64.toNat_ofNat_of_lt (by
        have : UInt64.size = 2 ^ 64 := rfl
        omega)
      have first : step sum item = .ok next :=
        (spec sum next item small).mpr ⟨good, value, by omega⟩
      rw [first]
      exact (ih (by omega)).mpr ⟨others, by omega, capped⟩

def inputValue (inputs : List (JSInput Hash)) : Nat := (inputs.map (·.note.value.toNat)).sum

private theorem checkInputs_eq_ok {prims : Primitives Hash} {rt : Hash} {lhs total : UInt64}
    {inputs : List (JSInput Hash)} (small : lhs.toNat ≤ 2100000000000000) :
    checkInputs prims rt lhs inputs = .ok total ↔
      (∀ input ∈ inputs, Spendable prims rt input) ∧
        total.toNat = lhs.toNat + inputValue inputs ∧ total.toNat ≤ 2100000000000000 := by
  rw [checkInputs, foldlM_capped (fun entry => Spendable prims rt entry.1)
    (fun entry => entry.1.note.value.toNat) (fun _ _ _ bound => checkInput_eq_ok bound) _ small]
  have entries : inputs.zipIdx.map Prod.fst = inputs := List.zipIdx_map_fst 0 inputs
  have all : (∀ entry ∈ inputs.zipIdx, Spendable prims rt entry.1) ↔
      ∀ input ∈ inputs, Spendable prims rt input := by
    nth_rewrite 2 [← entries]
    rw [List.forall_mem_map]
  have sum : inputs.zipIdx.map (fun entry => entry.1.note.value.toNat) =
      inputs.map (·.note.value.toNat) := by
    nth_rewrite 2 [← entries]
    rw [List.map_map]
    rfl
  rw [all, sum, inputValue]

omit [TreeHash Hash] [DecidableEq Hash] in
private theorem checkOutputs_eq_ok {rhs total : UInt64} {outputs : List (JSOutput Hash)}
    (small : rhs.toNat ≤ 2100000000000000) :
    checkOutputs rhs outputs = .ok total ↔
      total.toNat = rhs.toNat + (outputs.map (·.value.toNat)).sum ∧
        total.toNat ≤ 2100000000000000 := by
  rw [checkOutputs, foldlM_capped (fun _ => True) (fun output => output.value.toNat)
    (fun _ _ _ bound => by rw [checkOutput_eq_ok bound, true_and]) _ small]
  simp

def Encrypts (prims : Primitives Hash) (outputs : JSOutput Hash × JSOutput Hash) : Prop :=
  prims.accepted outputs.1.addr.pkEnc = true ∧ prims.accepted outputs.2.addr.pkEnc = true

omit [TreeHash Hash] [DecidableEq Hash] in
private theorem encryptNotes_eq_ok {prims : Primitives Hash}
    {outputs : JSOutput Hash × JSOutput Hash} :
    encryptNotes prims [outputs.1, outputs.2] = .ok () ↔ Encrypts prims outputs := by
  unfold Encrypts
  by_cases first : prims.accepted outputs.1.addr.pkEnc = true
  · by_cases second : prims.accepted outputs.2.addr.pkEnc = true
    · simp [encryptNotes, first, second]
    · simp [encryptNotes, first, second]
  · simp [encryptNotes, first]

/-- A description is made exactly of spendable inputs and outputs in balance whose
notes can be encrypted. -/
theorem describe_eq_ok {prims : Primitives Hash} {rt : Hash} {inputs : List (JSInput Hash)}
    {outputs : JSOutput Hash × JSOutput Hash} {vpubOld vpubNew : UInt64} {js : JSDescription Hash} :
    describe prims rt inputs outputs vpubOld vpubNew = .ok js ↔
      (∀ input ∈ inputs, Spendable prims rt input) ∧
      vpubOld.toNat + inputValue inputs =
        vpubNew.toNat + outputs.1.value.toNat + outputs.2.value.toNat ∧
      vpubOld.toNat + inputValue inputs ≤ 2100000000000000 ∧
      Encrypts prims outputs ∧
      js = ⟨vpubOld.toInt64, vpubNew.toInt64, rt,
        inputs.map fun input => prims.nullifier input.key input.note.rho, inputs, outputs⟩ := by
  rw [describe, prove, UInt64.toUInt64_toInt64, UInt64.toUInt64_toInt64]
  constructor
  · intro ok
    by_cases oldOver : maxMoney < vpubOld
    · simp [oldOver] at ok
    by_cases newOver : maxMoney < vpubNew
    · simp [oldOver, newOver] at ok
    simp only [oldOver, newOver, if_false] at ok
    rw [maxMoney_lt] at oldOver newOver
    cases left : checkInputs prims rt vpubOld inputs with
    | error message => simp [left] at ok
    | ok lhs =>
      cases right : checkOutputs vpubNew [outputs.1, outputs.2] with
      | error message => simp [left, right] at ok
      | ok rhs =>
        by_cases balanced : lhs = rhs
        · obtain ⟨spendable, entering, cap⟩ := (checkInputs_eq_ok (by omega)).mp left
          obtain ⟨leaving, _⟩ := (checkOutputs_eq_ok (by omega)).mp right
          cases sealed : encryptNotes prims [outputs.1, outputs.2] with
          | error message => simp [left, right, balanced, sealed] at ok
          | ok _ =>
            simp only [left, right, balanced, sealed, ne_eq, not_true_eq_false, if_false,
              Except.ok.injEq] at ok
            simp only [List.map_cons, List.map_nil, List.sum_cons, List.sum_nil] at leaving
            rw [balanced] at entering cap
            exact ⟨spendable, by omega, by omega, encryptNotes_eq_ok.mp sealed, ok.symm⟩
        · simp [left, right, balanced] at ok
  · rintro ⟨spendable, balance, cap, encrypts, rfl⟩
    have size : UInt64.size = 2 ^ 64 := rfl
    let total := UInt64.ofNat (vpubOld.toNat + inputValue inputs)
    have exact : total.toNat = vpubOld.toNat + inputValue inputs :=
      UInt64.toNat_ofNat_of_lt (by omega)
    have left : checkInputs prims rt vpubOld inputs = .ok total :=
      (checkInputs_eq_ok (by omega)).mpr ⟨spendable, exact, by omega⟩
    have right : checkOutputs vpubNew [outputs.1, outputs.2] = .ok total := by
      refine (checkOutputs_eq_ok (by omega)).mpr ⟨?_, by omega⟩
      simp only [List.map_cons, List.map_nil, List.sum_cons, List.sum_nil]
      omega
    have oldOver : ¬ maxMoney < vpubOld := by rw [maxMoney_lt]; omega
    have newOver : ¬ maxMoney < vpubNew := by rw [maxMoney_lt]; omega
    simp [oldOver, newOver, left, right, encryptNotes_eq_ok.mpr encrypts]

end

end CbDaemon.JoinSplit.Prove
