/- module: CbDaemon/Circuit/NoteGadget
   source: zcash/circuit/note.tcc
   digest: What the gadgets of spent and created notes accept. -/

import CbDaemon.Circuit.MerkleGadget

set_option autoImplicit false
set_option relaxedAutoImplicit false

namespace CbDaemon.Circuit.NoteGadget

open Base.Bits Base.R1cs Base.Machine BasicGadgets Sha256Gadget Conversions HashGadgets MerkleGadget
open LinearCombination (var)
open Crypto.Prf
open Codec.Keypair (Uint252)
open JoinSplit.Prove (Note)
open Merkle.PerfectTree (TreeHash)
open Merkle.TreePath (climb)

variable {p : ℕ} {V : Type} {depth : Nat}

/-- The variables of `note_gadget`. -/
inductive NoteWire where
  | value (i : Fin 64)
  | r (i : Fin 256)

def noteGadget (loc : NoteWire → V) : List (Constraint (ZMod p) V) :=
  (vars fun i => loc (.value i)).map generateBoolean ++
    (vars fun i => loc (.r i)).map generateBoolean

/-- The variables of `input_note_gadget`. -/
inductive InputNoteWire (depth : Nat) where
  | note (wire : NoteWire)
  | aSk (i : Fin 252)
  | aPk (i : Fin 256)
  | rho (i : Fin 256)
  | commitment (i : Fin 256)
  | spendAuthority (wire : CompressionWire)
  | exposeNullifiers (wire : CompressionWire)
  | commitToInputs (wire : CommitmentWire)
  | valueEnforce
  | witnessInput (wire : MerkleWire depth)

/-- `input_note_gadget`. -/
def inputNote (ZERO : V) (nullifier rt : List (Lc p V)) (loc : InputNoteWire depth → V) :
    List (Constraint (ZMod p) V) :=
  let value := vars fun i => loc (.note (.value i))
  let r := vars fun i => loc (.note (.r i))
  let aSk := vars fun i => loc (.aSk i)
  let aPk := vars fun i => loc (.aPk i)
  let rho := vars fun i => loc (.rho i)
  let commitment := vars fun i => loc (.commitment i)
  noteGadget (fun wire => loc (.note wire)) ++
  aSk.map generateBoolean ++
  rho.map generateBoolean ++
  prfAddrAPkGadget ZERO aSk aPk (fun wire => loc (.spendAuthority wire)) ++
  prfNfGadget ZERO aSk rho nullifier (fun wire => loc (.exposeNullifiers wire)) ++
  noteCommitment ZERO aPk value rho r commitment (fun wire => loc (.commitToInputs wire)) ++
  [generateBoolean (var (loc .valueEnforce)),
    ⟨packedAddition value, 1 - var (loc .valueEnforce), 0⟩] ++
  merkleTree commitment rt (loc .valueEnforce) fun wire => loc (.witnessInput wire)

/-- The variables of `output_note_gadget`. -/
inductive OutputNoteWire where
  | note (wire : NoteWire)
  | rho (i : Fin 256)
  | aPk (i : Fin 256)
  | preventFaerieGold (wire : CompressionWire)
  | commitToOutputs (wire : CommitmentWire)

/-- `output_note_gadget`. -/
def outputNote (ZERO : V) (phi hSig : List (Lc p V)) (nonce : Bool) (commitment : List (Lc p V))
    (loc : OutputNoteWire → V) : List (Constraint (ZMod p) V) :=
  let value := vars fun i => loc (.note (.value i))
  let r := vars fun i => loc (.note (.r i))
  let rho := vars fun i => loc (.rho i)
  let aPk := vars fun i => loc (.aPk i)
  noteGadget (fun wire => loc (.note wire)) ++
  aPk.map generateBoolean ++
  prfRhoGadget ZERO phi hSig nonce rho (fun wire => loc (.preventFaerieGold wire)) ++
  noteCommitment ZERO aPk value rho r commitment fun wire => loc (.commitToOutputs wire)

/-! The values of the variables. -/

/-- What a prover knows of a note that is spent: its key, the note, and its path. -/
structure SpentNote (depth : Nat) where
  key : Uint252
  note : Note Uint256
  steps : Fin depth → Bool × Uint256

def noteValue (note : Note Uint256) : NoteWire → ZMod p
  | .value i => ofBool ((uint64Bits note.value).getD i false)
  | .r i => ofBool ((uint256Bits note.r).getD i false)

def inputNoteValue (rt : Uint256) (input : SpentNote depth) (enforce : Bool) :
    InputNoteWire depth → ZMod p
  | .note wire => noteValue input.note wire
  | .aSk i => ofBool ((uint252Bits input.key).getD i false)
  | .aPk i => ofBool ((uint256Bits input.note.aPk).getD i false)
  | .rho i => ofBool ((uint256Bits input.note.rho).getD i false)
  | .commitment i => ofBool ((uint256Bits (commitmentOf input.note)).getD i false)
  | .spendAuthority wire => prfValue true true false false input.key (firstByte 0) wire
  | .exposeNullifiers wire => prfValue true true true false input.key input.note.rho wire
  | .commitToInputs wire => commitmentValue input.note wire
  | .valueEnforce => ofBool enforce
  | .witnessInput wire => merkleValue (commitmentOf input.note) rt input.steps wire

def outputNoteValue (phi : Uint252) (hSig : Uint256) (nonce : Bool) (note : Note Uint256) :
    OutputNoteWire → ZMod p
  | .note wire => noteValue note wire
  | .rho i => ofBool ((uint256Bits note.rho).getD i false)
  | .aPk i => ofBool ((uint256Bits note.aPk).getD i false)
  | .preventFaerieGold wire => prfValue false nonce true false phi hSig wire
  | .commitToOutputs wire => commitmentValue note wire

local instance : TreeHash Uint256 := sha256Tree

/-- A spent note that the circuit lets through: the key is that of the note, the path of
a note of value is enforced, and an enforced path leads to the root. -/
structure SpentNote.Accepted (rt : Uint256) (input : SpentNote depth) (enforce : Bool) : Prop where
  address : input.note.aPk = addressOf input.key
  enforced : input.note.value ≠ 0 → enforce = true
  path : enforce = true → climb (commitmentOf input.note) (List.ofFn input.steps) = rt

@[simp] theorem length_uint252Bits (x : Uint252) : (uint252Bits x).length = 252 := by
  rw [uint252Bits, List.length_drop, length_uint256Bits]

private theorem encodes_gen256zeroes {σ : V → ZMod p} {ZERO : V} (zero : σ ZERO = 0) :
    Encodes σ (gen256zeroes ZERO) (uint256Bits (firstByte 0)) := by
  have bits : uint256Bits (firstByte 0) = List.replicate 256 false := by decide +kernel
  rw [bits, gen256zeroes, Encodes, List.map_replicate, List.map_replicate,
    LinearCombination.eval_var, zero, ofBool_false]

section

variable [Fact p.Prime] [Fact (2 ^ 253 < p)] {σ : V → ZMod p} {ZERO : V}

omit [Fact (2 ^ 253 < p)] in
theorem exists_uint64 {v : Fin 64 → V} (sat : Satisfied σ ((vars v).map generateBoolean)) :
    ∃ x : UInt64, Encodes σ (vars v) (uint64Bits x) := by
  obtain ⟨bits, encodes⟩ := exists_encodes_of_boolean sat
  obtain ⟨x, rfl⟩ := exists_uint64Bits (by rw [← encodes.length_eq, length_vars])
  exact ⟨x, encodes⟩

omit [Fact (2 ^ 253 < p)] in
theorem exists_uint252 {v : Fin 252 → V} (sat : Satisfied σ ((vars v).map generateBoolean)) :
    ∃ x : Uint252, Encodes σ (vars v) (uint252Bits x) := by
  obtain ⟨bits, encodes⟩ := exists_encodes_of_boolean sat
  obtain ⟨x, rfl⟩ := exists_uint252Bits (by rw [← encodes.length_eq, length_vars])
  exact ⟨x, encodes⟩

private theorem holds_valueEnforce {wires : List (Lc p V)} {enforce : V} {x : UInt64} {asked : Bool}
    (amount : Encodes σ wires (uint64Bits x)) (flag : σ enforce = ofBool asked) :
    Constraint.Holds σ ⟨packedAddition wires, 1 - var enforce, 0⟩ ↔ (x ≠ 0 → asked = true) := by
  have room : 2 ^ 253 < p := Fact.out
  have low := x.toNat_lt
  have zero : (x.toNat : ZMod p) = 0 ↔ x = 0 := by
    rw [← Nat.cast_zero, natCast_inj (by omega) (by omega), ← UInt64.toNat_inj]
    rfl
  rw [Constraint.Holds, eval_packedAddition amount]
  simp only [LinearCombination.eval_sub, LinearCombination.eval_one, LinearCombination.eval_var,
    LinearCombination.eval_zero, flag]
  cases asked
  · simp [zero]
  · simp

omit [Fact p.Prime] [Fact (2 ^ 253 < p)] in
theorem encodes_note {loc : NoteWire → V} {note : Note Uint256} :
    (∀ wire, σ (loc wire) = noteValue note wire) ↔
      Encodes σ (vars fun i => loc (.value i)) (uint64Bits note.value) ∧
        Encodes σ (vars fun i => loc (.r i)) (uint256Bits note.r) := by
  rw [encodes_vars_getD (length_uint64Bits _), encodes_vars_getD (length_uint256Bits _)]
  constructor
  · intro wires
    exact ⟨fun i => wires (.value i), fun i => wires (.r i)⟩
  · rintro ⟨values, randoms⟩ (i | i)
    · exact values i
    · exact randoms i

theorem satisfied_inputNote {nullifier rt : List (Lc p V)} {loc : InputNoteWire depth → V}
    {root : Uint256} (positive : 0 < depth) (zero : σ ZERO = 0)
    (anchor : Encodes σ rt (uint256Bits root)) (size : nullifier.length = 256) :
    Satisfied σ (inputNote ZERO nullifier rt loc) ↔
      ∃ (input : SpentNote depth) (enforce : Bool), input.Accepted root enforce ∧
        (∀ wire, σ (loc wire) = inputNoteValue root input enforce wire) ∧
        Encodes σ nullifier (uint256Bits (nullifierOf input.key input.note.rho)) := by
  simp only [inputNote, noteGadget, prfAddrAPkGadget, prfNfGadget, satisfied_append,
    satisfied_cons, satisfied_nil, and_true, and_assoc]
  constructor
  · rintro ⟨values, randoms, keys, rhos, authority, exposed, committed, boolean, enforced, witnessed⟩
    obtain ⟨value, amount⟩ := exists_uint64 values
    obtain ⟨r, random⟩ := exists_uint256 randoms
    obtain ⟨key, secret⟩ := exists_uint252 keys
    obtain ⟨rho, nonce⟩ := exists_uint256 rhos
    obtain ⟨asked, flag⟩ := holds_generateBoolean.mp boolean
    rw [LinearCombination.eval_var] at flag
    obtain ⟨authorities, address⟩ := (satisfied_prfGadget zero secret (encodes_gen256zeroes zero)
      (length_vars _)).mp authority
    obtain ⟨exposures, revealed⟩ := (satisfied_prfGadget zero secret nonce size).mp exposed
    obtain ⟨commitments, commitment⟩ := (satisfied_noteCommitment ⟨addressOf key, value, rho, r⟩
      zero address amount nonce random (length_vars _)).mp committed
    obtain ⟨steps, leads, hashes⟩ := (satisfied_merkleTree positive commitment anchor flag).mp
      witnessed
    have noted : ∀ wire, σ (loc (.note wire)) = noteValue ⟨addressOf key, value, rho, r⟩ wire :=
      encodes_note.mpr ⟨amount, random⟩
    refine ⟨⟨key, ⟨addressOf key, value, rho, r⟩, steps⟩, asked,
      ⟨rfl, (holds_valueEnforce amount flag).mp enforced, leads⟩, fun wire => ?_, revealed⟩
    cases wire with
    | note wire => exact noted wire
    | aSk i => exact (encodes_vars_getD (length_uint252Bits _)).mp secret i
    | aPk i => exact (encodes_vars_getD (length_uint256Bits _)).mp address i
    | rho i => exact (encodes_vars_getD (length_uint256Bits _)).mp nonce i
    | commitment i => exact (encodes_vars_getD (length_uint256Bits _)).mp commitment i
    | spendAuthority wire => exact authorities wire
    | exposeNullifiers wire => exact exposures wire
    | commitToInputs wire => exact commitments wire
    | valueEnforce => exact flag
    | witnessInput wire => exact hashes wire
  · rintro ⟨input, enforce, accepted, wires, revealed⟩
    obtain ⟨amount, random⟩ := encodes_note.mp fun wire => wires (.note wire)
    have secret := (encodes_vars_getD (length_uint252Bits input.key)).mpr fun i => wires (.aSk i)
    have address := (encodes_vars_getD (length_uint256Bits input.note.aPk)).mpr
      fun i => wires (.aPk i)
    have nonce := (encodes_vars_getD (length_uint256Bits input.note.rho)).mpr fun i => wires (.rho i)
    have commitment := (encodes_vars_getD (length_uint256Bits (commitmentOf input.note))).mpr
      fun i => wires (.commitment i)
    have flag := wires .valueEnforce
    refine ⟨satisfied_boolean amount, satisfied_boolean random, satisfied_boolean secret,
      satisfied_boolean nonce, ?_, ?_, ?_, ?_, ?_, ?_⟩
    · rw [satisfied_prfGadget zero secret (encodes_gen256zeroes zero) (length_vars _)]
      rw [accepted.address] at address
      exact ⟨fun wire => wires (.spendAuthority wire), address⟩
    · rw [satisfied_prfGadget zero secret nonce size]
      exact ⟨fun wire => wires (.exposeNullifiers wire), revealed⟩
    · rw [satisfied_noteCommitment input.note zero address amount nonce random (length_vars _)]
      exact ⟨fun wire => wires (.commitToInputs wire), commitment⟩
    · rw [holds_generateBoolean, LinearCombination.eval_var]
      exact ⟨enforce, flag⟩
    · exact (holds_valueEnforce amount flag).mpr accepted.enforced
    · rw [satisfied_merkleTree positive commitment anchor flag]
      exact ⟨input.steps, accepted.path, fun wire => wires (.witnessInput wire)⟩

theorem satisfied_outputNote {phi hSig commitment : List (Lc p V)} {nonce : Bool}
    {loc : OutputNoteWire → V} {seed : Uint252} {sig : Uint256} (zero : σ ZERO = 0)
    (seeded : Encodes σ phi (uint252Bits seed)) (signed : Encodes σ hSig (uint256Bits sig))
    (size : commitment.length = 256) :
    Satisfied σ (outputNote ZERO phi hSig nonce commitment loc) ↔ ∃ note : Note Uint256,
      note.rho = rhoOf seed nonce sig ∧
      (∀ wire, σ (loc wire) = outputNoteValue seed sig nonce note wire) ∧
        Encodes σ commitment (uint256Bits (commitmentOf note)) := by
  simp only [outputNote, noteGadget, prfRhoGadget, satisfied_append, and_assoc]
  constructor
  · rintro ⟨values, randoms, addresses, prevented, committed⟩
    obtain ⟨value, amount⟩ := exists_uint64 values
    obtain ⟨r, random⟩ := exists_uint256 randoms
    obtain ⟨aPk, address⟩ := exists_uint256 addresses
    obtain ⟨preventions, fresh⟩ := (satisfied_prfGadget zero seeded signed (length_vars _)).mp
      prevented
    obtain ⟨commitments, published⟩ := (satisfied_noteCommitment
      ⟨aPk, value, rhoOf seed nonce sig, r⟩ zero address amount fresh random size).mp committed
    have noted : ∀ wire, σ (loc (.note wire)) =
        noteValue ⟨aPk, value, rhoOf seed nonce sig, r⟩ wire :=
      encodes_note.mpr ⟨amount, random⟩
    refine ⟨⟨aPk, value, rhoOf seed nonce sig, r⟩, rfl, fun wire => ?_, published⟩
    cases wire with
    | note wire => exact noted wire
    | rho i => exact (encodes_vars_getD (length_uint256Bits _)).mp fresh i
    | aPk i => exact (encodes_vars_getD (length_uint256Bits _)).mp address i
    | preventFaerieGold wire => exact preventions wire
    | commitToOutputs wire => exact commitments wire
  · rintro ⟨note, derived, wires, published⟩
    obtain ⟨amount, random⟩ := encodes_note.mp fun wire => wires (.note wire)
    have address := (encodes_vars_getD (length_uint256Bits note.aPk)).mpr fun i => wires (.aPk i)
    have fresh := (encodes_vars_getD (length_uint256Bits note.rho)).mpr fun i => wires (.rho i)
    refine ⟨satisfied_boolean amount, satisfied_boolean random, satisfied_boolean address, ?_, ?_⟩
    · rw [satisfied_prfGadget zero seeded signed (length_vars _)]
      rw [derived] at fresh
      exact ⟨fun wire => wires (.preventFaerieGold wire), fresh⟩
    · rw [satisfied_noteCommitment note zero address amount fresh random size]
      exact ⟨fun wire => wires (.commitToOutputs wire), published⟩

end

end CbDaemon.Circuit.NoteGadget
