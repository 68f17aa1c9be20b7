/- module: CbDaemon/Circuit/JoinSplitProof
   source: zcash/JoinSplit.cpp (prove, verify), zcash/JoinSplit.hpp, zcash/circuit/gadget.tcc
   digest: What a satisfied circuit tells about a JoinSplit, and that checked inputs satisfy it. -/

import CbDaemon.Circuit.JoinSplitGadget
import CbDaemon.Circuit.ScalarField
import CbDaemon.Wallet.TreeDocument

set_option autoImplicit false
set_option relaxedAutoImplicit false

namespace CbDaemon.Circuit.JoinSplitProof

open Base.Bits Base.R1cs Base.Machine BasicGadgets Conversions MerkleGadget NoteGadget JoinSplitGadget
open ScalarField
open Crypto.Prf
open Codec.Keypair (Uint252)
open JoinSplit.Prove
open Merkle.PerfectTree Merkle.IncrementalTree Merkle.TreeWitness Merkle.PathBinding
open Merkle.TreePath (climb climb_pathSteps)
open Wallet.Witness (treeDepth treeDepth_pos)
open Wallet.TreeDocument (wfcheck)

local instance : TreeHash Uint256 := sha256Tree

abbrev zcNumJsInputs : Nat := 2

abbrev zcNumJsOutputs : Nat := 2

/-- What a `ZCJoinSplit` makes public. -/
abbrev ZCStatement := Statement zcNumJsInputs zcNumJsOutputs

abbrev ZCOpening := Opening zcNumJsInputs zcNumJsOutputs treeDepth

/-- The constraint system that `JoinSplitCircuit` generates keys for. -/
def constraintSystem : List (Constraint Fr (JoinSplitWire zcNumJsInputs zcNumJsOutputs treeDepth)) :=
  joinSplit modulusR zcNumJsInputs zcNumJsOutputs treeDepth

/-- The constraint system has a solution with the primary input that `verify` checks a
proof against. -/
def Provable (st : ZCStatement) : Prop :=
  ∃ σ : JoinSplitWire zcNumJsInputs zcNumJsOutputs treeDepth → Fr,
    Satisfied σ constraintSystem ∧ ∀ i, σ (.zkPackedInputs i) = (witnessMap st).getD i 0

private theorem provable_of_provedBy {st : ZCStatement} {w : ZCOpening} (proved : st.ProvedBy w) :
    Provable st :=
  ⟨joinSplitValue st w, satisfied_of_provedBy treeDepth_pos (Nat.le_refl 2) (Nat.le_refl 2) proved,
    fun _ => rfl⟩

private theorem exists_provedBy {st : ZCStatement} (provable : Provable st) :
    ∃ w : ZCOpening, st.ProvedBy w := by
  obtain ⟨σ, sat, packed⟩ := provable
  exact provedBy_of_satisfied treeDepth_pos (Nat.le_refl 2) (Nat.le_refl 2) packed sat

/-- Sound and complete: the circuit can be satisfied for a public input exactly if some keys,
notes and paths make the statement true. -/
theorem provable_iff (st : ZCStatement) : Provable st ↔ ∃ w : ZCOpening, st.ProvedBy w := by
  constructor
  · exact exists_provedBy
  · rintro ⟨w, proved⟩
    exact provable_of_provedBy proved

/-- Nothing that is made public is lost in the nine field elements that a proof is checked
against: no two statements share them. -/
theorem witnessMap_injective : Function.Injective (witnessMap : ZCStatement → List Fr) :=
  fun _ _ same => statement_eq_of_witnessMap same

/-! Inputs that pass the checks of `prove` can be proved. -/

/-- The functions of the library that the checks of `prove` call, for given encryption keys
and a given verdict on them. -/
def libraryPrimitives (pkEnc : Uint256 → Uint256) (accepted : Uint256 → Bool) :
    Primitives Uint256 where
  cm := commitmentOf
  aPk key := blockHash (prfBlob true true false false key (firstByte 0))
  pkEnc := pkEnc
  nullifier key rho := blockHash (prfBlob true true true false key rho)
  accepted := accepted

/-- `JSOutput::note`. -/
def jsOutputNote (output : JSOutput Uint256) (phi : Uint252) (r : Uint256) (i : Nat)
    (hSig : Uint256) : Except String (Note Uint256) := do
  let rho ← prfRho phi i hSig
  return ⟨output.addr.aPk, output.value, rho, r⟩

private theorem wfcheck_eq_ok {t : IncrementalMerkleTree Uint256}
    (wellFormed : wfcheck t = .ok ()) :
    t.parents.length < treeDepth ∧ (t.left = none → t.right = none) := by
  unfold wfcheck at wellFormed
  split_ifs at wellFormed with long hollow right
  refine ⟨Nat.lt_of_not_le long, fun missing => ?_⟩
  by_contra some
  exact right ⟨missing, some⟩

private theorem exists_ofFn {α : Type} {n : Nat} {items : List α} (size : items.length = n) :
    ∃ item : Fin n → α, List.ofFn item = items := by
  subst size
  exact ⟨items.get, List.ofFn_get items⟩

private theorem exists_steps_of_spendable {pkEnc : Uint256 → Uint256} {accepted : Uint256 → Bool}
    {rt : Uint256} {input : JSInput Uint256}
    (wellFormed : wfcheck input.witness.tree = .ok ())
    (spendable : Spendable (libraryPrimitives pkEnc accepted) rt input) :
    ∃ steps : Fin treeDepth → Bool × Uint256, input.note.value ≠ 0 →
      climb (commitmentOf input.note) (List.ofFn steps) = rt := by
  by_cases worth : input.note.value = 0
  · exact ⟨fun _ => (false, .null), fun other => absurd worth other⟩
  · obtain ⟨short, leftFirst⟩ := wfcheck_eq_ok wellFormed
    obtain ⟨root, element⟩ := spendable.1 worth
    obtain ⟨steps, made, leads⟩ := climb_pathSteps element leftFirst treeDepth
      input.witness.partialPath
    obtain ⟨step, listed⟩ := exists_ofFn (length_pathSteps short made)
    refine ⟨step, fun _ => ?_⟩
    rw [listed, ← root]
    exact leads

section

variable {pkEnc : Uint256 → Uint256} {accepted : Uint256 → Bool} {rt hSig : Uint256}
  {inputs : Fin zcNumJsInputs → JSInput Uint256} {outputs : JSOutput Uint256 × JSOutput Uint256}
  {vpubOld vpubNew : UInt64} {js : JSDescription Uint256} {keys : Fin zcNumJsInputs → Uint252}
  {phi : Uint252} {r : Fin zcNumJsOutputs → Uint256} {notes : Fin zcNumJsOutputs → Note Uint256}

/-- The statement that `prove` makes of its results. -/
def provedStatement (rt hSig : Uint256) (inputs : Fin zcNumJsInputs → JSInput Uint256)
    (keys : Fin zcNumJsInputs → Uint252) (notes : Fin zcNumJsOutputs → Note Uint256)
    (vpubOld vpubNew : UInt64) : ZCStatement where
  rt := rt
  hSig := hSig
  macs i := macOf (keys i) (i.val != 0) hSig
  nullifiers i := blockHash (prfBlob true true true false (inputs i).key (inputs i).note.rho)
  commitments i := commitmentOf (notes i)
  vpubOld := vpubOld
  vpubNew := vpubNew

def provedOpening (inputs : Fin zcNumJsInputs → JSInput Uint256)
    (keys : Fin zcNumJsInputs → Uint252) (phi : Uint252)
    (notes : Fin zcNumJsOutputs → Note Uint256)
    (steps : Fin zcNumJsInputs → Fin treeDepth → Bool × Uint256) : ZCOpening :=
  ⟨phi, fun i => ⟨keys i, (inputs i).note, steps i⟩, notes⟩

private theorem jsOutputNote_eq (output : JSOutput Uint256) (phi : Uint252) (r : Uint256) {i : Nat}
    (index : i < 2) (hSig : Uint256) :
    jsOutputNote output phi r i hSig =
      .ok ⟨output.addr.aPk, output.value, rhoOf phi (i != 0) hSig, r⟩ := by
  rw [jsOutputNote, prfRho_eq phi index]
  rfl

private theorem exists_provedBy_of_describe
    (described : describe (libraryPrimitives pkEnc accepted) rt (List.ofFn inputs) outputs vpubOld
      vpubNew = .ok js)
    (typed : ∀ i, (inputs i).key = (keys i).contents)
    (wellFormed : ∀ i, wfcheck (inputs i).witness.tree = .ok ())
    (noted : ∀ i, jsOutputNote (![outputs.1, outputs.2] i) phi (r i) i hSig = .ok (notes i)) :
    ∃ steps, (provedStatement rt hSig inputs keys notes vpubOld vpubNew).ProvedBy
      (provedOpening inputs keys phi notes steps) := by
  -- spendable and balanced inputs make the statement true
  obtain ⟨spendable, balance, cap, _⟩ := describe_eq_ok.mp described
  have each : ∀ i, Spendable (libraryPrimitives pkEnc accepted) rt (inputs i) := fun i =>
    spendable (inputs i) (List.mem_ofFn.mpr ⟨i, rfl⟩)
  choose steps leads using fun i => exists_steps_of_spendable (wellFormed i) (each i)
  have created : ∀ i, notes i =
      ⟨(![outputs.1, outputs.2] i).addr.aPk, (![outputs.1, outputs.2] i).value,
        rhoOf phi (i.val != 0) hSig, r i⟩ := by
    intro i
    have made := noted i
    rw [jsOutputNote_eq _ _ _ i.isLt] at made
    exact (Except.ok.inj made).symm
  have entering : inputValue (List.ofFn inputs) = ∑ i, (inputs i).note.value.toNat := by
    rw [inputValue, List.map_ofFn, List.sum_ofFn]
    rfl
  rw [entering] at balance cap
  have leaving : ∑ i, (notes i).value.toNat = outputs.1.value.toNat + outputs.2.value.toNat := by
    simp only [created, Fin.sum_univ_two]
    rfl
  refine ⟨steps, fun i => ?_, fun i => ?_, fun i => prfPk_eq _ i.isLt _, fun i worth => ?_,
    fun i => ?_, fun i => cm_eq _, ?_, ?_⟩
  · rw [prfAddrAPk_eq]
    change _ = Except.ok (inputs i).note.aPk
    rw [(each i).2, typed i]
    rfl
  · rw [prfNf_eq]
    change _ = Except.ok (blockHash (prfBlob true true true false (inputs i).key (inputs i).note.rho))
    rw [typed i]
    rfl
  · exact ⟨_, cm_eq _, leads i worth⟩
  · rw [prfRho_eq _ i.isLt]
    change _ = Except.ok (notes i).rho
    rw [created i]
    rfl
  · change vpubOld.toNat + ∑ i, (inputs i).note.value.toNat =
      vpubNew.toNat + ∑ i, (notes i).value.toNat
    omega
  · change vpubOld.toNat + ∑ i, (inputs i).note.value.toNat < 2 ^ 64
    omega

end

def zeroKey : Uint252 := ⟨.null, by decide⟩

def sampleNote (value : UInt64) : Note Uint256 := ⟨addressOf zeroKey, value, .null, .null⟩

def sampleTree : IncrementalMerkleTree Uint256 := ⟨some (commitmentOf (sampleNote 5)), none, []⟩

def sampleInputs : Fin zcNumJsInputs → JSInput Uint256 :=
  ![⟨.ofTree sampleTree, sampleNote 5, .null, none⟩, ⟨.ofTree sampleTree, sampleNote 0, .null, none⟩]

def sampleAddress (b : UInt8) : PaymentAddress Uint256 :=
  ⟨uniform b, uniform b⟩

def sampleOutputs : JSOutput Uint256 × JSOutput Uint256 := (⟨sampleAddress 1, 3⟩, ⟨sampleAddress 2, 2⟩)

def sampleNotes (hSig : Uint256) (i : Fin zcNumJsOutputs) : Note Uint256 :=
  ⟨(![sampleOutputs.1, sampleOutputs.2] i).addr.aPk, (![sampleOutputs.1, sampleOutputs.2] i).value,
    rhoOf zeroKey (i.val != 0) hSig, .null⟩

def sampleStatement (hSig : Uint256) : ZCStatement :=
  provedStatement (sampleTree.root treeDepth) hSig sampleInputs (fun _ => zeroKey) (sampleNotes hSig) 0 0

def samplePrimitives : Primitives Uint256 := libraryPrimitives id (· ≠ .null)

private theorem root_ofTree (t : IncrementalMerkleTree Uint256) (Depth : Nat) :
    (IncrementalWitness.ofTree t).root Depth = t.root Depth := rfl

private theorem element_ofTree (c : Uint256) :
    (IncrementalWitness.ofTree ⟨some c, none, []⟩).element = .ok c := rfl

private theorem describe_sample :
    describe samplePrimitives (sampleTree.root treeDepth) (List.ofFn sampleInputs) sampleOutputs 0 0 =
      .ok ⟨0, 0, sampleTree.root treeDepth, (List.ofFn sampleInputs).map fun input =>
        samplePrimitives.nullifier input.key input.note.rho, List.ofFn sampleInputs,
        sampleOutputs⟩ := by
  refine describe_eq_ok.mpr ⟨?_, by decide, by decide, ⟨by decide, by decide⟩, rfl⟩
  intro input listed
  obtain ⟨i, rfl⟩ := List.mem_ofFn.mp listed
  have address : (sampleInputs i).note.aPk = samplePrimitives.aPk (sampleInputs i).key := by
    fin_cases i <;> rfl
  refine ⟨?_, address⟩
  fin_cases i
  · intro _
    change (IncrementalWitness.ofTree sampleTree).root treeDepth = sampleTree.root treeDepth ∧
      (IncrementalWitness.ofTree sampleTree).element = .ok (samplePrimitives.cm (sampleNote 5))
    rw [root_ofTree, samplePrimitives, libraryPrimitives, sampleTree, element_ofTree]
    exact ⟨rfl, rfl⟩
  · exact fun worth => absurd rfl worth

private theorem sampleInputs_typed (i : Fin zcNumJsInputs) :
    (sampleInputs i).key = zeroKey.contents := by
  fin_cases i <;> rfl

private theorem sampleInputs_wellFormed (i : Fin zcNumJsInputs) :
    wfcheck (sampleInputs i).witness.tree = .ok () := by
  fin_cases i <;> rfl

private theorem sampleNotes_made (hSig : Uint256) (i : Fin zcNumJsOutputs) :
    jsOutputNote (![sampleOutputs.1, sampleOutputs.2] i) zeroKey .null i hSig =
      .ok (sampleNotes hSig i) :=
  jsOutputNote_eq _ _ _ i.isLt _

private theorem exists_provedBy_sample (hSig : Uint256) :
    ∃ steps, (sampleStatement hSig).ProvedBy
      (provedOpening sampleInputs (fun _ => zeroKey) zeroKey (sampleNotes hSig) steps) :=
  exists_provedBy_of_describe describe_sample sampleInputs_typed sampleInputs_wellFormed
    (sampleNotes_made hSig)

/-- Whatever passes the checks of `prove` satisfies the constraint system, with the prover's
own keys and notes and the paths of its witnesses. -/
theorem satisfied_of_describe {pkEnc : Uint256 → Uint256} {accepted : Uint256 → Bool}
    {rt hSig : Uint256} {inputs : Fin zcNumJsInputs → JSInput Uint256}
    {outputs : JSOutput Uint256 × JSOutput Uint256} {vpubOld vpubNew : UInt64}
    {js : JSDescription Uint256} {keys : Fin zcNumJsInputs → Uint252} {phi : Uint252}
    {r : Fin zcNumJsOutputs → Uint256} {notes : Fin zcNumJsOutputs → Note Uint256}
    (described : describe (libraryPrimitives pkEnc accepted) rt (List.ofFn inputs) outputs vpubOld
      vpubNew = .ok js)
    (typed : ∀ i, (inputs i).key = (keys i).contents)
    (wellFormed : ∀ i, wfcheck (inputs i).witness.tree = .ok ())
    (noted : ∀ i, jsOutputNote (![outputs.1, outputs.2] i) phi (r i) i hSig = .ok (notes i)) :
    js.nullifiers = List.ofFn (provedStatement rt hSig inputs keys notes vpubOld vpubNew).nullifiers ∧
      ∃ steps, Satisfied (joinSplitValue (provedStatement rt hSig inputs keys notes vpubOld vpubNew)
        (provedOpening inputs keys phi notes steps)) constraintSystem := by
  constructor
  · obtain ⟨-, -, -, -, rfl⟩ := describe_eq_ok.mp described
    rw [List.map_ofFn]
    rfl
  · obtain ⟨steps, proved⟩ := exists_provedBy_of_describe described typed wellFormed noted
    exact ⟨steps, satisfied_of_provedBy treeDepth_pos (Nat.le_refl 2) (Nat.le_refl 2) proved⟩

theorem satisfied_of_describe_sample :
    ∃ steps, Satisfied (joinSplitValue (sampleStatement .null)
      (provedOpening sampleInputs (fun _ => zeroKey) zeroKey (sampleNotes .null) steps))
        constraintSystem :=
  (satisfied_of_describe describe_sample sampleInputs_typed sampleInputs_wellFormed
    (sampleNotes_made .null)).2

/-! Spent notes are in the tree. -/

private theorem mem_or_eq_null_of_getD {cs : List Uint256} {hash : Uint256} {k : Nat}
    (found : hash = cs.getD k TreeHash.blank) : hash ∈ cs ∨ hash = .null := by
  by_cases within : k < cs.length
  · rw [List.getD_eq_getElem cs _ within] at found
    exact .inl (found ▸ List.getElem_mem within)
  · rw [List.getD_eq_default cs _ (Nat.le_of_not_lt within)] at found
    exact .inr found

/-- An anchored note is a leaf of the tree, or the padding, or a collision of the node hash
between its path and the tree is at hand. -/
private theorem leaf_of_anchored {cs : List Uint256} {tree : IncrementalMerkleTree Uint256}
    (reached : IncrementalMerkleTree.empty.appendAll treeDepth cs = .ok tree) {leaf : Uint256}
    {steps : List (Bool × Uint256)} (size : steps.length = treeDepth)
    (leads : climb leaf steps = tree.root treeDepth) :
    leaf ∈ cs ∨ leaf = .null ∨ Collision (pathPairs leaf steps) (hashedPairs treeDepth cs) := by
  obtain ⟨fits, holds⟩ := holds_empty.fits_of_appendAll treeDepth_pos (Nat.zero_le _) reached
  rw [List.nil_append] at holds
  rw [List.length_nil, Nat.zero_add] at fits
  rw [holds.root treeDepth_pos fits, ← size] at leads
  rcases leaf_eq_or_collision leads with found | found
  · exact (mem_or_eq_null_of_getD found).imp_right .inl
  · rw [size] at found
    exact .inr (.inr found)

/-- A JoinSplit that is anchored at the root of a tree and can be proved spends, where it
spends any value, notes that the tree holds, with whatever data it is proved: otherwise a note
hashes to the padding, or two different pairs of nodes that hash to the same are at hand. -/
theorem spent_of_provable {st : ZCStatement} {cs : List Uint256}
    {tree : IncrementalMerkleTree Uint256}
    (reached : IncrementalMerkleTree.empty.appendAll treeDepth cs = .ok tree)
    (anchor : st.rt = tree.root treeDepth) (provable : Provable st) :
    (∃ w : ZCOpening, st.ProvedBy w) ∧
      ∀ w : ZCOpening, st.ProvedBy w → ∀ i, (w.inputs i).note.value ≠ 0 →
        ∃ leaf, cm (w.inputs i).note = .ok leaf ∧ (leaf ∈ cs ∨ leaf = .null ∨
          Collision (pathPairs leaf (List.ofFn (w.inputs i).steps)) (hashedPairs treeDepth cs)) := by
  refine ⟨exists_provedBy provable, fun w proved i worth => ?_⟩
  obtain ⟨leaf, hashed, leads⟩ := proved.anchored i worth
  rw [anchor] at leads
  exact ⟨leaf, hashed, leaf_of_anchored reached List.length_ofFn leads⟩

theorem spent_of_provable_sample :
    (∃ w : ZCOpening, (sampleStatement .null).ProvedBy w) ∧
      ∀ w : ZCOpening, (sampleStatement .null).ProvedBy w → ∀ i, (w.inputs i).note.value ≠ 0 →
        ∃ leaf, cm (w.inputs i).note = .ok leaf ∧
          (leaf ∈ [commitmentOf (sampleNote 5)] ∨ leaf = .null ∨
            Collision (pathPairs leaf (List.ofFn (w.inputs i).steps))
              (hashedPairs treeDepth [commitmentOf (sampleNote 5)])) := by
  obtain ⟨steps, proved⟩ := exists_provedBy_sample .null
  have reached : IncrementalMerkleTree.empty.appendAll treeDepth [commitmentOf (sampleNote 5)] =
      .ok sampleTree := rfl
  exact spent_of_provable reached rfl (provable_of_provedBy proved)

/-! A note has one nullifier. -/

def CommitmentCollision (note note' : Note Uint256) : Prop :=
  noteBytes note ≠ noteBytes note' ∧ commitmentOf note = commitmentOf note'

def QueryCollision (q q' : Query) : Prop :=
  q.block ≠ q'.block ∧ blockHash q.block = blockHash q'.block

/-- Whoever proves two spends of one commitment reveals one nullifier, unless the two notes or the
two keys are a collision of the hash. -/
theorem nullifier_unique {st st' : ZCStatement} {w w' : ZCOpening} (proved : st.ProvedBy w)
    (proved' : st'.ProvedBy w') {i j : Fin zcNumJsInputs}
    (same : cm (w.inputs i).note = cm (w'.inputs j).note) :
    st.nullifiers i = st'.nullifiers j ∨
      CommitmentCollision (w.inputs i).note (w'.inputs j).note ∨
      QueryCollision (.aPk (w.inputs i).key) (.aPk (w'.inputs j).key) := by
  rw [cm_eq, cm_eq, Except.ok.injEq] at same
  by_cases bytes : noteBytes (w.inputs i).note = noteBytes (w'.inputs j).note
  · have note := noteBytes_inj bytes
    have owner := proved.authorized i
    have owner' := proved'.authorized j
    rw [prfAddrAPk_eq, note] at owner
    rw [prfAddrAPk_eq, ← owner, Except.ok.injEq] at owner'
    by_cases blocks : (Query.aPk (w.inputs i).key).block = (Query.aPk (w'.inputs j).key).block
    · have key := (prfBlob_inj blocks).2.1
      change (w.inputs i).key = (w'.inputs j).key at key
      have revealed := proved.revealed i
      rw [key, note, proved'.revealed j] at revealed
      exact .inl (Except.ok.inj revealed).symm
    · exact .inr (.inr ⟨blocks, owner'.symm⟩)
  · exact .inr (.inl ⟨bytes, same⟩)

def otherSig : Uint256 := uniform 1

/-- Two JoinSplits that spend one note under different signatures. -/
theorem nullifier_unique_sample :
    (sampleStatement .null).hSig ≠ (sampleStatement otherSig).hSig ∧
      ∃ w w' : ZCOpening, (sampleStatement .null).ProvedBy w ∧
        (sampleStatement otherSig).ProvedBy w' ∧
        ((sampleStatement .null).nullifiers 0 = (sampleStatement otherSig).nullifiers 0 ∨
          CommitmentCollision (w.inputs 0).note (w'.inputs 0).note ∨
          QueryCollision (.aPk (w.inputs 0).key) (.aPk (w'.inputs 0).key)) := by
  obtain ⟨steps, proved⟩ := exists_provedBy_sample .null
  obtain ⟨steps', proved'⟩ := exists_provedBy_sample otherSig
  have different : Blob.null ≠ otherSig := by decide
  exact ⟨different, _, _, proved, proved', nullifier_unique proved proved' rfl⟩

end CbDaemon.Circuit.JoinSplitProof
