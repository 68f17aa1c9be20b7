/- module: CbDaemon/JoinSplit/Creator
   source: src/cblib/request_methods.cpp, src/cblib/account.cpp
   digest: The selection of notes and the joinsplits made of them, one round at a time. -/

import CbDaemon.JoinSplit.Prove

set_option autoImplicit false
set_option relaxedAutoImplicit false

namespace CbDaemon.JoinSplit.Creator
open Base.Machine Base.Sorting
open Merkle.PerfectTree Merkle.IncrementalTree Merkle.TreeWitness
open Wallet.Notes Wallet.Witness Prove

/-- A user note with its place in the result of the query. The source has the
note alone; the place tells documents apart. -/
structure Candidate (Hash : Type) where
  position : Nat
  note : NotePlaintextDB Hash
  deriving DecidableEq

/-- `result_vector`. -/
def candidates {Hash : Type} (found : List (NotePlaintextDB Hash)) : List (Candidate Hash) :=
  found.zipIdx.map fun entry => ⟨entry.2, entry.1⟩

/-- `std::sort(..., comp_value)`. -/
abbrev ValueSort (Hash : Type) :=
  StdSort fun candidate : Candidate Hash => candidate.note.value.toNat

/-- The random key, `rho` and `r` of a dummy input. -/
structure DummySeed (Hash : Type) where
  key : Hash
  rho : Hash
  r : Hash

/-- What a call of `joinsplit_creator` is given, draws at random and finds in the
database; `outputKey` is the key of `JSOutput()`. -/
structure Request (Hash : Type) where
  prims : Primitives Hash
  aSk : Hash
  seeds : Nat → DummySeed Hash
  outputKey : Hash
  destination : PaymentAddress Hash
  notes : List (NoteCiphertext Hash)
  root : Hash
  vpubOldTotal : UInt64
  vpubNewTotal : UInt64

/-- The locals that the rounds change. -/
structure Progress (Hash : Type) where
  remaining : Int64
  included : Bool
  finalResult : Bool
  result : List (JSDescription Hash)

/-- How a call ends: it returns, the root assertion fails, an exception leaves
it, or it is still in the pair loop when the fuel is used up. -/
inductive Outcome (Hash : Type) where
  | returned (finalResult : Bool) (result : List (JSDescription Hash))
  | aborted
  | threw (message : String)
  | running
  deriving DecidableEq

variable {Hash : Type} [TreeHash Hash]

/-- `ServerEngine::get_merkle`: a failed rebuild leaves the empty tree. -/
def getMerkle (notes : List (NoteCiphertext Hash)) : Except String (IncrementalMerkleTree Hash) :=
  match reconstruct notes (List.range' 1 (latestHeight notes)) .empty with
  | .error message => .error message
  | .ok none => .ok .empty
  | .ok (some tree) => .ok tree

/-- `JSInput()`. -/
def dummyInput (prims : Primitives Hash) (seed : DummySeed Hash) : JSInput Hash :=
  let note : Note Hash := ⟨prims.aPk seed.key, 0, seed.rho, seed.r⟩
  ⟨.ofTree ⟨some (prims.cm note), none, []⟩, note, seed.key, none⟩

variable [DecidableEq Hash]

/-- The input for a selected note. The result of `note_witness_merkle` is
ignored, so without a witness the default one is used. -/
def candidateInput (request : Request Hash) (candidate : Candidate Hash) :
    Except String (JSInput Hash) :=
  let note : Note Hash := ⟨request.prims.aPk request.aSk, candidate.note.value,
    candidate.note.rho, candidate.note.r⟩
  match noteWitnessMerkle (request.prims.cm note) request.root .empty request.notes with
  | .error message => .error message
  | .ok (_, witness) => .ok ⟨witness, note, request.aSk, some candidate.position⟩

/-- The transparent values go into the first joinsplit only. -/
def vpub (request : Request Hash) (included : Bool) : UInt64 × UInt64 :=
  if included then (0, 0) else (request.vpubOldTotal, request.vpubNewTotal)

/-- The guarded construction of a `JSDescription`. -/
def emit (request : Request Hash) (inputs : List (JSInput Hash))
    (outputs : JSOutput Hash × JSOutput Hash) (next : Int64) (progress : Progress Hash) :
    Progress Hash :=
  let (vpubOld, vpubNew) := vpub request progress.included
  match describe request.prims request.root inputs outputs vpubOld vpubNew with
  | .ok js => ⟨next, true, progress.finalResult, progress.result ++ [js]⟩
  | .error _ => ⟨next, true, false, progress.result⟩

/-- `pair_value`, summed as unsigned and kept as `CAmount`. -/
def pairValue (first second : Candidate Hash) : Int64 :=
  (first.note.value + second.note.value).toInt64

/-- The outputs that pay the rest from inputs of the given value: the change for the
wallet, and the rest with the public values for the destination. -/
def payingOutputs (request : Request Hash) (vpubOld vpubNew : UInt64) (back remaining : Int64) :
    JSOutput Hash × JSOutput Hash :=
  (⟨request.prims.address request.aSk, narrow back⟩,
    ⟨request.destination, vpubOld + narrow remaining - vpubNew⟩)

/-- The outputs of a pair that falls short. The public values are not added. -/
def shortOutputs (request : Request Hash) (value : Int64) : JSOutput Hash × JSOutput Hash :=
  (.dummy request.prims request.outputKey, ⟨request.destination, narrow value⟩)

def pairRound (request : Request Hash) (first second : Candidate Hash)
    (progress : Progress Hash) : Except String (Progress Hash) :=
  match candidateInput request first with
  | .error message => .error message
  | .ok input =>
    match candidateInput request second with
    | .error message => .error message
    | .ok input' =>
      let value := pairValue first second
      let (vpubOld, vpubNew) := vpub request progress.included
      if progress.remaining ≤ value then
        -- the pair covers the rest, and the change goes back
        .ok (emit request [input, input']
          (payingOutputs request vpubOld vpubNew (value - progress.remaining) progress.remaining) 0
          progress)
      else
        .ok (emit request [input, input'] (shortOutputs request value) (progress.remaining - value)
          progress)

/-- The pair loop. Its index never moves on from 0, so every round takes the
same two notes; `none` when the fuel does not reach the break. -/
def pairLoop (request : Request Hash) (first second : Candidate Hash) :
    Nat → Progress Hash → Except String (Option (Progress Hash))
  | 0, _ => .ok none
  | fuel + 1, progress =>
    match pairRound request first second progress with
    | .error message => .error message
    | .ok next => if next.remaining = 0 then .ok (some next) else pairLoop request first second fuel next

/-- The loop over the sorted unspent notes; without a pair it is not entered. -/
def pairs (request : Request Hash) (fuel : Nat) (unspent : List (Candidate Hash))
    (progress : Progress Hash) : Except String (Option (Progress Hash)) :=
  match unspent with
  | first :: second :: _ => pairLoop request first second fuel progress
  | _ => .ok (some progress)

def residualRound (request : Request Hash) (residual : Candidate Hash)
    (progress : Progress Hash) : Except String (Progress Hash) :=
  match candidateInput request residual with
  | .error message => .error message
  | .ok input =>
    if residual.note.value < progress.remaining.toUInt64 then
      .ok { progress with finalResult := false }
    else
      let (vpubOld, vpubNew) := vpub request progress.included
      let back := (residual.note.value - progress.remaining.toUInt64).toInt64
      .ok (emit request [input, dummyInput request.prims (request.seeds 0)]
        (payingOutputs request vpubOld vpubNew back progress.remaining) progress.remaining progress)

/-- The residual branch, taken for an odd number of unspent notes. The note is
looked up in the whole query result, which is at least as long. -/
def residualBranch (request : Request Hash) (all : List (Candidate Hash)) (size : Nat)
    (progress : Progress Hash) : Except String (Progress Hash) :=
  if size % 2 = 1 then
    match all[size - 1]? with
    | none => .ok progress
    | some candidate => residualRound request candidate progress
  else .ok progress

def unspent (sorting : ValueSort Hash) (all : List (Candidate Hash)) : List (Candidate Hash) :=
  sorting.sort (all.filter fun candidate => candidate.note.status = false)

def selection (request : Request Hash) (sorting : ValueSort Hash) (fuel : Nat) (fromValue : Int64)
    (all : List (Candidate Hash)) : Outcome Hash :=
  match pairs request fuel (unspent sorting all) ⟨fromValue, false, true, []⟩ with
  | .error message => .threw message
  | .ok none => .running
  | .ok (some progress) =>
    match residualBranch request all (unspent sorting all).length progress with
    | .error message => .threw message
    | .ok progress => .returned progress.finalResult progress.result

/-- The branch of a negative value: both inputs are dummies. -/
def mint (request : Request Hash) (fromValue : Int64) : Outcome Hash :=
  let toValue := (-fromValue).toUInt64
  let (vpubOld, vpubNew) := vpub request false
  let progress := emit request
    [dummyInput request.prims (request.seeds 0), dummyInput request.prims (request.seeds 1)]
    (⟨request.prims.address request.aSk, toValue⟩,
      ⟨request.destination, vpubOld - toValue - vpubNew⟩) fromValue
    ⟨fromValue, false, true, []⟩
  .returned progress.finalResult progress.result

/-- `joinsplit_creator` on the user notes of the wallet. -/
def joinsplitCreator (request : Request Hash) (sorting : ValueSort Hash) (purge : Delete)
    (fuel : Nat) (fromValue : Int64) (userNotes : List (UserNote Hash)) : Outcome Hash :=
  match getMerkle request.notes with
  | .error message => .threw message
  | .ok tree =>
    -- `assert(rt == merkle.root())`
    if request.root ≠ tree.root treeDepth then .aborted
    else if fromValue < 0 then mint request fromValue
    else
      match purgeUserNotes purge userNotes with
      | (false, _) => .returned false []
      | (true, userNotes) =>
        match queryUserNote 0 userNotes with
        | none => .threw "LargestInt out of UInt range"
        -- a query without documents reports failure
        | some [] => .returned false []
        | some found => selection request sorting fuel fromValue (candidates found)

end CbDaemon.JoinSplit.Creator
