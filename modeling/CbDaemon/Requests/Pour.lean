/- module: CbDaemon/Requests/Pour
   source: src/cblib/request_methods.cpp
   digest: The handler of a pour, up to the requests it makes and the joinsplits it posts. -/

import CbDaemon.Codec.Json
import CbDaemon.JoinSplit.Creator
import CbDaemon.Requests.Admission
import CbDaemon.Requests.Balance

set_option autoImplicit false
set_option relaxedAutoImplicit false

namespace CbDaemon.Requests.Pour
open Codec.Integer Codec.Json
open Merkle.PerfectTree
open Wallet.Notes Wallet.Sync
open JoinSplit.Prove JoinSplit.Creator
open Balance Admission

/-- The two members of a handler's response. -/
structure Response where
  result : Value
  response : Value

def responseCreator (isSuccessful : Bool) (result : Value) : Response :=
  ⟨.string (ascii (if isSuccessful then "successful" else "failed")), result⟩

def failure (description : String) : Response :=
  responseCreator false (.object [("description", .string (ascii description))])

/-- A handler that does not return: something stops the process, or it runs on. -/
inductive Unfinished where
  | stopped (stop : Stop)
  | running
  deriving DecidableEq

/-- An exception of `std::stoi` that no handler catches. -/
def orThrow {α : Type} (read : Except StoiError α) : Except Unfinished α :=
  read.mapError fun _ => .stopped (.threw "stoi")

/-- The amounts of a pour whose parameters are all provided. -/
structure Amounts where
  txValueTo : Text
  txValueFrom : Text
  noteValueTo : Text
  integerTo : isInteger txValueTo = true
  integerFrom : isInteger txValueFrom = true
  integerNote : isInteger noteValueTo = true

/-- What a pour is asked for: the amounts, and the address that is paid. -/
structure PourParameters (Hash : Type) extends Amounts where
  destination : PaymentAddress Hash

instance {Hash : Type} : CoeOut (PourParameters Hash) Amounts := ⟨PourParameters.toAmounts⟩

/-- The answer to `get_merkle_root`. -/
inductive RootReply (Hash : Type) where
  | refused (response : Response)
  | successful (merkleRoot : Hash)

/-- What a pour meets at the server and in the database, place by place; `engine`
is the `ServerEngine` that the creator makes. What cannot be read ends the
handler when it gets there. -/
structure Meeting (Hash : Type) where
  firstSync : Except Unfinished (Call Hash)
  balanceSync : Except Unfinished (Call Hash)
  accounts : Except Unfinished (Option (List (Account Hash)))
  balancePurge : Delete
  root : Except Unfinished (RootReply Hash)
  engine : Except Unfinished Unit
  purge : Delete
  submitted : Except Unfinished Response
  finalSync : Except Unfinished (Call Hash)

/-- The wallet's keys, the zcash primitives and what the platform decides. -/
structure Setting (Hash : Type) where
  keys : WalletKeys Hash
  prims : Primitives Hash
  aSk : Hash
  seeds : Nat → DummySeed Hash
  outputKey : Hash
  heightSort : HeightSort Hash
  valueSort : ValueSort Hash
  outside : Dyadic → UInt64

/-- A handler that returned. A transaction is posted with joinsplits made from
the notes collection of that moment; `created` says whether the creator was called. -/
structure Finished (Hash : Type) where
  response : Response
  posted : Option (List (JSDescription Hash) × List (NoteCiphertext Hash))
  store : Store Hash
  created : Bool

variable {Hash : Type} [DecidableEq Hash]

/-- `update_note_repository` in a handler, which ignores the result. -/
def sync (setting : Setting Hash) (reply : Except Unfinished (Call Hash)) (store : Store Hash) :
    Except Unfinished (Store Hash) := do
  let call ← reply
  match updateNoteRepository setting.heightSort setting.keys call store with
  | .error halt => .error (.stopped (.halted halt))
  | .ok (_, store) => .ok store

/-- `get_balance` in a handler. The accounts are asked for after the
synchronisation, so a reply that cannot be read counts only if that returned. -/
def balance (setting : Setting Hash) (reply : Except Unfinished (Call Hash))
    (accounts : Except Unfinished (Option (List (Account Hash)))) (purge : Delete)
    (store : Store Hash) : Except Unfinished (Option Balances × Store Hash) := do
  let call ← reply
  let _ ← sync setting (.ok call) store
  let accounts ← accounts
  (getBalance setting.heightSort setting.keys setting.outside ⟨call, accounts, purge⟩
    store).mapError .stopped

/-- The wallet after `joinsplit_creator`, which purges unless it mints. -/
def afterCreator (purge : Delete) (value : Int64) (store : Store Hash) : Store Hash :=
  if value < 0 then store
  else { store with userNotes := (purgeUserNotes purge store.userNotes).2 }

def conclude (setting : Setting Hash) (value : Int32) (meeting : Meeting Hash)
    (store : Store Hash) : Outcome Hash → Except Unfinished (Finished Hash)
  | .aborted => .error (.stopped (.halted .aborted))
  | .threw message => .error (.stopped (.threw message))
  | .running => .error .running
  | .returned true made => do
    let response ← meeting.submitted
    let final ← sync setting meeting.finalSync (afterCreator meeting.purge value.toInt64 store)
    return ⟨response, some (made, store.notes), final, true⟩
  | .returned false _ => do
    let final ← sync setting meeting.finalSync (afterCreator meeting.purge value.toInt64 store)
    return ⟨failure "creating joinsplits failed.", none, final, true⟩

variable [TreeHash Hash]

/-- The rest of an admitted pour: the joinsplits under the server's root, and the
transaction with them. -/
def transfer (setting : Setting Hash) (fuel : Nat) (given : PourParameters Hash) (value : Int32)
    (meeting : Meeting Hash) (store : Store Hash) : Except Unfinished (Finished Hash) := do
  match ← meeting.root with
  | .refused response =>
    let final ← sync setting meeting.finalSync store
    return ⟨response, none, final, false⟩
  | .successful root =>
    let vpubOld ← orThrow (stoi given.txValueFrom)
    let vpubNew ← orThrow (stoi given.txValueTo)
    let request : Request Hash :=
      { setting with
        destination := given.destination
        notes := store.notes
        root
        vpubOldTotal := vpubOld.toInt64.toUInt64
        vpubNewTotal := vpubNew.toInt64.toUInt64 }
    let _ ← meeting.engine
    conclude setting value meeting store (joinsplitCreator request setting.valueSort meeting.purge
      fuel value.toInt64 store.userNotes)

/-- `confidential_tx_pour`, given nothing if a parameter is missing. -/
def pour (setting : Setting Hash) (fuel : Nat) (parameters : Option (PourParameters Hash))
    (meeting : Meeting Hash) (store : Store Hash) : Except Unfinished (Finished Hash) :=
  match parameters with
  | none => .ok ⟨failure "transaction addresses or value is not provided.", none, store, false⟩
  | some given => do
    let store ← sync setting meeting.firstSync store
    let value ← orThrow
      (noteValueFrom given.txValueTo given.txValueFrom given.noteValueTo)
    let (report, store) ← balance setting meeting.balanceSync meeting.accounts
      meeting.balancePurge store
    match report with
    | none => return ⟨failure "getting registered accounts failed.", none, store, false⟩
    | some report =>
      match ← orThrow (checks value given.txValueTo given.txValueFrom given.noteValueTo
          report.notesBalance report.transparentBalance) with
      | .failed description => return ⟨failure description, none, store, false⟩
      | .admitted value => transfer setting fuel given value meeting store

/-! What the amounts and balances have to be. -/

/-- The amounts fit `int`. -/
def Fit (amounts : Amounts) : Prop :=
  FitsInt (amount amounts.txValueTo) ∧ FitsInt (amount amounts.txValueFrom) ∧
    FitsInt (amount amounts.noteValueTo)

/-- `note_value_from`, wrapped around to an `int`. -/
def fromValue (amounts : Amounts) : Int32 :=
  Int32.ofInt (amount amounts.txValueTo) + Int32.ofInt (amount amounts.noteValueTo) -
    Int32.ofInt (amount amounts.txValueFrom)

/-- The balances that are read back from the report fit `int`. -/
def Legible (amounts : Amounts) (report : Balances) : Prop :=
  report.notesBalance.toNat < 2 ^ 31 ∧
    (report.transparentBalance.toNat < 2 ^ 31 ∨
      report.notesBalance.toNat < (fromValue amounts).toInt)

def Passes (amounts : Amounts) (report : Balances) : Prop :=
  (fromValue amounts).toInt ≤ report.notesBalance.toNat ∧
    amount amounts.txValueFrom ≤ report.transparentBalance.toNat ∧
    0 ≤ amount amounts.txValueFrom ∧ 0 ≤ amount amounts.txValueTo ∧ 0 ≤ amount amounts.noteValueTo

instance (amounts : Amounts) : Decidable (Fit amounts) := inferInstanceAs (Decidable (_ ∧ _))

instance (amounts : Amounts) (report : Balances) : Decidable (Legible amounts report) :=
  inferInstanceAs (Decidable (_ ∧ _))

instance (amounts : Amounts) (report : Balances) : Decidable (Passes amounts report) :=
  inferInstanceAs (Decidable (_ ∧ _))

theorem noteValueFrom_amounts (amounts : Amounts) :
    noteValueFrom amounts.txValueTo amounts.txValueFrom amounts.noteValueTo =
      if Fit amounts then .ok (fromValue amounts) else .error .outOfRange :=
  noteValueFrom_eq amounts.integerTo amounts.integerFrom amounts.integerNote

theorem checks_cases {amounts : Amounts} (fit : Fit amounts) (report : Balances) :
    (¬ Legible amounts report ∧
        checks (fromValue amounts) amounts.txValueTo amounts.txValueFrom amounts.noteValueTo
          report.notesBalance report.transparentBalance = .error .outOfRange) ∨
      (Legible amounts report ∧ ¬ Passes amounts report ∧ ∃ description,
        checks (fromValue amounts) amounts.txValueTo amounts.txValueFrom amounts.noteValueTo
          report.notesBalance report.transparentBalance = .ok (.failed description)) ∨
      (Legible amounts report ∧ Passes amounts report ∧
        checks (fromValue amounts) amounts.txValueTo amounts.txValueFrom amounts.noteValueTo
          report.notesBalance report.transparentBalance = .ok (.admitted (fromValue amounts))) := by
  rw [checks_eq amounts.integerTo amounts.integerFrom amounts.integerNote fit.1 fit.2.1 fit.2.2]
  unfold Legible Passes
  split
  · exact .inl ⟨by omega, rfl⟩
  · split
    · exact .inr (.inl ⟨by omega, by omega, _, rfl⟩)
    · split
      · exact .inl ⟨by omega, rfl⟩
      · split
        · exact .inr (.inl ⟨by omega, by omega, _, rfl⟩)
        · split
          · exact .inr (.inl ⟨by omega, by omega, _, rfl⟩)
          · exact .inr (.inr ⟨by omega, by omega, rfl⟩)

/-- The joinsplits of an admitted pour are asked for under the server's root. -/
def creatorRequest (setting : Setting Hash) (root : Hash) (given : PourParameters Hash)
    (store : Store Hash) : Request Hash :=
  { setting with
    destination := given.destination
    notes := store.notes
    root
    vpubOldTotal := (Int32.ofInt (amount given.txValueFrom)).toInt64.toUInt64
    vpubNewTotal := (Int32.ofInt (amount given.txValueTo)).toInt64.toUInt64 }

theorem transfer_successful {setting : Setting Hash} {given : PourParameters Hash} {value : Int32}
    {meeting : Meeting Hash} {store : Store Hash} {root : Hash} (fit : Fit given)
    (answered : meeting.root = .ok (.successful root)) (fuel : Nat) :
    transfer setting fuel given value meeting store = meeting.engine >>= fun _ =>
      conclude setting value meeting store
        (joinsplitCreator (creatorRequest setting root given store) setting.valueSort
          meeting.purge fuel value.toInt64 store.userNotes) := by
  have old : orThrow (stoi given.txValueFrom) =
      .ok (Int32.ofInt (amount given.txValueFrom)) := by
    rw [stoi_of_isInteger given.integerFrom, if_pos fit.2.1]
    rfl
  have new : orThrow (stoi given.txValueTo) = .ok (Int32.ofInt (amount given.txValueTo)) := by
    rw [stoi_of_isInteger given.integerTo, if_pos fit.1]
    rfl
  rw [transfer, answered]
  simp only [bind, Except.bind, old, new]
  rfl

end CbDaemon.Requests.Pour
