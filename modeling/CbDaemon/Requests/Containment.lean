/- module: CbDaemon/Requests/Containment
   source: src/cblib/process_request.cpp, src/cblib/request_methods.cpp
   digest: The requests that are answered with a result, whatever the server and the wallet do. -/

import CbDaemon.Base.Fallible
import CbDaemon.JoinSplit.Outcome
import CbDaemon.Requests.Handlers

set_option autoImplicit false
set_option relaxedAutoImplicit false

namespace CbDaemon.Requests.Containment
open Base.Machine Base.Fallible Base.Sorting
open Codec.Integer Codec.Hex Codec.Json Codec.Keypair
open Merkle.PerfectTree
open Wallet.Notes Wallet.Sync Wallet.CipherDocument
open JoinSplit.Prove JoinSplit.Creator JoinSplit.Rounds JoinSplit.Outcome
open Balance Admission Pour Exchange Handlers

/-- A value that has members: an object, or null. -/
def Keyed : Value → Prop
  | .null => True
  | .object _ => True
  | _ => False

def field (value : Value) (key : String) : Value :=
  match value with
  | .object members => Value.member members key
  | _ => .null

/-- The server answers with an object whose result is one of the two texts. -/
def Answers (daemon : Daemon) (postman : Postman) (delivery : Delivery) : Prop :=
  Returns (post daemon.platform postman delivery) fun reply => Keyed reply ∧
    ((field reply "result").isText "successful" = true ∨
      (field reply "result").isText "failed" = true)

section

variable {daemon : Daemon} {postman : Postman} {delivery : Delivery} {faults : Faults}
  {store : Store Uint256}

end

/-! The keys of the wallet. -/

/-- A value that is read as a text: neither an array nor an object. -/
def Scalar : Value → Prop
  | .array _ => False
  | .object _ => False
  | _ => True

/-- The member of a value that has members, if there is one. -/
def provided (value : Value) (key : String) : Option Value :=
  match value with
  | .object members => members.lookup key
  | _ => none

private theorem returns_find {value : Value} {key : String} {P : Option Value → Prop} :
    Returns (value.find key) P ↔ Keyed value ∧ P (provided value key) := by
  cases value <;> simp [Value.find, Keyed, provided]

private theorem returns_getOr {value defaultValue : Value} {key : String} {P : Value → Prop} :
    Returns (value.getOr key defaultValue) P ↔
      Keyed value ∧ P ((provided value key).getD defaultValue) := by
  rw [Value.getOr, returns_map, returns_find]

private theorem returns_isMember {value : Value} {key : String} {P : Bool → Prop} :
    Returns (value.isMember key) P ↔ Keyed value ∧ P (provided value key).isSome := by
  rw [Value.isMember, returns_map, returns_find]

/-- The text is that of an object with members, and the three that the parser reads
are texts where they are provided. -/
def WellFormed (platform : Platform) (request : Text) : Prop :=
  Returns (platform.parse request) fun rawJson => rawJson.size ≠ 0 ∧ Keyed rawJson ∧
    ∀ key ∈ ["Method", "Id", "wallet_name"], ∀ value, provided rawJson key = some value →
      Scalar value

def AccountReadable (doc : Value) : Prop := Returns (readLocalAccount doc) fun _ => True

theorem accountReadable_document (pk : Uint256) : AccountReadable (accountDocument .null pk) := by
  have contents : uint256S (getHex (Blob.null : Uint256)) = Blob.null := setHex_getHex _
  have key : provided (accountDocument .null pk) "sk" = some (.string (getHex .null)) := rfl
  have balance : provided (accountDocument .null pk) "balance" = none := rfl
  have keyed : Keyed (accountDocument .null pk) := trivial
  have lead : (uint256S (getHex (Blob.null : Uint256))).lead &&& 0xF0 = 0 := by
    rw [contents]
    rfl
  simp only [AccountReadable, readLocalAccount, returns_bind, returns_isMember, returns_getOr, key,
    balance, keyed, Option.isSome_some, if_true, Option.getD_some, Option.getD_none,
    Value.asString, Value.asDouble, returns_ok, dif_pos lead, returns_pure, true_and]

section

variable [TreeHash Uint256]

/-- What an admitted pour needs for its joinsplits: the parameters of the proof system and
the accounts, which are read once more, a call of the creator that returns, and an answer
if it made them all. -/
def Joins (daemon : Daemon) (env : Environment) (postman : Postman) (given : PourParameters Uint256)
    (wallet : Wallet) (store : Store Uint256) (root : Uint256) : Prop :=
  let setting := daemon.setting postman.confKey
  let request := creatorRequest setting root given store
  Returns daemon.platform.prepared (fun _ => True) ∧
    (∀ doc ∈ wallet.accounts, AccountReadable doc) ∧
    Creates request setting.valueSort env.purge (fromValue given).toInt64 store.userNotes ∧
    ((∃ fuel made, joinsplitCreator request setting.valueSort env.purge fuel
        (fromValue given).toInt64 store.userNotes = .returned true made) →
      Answers daemon postman env.submitted)

section

variable {daemon : Daemon} {env : Environment} {postman : Postman} {parser : Parser}
  {wallet : Wallet}

end

/-! The requests that are answered. -/

/-- An object with the method and the identifier of the request, whose result is one
of the two texts. -/
def Carries (platform : Platform) (request : Text) (response : Value) : Prop :=
  ∃ parser members, jsonParser platform request = .ok parser ∧ response = .object members ∧
    Value.member members "Method" = .string parser.header ∧
    Value.member members "Id" = .string parser.id ∧
    ((Value.member members "result").isText "successful" = true ∨
      (Value.member members "result").isText "failed" = true)

end

/-! A server that never answers, and a wallet without keys. -/

section

instance sampleByteHash : TreeHash Uint256 where
  combine left right := ⟨List.zipWith (2 * · + 3 * ·) left.data right.data, by
    rw [List.length_zipWith, left.length_eq, right.length_eq, Nat.min_self]⟩
  blank := .null

end

end CbDaemon.Requests.Containment
