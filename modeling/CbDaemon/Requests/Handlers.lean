/- module: CbDaemon/Requests/Handlers
   source: src/cblib/process_request.cpp, src/cblib/request_methods.cpp
   digest: The registered methods, and the one function that every request goes through. -/

import CbDaemon.Requests.Exchange

set_option autoImplicit false
set_option relaxedAutoImplicit false

namespace CbDaemon.Requests.Handlers
open Base.Machine
open Codec.Integer Codec.Hex Codec.Json Codec.Keypair
open Merkle.PerfectTree
open Wallet.Notes Wallet.Sync Wallet.CipherDocument
open JoinSplit.Prove JoinSplit.Creator
open Balance Pour Exchange

/-- What stays the same for all requests: the libraries, the functions of a
confidential key and of a spending key, and the keys made where there are none. -/
structure Daemon where
  platform : Platform
  setting : ZCKeypair → Setting Uint256
  aPk : ZCKeypair → Uint256
  pkEnc : ZCKeypair → Uint256
  address : Uint252 → Uint256
  fresh : Postman
  freshAccount : Uint252

/-- What a request meets: the messages of the server and the fate of the writes,
by the place that asks for them. -/
structure Environment where
  forwarded : Delivery
  firstNotes : Delivery
  balanceNotes : Delivery
  accounts : Delivery
  root : Delivery
  submitted : Delivery
  finalNotes : Delivery
  firstFaults : Faults
  balanceFaults : Faults
  finalFaults : Faults
  accountInserts : Nat → Insert
  defaultInsert : Insert
  balancePurge : Delete
  purge : Delete
  accountsDeleted : Bool
  deletedNumber : Int

section

variable (daemon : Daemon) (env : Environment) (postman : Postman) (parser : Parser)

/-- A call of `update_note_repository` on a wallet. -/
def updateWallet (delivery : Delivery) (faults : Faults) (wallet : Wallet) :
    Except Unfinished Wallet := do
  let store ← sync (daemon.setting postman.confKey)
    (syncCall daemon.platform postman delivery faults) wallet.store
  return { wallet with store }

def forward : Except Unfinished Response :=
  raise (post daemon.platform postman env.forwarded >>= copied)

/-- A `Json::Value` that items were appended to. -/
def appended : List Value → Value
  | [] => .null
  | items => .array items

def getConfidentialAddress : Response :=
  responseCreator true (.object
    [("address", .string (getHex (daemon.aPk postman.confKey))),
      ("pk_enc", .string (getHex (daemon.pkEnc postman.confKey)))])

/-- `update_local_accounts` on a wallet. -/
def localAccounts (wallet : Wallet) :
    Except Unfinished (Option (List (Account Uint256)) × List Value) :=
  raise do
    updateLocalAccounts daemon.platform env.accountInserts
      (← post daemon.platform postman env.accounts) wallet.accounts

def getAccounts (wallet : Wallet) : Except Unfinished (Response × Wallet) := do
  let (_, accounts) ← localAccounts daemon env postman wallet
  let found ← raise (accounts.mapM readLocalAccount)
  let result := appended (found.map fun account =>
    .string (daemon.platform.write (accountDocument account.sk.contents (daemon.address account.sk))))
  return (responseCreator true result, { wallet with accounts })

/-- The response to `get_balance`. -/
def balanceResponse : Option Balances → Response
  | none => failure "getting registered accounts failed."
  | some report => responseCreator true (.object
      [("transparent_balance", .int report.transparentBalance.toNat),
        ("notes_balance", .int report.notesBalance.toNat),
        ("total balance", .int report.totalBalance.toNat)])

/-- The accounts stored after an update, which a failed one does not change. -/
def accountsAfter (wallet : Wallet) : List Value :=
  match localAccounts daemon env postman wallet with
  | .ok (_, accounts) => accounts
  | .error _ => wallet.accounts

/-- `get_balance`. -/
def getBalanceMethod (wallet : Wallet) : Except Unfinished (Response × Wallet) := do
  let (report, store) ← balance (daemon.setting postman.confKey)
    (syncCall daemon.platform postman env.balanceNotes env.balanceFaults)
    ((localAccounts daemon env postman wallet).map (·.1)) env.balancePurge wallet.store
  let accounts := accountsAfter daemon env postman wallet
  return (balanceResponse report, { wallet with store, accounts })

/-- `NotePlaintextDB::serialize(is_spent, height)` of a note read from a document. -/
def noteValue (note : NotePlaintextDB Uint256) : Value :=
  .object
    [("memo", .string (ascii note.stringMemo)),
      ("r", .string (getHex note.r)),
      ("rho", .string (getHex note.rho)),
      ("value", .int (toInt note.value).toInt),
      ("status", .bool note.status),
      ("note_height", .int note.noteHeight)]

/-- `get_notes`, which lists the user notes of all heights. -/
def getNotes (wallet : Wallet) : Except Unfinished (Response × Wallet) := do
  let wallet ← updateWallet daemon postman env.firstNotes env.firstFaults wallet
  let (found, complete) := readAll wallet.store.userNotes
  if complete then
    let result := appended (found.map fun note => .string (daemon.platform.write (noteValue note)))
    return (responseCreator true result, wallet)
  else
    .error (.stopped (.threw "LargestInt out of UInt range"))

/-- `add_account`; a failed insert is reported as a success as well. -/
def addAccount (wallet : Wallet) : Response × Wallet :=
  let account := accountDocument daemon.freshAccount.contents (daemon.address daemon.freshAccount)
  (responseCreator true (.array [.string []]),
    { wallet with accounts := (addRequest (env.accountInserts 0) account wallet.accounts).2 })

/-- `purge_accounts`. The number is what the pointer holds, also after a failure. -/
def purgeAccounts (wallet : Wallet) : Response × Wallet :=
  (responseCreator env.accountsDeleted
      (.object [("number_of_accounts_deleted", .int env.deletedNumber)]),
    if env.accountsDeleted then { wallet with accounts := [] } else wallet)

def registerAccount (wallet : Wallet) : Except Unfinished Response := do
  match ← raise (parser.getParameter "pk") with
  | none => return failure "account address is not provided."
  | some pk =>
    match ← raise ((accountsAt pk wallet.accounts).mapM readLocalAccount) with
    | [] => return failure "account does not found."
    | _ :: _ => forward daemon env postman

def getDetails : Except Unfinished Response := do
  match ← raise (parser.getParameter "pk") with
  | none => return failure "account address is not provided."
  | some _ => forward daemon env postman

def transacion : Except Unfinished Response := do
  if ← raise parser.transactionParameters then
    forward daemon env postman
  else
    return failure "transaction addresses or value is not provided."

/-- `ServerEngine::fetch_zparams`. -/
def fetchZparams : Except String Unit :=
  daemon.platform.prepared.mapError fun _ => "zk-snark parameters couldn't recover."

/-- `ServerEngine::sync_engine` with these accounts; the keys have been read before. -/
def syncEngine (accounts : List Value) : Except String Unit := do
  fetchZparams daemon
  let _ ← accounts.mapM readLocalAccount
  return ()

/-- `ServerEngine::sync_accounts` adds an account where there is none. -/
def syncAccounts (accounts : List Value) : List Value :=
  if accounts.isEmpty then
    (addRequest env.defaultInsert
      (accountDocument daemon.freshAccount.contents (daemon.address daemon.freshAccount)) accounts).2
  else accounts

/-- What a pour of this wallet meets. The creator's `ServerEngine` reads the accounts
again. -/
def pourMeeting (wallet : Wallet) : Meeting Uint256 where
  firstSync := syncCall daemon.platform postman env.firstNotes env.firstFaults
  balanceSync := syncCall daemon.platform postman env.balanceNotes env.balanceFaults
  accounts := (localAccounts daemon env postman wallet).map (·.1)
  balancePurge := env.balancePurge
  root := raise (post daemon.platform postman env.root >>= rootReply)
  engine := raise (syncEngine daemon (accountsAfter daemon env postman wallet))
  purge := env.purge
  submitted := raise (post daemon.platform postman env.submitted >>= copied)
  finalSync := syncCall daemon.platform postman env.finalNotes env.finalFaults

variable [TreeHash Uint256]

/-- The joinsplit of a mint under the server's root: two dummy inputs, and the
difference of the public values for the destination. Its exceptions are not
caught. -/
def mintDescription (setting : Setting Uint256) (root : Uint256)
    (destination : PaymentAddress Uint256) (vpubOld vpubNew : UInt64) :
    Except String (JSDescription Uint256) :=
  describe setting.prims root
    [dummyInput setting.prims (setting.seeds 0), dummyInput setting.prims (setting.seeds 1)]
    (.dummy setting.prims setting.outputKey,
      ⟨destination, narrow (vpubOld - vpubNew).toInt64⟩) vpubOld vpubNew

/-- `confidential_tx_mint` between its two synchronisations. -/
def mintTransaction (given : MintParameters) : Except Unfinished Response := do
  let tempMerkle ← raise (post daemon.platform postman env.root)
  if (← raise (tempMerkle.get "result")).isText "successful" then
    raise daemon.platform.prepared
    let vpubOld ← orThrow (stoi given.txValueFrom.1)
    let vpubNew ← orThrow (stoi given.txValueTo.1)
    let root ← raise do (← (← tempMerkle.get "response").get "merkle_root").asString
    let _ ← raise (mintDescription (daemon.setting postman.confKey) (uint256S root)
      given.paymentDest vpubOld.toInt64.toUInt64 vpubNew.toInt64.toUInt64)
    raise (post daemon.platform postman env.submitted >>= copied)
  else
    raise (copied tempMerkle)

def confidentialTxMint (wallet : Wallet) : Except Unfinished (Response × Wallet) := do
  match ← raise parser.mintParameters with
  | none => return (failure "transaction addresses or value is not provided.", wallet)
  | some given =>
    let wallet ← updateWallet daemon postman env.firstNotes env.firstFaults wallet
    let response ← mintTransaction daemon env postman given
    let wallet ← updateWallet daemon postman env.finalNotes env.finalFaults wallet
    return (response, wallet)

def confidentialTxPour (fuel : Nat) (wallet : Wallet) : Except Unfinished (Response × Wallet) := do
  let given ← raise parser.pourParameters
  let finished ← pour (daemon.setting postman.confKey) fuel given
    (pourMeeting daemon env postman wallet) wallet.store
  -- the balance query has updated the accounts, unless a parameter was missing
  let accounts := if given.isSome then accountsAfter daemon env postman wallet else wallet.accounts
  let accounts := if finished.created then syncAccounts daemon env accounts else accounts
  return (finished.response, { wallet with store := finished.store, accounts })

end

/-- The methods of `methods_setup`. -/
inductive Method where
  | getConfidentialAddress
  | getAccounts
  | getNotes
  | purgeAccounts
  | addAccount
  | registerAccount
  | getRegisteredAccounts
  | getDetails
  | transaction
  | confidentialTxPour
  | confidentialTxMint
  | getBalance
  deriving DecidableEq

def methodsSetup : List (Text × Method) :=
  [(ascii "get_confidential_address", .getConfidentialAddress),
    (ascii "get_accounts", .getAccounts),
    (ascii "get_notes", .getNotes),
    (ascii "purge_accounts", .purgeAccounts),
    (ascii "add_account", .addAccount),
    (ascii "register_account", .registerAccount),
    (ascii "get_registered_accounts", .getRegisteredAccounts),
    (ascii "get_details", .getDetails),
    (ascii "transaction", .transaction),
    (ascii "confidential_tx_pour", .confidentialTxPour),
    (ascii "confidential_tx_mint", .confidentialTxMint),
    (ascii "get_balance", .getBalance)]

/-- The `Postman` of a request. Its constructor makes missing keys, and every use
of the confidential key reads it again. -/
def openPostman (daemon : Daemon) (wallet : Wallet) : Except String (Postman × Wallet) := do
  let (_, wallet) ← postmanUpdate daemon.platform.copy daemon.fresh wallet
  postmanUpdate daemon.platform.copy daemon.fresh wallet

section

variable [TreeHash Uint256]

/-- The handler of a method; those that return no wallet leave it as it is. -/
def handle (daemon : Daemon) (env : Environment) (postman : Postman) (parser : Parser)
    (fuel : Nat) (wallet : Wallet) : Method → Except Unfinished (Response × Wallet)
  | .getConfidentialAddress => .ok (getConfidentialAddress daemon postman, wallet)
  | .getAccounts => getAccounts daemon env postman wallet
  | .getNotes => getNotes daemon env postman wallet
  | .purgeAccounts => .ok (purgeAccounts env wallet)
  | .addAccount => .ok (addAccount daemon env wallet)
  | .registerAccount => (registerAccount daemon env postman parser wallet).map (·, wallet)
  | .getRegisteredAccounts => (forward daemon env postman).map (·, wallet)
  | .getDetails => (getDetails daemon env postman parser).map (·, wallet)
  | .transaction => (transacion daemon env postman parser).map (·, wallet)
  | .confidentialTxPour => confidentialTxPour daemon env postman parser fuel wallet
  | .confidentialTxMint => confidentialTxMint daemon env postman parser wallet
  | .getBalance => getBalanceMethod daemon env postman wallet

/-- `processRequest`, up to the text that is written of the response. -/
def processRequest (daemon : Daemon) (env : Environment) (fuel : Nat) (request : Text)
    (wallets : Text → Wallet) : Except Unfinished (Value × Wallet) := do
  let parser ← raise (jsonParser daemon.platform request)
  let (postman, wallet) ← raise (openPostman daemon (wallets parser.walletName))
  match methodsSetup.lookup parser.header with
  | some method =>
    let (temp, wallet) ← handle daemon env postman parser fuel wallet method
    return (.object [("Method", .string parser.header), ("Id", .string parser.id),
      ("result", temp.result), ("response", temp.response)], wallet)
  | none =>
    return (.object [("Method", .string parser.header), ("Id", .string parser.id),
      ("result", .string (ascii "failed")),
      ("response", .string (ascii "requested method not found."))], wallet)

end

end CbDaemon.Requests.Handlers
