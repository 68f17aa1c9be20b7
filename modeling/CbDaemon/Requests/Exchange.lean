/- module: CbDaemon/Requests/Exchange
   source: src/utilities/utils.cpp, src/zmq/request.cpp, src/cblib/request_methods.cpp, src/cblib/account.cpp
   digest: What the request handlers read: parameters, replies of the server, stored keys and accounts. -/

import CbDaemon.Codec.Hex
import CbDaemon.Codec.Keypair
import CbDaemon.Requests.Pour
import CbDaemon.Wallet.CipherDocument

set_option autoImplicit false
set_option relaxedAutoImplicit false

namespace CbDaemon.Requests.Exchange
open Base.Machine
open Codec.Integer Codec.Hex Codec.Json Codec.Keypair
open Wallet.Notes Wallet.Sync Wallet.CipherDocument
open JoinSplit.Prove (PaymentAddress)
open Balance Pour

/-- What the libraries do with texts, sockets and files. -/
structure Platform where
  /-- `Json::Reader::parse`: the value it leaves, also after an error, unless the
  depth of the text makes it throw. -/
  parse : Text → Except String Value
  /-- `Json::FastWriter::write`. -/
  write : Value → Text
  /-- A socket with this public and secret key. -/
  connect : Text → Text → Except String Unit
  /-- What `std::copy` between the iterators of two temporaries copies of the bytes. -/
  copy : List UInt8 → List UInt8
  /-- `ZCJoinSplit::Prepared("vkfile", "pkfile")`. -/
  prepared : Except String Unit
  uninitialised : Blob zcCLen
  beyond : Nat → UInt8

/-- An exception that the handlers do not catch. -/
def raise {α : Type} (x : Except String α) : Except Unfinished α :=
  x.mapError fun message => .stopped (.threw message)

/-! The request. -/

/-- `jsonParser`. -/
structure Parser where
  parameters : Value
  header : Text
  id : Text
  walletName : Text

/-- `jsonParser::jsonParser`. -/
def jsonParser (platform : Platform) (json : Text) : Except String Parser := do
  let rawJson ← platform.parse json
  if rawJson.size = 0 then
    throw "request information not provided"
  else
    let parameters ← rawJson.get "Parameters"
    let header ← (← rawJson.getOr "Method" (.string (ascii "NOVALUE"))).asString
    let id ← (← rawJson.getOr "Id" (.string (ascii "NOVALUE"))).asString
    let walletName ← (← rawJson.getOr "wallet_name" (.string (ascii "walletDB"))).asString
    return { parameters, header, id, walletName }

/-- A text that passed `isInteger`. -/
abbrev IntegerText := { text : Text // isInteger text = true }

/-- The parameters of a mint that its joinsplit is made of. -/
structure MintParameters where
  txValueTo : IntegerText
  txValueFrom : IntegerText
  destConfAddress : Text
  pkEnc : Text

def MintParameters.paymentDest (given : MintParameters) : PaymentAddress Uint256 :=
  ⟨uint256S given.destConfAddress, uint256S given.pkEnc⟩

namespace Parser

/-- `get_parameter`, with the text that it leaves if it returns true. -/
def getParameter (parser : Parser) (request : String) : Except String (Option Text) := do
  let response ← (← parser.parameters.getOr request (.string (ascii "NOVALUE"))).asString
  return if ← parser.parameters.isMember request then some response else none

/-- `get_parameter` followed by `isInteger`. -/
def integerParameter (parser : Parser) (request : String) :
    Except String (Option IntegerText) := do
  let some text ← parser.getParameter request | return none
  return if integer : isInteger text = true then some ⟨text, integer⟩ else none

/-- The condition of `transacion`. -/
def transactionParameters (parser : Parser) : Except String Bool := do
  let some _ ← parser.integerParameter "tx_value" | return false
  let some _ ← parser.getParameter "from_pk" | return false
  let some _ ← parser.getParameter "to_pk" | return false
  return true

/-- The condition of `confidential_tx_mint`: its values and its destination, unless a
parameter is missing. -/
def mintParameters (parser : Parser) : Except String (Option MintParameters) := do
  let some txValueTo ← parser.integerParameter "tx_value_to" | return none
  let some txValueFrom ← parser.integerParameter "tx_value_from" | return none
  let some _ ← parser.getParameter "from_pk_transparent" | return none
  let some _ ← parser.getParameter "to_pk_transparent" | return none
  let some destConfAddress ← parser.getParameter "dest_conf_address" | return none
  let some pkEnc ← parser.getParameter "pk_enc" | return none
  return some { txValueTo, txValueFrom, destConfAddress, pkEnc }

/-- The condition of `confidential_tx_pour`. -/
def pourParameters (parser : Parser) : Except String (Option (PourParameters Uint256)) := do
  let some mint ← parser.mintParameters | return none
  let some noteValueTo ← parser.integerParameter "note_value_to" | return none
  return some
    { txValueTo := mint.txValueTo.1
      txValueFrom := mint.txValueFrom.1
      noteValueTo := noteValueTo.1
      integerTo := mint.txValueTo.2
      integerFrom := mint.txValueFrom.2
      integerNote := noteValueTo.2
      destination := mint.paymentDest }

end Parser

/-! The wallet and its keys. -/

/-- The collections of one wallet; accounts and keys are kept as documents. -/
structure Wallet where
  store : Store Uint256
  accounts : List Value
  keypairs : List Value
  confKeypairs : List Value

/-- The keys of a `Postman`. -/
structure Postman where
  publicKey : Text
  secretKey : Text
  confKey : ZCKeypair

/-- `Keypair(std::string)`. -/
def readKeypair (doc : Value) : Except String (Text × Text) := do
  let publicKey ← textField doc "public_key"
  let secretKey ← textField doc "secret_key"
  return (publicKey, secretKey)

/-- `ZC_Keypair(std::string)`. -/
def readConfKeypair (doc : Value) : Except String ZCKeypair := do
  let recipientKey ← textField doc "recipient_key"
  ZCKeypair.ofString recipientKey

/-- The documents `serialize` writes of new keys. -/
def keypairDocument (pair : Postman) : Value :=
  .object [("secret_key", .string pair.secretKey), ("public_key", .string pair.publicKey)]

def confKeypairDocument (copy : List UInt8 → List UInt8) (pair : Postman) : Value :=
  .object [("recipient_key", .string (pair.confKey.serializeWith copy))]

/-- `Postman::update`: every stored key is read and the first one taken. Where
there is none, a new one is made and stored. -/
def postmanUpdate (copy : List UInt8 → List UInt8) (fresh : Postman) (wallet : Wallet) :
    Except String (Postman × Wallet) := do
  let pairs ← wallet.keypairs.mapM readKeypair
  let confKeys ← wallet.confKeypairs.mapM readConfKeypair
  let (publicKey, secretKey) := pairs.headD (fresh.publicKey, fresh.secretKey)
  let keypairs := if pairs.isEmpty then [keypairDocument fresh] else wallet.keypairs
  let confKeypairs :=
    if confKeys.isEmpty then [confKeypairDocument copy fresh] else wallet.confKeypairs
  return ({ publicKey, secretKey, confKey := confKeys.headD fresh.confKey },
    { wallet with keypairs, confKeypairs })

/-! Requests to the server. -/

def requestRetries : Nat := 3

/-- What one request meets. The reactor polls the first socket only, and a retry has
deleted that one: a later poll finds nothing, or throws. -/
structure Delivery where
  reply : Option Text
  closedPoll : Nat → Except String Unit

/-- The retries that are left, from the given one on: the message goes out on a new
socket, and the closed one is polled. -/
def retries (platform : Platform) (postman : Postman) (delivery : Delivery) :
    Nat → Nat → Except String Value
  | _, 0 => .ok (.object [("description:", .string (ascii "server resonse failed."))])
  | retry, left + 1 => do
    platform.connect postman.publicKey postman.secretKey
    delivery.closedPoll retry
    retries platform postman delivery (retry + 1) left

/-- `Postman::post`. -/
def post (platform : Platform) (postman : Postman) (delivery : Delivery) :
    Except String Value := do
  platform.connect postman.publicKey postman.secretKey
  match delivery.reply with
  | some replyMessage => platform.parse replyMessage
  | none => retries platform postman delivery 0 (requestRetries - 1)

def copied (reply : Value) : Except String Response := do
  let result ← reply.get "result"
  let response ← reply.get "response"
  return { result, response }

/-- An element of the answer to `get_notes`, recovered under `try`. -/
def readNote (platform : Platform) (k : Value) :
    Except Unfinished (Option (NoteCiphertext Uint256)) :=
  let element : Except String Value := do
    let cipher ← platform.parse (← k.asString)
    platform.parse (platform.write cipher)
  match element with
  | .error _ => .ok none
  | .ok temp =>
    match ofJson platform.uninitialised platform.beyond temp with
    | .ok note => .ok (some note)
    | .error (.threw _) => .ok none
    | .error .running => .error .running

/-- What `update_note_repository` reads from the answer to `get_notes`. -/
def notesReply (platform : Platform) (reply : Value) : Except Unfinished (Reply Uint256) := do
  if (← raise (reply.get "result")).isText "successful" then
    let array ← raise (reply.get "response")
    return .successful (← array.elements.mapM (readNote platform))
  else
    return .failed

/-- The exchange of `update_note_repository` with the server. -/
def syncCall (platform : Platform) (postman : Postman) (delivery : Delivery) (faults : Faults) :
    Except Unfinished (Call Uint256) := do
  let reply ← notesReply platform (← raise (post platform postman delivery))
  return ⟨reply, faults⟩

/-- What a pour reads from the answer to `get_merkle_root`. -/
def rootReply (reply : Value) : Except String (RootReply Uint256) := do
  if (← reply.get "result").isText "successful" then
    let root ← (← (← reply.get "response").get "merkle_root").asString
    return .successful (uint256S root)
  else
    return .refused (← copied reply)

/-! Accounts. -/

/-- A stored account: its spending key and its balance. -/
structure LocalAccount where
  sk : Uint252
  balance : Dyadic

/-- `Account(std::string)`. -/
def readLocalAccount (json : Value) : Except String LocalAccount := do
  if ← json.isMember "sk" then
    let contents := uint256S (← (← json.getOr "sk" (.string (ascii "NOVALUE"))).asString)
    if leadingBits : contents.lead &&& 0xF0 = 0 then
      let balance ← (← json.getOr "balance" (.int 0)).asDouble
      return { sk := ⟨contents, leadingBits⟩, balance }
    else
      throw "leading bits are set in argument given to uint252 constructor"
  else
    throw "the provided string to construct account is not valid"

/-- `Account(std::string, true)`. -/
def readAccount (json : Value) : Except String (Account Uint256) := do
  if ← json.isMember "pk" then
    let pk ← (← json.getOr "pk" (.string (ascii "NOVALUE"))).asString
    let balance ← (← json.getOr "balance" (.int 0)).asDouble
    return ⟨uint256S pk, balance⟩
  else
    throw "the provided string to construct account is not valid"

/-- An element of the answer to `get_registered_accounts`, recovered under `try`. -/
def recoverAccount (platform : Platform) (k : Value) : Option (Account Uint256) :=
  let account : Except String (Account Uint256) := do
    let json ← platform.parse (← k.asString)
    readAccount (← platform.parse (platform.write json))
  account.toOption

/-- `Account::serialize` of an account with this key and address. -/
def accountDocument (sk pk : Uint256) : Value :=
  .object [("description", .string []), ("sk", .string (getHex sk)), ("pk", .string (getHex pk))]

def accountsAt (pk : Text) (docs : List Value) : List Value :=
  docs.filter fun doc =>
    match doc with
    | .object members =>
      match Value.member members "pk" with
      | .string stored => stored == pk
      | _ => false
    | _ => false

/-- The loop of `update_local_accounts` that adds the recovered accounts: whether
no query threw, and the accounts then. After a query that threw the account is
added all the same. -/
def addAccounts (inserts : Nat → Insert) :
    Nat → List (Account Uint256) → List Value → Bool × List Value
  | _, [], docs => (true, docs)
  | i, account :: accounts, docs =>
    let added := (addRequest (inserts i) (accountDocument .null account.pk) docs).2
    match (accountsAt (getHex account.pk) docs).mapM readLocalAccount with
    | .ok (_ :: _) => addAccounts inserts (i + 1) accounts docs
    | .ok [] => addAccounts inserts (i + 1) accounts added
    | .error _ => (false, (addAccounts inserts (i + 1) accounts added).2)

/-- `update_local_accounts`: the accounts it recovers, unless it reports a failure,
and the stored ones afterwards. -/
def updateLocalAccounts (platform : Platform) (inserts : Nat → Insert) (reply : Value)
    (docs : List Value) : Except String (Option (List (Account Uint256)) × List Value) := do
  let accountsResult ← copied reply
  if accountsResult.result.isText "successful" then
    let recovered := accountsResult.response.elements.map (recoverAccount platform)
    let (queried, docs) := addAccounts inserts 0 (recovered.filterMap id) docs
    let complete := recovered.all (·.isSome) && queried
    return (if complete then some (recovered.filterMap id) else none, docs)
  else
    return (none, docs)

end CbDaemon.Requests.Exchange
