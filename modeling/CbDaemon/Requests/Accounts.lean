/- module: CbDaemon/Requests/Accounts
   source: src/cblib/account.cpp, src/cblib/address.cpp
   digest: What storing an account keeps of it, and the merge of the server's accounts. -/

import CbDaemon.Base.KeyedList
import CbDaemon.Requests.Exchange

set_option autoImplicit false
set_option relaxedAutoImplicit false

namespace CbDaemon.Requests.Accounts
open Base.KeyedList Base.Machine
open Codec.Hex Codec.Integer Codec.Json Codec.Keypair Codec.Utf8
open Wallet.CipherDocument Wallet.Notes
open Balance Exchange Pour

/-- `CBPaymentAddress`; of the address only `a_pk` is read. -/
@[ext]
structure CBPaymentAddress where
  sk : Uint252
  pk : Uint256
  deriving DecidableEq

namespace CBPaymentAddress

/-- `serialize` of an account with this address. -/
def serialize (account : CBPaymentAddress) : Value :=
  accountDocument account.sk.contents account.pk

def getPkString (account : CBPaymentAddress) : Text := getHex account.pk

/-- The account that `Account(std::string, true)` makes of an address, with the key
`uint256()`. -/
def received (pk : Uint256) : CBPaymentAddress := ⟨Uint252.null, pk⟩

end CBPaymentAddress

private theorem readLocalAccount_serialize (account : CBPaymentAddress) :
    readLocalAccount account.serialize = .ok ⟨account.sk, Value.toDouble 0⟩ := by
  have contents : uint256S (getHex account.sk.contents) = account.sk.contents := setHex_getHex _
  have lead : (uint256S (getHex account.sk.contents)).lead &&& 0xF0 = 0 := by
    rw [contents]
    exact account.sk.leadingBits
  show (if leadingBits : (uint256S (getHex account.sk.contents)).lead &&& 0xF0 = 0 then
      Except.ok (⟨⟨uint256S (getHex account.sk.contents), leadingBits⟩, Value.toDouble 0⟩ :
        LocalAccount)
    else _) = _
  rw [dif_pos lead, Except.ok.injEq, LocalAccount.mk.injEq]
  exact ⟨Uint252.ext contents, rfl⟩

private theorem transfer_serialize (layer : Transfer) (account : CBPaymentAddress) :
    layer.transfer account.serialize = account.serialize := by
  apply layer.transfer_object
  intro field among
  simp only [List.mem_cons, List.not_mem_nil, or_false] at among
  rcases among with rfl | rfl | rfl
  · exact ⟨[], rfl⟩
  · exact validUtf8_of_ascii (getHex_ascii account.sk.contents)
  · exact validUtf8_of_ascii (getHex_ascii account.pk)

section storage

/-! The address of a spending key is that of the library. -/

variable (address : Uint252 → Uint256)

/-- The constructors of an account. -/
inductive Origin where
  /-- `Account()`, with the random key. -/
  | created (sk : Uint252)
  /-- `Account(std::string)`. -/
  | rebuilt (json : Value)
  /-- `Account(std::string, true)`. -/
  | received (json : Value)

def Origin.account : Origin → Except String CBPaymentAddress
  | .created sk => .ok ⟨sk, address sk⟩
  | .rebuilt json => (readLocalAccount json).map fun stored => ⟨stored.sk, address stored.sk⟩
  | .received json => (readAccount json).map fun account => .received account.pk

/-- Reading back what is stored of an account gives its key and its address. -/
def Kept (layer : Transfer) (account : CBPaymentAddress) : Prop :=
  ∃ back, (Origin.rebuilt (layer.transfer account.serialize)).account address = .ok back ∧
    back.sk = account.sk ∧ back.getPkString = account.getPkString

private theorem kept_iff (layer : Transfer) (account : CBPaymentAddress) :
    Kept address layer account ↔ account.pk = address account.sk := by
  have read : (Origin.rebuilt (layer.transfer account.serialize)).account address =
      .ok ⟨account.sk, address account.sk⟩ := by
    rw [transfer_serialize, Origin.account, readLocalAccount_serialize]
    rfl
  unfold Kept
  rw [read]
  constructor
  · rintro ⟨back, result, _, same⟩
    cases result
    exact (getHex_injective same).symm
  · intro derived
    exact ⟨_, rfl, rfl, congrArg getHex derived.symm⟩

/-- A constructor that knows the key derives the address as the reader does, and the
one for the server's accounts sets the key to zero. -/
private theorem account_spec {origin : Origin} {account : CBPaymentAddress}
    (built : origin.account address = .ok account) :
    match origin with
    | .received _ => account.sk = Uint252.null
    | _ => account.pk = address account.sk := by
  cases origin with
  | created sk =>
    cases built
    rfl
  | rebuilt json =>
    rw [Origin.account] at built
    cases read : readLocalAccount json with
    | error message =>
      rw [read] at built
      cases built
    | ok stored =>
      rw [read] at built
      cases built
      rfl
  | received json =>
    rw [Origin.account] at built
    cases read : readAccount json with
    | error message =>
      rw [read] at built
      cases built
    | ok found =>
      rw [read] at built
      cases built
      rfl

/-- An account is kept unless it came from the server with an address that is not the
one of the key zero. -/
theorem account_kept_iff (layer : Transfer) (origin : Origin) (account : CBPaymentAddress)
    (built : origin.account address = .ok account) :
    Kept address layer account ↔
      ∀ json, origin = .received json → account.pk = address Uint252.null := by
  have spec := account_spec address built
  rw [kept_iff]
  cases origin with
  | created sk =>
    refine ⟨?_, fun _ => spec⟩
    rintro _ json isReceived
    cases isReceived
  | rebuilt json =>
    refine ⟨?_, fun _ => spec⟩
    rintro _ other isReceived
    cases isReceived
  | received json =>
    have zero : account.sk = Uint252.null := spec
    rw [zero]
    exact ⟨fun derived _ _ => derived, fun derived => derived json rfl⟩

end storage

/-- An address function for the samples: every byte of the key with its bits turned. -/
def turned (sk : Uint252) : Uint256 :=
  ⟨sk.contents.data.map (~~~ ·), by rw [List.length_map, sk.contents.length_eq]⟩

/-- The spending key `0b 01 … 01`. -/
def sampleSk : Uint252 where
  contents := ⟨0x0B :: List.replicate 31 1, rfl⟩
  leadingBits := rfl

/-- A new account is kept. -/
theorem created_account_kept :
    Kept turned .exact ⟨sampleSk, turned sampleSk⟩ :=
  (account_kept_iff turned .exact (.created sampleSk) ⟨sampleSk, turned sampleSk⟩
    rfl).mpr (fun json isReceived => by cases isReceived)

/-- An account of the server is read back with the address of the key zero. -/
theorem server_account_not_kept :
    (Origin.received (.object [("pk", .string (ascii "2a"))])).account turned =
        .ok (.received (uint256S (ascii "2a"))) ∧
      ¬ Kept turned .exact (.received (uint256S (ascii "2a"))) := by
  refine ⟨rfl, ?_⟩
  rw [kept_iff]
  decide

/-! The merge of the server's accounts into the stored ones. -/

private theorem accountsAt_map (pk : Text) (locals : List CBPaymentAddress) :
    accountsAt pk (locals.map CBPaymentAddress.serialize) =
      (locals.filter (·.getPkString = pk)).map CBPaymentAddress.serialize := by
  rw [accountsAt, List.filter_map]
  congr 1
  apply List.filter_congr
  intro account _
  rw [Bool.eq_iff_iff, decide_eq_true_eq]
  exact beq_iff_eq

private theorem mapM_readLocalAccount (accounts : List CBPaymentAddress) :
    (accounts.map CBPaymentAddress.serialize).mapM readLocalAccount =
      .ok (accounts.map fun account => ⟨account.sk, Value.toDouble 0⟩) := by
  induction accounts with
  | nil => rfl
  | cons account accounts ih =>
    rw [List.map_cons, List.mapM_cons, readLocalAccount_serialize, ih]
    rfl

private theorem addAccounts_map (accounts : List (Account Uint256)) (i : Nat)
    (locals : List CBPaymentAddress) :
    addAccounts (fun _ => .stored) i accounts (locals.map CBPaymentAddress.serialize) =
      (true, (merge CBPaymentAddress.getPkString locals
        (accounts.map fun account => .received account.pk)).map CBPaymentAddress.serialize) := by
  induction accounts generalizing i locals with
  | nil => rfl
  | cons account accounts ih =>
    have added : (addRequest .stored (accountDocument .null account.pk)
        (locals.map CBPaymentAddress.serialize)).2 =
        (locals ++ [CBPaymentAddress.received account.pk]).map CBPaymentAddress.serialize := by
      rw [List.map_append]
      rfl
    have first : merge CBPaymentAddress.getPkString locals
        ((account :: accounts).map fun account => .received account.pk) =
      merge CBPaymentAddress.getPkString
        (insertNew CBPaymentAddress.getPkString locals (.received account.pk))
        (accounts.map fun account => .received account.pk) := rfl
    rw [addAccounts, accountsAt_map, mapM_readLocalAccount, added, ih, ih, first, insertNew]
    cases found : locals.filter (·.getPkString = getHex account.pk) with
    | nil =>
      have absent : (CBPaymentAddress.received account.pk).getPkString ∉
          locals.map CBPaymentAddress.getPkString := by
        intro present
        obtain ⟨stored, among, same⟩ := List.mem_map.mp present
        exact List.filter_eq_nil_iff.mp found stored among (decide_eq_true same)
      rw [if_neg absent]
      rfl
    | cons stored others =>
      have present : (CBPaymentAddress.received account.pk).getPkString ∈
          locals.map CBPaymentAddress.getPkString := by
        have among : stored ∈ locals.filter (·.getPkString = getHex account.pk) := by
          rw [found]
          exact List.mem_cons_self
        obtain ⟨inside, same⟩ := List.mem_filter.mp among
        exact List.mem_map.mpr ⟨stored, inside, of_decide_eq_true same⟩
      rw [if_pos present]
      rfl

def recovered (platform : Platform) (elements : List Value) : List (Account Uint256) :=
  (elements.map (recoverAccount platform)).filterMap id

private theorem updateLocalAccounts_map (platform : Platform) (locals : List CBPaymentAddress)
    {reply : Value} {accountsResult : Response} (answered : copied reply = .ok accountsResult)
    (successful : accountsResult.result.isText "successful" = true) :
    ∃ complete, updateLocalAccounts platform (fun _ => .stored) reply
        (locals.map CBPaymentAddress.serialize) =
      .ok (complete, (merge CBPaymentAddress.getPkString locals
        ((recovered platform accountsResult.response.elements).map
          fun account => .received account.pk)).map CBPaymentAddress.serialize) := by
  rw [updateLocalAccounts, answered]
  show ∃ complete, (if accountsResult.result.isText "successful" = true then _ else _) = _
  rw [if_pos successful, addAccounts_map]
  exact ⟨_, rfl⟩

/-- With all inserts stored, `update_local_accounts` keeps the stored accounts in front
and their addresses distinct, and each account it recovers has one document. -/
theorem accounts_merged (platform : Platform) (locals : List CBPaymentAddress)
    (distinct : (locals.map CBPaymentAddress.getPkString).Nodup) (reply : Value)
    (accountsResult : Response) (answered : copied reply = .ok accountsResult) :
    ∃ complete merged,
      updateLocalAccounts platform (fun _ => .stored) reply
          (locals.map CBPaymentAddress.serialize) =
        .ok (complete, merged.map CBPaymentAddress.serialize) ∧
      locals <+: merged ∧ (merged.map CBPaymentAddress.getPkString).Nodup ∧
      (accountsResult.result.isText "successful" = true →
        ∀ k ∈ accountsResult.response.elements, ∀ account, recoverAccount platform k = some account →
          (accountsAt (getHex account.pk) (merged.map CBPaymentAddress.serialize)).length = 1) := by
  by_cases successful : accountsResult.result.isText "successful" = true
  · obtain ⟨complete, updated⟩ := updateLocalAccounts_map platform locals answered successful
    refine ⟨complete, _, updated, prefix_merge _, nodup_merge distinct _, ?_⟩
    intro _ k among account parses
    rw [accountsAt_map, List.length_map]
    apply length_filter_key (nodup_merge distinct _)
    refine mem_keys_merge.mpr (Or.inr ?_)
    refine List.mem_map.mpr ⟨.received account.pk, List.mem_map_of_mem ?_, rfl⟩
    exact List.mem_filterMap.mpr ⟨_, List.mem_map_of_mem among, parses⟩
  · refine ⟨none, locals, ?_, List.prefix_refl locals, distinct, fun impossible =>
      absurd impossible successful⟩
    rw [updateLocalAccounts, answered]
    exact if_neg successful

def accountText (pk : String) : Text := ascii "\x7b\"pk\":\"" ++ ascii pk ++ ascii "\"\x7d"

def addressPlatform : Platform where
  parse text :=
    if text.take 7 = ascii "\x7b\"pk\":\"" then
      .ok (.object [("pk", .string ((text.drop 7).takeWhile (· ≠ 0x22)))])
    else .ok .null
  write
    | .object members =>
      match Value.member members "pk" with
      | .string text => ascii "\x7b\"pk\":\"" ++ text ++ ascii "\"\x7d\n"
      | _ => ascii "null\n"
    | _ => ascii "null\n"
  connect _ _ := .ok ()
  copy bytes := bytes
  prepared := .ok ()
  uninitialised := .null
  beyond _ := 0

def spellings : Value :=
  .object [("result", .string (ascii "successful")),
    ("response", .array [.string (accountText "2A"), .string (accountText "0x2a"),
      .string (accountText "2b"), .string (accountText "2a")])]

theorem spellings_merged :
    ∃ complete merged,
      updateLocalAccounts addressPlatform (fun _ => .stored) spellings
          ([CBPaymentAddress.received (uint256S (ascii "2b"))].map CBPaymentAddress.serialize) =
        .ok (complete, merged.map CBPaymentAddress.serialize) ∧
      [CBPaymentAddress.received (uint256S (ascii "2b"))] <+: merged ∧
      (merged.map CBPaymentAddress.getPkString).Nodup ∧
      ((Value.string (ascii "successful")).isText "successful" = true →
        ∀ k ∈ [Value.string (accountText "2A"), .string (accountText "0x2a"),
          .string (accountText "2b"), .string (accountText "2a")], ∀ account,
          recoverAccount addressPlatform k = some account →
          (accountsAt (getHex account.pk) (merged.map CBPaymentAddress.serialize)).length = 1) :=
  accounts_merged addressPlatform [.received (uint256S (ascii "2b"))] (List.nodup_singleton _)
    spellings _ rfl

/-- The three spellings of one address make one document. -/
example : (updateLocalAccounts addressPlatform (fun _ => .stored) spellings []).map
    (fun result => result.2.length) = .ok 2 := by
  decide +kernel

end CbDaemon.Requests.Accounts
