/- module: CbDaemon/Requests/Reporting
   source: src/cblib/note.cpp, src/cblib/account.cpp, src/cblib/request_methods.cpp, db/db.cpp
   digest: Which failures of database writes the callers report. -/

import CbDaemon.Requests.Accounts
import CbDaemon.Requests.Containment
import CbDaemon.Wallet.Status

set_option autoImplicit false
set_option relaxedAutoImplicit false

namespace CbDaemon.Requests.Reporting
open Base.Fallible Base.Machine
open Codec.Hex Codec.Integer Codec.Json
open Wallet.CipherDocument Wallet.Notes Wallet.Status
open Accounts Balance Containment Exchange Handlers Pour

/-- A success is reported only if all the writes took effect. -/
def Reported {Write : Type} (TookEffect : Write → Prop) (success : Bool) (issued : List Write) :
    Prop :=
  success = true → ∀ write ∈ issued, TookEffect write

/-! The update of the status. An update ends as a delete does: it takes effect, it fails
inside `database::update`, or no database is reached. -/

section status

variable {Hash : Type} [DecidableEq Hash]

/-- The update phase of `update_user_notes_status`: whether no exception was caught,
the updates that were asked for, and the documents. -/
def updatePhase (updates : Nat → Delete) :
    Nat → List (NotePlaintextDB Hash) → List (UserNote Hash) →
      Bool × List Delete × List (UserNote Hash)
  | _, [], docs => (true, [], docs)
  | i, note :: notes, docs =>
    let (success, issued, docs) := updatePhase updates (i + 1) notes
      (if updates i = .applied then markSpent note.rho note.r docs else docs)
    (updates i ≠ .thrown && success, updates i :: issued, docs)

/-- The notes for which `update_user_notes_status` asks for an update. -/
def foundSpent (keys : WalletKeys Hash) (store : Store Hash) : List (NotePlaintextDB Hash) :=
  (readAll store.userNotes).1.filter fun note =>
    queryNullifier (keys.nullifier note.rho) store.notes ≠ []

/-- `update_user_notes_status` with the updates it asks for. -/
def statusReport (keys : WalletKeys Hash) (updates : Nat → Delete) (store : Store Hash) :
    Bool × List Delete × Store Hash :=
  let (success, issued, userNotes) := updatePhase updates 0 (foundSpent keys store) store.userNotes
  ((readAll store.userNotes).2 && success, issued, { store with userNotes })

private theorem updatePhase_docs (updates : Nat → Delete) (notes : List (NotePlaintextDB Hash)) :
    ∀ (i : Nat) (docs : List (UserNote Hash)), (updatePhase updates i notes docs).2.2 =
      markAllSpent (fun j => updates j = .applied) i notes docs := by
  induction notes with
  | nil =>
    intro i docs
    rfl
  | cons note notes ih =>
    intro i docs
    rw [markAllSpent, ← ih]
    simp only [updatePhase, decide_eq_true_eq]

/-- The stored documents are those of the collection model. -/
theorem statusReport_store (keys : WalletKeys Hash) (updates : Nat → Delete) (store : Store Hash) :
    (statusReport keys updates store).2.2 =
      (updateUserNotesStatus keys (fun i => updates i = .applied) store).2 := by
  show { store with userNotes := (updatePhase updates 0 _ store.userNotes).2.2 } = _
  rw [updatePhase_docs]
  rfl

private theorem updatePhase_report (updates : Nat → Delete) (notes : List (NotePlaintextDB Hash)) :
    ∀ (i : Nat) (docs : List (UserNote Hash)),
      (updatePhase updates i notes docs).2.1 = (List.range' i notes.length).map updates ∧
      ((updatePhase updates i notes docs).1 = true ↔
        Delete.thrown ∉ (List.range' i notes.length).map updates) := by
  induction notes with
  | nil =>
    intro i docs
    simp [updatePhase]
  | cons note notes ih =>
    intro i docs
    obtain ⟨issued, success⟩ := ih (i + 1)
      (if updates i = .applied then markSpent note.rho note.r docs else docs)
    rw [List.length_cons, List.range'_succ, List.map_cons]
    constructor
    · show updates i :: (updatePhase updates (i + 1) notes _).2.1 = _
      rw [issued]
    · show (decide (updates i ≠ .thrown) && (updatePhase updates (i + 1) notes _).1) = true ↔ _
      rw [Bool.and_eq_true, success, decide_eq_true_eq, List.mem_cons, not_or, ne_comm]

/-- A status update reports its failures unless all documents are read, no database call
throws and some update fails inside. -/
private theorem statusReport_iff (keys : WalletKeys Hash) (updates : Nat → Delete)
    (store : Store Hash) :
    Reported (· = .applied) (statusReport keys updates store).1
        (statusReport keys updates store).2.1 ↔
      (¬ ∀ doc ∈ store.userNotes, doc.Readable) ∨
        (∃ i < (foundSpent keys store).length, updates i = .thrown) ∨
        ∀ i < (foundSpent keys store).length, updates i = .applied := by
  obtain ⟨issued, caught⟩ :=
    updatePhase_report updates (foundSpent keys store) 0 store.userNotes
  have success : (statusReport keys updates store).1 = true ↔
      (∀ doc ∈ store.userNotes, doc.Readable) ∧
        ¬ ∃ i < (foundSpent keys store).length, updates i = .thrown := by
    show ((readAll store.userNotes).2 && (updatePhase updates 0 _ store.userNotes).1) = true ↔ _
    rw [Bool.and_eq_true, readAll_complete, caught]
    simp
  have effects : (∀ write ∈ (statusReport keys updates store).2.1, write = .applied) ↔
      ∀ i < (foundSpent keys store).length, updates i = .applied := by
    show (∀ write ∈ (updatePhase updates 0 _ store.userNotes).2.1, _) ↔ _
    rw [issued]
    simp
  unfold Reported
  rw [success, effects, imp_iff_not_or, not_and_or, not_not, or_assoc]

end status

/-! The purge. -/

private theorem purge_reported_iff {Hash : Type} (outcome : Delete) (docs : List (UserNote Hash)) :
    Reported (· = .applied) (purgeUserNotes outcome docs).1 [outcome] ↔ outcome ≠ .hidden := by
  cases outcome with
  | applied => simp [Reported, purgeUserNotes]
  | hidden => simp [Reported, purgeUserNotes]
  | thrown => simp [Reported, purgeUserNotes]

/-! The accounts. -/

/-- What becomes of an insert: no database is reached, or `add_request` is made. -/
inductive Attempt where
  | thrown
  | made (insert : Insert)
  deriving DecidableEq

def Attempt.applied : Attempt → Bool
  | .thrown => false
  | .made insert => insert.applied

/-- The loop of `update_local_accounts`: whether no exception was caught, the inserts
that were attempted, and the documents. -/
def accountPhase (attempts : Nat → Attempt) :
    Nat → List (Account Uint256) → List Value → Bool × List Attempt × List Value
  | _, [], docs => (true, [], docs)
  | i, account :: accounts, docs =>
    let (success, issued, after) := accountPhase attempts (i + 1) accounts
      (if (attempts i).applied then docs ++ [accountDocument .null account.pk] else docs)
    match (accountsAt (getHex account.pk) docs).mapM readLocalAccount with
    | .ok (_ :: _) => accountPhase attempts (i + 1) accounts docs
    | .ok [] => (attempts i ≠ .thrown && success, attempts i :: issued, after)
    | .error _ => (false, attempts i :: issued, after)

private theorem accountPhase_made (inserts : Nat → Insert) (accounts : List (Account Uint256)) :
    ∀ (i : Nat) (docs : List Value),
      ((accountPhase (fun j => .made (inserts j)) i accounts docs).1,
        (accountPhase (fun j => .made (inserts j)) i accounts docs).2.2) =
      addAccounts inserts i accounts docs := by
  induction accounts with
  | nil =>
    intro i docs
    rfl
  | cons account accounts ih =>
    intro i docs
    have added : (addRequest (inserts i) (accountDocument .null account.pk) docs).2 =
        if (inserts i).applied then docs ++ [accountDocument .null account.pk] else docs := rfl
    rw [addAccounts, accountPhase, added]
    cases (accountsAt (getHex account.pk) docs).mapM readLocalAccount with
    | error message =>
      have rest := ih (i + 1)
        (if (inserts i).applied then docs ++ [accountDocument .null account.pk] else docs)
      rw [← rest]
      rfl
    | ok found =>
      cases found with
      | nil =>
        have rest := ih (i + 1)
          (if (inserts i).applied then docs ++ [accountDocument .null account.pk] else docs)
        rw [← rest]
        simp only [Attempt.applied, ne_eq, reduceCtorEq, not_false_eq_true, decide_true,
          Bool.true_and]
        rfl
      | cons first others => exact ih (i + 1) docs

/-- The insert of the `k`-th account is attempted: no account with its address is stored,
and no earlier one of the list has been stored under it. -/
def Attempted (attempts : Nat → Attempt) (i : Nat) (accounts : List (Account Uint256))
    (docs : List Value) (k : Nat) : Prop :=
  ∃ account, accounts[k]? = some account ∧ accountsAt (getHex account.pk) docs = [] ∧
    ∀ j < k, ∀ earlier, accounts[j]? = some earlier → earlier.pk = account.pk →
      (attempts (i + j)).applied = false

def Queryable (accounts : List (Account Uint256)) (docs : List Value) : Prop :=
  ∀ account ∈ accounts, ∀ doc ∈ accountsAt (getHex account.pk) docs, AccountReadable doc

private theorem accountsAt_append (pk : Text) (docs : List Value) (stored : Uint256) :
    accountsAt pk (docs ++ [accountDocument .null stored]) =
      accountsAt pk docs ++ if getHex stored = pk then [accountDocument .null stored] else [] := by
  rw [accountsAt, List.filter_append]
  congr 1
  rw [List.filter_cons]
  show (if (getHex stored == pk) = true then [accountDocument .null stored] else []) = _
  simp only [beq_iff_eq]

private theorem Queryable.append {accounts : List (Account Uint256)} {docs : List Value}
    (queryable : Queryable accounts docs) (stored : Uint256) :
    Queryable accounts (docs ++ [accountDocument .null stored]) := by
  intro account among doc found
  rw [accountsAt_append] at found
  rcases List.mem_append.mp found with old | new
  · exact queryable account among doc old
  · split at new
    · rw [List.mem_singleton.mp new]
      exact accountReadable_document stored
    · cases new

def afterTurn (attempt : Attempt) (pk : Uint256) (docs : List Value) : List Value :=
  if (accountsAt (getHex pk) docs).isEmpty && attempt.applied then
    docs ++ [accountDocument .null pk]
  else docs

private theorem Queryable.afterTurn {accounts : List (Account Uint256)} {docs : List Value}
    (queryable : Queryable accounts docs) (attempt : Attempt) (pk : Uint256) :
    Queryable accounts (afterTurn attempt pk docs) := by
  unfold Reporting.afterTurn
  split
  · exact queryable.append pk
  · exact queryable

private theorem accountsAt_afterTurn (attempt : Attempt) (pk other : Uint256) (docs : List Value) :
    accountsAt (getHex other) (afterTurn attempt pk docs) = [] ↔
      accountsAt (getHex other) docs = [] ∧ (pk = other → attempt.applied = false) := by
  -- an address is still free after the turn of an account unless that stored it
  unfold afterTurn
  by_cases stores : ((accountsAt (getHex pk) docs).isEmpty && attempt.applied) = true
  · obtain ⟨_, applied⟩ := Bool.and_eq_true _ _ ▸ stores
    rw [if_pos stores, accountsAt_append, List.append_eq_nil_iff]
    apply and_congr_right
    intro _
    by_cases same : pk = other
    · simp [same, applied]
    · have different : getHex pk ≠ getHex other := fun texts => same (getHex_injective texts)
      simp [same, different]
  · rw [if_neg stores]
    refine ⟨fun free => ⟨free, ?_⟩, And.left⟩
    rintro rfl
    rw [free, List.isEmpty_nil, Bool.true_and] at stores
    exact Bool.eq_false_of_not_eq_true stores

private theorem attempted_zero {attempts : Nat → Attempt} {i : Nat} {account : Account Uint256}
    {accounts : List (Account Uint256)} {docs : List Value} :
    Attempted attempts i (account :: accounts) docs 0 ↔
      accountsAt (getHex account.pk) docs = [] := by
  constructor
  · rintro ⟨_, found, free, _⟩
    cases found
    exact free
  · intro free
    refine ⟨account, rfl, free, ?_⟩
    intro j impossible
    cases impossible

private theorem attempted_succ {attempts : Nat → Attempt} {i k : Nat} {account : Account Uint256}
    {accounts : List (Account Uint256)} {docs : List Value} :
    Attempted attempts i (account :: accounts) docs (k + 1) ↔
      Attempted attempts (i + 1) accounts (afterTurn (attempts i) account.pk docs) k := by
  -- the later turns are those of a list that starts from the documents after the first
  unfold Attempted
  apply exists_congr
  intro other
  rw [List.getElem?_cons_succ, accountsAt_afterTurn, and_assoc]
  apply and_congr_right
  intro _
  apply and_congr_right
  intro _
  constructor
  · intro each
    refine ⟨each 0 (Nat.succ_pos k) account rfl, ?_⟩
    intro j below earlier found same
    rw [Nat.add_right_comm, Nat.add_assoc]
    exact each (j + 1) (Nat.succ_lt_succ below) earlier found same
  · rintro ⟨first, later⟩ j below earlier found same
    cases j with
    | zero =>
      cases found
      exact first same
    | succ j =>
      have unapplied := later j (Nat.lt_of_succ_lt_succ below) earlier found same
      rwa [Nat.add_right_comm, Nat.add_assoc] at unapplied

private theorem exists_attempted_cons {attempts : Nat → Attempt} {i : Nat}
    {account : Account Uint256}
    {accounts : List (Account Uint256)} {docs : List Value} {attempt : Attempt} :
    (∃ k, Attempted attempts i (account :: accounts) docs k ∧ attempts (i + k) = attempt) ↔
      (accountsAt (getHex account.pk) docs = [] ∧ attempts i = attempt) ∨
        ∃ k, Attempted attempts (i + 1) accounts (afterTurn (attempts i) account.pk docs) k ∧
          attempts (i + 1 + k) = attempt := by
  -- the attempts of a list are the one of its first turn and those of the later ones
  constructor
  · rintro ⟨k, attempted, same⟩
    cases k with
    | zero => exact Or.inl ⟨attempted_zero.mp attempted, same⟩
    | succ k =>
      refine Or.inr ⟨k, attempted_succ.mp attempted, ?_⟩
      rwa [Nat.add_right_comm, Nat.add_assoc]
  · rintro (⟨free, same⟩ | ⟨k, attempted, same⟩)
    · exact ⟨0, attempted_zero.mpr free, same⟩
    · refine ⟨k + 1, attempted_succ.mpr attempted, ?_⟩
      rwa [Nat.add_right_comm, Nat.add_assoc] at same

private theorem mapM_of_readable {docs : List Value}
    (readable : ∀ doc ∈ docs, AccountReadable doc) :
    ∃ found, docs.mapM readLocalAccount = .ok found ∧ found.isEmpty = docs.isEmpty := by
  obtain ⟨found, result, _⟩ := returns_mapM.mpr readable
  exact ⟨found, result, isEmpty_of_mapM result⟩

private theorem accountPhase_cons {attempts : Nat → Attempt} {i : Nat} {account : Account Uint256}
    {accounts : List (Account Uint256)} {docs : List Value}
    (readable : ∀ doc ∈ accountsAt (getHex account.pk) docs, AccountReadable doc) :
    accountPhase attempts i (account :: accounts) docs =
      let rest := accountPhase attempts (i + 1) accounts (afterTurn (attempts i) account.pk docs)
      if (accountsAt (getHex account.pk) docs).isEmpty then
        (attempts i ≠ .thrown && rest.1, attempts i :: rest.2.1, rest.2.2)
      else rest := by
  -- one turn of the loop, where the stored accounts can be read
  obtain ⟨found, result, same⟩ := mapM_of_readable readable
  rw [accountPhase, result, afterTurn, ← same]
  cases found with
  | nil => rfl
  | cons first others => rfl

private theorem accountPhase_report (attempts : Nat → Attempt) (accounts : List (Account Uint256)) :
    ∀ (i : Nat) (docs : List Value), Queryable accounts docs →
      (∀ attempt, attempt ∈ (accountPhase attempts i accounts docs).2.1 ↔
        ∃ k, Attempted attempts i accounts docs k ∧ attempts (i + k) = attempt) ∧
      ((accountPhase attempts i accounts docs).1 = true ↔
        Attempt.thrown ∉ (accountPhase attempts i accounts docs).2.1) := by
  induction accounts with
  | nil =>
    intro i docs _
    simp [accountPhase, Attempted]
  | cons account accounts ih =>
    intro i docs queryable
    have others : Queryable accounts docs :=
      fun other among => queryable other (List.mem_cons_of_mem account among)
    obtain ⟨issued, success⟩ := ih (i + 1) _ (others.afterTurn (attempts i) account.pk)
    rw [accountPhase_cons (queryable account List.mem_cons_self)]
    simp only [exists_attempted_cons]
    by_cases free : accountsAt (getHex account.pk) docs = []
    · simp only [free, List.isEmpty_nil, if_true, true_and]
      refine ⟨fun attempt => ?_, ?_⟩
      · rw [List.mem_cons, issued, eq_comm]
      · rw [Bool.and_eq_true, success, decide_eq_true_eq, List.mem_cons, not_or, ne_comm]
    · have stored : (accountsAt (getHex account.pk) docs).isEmpty = false :=
        List.isEmpty_eq_false_iff.mpr free
      simp only [stored, free, Bool.false_eq_true, if_false, false_and, false_or]
      exact ⟨issued, success⟩

private theorem queryable_of_success (attempts : Nat → Attempt)
    (accounts : List (Account Uint256)) :
    ∀ (i : Nat) (docs : List Value), (accountPhase attempts i accounts docs).1 = true →
      Queryable accounts docs := by
  induction accounts with
  | nil =>
    intro i docs _ account among
    cases among
  | cons account accounts ih =>
    intro i docs success
    rw [accountPhase] at success
    cases result : (accountsAt (getHex account.pk) docs).mapM readLocalAccount with
    | error message =>
      rw [result] at success
      cases success
    | ok found =>
      have first : ∀ doc ∈ accountsAt (getHex account.pk) docs, AccountReadable doc :=
        returns_mapM.mp ⟨found, result, trivial⟩
      have others : Queryable accounts docs := by
        rw [result] at success
        cases found with
        | nil =>
          have rest := ih _ _ (Bool.and_eq_true_iff.mp success).2
          split at rest
          · intro other among doc stored
            apply rest other among doc
            rw [accountsAt_append]
            exact List.mem_append_left _ stored
          · exact rest
        | cons first others => exact ih _ _ success
      intro other among
      rcases List.mem_cons.mp among with rfl | later
      · exact first
      · exact others other later

private theorem accountPhase_reported_iff (complete : Bool) (attempts : Nat → Attempt)
    (accounts : List (Account Uint256)) (docs : List Value) :
    Reported (·.applied = true) (complete && (accountPhase attempts 0 accounts docs).1)
        (accountPhase attempts 0 accounts docs).2.1 ↔
      complete = false ∨ ¬ Queryable accounts docs ∨
        (∃ k, Attempted attempts 0 accounts docs k ∧ attempts k = .thrown) ∨
        ∀ k, Attempted attempts 0 accounts docs k → (attempts k).applied = true := by
  by_cases queryable : Queryable accounts docs
  · obtain ⟨issued, success⟩ := accountPhase_report attempts accounts 0 docs queryable
    have effects : (∀ write ∈ (accountPhase attempts 0 accounts docs).2.1, write.applied = true) ↔
        ∀ k, Attempted attempts 0 accounts docs k → (attempts k).applied = true := by
      simp only [issued, Nat.zero_add]
      constructor
      · intro each k attempted
        exact each _ ⟨k, attempted, rfl⟩
      · rintro each _ ⟨k, attempted, rfl⟩
        exact each k attempted
    unfold Reported
    rw [Bool.and_eq_true, success, effects, issued, imp_iff_not_or, not_and_or, not_not,
      Bool.not_eq_true, or_assoc]
    simp only [Nat.zero_add, queryable, not_true_eq_false, false_or]
  · have failed : (accountPhase attempts 0 accounts docs).1 = false := by
      apply Bool.eq_false_of_not_eq_true
      exact mt (queryable_of_success attempts accounts 0 docs) queryable
    refine iff_of_true ?_ (Or.inr (Or.inl queryable))
    intro success
    rw [failed, Bool.and_false] at success
    cases success

/-- `update_local_accounts` with the inserts it attempts. -/
def accountsReport (platform : Platform) (attempts : Nat → Attempt) (reply : Value)
    (docs : List Value) : Except String (Bool × List Attempt × List Value) := do
  let accountsResult ← copied reply
  if accountsResult.result.isText "successful" then
    let elements := accountsResult.response.elements
    let (success, issued, docs) := accountPhase attempts 0 (recovered platform elements) docs
    return ((elements.map (recoverAccount platform)).all (·.isSome) && success, issued, docs)
  else
    return (false, [], docs)

/-- It stores what the account model does and succeeds where that has a result. -/
theorem accountsReport_made (platform : Platform) (inserts : Nat → Insert) (reply : Value)
    (docs : List Value) :
    (accountsReport platform (fun i => .made (inserts i)) reply docs).map
        (fun report => (report.1, report.2.2)) =
      (updateLocalAccounts platform inserts reply docs).map
        fun result => (result.1.isSome, result.2) := by
  unfold accountsReport updateLocalAccounts
  cases copied reply with
  | error message => rfl
  | ok accountsResult =>
    show (if accountsResult.result.isText "successful" = true then _ else _ : Except _ _).map _ =
      (if accountsResult.result.isText "successful" = true then _ else _ : Except _ _).map _
    by_cases successful : accountsResult.result.isText "successful" = true
    · rw [if_pos successful, if_pos successful]
      show Except.ok (_ && (accountPhase _ 0 _ docs).1, (accountPhase _ 0 _ docs).2.2) =
        Except.ok (Option.isSome (if (_ && (addAccounts inserts 0 _ docs).1) = true then _ else _),
          (addAccounts inserts 0 _ docs).2)
      have listed : ∀ (complete : Bool) (accounts : List (Account Uint256)),
          (if complete = true then some accounts else none).isSome = complete := by
        intro complete accounts
        cases complete with
        | true => rfl
        | false => rfl
      rw [← accountPhase_made, listed]
      rfl
    · rw [if_neg successful, if_neg successful]
      rfl

/-- The report of `update_local_accounts`, if it returns. -/
def AccountsReported (platform : Platform) (attempts : Nat → Attempt) (reply : Value)
    (docs : List Value) : Prop :=
  ∀ report, accountsReport platform attempts reply docs = .ok report →
    Reported (·.applied = true) report.1 report.2.1

/-- An update of the accounts reports its failures unless all of it succeeds but for an
insert that fails inside `add_request`. -/
private theorem accountsReported_iff (platform : Platform) (attempts : Nat → Attempt)
    (reply : Value)
    (docs : List Value) :
    AccountsReported platform attempts reply docs ↔
      ∀ accountsResult, copied reply = .ok accountsResult →
        let elements := accountsResult.response.elements
        accountsResult.result.isText "successful" = false ∨
          (∃ k ∈ elements, recoverAccount platform k = none) ∨
          ¬ Queryable (recovered platform elements) docs ∨
          (∃ k, Attempted attempts 0 (recovered platform elements) docs k ∧
            attempts k = .thrown) ∨
          ∀ k, Attempted attempts 0 (recovered platform elements) docs k →
            (attempts k).applied = true := by
  unfold AccountsReported accountsReport
  cases answered : copied reply with
  | error message =>
    constructor
    · intro _ accountsResult impossible
      cases impossible
    · intro _ report impossible
      cases impossible
  | ok accountsResult =>
    show (∀ report, (if accountsResult.result.isText "successful" = true then _ else _) = _ → _) ↔ _
    simp only [Except.ok.injEq, forall_eq']
    by_cases successful : accountsResult.result.isText "successful" = true
    · have unread : ((accountsResult.response.elements.map (recoverAccount platform)).all
          (·.isSome)) = false ↔
          ∃ k ∈ accountsResult.response.elements, recoverAccount platform k = none := by
        rw [List.all_eq_false]
        simp
      rw [if_pos successful, ← unread, successful, ← accountPhase_reported_iff]
      constructor
      · intro each
        exact Or.inr (each _ rfl)
      · rintro (impossible | reported) report same
        · cases impossible
        · cases same
          exact reported
    · rw [if_neg successful]
      constructor
      · intro _
        exact Or.inl (Bool.eq_false_of_not_eq_true successful)
      · rintro _ report same
        cases same
        intro impossible
        cases impossible

/-! The handler of `add_account`. -/

/-- `add_account` with the new account. An exception leaves the handler. -/
def addAccountReport (account : CBPaymentAddress) (attempt : Attempt) (docs : List Value) :
    Except String (Response × List Value) :=
  match attempt with
  | .thrown => .error "no database"
  | .made insert =>
    let (added, docs) := addRequest insert account.serialize docs
    if added then .ok (responseCreator true (.array [.string []]), docs)
    else .ok (responseCreator true (.array [.string []]), docs)

/-- Where a database is reached, it is the handler of the request model. -/
theorem addAccountReport_made (daemon : Daemon) (env : Environment) (wallet : Wallet) :
    addAccountReport ⟨daemon.freshAccount, daemon.address daemon.freshAccount⟩
        (.made (env.accountInserts 0)) wallet.accounts =
      .ok ((addAccount daemon env wallet).1, (addAccount daemon env wallet).2.accounts) := by
  rw [addAccountReport]
  exact ite_self _

/-- The report of `add_account`, if it returns. -/
def AddAccountReported (account : CBPaymentAddress) (attempt : Attempt) (docs : List Value) :
    Prop :=
  ∀ response after, addAccountReport account attempt docs = .ok (response, after) →
    Reported (·.applied = true) (response.result.isText "successful") [attempt]

private theorem addAccountReported_iff (account : CBPaymentAddress) (attempt : Attempt)
    (docs : List Value) :
    AddAccountReported account attempt docs ↔ attempt ≠ .made .lost := by
  unfold AddAccountReported
  cases attempt with
  | thrown =>
    refine iff_of_true ?_ (fun impossible => by cases impossible)
    intro response after impossible
    cases impossible
  | made insert =>
    have successful : (responseCreator true (.array [.string []])).result.isText "successful" =
        true := beq_self_eq_true _
    cases insert with
    | stored =>
      refine iff_of_true ?_ (fun impossible => by cases impossible)
      intro response after _ _ write among
      rw [List.mem_singleton.mp among]
      rfl
    | storedUnreported =>
      refine iff_of_true ?_ (fun impossible => by cases impossible)
      intro response after _ _ write among
      rw [List.mem_singleton.mp among]
      rfl
    | lost =>
      refine iff_of_false ?_ (fun different => different rfl)
      intro reported
      exact absurd (reported _ _ rfl successful _ List.mem_cons_self) (by decide)

/-- The failures of writes that the four callers report. -/
theorem failures_reported_iff {Hash : Type} [DecidableEq Hash] (keys : WalletKeys Hash)
    (updates : Nat → Delete) (store : Store Hash) (outcome : Delete) (platform : Platform)
    (attempts : Nat → Attempt) (reply : Value) (docs : List Value) (account : CBPaymentAddress)
    (attempt : Attempt) :
    (Reported (· = .applied) (statusReport keys updates store).1
        (statusReport keys updates store).2.1 ↔
      (¬ ∀ doc ∈ store.userNotes, doc.Readable) ∨
        (∃ i < (foundSpent keys store).length, updates i = .thrown) ∨
        ∀ i < (foundSpent keys store).length, updates i = .applied) ∧
    (Reported (· = .applied) (purgeUserNotes outcome store.userNotes).1 [outcome] ↔
      outcome ≠ .hidden) ∧
    (AccountsReported platform attempts reply docs ↔
      ∀ accountsResult, copied reply = .ok accountsResult →
        let elements := accountsResult.response.elements
        accountsResult.result.isText "successful" = false ∨
          (∃ k ∈ elements, recoverAccount platform k = none) ∨
          ¬ Queryable (recovered platform elements) docs ∨
          (∃ k, Attempted attempts 0 (recovered platform elements) docs k ∧
            attempts k = .thrown) ∨
          ∀ k, Attempted attempts 0 (recovered platform elements) docs k →
            (attempts k).applied = true) ∧
    (AddAccountReported account attempt docs ↔ attempt ≠ .made .lost) :=
  ⟨statusReport_iff keys updates store, purge_reported_iff outcome store.userNotes,
    accountsReported_iff platform attempts reply docs, addAccountReported_iff account attempt docs⟩

/-- One failing write each, with a success reported for it. -/
theorem hidden_failures_not_reported :
    ¬ Reported (· = .applied)
        (statusReport fiveKeys (fun _ => .hidden) ⟨[spendingNote],
          [⟨.bool true, 9, 7, 5, .bool false, 1⟩]⟩).1
        (statusReport fiveKeys (fun _ => .hidden) ⟨[spendingNote],
          [⟨.bool true, 9, 7, 5, .bool false, 1⟩]⟩).2.1 ∧
      ¬ Reported (· = Delete.applied) (purgeUserNotes .hidden ([] : List (UserNote Uint256))).1
        [.hidden] ∧
      ¬ AccountsReported addressPlatform (fun _ => .made .lost) spellings [] ∧
      ¬ AddAccountReported (.received .null) (.made .lost) [] := by
  refine ⟨?_, ?_, ?_, ?_⟩
  · intro reported
    exact absurd (reported (by decide) .hidden (by decide)) (by decide)
  · intro reported
    exact absurd (reported rfl .hidden List.mem_cons_self) (by decide)
  · intro reported
    have issued := reported (true, List.replicate 4 (.made .lost), []) rfl rfl
    exact absurd (issued _ List.mem_cons_self) (by decide)
  · intro reported
    have successful := reported _ _ rfl (beq_self_eq_true _)
    exact absurd (successful _ List.mem_cons_self) (by decide)

end CbDaemon.Requests.Reporting
