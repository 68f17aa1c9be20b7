/- module: CbDaemon/Requests/Balance
   source: src/cblib/note.cpp, src/cblib/request_methods.cpp, src/cblib/account.cpp
   digest: The reported balances are exact while everything together fits 32 bits. -/

import CbDaemon.Wallet.Sync
import Mathlib.Algebra.Order.BigOperators.Group.List

set_option autoImplicit false
set_option relaxedAutoImplicit false

namespace CbDaemon.Requests.Balance
open Base.Machine Wallet.Notes Wallet.Sync

/-- An `Account` as the server lists it. `Balance` is a finite `double`. -/
structure Account (Hash : Type) where
  pk : Hash
  balance : Dyadic

/-- The conversion of a `double` to `uint64_t`: the whole part where it fits,
and what the target makes of the value elsewhere. -/
def toUInt64 (outside : Dyadic → UInt64) (x : Dyadic) : UInt64 :=
  if 0 ≤ truncate x ∧ truncate x < 2 ^ 64 then UInt64.ofInt (truncate x) else outside x

/-- `+=` of a 64-bit amount on an `unsigned int`. -/
def addTo (total : UInt32) (x : UInt64) : UInt32 := (total.toUInt64 + x).toUInt32

/-- The sum of 64-bit amounts in an `unsigned int`. -/
def accumulate (amounts : List UInt64) : UInt32 := amounts.foldl addTo 0

private theorem toNat_addTo (total : UInt32) (x : UInt64) :
    (addTo total x).toNat = (total.toNat + x.toNat) % 2 ^ 32 := by
  simp [addTo]

private theorem toNat_foldl_addTo (amounts : List UInt64) (total : UInt32) :
    (amounts.foldl addTo total).toNat = (total.toNat + (amounts.map (·.toNat)).sum) % 2 ^ 32 := by
  induction amounts generalizing total with
  | nil => simp [Nat.mod_eq_of_lt total.toNat_lt]
  | cons x amounts ih =>
    rw [List.foldl_cons, ih, toNat_addTo, List.map_cons, List.sum_cons]
    omega

private theorem toNat_accumulate (amounts : List UInt64) :
    (accumulate amounts).toNat = (amounts.map (·.toNat)).sum % 2 ^ 32 := by
  rw [accumulate, toNat_foldl_addTo]
  simp

/-- The three numbers of a response to `get_balance`. -/
structure Balances where
  transparentBalance : UInt32
  notesBalance : UInt32
  totalBalance : UInt32
  deriving DecidableEq

section

variable {Hash : Type}

/-- `user_notes_balance`. The purge may have changed the collection. -/
def userNotesBalance (purge : Delete) (docs : List (UserNote Hash)) :
    Except String (UInt32 × List (UserNote Hash)) :=
  match purgeUserNotes purge docs with
  | (false, _) =>
    .error "getting user balance failed.[what() pre-process purging of notes failed.]"
  | (true, docs) =>
    match queryUserNote 0 docs with
    | none => .error "LargestInt out of UInt range"
    | some found =>
      .ok (accumulate ((found.filter fun note => !note.status).map (·.value)), docs)

/-- The balances `get_balance` puts together once the accounts are known. -/
def balances (outside : Dyadic → UInt64) (purge : Delete) (accounts : List (Account Hash))
    (docs : List (UserNote Hash)) : Except String (Balances × List (UserNote Hash)) := do
  let transparentBalance := accumulate (accounts.map fun account => toUInt64 outside account.balance)
  let (notesBalance, docs) ← userNotesBalance purge docs
  return (⟨transparentBalance, notesBalance, notesBalance + transparentBalance⟩, docs)

/-- What one call of `get_balance` meets: the synchronisation, the accounts
`update_local_accounts` recovers unless it fails, and the purge. -/
structure BalanceCall (Hash : Type) where
  sync : Call Hash
  accounts : Option (List (Account Hash))
  purge : Delete

/-- How a handler ends without a response: the process aborts or reads out of
bounds while it synchronises, or an exception leaves it. -/
inductive Stop where
  | halted (halt : Halt)
  | threw (message : String)
  deriving DecidableEq

variable [DecidableEq Hash]

/-- `get_balance`; no balances are reported if the accounts were not recovered. -/
def getBalance (sorting : HeightSort Hash) (keys : WalletKeys Hash) (outside : Dyadic → UInt64)
    (call : BalanceCall Hash) (store : Store Hash) :
    Except Stop (Option Balances × Store Hash) :=
  match updateNoteRepository sorting keys call.sync store with
  | .error halt => .error (.halted halt)
  | .ok (_, store) =>
    match call.accounts with
    | none => .ok (none, store)
    | some accounts =>
      match balances outside call.purge accounts store.userNotes with
      | .error message => .error (.threw message)
      | .ok (report, userNotes) => .ok (some report, { store with userNotes })

end

/-! The exact sums. -/

section

variable {Hash : Type}

def isUnspent (doc : UserNote Hash) : Bool := !doc.status.asBool

def unspentTotal (docs : List (UserNote Hash)) : Nat :=
  ((docs.filter isUnspent).map (·.value.toNat)).sum

/-- The unspent notes the query of `user_notes_balance` does not match. -/
def unseenTotal (docs : List (UserNote Hash)) : Nat :=
  unspentTotal (docs.filter (·.noteHeight = 0))

/-- The values a wallet stores are non-negative and below `2 ^ 31`. -/
def StoredValues (docs : List (UserNote Hash)) : Prop :=
  ∀ doc ∈ docs, 0 ≤ doc.value ∧ doc.value < 2 ^ 31

instance (docs : List (UserNote Hash)) : Decidable (StoredValues docs) :=
  inferInstanceAs (Decidable (∀ doc ∈ docs, _))

private theorem StoredValues.readable {docs : List (UserNote Hash)} (stored : StoredValues docs) :
    ∀ doc ∈ docs, doc.Readable := by
  intro doc mem
  have bounds := stored doc mem
  exact ⟨bounds.1, by omega⟩

private theorem filter_purgeUserNotes (outcome : Delete) (docs : List (UserNote Hash)) :
    (purgeUserNotes outcome docs).2.filter isUnspent = docs.filter isUnspent := by
  cases outcome with
  | hidden => rfl
  | thrown => rfl
  | applied =>
    change (docs.filter _).filter _ = _
    rw [List.filter_filter]
    apply List.filter_congr
    intro doc _
    obtain ⟨memo, r, rho, value, status, height⟩ := doc
    cases status with
    | bool b => simp
    | int n =>
      by_cases one : n = 1
      · subst one
        rfl
      · simp [one]

def seenTotal (docs : List (UserNote Hash)) : Nat :=
  unspentTotal (docs.filter (0 < ·.noteHeight))

private theorem unspentTotal_eq (docs : List (UserNote Hash)) :
    unspentTotal docs = seenTotal docs + unseenTotal docs := by
  unfold seenTotal unseenTotal unspentTotal
  induction docs with
  | nil => rfl
  | cons doc docs ih =>
    by_cases high : 0 < doc.noteHeight
    · by_cases free : isUnspent doc = true
      · simp [high, free, Nat.ne_of_gt high] at ih ⊢
        omega
      · simp [high, free, Nat.ne_of_gt high] at ih ⊢
        omega
    · by_cases free : isUnspent doc = true
      · simp [free, Nat.eq_zero_of_not_pos high] at ih ⊢
        omega
      · simp [free, Nat.eq_zero_of_not_pos high] at ih ⊢
        omega

private theorem sum_found {docs : List (UserNote Hash)} (readable : ∀ doc ∈ docs, doc.Readable) :
    ((((docs.map UserNote.content).filter fun note => !note.status).map (·.value)).map
      (·.toNat)).sum = unspentTotal docs := by
  rw [List.filter_map, List.map_map, List.map_map, unspentTotal]
  congr 1
  apply List.map_congr_left
  intro doc mem
  have value := toNat_content_value (readable doc (List.mem_filter.mp mem).1)
  change doc.content.value.toNat = doc.value.toNat
  omega

/-- The purge works, and the documents above height 0 that it leaves parse. -/
def Countable (purge : Delete) (docs : List (UserNote Hash)) : Prop :=
  purge ≠ .thrown ∧ ∀ doc ∈ (purgeUserNotes purge docs).2, 0 < doc.noteHeight → doc.Readable

/-- What `user_notes_balance` adds up in the documents that a purge left. -/
def notesSum (docs : List (UserNote Hash)) : UInt32 :=
  accumulate ((((docs.filter (0 < ·.noteHeight)).map UserNote.content).filter
    fun note => !note.status).map (·.value))

private theorem userNotesBalance_cases (purge : Delete) (docs : List (UserNote Hash)) :
    (Countable purge docs ∧ userNotesBalance purge docs =
        .ok (notesSum (purgeUserNotes purge docs).2, (purgeUserNotes purge docs).2)) ∨
      (¬ Countable purge docs ∧ ∃ message, userNotesBalance purge docs = .error message) := by
  by_cases works : purge = .thrown
  · right
    rw [works]
    exact ⟨fun countable => countable.1 rfl, _, rfl⟩
  · rw [userNotesBalance, purgeUserNotes_eq works]
    simp only
    cases queried : queryUserNote 0 (purgeUserNotes purge docs).2 with
    | none =>
      right
      refine ⟨fun countable => ?_, _, rfl⟩
      rw [queryUserNote_eq_some.mpr ⟨countable.2, rfl⟩] at queried
      cases queried
    | some found =>
      obtain ⟨readable, rfl⟩ := queryUserNote_eq_some.mp queried
      exact .inl ⟨⟨works, readable⟩, rfl⟩

theorem countable_of_readable {purge : Delete} {docs : List (UserNote Hash)}
    (readable : ∀ doc ∈ docs, doc.Readable) (works : purge ≠ .thrown) : Countable purge docs :=
  ⟨works, fun doc mem _ => readable doc (purgeUserNotes_subset purge docs mem)⟩

private theorem userNotesBalance_eq {purge : Delete} {docs : List (UserNote Hash)}
    (stored : StoredValues docs) (works : purge ≠ .thrown) :
    ∃ total, userNotesBalance purge docs = .ok (total, (purgeUserNotes purge docs).2) ∧
      total.toNat = seenTotal docs % 2 ^ 32 := by
  -- the result is the sum over the notes above height 0, modulo `2 ^ 32`
  have readable : ∀ doc ∈ (purgeUserNotes purge docs).2, doc.Readable :=
    fun doc mem => stored.readable doc (purgeUserNotes_subset purge docs mem)
  have kept : unspentTotal ((purgeUserNotes purge docs).2.filter (0 < ·.noteHeight)) =
      seenTotal docs := by
    rw [seenTotal, unspentTotal, unspentTotal, List.filter_comm, filter_purgeUserNotes,
      List.filter_comm]
  rcases userNotesBalance_cases purge docs with ⟨_, counted⟩ | ⟨failed, _⟩
  · refine ⟨_, counted, ?_⟩
    rw [notesSum, toNat_accumulate, sum_found fun doc mem => readable doc (List.mem_filter.mp mem).1, kept]
  · exact absurd (countable_of_readable stored.readable works) failed

private theorem userNotesBalance_thrown (docs : List (UserNote Hash)) :
    userNotesBalance .thrown docs =
      .error "getting user balance failed.[what() pre-process purging of notes failed.]" := rfl

def reportOf (outside : Dyadic → UInt64) (accounts : List (Account Hash))
    (docs : List (UserNote Hash)) : Balances :=
  let transparentBalance := accumulate (accounts.map fun account => toUInt64 outside account.balance)
  ⟨transparentBalance, notesSum docs, notesSum docs + transparentBalance⟩

theorem balances_cases (outside : Dyadic → UInt64) (purge : Delete)
    (accounts : List (Account Hash)) (docs : List (UserNote Hash)) :
    (Countable purge docs ∧ balances outside purge accounts docs =
        .ok (reportOf outside accounts (purgeUserNotes purge docs).2, (purgeUserNotes purge docs).2)) ∨
      (¬ Countable purge docs ∧ ∃ message, balances outside purge accounts docs =
        .error message) := by
  rcases userNotesBalance_cases purge docs with ⟨countable, counted⟩ | ⟨uncountable, message, failed⟩
  · left
    rw [balances, counted]
    exact ⟨countable, rfl⟩
  · right
    rw [balances, failed]
    exact ⟨uncountable, message, rfl⟩

def WholeBalances (accounts : List (Account Hash)) (whole : List Nat) : Prop :=
  accounts.map (·.balance) = whole.map fun n : Nat => Dyadic.ofInt n

private theorem toNat_accumulate_accounts {accounts : List (Account Hash)} {whole : List Nat}
    (balances : WholeBalances accounts whole) (outside : Dyadic → UInt64)
    (fits : whole.sum < 2 ^ 32) :
    (accumulate (accounts.map fun account => toUInt64 outside account.balance)).toNat =
      whole.sum := by
  have each : ∀ n ∈ whole, (toUInt64 outside (Dyadic.ofInt n)).toNat = n := by
    intro n mem
    have le := List.le_sum_of_mem mem
    rw [toUInt64, truncate_ofInt, if_pos (by omega)]
    change (UInt64.ofNat (((n : Int) % 2 ^ 64).toNat)).toNat = n
    rw [UInt64.toNat_ofNat']
    omega
  have amounts : (accounts.map fun account => toUInt64 outside account.balance) =
      whole.map fun n : Nat => toUInt64 outside (Dyadic.ofInt n) := by
    have mapped := congrArg (List.map (toUInt64 outside)) balances
    rwa [List.map_map, List.map_map] at mapped
  have same : (whole.map fun n : Nat => toUInt64 outside (Dyadic.ofInt n)).map (·.toNat) =
      whole := by
    rw [List.map_map]
    exact (List.map_congr_left each).trans (List.map_id whole)
  rw [amounts, toNat_accumulate, same, Nat.mod_eq_of_lt fits]

end

section

variable {Hash : Type} [DecidableEq Hash]

/-- `user_notes_balance` returns the exact sum of the unspent notes. -/
def NotesExact (purge : Delete) (docs : List (UserNote Hash)) : Prop :=
  ∃ total rest, userNotesBalance purge docs = .ok (total, rest) ∧
    total.toNat = unspentTotal docs

/-- `get_balance` reports the two sums and their total. -/
def ReportExact (result : Except Stop (Option Balances × Store Hash)) (notes accounts : Nat) :
    Prop :=
  ∃ report store, result = .ok (some report, store) ∧ report.notesBalance.toNat = notes ∧
    report.transparentBalance.toNat = accounts ∧ report.totalBalance.toNat = notes + accounts

/-- Both balances are exact for the collection that the synchronisation leaves
and the listed accounts if and only if the purge works, the total fits 32 bits
and no unspent value is stored below height 1. -/
theorem balances_exact_iff {sorting : HeightSort Hash} {keys : WalletKeys Hash}
    {call : BalanceCall Hash} {store next : Store Hash} {state : Bool}
    {accounts : List (Account Hash)} {whole : List Nat} (outside : Dyadic → UInt64)
    (synced : updateNoteRepository sorting keys call.sync store = .ok (state, next))
    (listed : call.accounts = some accounts) (balances : WholeBalances accounts whole)
    (stored : StoredValues next.userNotes) :
    (NotesExact call.purge next.userNotes ∧
        ReportExact (getBalance sorting keys outside call store)
          (unspentTotal next.userNotes) whole.sum) ↔
      call.purge ≠ .thrown ∧ unspentTotal next.userNotes + whole.sum < 2 ^ 32 ∧
        unseenTotal next.userNotes = 0 := by
  have split := unspentTotal_eq next.userNotes
  by_cases works : call.purge = .thrown
  · apply iff_of_false
    · rintro ⟨⟨total, rest, returned, _⟩, _⟩
      rw [works, userNotesBalance_thrown] at returned
      cases returned
    · exact fun condition => condition.1 works
  · obtain ⟨notes, returned, value⟩ := userNotesBalance_eq stored works
    have reported : getBalance sorting keys outside call store =
        .ok (some ⟨accumulate (accounts.map fun account => toUInt64 outside account.balance), notes,
            notes + accumulate (accounts.map fun account => toUInt64 outside account.balance)⟩,
          { next with userNotes := (purgeUserNotes call.purge next.userNotes).2 }) := by
      simp only [getBalance, synced, listed, Balance.balances, returned]
      rfl
    constructor
    · rintro ⟨_, report, after, shown, exactNotes, _, exactTotal⟩
      rw [reported] at shown
      cases shown
      have bound := (notes + accumulate
        (accounts.map fun account => toUInt64 outside account.balance)).toNat_lt
      simp only at exactNotes exactTotal
      exact ⟨works, by omega, by omega⟩
    · rintro ⟨_, fits, seen⟩
      have exactNotes : notes.toNat = unspentTotal next.userNotes := by omega
      have exactAccounts := toNat_accumulate_accounts balances outside (by omega)
      refine ⟨⟨notes, _, returned, exactNotes⟩, _, _, reported, exactNotes, exactAccounts, ?_⟩
      simp only [UInt32.toNat_add, exactNotes, exactAccounts]
      omega

end

/-! A wallet with documents of a given value, one of each status. -/

def document (value : Int) (spent : Bool) (height : Nat) : UserNote (BitVec 256) :=
  ⟨.bool true, height, height, value, .bool spent, height⟩

/-- A key to which no note is addressed. -/
def foreignKeys : WalletKeys (BitVec 256) := ⟨fun _ _ _ _ => none, id⟩

/-- The server lists two accounts of 7 and 9 and has no answer to `get_notes`. -/
def listedCall : BalanceCall (BitVec 256) :=
  ⟨⟨.failed, Faults.none⟩, some [⟨1, Dyadic.ofInt 7⟩, ⟨2, Dyadic.ofInt 9⟩], .applied⟩

/-- One unspent note of 5 beside a spent one, and accounts of 7 and 9. -/
theorem listed_balances_exact :
    NotesExact listedCall.purge [document 5 false 1, document 3 true 2] ∧
      ReportExact (getBalance (Base.Sorting.StdSort.stable _) foreignKeys (fun _ => 0) listedCall
        ⟨[], [document 5 false 1, document 3 true 2]⟩)
        (unspentTotal [document 5 false 1, document 3 true 2]) [7, 9].sum := by
  have stored : StoredValues [document 5 false 1, document 3 true 2] := by decide
  have whole : WholeBalances [⟨(1 : BitVec 256), Dyadic.ofInt 7⟩, ⟨2, Dyadic.ofInt 9⟩] [7, 9] := rfl
  have synced : updateNoteRepository (Base.Sorting.StdSort.stable _) foreignKeys listedCall.sync
      ⟨[], [document 5 false 1, document 3 true 2]⟩ =
      .ok (false, ⟨[], [document 5 false 1, document 3 true 2]⟩) := rfl
  exact (balances_exact_iff (fun _ => 0) synced rfl whole stored).mpr
    ⟨by decide, by decide, by decide⟩

/-- Three notes of the largest stored value have a sum beyond 32 bits. -/
theorem three_large_notes_wrap :
    StoredValues [document (2 ^ 31 - 1) false 1, document (2 ^ 31 - 1) false 2,
        document (2 ^ 31 - 1) false 3] ∧
      ¬ NotesExact .applied [document (2 ^ 31 - 1) false 1, document (2 ^ 31 - 1) false 2,
        document (2 ^ 31 - 1) false 3] := by
  constructor
  · decide
  · rintro ⟨total, rest, _, exact⟩
    have bound := total.toNat_lt
    have sum : unspentTotal [document (2 ^ 31 - 1) false 1, document (2 ^ 31 - 1) false 2,
        document (2 ^ 31 - 1) false 3] = 6442450941 := by
      decide
    omega

end CbDaemon.Requests.Balance
