/- module: CbDaemon/Wallet/Notes
   source: src/cblib/note.h, src/cblib/note.cpp
   digest: The notes and user_notes collections of one wallet and the functions over them. -/

import CbDaemon.Base.Machine

set_option autoImplicit false
set_option relaxedAutoImplicit false

namespace CbDaemon.Wallet.Notes
open Base.Machine

/-- `ZC_CLEN`, the bytes of a note ciphertext. -/
def zcCLen : Nat := 601

def zcMemoSize : Nat := 512

/-- `NoteCiphertext`. Its `serialize` writes every field, so a document of the
notes collection is identified with the value read back from it. -/
structure NoteCiphertext (Hash : Type) where
  text : Blob zcCLen
  -- an `unsigned int` that is compared with an `int`: a natural number up to `2 ^ 31 - 1`
  noteHeight : Nat
  noteCommitment : Hash
  noteRoot : Hash
  ephemeralKey : Hash
  hSig : Hash
  ith : Int
  correspondentNullifier : Hash
  deriving DecidableEq

/-- `libzcash::NotePlaintext`. -/
structure NotePlaintext (Hash : Type) where
  value : UInt64
  rho : Hash
  r : Hash
  memo : Blob zcMemoSize

/-- The scalar values JSON and BSON distinguish in a user-note document. -/
inductive Scalar where
  | bool (b : Bool)
  | int (n : Int32)
  deriving DecidableEq

def Scalar.asBool : Scalar → Bool
  | .bool b => b
  | .int n => n != 0

def Scalar.asString : Scalar → String
  | .bool b => if b then "true" else "false"
  | .int n => toString n.toInt

/-- A document of the user_notes collection. -/
@[ext]
structure UserNote (Hash : Type) where
  memo : Scalar
  r : Hash
  rho : Hash
  value : Int
  status : Scalar
  noteHeight : Nat
  deriving DecidableEq

/-- `NotePlaintextDB` as read from a document. -/
structure NotePlaintextDB (Hash : Type) where
  value : UInt64
  r : Hash
  rho : Hash
  stringMemo : String
  noteHeight : Nat
  status : Bool
  deriving DecidableEq

/-- The two collections of a wallet's database, each in the order in which a
query returns it. -/
@[ext]
structure Store (Hash : Type) where
  notes : List (NoteCiphertext Hash)
  userNotes : List (UserNote Hash)
  deriving DecidableEq

def Store.empty {Hash : Type} : Store Hash := ⟨[], []⟩

/-- The wallet's confidential key, through what the code does with it:
decryption under `generate_privkey()` of the ciphertext, ephemeral key, `h_sig`
and index of a note, and `PRF_nf` of `rho` under the spending key. -/
structure WalletKeys (Hash : Type) where
  decrypt : Blob zcCLen → Hash → Hash → Int → Option (NotePlaintext Hash)
  nullifier : Hash → Hash

/-- What becomes of a write to the database: it takes effect and is reported,
it fails, or it takes effect and `add_request` fails afterwards while it reads
the collection back. -/
inductive Insert where
  | stored
  | lost
  | storedUnreported
  deriving DecidableEq

def Insert.applied : Insert → Bool
  | .lost => false
  | _ => true

/-- The result of `add_request`. -/
def Insert.reported : Insert → Bool
  | .stored => true
  | _ => false

section

variable {Hash : Type}

/-- `add_request` on a collection. -/
def addRequest {Doc : Type} (outcome : Insert) (doc : Doc) (docs : List Doc) : Bool × List Doc :=
  (outcome.reported, if outcome.applied then docs ++ [doc] else docs)

/-- `NotePlaintextDB::serialize(is_spent, correspondent_cipher)`. The memo is
given to JSON as a byte pointer, which converts to the truth value `true`. -/
def NotePlaintext.serialize (plain : NotePlaintext Hash) (isSpent : Bool)
    (cipher : NoteCiphertext Hash) : UserNote Hash where
  memo := .bool true
  r := plain.r
  rho := plain.rho
  value := (toInt plain.value).toInt
  status := .bool isSpent
  noteHeight := cipher.noteHeight

/-- The value is an `unsigned int`, without which `asUInt` throws. -/
def UserNote.Readable (doc : UserNote Hash) : Prop := 0 ≤ doc.value ∧ doc.value < 2 ^ 32

instance (doc : UserNote Hash) : Decidable doc.Readable := inferInstanceAs (Decidable (_ ∧ _))

/-- The fields `NotePlaintextDB(std::string)` sets from a document. -/
def UserNote.content (doc : UserNote Hash) : NotePlaintextDB Hash where
  value := UInt64.ofInt doc.value
  r := doc.r
  rho := doc.rho
  stringMemo := doc.memo.asString
  noteHeight := doc.noteHeight
  status := doc.status.asBool

/-- `NotePlaintextDB(std::string)`, with `none` for its exception. -/
def UserNote.read (doc : UserNote Hash) : Option (NotePlaintextDB Hash) :=
  if doc.Readable then some doc.content else none

/-- `database::query<NotePlaintextDB>`: the notes pushed before the first
document that does not parse, and whether all of them parsed. -/
def readAll : List (UserNote Hash) → List (NotePlaintextDB Hash) × Bool
  | [] => ([], true)
  | doc :: docs =>
    match doc.read with
    | none => ([], false)
    | some note => (note :: (readAll docs).1, (readAll docs).2)

/-- `query_user_note`, with `none` when a document does not parse. -/
def queryUserNote (height : Nat) (docs : List (UserNote Hash)) :
    Option (List (NotePlaintextDB Hash)) :=
  let (found, complete) := readAll (docs.filter (height < ·.noteHeight))
  if complete then some found else none

/-- What becomes of a delete: it takes effect, it fails inside
`delete_request`, which hides it, or no database is reached at all. -/
inductive Delete where
  | applied
  | hidden
  | thrown
  deriving DecidableEq

/-- `purge_user_notes`. The filter asks for the integer 1, and a status is
stored as a truth value. -/
def purgeUserNotes (outcome : Delete) (docs : List (UserNote Hash)) : Bool × List (UserNote Hash) :=
  match outcome with
  | .applied => (true, docs.filter (·.status ≠ .int 1))
  | .hidden => (true, docs)
  | .thrown => (false, docs)

/-! The queries on the notes collection. The source returns the found notes and
whether there are any. -/

/-- `query_note(height)`. -/
def queryNoteAbove (height : Nat) (notes : List (NoteCiphertext Hash)) :
    List (NoteCiphertext Hash) := notes.filter (height < ·.noteHeight)

def queryNoteOne (height : Nat) (notes : List (NoteCiphertext Hash)) :
    List (NoteCiphertext Hash) := notes.filter (·.noteHeight = height)

/-- The height `update_note_repository` takes from the latest note, 0 if there
is none. -/
def latestHeight (notes : List (NoteCiphertext Hash)) : Nat :=
  ((notes.map (·.noteHeight)).max?).getD 0

/-- The document `add_user_note` writes for a note, if it decrypts. -/
def WalletKeys.record (keys : WalletKeys Hash) (note : NoteCiphertext Hash) :
    Option (UserNote Hash) :=
  (keys.decrypt note.text note.ephemeralKey note.hSig note.ith).map (·.serialize false note)

/-- `add_user_note`: a note that does not decrypt counts as added. -/
def addUserNote (keys : WalletKeys Hash) (outcome : Insert) (note : NoteCiphertext Hash)
    (docs : List (UserNote Hash)) : Bool × List (UserNote Hash) :=
  match keys.record note with
  | none => (true, docs)
  | some doc => addRequest outcome doc docs

/-- `add_user_note` for each note of a list; the `i`-th write has outcome
`outcomes i`, and the results are ignored. -/
def addUserNotes (keys : WalletKeys Hash) (outcomes : Nat → Insert) :
    Nat → List (NoteCiphertext Hash) → List (UserNote Hash) → List (UserNote Hash)
  | _, [], docs => docs
  | i, note :: notes, docs =>
    addUserNotes keys outcomes (i + 1) notes (addUserNote keys (outcomes i) note docs).2

variable [DecidableEq Hash]

/-- `query_note(root)`. -/
def queryNoteRoot (root : Hash) (notes : List (NoteCiphertext Hash)) :
    List (NoteCiphertext Hash) := notes.filter (·.noteRoot = root)

def queryNoteCommitment (commitment : Hash) (notes : List (NoteCiphertext Hash)) :
    List (NoteCiphertext Hash) := notes.filter (·.noteCommitment = commitment)

def queryNullifier (nullifier : Hash) (notes : List (NoteCiphertext Hash)) :
    List (NoteCiphertext Hash) := notes.filter (·.correspondentNullifier = nullifier)

/-- `update_many` of the documents with this `rho` and `r` to status `true`. -/
def markSpent (rho r : Hash) (docs : List (UserNote Hash)) : List (UserNote Hash) :=
  docs.map fun doc => if doc.rho = rho ∧ doc.r = r then { doc with status := .bool true } else doc

/-- The update phase of `update_user_notes_status`: the `i`-th update takes
effect or not, and a failed one is not noticed. -/
def markAllSpent (updates : Nat → Bool) :
    Nat → List (NotePlaintextDB Hash) → List (UserNote Hash) → List (UserNote Hash)
  | _, [], docs => docs
  | i, note :: notes, docs =>
    markAllSpent updates (i + 1) notes (if updates i then markSpent note.rho note.r docs else docs)

def updateUserNotesStatus (keys : WalletKeys Hash) (updates : Nat → Bool) (store : Store Hash) :
    Bool × Store Hash :=
  let (found, complete) := readAll store.userNotes
  let spent := found.filter fun note =>
    queryNullifier (keys.nullifier note.rho) store.notes ≠ []
  (complete, { store with userNotes := markAllSpent updates 0 spent store.userNotes })

/-! The status updates change no other field, and the additions only append. -/

def UserNote.forgetStatus (doc : UserNote Hash) : UserNote Hash := { doc with status := .bool false }

private theorem forgetStatus_markSpent (rho r : Hash) (docs : List (UserNote Hash)) :
    (markSpent rho r docs).map UserNote.forgetStatus = docs.map UserNote.forgetStatus := by
  rw [markSpent, List.map_map]
  apply List.map_congr_left
  intro doc _
  change (if doc.rho = rho ∧ doc.r = r then _ else doc).forgetStatus = doc.forgetStatus
  split <;> rfl

private theorem forgetStatus_markAllSpent (updates : Nat → Bool)
    (spent : List (NotePlaintextDB Hash))
    (i : Nat) (docs : List (UserNote Hash)) :
    (markAllSpent updates i spent docs).map UserNote.forgetStatus =
      docs.map UserNote.forgetStatus := by
  induction spent generalizing i docs with
  | nil => rfl
  | cons note spent ih =>
    rw [markAllSpent, ih]
    split
    · exact forgetStatus_markSpent note.rho note.r docs
    · rfl

@[simp]
theorem updateUserNotesStatus_notes (keys : WalletKeys Hash) (updates : Nat → Bool)
    (store : Store Hash) : (updateUserNotesStatus keys updates store).2.notes = store.notes := rfl

theorem forgetStatus_updateUserNotesStatus (keys : WalletKeys Hash) (updates : Nat → Bool)
    (store : Store Hash) :
    (updateUserNotesStatus keys updates store).2.userNotes.map UserNote.forgetStatus =
      store.userNotes.map UserNote.forgetStatus :=
  forgetStatus_markAllSpent updates _ 0 store.userNotes

/-! When every document parses and every update takes effect, the new status of
a document depends only on its own nullifier. -/

/-- Some note of the list carries the nullifier of `rho`. -/
def spentIn (keys : WalletKeys Hash) (notes : List (NoteCiphertext Hash)) (rho : Hash) : Bool :=
  (notes.map (·.correspondentNullifier)).contains (keys.nullifier rho)

theorem spentIn_mono {keys : WalletKeys Hash} {notes more : List (NoteCiphertext Hash)} {rho : Hash}
    (sub : notes ⊆ more) (spent : spentIn keys notes rho = true) : spentIn keys more rho = true := by
  rw [spentIn, List.contains_iff_mem] at spent ⊢
  exact List.map_subset _ sub spent

private theorem queryNullifier_ne_nil (keys : WalletKeys Hash) (notes : List (NoteCiphertext Hash))
    (rho : Hash) : queryNullifier (keys.nullifier rho) notes ≠ [] ↔ spentIn keys notes rho := by
  rw [queryNullifier, Ne, List.filter_eq_nil_iff, spentIn, List.contains_iff_mem, List.mem_map]
  push Not
  constructor
  · rintro ⟨note, mem, same⟩
    exact ⟨note, mem, by simpa using same⟩
  · rintro ⟨note, mem, same⟩
    exact ⟨note, mem, by simpa using same⟩

private theorem markAllSpent_eq (spent : List (NotePlaintextDB Hash)) (i : Nat)
    (docs : List (UserNote Hash)) :
    markAllSpent (fun _ => true) i spent docs = docs.map fun doc =>
      if ∃ note ∈ spent, doc.rho = note.rho ∧ doc.r = note.r then { doc with status := .bool true }
      else doc := by
  induction spent generalizing i docs with
  | nil => simp [markAllSpent]
  | cons note spent ih =>
    rw [markAllSpent, ih, if_pos rfl, markSpent, List.map_map]
    apply List.map_congr_left
    intro doc _
    by_cases first : doc.rho = note.rho ∧ doc.r = note.r
    · simp [first]
    · simp [first]

omit [DecidableEq Hash] in
theorem toNat_content_value {doc : UserNote Hash} (readable : doc.Readable) :
    (doc.content.value.toNat : Int) = doc.value := by
  obtain ⟨lower, upper⟩ := readable
  change ((UInt64.ofNat (doc.value % 2 ^ 64).toNat).toNat : Int) = doc.value
  rw [UInt64.toNat_ofNat']
  omega

omit [DecidableEq Hash] in
private theorem readAll_of_readable {docs : List (UserNote Hash)}
    (readable : ∀ doc ∈ docs, doc.Readable) :
    readAll docs = (docs.map UserNote.content, true) := by
  induction docs with
  | nil => rfl
  | cons doc docs ih =>
    have parses : doc.Readable := readable doc List.mem_cons_self
    have rest := ih fun other mem => readable other (List.mem_cons_of_mem doc mem)
    simp [readAll, UserNote.read, parses, rest]

omit [DecidableEq Hash] in
theorem readAll_complete {docs : List (UserNote Hash)} :
    (readAll docs).2 = true ↔ ∀ doc ∈ docs, doc.Readable := by
  induction docs with
  | nil => simp [readAll]
  | cons doc docs ih =>
    by_cases parses : doc.Readable
    · simp [readAll, UserNote.read, parses, ih]
    · simp [readAll, UserNote.read, parses]

omit [DecidableEq Hash] in
theorem queryUserNote_eq_some {height : Nat} {docs : List (UserNote Hash)}
    {found : List (NotePlaintextDB Hash)} :
    queryUserNote height docs = some found ↔
      (∀ doc ∈ docs, height < doc.noteHeight → doc.Readable) ∧
        found = (docs.filter (height < ·.noteHeight)).map UserNote.content := by
  have matched : (∀ doc ∈ docs, height < doc.noteHeight → doc.Readable) ↔
      ∀ doc ∈ docs.filter (height < ·.noteHeight), doc.Readable := by
    simp [List.mem_filter]
  rw [queryUserNote, matched]
  constructor
  · intro queried
    by_cases complete : (readAll (docs.filter (height < ·.noteHeight))).2 = true
    · have readable := readAll_complete.mp complete
      simp only [readAll_of_readable readable, if_true, Option.some.injEq] at queried
      exact ⟨readable, queried.symm⟩
    · simp [complete] at queried
  · rintro ⟨readable, rfl⟩
    simp [readAll_of_readable readable]

theorem updateUserNotesStatus_userNotes (keys : WalletKeys Hash) {store : Store Hash}
    (readable : ∀ doc ∈ store.userNotes, doc.Readable) :
    (updateUserNotesStatus keys (fun _ => true) store).2.userNotes =
      store.userNotes.map fun doc =>
        if spentIn keys store.notes doc.rho then { doc with status := .bool true } else doc := by
  rw [updateUserNotesStatus, readAll_of_readable readable]
  simp only [markAllSpent_eq]
  apply List.map_congr_left
  intro doc mem
  congr 1
  simp only [List.mem_filter, decide_eq_true_eq, queryNullifier_ne_nil, eq_iff_iff]
  constructor
  · rintro ⟨note, ⟨_, spent⟩, sameRho, _⟩
    rw [sameRho]
    exact spent
  · intro spent
    exact ⟨doc.content, ⟨List.mem_map_of_mem mem, spent⟩, rfl, rfl⟩

end

section

variable {Hash : Type}

theorem forgetStatus_of_record {keys : WalletKeys Hash} {note : NoteCiphertext Hash}
    {doc : UserNote Hash} (recorded : keys.record note = some doc) :
    doc.forgetStatus = doc ∧ doc.noteHeight = note.noteHeight := by
  rw [WalletKeys.record, Option.map_eq_some_iff] at recorded
  obtain ⟨plain, _, rfl⟩ := recorded
  exact ⟨rfl, rfl⟩

theorem purgeUserNotes_subset (outcome : Delete) (docs : List (UserNote Hash)) :
    (purgeUserNotes outcome docs).2 ⊆ docs := by
  cases outcome with
  | applied => exact List.filter_subset_self docs
  | hidden => exact List.Subset.refl docs
  | thrown => exact List.Subset.refl docs

theorem purgeUserNotes_eq {outcome : Delete} (works : outcome ≠ .thrown)
    (docs : List (UserNote Hash)) :
    purgeUserNotes outcome docs = (true, (purgeUserNotes outcome docs).2) := by
  cases outcome with
  | applied => rfl
  | hidden => rfl
  | thrown => exact absurd rfl works

/-- The notes of a list whose write, counted from `i`, takes effect. -/
def written (outcomes : Nat → Insert) : Nat → List (NoteCiphertext Hash) →
    List (NoteCiphertext Hash)
  | _, [] => []
  | i, note :: notes =>
    if (outcomes i).applied then note :: written outcomes (i + 1) notes
    else written outcomes (i + 1) notes

theorem addUserNotes_eq (keys : WalletKeys Hash) (outcomes : Nat → Insert)
    (notes : List (NoteCiphertext Hash)) (i : Nat) (docs : List (UserNote Hash)) :
    addUserNotes keys outcomes i notes docs =
      docs ++ (written outcomes i notes).filterMap keys.record := by
  induction notes generalizing i docs with
  | nil => simp [addUserNotes, written]
  | cons note notes ih =>
    rw [addUserNotes, ih]
    cases recorded : keys.record note with
    | none =>
      by_cases applied : (outcomes i).applied
      · simp [addUserNote, written, applied, recorded]
      · simp [addUserNote, written, applied, recorded]
    | some doc =>
      by_cases applied : (outcomes i).applied
      · simp [addUserNote, addRequest, written, applied, recorded]
      · simp [addUserNote, addRequest, written, applied, recorded]

theorem written_sublist (outcomes : Nat → Insert) (notes : List (NoteCiphertext Hash)) (i : Nat) :
    (written outcomes i notes).Sublist notes := by
  induction notes generalizing i with
  | nil => exact List.Sublist.slnil
  | cons note notes ih =>
    rw [written]
    split
    · exact (ih (i + 1)).cons_cons note
    · exact (ih (i + 1)).cons note

theorem written_of_applied {outcomes : Nat → Insert} (all : ∀ i, (outcomes i).applied = true)
    (notes : List (NoteCiphertext Hash)) (i : Nat) : written outcomes i notes = notes := by
  induction notes generalizing i with
  | nil => rfl
  | cons note notes ih => rw [written, if_pos (all i), ih]

end

end CbDaemon.Wallet.Notes
