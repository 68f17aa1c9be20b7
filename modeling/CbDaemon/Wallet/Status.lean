/- module: CbDaemon/Wallet/Status
   source: src/cblib/note.cpp
   digest: The spent status of user notes and what the purge removes. -/

import CbDaemon.Base.Run
import CbDaemon.Wallet.Notes

set_option autoImplicit false
set_option relaxedAutoImplicit false

namespace CbDaemon.Wallet.Status
open Base.Machine Base.Run Notes

section purge

variable {Hash : Type} [DecidableEq Hash]

/-- The calls that write to the user_notes collection before a purge. -/
inductive StatusEvent (Hash : Type) where
  /-- `add_user_note` with what becomes of its insert. -/
  | add (outcome : Insert) (note : NoteCiphertext Hash)
  /-- `update_user_notes_status` on the notes stored at the time, with the updates
  that take effect. -/
  | update (updates : Nat → Bool) (notes : List (NoteCiphertext Hash))

def statusStep (keys : WalletKeys Hash) (docs : List (UserNote Hash)) :
    StatusEvent Hash → List (UserNote Hash)
  | .add outcome note => (addUserNote keys outcome note docs).2
  | .update updates notes => (updateUserNotesStatus keys updates ⟨notes, docs⟩).2.userNotes

def TruthStatus (docs : List (UserNote Hash)) : Prop := ∀ doc ∈ docs, ∃ b, doc.status = .bool b

omit [DecidableEq Hash] in
private theorem TruthStatus.addUserNote {keys : WalletKeys Hash} {docs : List (UserNote Hash)}
    (truth : TruthStatus docs) (outcome : Insert) (note : NoteCiphertext Hash) :
    TruthStatus (addUserNote keys outcome note docs).2 := by
  cases recorded : keys.record note with
  | none =>
    rw [Notes.addUserNote, recorded]
    exact truth
  | some doc =>
    rw [Notes.addUserNote, recorded]
    show TruthStatus (if outcome.applied then docs ++ [doc] else docs)
    split
    · intro other among
      rcases List.mem_append.mp among with old | new
      · exact truth other old
      · rw [List.mem_singleton.mp new, ← (forgetStatus_of_record recorded).1]
        exact ⟨false, rfl⟩
    · exact truth

private theorem TruthStatus.markSpent {docs : List (UserNote Hash)} (truth : TruthStatus docs)
    (rho r : Hash) : TruthStatus (markSpent rho r docs) := by
  intro doc among
  obtain ⟨old, before, rfl⟩ := List.mem_map.mp among
  split
  · exact ⟨true, rfl⟩
  · exact truth old before

private theorem TruthStatus.markAllSpent (updates : Nat → Bool)
    {spent : List (NotePlaintextDB Hash)} :
    ∀ {i : Nat} {docs : List (UserNote Hash)}, TruthStatus docs →
      TruthStatus (markAllSpent updates i spent docs) := by
  induction spent with
  | nil =>
    intro i docs truth
    exact truth
  | cons note spent ih =>
    intro i docs truth
    rw [Notes.markAllSpent]
    apply ih
    split
    · exact truth.markSpent note.rho note.r
    · exact truth

private theorem TruthStatus.statusStep (keys : WalletKeys Hash) (docs : List (UserNote Hash))
    (event : StatusEvent Hash) (truth : TruthStatus docs) :
    TruthStatus (statusStep keys docs event) := by
  cases event with
  | add outcome note => exact truth.addUserNote outcome note
  | update updates notes => exact truth.markAllSpent updates

omit [DecidableEq Hash] in
private theorem purgeUserNotes_of_truthStatus {docs : List (UserNote Hash)}
    (truth : TruthStatus docs)
    (outcome : Delete) : (purgeUserNotes outcome docs).2 = docs := by
  -- the filter of the purge matches no truth value
  cases outcome with
  | applied =>
    apply List.filter_eq_self.mpr
    intro doc among
    obtain ⟨b, status⟩ := truth doc among
    simp [status]
  | hidden => rfl
  | thrown => rfl

/-- The purge left the unspent documents, and a later query finds no others. -/
def Purged (before after : List (UserNote Hash)) : Prop :=
  after = before.filter (!·.status.asBool) ∧
    ∀ height found, queryUserNote height after = some found → ∀ note ∈ found, note.status = false

omit [DecidableEq Hash] in
private theorem unspent_of_query {docs : List (UserNote Hash)}
    (unspent : ∀ doc ∈ docs, doc.status.asBool = false) {height : Nat}
    {found : List (NotePlaintextDB Hash)} (queried : queryUserNote height docs = some found) :
    ∀ note ∈ found, note.status = false := by
  intro note among
  rw [(queryUserNote_eq_some.mp queried).2] at among
  obtain ⟨doc, matched, rfl⟩ := List.mem_map.mp among
  exact unspent doc (List.mem_filter.mp matched).1

/-- In every collection that the two calls build, a purge removes exactly the spent
notes only if there are none. -/
theorem purged_iff_unspent (keys : WalletKeys Hash) (events : List (StatusEvent Hash))
    (outcome : Delete) :
    Purged (run (statusStep keys) [] events)
        (purgeUserNotes outcome (run (statusStep keys) [] events)).2 ↔
      ∀ doc ∈ run (statusStep keys) [] events, doc.status.asBool = false := by
  have truth : TruthStatus (run (statusStep keys) [] events) :=
    invariant TruthStatus (TruthStatus.statusStep keys) (List.forall_mem_nil _) events
  rw [purgeUserNotes_of_truthStatus truth outcome]
  constructor
  · rintro ⟨kept, _⟩ doc among
    have unspent := List.filter_eq_self.mp kept.symm doc among
    simpa using unspent
  · intro unspent
    refine ⟨?_, fun height found queried => unspent_of_query unspent queried⟩
    symm
    apply List.filter_eq_self.mpr
    intro doc among
    rw [unspent doc among]
    rfl

end purge

def fiveKeys : WalletKeys (BitVec 256) where
  decrypt _ _ _ _ := some ⟨5, 7, 9, .null⟩
  nullifier rho := rho + 1

/-- A note that spends the one of `fiveKeys`. -/
def spendingNote : NoteCiphertext (BitVec 256) where
  text := .null
  noteHeight := 1
  noteCommitment := 0
  noteRoot := 0
  ephemeralKey := 0
  hSig := 0
  ith := 0
  correspondentNullifier := 8

def spentEvents : List (StatusEvent (BitVec 256)) :=
  [.add .stored spendingNote, .update (fun _ => true) [spendingNote]]

/-- The purge takes effect and the spent note stays. -/
theorem purge_keeps_spent_note :
    (run (statusStep fiveKeys) [] spentEvents).map (·.status) = [.bool true] ∧
      (purgeUserNotes .applied (run (statusStep fiveKeys) [] spentEvents)).2 =
        run (statusStep fiveKeys) [] spentEvents ∧
      ¬ Purged (run (statusStep fiveKeys) [] spentEvents)
        (purgeUserNotes .applied (run (statusStep fiveKeys) [] spentEvents)).2 := by
  refine ⟨by decide, by decide, ?_⟩
  rintro ⟨kept, _⟩
  exact absurd kept (by decide)

end CbDaemon.Wallet.Status
