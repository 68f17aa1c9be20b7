/- module: CbDaemon/Wallet/Consistency
   source: src/cblib/request_methods.cpp
   digest: When the user notes of a wallet are records of distinct stored notes. -/

import CbDaemon.Wallet.Sync

set_option autoImplicit false
set_option relaxedAutoImplicit false

namespace CbDaemon.Wallet.Consistency
open Base.Machine Base.Run Base.Sorting Notes Sync

variable {Hash : Type}

/-- The user notes are, up to their status, the records of stored notes that are
pairwise different in height or commitment. -/
def Recorded (keys : WalletKeys Hash) (store : Store Hash) : Prop :=
  ∃ sources : List (NoteCiphertext Hash),
    sources.map keys.record = (store.userNotes.map UserNote.forgetStatus).map some ∧
    (∀ note ∈ sources, note ∈ store.notes) ∧
    (sources.map fun note => (note.noteHeight, note.noteCommitment)).Nodup

/-- The storing loop gets past index `i`: the received heights follow `last`
without a gap up to there, every insert before `i` succeeds and that at `i`
takes effect. -/
def Reached (outcomes : Nat → Insert) (last : Nat) (received : List (NoteCiphertext Hash))
    (i : Nat) : Prop :=
  (∀ j < i + 1, received[j]?.map (·.noteHeight) = some (last + 1 + j)) ∧
    (∀ j < i, outcomes j = .stored) ∧ (outcomes i).applied = true

instance (outcomes : Nat → Insert) (last : Nat) (received : List (NoteCiphertext Hash)) (i : Nat) :
    Decidable (Reached outcomes last received i) :=
  inferInstanceAs (Decidable (_ ∧ _ ∧ _))

private theorem reached_cons {outcomes : Nat → Insert} {last i : Nat}
    {note : NoteCiphertext Hash} {received : List (NoteCiphertext Hash)}
    (reached : Reached outcomes last (note :: received) (i + 1)) :
    note.noteHeight = last + 1 ∧ outcomes 0 = .stored ∧
      Reached (fun j => outcomes (j + 1)) (last + 1) received i := by
  obtain ⟨heights, inserts, applied⟩ := reached
  refine ⟨?_, inserts 0 (Nat.succ_pos i), ?_, ?_, applied⟩
  · simpa using heights 0 (Nat.succ_pos _)
  · intro j below
    have height := heights (j + 1) (Nat.succ_lt_succ below)
    rw [List.getElem?_cons_succ] at height
    rw [height]
    congr 1
    omega
  · intro j below
    exact inserts (j + 1) (Nat.succ_lt_succ below)

private theorem storedCount_shift (outcomes : Nat → Insert) (received : List (NoteCiphertext Hash))
    (i last : Nat) :
    storedCount (fun j => outcomes (j + 1)) i last received =
      storedCount outcomes (i + 1) last received := by
  induction received generalizing i last with
  | nil => rfl
  | cons note received ih =>
    rw [storedCount, storedCount, ih]

private theorem lt_storedCount_of_reached {outcomes : Nat → Insert} {last i : Nat}
    {received : List (NoteCiphertext Hash)} (reached : Reached outcomes last received i) :
    i < storedCount outcomes 0 last received := by
  induction received generalizing outcomes last i with
  | nil =>
    have head := reached.1 0 (Nat.succ_pos i)
    simp at head
  | cons note received ih =>
    cases i with
    | zero =>
      obtain ⟨heights, _, applied⟩ := reached
      have first : note.noteHeight = last + 1 := by simpa using heights 0 (Nat.succ_pos 0)
      rw [storedCount, if_neg (not_not.mpr first)]
      cases outcome : outcomes 0 with
      | lost =>
        rw [outcome] at applied
        cases applied
      | storedUnreported => exact Nat.one_pos
      | stored => exact Nat.succ_pos _
    | succ i =>
      obtain ⟨first, stored, rest⟩ := reached_cons reached
      have further := ih rest
      rw [storedCount_shift] at further
      rw [storedCount, if_neg (not_not.mpr first), stored]
      exact Nat.succ_lt_succ further

/-- Notes past index `n` leave no record when none of them both decrypts and is
written. -/
private theorem filterMap_written_take {keys : WalletKeys Hash} {outcomes : Nat → Insert}
    {received : List (NoteCiphertext Hash)} {i n : Nat}
    (beyond : ∀ j, n ≤ j → ∀ note, received[j]? = some note →
      (outcomes (i + j)).applied = true → keys.record note = none) :
    (written outcomes i received).filterMap keys.record =
      (written outcomes i (received.take n)).filterMap keys.record := by
  induction received generalizing i n with
  | nil => simp
  | cons note received ih =>
    have tail : ∀ m, n ≤ m + 1 → (written outcomes (i + 1) received).filterMap keys.record =
        (written outcomes (i + 1) (received.take m)).filterMap keys.record := by
      intro m reach
      apply ih
      intro j after found at_j applied
      refine beyond (j + 1) (by omega) found (by simpa using at_j) ?_
      rw [show i + (j + 1) = i + 1 + j by omega]
      exact applied
    cases n with
    | zero =>
      have rest := tail 0 (Nat.zero_le _)
      by_cases applied : (outcomes i).applied = true
      · have none : keys.record note = none := beyond 0 (Nat.le_refl 0) note rfl applied
        simpa [written, applied, none] using rest
      · simpa [written, applied] using rest
    | succ n =>
      have rest := tail n (Nat.le_refl _)
      by_cases applied : (outcomes i).applied = true
      · simp [written, applied, List.filterMap_cons, rest]
      · simp [written, applied, rest]

private theorem map_record_filter (keys : WalletKeys Hash) (notes : List (NoteCiphertext Hash)) :
    (notes.filter fun note => (keys.record note).isSome).map keys.record =
      (notes.filterMap keys.record).map some := by
  induction notes with
  | nil => rfl
  | cons note notes ih =>
    cases recorded : keys.record note with
    | none => simp [recorded, ih]
    | some doc => simp [recorded, ih]

private theorem map_forgetStatus_filterMap (keys : WalletKeys Hash)
    (notes : List (NoteCiphertext Hash)) :
    (notes.filterMap keys.record).map UserNote.forgetStatus = notes.filterMap keys.record := by
  rw [List.map_filterMap]
  apply List.filterMap_congr
  intro note _
  cases recorded : keys.record note with
  | none => rfl
  | some doc => rw [Option.map_some, (forgetStatus_of_record recorded).1]

variable [DecidableEq Hash]

/-- If the call is accepted, every received note that it records as a user note
is one that its storing loop reaches. -/
def Covered (sorting : HeightSort Hash) (keys : WalletKeys Hash) (store : Store Hash)
    (call : Call Hash) : Prop :=
  call.Accepted sorting store →
    ∀ i < (call.received sorting).length,
      ((call.received sorting)[i]?.bind keys.record).isSome →
        (call.faults.userNotes i).applied = true →
          Reached call.faults.notes (latestHeight store.notes) (call.received sorting) i

instance (sorting : HeightSort Hash) (keys : WalletKeys Hash) (store : Store Hash)
    (call : Call Hash) : Decidable (Covered sorting keys store call) :=
  inferInstanceAs (Decidable (_ → ∀ i < _, _ → _ → _))

private theorem userNotes_updateConfidentialBalance (keys : WalletKeys Hash) (faults : Faults)
    (received : List (NoteCiphertext Hash)) (store : Store Hash) :
    (updateConfidentialBalance keys faults received store).2.userNotes.map UserNote.forgetStatus =
      store.userNotes.map UserNote.forgetStatus ++
        (written faults.userNotes 0 received).filterMap keys.record := by
  rw [updateConfidentialBalance, forgetStatus_updateUserNotesStatus, addUserNotes_eq,
    List.map_append, map_forgetStatus_filterMap]

omit [DecidableEq Hash] in
private theorem nodup_append_stored {sorting : HeightSort Hash} {store : Store Hash}
    {call : Call Hash} {sources added : List (NoteCiphertext Hash)}
    (contiguous : Contiguous store.notes) (old : ∀ note ∈ sources, note ∈ store.notes)
    (distinct : (sources.map fun note => (note.noteHeight, note.noteCommitment)).Nodup)
    (new : added.Sublist (call.stored sorting store)) :
    ((sources ++ added).map fun note => (note.noteHeight, note.noteCommitment)).Nodup := by
  have all := contiguous.append_stored sorting call
  have heights : ((store.notes ++ call.stored sorting store).map (·.noteHeight)).Nodup := by
    rw [all]
    exact List.nodup_range'
  rw [List.map_append, List.nodup_append] at heights
  obtain ⟨_, storedHeights, apart⟩ := heights
  rw [List.map_append, List.nodup_append]
  refine ⟨distinct, ?_, ?_⟩
  · have addedHeights : (added.map (·.noteHeight)).Nodup := storedHeights.sublist (new.map _)
    apply List.Nodup.of_map Prod.fst
    rw [List.map_map]
    exact addedHeights
  · intro first memFirst second memSecond same
    obtain ⟨earlier, memEarlier, rfl⟩ := List.mem_map.mp memFirst
    obtain ⟨later, memLater, rfl⟩ := List.mem_map.mp memSecond
    apply apart earlier.noteHeight (List.mem_map_of_mem (old earlier memEarlier))
      later.noteHeight (List.mem_map_of_mem (new.subset memLater))
    exact congrArg Prod.fst same

private theorem Recorded.syncStep {sorting : HeightSort Hash} {keys : WalletKeys Hash}
    {store : Store Hash}
    {call : Call Hash} (recorded : Recorded keys store) (contiguous : Contiguous store.notes)
    (covered : Covered sorting keys store call) :
    Recorded keys (syncStep sorting keys store call) := by
  rw [syncStep_eq]
  split
  · rename_i accepted
    obtain ⟨sources, records, stored, distinct⟩ := recorded
    -- the records of the call are those of the notes it stores
    have within : (written call.faults.userNotes 0 (call.received sorting)).filterMap keys.record =
        (written call.faults.userNotes 0 (call.stored sorting store)).filterMap keys.record := by
      apply filterMap_written_take
      intro i past note found applied
      rw [Nat.zero_add] at applied
      by_contra decrypts
      have inside : i < (call.received sorting).length := (List.getElem?_eq_some_iff.mp found).1
      have reached := covered accepted i inside (by rw [found]; exact Option.isSome_iff_ne_none.mpr decrypts)
        applied
      exact absurd (lt_storedCount_of_reached reached) (Nat.not_lt.mpr past)
    let added := (written call.faults.userNotes 0 (call.stored sorting store)).filter
      fun note => (keys.record note).isSome
    have sub : added.Sublist (call.stored sorting store) :=
      List.filter_sublist.trans (written_sublist _ _ _)
    refine ⟨sources ++ added, ?_, ?_, ?_⟩
    · rw [List.map_append, records, userNotes_updateConfidentialBalance, within, List.map_append,
        map_record_filter]
    · intro note mem
      rw [updateConfidentialBalance_notes, List.mem_append]
      rcases List.mem_append.mp mem with old | new
      · exact .inl (stored note old)
      · exact .inr (sub.subset new)
    · exact nodup_append_stored contiguous stored distinct sub
  · exact recorded

/-- Starting from an empty wallet, any run of covered calls leaves every user
note the record of a stored note, with no note recorded twice. -/
theorem recorded_of_covered (sorting : HeightSort Hash) (keys : WalletKeys Hash)
    (calls : List (Call Hash))
    (covered : Along (syncStep sorting keys) (Covered sorting keys) Store.empty calls) :
    Recorded keys (run (syncStep sorting keys) Store.empty calls) := by
  have initial : Contiguous (Store.empty : Store Hash).notes ∧ Recorded keys Store.empty :=
    ⟨rfl, [], rfl, by simp, List.nodup_nil⟩
  have both := invariant_along (fun store => Contiguous store.notes ∧ Recorded keys store)
    (fun _ call holds covers => ⟨holds.1.syncStep call, holds.2.syncStep holds.1 covers⟩)
    initial covered
  exact both.2

/-! A wallet in which every note decrypts, to the value 5. -/

/-- A note of the given height, with distinct data for distinct heights. -/
def sampleNote (height : Nat) : NoteCiphertext (BitVec 256) where
  text := Blob.null
  noteHeight := height
  noteCommitment := BitVec.ofNat 256 (1000 + height)
  noteRoot := BitVec.ofNat 256 (2000 + height)
  ephemeralKey := BitVec.ofNat 256 (3000 + height)
  hSig := BitVec.ofNat 256 (4000 + height)
  ith := 0
  correspondentNullifier := BitVec.ofNat 256 (5000 + height)

def sampleKeys : WalletKeys (BitVec 256) where
  decrypt _ ephemeralKey hSig _ := some ⟨5, ephemeralKey, hSig, Blob.null⟩
  nullifier rho := rho

/-- A reply with the notes of the given heights, and no failing write. -/
def sampleCall (heights : List Nat) : Call (BitVec 256) :=
  ⟨.successful (heights.map fun height => some (sampleNote height)), Faults.none⟩

theorem recorded_two_replies :
    Recorded sampleKeys (run (syncStep (StdSort.stable _) sampleKeys) Store.empty
      [sampleCall [2, 1], sampleCall [3]]) :=
  recorded_of_covered (StdSort.stable _) sampleKeys [sampleCall [2, 1], sampleCall [3]] (by decide)

omit [DecidableEq Hash] in
private theorem heights_eq_of_records {keys : WalletKeys Hash}
    {sources : List (NoteCiphertext Hash)} {docs : List (UserNote Hash)}
    (records : sources.map keys.record = (docs.map UserNote.forgetStatus).map some) :
    sources.map (·.noteHeight) = docs.map (·.noteHeight) := by
  induction sources generalizing docs with
  | nil =>
    cases docs with
    | nil => rfl
    | cons doc docs => cases records
  | cons note sources ih =>
    cases docs with
    | nil => cases records
    | cons doc docs =>
      simp only [List.map_cons, List.cons.injEq] at records ⊢
      obtain ⟨first, rest⟩ := records
      have height : doc.noteHeight = note.noteHeight := (forgetStatus_of_record first).2
      exact ⟨height.symm, ih rest⟩

omit [DecidableEq Hash] in
private theorem Recorded.heights_nodup {keys : WalletKeys Hash} {store : Store Hash}
    (recorded : Recorded keys store) (stored : (store.notes.map (·.noteHeight)).Nodup) :
    (store.userNotes.map (·.noteHeight)).Nodup := by
  -- with distinct stored heights, recorded user notes have distinct heights
  obtain ⟨sources, records, mem, distinct⟩ := recorded
  rw [← heights_eq_of_records records]
  apply List.Nodup.map_on _ (List.Nodup.of_map _ distinct)
  intro first memFirst second memSecond same
  exact List.inj_on_of_nodup_map stored (mem first memFirst) (mem second memSecond) same

/-- A reply with the heights 1 and 3 and then one with 2 and 3: the note of
height 3 is recorded by both calls. -/
theorem gapped_reply_records_twice :
    (run (syncStep (StdSort.stable _) sampleKeys) Store.empty
        [sampleCall [1, 3], sampleCall [2, 3]]).userNotes.map (·.noteHeight) = [1, 3, 2, 3] ∧
      ¬ Recorded sampleKeys (run (syncStep (StdSort.stable _) sampleKeys) Store.empty
        [sampleCall [1, 3], sampleCall [2, 3]]) := by
  have heights : (run (syncStep (StdSort.stable _) sampleKeys) Store.empty
      [sampleCall [1, 3], sampleCall [2, 3]]).userNotes.map (·.noteHeight) = [1, 3, 2, 3] := by
    decide
  refine ⟨heights, fun recorded => ?_⟩
  have nodup := recorded.heights_nodup (by decide)
  rw [heights] at nodup
  exact absurd nodup (by decide)

/-! Lists that do not continue the stored notes. -/

/-- The least height of the notes that parse is not the one after the stored ones. -/
def Misplaced (response : List (Option (NoteCiphertext Hash))) (store : Store Hash) : Prop :=
  ((parsed response).map (·.noteHeight)).min? ≠ some (latestHeight store.notes + 1)

instance (response : List (Option (NoteCiphertext Hash))) (store : Store Hash) :
    Decidable (Misplaced response store) :=
  inferInstanceAs (Decidable (_ ≠ _))

def Refuses (sorting : HeightSort Hash) (keys : WalletKeys Hash) (call : Call Hash)
    (store : Store Hash) : Prop :=
  updateNoteRepository sorting keys call store = .ok (false, store)

private theorem updateNoteRepository_of_misplaced (sorting : HeightSort Hash)
    (keys : WalletKeys Hash)
    {response : List (Option (NoteCiphertext Hash))} (faults : Faults) {store : Store Hash}
    (nonempty : response ≠ []) (misplaced : Misplaced response store) :
    updateNoteRepository sorting keys ⟨.successful response, faults⟩ store =
      .error (if parsed response = [] then .outOfBounds else .aborted) := by
  obtain ⟨element, others, rfl⟩ := List.exists_cons_of_ne_nil nonempty
  have least := sorting.head?_sort (parsed (element :: others))
  have perm := sorting.perm (parsed (element :: others))
  rw [updateNoteRepository]
  cases sorted : sorting.sort (parsed (element :: others)) with
  | nil =>
    rw [sorted] at perm
    simp only [sorted, if_pos perm.symm.eq_nil]
  | cons head received =>
    rw [sorted] at perm least
    have some : parsed (element :: others) ≠ [] := by
      intro none
      rw [none] at perm
      exact absurd perm.eq_nil (List.cons_ne_nil head received)
    have wrong : head.noteHeight ≠ latestHeight store.notes + 1 := by
      intro right
      rw [List.head?_cons, Option.map_some, right] at least
      exact misplaced least.symm
    simp only [sorted, if_pos wrong, if_neg some]

/-- A list that is not empty and does not continue the stored notes is never refused:
without a note that parses the head of an empty list is read, and otherwise the
assertion ends the process. -/
theorem misplaced_never_refused (sorting : HeightSort Hash) (keys : WalletKeys Hash)
    (response : List (Option (NoteCiphertext Hash))) (faults : Faults) (store : Store Hash)
    (nonempty : response ≠ []) (misplaced : Misplaced response store) :
    ¬ Refuses sorting keys ⟨.successful response, faults⟩ store ∧
      updateNoteRepository sorting keys ⟨.successful response, faults⟩ store =
        .error (if parsed response = [] then .outOfBounds else .aborted) := by
  have ends := updateNoteRepository_of_misplaced sorting keys faults nonempty misplaced
  refine ⟨?_, ends⟩
  intro refused
  rw [Refuses, ends] at refused
  cases refused

/-- A note of height 2 for an empty wallet. -/
theorem future_note_never_refused :
    ¬ Refuses (StdSort.stable _) sampleKeys (sampleCall [2]) Store.empty ∧
      updateNoteRepository (StdSort.stable _) sampleKeys (sampleCall [2]) Store.empty =
        .error (if parsed [some (sampleNote 2)] = [] then .outOfBounds else .aborted) :=
  misplaced_never_refused (StdSort.stable _) sampleKeys [some (sampleNote 2)] Faults.none
    Store.empty (by decide) (by decide)

/-- A stale note, and a list of which nothing parses. -/
theorem invalid_list_halts :
    (Misplaced [some (sampleNote 1)] (⟨[sampleNote 1], []⟩ : Store (BitVec 256)) ∧
      ¬ Refuses (StdSort.stable _) sampleKeys (sampleCall [1]) ⟨[sampleNote 1], []⟩ ∧
      updateNoteRepository (StdSort.stable _) sampleKeys (sampleCall [1]) ⟨[sampleNote 1], []⟩ =
        .error .aborted) ∧
    Misplaced [none] (Store.empty : Store (BitVec 256)) ∧
      ¬ Refuses (StdSort.stable _) sampleKeys ⟨.successful [none], Faults.none⟩ Store.empty ∧
      updateNoteRepository (StdSort.stable _) sampleKeys ⟨.successful [none], Faults.none⟩
        Store.empty = .error .outOfBounds := by
  have stale : updateNoteRepository (StdSort.stable _) sampleKeys (sampleCall [1])
      ⟨[sampleNote 1], []⟩ = .error .aborted := by rfl
  have unread : updateNoteRepository (StdSort.stable _) sampleKeys
      ⟨.successful [none], Faults.none⟩ Store.empty = .error .outOfBounds := by rfl
  refine ⟨⟨by decide, ?_, stale⟩, by decide, ?_, unread⟩
  · rw [Refuses, stale]
    intro refused
    cases refused
  · rw [Refuses, unread]
    intro refused
    cases refused

end CbDaemon.Wallet.Consistency
