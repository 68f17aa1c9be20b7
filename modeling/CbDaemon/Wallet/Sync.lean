/- module: CbDaemon/Wallet/Sync
   source: src/cblib/request_methods.cpp
   digest: Synchronisation with the server keeps the stored heights contiguous. -/

import CbDaemon.Base.Run
import CbDaemon.Base.Sorting
import CbDaemon.Wallet.Notes

set_option autoImplicit false
set_option relaxedAutoImplicit false

namespace CbDaemon.Wallet.Sync
open Base.Run Base.Sorting Notes

/-- The answer of `postman.post`. An element of a response that does not parse
as a note is `none`. -/
inductive Reply (Hash : Type) where
  | failed
  | successful (response : List (Option (NoteCiphertext Hash)))
  deriving DecidableEq

/-- The fate of each write of one call, by its index. -/
structure Faults where
  notes : Nat → Insert
  userNotes : Nat → Insert
  updates : Nat → Bool

def Faults.none : Faults := ⟨fun _ => .stored, fun _ => .stored, fun _ => true⟩

/-- What surrounds one call of `update_note_repository`. -/
structure Call (Hash : Type) where
  reply : Reply Hash
  faults : Faults

/-- The ends of a call that do not return: the head assertion fails, or there
is no note at index 0 to look at. -/
inductive Halt where
  | aborted
  | outOfBounds
  deriving DecidableEq

variable {Hash : Type}

/-- `std::sort(..., comp)`. -/
abbrev HeightSort (Hash : Type) := StdSort fun note : NoteCiphertext Hash => note.noteHeight

def parsed (response : List (Option (NoteCiphertext Hash))) : List (NoteCiphertext Hash) :=
  response.filterMap id

/-- The loop that stores the received notes; `last` is `last_added` before the
round, and a note out of order or a failed insert ends it. -/
def insertNotes (outcomes : Nat → Insert) : Nat → Nat → List (NoteCiphertext Hash) →
    List (NoteCiphertext Hash) → Bool × List (NoteCiphertext Hash)
  | _, _, [], notes => (true, notes)
  | i, last, note :: received, notes =>
    if note.noteHeight ≠ last + 1 then (false, notes)
    else
      let (added, notes) := addRequest (outcomes i) note notes
      if added then insertNotes outcomes (i + 1) (last + 1) received notes
      else (false, notes)

/-- The loop with the `int` that the source counts in. Compared with a height it becomes an
`unsigned int`. -/
def insertNotesInt (outcomes : Nat → Insert) : Nat → Int32 → List (NoteCiphertext Hash) →
    List (NoteCiphertext Hash) → Bool × List (NoteCiphertext Hash)
  | _, _, [], notes => (true, notes)
  | i, lastAdded, note :: received, notes =>
    if UInt32.ofNat note.noteHeight ≠ (lastAdded + 1).toUInt32 then (false, notes)
    else
      let (added, notes) := addRequest (outcomes i) note notes
      if added then insertNotesInt outcomes (i + 1) (lastAdded + 1) received notes
      else (false, notes)

private theorem ofNat_eq_toUInt32_iff {height n : Nat} (small : height < 2 ^ 32)
    (room : n < 2 ^ 31) : UInt32.ofNat height = (Int32.ofNat n).toUInt32 ↔ height = n := by
  have same : (Int32.ofNat n).toUInt32 = UInt32.ofNat n := rfl
  rw [same, ← UInt32.toNat_inj, UInt32.toNat_ofNat_of_lt' small,
    UInt32.toNat_ofNat_of_lt' (show n < 2 ^ 32 by omega)]

/-- The natural numbers of the model are the counters of the source as long as these stay
below `2 ^ 31`, where the next increment would overflow. -/
theorem insertNotesInt_eq (outcomes : Nat → Insert) {received : List (NoteCiphertext Hash)}
    (heights : ∀ note ∈ received, note.noteHeight < 2 ^ 32) {last : Nat}
    (room : last + received.length < 2 ^ 31) (i : Nat) (notes : List (NoteCiphertext Hash)) :
    insertNotesInt outcomes i (Int32.ofNat last) received notes =
      insertNotes outcomes i last received notes := by
  induction received generalizing i last notes with
  | nil => rfl
  | cons note received ih =>
    obtain ⟨small, others⟩ := List.forall_mem_cons.mp heights
    rw [List.length_cons] at room
    have next : Int32.ofNat last + 1 = Int32.ofNat (last + 1) := (Int32.ofNat_add last 1).symm
    have rest : ∀ i notes, insertNotesInt outcomes i (Int32.ofNat (last + 1)) received notes =
        insertNotes outcomes i (last + 1) received notes := ih others (by omega)
    rw [insertNotesInt, insertNotes, next]
    simp only [ne_eq, ofNat_eq_toUInt32_iff small (show last + 1 < 2 ^ 31 by omega), rest]

/-! How far the loop gets, and what it has stored by then. -/

def storedCount (outcomes : Nat → Insert) : Nat → Nat → List (NoteCiphertext Hash) → Nat
  | _, _, [] => 0
  | i, last, note :: received =>
    if note.noteHeight ≠ last + 1 then 0
    else
      match outcomes i with
      | .lost => 0
      | .storedUnreported => 1
      | .stored => storedCount outcomes (i + 1) (last + 1) received + 1

theorem insertNotes_notes (outcomes : Nat → Insert) (received notes : List (NoteCiphertext Hash))
    (i last : Nat) :
    (insertNotes outcomes i last received notes).2 =
      notes ++ received.take (storedCount outcomes i last received) := by
  induction received generalizing i last notes with
  | nil => simp [insertNotes]
  | cons note received ih =>
    by_cases next : note.noteHeight = last + 1
    · rw [insertNotes, storedCount, if_neg (not_not.mpr next), if_neg (not_not.mpr next)]
      cases outcome : outcomes i with
      | lost => simp [addRequest, Insert.reported, Insert.applied]
      | storedUnreported => simp [addRequest, Insert.reported, Insert.applied]
      | stored => simp [addRequest, Insert.reported, Insert.applied, ih]
    · rw [insertNotes, storedCount, if_pos next, if_pos next]
      simp

private theorem heights_take_storedCount (outcomes : Nat → Insert)
    (received : List (NoteCiphertext Hash)) (i last : Nat) :
    (received.take (storedCount outcomes i last received)).map (·.noteHeight) =
      List.range' (last + 1) (storedCount outcomes i last received) := by
  induction received generalizing i last with
  | nil => rfl
  | cons note received ih =>
    by_cases next : note.noteHeight = last + 1
    · rw [storedCount, if_neg (not_not.mpr next)]
      cases outcome : outcomes i with
      | lost => rfl
      | storedUnreported => simp [next]
      | stored => simp [next, ih, List.range'_succ]
    · rw [storedCount, if_pos next]
      rfl

def Call.received (sorting : HeightSort Hash) (call : Call Hash) : List (NoteCiphertext Hash) :=
  match call.reply with
  | .failed => []
  | .successful response => sorting.sort (parsed response)

def Call.stored (sorting : HeightSort Hash) (call : Call Hash) (store : Store Hash) :
    List (NoteCiphertext Hash) :=
  (call.received sorting).take
    (storedCount call.faults.notes 0 (latestHeight store.notes) (call.received sorting))

variable [DecidableEq Hash]

/-- `update_confidential_balance`; the results of both phases are ignored. -/
def updateConfidentialBalance (keys : WalletKeys Hash) (faults : Faults)
    (received : List (NoteCiphertext Hash)) (store : Store Hash) : Bool × Store Hash :=
  let userNotes := addUserNotes keys faults.userNotes 0 received store.userNotes
  (true, (updateUserNotesStatus keys faults.updates { store with userNotes }).2)

def updateNoteRepository (sorting : HeightSort Hash) (keys : WalletKeys Hash) (call : Call Hash)
    (store : Store Hash) : Except Halt (Bool × Store Hash) :=
  let requestingHeight := latestHeight store.notes
  match call.reply with
  | .failed => .ok (false, store)
  -- an empty list: only the status of the user notes is brought up to date
  | .successful [] => .ok (true, (updateConfidentialBalance keys call.faults [] store).2)
  | .successful response =>
    let received := sorting.sort (parsed response)
    match received with
    | [] => .error .outOfBounds
    | head :: _ =>
      -- `assert`, which the surrounding `try` does not catch
      if head.noteHeight ≠ requestingHeight + 1 then .error .aborted
      else
        let (resultState, notes) :=
          insertNotes call.faults.notes 0 requestingHeight received store.notes
        -- all received notes are processed, also those that were not stored
        .ok (resultState,
          (updateConfidentialBalance keys call.faults received { store with notes }).2)

/-- One call as a step. A call that halts leaves the collections alone. -/
def syncStep (sorting : HeightSort Hash) (keys : WalletKeys Hash) (store : Store Hash)
    (call : Call Hash) : Store Hash :=
  match updateNoteRepository sorting keys call store with
  | .ok (_, next) => next
  | .error _ => store

/-- The server answers, and the head check passes unless the answer is empty. -/
def Call.Accepted (sorting : HeightSort Hash) (call : Call Hash) (store : Store Hash) : Prop :=
  call.reply = .successful [] ∨
    (call.received sorting).head?.map (·.noteHeight) = some (latestHeight store.notes + 1)

instance (sorting : HeightSort Hash) (call : Call Hash) (store : Store Hash) :
    Decidable (call.Accepted sorting store) :=
  inferInstanceAs (Decidable (_ ∨ _))

/-- An accepted call stores a part of the received notes and then processes all
of them as user notes; any other call leaves the store alone. -/
theorem syncStep_eq (sorting : HeightSort Hash) (keys : WalletKeys Hash) (store : Store Hash)
    (call : Call Hash) :
    syncStep sorting keys store call =
      if call.Accepted sorting store then
        (updateConfidentialBalance keys call.faults (call.received sorting)
          { store with notes := store.notes ++ call.stored sorting store }).2
      else store := by
  obtain ⟨reply, faults⟩ := call
  rw [Call.stored, ← insertNotes_notes]
  cases reply with
  | failed => simp [syncStep, updateNoteRepository, Call.Accepted, Call.received]
  | successful response =>
    cases response with
    | nil =>
      have none : sorting.sort (parsed []) = [] := (sorting.perm []).eq_nil
      simp [syncStep, updateNoteRepository, Call.Accepted, Call.received, none, insertNotes]
    | cons element response =>
      cases sorted : sorting.sort (parsed (element :: response)) with
      | nil => simp [syncStep, updateNoteRepository, Call.Accepted, Call.received, sorted]
      | cons head received =>
        by_cases first : head.noteHeight = latestHeight store.notes + 1
        · simp [syncStep, updateNoteRepository, Call.Accepted, Call.received, sorted, first]
        · simp [syncStep, updateNoteRepository, Call.Accepted, Call.received, sorted, first]

theorem updateNoteRepository_returns_iff (sorting : HeightSort Hash) (keys : WalletKeys Hash)
    (store : Store Hash) (call : Call Hash) :
    (∃ state, updateNoteRepository sorting keys call store =
        .ok (state, syncStep sorting keys store call)) ↔
      call.reply = .failed ∨ call.Accepted sorting store := by
  obtain ⟨reply, faults⟩ := call
  cases reply with
  | failed => simp [syncStep, updateNoteRepository]
  | successful response =>
    cases response with
    | nil => simp [syncStep, updateNoteRepository, Call.Accepted]
    | cons element response =>
      cases sorted : sorting.sort (parsed (element :: response)) with
      | nil => simp [updateNoteRepository, Call.Accepted, Call.received, sorted]
      | cons head received =>
        by_cases first : head.noteHeight = latestHeight store.notes + 1
        · simp [syncStep, updateNoteRepository, Call.Accepted, Call.received, sorted, first]
        · simp [updateNoteRepository, Call.Accepted, Call.received, sorted, first]

@[simp]
theorem updateConfidentialBalance_notes (keys : WalletKeys Hash) (faults : Faults)
    (received : List (NoteCiphertext Hash)) (store : Store Hash) :
    (updateConfidentialBalance keys faults received store).2.notes = store.notes := rfl

/-! Contiguity of the stored heights. -/

section

variable {notes : List (NoteCiphertext Hash)} {note : NoteCiphertext Hash} {start i : Nat}

omit [DecidableEq Hash] in
theorem pairwise_of_heights
    (heights : notes.map (·.noteHeight) = List.range' start notes.length) :
    notes.Pairwise (·.noteHeight < ·.noteHeight) := by
  have ascending := List.pairwise_lt_range' (s := start) (n := notes.length) 1
  rwa [← heights, List.pairwise_map] at ascending

omit [DecidableEq Hash] in
theorem noteHeight_of_heights
    (heights : notes.map (·.noteHeight) = List.range' start notes.length)
    (found : notes[i]? = some note) : note.noteHeight = start + i := by
  obtain ⟨inside, _⟩ := List.getElem?_eq_some_iff.mp found
  have lookup := congrArg (·[i]?) heights
  simpa [found, List.getElem?_range' inside] using lookup

end

omit [DecidableEq Hash] in
/-- The stored heights are `1, 2, …` in the order of insertion. -/
def Contiguous (notes : List (NoteCiphertext Hash)) : Prop :=
  notes.map (·.noteHeight) = List.range' 1 notes.length

omit [DecidableEq Hash] in
theorem Contiguous.latestHeight {notes : List (NoteCiphertext Hash)}
    (contiguous : Contiguous notes) : latestHeight notes = notes.length := by
  rw [Notes.latestHeight, contiguous]
  cases notes.length with
  | zero => rfl
  | succ n =>
    have top : (List.range' 1 (n + 1)).max? = some (n + 1) := by
      rw [List.max?_eq_some_iff]
      constructor
      · rw [List.mem_range'_1]
        omega
      · intro height mem
        rw [List.mem_range'_1] at mem
        omega
    rw [top]
    rfl

omit [DecidableEq Hash] in
theorem contiguous_append {notes more : List (NoteCiphertext Hash)} :
    Contiguous (notes ++ more) ↔ Contiguous notes ∧
      more.map (·.noteHeight) = List.range' (notes.length + 1) more.length := by
  unfold Contiguous
  rw [List.map_append, List.length_append, ← List.range'_append_1, Nat.add_comm 1 notes.length]
  constructor
  · intro whole
    exact List.append_inj whole (by simp)
  · rintro ⟨front, back⟩
    rw [front, back]

theorem syncStep_notes (sorting : HeightSort Hash) (keys : WalletKeys Hash) (store : Store Hash)
    (call : Call Hash) :
    (syncStep sorting keys store call).notes =
      if call.Accepted sorting store then store.notes ++ call.stored sorting store
      else store.notes := by
  rw [syncStep_eq]
  split <;> rfl

omit [DecidableEq Hash] in
theorem Contiguous.append_stored {store : Store Hash} (contiguous : Contiguous store.notes)
    (sorting : HeightSort Hash) (call : Call Hash) :
    Contiguous (store.notes ++ call.stored sorting store) := by
  have added := heights_take_storedCount call.faults.notes (call.received sorting) 0
    (Notes.latestHeight store.notes)
  have count := congrArg List.length added
  rw [contiguous.latestHeight, List.length_map, List.length_range'] at count
  rw [contiguous.latestHeight] at added
  refine contiguous_append.mpr ⟨contiguous, ?_⟩
  rw [Call.stored, contiguous.latestHeight, added, count]

theorem Contiguous.syncStep {sorting : HeightSort Hash} {keys : WalletKeys Hash}
    {store : Store Hash} (contiguous : Contiguous store.notes) (call : Call Hash) :
    Contiguous (syncStep sorting keys store call).notes := by
  rw [syncStep_notes]
  split
  · exact contiguous.append_stored sorting call
  · exact contiguous

private theorem Contiguous.run {sorting : HeightSort Hash} {keys : WalletKeys Hash}
    {store : Store Hash}
    (contiguous : Contiguous store.notes) (calls : List (Call Hash)) :
    Contiguous (run (Sync.syncStep sorting keys) store calls).notes :=
  invariant (fun store : Store Hash => Contiguous store.notes)
    (fun _ call holds => holds.syncStep call) contiguous calls

private theorem notes_prefix_run (sorting : HeightSort Hash) (keys : WalletKeys Hash)
    (store : Store Hash)
    (calls : List (Call Hash)) :
    store.notes <+: (run (syncStep sorting keys) store calls).notes := by
  apply invariant (fun next : Store Hash => store.notes <+: next.notes)
  · intro next call earlier
    rw [syncStep_notes]
    split
    · exact earlier.trans (List.prefix_append _ _)
    · exact earlier
  · exact List.prefix_refl store.notes

omit [DecidableEq Hash] in
theorem Contiguous.of_prefix {notes server : List (NoteCiphertext Hash)}
    (contiguous : Contiguous server) (part : notes <+: server) : Contiguous notes := by
  obtain ⟨rest, rfl⟩ := part
  exact (contiguous_append.mp contiguous).1

omit [DecidableEq Hash] in
private theorem Contiguous.noteHeight_le {notes : List (NoteCiphertext Hash)}
    (contiguous : Contiguous notes) {note : NoteCiphertext Hash} (mem : note ∈ notes) :
    note.noteHeight ≤ notes.length := by
  have listed : note.noteHeight ∈ List.range' 1 notes.length := by
    rw [← contiguous]
    exact List.mem_map_of_mem mem
  rw [List.mem_range'_1] at listed
  omega

omit [DecidableEq Hash] in
theorem filter_above_append {notes rest : List (NoteCiphertext Hash)}
    (contiguous : Contiguous (notes ++ rest)) :
    (notes ++ rest).filter (notes.length < ·.noteHeight) = rest ∧
      rest.map (·.noteHeight) = List.range' (notes.length + 1) rest.length := by
  obtain ⟨front, back⟩ := contiguous_append.mp contiguous
  have low : ∀ note ∈ notes, ¬ notes.length < note.noteHeight :=
    fun note mem => Nat.not_lt.mpr (front.noteHeight_le mem)
  have high : ∀ note ∈ rest, notes.length < note.noteHeight := by
    intro note mem
    have height : note.noteHeight ∈ List.range' (notes.length + 1) rest.length := by
      rw [← back]
      exact List.mem_map_of_mem mem
    rw [List.mem_range'_1] at height
    omega
  refine ⟨?_, back⟩
  rw [List.filter_append, List.filter_eq_nil_iff.mpr (by simpa using low),
    List.filter_eq_self.mpr (by simpa using high), List.nil_append]

omit [DecidableEq Hash] in
theorem filter_above_drop {notes : List (NoteCiphertext Hash)} (contiguous : Contiguous notes)
    (height : Nat) :
    notes.filter (height < ·.noteHeight) = notes.drop height ∧
      (notes.drop height).map (·.noteHeight) =
        List.range' (height + 1) (notes.drop height).length := by
  by_cases inside : height ≤ notes.length
  · have size : (notes.take height).length = height := List.length_take_of_le inside
    have whole := List.take_append_drop height notes
    have above := filter_above_append (whole.symm ▸ contiguous)
    rwa [size, whole] at above
  · have low : ∀ note ∈ notes, ¬ height < note.noteHeight := by
      intro note mem
      have bound := contiguous.noteHeight_le mem
      omega
    rw [List.filter_eq_nil_iff.mpr (by simpa using low), List.drop_of_length_le (by omega)]
    exact ⟨rfl, rfl⟩

omit [DecidableEq Hash] in
theorem storedCount_all {received : List (NoteCiphertext Hash)} {i last : Nat}
    (heights : received.map (·.noteHeight) = List.range' (last + 1) received.length) :
    storedCount (fun _ => .stored) i last received = received.length := by
  induction received generalizing i last with
  | nil => rfl
  | cons note received ih =>
    rw [List.map_cons, List.length_cons, List.range'_succ, List.cons.injEq] at heights
    rw [storedCount, if_neg (not_not.mpr heights.1)]
    simp [ih heights.2]

/-- From an empty notes collection, any calls leave the heights `1, …, n` stored,
each once, and later calls keep the documents of earlier ones. -/
theorem stored_heights_contiguous (sorting : HeightSort Hash) (keys : WalletKeys Hash)
    (userNotes : List (UserNote Hash)) (calls later : List (Call Hash)) :
    (∃ n, (run (syncStep sorting keys) ⟨[], userNotes⟩ calls).notes.map (·.noteHeight) =
        List.range' 1 n) ∧
      (run (syncStep sorting keys) ⟨[], userNotes⟩ calls).notes <+:
        (run (syncStep sorting keys) ⟨[], userNotes⟩ (calls ++ later)).notes := by
  have empty : Contiguous (⟨[], userNotes⟩ : Store Hash).notes := rfl
  constructor
  · exact ⟨_, empty.run calls⟩
  · rw [run_append]
    exact notes_prefix_run sorting keys _ later

end CbDaemon.Wallet.Sync
