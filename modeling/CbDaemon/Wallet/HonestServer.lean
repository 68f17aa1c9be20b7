/- module: CbDaemon/Wallet/HonestServer
   source: src/cblib/request_methods.cpp, src/cblib/note.cpp
   digest: Against an honest server every sync leaves the server's list, its records and their status. -/

import CbDaemon.Wallet.Consistency

set_option autoImplicit false
set_option relaxedAutoImplicit false

namespace CbDaemon.Wallet.HonestServer
open Base.Machine Base.Run Base.Sorting Notes Sync Consistency

variable {Hash : Type}

/-- The server's notes and the wallet that follows them. -/
structure World (Hash : Type) where
  server : List (NoteCiphertext Hash)
  wallet : Store Hash

/-- The server appends notes, or answers a sync with a list of notes. -/
inductive Event (Hash : Type) where
  | grow (notes : List (NoteCiphertext Hash))
  | sync (response : List (NoteCiphertext Hash))

/-- Heights go on from the server's last one, and a note the wallet can decrypt
holds less than `2 ^ 31`. -/
structure Grows (keys : WalletKeys Hash) (server notes : List (NoteCiphertext Hash)) : Prop where
  heights : notes.map (·.noteHeight) = List.range' (server.length + 1) notes.length
  values : ∀ note ∈ notes, ∀ plain,
    keys.decrypt note.text note.ephemeralKey note.hSig note.ith = some plain →
      plain.value.toNat < 2 ^ 31

/-- What an honest server does: it extends its list, and it answers with its
notes above the requested height, in any order. -/
def Honest (keys : WalletKeys Hash) (world : World Hash) : Event Hash → Prop
  | .grow notes => Grows keys world.server notes
  | .sync response =>
    response.Perm (world.server.filter (latestHeight world.wallet.notes < ·.noteHeight))

variable [DecidableEq Hash]

def worldStep (sorting : HeightSort Hash) (keys : WalletKeys Hash) (world : World Hash) :
    Event Hash → World Hash
  | .grow notes => { world with server := world.server ++ notes }
  | .sync response =>
    { world with
      wallet := syncStep sorting keys world.wallet ⟨.successful (response.map some), .none⟩ }

/-- The document for a note with the status that a list of notes gives it. -/
def currentRecord (keys : WalletKeys Hash) (notes : List (NoteCiphertext Hash))
    (note : NoteCiphertext Hash) : Option (UserNote Hash) :=
  (keys.record note).map fun doc => { doc with status := .bool (spentIn keys notes doc.rho) }

/-- One document for each note of the list that decrypts, spent if its nullifier
occurs in the list. -/
def currentRecords (keys : WalletKeys Hash) (notes : List (NoteCiphertext Hash)) :
    List (UserNote Hash) :=
  notes.filterMap (currentRecord keys notes)

/-- Between syncs the wallet is complete for a prefix of the server's list. -/
structure Follows (keys : WalletKeys Hash) (world : World Hash) : Prop where
  contiguous : Contiguous world.server
  values : ∀ note ∈ world.server, ∀ doc, keys.record note = some doc → doc.Readable
  stored : world.wallet.notes <+: world.server
  records : world.wallet.userNotes = currentRecords keys world.wallet.notes

/-- Extending the list a status is taken from: an update brings every record of
the prefix to the status the longer list gives it. -/
private theorem map_currentRecord {keys : WalletKeys Hash}
    {notes server : List (NoteCiphertext Hash)}
    (part : notes ⊆ server) (list : List (NoteCiphertext Hash)) :
    (list.filterMap (currentRecord keys notes)).map (fun doc =>
        if spentIn keys server doc.rho then { doc with status := .bool true } else doc) =
      list.filterMap (currentRecord keys server) := by
  rw [List.map_filterMap]
  apply List.filterMap_congr
  intro note _
  rw [currentRecord, currentRecord]
  cases keys.record note with
  | none => rfl
  | some doc =>
    simp only [Option.map_some, Option.some.injEq]
    by_cases spent : spentIn keys server doc.rho = true
    · simp [spent]
    · have unspent : spentIn keys notes doc.rho ≠ true := fun early => spent (spentIn_mono part early)
      simp [spent, unspent]

omit [DecidableEq Hash] in
private theorem received_sync {sorting : HeightSort Hash}
    {response rest : List (NoteCiphertext Hash)}
    {faults : Faults} {start : Nat} (perm : response.Perm rest)
    (heights : rest.map (·.noteHeight) = List.range' start rest.length) :
    Call.received sorting ⟨.successful (response.map some), faults⟩ = rest := by
  rw [Call.received]
  simp only [parsed, List.filterMap_map, Function.comp_def, id_eq, List.filterMap_some]
  exact sorting.sort_eq perm (pairwise_of_heights heights)

private theorem currentRecord_nil (keys : WalletKeys Hash) :
    currentRecord keys [] = keys.record := by
  ext note doc
  rw [currentRecord]
  cases recorded : keys.record note with
  | none => simp
  | some found =>
    have fresh : found.forgetStatus = found := (forgetStatus_of_record recorded).1
    change some found.forgetStatus = some doc ↔ _
    rw [fresh]

private theorem readable_of_mem {keys : WalletKeys Hash} {notes list : List (NoteCiphertext Hash)}
    {doc : UserNote Hash}
    (values : ∀ note ∈ list, ∀ doc, keys.record note = some doc → doc.Readable)
    (mem : doc ∈ list.filterMap (currentRecord keys notes)) : doc.Readable := by
  obtain ⟨note, inside, current⟩ := List.mem_filterMap.mp mem
  rw [currentRecord, Option.map_eq_some_iff] at current
  obtain ⟨found, recorded, rfl⟩ := current
  exact values note inside found recorded

/-- Adding the records of the missing notes and updating the status completes
the user notes. -/
private theorem updateConfidentialBalance_current {keys : WalletKeys Hash} {world : World Hash}
    {rest : List (NoteCiphertext Hash)} (follows : Follows keys world)
    (whole : world.wallet.notes ++ rest = world.server) :
    (updateConfidentialBalance keys Faults.none rest { world.wallet with notes := world.server }).2 =
      ⟨world.server, currentRecords keys world.server⟩ := by
  have docs : addUserNotes keys Faults.none.userNotes 0 rest world.wallet.userNotes =
      world.wallet.notes.filterMap (currentRecord keys world.wallet.notes) ++
        rest.filterMap (currentRecord keys []) := by
    rw [addUserNotes_eq, written_of_applied (fun _ => rfl), follows.records, currentRecord_nil]
    rfl
  have old : world.wallet.notes ⊆ world.server := follows.stored.subset
  have new : rest ⊆ world.server := by
    rw [← whole]
    exact List.subset_append_right _ _
  rw [updateConfidentialBalance, docs]
  apply Store.ext
  · rfl
  · change (updateUserNotesStatus keys (fun _ => true) _).2.userNotes = _
    rw [updateUserNotesStatus_userNotes]
    · change List.map _ (_ ++ _) = _
      rw [List.map_append, map_currentRecord old, map_currentRecord (List.nil_subset _),
        ← List.filterMap_append, whole]
      rfl
    · intro doc mem
      rcases List.mem_append.mp mem with before | added
      · exact readable_of_mem (fun note inside => follows.values note (old inside)) before
      · exact readable_of_mem (fun note inside => follows.values note (new inside)) added

omit [DecidableEq Hash] in
/-- An honest reply is accepted, and all of it is stored: it is what the wallet
is missing, in some order. -/
private theorem honest_reply {store : Store Hash} {server response : List (NoteCiphertext Hash)}
    (contiguous : Contiguous server) (stored : store.notes <+: server)
    (honest : response.Perm (server.filter (latestHeight store.notes < ·.noteHeight)))
    (sorting : HeightSort Hash) {call : Call Hash}
    (reply : call.reply = .successful (response.map some))
    (inserts : call.faults.notes = fun _ => .stored) :
    store.notes ++ call.received sorting = server ∧
      call.stored sorting store = call.received sorting ∧ call.Accepted sorting store := by
  obtain ⟨_, faults⟩ := call
  cases reply
  obtain ⟨rest, rfl⟩ := stored
  have height := (contiguous.of_prefix (List.prefix_append store.notes rest)).latestHeight
  obtain ⟨above, heights⟩ := filter_above_append contiguous
  have perm : response.Perm rest := by
    rw [height, above] at honest
    exact honest
  have received : Call.received sorting ⟨.successful (response.map some), faults⟩ = rest :=
    received_sync perm heights
  refine ⟨by rw [received], ?_, ?_⟩
  · rw [Call.stored, received, height, inserts]
    exact List.take_of_length_le (storedCount_all heights).ge
  · rw [Call.Accepted, received, height]
    cases rest with
    | nil =>
      left
      change Reply.successful (response.map some) = .successful []
      rw [perm.eq_nil]
      rfl
    | cons head rest =>
      right
      have first : head.noteHeight = _ := noteHeight_of_heights heights List.getElem?_cons_zero
      rw [List.head?_cons, Option.map_some, first]

private theorem Follows.sync {keys : WalletKeys Hash} {world : World Hash}
    {response : List (NoteCiphertext Hash)} (follows : Follows keys world)
    (sorting : HeightSort Hash) (honest : Honest keys world (.sync response)) :
    (worldStep sorting keys world (.sync response)).wallet =
      ⟨world.server, currentRecords keys world.server⟩ := by
  let call : Call Hash := ⟨.successful (response.map some), Faults.none⟩
  have reply : call.reply = .successful (response.map some) := rfl
  obtain ⟨whole, stored, accepted⟩ :=
    honest_reply follows.contiguous follows.stored honest sorting reply rfl
  change syncStep sorting keys world.wallet call = _
  rw [syncStep_eq, if_pos accepted, stored, whole]
  exact updateConfidentialBalance_current follows whole

/-! A wallet that also takes part in payments: whatever became of its documents, its
notes are a prefix of the server's. -/

structure Tracks (server : List (NoteCiphertext Hash)) (store : Store Hash) : Prop where
  contiguous : Contiguous server
  stored : store.notes <+: server

omit [DecidableEq Hash] in
theorem Tracks.grow {server later : List (NoteCiphertext Hash)} {store : Store Hash}
    (tracks : Tracks server store) (grown : server <+: later) (contiguous : Contiguous later) :
    Tracks later store :=
  ⟨contiguous, tracks.stored.trans grown⟩

theorem Tracks.sync {server response : List (NoteCiphertext Hash)} {store : Store Hash}
    (tracks : Tracks server store) (sorting : HeightSort Hash) (keys : WalletKeys Hash)
    (honest : response.Perm (server.filter (latestHeight store.notes < ·.noteHeight)))
    {call : Call Hash} (reply : call.reply = .successful (response.map some))
    (inserts : call.faults.notes = fun _ => .stored) :
    (∃ state, updateNoteRepository sorting keys call store =
        .ok (state, syncStep sorting keys store call)) ∧
      (syncStep sorting keys store call).notes = server ∧
      Tracks server (syncStep sorting keys store call) := by
  obtain ⟨whole, stored, accepted⟩ :=
    honest_reply tracks.contiguous tracks.stored honest sorting reply inserts
  have notes : (syncStep sorting keys store call).notes = server := by
    rw [syncStep_notes, if_pos accepted, stored, whole]
  exact ⟨(updateNoteRepository_returns_iff sorting keys store call).mpr (.inr accepted), notes,
    tracks.contiguous, by simp only [notes, List.prefix_refl]⟩

omit [DecidableEq Hash] in
private theorem record_readable {keys : WalletKeys Hash} {note : NoteCiphertext Hash}
    (small : ∀ plain, keys.decrypt note.text note.ephemeralKey note.hSig note.ith = some plain →
      plain.value.toNat < 2 ^ 31)
    {doc : UserNote Hash} (recorded : keys.record note = some doc) : doc.Readable := by
  rw [WalletKeys.record, Option.map_eq_some_iff] at recorded
  obtain ⟨plain, decrypts, rfl⟩ := recorded
  have bound := small plain decrypts
  have value := toInt_eq_of_lt bound
  change 0 ≤ (toInt plain.value).toInt ∧ (toInt plain.value).toInt < 2 ^ 32
  omega

private theorem Follows.grow {keys : WalletKeys Hash} {world : World Hash}
    {notes : List (NoteCiphertext Hash)} (follows : Follows keys world)
    (grows : Grows keys world.server notes) :
    Follows keys { world with server := world.server ++ notes } where
  contiguous := contiguous_append.mpr ⟨follows.contiguous, grows.heights⟩
  values := by
    intro note mem doc recorded
    rcases List.mem_append.mp mem with old | new
    · exact follows.values note old doc recorded
    · exact record_readable (grows.values note new) recorded
  stored := follows.stored.trans (List.prefix_append _ _)
  records := follows.records

private theorem Follows.step {sorting : HeightSort Hash} {keys : WalletKeys Hash}
    {world : World Hash}
    {event : Event Hash} (follows : Follows keys world) (honest : Honest keys world event) :
    Follows keys (worldStep sorting keys world event) := by
  cases event with
  | grow notes => exact follows.grow honest
  | sync response =>
    have wallet := follows.sync sorting honest
    constructor
    · exact follows.contiguous
    · exact follows.values
    · rw [wallet]
      exact List.prefix_refl _
    · rw [wallet]

/-- However growth and syncs are interleaved and the replies are ordered, each
sync leaves the server's list in the notes collection, one user note for each
note of it that decrypts, and as its status whether its nullifier occurs in the
list. -/
theorem wallet_eq_after_sync (sorting : HeightSort Hash) (keys : WalletKeys Hash)
    (events : List (Event Hash)) (response : List (NoteCiphertext Hash))
    (honest : Along (worldStep sorting keys) (Honest keys) ⟨[], Store.empty⟩
      (events ++ [.sync response])) :
    (run (worldStep sorting keys) ⟨[], Store.empty⟩ (events ++ [.sync response])).wallet =
      ⟨(run (worldStep sorting keys) ⟨[], Store.empty⟩ events).server,
        currentRecords keys (run (worldStep sorting keys) ⟨[], Store.empty⟩ events).server⟩ := by
  obtain ⟨before, last, _⟩ := along_append.mp honest
  have initial : Follows keys (⟨[], Store.empty⟩ : World Hash) :=
    ⟨rfl, by simp, List.prefix_refl _, rfl⟩
  have follows := invariant_along (Follows keys)
    (fun _ _ holds honest => holds.step honest) initial before
  rw [run_append]
  exact follows.sync sorting last

/-- The second note spends the first; the third arrives with a later sync. -/
def spendingNote : NoteCiphertext (BitVec 256) :=
  { sampleNote 2 with correspondentNullifier := sampleKeys.nullifier (sampleNote 1).ephemeralKey }

private theorem sampleKeys_small (note : NoteCiphertext (BitVec 256)) :
    ∀ plain, sampleKeys.decrypt note.text note.ephemeralKey note.hSig note.ith = some plain →
      plain.value.toNat < 2 ^ 31 := by
  intro plain decrypts
  cases decrypts
  change (5 : UInt64).toNat < 2 ^ 31
  decide

theorem wallet_eq_after_two_syncs :
    (run (worldStep (StdSort.stable _) sampleKeys) ⟨[], Store.empty⟩
        ([.grow [sampleNote 1, spendingNote], .sync [spendingNote, sampleNote 1],
          .grow [sampleNote 3]] ++ [.sync [sampleNote 3]])).wallet =
      ⟨[sampleNote 1, spendingNote, sampleNote 3],
        currentRecords sampleKeys [sampleNote 1, spendingNote, sampleNote 3]⟩ ∧
    (currentRecords sampleKeys [sampleNote 1, spendingNote, sampleNote 3]).map (·.status) =
      [.bool true, .bool false, .bool false] := by
  constructor
  · refine wallet_eq_after_sync (StdSort.stable _) sampleKeys
      [.grow [sampleNote 1, spendingNote], .sync [spendingNote, sampleNote 1],
        .grow [sampleNote 3]] [sampleNote 3] ⟨⟨rfl, ?_⟩, ?_, ⟨rfl, ?_⟩, ?_, trivial⟩
    · exact fun note _ => sampleKeys_small note
    · exact List.Perm.swap _ _ _
    · exact fun note _ => sampleKeys_small note
    · exact List.Perm.refl _
  · decide

end CbDaemon.Wallet.HonestServer
