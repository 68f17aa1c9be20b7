/- module: CbDaemon/Concurrency/SyncInterleaving
   source: src/cblib/request_methods.cpp, src/cblib/note.cpp
   digest: Interleaved syncs of one wallet keep notes single while no run stores behind another. -/

import CbDaemon.Wallet.Consistency

set_option autoImplicit false
set_option relaxedAutoImplicit false

namespace CbDaemon.Concurrency.SyncInterleaving
open Base.Run Base.Sorting
open Wallet.Notes Wallet.Sync Wallet.Consistency

/-! The notes of a wallet by their heights: each one stored is owed as a user
note by the run that stored it, until that run has recorded it. -/

structure Ledger (Runner : Type) where
  stored : Nat
  owed : Runner → List Nat
  recorded : List Nat

namespace Ledger

variable {Runner : Type}

/-- Nothing is recorded twice, and nothing recorded is owed again. -/
structure Valid (ledger : Ledger Runner) : Prop where
  recorded : ledger.recorded.Nodup
  owed : ∀ runner, (ledger.owed runner).Nodup
  pending : ∀ runner, ∀ height ∈ ledger.owed runner, height ∉ ledger.recorded
  single : ∀ runner other, ∀ height ∈ ledger.owed runner, height ∈ ledger.owed other →
    runner = other
  recordedStored : ∀ height ∈ ledger.recorded, height ≤ ledger.stored
  owedStored : ∀ runner, ∀ height ∈ ledger.owed runner, height ≤ ledger.stored

variable [DecidableEq Runner] {ledger : Ledger Runner} {runner : Runner}

def store (runner : Runner) (ledger : Ledger Runner) : Ledger Runner :=
  ⟨ledger.stored + 1,
    Function.update ledger.owed runner (ledger.owed runner ++ [ledger.stored + 1]),
    ledger.recorded⟩

/-- A run passes to the rest of what it owes, with or without a record. -/
def settle (runner : Runner) (rest documents : List Nat) (ledger : Ledger Runner) :
    Ledger Runner :=
  ⟨ledger.stored, Function.update ledger.owed runner rest, ledger.recorded ++ documents⟩

private theorem mem_owed_store {other : Runner} {height : Nat}
    (mem : height ∈ (ledger.store runner).owed other) :
    height ∈ ledger.owed other ∨ (other = runner ∧ height = ledger.stored + 1) := by
  change height ∈ Function.update ledger.owed runner _ other at mem
  by_cases same : other = runner
  · subst same
    rw [Function.update_self, List.mem_append, List.mem_singleton] at mem
    exact mem.imp_right fun new => ⟨rfl, new⟩
  · rw [Function.update_of_ne same] at mem
    exact .inl mem

private theorem Valid.store (valid : ledger.Valid) (runner : Runner) :
    (ledger.store runner).Valid where
  recorded := valid.recorded
  owed other := by
    change (Function.update ledger.owed runner _ other).Nodup
    by_cases same : other = runner
    · subst same
      have fresh : ledger.stored + 1 ∉ ledger.owed other := by
        intro mem
        have := valid.owedStored other _ mem
        omega
      rw [Function.update_self, ← List.concat_eq_append]
      exact (valid.owed other).concat fresh
    · rw [Function.update_of_ne same]
      exact valid.owed other
  pending other height mem := by
    intro recorded
    rcases mem_owed_store mem with old | ⟨_, rfl⟩
    · exact valid.pending other height old recorded
    · have := valid.recordedStored _ recorded
      omega
  single first second height mem mem' := by
    rcases mem_owed_store mem with old | ⟨rfl, rfl⟩
    · rcases mem_owed_store mem' with old' | ⟨_, rfl⟩
      · exact valid.single first second height old old'
      · have := valid.owedStored first _ old
        omega
    · rcases mem_owed_store mem' with old' | ⟨same, _⟩
      · have := valid.owedStored second _ old'
        omega
      · exact same.symm
  recordedStored height mem := Nat.le_succ_of_le (valid.recordedStored height mem)
  owedStored other height mem := by
    rcases mem_owed_store mem with old | ⟨_, rfl⟩
    · exact Nat.le_succ_of_le (valid.owedStored other height old)
    · exact Nat.le_refl _

private theorem mem_owed_settle {other : Runner} {first height : Nat} {rest documents : List Nat}
    (owes : ledger.owed runner = first :: rest) (nodup : (first :: rest).Nodup)
    (mem : height ∈ (ledger.settle runner rest documents).owed other) :
    height ∈ ledger.owed other ∧ (other = runner → height ≠ first) := by
  change height ∈ Function.update ledger.owed runner rest other at mem
  by_cases same : other = runner
  · subst same
    rw [Function.update_self] at mem
    refine ⟨by rw [owes]; exact List.mem_cons_of_mem _ mem, fun _ equal => ?_⟩
    exact (List.nodup_cons.mp nodup).1 (equal ▸ mem)
  · rw [Function.update_of_ne same] at mem
    exact ⟨mem, fun contrary => absurd contrary same⟩

private theorem Valid.settle (valid : ledger.Valid) {first : Nat} {rest documents : List Nat}
    (owes : ledger.owed runner = first :: rest) (documented : documents = [] ∨ documents = [first]) :
    (ledger.settle runner rest documents).Valid := by
  have nodup : (first :: rest).Nodup := owes ▸ valid.owed runner
  have listed : first ∈ ledger.owed runner := by
    rw [owes]
    exact List.mem_cons_self
  have only : ∀ height ∈ documents, height = first := by
    rcases documented with rfl | rfl <;> simp
  constructor
  · change (ledger.recorded ++ documents).Nodup
    rcases documented with rfl | rfl
    · rw [List.append_nil]
      exact valid.recorded
    · rw [← List.concat_eq_append]
      exact valid.recorded.concat (valid.pending runner first listed)
  · intro other
    change (Function.update ledger.owed runner rest other).Nodup
    by_cases same : other = runner
    · subst same
      rw [Function.update_self]
      exact (List.nodup_cons.mp nodup).2
    · rw [Function.update_of_ne same]
      exact valid.owed other
  · intro other height mem recorded
    obtain ⟨old, distinct⟩ := mem_owed_settle owes nodup mem
    rcases List.mem_append.mp recorded with before | now
    · exact valid.pending other height old before
    · have equal := only height now
      subst equal
      exact distinct (valid.single other runner height old listed) rfl
  · intro one two height mem mem'
    exact valid.single one two height (mem_owed_settle owes nodup mem).1
      (mem_owed_settle owes nodup mem').1
  · intro height mem
    rcases List.mem_append.mp mem with before | now
    · exact valid.recordedStored height before
    · rw [only height now]
      exact valid.owedStored runner first listed
  · intro other height mem
    exact valid.owedStored other height (mem_owed_settle owes nodup mem).1

end Ledger

/-! The runs themselves, one database step at a time. -/

/-- Where a run of `update_note_repository` stands: before the height is read,
waiting for the reply, at an index of the storing loop, or at an index of the
loop that adds user notes. A halted run has failed its assertion. -/
inductive Phase (Hash : Type) where
  | idle
  | asked (requestingHeight : Nat)
  | storing (requestingHeight i : Nat) (received : List (NoteCiphertext Hash))
  | recording (i : Nat) (received : List (NoteCiphertext Hash))
  | halted
  deriving DecidableEq

/-- The server's notes, the wallet, and the runs on it. -/
structure World (Runner Hash : Type) where
  server : List (NoteCiphertext Hash)
  store : Store Hash
  phase : Runner → Phase Hash

/-- The server grows, a reply arrives, or a run takes its next step. -/
inductive Event (Runner Hash : Type) where
  | grow (notes : List (NoteCiphertext Hash))
  | reply (runner : Runner) (reply : Reply Hash)
  | advance (runner : Runner)

variable {Runner Hash : Type} [DecidableEq Runner] [DecidableEq Hash]

def World.enter (world : World Runner Hash) (runner : Runner) (phase : Phase Hash) :
    World Runner Hash :=
  { world with phase := Function.update world.phase runner phase }

def accept (sorting : HeightSort Hash) (requestingHeight : Nat) : Reply Hash → Phase Hash
  | .failed => .idle
  | .successful [] => .recording 0 []
  | .successful response =>
    match sorting.sort (parsed response) with
    | [] => .halted
    | head :: received =>
      if head.noteHeight ≠ requestingHeight + 1 then .halted
      else .storing requestingHeight 0 (head :: received)

def World.insertNote (note : NoteCiphertext Hash) (world : World Runner Hash) :
    World Runner Hash :=
  { world with
    store := { world.store with notes := (addRequest .stored note world.store.notes).2 } }

def World.insertUserNote (keys : WalletKeys Hash) (note : NoteCiphertext Hash)
    (world : World Runner Hash) : World Runner Hash :=
  { world with
    store := { world.store with
      userNotes := (addUserNote keys .stored note world.store.userNotes).2 } }

def World.updateStatus (keys : WalletKeys Hash) (world : World Runner Hash) :
    World Runner Hash :=
  { world with store := (updateUserNotesStatus keys (fun _ => true) world.store).2 }

/-- The next step of a run. The status update at its end, which adds no document,
is one step. -/
def advance (keys : WalletKeys Hash) (runner : Runner) (world : World Runner Hash) :
    World Runner Hash :=
  match world.phase runner with
  | .idle => world.enter runner (.asked (latestHeight world.store.notes))
  | .asked _ => world
  | .storing requestingHeight i received =>
    match received[i]? with
    | none => world.enter runner (.recording 0 received)
    | some note =>
      -- a note out of order ends the loop, and all received notes are recorded
      if note.noteHeight ≠ requestingHeight + i + 1 then
        world.enter runner (.recording 0 received)
      else (world.insertNote note).enter runner (.storing requestingHeight (i + 1) received)
  | .recording i received =>
    match received[i]? with
    | none => (world.updateStatus keys).enter runner .idle
    | some note => (world.insertUserNote keys note).enter runner (.recording (i + 1) received)
  | .halted => world

def step (sorting : HeightSort Hash) (keys : WalletKeys Hash) (world : World Runner Hash) :
    Event Runner Hash → World Runner Hash
  | .grow notes => { world with server := world.server ++ notes }
  | .reply runner reply =>
    match world.phase runner with
    | .asked requestingHeight => world.enter runner (accept sorting requestingHeight reply)
    | _ => world
  | .advance runner => advance keys runner world

/-- An honest server numbers its notes without gaps, and a reply that is not a
failure has the notes above the requested height, in any order, of the list as
it was at some time. -/
def Honest (world : World Runner Hash) : Event Runner Hash → Prop
  | .grow notes => Contiguous (world.server ++ notes)
  | .reply _ .failed => True
  | .reply runner (.successful response) => ∀ requestingHeight,
    world.phase runner = .asked requestingHeight →
      ∃ known notes : List (NoteCiphertext Hash), known <+: world.server ∧
        response = notes.map some ∧ notes.Perm (known.filter (requestingHeight < ·.noteHeight))
  | .advance _ => True

/-- A run that is about to store a note still finds the latest height to be the
one it has read plus its own notes since. -/
def Phase.Fresh (latest : Nat) : Phase Hash → Prop
  | .storing requestingHeight i received => i < received.length → latest = requestingHeight + i
  | _ => True

def Fresh (world : World Runner Hash) : Event Runner Hash → Prop
  | .advance runner => (world.phase runner).Fresh (latestHeight world.store.notes)
  | _ => True

instance (latest : Nat) (phase : Phase Hash) : Decidable (phase.Fresh latest) := by
  cases phase <;> unfold Phase.Fresh <;> infer_instance

instance (world : World Runner Hash) (event : Event Runner Hash) :
    Decidable (Fresh world event) := by
  cases event <;> unfold Fresh <;> infer_instance

/-- No two notes, and no two user notes, have the same height. -/
def Distinct (store : Store Hash) : Prop :=
  (store.notes.map (·.noteHeight)).Nodup ∧ (store.userNotes.map (·.noteHeight)).Nodup

/-! The ledger of a world, and the steps as seen in it. -/

/-- The heights a run has stored and not yet recorded. -/
def Phase.owed : Phase Hash → List Nat
  | .storing _ i received => (received.take i).map (·.noteHeight)
  | .recording i received => (received.drop i).map (·.noteHeight)
  | _ => []

def World.ledger (world : World Runner Hash) : Ledger Runner :=
  ⟨world.store.notes.length, fun runner => (world.phase runner).owed,
    world.store.userNotes.map (·.noteHeight)⟩

def Phase.Sound (stored : Nat) : Phase Hash → Prop
  | .asked requestingHeight => requestingHeight ≤ stored
  | .storing requestingHeight i received =>
    received.map (·.noteHeight) = List.range' (requestingHeight + 1) received.length ∧
      i ≤ received.length ∧ requestingHeight + i ≤ stored
  | _ => True

structure Apart (world : World Runner Hash) : Prop where
  server : Contiguous world.server
  notes : Contiguous world.store.notes
  phases : ∀ runner, (world.phase runner).Sound world.store.notes.length
  ledger : world.ledger.Valid

section

variable {world : World Runner Hash} {runner : Runner} {phase : Phase Hash}

omit [DecidableEq Hash] in
private theorem ledger_enter (world : World Runner Hash) (runner : Runner) (phase : Phase Hash) :
    (world.enter runner phase).ledger =
      { world.ledger with owed := Function.update world.ledger.owed runner phase.owed } := by
  rw [World.ledger, World.enter]
  congr 1
  exact Function.comp_update Phase.owed world.phase runner phase

omit [DecidableEq Hash] in
private theorem sound_enter {stored : Nat} (phases : ∀ other, (world.phase other).Sound stored)
    (sound : phase.Sound stored) :
    ∀ other, ((world.enter runner phase).phase other).Sound stored := by
  intro other
  change (Function.update world.phase runner phase other).Sound stored
  by_cases same : other = runner
  · rw [same, Function.update_self]
    exact sound
  · rw [Function.update_of_ne same]
    exact phases other

omit [DecidableEq Runner] [DecidableEq Hash] in
private theorem Phase.Sound.mono {stored more : Nat} (sound : phase.Sound stored)
    (le : stored ≤ more) :
    phase.Sound more := by
  cases phase with
  | asked requestingHeight => exact Nat.le_trans sound le
  | storing requestingHeight i received =>
    obtain ⟨heights, inside, below⟩ := sound
    exact ⟨heights, inside, Nat.le_trans below le⟩
  | idle | recording | halted => trivial

omit [DecidableEq Hash] in
private theorem Apart.enter (apart : Apart world) (sound : phase.Sound world.store.notes.length)
    (owed : phase.owed = (world.phase runner).owed) : Apart (world.enter runner phase) where
  server := apart.server
  notes := apart.notes
  phases := sound_enter apart.phases sound
  ledger := by
    have same : Function.update world.ledger.owed runner phase.owed = world.ledger.owed := by
      rw [owed]
      exact Function.update_eq_self runner world.ledger.owed
    rw [ledger_enter, same]
    exact apart.ledger

omit [DecidableEq Hash] in
private theorem accept_sound (sorting : HeightSort Hash) {requestingHeight stored : Nat}
    {known notes : List (NoteCiphertext Hash)} (contiguous : Contiguous known)
    (perm : notes.Perm (known.filter (requestingHeight < ·.noteHeight)))
    (below : requestingHeight ≤ stored) :
    (accept sorting requestingHeight (.successful (notes.map some))).Sound stored ∧
      (accept sorting requestingHeight (.successful (notes.map some))).owed = [] := by
  -- what an honest reply leads to
  obtain ⟨above, heights⟩ := filter_above_drop contiguous requestingHeight
  rw [above] at perm
  generalize known.drop requestingHeight = rest at perm heights
  cases notes with
  | nil => exact ⟨trivial, rfl⟩
  | cons note notes =>
    have received : sorting.sort (parsed (some note :: notes.map some)) = rest := by
      rw [← sorting.sort_eq perm (pairwise_of_heights heights)]
      simp [parsed]
    cases rest with
    | nil => exact absurd perm.eq_nil (List.cons_ne_nil _ _)
    | cons head rest =>
      have first : head.noteHeight = _ := noteHeight_of_heights heights List.getElem?_cons_zero
      have accepted : accept sorting requestingHeight (.successful ((note :: notes).map some)) =
          .storing requestingHeight 0 (head :: rest) := by
        simp [accept, received, first]
      rw [accepted]
      exact ⟨⟨heights, Nat.zero_le _, below⟩, rfl⟩

private theorem Apart.reply (apart : Apart world) (sorting : HeightSort Hash)
    (keys : WalletKeys Hash)
    {reply : Reply Hash} (honest : Honest world (.reply runner reply)) :
    Apart (step sorting keys world (.reply runner reply)) := by
  have sound := apart.phases runner
  rw [step]
  cases at_ : world.phase runner with
  | asked requestingHeight =>
    rw [at_] at sound
    cases reply with
    | failed => exact apart.enter trivial (by rw [at_]; rfl)
    | successful response =>
      obtain ⟨known, notes, part, rfl, perm⟩ := honest requestingHeight at_
      obtain ⟨next, owed⟩ :=
        accept_sound sorting (apart.server.of_prefix part) perm sound
      exact apart.enter next (by rw [at_, owed]; rfl)
  | idle | storing | recording | halted => exact apart

omit [DecidableEq Hash] in
private theorem Apart.store (apart : Apart world) {requestingHeight i : Nat}
    {received : List (NoteCiphertext Hash)} {note : NoteCiphertext Hash}
    (at_ : world.phase runner = .storing requestingHeight i received)
    (found : received[i]? = some note) (fresh : world.store.notes.length = requestingHeight + i)
    (height : note.noteHeight = requestingHeight + i + 1) :
    Apart ((world.insertNote note).enter runner
      (.storing requestingHeight (i + 1) received)) := by
  -- storing the next note of an undisturbed run
  obtain ⟨inside, rfl⟩ := List.getElem?_eq_some_iff.mp found
  have sound := apart.phases runner
  rw [at_] at sound
  constructor
  · exact apart.server
  · refine contiguous_append.mpr ⟨apart.notes, ?_⟩
    rw [List.map_singleton, height, fresh]
    rfl
  · change ∀ other, Phase.Sound (world.store.notes ++ [received[i]]).length _
    rw [List.length_append, List.length_singleton]
    apply sound_enter
    · exact fun other => (apart.phases other).mono (Nat.le_succ _)
    · exact ⟨sound.1, inside, by omega⟩
  · have owed : (Phase.storing requestingHeight (i + 1) received).owed =
        world.ledger.owed runner ++ [world.ledger.stored + 1] := by
      change _ = (world.phase runner).owed ++ [world.store.notes.length + 1]
      rw [at_, Phase.owed, Phase.owed, List.take_succ_eq_append_getElem inside, List.map_append,
        List.map_singleton, height, fresh]
    have size : (world.insertNote received[i]).ledger =
        { world.ledger with stored := world.ledger.stored + 1 } := by
      simp [World.ledger, World.insertNote, addRequest, Insert.applied]
    rw [ledger_enter, owed, size]
    exact apart.ledger.store runner

omit [DecidableEq Hash] in
private theorem Apart.record (apart : Apart world) (keys : WalletKeys Hash) {i : Nat}
    {received : List (NoteCiphertext Hash)} {note : NoteCiphertext Hash}
    (at_ : world.phase runner = .recording i received) (found : received[i]? = some note) :
    Apart ((world.insertUserNote keys note).enter runner (.recording (i + 1) received)) := by
  obtain ⟨inside, rfl⟩ := List.getElem?_eq_some_iff.mp found
  have owes : world.ledger.owed runner =
      received[i].noteHeight :: (received.drop (i + 1)).map (·.noteHeight) := by
    change (world.phase runner).owed = _
    rw [at_, Phase.owed, List.drop_eq_getElem_cons inside, List.map_cons]
  obtain ⟨documents, documented, heights⟩ : ∃ documents : List Nat,
      (documents = [] ∨ documents = [received[i].noteHeight]) ∧
      (world.insertUserNote keys received[i]).ledger =
        { world.ledger with recorded := world.ledger.recorded ++ documents } := by
    rw [World.insertUserNote, addUserNote]
    cases recorded : keys.record received[i] with
    | none =>
      refine ⟨[], .inl rfl, ?_⟩
      rw [List.append_nil]
    | some doc =>
      refine ⟨[received[i].noteHeight], .inr rfl, ?_⟩
      rw [← (forgetStatus_of_record recorded).2]
      simp [World.ledger, addRequest, Insert.applied]
  constructor
  · exact apart.server
  · exact apart.notes
  · exact sound_enter apart.phases trivial
  · rw [ledger_enter, heights]
    exact apart.ledger.settle owes documented

private theorem heights_updateUserNotesStatus (keys : WalletKeys Hash) (store : Store Hash) :
    (updateUserNotesStatus keys (fun _ => true) store).2.userNotes.map (·.noteHeight) =
      store.userNotes.map (·.noteHeight) := by
  have same := congrArg (List.map (·.noteHeight))
    (forgetStatus_updateUserNotesStatus keys (fun _ => true) store)
  rw [List.map_map, List.map_map] at same
  exact same

private theorem Apart.finish (apart : Apart world) (keys : WalletKeys Hash) {i : Nat}
    {received : List (NoteCiphertext Hash)} (at_ : world.phase runner = .recording i received)
    (ended : received[i]? = none) : Apart ((world.updateStatus keys).enter runner .idle) := by
  have same : (world.updateStatus keys).ledger = world.ledger := by
    simp only [World.ledger, World.updateStatus, heights_updateUserNotesStatus,
      updateUserNotesStatus_notes]
  have updated : Apart (world.updateStatus keys) :=
    ⟨apart.server, apart.notes, apart.phases, same ▸ apart.ledger⟩
  have sound : (Phase.idle : Phase Hash).Sound (world.updateStatus keys).store.notes.length :=
    trivial
  apply updated.enter sound
  change [] = (world.phase runner).owed
  rw [at_, Phase.owed, List.drop_of_length_le (List.getElem?_eq_none_iff.mp ended)]
  rfl

omit [DecidableEq Runner] [DecidableEq Hash] in
private theorem Phase.Sound.noteHeight_eq {stored requestingHeight i : Nat}
    {received : List (NoteCiphertext Hash)} {note : NoteCiphertext Hash}
    (sound : (Phase.storing requestingHeight i received).Sound stored)
    (found : received[i]? = some note) : note.noteHeight = requestingHeight + i + 1 := by
  have height := noteHeight_of_heights sound.1 found
  omega

/-! The steps of a run, by its phase. -/

private theorem advance_store {keys : WalletKeys Hash} {requestingHeight i : Nat}
    {received : List (NoteCiphertext Hash)} {note : NoteCiphertext Hash}
    (at_ : world.phase runner = .storing requestingHeight i received)
    (found : received[i]? = some note) (height : note.noteHeight = requestingHeight + i + 1) :
    advance keys runner world =
      (world.insertNote note).enter runner (.storing requestingHeight (i + 1) received) := by
  simp only [advance, at_, found, height, ne_eq, not_true_eq_false, if_false]

private theorem advance_stored {keys : WalletKeys Hash} {requestingHeight i : Nat}
    {received : List (NoteCiphertext Hash)}
    (at_ : world.phase runner = .storing requestingHeight i received)
    (ended : received[i]? = none) :
    advance keys runner world = world.enter runner (.recording 0 received) := by
  simp only [advance, at_, ended]

private theorem advance_record {keys : WalletKeys Hash} {i : Nat}
    {received : List (NoteCiphertext Hash)}
    {note : NoteCiphertext Hash} (at_ : world.phase runner = .recording i received)
    (found : received[i]? = some note) :
    advance keys runner world =
      (world.insertUserNote keys note).enter runner (.recording (i + 1) received) := by
  simp only [advance, at_, found]

private theorem advance_finish {keys : WalletKeys Hash} {i : Nat}
    {received : List (NoteCiphertext Hash)}
    (at_ : world.phase runner = .recording i received) (ended : received[i]? = none) :
    advance keys runner world = (world.updateStatus keys).enter runner .idle := by
  simp only [advance, at_, ended]

private theorem Apart.advance (apart : Apart world) (keys : WalletKeys Hash)
    (fresh : Fresh world (.advance runner)) : Apart (advance keys runner world) := by
  have sound := apart.phases runner
  cases at_ : world.phase runner with
  | idle =>
    have below : (Phase.asked (latestHeight world.store.notes) : Phase Hash).Sound
        world.store.notes.length := Nat.le_of_eq apart.notes.latestHeight
    simp only [SyncInterleaving.advance, at_]
    exact apart.enter below (by rw [at_]; rfl)
  | storing requestingHeight i received =>
    rw [at_] at sound
    cases found : received[i]? with
    | none =>
      have ended := List.getElem?_eq_none_iff.mp found
      have next : (Phase.recording 0 received).Sound world.store.notes.length := trivial
      rw [advance_stored at_ found]
      apply apart.enter next
      rw [at_, Phase.owed, Phase.owed, List.drop_zero, List.take_of_length_le ended]
    | some note =>
      have height := sound.noteHeight_eq found
      have latest : world.store.notes.length = requestingHeight + i := by
        rw [Fresh, at_] at fresh
        rw [← apart.notes.latestHeight]
        exact fresh (List.getElem?_eq_some_iff.mp found).1
      rw [advance_store at_ found height]
      exact apart.store at_ found latest height
  | recording i received =>
    cases found : received[i]? with
    | none =>
      rw [advance_finish at_ found]
      exact apart.finish keys at_ found
    | some note =>
      rw [advance_record at_ found]
      exact apart.record keys at_ found
  | asked | halted =>
    simp only [SyncInterleaving.advance, at_]
    exact apart

private theorem Apart.step (apart : Apart world) (sorting : HeightSort Hash)
    (keys : WalletKeys Hash)
    {event : Event Runner Hash} (honest : Honest world event) (fresh : Fresh world event) :
    Apart (step sorting keys world event) := by
  cases event with
  | grow notes => exact ⟨honest, apart.notes, apart.phases, apart.ledger⟩
  | reply runner reply => exact apart.reply sorting keys honest
  | advance runner => exact apart.advance keys fresh

omit [DecidableEq Runner] [DecidableEq Hash] in
private theorem Apart.distinct (apart : Apart world) : Distinct world.store := by
  refine ⟨?_, apart.ledger.recorded⟩
  rw [apart.notes]
  exact List.nodup_range'

private theorem Apart.not_distinct (apart : Apart world) (sorting : HeightSort Hash)
    (keys : WalletKeys Hash) {event : Event Runner Hash} (stale : ¬ Fresh world event) :
    ¬ Distinct (SyncInterleaving.step sorting keys world event).store := by
  -- a note stored behind another run is there twice
  cases event with
  | grow notes => exact absurd trivial stale
  | reply runner reply => exact absurd trivial stale
  | advance runner =>
    have sound := apart.phases runner
    rw [Fresh] at stale
    cases at_ : world.phase runner with
    | storing requestingHeight i received =>
      rw [at_] at sound stale
      obtain ⟨inside, other⟩ := Classical.not_imp.mp stale
      rw [apart.notes.latestHeight] at other
      have found : received[i]? = some received[i] := List.getElem?_eq_getElem inside
      have height := sound.noteHeight_eq found
      have below := sound.2.2
      rw [SyncInterleaving.step, advance_store at_ found height]
      rintro ⟨single, _⟩
      change ((world.store.notes ++ [received[i]]).map (·.noteHeight)).Nodup at single
      rw [List.map_append, List.nodup_append] at single
      refine single.2.2 _ ?_ _ (List.mem_map_of_mem List.mem_cons_self) rfl
      rw [apart.notes, List.mem_range'_1, height]
      omega
    | idle | asked | recording | halted =>
      rw [at_] at stale
      exact absurd trivial stale

omit [DecidableEq Runner] [DecidableEq Hash] in
private theorem insertUserNote_extends (keys : WalletKeys Hash) (note : NoteCiphertext Hash)
    (world : World Runner Hash) :
    world.store.userNotes <+: (world.insertUserNote keys note).store.userNotes := by
  rw [World.insertUserNote, addUserNote]
  cases keys.record note with
  | none => exact List.prefix_refl _
  | some doc => exact List.prefix_append _ _

private theorem heights_step (sorting : HeightSort Hash) (keys : WalletKeys Hash)
    (world : World Runner Hash) (event : Event Runner Hash) :
    world.store.notes <+: (SyncInterleaving.step sorting keys world event).store.notes ∧
      world.store.userNotes.map (·.noteHeight) <+:
        (SyncInterleaving.step sorting keys world event).store.userNotes.map (·.noteHeight) := by
  -- steps remove no document and change no height
  have same : world.store.notes <+: world.store.notes ∧
      world.store.userNotes.map (·.noteHeight) <+: world.store.userNotes.map (·.noteHeight) :=
    ⟨List.prefix_refl _, List.prefix_refl _⟩
  cases event with
  | grow notes => exact same
  | reply runner reply =>
    rw [SyncInterleaving.step]
    cases world.phase runner <;> exact same
  | advance runner =>
    rw [SyncInterleaving.step, SyncInterleaving.advance]
    cases world.phase runner with
    | storing requestingHeight i received =>
      dsimp only
      split
      · exact same
      · split
        · exact same
        · exact ⟨List.prefix_append _ _, same.2⟩
    | recording i received =>
      dsimp only
      split
      · have kept := heights_updateUserNotesStatus keys world.store
        exact ⟨same.1, [], (List.append_nil _).trans kept.symm⟩
      · exact ⟨same.1, (insertUserNote_extends keys _ world).map _⟩
    | idle | asked | halted => exact same

private theorem distinct_of_step {sorting : HeightSort Hash} {keys : WalletKeys Hash}
    {event : Event Runner Hash}
    (distinct : Distinct (SyncInterleaving.step sorting keys world event).store) :
    Distinct world.store := by
  obtain ⟨notes, userNotes⟩ := heights_step sorting keys world event
  exact ⟨distinct.1.sublist (notes.map _).sublist, distinct.2.sublist userNotes.sublist⟩

end

/-- A wallet between runs: contiguous notes, and a user note for no height twice
or beyond the notes. -/
structure Resting (world : World Runner Hash) : Prop where
  server : Contiguous world.server
  notes : Contiguous world.store.notes
  records : (world.store.userNotes.map (·.noteHeight)).Nodup
  stored : ∀ doc ∈ world.store.userNotes, doc.noteHeight ≤ world.store.notes.length
  idle : ∀ runner, world.phase runner = .idle

omit [DecidableEq Runner] [DecidableEq Hash] in
private theorem Resting.apart {world : World Runner Hash} (resting : Resting world) :
    Apart world := by
  have none_ : ∀ runner, world.ledger.owed runner = [] := by
    intro runner
    change (world.phase runner).owed = []
    rw [resting.idle]
    rfl
  refine ⟨resting.server, resting.notes, ?_, ?_⟩
  · intro runner
    rw [resting.idle]
    trivial
  · constructor
    · exact resting.records
    · intro runner
      rw [none_]
      exact List.nodup_nil
    · intro runner height mem
      rw [none_] at mem
      cases mem
    · intro runner other height mem
      rw [none_] at mem
      cases mem
    · intro height mem
      obtain ⟨doc, inside, rfl⟩ := List.mem_map.mp mem
      exact resting.stored doc inside
    · intro runner height mem
      rw [none_] at mem
      cases mem

/-! A run that is not interleaved with others is `update_note_repository`. -/

section

variable (sorting : HeightSort Hash) (keys : WalletKeys Hash) {runner : Runner}

omit [DecidableEq Hash] in
private theorem phase_enter (world : World Runner Hash) (runner : Runner) (phase : Phase Hash) :
    (world.enter runner phase).phase runner = phase := Function.update_self _ _ _

omit [DecidableEq Runner] [DecidableEq Hash] in
private theorem getElem?_of_drop {received rest : List (NoteCiphertext Hash)}
    {note : NoteCiphertext Hash}
    {i : Nat} (ahead : received.drop i = note :: rest) :
    received[i]? = some note ∧ received.drop (i + 1) = rest := by
  constructor
  · rw [← List.head?_drop, ahead]
    rfl
  · rw [← List.tail_drop, ahead]
    rfl

private theorem run_storing (rest : List (NoteCiphertext Hash)) {world : World Runner Hash}
    {requestingHeight i : Nat} {received : List (NoteCiphertext Hash)}
    (at_ : world.phase runner = .storing requestingHeight i received)
    (ahead : received.drop i = rest) :
    ∃ n, run (step sorting keys) world (List.replicate n (.advance runner)) =
      ⟨world.server,
        { world.store with
          notes := (insertNotes Faults.none.notes i (requestingHeight + i) rest
            world.store.notes).2 },
        Function.update world.phase runner (.recording 0 received)⟩ := by
  induction rest generalizing world i with
  | nil =>
    have ended : received[i]? = none :=
      List.getElem?_eq_none_iff.mpr (List.drop_eq_nil_iff.mp ahead)
    exact ⟨1, advance_stored at_ ended⟩
  | cons note rest ih =>
    obtain ⟨found, further⟩ := getElem?_of_drop ahead
    rw [insertNotes]
    by_cases height : note.noteHeight = requestingHeight + i + 1
    · obtain ⟨n, ended⟩ := ih (phase_enter (world.insertNote note) runner _) further
      refine ⟨n + 1, ?_⟩
      rw [List.replicate_succ, run_cons, step, advance_store at_ found height]
      rw [if_neg (not_not.mpr height)]
      exact ended.trans (by simp only [World.enter, World.insertNote, Function.update_idem]; rfl)
    · refine ⟨1, ?_⟩
      rw [if_pos height]
      simp only [List.replicate_one, run_cons, run_nil, step, advance, at_, found, height, ne_eq,
        not_false_eq_true, if_true]
      rfl

private theorem run_recording (rest : List (NoteCiphertext Hash)) {world : World Runner Hash}
    {i : Nat}
    {received : List (NoteCiphertext Hash)} (at_ : world.phase runner = .recording i received)
    (ahead : received.drop i = rest) :
    ∃ n, run (step sorting keys) world (List.replicate n (.advance runner)) =
      ⟨world.server,
        (updateUserNotesStatus keys (fun _ => true)
          { world.store with
            userNotes := addUserNotes keys Faults.none.userNotes i rest world.store.userNotes }).2,
        Function.update world.phase runner .idle⟩ := by
  -- the loop that adds user notes, and the status update after it
  induction rest generalizing world i with
  | nil =>
    have ended : received[i]? = none :=
      List.getElem?_eq_none_iff.mpr (List.drop_eq_nil_iff.mp ahead)
    exact ⟨1, advance_finish at_ ended⟩
  | cons note rest ih =>
    obtain ⟨found, further⟩ := getElem?_of_drop ahead
    obtain ⟨n, ended⟩ := ih (phase_enter (world.insertUserNote keys note) runner _) further
    refine ⟨n + 1, ?_⟩
    rw [List.replicate_succ, run_cons, step, advance_record at_ found]
    exact ended.trans (by simp only [World.enter, World.insertUserNote, Function.update_idem]; rfl)

omit [DecidableEq Hash] in
private theorem enter_enter (world : World Runner Hash) (runner : Runner)
    (phase next : Phase Hash) :
    (world.enter runner phase).enter runner next = world.enter runner next := by
  simp only [World.enter, Function.update_idem]

omit [DecidableEq Runner] [DecidableEq Hash] in
private theorem accept_eq {call : Call Hash} {height : Nat}
    (head : (call.received sorting).head?.map (·.noteHeight) = some (height + 1)) :
    accept sorting height call.reply = .storing height 0 (call.received sorting) := by
  obtain ⟨reply, faults⟩ := call
  cases reply with
  | failed => cases head
  | successful response =>
    change (sorting.sort (parsed response)).head?.map _ = _ at head
    change accept sorting height (.successful response) =
      .storing height 0 (sorting.sort (parsed response))
    cases response with
    | nil =>
      have none_ : sorting.sort (parsed []) = [] := (sorting.perm []).eq_nil
      rw [none_] at head
      cases head
    | cons element response =>
      cases sorted : sorting.sort (parsed (element :: response)) with
      | nil =>
        rw [sorted] at head
        cases head
      | cons first received =>
        rw [sorted, List.head?_cons, Option.map_some, Option.some.injEq] at head
        simp [accept, sorted, head]

private theorem run_accept (runner : Runner) {world : World Runner Hash} {call : Call Hash}
    (sound : call.faults = Faults.none)
    (accepted : call.Accepted sorting world.store) :
    ∃ n, run (step sorting keys)
        (world.enter runner (accept sorting (latestHeight world.store.notes) call.reply))
        (List.replicate n (.advance runner)) =
      { world with
        store := { world.store with
          notes := world.store.notes ++ call.stored sorting world.store } }.enter
            runner (.recording 0 (call.received sorting)) := by
  rcases accepted with empty | head
  · refine ⟨0, ?_⟩
    have none_ : call.received sorting = [] := by
      rw [Call.received, empty]
      exact (sorting.perm _).eq_nil
    rw [empty, Call.stored, none_]
    simp [accept]
  · rw [accept_eq sorting head]
    obtain ⟨n, ended⟩ := run_storing sorting keys (call.received sorting)
      (phase_enter world runner _) (List.drop_zero ..)
    refine ⟨n, ended.trans ?_⟩
    rw [insertNotes_notes, Call.stored, sound]
    simp only [World.enter, Function.update_idem, Nat.add_zero]

/-- Without other steps in between, a run that gets an accepted reply does what
`update_note_repository` does, and is idle again. -/
theorem run_alone {world : World Runner Hash} {call : Call Hash}
    (idle : world.phase runner = .idle) (sound : call.faults = Faults.none)
    (accepted : call.Accepted sorting world.store) :
    ∃ n, run (step sorting keys) world
        (.advance runner :: .reply runner call.reply :: List.replicate n (.advance runner)) =
      { world with store := syncStep sorting keys world.store call } := by
  obtain ⟨m, recording⟩ := run_accept sorting keys runner sound accepted
  obtain ⟨n, ended⟩ := run_recording sorting keys (call.received sorting)
    (phase_enter { world with store := { world.store with
      notes := world.store.notes ++ call.stored sorting world.store } } runner _)
    (List.drop_zero ..)
  have asks : step sorting keys world (.advance runner) =
      world.enter runner (.asked (latestHeight world.store.notes)) := by
    simp only [step, advance, idle]
  have replies : step sorting keys (world.enter runner (.asked (latestHeight world.store.notes)))
      (.reply runner call.reply) =
        world.enter runner (accept sorting (latestHeight world.store.notes) call.reply) := by
    simp only [step, phase_enter, enter_enter]
  have again : Function.update world.phase runner .idle = world.phase := by
    rw [← idle]
    exact Function.update_eq_self runner world.phase
  refine ⟨m + n, ?_⟩
  rw [run_cons, run_cons, asks, replies, List.replicate_add, run_append, recording, ended,
    syncStep_eq, if_pos accepted, updateConfidentialBalance, sound]
  simp only [World.enter, Function.update_idem, again]
  rfl

end

/-- Under an honest server, and however the steps of any runs are interleaved,
no note and no user note is ever there twice exactly when no run stores a note
after another one did so since it read the height. -/
theorem distinct_iff_fresh (sorting : HeightSort Hash) (keys : WalletKeys Hash)
    {world : World Runner Hash} (resting : Resting world) (events : List (Event Runner Hash))
    (honest : Along (step sorting keys) Honest world events) :
    Distinct (run (step sorting keys) world events).store ↔
      Along (step sorting keys) Fresh world events :=
  goal_iff_along Apart (fun world => Distinct world.store)
    (fun _ apart => apart.distinct)
    (fun _ _ apart honest fresh => apart.step sorting keys honest fresh)
    (fun _ _ apart _ stale => apart.not_distinct sorting keys stale)
    (fun _ _ distinct => distinct_of_step distinct) resting.apart honest

def sampleWorld : World Bool (BitVec 256) := ⟨[], Store.empty, fun _ => .idle⟩

private theorem sampleWorld_resting : Resting sampleWorld :=
  ⟨rfl, rfl, List.nodup_nil, nofun, fun _ => rfl⟩

def sampleReply (runner : Bool) (heights : List Nat) : Event Bool (BitVec 256) :=
  .reply runner (.successful (heights.map fun height => some (sampleNote height)))

/-- The second run reads the height after the first one has stored its note. -/
theorem distinct_in_turn :
    Distinct (run (step (StdSort.stable _) sampleKeys) sampleWorld
      [.grow [sampleNote 1], .advance false, sampleReply false [1], .advance false, .advance true,
        sampleReply true [], .advance false, .advance true, .advance false]).store := by
  refine (distinct_iff_fresh (StdSort.stable _) sampleKeys sampleWorld_resting _ ?_).mpr (by decide)
  refine ⟨rfl, trivial, ?_, trivial, trivial, ?_, trivial, trivial, trivial, trivial⟩
  · rintro height ⟨⟩
    exact ⟨[sampleNote 1], [sampleNote 1], List.prefix_refl _, rfl, List.Perm.refl _⟩
  · rintro height ⟨⟩
    exact ⟨[sampleNote 1], [], List.prefix_refl _, rfl, List.Perm.refl _⟩

def overlappingRuns : List (Event Bool (BitVec 256)) :=
  [.grow [sampleNote 1], .advance false, .advance true, sampleReply false [1],
    sampleReply true [1], .advance false, .advance true, .advance false, .advance true,
    .advance false, .advance true]

/-- Both runs read the height 0, and both store and record the first note. -/
theorem both_runs_record :
    Along (step (StdSort.stable _) sampleKeys) Honest sampleWorld overlappingRuns ∧
      (run (step (StdSort.stable _) sampleKeys) sampleWorld overlappingRuns).store.notes.map
        (·.noteHeight) = [1, 1] ∧
      (run (step (StdSort.stable _) sampleKeys) sampleWorld overlappingRuns).store.userNotes.map
        (·.noteHeight) = [1, 1] ∧
      ¬ Distinct (run (step (StdSort.stable _) sampleKeys) sampleWorld overlappingRuns).store := by
  have notes : (run (step (StdSort.stable _) sampleKeys) sampleWorld
      overlappingRuns).store.notes.map (·.noteHeight) = [1, 1] := by decide
  refine ⟨⟨rfl, trivial, trivial, ?_, ?_, trivial, trivial, trivial, trivial, trivial, trivial,
    trivial⟩, notes, by decide, ?_⟩
  · rintro height ⟨⟩
    exact ⟨[sampleNote 1], [sampleNote 1], List.prefix_refl _, rfl, List.Perm.refl _⟩
  · rintro height ⟨⟩
    exact ⟨[sampleNote 1], [sampleNote 1], List.prefix_refl _, rfl, List.Perm.refl _⟩
  · rintro ⟨single, _⟩
    rw [notes] at single
    exact absurd single (by decide)

end CbDaemon.Concurrency.SyncInterleaving
