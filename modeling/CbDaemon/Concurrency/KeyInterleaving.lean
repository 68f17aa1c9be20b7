/- module: CbDaemon/Concurrency/KeyInterleaving
   source: src/zmq/request.cpp, src/cblib/process_request.cpp, src/cblib/account.cpp
   digest: Interleaved key set-ups of one wallet leave one identity while none looks behind another. -/

import CbDaemon.Base.CheckInsert
import CbDaemon.Base.Fallible
import CbDaemon.Base.Run
import CbDaemon.Requests.Exchange
import Mathlib.Data.Fintype.Defs

set_option autoImplicit false
set_option relaxedAutoImplicit false

namespace CbDaemon.Concurrency.KeyInterleaving
open Base.CheckInsert Base.Fallible Base.Run
open Codec.Integer Codec.Json Codec.Keypair
open Requests.Exchange

/-- How far a worker is in `Postman::update`. `ServerEngine::sync_keypair` ends after the
first half. -/
inductive Progress where
  | idle
  /-- The query for the key pair found none. -/
  | noKeys
  | haveKeys
  /-- The query for the confidential key pair found none. -/
  | noConf
  | finished
  /-- A stored key could not be read. -/
  | failed
  deriving DecidableEq

/-- The two key collections of a wallet, and the workers with their `Postman` objects. -/
structure KeyState (Worker : Type) where
  keypairs : List Value
  confKeypairs : List Value
  progress : Worker → Progress
  postman : Worker → Postman

/-- The steps of `Postman::update`, with the keys that a worker generates. -/
inductive KeyEvent (Worker : Type) where
  | queryKeys (worker : Worker)
  | insertKeys (worker : Worker) (publicKey secretKey : Text)
  | queryConf (worker : Worker)
  | insertConf (worker : Worker) (confKey : ZCKeypair)

variable {Worker : Type} [DecidableEq Worker]

def KeyState.set (s : KeyState Worker) (worker : Worker) (progress : Progress)
    (postman : Postman) : KeyState Worker :=
  { s with
    progress := Function.update s.progress worker progress
    postman := Function.update s.postman worker postman }

/-- One step of a worker. A step that is not its next one does nothing; a run may start
again when the last one is over. What `ZC_Keypair::serialize` copies of the bytes of a key
is a parameter. -/
def keyStep (copy : List UInt8 → List UInt8) (s : KeyState Worker) :
    KeyEvent Worker → KeyState Worker
  | .queryKeys worker =>
    if s.progress worker = .noKeys ∨ s.progress worker = .noConf then s
    else
      match s.keypairs.mapM readKeypair with
      | .error _ => s.set worker .failed (s.postman worker)
      | .ok [] => s.set worker .noKeys (s.postman worker)
      | .ok ((publicKey, secretKey) :: _) =>
        s.set worker .haveKeys { s.postman worker with publicKey, secretKey }
  | .insertKeys worker publicKey secretKey =>
    if s.progress worker = .noKeys then
      let postman := { s.postman worker with publicKey, secretKey }
      { s.set worker .haveKeys postman with keypairs := s.keypairs ++ [keypairDocument postman] }
    else s
  | .queryConf worker =>
    if s.progress worker = .haveKeys then
      match s.confKeypairs.mapM readConfKeypair with
      | .error _ => s.set worker .failed (s.postman worker)
      | .ok [] => s.set worker .noConf (s.postman worker)
      | .ok (confKey :: _) => s.set worker .finished { s.postman worker with confKey }
    else s
  | .insertConf worker confKey =>
    if s.progress worker = .noConf then
      let postman := { s.postman worker with confKey }
      { s.set worker .finished postman with
        confKeypairs := s.confKeypairs ++ [confKeypairDocument copy postman] }
    else s

section

variable {copy : List UInt8 → List UInt8}

def updateEvents (worker : Worker) (fresh : Postman) : List (KeyEvent Worker) :=
  [.queryKeys worker, .insertKeys worker fresh.publicKey fresh.secretKey, .queryConf worker,
    .insertConf worker fresh.confKey]

private theorem run_keys (worker : Worker) (fresh : Postman) (s : KeyState Worker)
    (idle : s.progress worker = .idle) {pairs : List (Text × Text)}
    (read : s.keypairs.mapM readKeypair = .ok pairs) :
    keyStep copy (keyStep copy s (.queryKeys worker))
        (.insertKeys worker fresh.publicKey fresh.secretKey) =
      { s.set worker .haveKeys
          { s.postman worker with
            publicKey := (pairs.headD (fresh.publicKey, fresh.secretKey)).1
            secretKey := (pairs.headD (fresh.publicKey, fresh.secretKey)).2 } with
        keypairs := if pairs.isEmpty then [keypairDocument fresh] else s.keypairs } := by
  have stored := isEmpty_of_mapM read
  cases pairs with
  | nil =>
    have none : s.keypairs = [] := List.isEmpty_iff.mp stored.symm
    simp [keyStep, KeyState.set, idle, read, keypairDocument]
    exact none
  | cons pair pairs => simp [keyStep, KeyState.set, idle, read]

private theorem run_confKeys (worker : Worker) (fresh : Postman) (s : KeyState Worker)
    (ready : s.progress worker = .haveKeys) {confKeys : List ZCKeypair}
    (read : s.confKeypairs.mapM readConfKeypair = .ok confKeys) :
    keyStep copy (keyStep copy s (.queryConf worker)) (.insertConf worker fresh.confKey) =
      { s.set worker .finished
          { s.postman worker with confKey := confKeys.headD fresh.confKey } with
        confKeypairs := if confKeys.isEmpty then [confKeypairDocument copy fresh]
          else s.confKeypairs } := by
  have stored := isEmpty_of_mapM read
  cases confKeys with
  | nil =>
    have none : s.confKeypairs = [] := List.isEmpty_iff.mp stored.symm
    simp [keyStep, KeyState.set, ready, read, confKeypairDocument]
    exact none
  | cons confKey confKeys => simp [keyStep, KeyState.set, ready, read]

/-- A run that no other worker interrupts is `Postman::update` of the request model. -/
theorem run_updateEvents (worker : Worker) (fresh : Postman) (wallet : Wallet)
    (s : KeyState Worker) (idle : s.progress worker = .idle)
    (keypairs : s.keypairs = wallet.keypairs) (confKeypairs : s.confKeypairs = wallet.confKeypairs)
    {postman : Postman} {after : Wallet}
    (updated : postmanUpdate copy fresh wallet = .ok (postman, after)) :
    let done := run (keyStep copy) s (updateEvents worker fresh)
    done.keypairs = after.keypairs ∧ done.confKeypairs = after.confKeypairs ∧
      done.postman worker = postman ∧ done.progress worker = .finished := by
  have returns : Returns (postmanUpdate copy fresh wallet) (· = (postman, after)) :=
    ⟨_, updated, rfl⟩
  simp only [postmanUpdate, returns_bind, returns_pure] at returns
  obtain ⟨pairs, readPairs, confKeys, readConfs, result⟩ := returns
  rw [← keypairs] at readPairs result
  rw [← confKeypairs] at readConfs result
  cases result
  have keys : keyStep copy _ _ = _ := run_keys worker fresh s idle readPairs
  rw [updateEvents]
  simp only [run_cons, run_nil]
  generalize keyStep copy (keyStep copy s (.queryKeys worker))
    (.insertKeys worker fresh.publicKey fresh.secretKey) = middle at keys ⊢
  have ready : middle.progress worker = .haveKeys := by
    rw [keys]
    exact Function.update_self _ _ _
  have unchanged : middle.confKeypairs = s.confKeypairs := by
    rw [keys]
    rfl
  rw [← unchanged] at readConfs ⊢
  rw [run_confKeys worker fresh middle ready readConfs]
  refine ⟨?_, rfl, ?_, Function.update_self _ _ _⟩
  · rw [keys]
    rfl
  · rw [keys]
    simp only [KeyState.set, Function.update_self]

end

/-! The two halves of a run, each as a look for a key and the insert of a new one. -/

def pairDocument (pair : Text × Text) : Value :=
  .object [("secret_key", .string pair.2), ("public_key", .string pair.1)]

def confDocument (copy : List UInt8 → List UInt8) (confKey : ZCKeypair) : Value :=
  .object [("recipient_key", .string (confKey.serializeWith copy))]

/-- What is read of a stored confidential key, if anything is. -/
def readBack (copy : List UInt8 → List UInt8) (confKey : ZCKeypair) : ZCKeypair :=
  match ZCKeypair.ofString (confKey.serializeWith copy) with
  | .ok found => found
  | .error _ => confKey

/-- Every byte of the key is below `0x80`. -/
def SevenBit (confKey : ZCKeypair) : Prop := ∀ b ∈ confKey.recipientKey.contents.data, b < 0x80

instance (confKey : ZCKeypair) : Decidable (SevenBit confKey) :=
  List.decidableBAll (· < 0x80) confKey.recipientKey.contents.data

def Copies (copy : List UInt8 → List UInt8) : Prop := ∀ bytes, copy bytes = bytes

private theorem serializeWith_of_copies {copy : List UInt8 → List UInt8} (copies : Copies copy)
    (confKey : ZCKeypair) : confKey.serializeWith copy = confKey.serialize := by
  rw [ZCKeypair.serialize, ZCKeypair.serializeWith, ZCKeypair.serializeWith, copies]
  rfl

private theorem readBack_of_sevenBit {copy : List UInt8 → List UInt8} (copies : Copies copy)
    {confKey : ZCKeypair} (sevenBit : SevenBit confKey) : readBack copy confKey = confKey := by
  rw [readBack, serializeWith_of_copies copies, confKey.ofString_serialize_iff.mpr sevenBit]

private theorem mapM_readKeypair (pairs : List (Text × Text)) :
    (pairs.map pairDocument).mapM readKeypair = .ok pairs := by
  induction pairs with
  | nil => rfl
  | cons pair pairs ih =>
    rw [List.map_cons, List.mapM_cons, ih]
    rfl

private theorem readConfKeypair_confDocument (copy : List UInt8 → List UInt8)
    (confKey : ZCKeypair) :
    readConfKeypair (confDocument copy confKey) =
      ZCKeypair.ofString (confKey.serializeWith copy) := rfl

private theorem eq_readBack_of_mapM {copy : List UInt8 → List UInt8}
    {confKeys found : List ZCKeypair}
    (read : (confKeys.map (confDocument copy)).mapM readConfKeypair = .ok found) :
    found = confKeys.map (readBack copy) := by
  -- what is read of the stored keys, if all of them can be read
  induction confKeys generalizing found with
  | nil =>
    cases read
    rfl
  | cons confKey confKeys ih =>
    rw [List.map_cons, List.mapM_cons, readConfKeypair_confDocument] at read
    cases first : ZCKeypair.ofString (confKey.serializeWith copy) with
    | error message => simp [first, bind, Except.bind] at read
    | ok key =>
      cases rest : (confKeys.map (confDocument copy)).mapM readConfKeypair with
      | error message => simp [first, rest, bind, Except.bind] at read
      | ok keys =>
        simp only [first, rest, bind, Except.bind, pure, Except.pure, Except.ok.injEq] at read
        rw [← read, ih rest, List.map_cons, readBack, first]

private theorem mapM_readConfKeypair {copy : List UInt8 → List UInt8} (copies : Copies copy)
    (confKeys : List ZCKeypair) :
    (confKeys.map (confDocument copy)).mapM readConfKeypair =
      .ok (confKeys.map (readBack copy)) := by
  have readable : Returns ((confKeys.map (confDocument copy)).mapM readConfKeypair)
      fun _ => True := by
    rw [returns_mapM]
    intro doc listed
    obtain ⟨confKey, _, rfl⟩ := List.mem_map.mp listed
    rw [readConfKeypair_confDocument, serializeWith_of_copies copies]
    obtain ⟨key, read⟩ := confKey.exists_ofString_serialize
    exact ⟨key, read, trivial⟩
  obtain ⟨found, read, _⟩ := readable
  rw [read, eq_readBack_of_mapM read]

def keyPhase (progress : Progress) (postman : Postman) : Phase (Text × Text) :=
  match progress with
  | .idle | .failed => .idle
  | .noKeys => .absent
  | .haveKeys | .noConf | .finished => .holds (postman.publicKey, postman.secretKey)

def confPhase (progress : Progress) (postman : Postman) : Phase ZCKeypair :=
  match progress with
  | .idle | .failed | .noKeys | .haveKeys => .idle
  | .noConf => .absent
  | .finished => .holds postman.confKey

def slotOf {Key : Type} (phase : Progress → Postman → Phase Key) (s : KeyState Worker)
    (stored : List Key) : Slot Worker Key :=
  ⟨stored, fun worker => phase (s.progress worker) (s.postman worker)⟩

/-- The two collections hold these keys, and no run has failed where bytes are copied. -/
structure Holds (copy : List UInt8 → List UInt8) (s : KeyState Worker)
    (pairs : List (Text × Text)) (confKeys : List ZCKeypair) : Prop where
  keypairs : s.keypairs = pairs.map pairDocument
  confKeypairs : s.confKeypairs = confKeys.map (confDocument copy)
  running : Copies copy → ∀ worker, s.progress worker ≠ .failed

/-- No run looks for a key while another is about to store one of the kind. -/
def Quiet (s : KeyState Worker) : KeyEvent Worker → Prop
  | .queryKeys worker => ∀ other, other ≠ worker → s.progress other ≠ .noKeys
  | .queryConf worker => ∀ other, other ≠ worker → s.progress other ≠ .noConf
  | .insertKeys _ _ _ | .insertConf _ _ => True

/-- The bytes of a confidential key that is stored are below `0x80`. -/
def Kept (s : KeyState Worker) : KeyEvent Worker → Prop
  | .insertConf worker confKey => s.progress worker = .noConf → SevenBit confKey
  | .queryKeys _ | .insertKeys _ _ _ | .queryConf _ => True

instance [Fintype Worker] (s : KeyState Worker) :
    ∀ event, Decidable (Quiet s event)
  | .queryKeys worker =>
    inferInstanceAs (Decidable (∀ other, other ≠ worker → s.progress other ≠ .noKeys))
  | .queryConf worker =>
    inferInstanceAs (Decidable (∀ other, other ≠ worker → s.progress other ≠ .noConf))
  | .insertKeys _ _ _ | .insertConf _ _ => inferInstanceAs (Decidable True)

instance (s : KeyState Worker) : ∀ event, Decidable (Kept s event)
  | .insertConf worker confKey =>
    inferInstanceAs (Decidable (s.progress worker = .noConf → SevenBit confKey))
  | .queryKeys _ | .insertKeys _ _ _ | .queryConf _ => inferInstanceAs (Decidable True)

section
omit [DecidableEq Worker]

private theorem keyPhase_eq_absent {progress : Progress} {postman : Postman} :
    keyPhase progress postman = .absent ↔ progress = .noKeys := by
  cases progress <;> simp [keyPhase]

private theorem confPhase_eq_absent {progress : Progress} {postman : Postman} :
    confPhase progress postman = .absent ↔ progress = .noConf := by
  cases progress <;> simp [confPhase]

end

private theorem slotOf_set {Key : Type} (phase : Progress → Postman → Phase Key)
    (s : KeyState Worker)
    (worker : Worker) (progress : Progress) (postman : Postman) (stored : List Key) :
    slotOf phase (s.set worker progress postman) stored =
      ⟨stored, Function.update (slotOf phase s stored).phase worker (phase progress postman)⟩ := by
  rw [slotOf, Slot.mk.injEq]
  refine ⟨rfl, ?_⟩
  ext other
  by_cases same : other = worker
  · subst same
    simp only [KeyState.set, Function.update_self]
  · simp only [KeyState.set, slotOf, Function.update_of_ne same]

private theorem slotOf_set_same {Key : Type} {phase : Progress → Postman → Phase Key}
    {s : KeyState Worker} {worker : Worker} {progress : Progress} {postman : Postman}
    (same : phase progress postman = phase (s.progress worker) (s.postman worker))
    (stored : List Key) :
    slotOf phase (s.set worker progress postman) stored = slotOf phase s stored := by
  rw [slotOf_set, same]
  exact congrArg (Slot.mk stored) (Function.update_eq_self worker _)

private theorem running_set {s : KeyState Worker}
    (running : ∀ worker, s.progress worker ≠ .failed)
    {worker : Worker} {progress : Progress} (runs : progress ≠ .failed) :
    ∀ other, Function.update s.progress worker progress other ≠ .failed := by
  intro other
  by_cases same : other = worker
  · subst same
    rwa [Function.update_self]
  · rw [Function.update_of_ne same]
    exact running other

/-- A step after which the collections hold these keys moves each half. -/
structure Refines (copy : List UInt8 → List UInt8) (s next : KeyState Worker) (kept : Prop)
    (pairs pairs' : List (Text × Text)) (confKeys confKeys' : List ZCKeypair) : Prop where
  holds : Holds copy next pairs' confKeys'
  keys : Moves id True (slotOf keyPhase s pairs) (slotOf keyPhase next pairs')
  confs : Moves (readBack copy) (Copies copy ∧ kept) (slotOf confPhase s confKeys)
    (slotOf confPhase next confKeys')

section
variable {copy : List UInt8 → List UInt8} {s : KeyState Worker} {pairs : List (Text × Text)}
  {confKeys : List ZCKeypair}

private theorem Holds.rest (holds : Holds copy s pairs confKeys) (kept : Prop) :
    Refines copy s s kept pairs pairs confKeys confKeys :=
  ⟨holds, Or.inl rfl, Or.inl rfl⟩

private theorem Holds.set (holds : Holds copy s pairs confKeys) {worker : Worker}
    {progress : Progress}
    (runs : Copies copy → progress ≠ .failed) (postman : Postman) :
    Holds copy (s.set worker progress postman) pairs confKeys :=
  ⟨holds.keypairs, holds.confKeypairs, fun copies =>
    running_set (holds.running copies) (runs copies)⟩

private theorem Holds.queryKeys (holds : Holds copy s pairs confKeys) (worker : Worker)
    (quiet : Quiet s (.queryKeys worker)) (kept : Prop) :
    Refines copy s (keyStep copy s (.queryKeys worker)) kept pairs pairs confKeys confKeys := by
  -- the query moves the first half, and the worker leaves the second one
  by_cases busy : s.progress worker = .noKeys ∨ s.progress worker = .noConf
  · rw [keyStep, if_pos busy]
    exact holds.rest kept
  · have undisturbed : Undisturbed (slotOf keyPhase s pairs) (.query worker) := by
      intro other different absent
      exact quiet other different (keyPhase_eq_absent.mp absent)
    rw [keyStep, if_neg busy, holds.keypairs, mapM_readKeypair]
    cases pairs with
    | nil =>
      refine ⟨holds.set (fun _ => by decide) _,
        Or.inr ⟨.query worker, undisturbed, fun _ => trivial, ?_⟩,
        Or.inr ⟨.leave worker, trivial, fun _ => trivial, ?_⟩⟩
      · exact slotOf_set ..
      · exact slotOf_set ..
    | cons pair rest =>
      refine ⟨holds.set (fun _ => by decide) _,
        Or.inr ⟨.query worker, undisturbed, fun _ => trivial, ?_⟩,
        Or.inr ⟨.leave worker, trivial, fun _ => trivial, ?_⟩⟩
      · exact slotOf_set ..
      · exact slotOf_set ..

private theorem Holds.insertKeys (holds : Holds copy s pairs confKeys) (worker : Worker)
    (publicKey secretKey : Text) (kept : Prop) :
    ∃ pairs', Refines copy s (keyStep copy s (.insertKeys worker publicKey secretKey)) kept pairs
      pairs' confKeys confKeys := by
  by_cases found : s.progress worker = .noKeys
  · refine ⟨pairs ++ [(publicKey, secretKey)], ?_⟩
    rw [keyStep, if_pos found]
    refine ⟨⟨?_, holds.confKeypairs, fun copies => running_set (holds.running copies) (by decide)⟩,
      Or.inr ⟨.insert worker (publicKey, secretKey), trivial, fun _ _ => rfl, ?_⟩, Or.inl ?_⟩
    · rw [List.map_append, ← holds.keypairs]
      rfl
    · rw [step_insert (keyPhase_eq_absent.mpr found)]
      exact slotOf_set ..
    · apply slotOf_set_same
      rw [found]
      rfl
  · refine ⟨pairs, ?_⟩
    rw [keyStep, if_neg found]
    exact holds.rest kept

private theorem Holds.queryConf (holds : Holds copy s pairs confKeys) (worker : Worker)
    (quiet : Quiet s (.queryConf worker)) (kept : Prop) :
    Refines copy s (keyStep copy s (.queryConf worker)) kept pairs pairs confKeys confKeys := by
  by_cases ready : s.progress worker = .haveKeys
  · have undisturbed : Undisturbed (slotOf confPhase s confKeys) (.query worker) := by
      intro other different absent
      exact quiet other different (confPhase_eq_absent.mp absent)
    rw [keyStep, if_pos ready, holds.confKeypairs]
    cases read : (confKeys.map (confDocument copy)).mapM readConfKeypair with
    | error message =>
      -- the exception ends the worker's run, in both halves
      refine ⟨holds.set (fun copies => ?_) _,
        Or.inr ⟨.leave worker, trivial, fun _ => trivial, slotOf_set ..⟩,
        Or.inr ⟨.leave worker, trivial, fun _ => trivial, slotOf_set ..⟩⟩
      rw [mapM_readConfKeypair copies] at read
      cases read
    | ok found =>
      rw [eq_readBack_of_mapM read]
      cases confKeys with
      | nil =>
        refine ⟨holds.set (fun _ => by decide) _, Or.inl (slotOf_set_same ?_ _),
          Or.inr ⟨.query worker, undisturbed, fun _ => trivial, ?_⟩⟩
        · rw [ready]
          rfl
        · exact slotOf_set ..
      | cons confKey rest =>
        refine ⟨holds.set (fun _ => by decide) _, Or.inl (slotOf_set_same ?_ _),
          Or.inr ⟨.query worker, undisturbed, fun _ => trivial, ?_⟩⟩
        · rw [ready]
          rfl
        · exact slotOf_set ..
  · rw [keyStep, if_neg ready]
    exact holds.rest kept

private theorem Holds.insertConf (holds : Holds copy s pairs confKeys) (worker : Worker)
    (confKey : ZCKeypair) :
    ∃ confKeys', Refines copy s (keyStep copy s (.insertConf worker confKey))
      (Kept s (.insertConf worker confKey)) pairs pairs confKeys confKeys' := by
  by_cases found : s.progress worker = .noConf
  · refine ⟨confKeys ++ [confKey], ?_⟩
    rw [keyStep, if_pos found]
    refine ⟨⟨holds.keypairs, ?_, fun copies => running_set (holds.running copies) (by decide)⟩,
      Or.inl ?_, Or.inr ⟨.insert worker confKey, trivial,
        fun kept _ => readBack_of_sevenBit kept.1 (kept.2 found), ?_⟩⟩
    · rw [List.map_append, ← holds.confKeypairs]
      rfl
    · apply slotOf_set_same
      rw [found]
      rfl
    · rw [step_insert (confPhase_eq_absent.mpr found)]
      exact slotOf_set ..
  · refine ⟨confKeys, ?_⟩
    rw [keyStep, if_neg found]
    exact holds.rest _

private theorem Holds.step (holds : Holds copy s pairs confKeys) {event : KeyEvent Worker}
    (quiet : Quiet s event) :
    ∃ pairs' confKeys', Refines copy s (keyStep copy s event) (Kept s event) pairs pairs' confKeys
      confKeys' := by
  -- a quiet step of the runs moves each of the two halves
  cases event with
  | queryKeys worker => exact ⟨pairs, confKeys, holds.queryKeys worker quiet _⟩
  | insertKeys worker publicKey secretKey =>
    obtain ⟨pairs', refines⟩ := holds.insertKeys worker publicKey secretKey
      (Kept s (.insertKeys worker publicKey secretKey))
    exact ⟨pairs', confKeys, refines⟩
  | queryConf worker => exact ⟨pairs, confKeys, holds.queryConf worker quiet _⟩
  | insertConf worker confKey =>
    obtain ⟨confKeys', refines⟩ := holds.insertConf worker confKey
    exact ⟨pairs, confKeys', refines⟩

end

/-! One identity. -/

def Progress.hasKeys : Progress → Bool
  | .idle | .noKeys | .failed => false
  | .haveKeys | .noConf | .finished => true

/-- One key pair and one confidential key pair at most are stored, and every worker that
has its key pair has the stored one. -/
structure OneIdentity (s : KeyState Worker) : Prop where
  keypairs : s.keypairs.length ≤ 1
  confKeypairs : s.confKeypairs.length ≤ 1
  same : ∀ worker, (s.progress worker).hasKeys →
    s.keypairs.mapM readKeypair = .ok [((s.postman worker).publicKey, (s.postman worker).secretKey)]

def SameConf (s : KeyState Worker) : Prop :=
  ∀ worker, s.progress worker = .finished →
    s.confKeypairs.mapM readConfKeypair = .ok [(s.postman worker).confKey]

/-- The wallet is empty and no run has begun. -/
structure Fresh (s : KeyState Worker) : Prop where
  keypairs : s.keypairs = []
  confKeypairs : s.confKeypairs = []
  idle : ∀ worker, s.progress worker = .idle

/-- What quiet runs keep; the last part needs `kept`, and that bytes are copied. -/
structure Sound (copy : List UInt8 → List UInt8) (kept : Prop) (s : KeyState Worker)
    (pairs : List (Text × Text)) (confKeys : List ZCKeypair) : Prop where
  holds : Holds copy s pairs confKeys
  singleKeys : Single (slotOf keyPhase s pairs)
  agreedKeys : Agreed id (slotOf keyPhase s pairs)
  singleConfs : Single (slotOf confPhase s confKeys)
  agreedConfs : Copies copy ∧ kept → Agreed (readBack copy) (slotOf confPhase s confKeys)

section
variable {copy : List UInt8 → List UInt8} {kept : Prop} {s : KeyState Worker}
  {pairs : List (Text × Text)} {confKeys : List ZCKeypair}

private theorem Sound.step (sound : Sound copy kept s pairs confKeys) {event : KeyEvent Worker}
    (quiet : Quiet s event) (keeps : kept → Kept s event) :
    ∃ pairs' confKeys', Sound copy kept (keyStep copy s event) pairs' confKeys' := by
  obtain ⟨pairs', confKeys', holds, keys, confs⟩ := sound.holds.step quiet
  refine ⟨pairs', confKeys', holds, sound.singleKeys.moves keys, ?_,
    sound.singleConfs.moves confs, ?_⟩
  · exact sound.agreedKeys.moves sound.singleKeys trivial keys
  · rintro ⟨copies, isKept⟩
    exact (sound.agreedConfs ⟨copies, isKept⟩).moves sound.singleConfs
      ⟨copies, keeps isKept⟩ confs

private theorem Sound.run (sound : Sound copy kept s pairs confKeys)
    {events : List (KeyEvent Worker)}
    (quiet : Along (keyStep copy) Quiet s events)
    (keeps : kept → Along (keyStep copy) Kept s events) :
    ∃ pairs' confKeys', Sound copy kept (run (keyStep copy) s events) pairs' confKeys' := by
  have along : Along (keyStep copy) (fun s event => Quiet s event ∧ (kept → Kept s event)) s
      events := by
    rw [along_iff_split] at quiet ⊢
    intro front event back split
    refine ⟨quiet front event back split, ?_⟩
    intro isKept
    exact along_iff_split.mp (keeps isKept) front event back split
  apply invariant_along (fun s => ∃ pairs confKeys, Sound copy kept s pairs confKeys) _ _ along
  · rintro s event ⟨pairs, confKeys, sound⟩ ⟨quiet, keeps⟩
    exact sound.step quiet keeps
  · exact ⟨pairs, confKeys, sound⟩

omit [DecidableEq Worker] in
private theorem Sound.oneIdentity (sound : Sound copy kept s pairs confKeys) : OneIdentity s := by
  refine ⟨?_, ?_, ?_⟩
  · rw [sound.holds.keypairs, List.length_map]
    exact sound.singleKeys.stored
  · rw [sound.holds.confKeypairs, List.length_map]
    exact sound.singleConfs.stored
  · intro worker hasKeys
    have held : keyPhase (s.progress worker) (s.postman worker) =
        .holds ((s.postman worker).publicKey, (s.postman worker).secretKey) := by
      cases progress : s.progress worker <;> rw [progress] at hasKeys
      case idle | noKeys | failed => cases hasKeys
      case haveKeys | noConf | finished => rfl
    have stored : pairs = _ := sound.agreedKeys.held worker _ held
    rw [sound.holds.keypairs, mapM_readKeypair, stored]

omit [DecidableEq Worker] in
private theorem Sound.sameConf (sound : Sound copy kept s pairs confKeys) (copies : Copies copy)
    (isKept : kept) : SameConf s := by
  intro worker finished
  have agreed := sound.agreedConfs ⟨copies, isKept⟩
  have held : confPhase (s.progress worker) (s.postman worker) =
      .holds (s.postman worker).confKey := by
    rw [finished]
    rfl
  have stored : confKeys = [_] := agreed.held worker _ held
  have readable : readBack copy (s.postman worker).confKey = (s.postman worker).confKey := by
    apply agreed.readable
    show _ ∈ confKeys
    rw [stored]
    exact List.mem_singleton_self _
  rw [sound.holds.confKeypairs, mapM_readConfKeypair copies, stored, List.map_singleton, readable]

omit [DecidableEq Worker] in
private theorem Fresh.sound (fresh : Fresh s) (copy : List UInt8 → List UInt8) (kept : Prop) :
    Sound copy kept s [] [] := by
  have keys : ∀ worker, keyPhase (s.progress worker) (s.postman worker) = .idle := by
    intro worker
    rw [fresh.idle]
    rfl
  have confs : ∀ worker, confPhase (s.progress worker) (s.postman worker) = .idle := by
    intro worker
    rw [fresh.idle]
    rfl
  refine ⟨⟨fresh.keypairs, fresh.confKeypairs, ?_⟩, ?_, ?_, ?_, ?_⟩
  · intro _ worker
    rw [fresh.idle]
    decide
  · exact single_of_idle keys
  · exact agreed_of_idle keys
  · exact single_of_idle confs
  · exact fun _ => agreed_of_idle confs

end

/-- Runs of any number of workers on an empty wallet, in which none looks for a key while
another is about to store one of the kind, leave one identity. Where the bytes of a
confidential key are copied before they are stored, no run fails, and the confidential key
is the same for all if its bytes survive the encoding. -/
theorem one_identity (copy : List UInt8 → List UInt8) (s : KeyState Worker) (fresh : Fresh s)
    (events : List (KeyEvent Worker)) (quiet : Along (keyStep copy) Quiet s events) :
    OneIdentity (run (keyStep copy) s events) ∧
      ((∀ bytes, copy bytes = bytes) →
        (∀ worker, (run (keyStep copy) s events).progress worker ≠ .failed) ∧
        (Along (keyStep copy) Kept s events → SameConf (run (keyStep copy) s events))) := by
  obtain ⟨pairs, confKeys, sound⟩ :=
    (fresh.sound copy (Along (keyStep copy) Kept s events)).run quiet (fun kept => kept)
  exact ⟨sound.oneIdentity, fun copies => ⟨sound.holds.running copies, sound.sameConf copies⟩⟩

/-- Two workers of a wallet without keys. -/
def noWallet : KeyState Bool where
  keypairs := []
  confKeypairs := []
  progress _ := .idle
  postman _ := ⟨[], [], ⟨Uint252.null⟩⟩

def firstConf : ZCKeypair where
  recipientKey := ⟨⟨0x05 :: List.replicate 31 0x11, rfl⟩, rfl⟩

def secondConf : ZCKeypair where
  recipientKey := ⟨⟨0x06 :: List.replicate 31 0x22, rfl⟩, rfl⟩

def following : List (KeyEvent Bool) :=
  [.queryKeys false, .insertKeys false [1] [2], .queryKeys true, .insertKeys true [3] [4],
    .queryConf false, .insertConf false firstConf, .queryConf true,
    .insertConf true secondConf]

theorem following_one_identity :
    (∀ worker, (run (keyStep id) noWallet following).progress worker = .finished) ∧
      OneIdentity (run (keyStep id) noWallet following) ∧
        SameConf (run (keyStep id) noWallet following) := by
  have identity := one_identity id noWallet ⟨rfl, rfl, fun _ => rfl⟩ following (by decide)
  exact ⟨by decide, identity.1, (identity.2 fun _ => rfl).2 (by decide)⟩

/-- The second worker looks for the keys before the first has stored its own. -/
def overtaking : List (KeyEvent Bool) :=
  [.queryKeys false, .queryKeys true, .insertKeys false [1] [2], .insertKeys true [3] [4],
    .queryConf false, .queryConf true, .insertConf false firstConf,
    .insertConf true secondConf]

/-- Both workers store their keys and keep them. -/
theorem overtaking_two_identities :
    (run (keyStep id) noWallet overtaking).keypairs.length = 2 ∧
      (run (keyStep id) noWallet overtaking).confKeypairs.length = 2 ∧
      ((run (keyStep id) noWallet overtaking).postman false).publicKey ≠
        ((run (keyStep id) noWallet overtaking).postman true).publicKey ∧
      ((run (keyStep id) noWallet overtaking).postman false).confKey ≠
        ((run (keyStep id) noWallet overtaking).postman true).confKey ∧
      ¬ ∀ events, OneIdentity (run (keyStep id) noWallet events) := by
  have stored : (run (keyStep id) noWallet overtaking).keypairs.length = 2 := by decide
  refine ⟨stored, by decide, by decide, by decide, ?_⟩
  intro all
  have one := (all overtaking).keypairs
  rw [stored] at one
  exact absurd one (by decide)

end CbDaemon.Concurrency.KeyInterleaving
