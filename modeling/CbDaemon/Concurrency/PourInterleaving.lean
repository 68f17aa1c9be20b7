/- module: CbDaemon/Concurrency/PourInterleaving
   source: src/cblib/request_methods.cpp, src/cblib/account.cpp
   digest: Which interleavings of a pour with other clients' transactions it survives. -/

import CbDaemon.JoinSplit.Outcome
import CbDaemon.Requests.Pour
import CbDaemon.Wallet.HonestServer

set_option autoImplicit false
set_option relaxedAutoImplicit false

namespace CbDaemon.Concurrency.PourInterleaving
open Base.Run Base.Sorting
open Codec.Integer Codec.Json
open Merkle.PerfectTree Merkle.IncrementalTree
open Wallet.Notes Wallet.Sync Wallet.Witness Wallet.HonestServer
open JoinSplit.Prove JoinSplit.Creator JoinSplit.Calls JoinSplit.Outcome
open Requests.Balance Requests.Admission Requests.Pour

/-- One pour among the transactions of other clients: the server's notes at the
moment of each of its requests, the answers to `get_notes` in the order of their
arrival, and the other answers. -/
structure Activity (Hash : Type) where
  atFirstSync : List (NoteCiphertext Hash)
  firstResponse : List (NoteCiphertext Hash)
  atBalance : List (NoteCiphertext Hash)
  balanceResponse : List (NoteCiphertext Hash)
  accounts : Option (List (Account Hash))
  balancePurge : Delete
  atRoot : List (NoteCiphertext Hash)
  merkleRoot : Hash
  engine : Except String Unit
  purge : Delete
  submitted : Response
  atFinalSync : List (NoteCiphertext Hash)
  finalResponse : List (NoteCiphertext Hash)

/-- A reply to `get_notes`; every write of the wallet succeeds. -/
def notesCall {Hash : Type} (response : List (NoteCiphertext Hash)) : Call Hash :=
  ⟨.successful (response.map some), .none⟩

def Activity.meeting {Hash : Type} (activity : Activity Hash) : Meeting Hash where
  firstSync := .ok (notesCall activity.firstResponse)
  balanceSync := .ok (notesCall activity.balanceResponse)
  accounts := .ok activity.accounts
  balancePurge := activity.balancePurge
  root := .ok (.successful activity.merkleRoot)
  engine := activity.engine.mapError fun message => .stopped (.threw message)
  purge := activity.purge
  submitted := .ok activity.submitted
  finalSync := .ok (notesCall activity.finalResponse)

section

variable {Hash : Type} [TreeHash Hash]

def serverRoot (notes : List (NoteCiphertext Hash)) : Except String Hash :=
  (IncrementalMerkleTree.empty.appendAll treeDepth (notes.map (·.noteCommitment))).map
    (·.root treeDepth)

/-- The server only appends, numbers its notes, and answers each request from the
notes it has at that moment. -/
structure Activity.Honest (activity : Activity Hash) (store : Store Hash) : Prop where
  start : store.notes <+: activity.atFirstSync
  growsToBalance : activity.atFirstSync <+: activity.atBalance
  growsToRoot : activity.atBalance <+: activity.atRoot
  growsToFinal : activity.atRoot <+: activity.atFinalSync
  heights : Contiguous activity.atFinalSync
  firstReply : activity.firstResponse.Perm
    (activity.atFirstSync.filter (latestHeight store.notes < ·.noteHeight))
  balanceReply : activity.balanceResponse.Perm
    (activity.atBalance.filter (latestHeight activity.atFirstSync < ·.noteHeight))
  rootReply : serverRoot activity.atRoot = .ok activity.merkleRoot
  finalReply : activity.finalResponse.Perm
    (activity.atFinalSync.filter (latestHeight activity.atBalance < ·.noteHeight))

/-- A posted transaction is anchored at the root of the local notes, and without
one the response has failed. -/
def Sound (finished : Finished Hash) : Prop :=
  match finished.posted with
  | some (made, notes) =>
    ∃ tree, getMerkle notes = .ok tree ∧ AnchoredAt (tree.root treeDepth) made
  | none => finished.response.result = .string (ascii "failed")

variable [DecidableEq Hash]

/-- The pour comes to an end, and never to another one than a sound response. -/
def Survives (setting : Setting Hash) (given : Option (PourParameters Hash)) (meeting : Meeting Hash)
    (store : Store Hash) : Prop :=
  (∃ fuel, pour setting fuel given meeting store ≠ .error .running) ∧
    ∀ fuel, pour setting fuel given meeting store = .error .running ∨
      ∃ finished, pour setting fuel given meeting store = .ok finished ∧ Sound finished

/-- The wallet after the two synchronisations that precede the root request. -/
def synced (setting : Setting Hash) (activity : Activity Hash) (store : Store Hash) : Store Hash :=
  run (syncStep setting.heightSort setting.keys) store
    [notesCall activity.firstResponse, notesCall activity.balanceResponse]

end

/-! The handler against an honest server, stage by stage. -/

section

variable {Hash : Type} [TreeHash Hash] [DecidableEq Hash] {setting : Setting Hash}
  {activity : Activity Hash} {store : Store Hash}

omit [TreeHash Hash] in
private theorem sync_eq {call : Call Hash} {state : Bool} {next : Store Hash}
    (returned : updateNoteRepository setting.heightSort setting.keys call store =
      .ok (state, next)) : Requests.Pour.sync setting (.ok call) store = .ok next := by
  simp only [Requests.Pour.sync, bind, Except.bind, returned]

omit [TreeHash Hash] in
private theorem sync_notesCall {server response : List (NoteCiphertext Hash)}
    (tracks : Tracks server store) (sorting : HeightSort Hash) (keys : WalletKeys Hash)
    (honest : response.Perm (server.filter (latestHeight store.notes < ·.noteHeight))) :
    (∃ state, updateNoteRepository sorting keys (notesCall response) store =
        .ok (state, syncStep sorting keys store (notesCall response))) ∧
      (syncStep sorting keys store (notesCall response)).notes = server ∧
      Tracks server (syncStep sorting keys store (notesCall response)) :=
  tracks.sync sorting keys honest rfl rfl

omit [DecidableEq Hash] in
private theorem Activity.Honest.tracks (honest : activity.Honest store) :
    Tracks activity.atFirstSync store :=
  ⟨honest.heights.of_prefix
    ((honest.growsToBalance.trans honest.growsToRoot).trans honest.growsToFinal), honest.start⟩

/-- Both synchronisations return, and the wallet has the server's notes of the
second one. -/
private theorem Activity.Honest.synced (honest : activity.Honest store) (setting : Setting Hash) :
    Requests.Pour.sync setting activity.meeting.firstSync store =
        .ok (syncStep setting.heightSort setting.keys store (notesCall activity.firstResponse)) ∧
      (∃ state, updateNoteRepository setting.heightSort setting.keys
        (notesCall activity.balanceResponse)
        (syncStep setting.heightSort setting.keys store (notesCall activity.firstResponse)) =
          .ok (state, PourInterleaving.synced setting activity store)) ∧
      (PourInterleaving.synced setting activity store).notes = activity.atBalance ∧
      Tracks activity.atBalance (PourInterleaving.synced setting activity store) := by
  obtain ⟨⟨_, returned⟩, notes, tracks⟩ :=
    sync_notesCall honest.tracks setting.heightSort setting.keys honest.firstReply
  have later := honest.growsToRoot.trans honest.growsToFinal
  have grown := tracks.grow honest.growsToBalance (honest.heights.of_prefix later)
  have reply := honest.balanceReply
  rw [← notes] at reply
  obtain ⟨again, notes', tracks'⟩ :=
    sync_notesCall grown setting.heightSort setting.keys reply
  exact ⟨sync_eq returned, again, notes', tracks'⟩

private theorem Activity.Honest.finalSync (honest : activity.Honest store) (setting : Setting Hash)
    {later : Store Hash} (tracks : Tracks activity.atBalance later) (notes : later.notes = activity.atBalance) :
    ∃ final, Requests.Pour.sync setting activity.meeting.finalSync later = .ok final := by
  have grown := tracks.grow (honest.growsToRoot.trans honest.growsToFinal) honest.heights
  have reply := honest.finalReply
  rw [← notes] at reply
  obtain ⟨⟨_, returned⟩, _⟩ := sync_notesCall grown setting.heightSort setting.keys reply
  exact ⟨_, sync_eq returned⟩

omit [TreeHash Hash] [DecidableEq Hash] in
private theorem afterCreator_notes (purge : Delete) (value : Int64) (store : Store Hash) :
    (afterCreator purge value store).notes = store.notes := by
  rw [afterCreator]
  split <;> rfl

omit [DecidableEq Hash] in
private theorem Activity.Honest.localTree (honest : activity.Honest store) :
    ∃ tree, getMerkle activity.atBalance = .ok tree ∧
      serverRoot activity.atBalance = .ok (tree.root treeDepth) ∧
      activity.atBalance.length ≤ 2 ^ treeDepth := by
  have later := honest.growsToRoot.trans honest.growsToFinal
  have bound : activity.atRoot.length ≤ 2 ^ treeDepth := by
    have root := honest.rootReply
    rw [serverRoot] at root
    cases appended : IncrementalMerkleTree.empty.appendAll treeDepth
        (activity.atRoot.map (·.noteCommitment)) with
    | error message =>
      rw [appended] at root
      cases root
    | ok tree =>
      have fits := (holds_empty.fits_of_appendAll treeDepth_pos (Nat.zero_le _) appended).1
      simpa using fits
  have fits := honest.growsToRoot.length_le.trans bound
  obtain ⟨tree, appended, _⟩ := holds_empty.appendAll treeDepth_pos
    (activity.atBalance.map (·.noteCommitment)) (by simpa using fits)
  refine ⟨tree, ?_, ?_, fits⟩
  · rw [getMerkle_eq (honest.heights.of_prefix later), appended]
  · rw [serverRoot, appended]
    rfl

end

/-! An admitted pour. -/

section

variable {Hash : Type} [TreeHash Hash] [DecidableEq Hash] {setting : Setting Hash}
  {activity : Activity Hash} {store later : Store Hash} {given : PourParameters Hash} {value : Int32}

private theorem transfer_eq (fit : Fit given) (made : activity.engine = .ok ()) (fuel : Nat) :
    transfer setting fuel given value activity.meeting later =
      conclude setting value activity.meeting later
        (joinsplitCreator (creatorRequest setting activity.merkleRoot given later)
          setting.valueSort activity.purge fuel value.toInt64 later.userNotes) := by
  have engine : activity.meeting.engine = .ok () := by
    rw [Activity.meeting, made]
    rfl
  rw [transfer_successful fit rfl fuel, engine]
  rfl

private theorem transfer_of_no_engine (fit : Fit given) {message : String}
    (failed : activity.engine = .error message) (fuel : Nat) :
    transfer setting fuel given value activity.meeting later =
      .error (.stopped (.threw message)) := by
  have engine : activity.meeting.engine = .error (.stopped (.threw message)) := by
    rw [Activity.meeting, failed]
    rfl
  rw [transfer_successful fit rfl fuel, engine]
  rfl

private theorem transfer_aborted (fit : Fit given) (made : activity.engine = .ok ())
    (honest : activity.Honest store) (notes : later.notes = activity.atBalance)
    (moved : serverRoot activity.atRoot ≠ serverRoot activity.atBalance) (fuel : Nat) :
    transfer setting fuel given value activity.meeting later =
      .error (.stopped (.halted .aborted)) := by
  obtain ⟨tree, rebuilt, root, _⟩ := honest.localTree
  have other : activity.merkleRoot ≠ tree.root treeDepth := by
    intro same
    apply moved
    rw [honest.rootReply, root, same]
  have aborted : joinsplitCreator (creatorRequest setting activity.merkleRoot given later)
      setting.valueSort activity.purge fuel value.toInt64 later.userNotes = .aborted := by
    apply joinsplitCreator_aborted _ other
    change getMerkle later.notes = _
    rw [notes]
    exact rebuilt
  rw [transfer_eq fit made, aborted]
  rfl

omit [DecidableEq Hash] in
private theorem creatorRequest_current (honest : activity.Honest store)
    (tracks : Tracks activity.atBalance later) (notes : later.notes = activity.atBalance)
    (same : serverRoot activity.atRoot = serverRoot activity.atBalance) :
    Rebuilds (creatorRequest setting activity.merkleRoot given later) ∧
      RootCurrent (creatorRequest setting activity.merkleRoot given later) := by
  obtain ⟨tree, rebuilt, root, fits⟩ := honest.localTree
  have current : activity.merkleRoot = tree.root treeDepth := by
    rw [honest.rootReply, root] at same
    exact Except.ok.inj same
  refine ⟨⟨?_, ?_⟩, tree, ?_, current⟩
  · show Contiguous later.notes
    rw [notes]
    exact tracks.contiguous
  · show later.notes.length ≤ _
    rw [notes]
    exact fits
  · show getMerkle later.notes = _
    rw [notes]
    exact rebuilt

private theorem transfer_of_returned (fit : Fit given) (engine : activity.engine = .ok ())
    (honest : activity.Honest store) (tracks : Tracks activity.atBalance later)
    (notes : later.notes = activity.atBalance)
    (current : RootCurrent (creatorRequest setting activity.merkleRoot given later))
    {fuel : Nat} {success : Bool} {made : List (JSDescription Hash)}
    (returned : joinsplitCreator (creatorRequest setting activity.merkleRoot given later)
      setting.valueSort activity.purge fuel value.toInt64 later.userNotes =
        .returned success made) :
    ∃ finished, transfer setting fuel given value activity.meeting later = .ok finished ∧
      Sound finished := by
  -- what follows a creator that has returned is a sound response
  have kept := afterCreator_notes activity.purge value.toInt64 later
  have after : Tracks activity.atBalance (afterCreator activity.purge value.toInt64 later) := by
    refine ⟨tracks.contiguous, ?_⟩
    rw [kept]
    exact tracks.stored
  obtain ⟨final, synced⟩ := honest.finalSync setting after (kept.trans notes)
  change Requests.Pour.sync setting (.ok (notesCall activity.finalResponse)) _ = _ at synced
  obtain ⟨tree, rebuilt, root⟩ := current
  have anchored := anchoredAt_joinsplitCreator returned
  rw [transfer_eq fit engine, returned]
  cases success with
  | true =>
    refine ⟨⟨activity.submitted, some (made, later.notes), final, true⟩,
      by simp only [Activity.meeting, conclude, bind, Except.bind, synced]; rfl, tree, rebuilt, ?_⟩
    rw [← root]
    exact anchored
  | false =>
    exact ⟨⟨failure "creating joinsplits failed.", none, final, true⟩,
      by simp only [Activity.meeting, conclude, bind, Except.bind, synced]; rfl, rfl⟩

private theorem transfer_survives (fit : Fit given) (engine : activity.engine = .ok ())
    (honest : activity.Honest store) (tracks : Tracks activity.atBalance later)
    (notes : later.notes = activity.atBalance)
    (readable : ∀ doc ∈ later.userNotes, 0 < doc.noteHeight → doc.Readable)
    (same : serverRoot activity.atRoot = serverRoot activity.atBalance) (value : Int32) :
    (∀ fuel, transfer setting fuel given value activity.meeting later = .error .running ∨
        ∃ finished, transfer setting fuel given value activity.meeting later = .ok finished ∧
          Sound finished) ∧
      ((∃ fuel, transfer setting fuel given value activity.meeting later ≠ .error .running) ↔
        CallEnds setting.valueSort activity.purge value.toInt64 later.userNotes) := by
  obtain ⟨rebuilds, current⟩ := creatorRequest_current honest tracks notes same
  have cases := joinsplitCreator_cases rebuilds current readable setting.valueSort
    activity.purge value.toInt64
  have running : ∀ {fuel}, joinsplitCreator (creatorRequest setting activity.merkleRoot given
      later) setting.valueSort activity.purge fuel value.toInt64 later.userNotes = .running →
      transfer setting fuel given value activity.meeting later = .error .running := by
    intro fuel runs
    rw [transfer_eq fit engine, runs]
    rfl
  constructor
  · intro fuel
    rcases cases fuel with runs | ⟨success, made, returned⟩
    · exact .inl (running runs)
    · exact .inr (transfer_of_returned fit engine honest tracks notes current returned)
  · rw [← joinsplitCreator_ends_iff rebuilds current readable setting.valueSort
      activity.purge value.toInt64]
    apply exists_congr
    intro fuel
    rcases cases fuel with runs | ⟨success, made, returned⟩
    · simp [runs, running runs]
    · obtain ⟨finished, ended, _⟩ :=
        transfer_of_returned fit engine honest tracks notes current returned
      simp [returned, ended]

end

section

variable {Hash : Type} [TreeHash Hash] [DecidableEq Hash] {setting : Setting Hash}
  {activity : Activity Hash} {store : Store Hash}

/-- What an admitted pour meets: its `ServerEngine` is made, the root is still that of
the notes last synchronised, and the loop ends. -/
def Quiet (setting : Setting Hash) (given : PourParameters Hash) (activity : Activity Hash)
    (docs : List (UserNote Hash)) : Prop :=
  activity.engine = .ok () ∧ serverRoot activity.atRoot = serverRoot activity.atBalance ∧
    CallEnds setting.valueSort activity.purge (fromValue given).toInt64 docs

/-- Nothing throws before the root request, and nothing disturbs what follows it. -/
def Undisturbed (setting : Setting Hash) (given : PourParameters Hash) (activity : Activity Hash)
    (docs : List (UserNote Hash)) : Prop :=
  Fit given ∧ ∀ accounts, activity.accounts = some accounts →
    Countable activity.balancePurge docs ∧ ∀ report rest,
      balances setting.outside activity.balancePurge accounts docs = .ok (report, rest) →
        Legible given report ∧ (Passes given report → Quiet setting given activity rest)

private theorem pour_eq (setting : Setting Hash) (honest : activity.Honest store)
    (given : PourParameters Hash) (fuel : Nat) :
    pour setting fuel (some given) activity.meeting store =
      if Fit given then
        match activity.accounts with
        | none => .ok ⟨failure "getting registered accounts failed.", none,
            synced setting activity store, false⟩
        | some accounts =>
          match balances setting.outside activity.balancePurge accounts
              (synced setting activity store).userNotes with
          | .error message => .error (.stopped (.threw message))
          | .ok (report, docs) =>
            match checks (fromValue given) given.txValueTo given.txValueFrom
                given.noteValueTo report.notesBalance report.transparentBalance with
            | .error _ => .error (.stopped (.threw "stoi"))
            | .ok (.failed description) => .ok ⟨failure description, none,
                { synced setting activity store with userNotes := docs }, false⟩
            | .ok (.admitted value) => transfer setting fuel given value activity.meeting
                { synced setting activity store with userNotes := docs }
      else .error (.stopped (.threw "stoi")) := by
  obtain ⟨first, ⟨state, second⟩, _⟩ := honest.synced setting
  rw [pour, first, noteValueFrom_amounts]
  by_cases fit : Fit given
  · have again := sync_eq second
    rw [if_pos fit, if_pos fit]
    simp only [balance, getBalance, Activity.meeting, orThrow, bind, Except.bind, Except.mapError,
      second, again]
    cases activity.accounts with
    | none => rfl
    | some accounts =>
      dsimp only
      cases balances setting.outside activity.balancePurge accounts
          (synced setting activity store).userNotes with
      | error message => rfl
      | ok result =>
        dsimp only
        cases checks (fromValue given) given.txValueTo given.txValueFrom
            given.noteValueTo result.1.notesBalance result.1.transparentBalance with
        | error _ => rfl
        | ok decision =>
          cases decision with
          | failed description => rfl
          | admitted value => rfl
  · rw [if_neg fit, if_neg fit]
    rfl

private theorem pour_admitted (honest : activity.Honest store) {given : PourParameters Hash}
    {accounts : List (Account Hash)} {report : Balances} {rest : List (UserNote Hash)}
    (fit : Fit given) (listed : activity.accounts = some accounts)
    (reported : balances setting.outside activity.balancePurge accounts
      (synced setting activity store).userNotes = .ok (report, rest))
    (legible : Legible given report) (passes : Passes given report) (fuel : Nat) :
    pour setting fuel (some given) activity.meeting store =
      transfer setting fuel given (fromValue given) activity.meeting
        { synced setting activity store with userNotes := rest } := by
  rw [pour_eq setting honest, if_pos fit]
  simp only [listed, reported]
  rcases checks_cases fit report with ⟨illegible, _⟩ | ⟨_, short, _⟩ | ⟨_, _, decided⟩
  · exact absurd legible illegible
  · exact absurd passes short
  · simp only [decided]

private theorem survives_of_finished {parameters : Option (PourParameters Hash)}
    {meeting : Meeting Hash}
    {finished : Finished Hash}
    (always : ∀ fuel, pour setting fuel parameters meeting store = .ok finished)
    (sound : Sound finished) : Survives setting parameters meeting store := by
  constructor
  · exact ⟨0, by simp [always]⟩
  · exact fun fuel => .inr ⟨finished, always fuel, sound⟩

private theorem not_survives_of_stopped {parameters : Option (PourParameters Hash)}
    {meeting : Meeting Hash} {stop : Stop}
    (always : ∀ fuel, pour setting fuel parameters meeting store = .error (.stopped stop)) :
    ¬ Survives setting parameters meeting store := by
  rintro ⟨_, each⟩
  rcases each 0 with runs | ⟨finished, returned, _⟩
  · simp [always] at runs
  · simp [always] at returned

omit [DecidableEq Hash] in
private theorem undisturbed_reported {given : PourParameters Hash}
    {docs rest : List (UserNote Hash)}
    {accounts : List (Account Hash)} {report : Balances} (fit : Fit given)
    (listed : activity.accounts = some accounts)
    (countable : Countable activity.balancePurge docs)
    (reported : balances setting.outside activity.balancePurge accounts docs =
      .ok (report, rest)) :
    Undisturbed setting given activity docs ↔
      Legible given report ∧ (Passes given report → Quiet setting given activity rest) := by
  constructor
  · rintro ⟨_, each⟩
    exact (each accounts listed).2 report rest reported
  · intro holds
    refine ⟨fit, fun others same => ?_⟩
    rw [listed, Option.some.injEq] at same
    rw [← same, reported]
    refine ⟨countable, fun _ _ result => ?_⟩
    cases result
    exact holds

private theorem survives_transfer_iff {given : PourParameters Hash} {later : Store Hash}
    (fit : Fit given)
    (honest : activity.Honest store) (tracks : Tracks activity.atBalance later)
    (notes : later.notes = activity.atBalance)
    (readable : ∀ doc ∈ later.userNotes, 0 < doc.noteHeight → doc.Readable)
    (admitted : ∀ fuel, pour setting fuel (some given) activity.meeting store =
      transfer setting fuel given (fromValue given) activity.meeting later) :
    Survives setting (some given) activity.meeting store ↔
      Quiet setting given activity later.userNotes := by
  cases engine : activity.engine with
  | error message =>
    have stopped := not_survives_of_stopped fun fuel =>
      (admitted fuel).trans (transfer_of_no_engine fit engine fuel)
    refine iff_of_false stopped fun quiet => ?_
    rw [Quiet, engine] at quiet
    cases quiet.1
  | ok _ =>
    by_cases same : serverRoot activity.atRoot = serverRoot activity.atBalance
    · obtain ⟨each, ends⟩ := transfer_survives fit engine honest tracks notes readable same
        (fromValue given)
      simp only [Survives, admitted, Quiet]
      exact ⟨fun survives => ⟨engine, same, ends.mp survives.1⟩,
        fun quiet => ⟨ends.mpr quiet.2.2, each⟩⟩
    · have stopped := not_survives_of_stopped fun fuel =>
        (admitted fuel).trans (transfer_aborted fit engine honest notes same fuel)
      exact iff_of_false stopped fun quiet => same quiet.2.1

/-- A pour among the transactions of other clients posts joinsplits anchored at
the local root or fails, if and only if it is undisturbed. -/
theorem pour_survives_iff (parameters : Option (PourParameters Hash))
    (honest : activity.Honest store) :
    Survives setting parameters activity.meeting store ↔
      ∀ given, parameters = some given →
        Undisturbed setting given activity (synced setting activity store).userNotes := by
  cases parameters with
  | none =>
    have refused : Survives setting none activity.meeting store :=
      survives_of_finished (fun _ => rfl) rfl
    simp [refused]
  | some given =>
    obtain ⟨_, _, notes, tracks⟩ := honest.synced setting
    have run := pour_eq setting honest given
    simp only [Option.some.injEq, forall_eq']
    by_cases fit : Fit given
    · simp only [if_pos fit] at run
      cases listed : activity.accounts with
      | none =>
        simp only [listed] at run
        exact iff_of_true (survives_of_finished run rfl) ⟨fit, by simp [listed]⟩
      | some accounts =>
        simp only [listed] at run
        rcases balances_cases setting.outside activity.balancePurge accounts
            (synced setting activity store).userNotes with
          ⟨countable, reported⟩ | ⟨uncountable, message, failed⟩
        · simp only [reported] at run
          rw [undisturbed_reported fit listed countable reported]
          rcases checks_cases fit (reportOf setting.outside accounts
              (purgeUserNotes activity.balancePurge (synced setting activity store).userNotes).2) with
            ⟨illegible, decided⟩ | ⟨legible, short, description, decided⟩ | ⟨legible, passes, _⟩
          · simp only [decided] at run
            exact iff_of_false (not_survives_of_stopped run) fun holds => illegible holds.1
          · simp only [decided] at run
            exact iff_of_true (survives_of_finished run rfl) ⟨legible, fun passes =>
              absurd passes short⟩
          · have admitted := pour_admitted honest fit listed reported legible passes
            have after : Tracks activity.atBalance
                { synced setting activity store with
                  userNotes := (purgeUserNotes activity.balancePurge
                    (synced setting activity store).userNotes).2 } :=
              ⟨tracks.contiguous, tracks.stored⟩
            have rest := survives_transfer_iff fit honest after notes countable.2 admitted
            exact ⟨fun survives => ⟨legible, fun _ => rest.mp survives⟩,
              fun holds => rest.mpr (holds.2 passes)⟩
        · simp only [failed] at run
          exact iff_of_false (not_survives_of_stopped run) fun undisturbed =>
            uncountable (undisturbed.2 accounts listed).1
    · simp only [if_neg fit] at run
      exact iff_of_false (not_survives_of_stopped run) fun undisturbed => fit undisturbed.1

end

/-! A wallet without notes turns 5 of its transparent balance into notes, and one with
three notes pays from them, while other clients use the server. -/

section

open Wallet.Consistency (sampleNote sampleKeys)

def sampleSetting (keys : WalletKeys (BitVec 256)) : Setting (BitVec 256) where
  keys
  prims := ⟨(·.rho), id, id, (· + ·), (· ≠ 0)⟩
  aSk := 7
  seeds _ := ⟨0, 0, 0⟩
  outputKey := 8
  heightSort := StdSort.stable _
  valueSort := StdSort.stable _
  outside _ := 0

def sampleMint : PourParameters (BitVec 256) where
  txValueTo := ascii "0"
  txValueFrom := ascii "5"
  noteValueTo := ascii "3"
  integerTo := by decide
  integerFrom := by decide
  integerNote := by decide
  destination := ⟨5, 6⟩

def samplePour : PourParameters (BitVec 256) where
  txValueTo := ascii "0"
  txValueFrom := ascii "0"
  noteValueTo := ascii "12"
  integerTo := by decide
  integerFrom := by decide
  integerNote := by decide
  destination := ⟨5, 6⟩

/-- Notes arrive before each synchronisation; `atRoot` is what the server holds
when it is asked for the root. -/
def sampleActivity (atRoot : List (NoteCiphertext (BitVec 256))) : Activity (BitVec 256) where
  atFirstSync := [sampleNote 1]
  firstResponse := [sampleNote 1]
  atBalance := [sampleNote 1, sampleNote 2, sampleNote 3]
  balanceResponse := [sampleNote 3, sampleNote 2]
  accounts := some [⟨1, Dyadic.ofInt 7⟩, ⟨2, Dyadic.ofInt 9⟩]
  balancePurge := .applied
  atRoot
  merkleRoot := (serverRoot atRoot).toOption.getD 0
  engine := .ok ()
  purge := .applied
  submitted := responseCreator true .null
  atFinalSync := [sampleNote 1, sampleNote 2, sampleNote 3, sampleNote 4]
  finalResponse := [sampleNote 4]

private theorem sampleActivity_honest {atRoot : List (NoteCiphertext (BitVec 256))}
    (grows : [sampleNote 1, sampleNote 2, sampleNote 3] <+: atRoot)
    (grows' : atRoot <+: [sampleNote 1, sampleNote 2, sampleNote 3, sampleNote 4])
    (root : (serverRoot atRoot).toOption.isSome = true) :
    (sampleActivity atRoot).Honest Store.empty where
  start := List.nil_prefix
  growsToBalance := ⟨[sampleNote 2, sampleNote 3], rfl⟩
  growsToRoot := grows
  growsToFinal := grows'
  heights := rfl
  firstReply := List.Perm.refl _
  balanceReply := List.Perm.swap _ _ _
  rootReply := by
    change serverRoot atRoot = .ok ((serverRoot atRoot).toOption.getD 0)
    cases answer : serverRoot atRoot with
    | error message =>
      rw [answer] at root
      cases root
    | ok hash => rfl
  finalReply := List.Perm.refl _

def sampleUserNotes : List (UserNote (BitVec 256)) :=
  [sampleNote 1, sampleNote 2, sampleNote 3].filterMap sampleKeys.record

/-- Nothing arrives between the balance query and the root request. -/
theorem quiet_pour_survives :
    Survives (sampleSetting foreignKeys) (some sampleMint)
        (sampleActivity [sampleNote 1, sampleNote 2, sampleNote 3]).meeting Store.empty ∧
      Survives (sampleSetting sampleKeys) (some samplePour)
        (sampleActivity [sampleNote 1, sampleNote 2, sampleNote 3]).meeting Store.empty := by
  have honest : (sampleActivity [sampleNote 1, sampleNote 2, sampleNote 3]).Honest Store.empty :=
    sampleActivity_honest (List.prefix_refl _) ⟨[sampleNote 4], rfl⟩ (by decide +kernel)
  constructor
  · have reported : balances (sampleSetting foreignKeys).outside .applied
        [⟨(1 : BitVec 256), Dyadic.ofInt 7⟩, ⟨2, Dyadic.ofInt 9⟩] [] =
          .ok (⟨16, 0, 16⟩, []) := by
      decide +kernel
    have docs : (synced (sampleSetting foreignKeys)
        (sampleActivity [sampleNote 1, sampleNote 2, sampleNote 3]) Store.empty).userNotes = [] := by
      decide +kernel
    rw [pour_survives_iff _ honest, docs]
    intro given same
    cases same
    rw [undisturbed_reported (by decide) rfl ⟨by decide, List.forall_mem_nil _⟩ reported]
    refine ⟨by decide, fun _ => ⟨rfl, rfl, fun nonneg => ?_⟩⟩
    -- the value is negative: nothing is spent
    exact absurd nonneg (by decide)
  · have reported : balances (sampleSetting sampleKeys).outside .applied
        [⟨(1 : BitVec 256), Dyadic.ofInt 7⟩, ⟨2, Dyadic.ofInt 9⟩] sampleUserNotes =
          .ok (⟨16, 15, 31⟩, sampleUserNotes) := by
      decide +kernel
    have docs : (synced (sampleSetting sampleKeys)
        (sampleActivity [sampleNote 1, sampleNote 2, sampleNote 3]) Store.empty).userNotes =
          sampleUserNotes := by
      decide +kernel
    have readable : ∀ doc ∈ sampleUserNotes, doc.Readable := by decide +kernel
    rw [pour_survives_iff _ honest, docs]
    intro given same
    cases same
    rw [undisturbed_reported (by decide) rfl
      (countable_of_readable readable (by decide)) reported]
    refine ⟨by decide, fun _ => ⟨rfl, rfl, fun _ _ found queried => ?_⟩⟩
    -- two rounds of the loop take 10 and 2
    have listed : queryUserNote 0 (purgeUserNotes .applied sampleUserNotes).2 =
        some (sampleUserNotes.map UserNote.content) := by
      decide +kernel
    change queryUserNote 0 (purgeUserNotes .applied sampleUserNotes).2 = _ at queried
    rw [listed] at queried
    cases queried
    decide +kernel

/-- A note that arrives between the balance query and the root request ends the
daemon. -/
theorem growth_before_root_aborts :
    (sampleActivity [sampleNote 1, sampleNote 2, sampleNote 3, sampleNote 4]).Honest Store.empty ∧
      (∀ fuel, pour (sampleSetting foreignKeys) fuel (some sampleMint)
        (sampleActivity [sampleNote 1, sampleNote 2, sampleNote 3, sampleNote 4]).meeting
          Store.empty = .error (.stopped (.halted .aborted))) ∧
      ¬ Survives (sampleSetting foreignKeys) (some sampleMint)
        (sampleActivity [sampleNote 1, sampleNote 2, sampleNote 3, sampleNote 4]).meeting
          Store.empty := by
  have honest : (sampleActivity [sampleNote 1, sampleNote 2, sampleNote 3, sampleNote 4]).Honest
      Store.empty :=
    sampleActivity_honest ⟨[sampleNote 4], rfl⟩ (List.prefix_refl _) (by decide +kernel)
  have reported : balances (sampleSetting foreignKeys).outside .applied
      [⟨(1 : BitVec 256), Dyadic.ofInt 7⟩, ⟨2, Dyadic.ofInt 9⟩]
      (synced (sampleSetting foreignKeys)
        (sampleActivity [sampleNote 1, sampleNote 2, sampleNote 3, sampleNote 4])
        Store.empty).userNotes = .ok (⟨16, 0, 16⟩, []) := by
    decide +kernel
  have notes := (honest.synced (sampleSetting foreignKeys)).2.2.1
  have moved : serverRoot [sampleNote 1, sampleNote 2, sampleNote 3, sampleNote 4] ≠
      serverRoot [sampleNote 1, sampleNote 2, sampleNote 3] := by
    decide +kernel
  have fit : Fit sampleMint := by decide
  have aborted : ∀ fuel, pour (sampleSetting foreignKeys) fuel (some sampleMint)
      (sampleActivity [sampleNote 1, sampleNote 2, sampleNote 3, sampleNote 4]).meeting
        Store.empty = .error (.stopped (.halted .aborted)) := by
    intro fuel
    rw [pour_admitted honest fit rfl reported (by decide) (by decide)]
    exact transfer_aborted fit rfl honest notes moved fuel
  exact ⟨honest, aborted, not_survives_of_stopped aborted⟩

end

end CbDaemon.Concurrency.PourInterleaving
