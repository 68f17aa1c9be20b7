/- module: CbDaemon/Concurrency/Isolation
   source: db/db.h, db/db.cpp
   digest: Workers on one database singleton stay apart when no other wallet is named in between. -/

import Mathlib.Data.List.Induction
import CbDaemon.Base.Run
import CbDaemon.Wallet.Notes

set_option autoImplicit false
set_option relaxedAutoImplicit false

namespace CbDaemon.Concurrency.Isolation
open Base.Run
open Wallet.Notes (Insert addRequest)

/-- `enum collection`. -/
inductive Collection where
  | accounts
  | keyPair
  | accountsTest
  | notes
  | notesTest
  | userNotes
  | confidentialKeyPair
  | userNotesTest
  deriving DecidableEq

abbrev Contents (Doc : Type) := Collection → List Doc

/-- A call on the singleton with what becomes of its write. -/
inductive Operation (Doc : Type) where
  | addRequest (collection : Collection) (doc : Doc) (outcome : Insert)
  | query (collection : Collection) (filter : Doc → Bool)
  | update (collection : Collection) (filter : Doc → Bool) (change : Doc → Doc) (applied : Bool)
  | deleteRequest (collection : Collection) (filter : Doc → Bool) (applied : Bool)

/-- What the caller gets: the returned truth value, the found documents, or the
returned value with the number of deleted documents. -/
inductive Answer (Doc : Type) where
  | result (success : Bool)
  | found (docs : List Doc)
  | deleted (success : Bool) (count : Nat)
  deriving DecidableEq

section

variable {Doc : Type}

def Operation.collection : Operation Doc → Collection
  | .addRequest collection _ _ => collection
  | .query collection _ => collection
  | .update collection _ _ _ => collection
  | .deleteRequest collection _ _ => collection

def Operation.perform : Operation Doc → List Doc → Answer Doc × List Doc
  | .addRequest _ doc outcome, docs =>
    let (added, docs) := Wallet.Notes.addRequest outcome doc docs
    (.result added, docs)
  | .query _ filter, docs => (.found (docs.filter filter), docs)
  | .update _ filter change applied, docs =>
    (.result applied,
      if applied then docs.map fun doc => if filter doc then change doc else doc else docs)
  | .deleteRequest _ filter applied, docs =>
    if applied then (.deleted true (docs.filter filter).length, docs.filter (! filter ·))
    else (.deleted false 0, docs)

def Operation.apply (op : Operation Doc) (contents : Contents Doc) : Answer Doc × Contents Doc :=
  let (answer, docs) := op.perform (contents op.collection)
  (answer, Function.update contents op.collection docs)

end

/-- One call as it was carried out: the worker that issued it, the database it
reached, and its answer. -/
structure Access (Worker Name Doc : Type) where
  worker : Worker
  target : Name
  op : Operation Doc
  answer : Answer Doc

/-- The singleton with the databases behind it, and the calls so far. -/
structure System (Worker Name Doc : Type) where
  databaseName : Name
  registered : List Name
  contents : Name → Contents Doc
  log : List (Access Worker Name Doc)

/-- The atomic steps of a worker. -/
inductive Action (Doc : Type) where
  | getInstance
  | operate (op : Operation Doc)

variable {Worker Name Doc : Type} [DecidableEq Name]

def registerDb (name : Name) (registered : List Name) : List Name :=
  if name ∈ registered then registered else registered ++ [name]

/-- `get_instance`, which is `set_db` on the singleton. -/
def getInstance (name : Name) (system : System Worker Name Doc) : System Worker Name Doc :=
  { system with databaseName := name, registered := registerDb name system.registered }

/-- A call on the singleton: it works on the database named at that time. -/
def operate (worker : Worker) (op : Operation Doc) (system : System Worker Name Doc) :
    System Worker Name Doc :=
  let (answer, contents) := op.apply (system.contents system.databaseName)
  { system with
    contents := Function.update system.contents system.databaseName contents
    log := system.log ++ [⟨worker, system.databaseName, op, answer⟩] }

def step (wallet : Worker → Name) (system : System Worker Name Doc)
    (event : Worker × Action Doc) : System Worker Name Doc :=
  match event.2 with
  | .getInstance => getInstance (wallet event.1) system
  | .operate op => operate event.1 op system

def Isolated (wallet : Worker → Name) (log : List (Access Worker Name Doc)) : Prop :=
  ∀ access ∈ log, access.target = wallet access.worker

/-- Every call is issued through an instance that its worker took before. -/
def Issued (events : List (Worker × Action Doc)) : Prop :=
  ∀ front worker op back, events = front ++ (worker, .operate op) :: back →
    (worker, .getInstance) ∈ front

/-- The last instance taken in a part of a schedule was for the given wallet. -/
def LastTaken (wallet : Worker → Name) (name : Name) (part : List (Worker × Action Doc)) : Prop :=
  ∃ earlier worker later, part = earlier ++ (worker, .getInstance) :: later ∧
    wallet worker = name ∧ ∀ other, (other, .getInstance) ∉ later

/-- Before every call, the last instance taken was for the wallet of the call:
no worker of another wallet came between. -/
def Undisturbed (wallet : Worker → Name) (events : List (Worker × Action Doc)) : Prop :=
  ∀ front worker op back, events = front ++ (worker, .operate op) :: back →
    LastTaken wallet (wallet worker) front

variable {wallet : Worker → Name} {system : System Worker Name Doc}
  {events part : List (Worker × Action Doc)}

/-! The name the singleton has at a call. -/

private theorem databaseName_run_of_quiet (quiet : ∀ other, (other, .getInstance) ∉ part) :
    (run (step wallet) system part).databaseName = system.databaseName := by
  induction part generalizing system with
  | nil => rfl
  | cons event part ih =>
    obtain ⟨worker, action⟩ := event
    cases action with
    | getInstance => exact absurd List.mem_cons_self (quiet worker)
    | operate op =>
      rw [run_cons, ih fun other mem => quiet other (List.mem_cons_of_mem _ mem)]
      rfl

omit [DecidableEq Name] in
private theorem exists_lastTaken (wallet : Worker → Name)
    (taken : ∃ worker, (worker, .getInstance) ∈ part) : ∃ name, LastTaken wallet name part := by
  induction part with
  | nil =>
    obtain ⟨_, mem⟩ := taken
    cases mem
  | cons event part ih =>
    by_cases later : ∃ worker, (worker, .getInstance) ∈ part
    · obtain ⟨name, earlier, worker, rest, rfl, same, quiet⟩ := ih later
      exact ⟨name, event :: earlier, worker, rest, rfl, same, quiet⟩
    · obtain ⟨worker, mem⟩ := taken
      rcases List.mem_cons.mp mem with rfl | inside
      · exact ⟨wallet worker, [], worker, part, rfl, rfl, fun other found => later ⟨other, found⟩⟩
      · exact absurd ⟨worker, inside⟩ later

private theorem databaseName_of_lastTaken (system : System Worker Name Doc) {name : Name}
    (last : LastTaken wallet name part) :
    (run (step wallet) system part).databaseName = name := by
  obtain ⟨earlier, worker, later, rfl, rfl, quiet⟩ := last
  rw [run_append, run_cons, databaseName_run_of_quiet quiet]
  rfl

private theorem lastTaken_iff {name : Name} (taken : ∃ worker, (worker, .getInstance) ∈ part) :
    LastTaken wallet name part ↔ (run (step wallet) system part).databaseName = name := by
  constructor
  · exact databaseName_of_lastTaken system
  · rintro rfl
    obtain ⟨name, last⟩ := exists_lastTaken wallet taken
    rw [databaseName_of_lastTaken system last]
    exact last

def Own (wallet : Worker → Name) (system : System Worker Name Doc)
    (event : Worker × Action Doc) : Prop :=
  ∀ op, event.2 = .operate op → system.databaseName = wallet event.1

private theorem along_own_iff (issued : Issued events) :
    Along (step wallet) (Own wallet) system events ↔ Undisturbed wallet events := by
  rw [along_iff_split]
  constructor
  · intro own front worker op back split
    exact (lastTaken_iff ⟨worker, issued front worker op back split⟩).mpr
      (own front (worker, .operate op) back split op rfl)
  · rintro undisturbed front ⟨worker, action⟩ back split op rfl
    exact databaseName_of_lastTaken system (undisturbed front worker op back split)

omit [DecidableEq Name] in
private theorem isolated_append {log : List (Access Worker Name Doc)}
    {access : Access Worker Name Doc} :
    Isolated wallet (log ++ [access]) ↔
      Isolated wallet log ∧ access.target = wallet access.worker := by
  simp [Isolated, or_imp, forall_and]

private theorem isolated_iff_own (isolated : Isolated wallet system.log) :
    Isolated wallet (run (step wallet) system events).log ↔
      Along (step wallet) (Own wallet) system events := by
  apply goal_iff_along (Q := fun _ _ => True)
    (fun system : System Worker Name Doc => Isolated wallet system.log)
    (fun system : System Worker Name Doc => Isolated wallet system.log)
  · exact fun _ holds => holds
  · rintro system ⟨worker, action⟩ holds _ own
    cases action with
    | getInstance => exact holds
    | operate op => exact isolated_append.mpr ⟨holds, own op rfl⟩
  · rintro system ⟨worker, action⟩ holds _ foreign
    cases action with
    | getInstance => exact absurd nofun foreign
    | operate op =>
      intro still
      exact foreign fun _ _ => (isolated_append.mp still).2
  · rintro system ⟨worker, action⟩ holds
    cases action with
    | getInstance => exact holds
    | operate op => exact (isolated_append.mp holds).1
  · exact isolated
  · exact along_iff_split.mpr fun _ _ _ _ => trivial

/-! What a wallet sees of a schedule without disturbance. -/

def alone (wallet : Worker → Name) (name : Name) (events : List (Worker × Action Doc)) :
    List (Worker × Action Doc) :=
  events.filter fun event => wallet event.1 = name

/-- A wallet's database and the calls of its workers with their answers. -/
def view (wallet : Worker → Name) (name : Name) (system : System Worker Name Doc) :
    Contents Doc × List (Access Worker Name Doc) :=
  (system.contents name, system.log.filter fun access => wallet access.worker = name)

omit [DecidableEq Name] in
private theorem Undisturbed.of_append {more : List (Worker × Action Doc)}
    (undisturbed : Undisturbed wallet (events ++ more)) : Undisturbed wallet events := by
  rintro front worker op back rfl
  exact undisturbed front worker op (back ++ more) (by simp)

private theorem LastTaken.alone {name : Name} (last : LastTaken wallet name part) :
    LastTaken wallet name (alone wallet name part) := by
  obtain ⟨earlier, worker, later, rfl, same, quiet⟩ := last
  refine ⟨Isolation.alone wallet name earlier, worker, Isolation.alone wallet name later, ?_, same,
    fun other mem => quiet other (List.mem_of_mem_filter mem)⟩
  simp [Isolation.alone, same]

private theorem view_operate {worker : Worker} {op : Operation Doc} {other : System Worker Name Doc}
    {name : Name} (same : view wallet name system = view wallet name other)
    (target : system.databaseName = name) (target' : other.databaseName = name) :
    view wallet name (operate worker op system) = view wallet name (operate worker op other) := by
  rw [view, view, Prod.mk.injEq] at same
  obtain ⟨contents, log⟩ := same
  simp only [view, operate, target, target', contents, Function.update_self, List.filter_append, log]

private theorem view_operate_of_ne {worker : Worker} {op : Operation Doc} {name : Name}
    (target : system.databaseName ≠ name) (foreign : wallet worker ≠ name) :
    view wallet name (operate worker op system) = view wallet name system := by
  simp [view, operate, Function.update_of_ne target.symm, foreign]

private theorem alone_concat (name : Name) (events : List (Worker × Action Doc))
    (event : Worker × Action Doc) :
    alone wallet name (events ++ [event]) =
      alone wallet name events ++ if wallet event.1 = name then [event] else [] := by
  by_cases same : wallet event.1 = name <;> simp [alone, same]

private theorem view_eq_alone (undisturbed : Undisturbed wallet events) (name : Name) :
    view wallet name (run (step wallet) system events) =
      view wallet name (run (step wallet) system (alone wallet name events)) := by
  induction events using List.reverseRecOn with
  | nil => rfl
  | append_singleton events event ih =>
    have before := ih undisturbed.of_append
    obtain ⟨worker, action⟩ := event
    rw [alone_concat, run_append, run_append]
    cases action with
    | getInstance =>
      -- an instance changes the name on the singleton, and no view has it
      by_cases same : wallet worker = name
      · rw [if_pos same]
        exact before
      · rw [if_neg same]
        exact before
    | operate op =>
      have last := undisturbed events worker op [] rfl
      have target := databaseName_of_lastTaken system last
      by_cases same : wallet worker = name
      · rw [same] at target last
        rw [if_pos same]
        exact view_operate before target (databaseName_of_lastTaken system last.alone)
      · rw [if_neg same, run_nil, ← before]
        exact view_operate_of_ne (by rw [target]; exact same) same

/-- However the steps of the workers are interleaved, every call reaches the
database of its own wallet exactly when no worker of another wallet took an
instance since the last one for that wallet. Then each wallet's database and the
answers its workers get are those of its workers running alone. -/
theorem isolated_iff_undisturbed (wallet : Worker → Name) (system : System Worker Name Doc)
    (events : List (Worker × Action Doc)) (fresh : system.log = []) (issued : Issued events) :
    (Isolated wallet (run (step wallet) system events).log ↔ Undisturbed wallet events) ∧
      (Undisturbed wallet events → ∀ name,
        view wallet name (run (step wallet) system events) =
          view wallet name (run (step wallet) system (alone wallet name events))) := by
  have isolated : Isolated wallet system.log := by
    rw [fresh]
    exact nofun
  rw [isolated_iff_own isolated, along_own_iff issued]
  exact ⟨Iff.rfl, fun undisturbed name => view_eq_alone undisturbed name⟩

/-! Two workers, each with a wallet of its own. -/

def sampleWallet (worker : Bool) : String := if worker then "walletB" else "walletA"

def sampleSystem : System Bool String Nat := ⟨"walletDB", [], fun _ _ => [], []⟩

def sampleInsert : Action Nat := .operate (.addRequest .notes 1 .stored)

/-- One worker after the other: both calls stay in their wallets. -/
theorem isolated_in_turn :
    Isolated sampleWallet (run (step sampleWallet) sampleSystem
      [(false, .getInstance), (false, sampleInsert), (true, .getInstance),
        (true, sampleInsert)]).log := by
  refine (isolated_iff_undisturbed sampleWallet sampleSystem _ rfl ?_).1.mpr ?_
  · intro front worker op back split
    rcases front with _ | ⟨_, _ | ⟨_, _ | ⟨_, _ | ⟨_, front⟩⟩⟩⟩ <;> simp_all [sampleInsert]
  · intro front worker op back split
    rcases front with _ | ⟨_, _ | ⟨_, _ | ⟨_, _ | ⟨_, front⟩⟩⟩⟩
    · simp at split
    · simp only [List.cons_append, List.nil_append, List.cons.injEq, Prod.mk.injEq] at split
      obtain ⟨rfl, ⟨rfl, _⟩, _⟩ := split
      exact ⟨[], false, [], rfl, rfl, nofun⟩
    · simp at split
    · simp only [List.cons_append, List.nil_append, List.cons.injEq, Prod.mk.injEq] at split
      obtain ⟨rfl, rfl, rfl, ⟨rfl, _⟩, _⟩ := split
      exact ⟨[(false, .getInstance), (false, sampleInsert)], true, [], rfl, rfl, nofun⟩
    · simp at split

/-- The second worker takes its instance before the first one's insert, which
then goes to the second wallet. -/
theorem insert_in_other_wallet :
    Issued [(false, .getInstance), (true, .getInstance), (false, sampleInsert)] ∧
      (run (step sampleWallet) sampleSystem
        [(false, .getInstance), (true, .getInstance), (false, sampleInsert)]).contents
          "walletB" .notes = [1] ∧
      ¬ Isolated sampleWallet (run (step sampleWallet) sampleSystem
        [(false, .getInstance), (true, .getInstance), (false, sampleInsert)]).log := by
  refine ⟨?_, rfl, fun isolated => ?_⟩
  · intro front worker op back split
    rcases front with _ | ⟨_, _ | ⟨_, _ | ⟨_, front⟩⟩⟩ <;> simp_all [sampleInsert]
  · have target := isolated _ List.mem_cons_self
    exact absurd target (by decide)

end CbDaemon.Concurrency.Isolation
