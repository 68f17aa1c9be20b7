/- module: CbDaemon/Broker/Identity
   source: src/zmq/messaging_server.cpp, src/zmq/zhelpers.hpp, src/zmq/request.cpp
   digest: Worker identities repeat when two sockets draw at equal places of the generator. -/

import Mathlib.Logic.Function.Basic
import CbDaemon.Base.Numeral
import CbDaemon.Base.Run
import CbDaemon.Codec.Hex

set_option autoImplicit false
set_option relaxedAutoImplicit false

namespace CbDaemon.Broker.Identity
open Base.Numeral Base.Run Codec.Integer Codec.Hex

/-! The text that `s_set_id` makes of two numbers. -/

def hexText (n : Nat) : Text := (Nat.toDigits 16 n).map fun c => UInt8.ofNat c.toUpper.toNat

/-- `std::setw(4) << std::setfill('0')`. -/
def padded (s : Text) : Text := List.replicate (4 - s.length) 48 ++ s

def identityText (first second : Nat) : Text :=
  padded (hexText first) ++ 45 :: padded (hexText second)

/-- A number as a `float` holds it: 24 significant bits, the nearest, and of two
nearest the even one. -/
def toFloat (n : Nat) : Nat :=
  let unit := 2 ^ (n.log2 - 23)
  let up := unit < 2 * (n % unit) ∨ (2 * (n % unit) = unit ∧ n / unit % 2 = 1)
  if up then (n / unit + 1) * unit else n / unit * unit

/-- `within(num)` for the result of `random()`; the largest results are rounded
up, so that `num` itself can come out. -/
def within (num value : Nat) : Nat := num * toFloat value / 2 ^ 31

def hexValue (s : Text) : Nat := s.foldl (fun m c => 16 * m + (hexDigit c).getD 0) 0

private theorem hexText_digits (n : Nat) : ∀ c ∈ hexText n, c ≠ 45 := by
  show ∀ c ∈ numeral 16 _ n, c ≠ 45
  exact forall_mem_numeral (by decide) (by decide) n

private theorem hexValue_hexText (n : Nat) : hexValue (hexText n) = n := by
  show (numeral 16 _ n).foldl (fun m c => 16 * m + (hexDigit c).getD 0) 0 = n
  exact foldl_numeral (by decide) (by decide) n

private theorem hexValue_padded (s : Text) : hexValue (padded s) = hexValue s := by
  have zeros : ∀ k, (List.replicate k (48 : UInt8)).foldl
      (fun m c => 16 * m + (hexDigit c).getD 0) 0 = 0 := by
    intro k
    induction k with
    | zero => rfl
    | succ k ih => exact ih
  rw [hexValue, padded, List.foldl_append, zeros]
  rfl

private theorem padded_digits {s : Text} (digits : ∀ c ∈ s, c ≠ 45) : ∀ c ∈ padded s, c ≠ 45 := by
  intro c mem
  rcases List.mem_append.mp mem with zero | digit
  · rw [List.eq_of_mem_replicate zero]
    decide
  · exact digits c digit

private theorem identityText_inj {a b c d : Nat} :
    identityText a b = identityText c d ↔ a = c ∧ b = d := by
  constructor
  · intro same
    have front : ∀ n rest, (padded (hexText n) ++ 45 :: rest).takeWhile (· ≠ 45) =
        padded (hexText n) := by
      intro n rest
      have digits : ∀ c ∈ padded (hexText n), decide (c ≠ 45) = true :=
        fun c mem => decide_eq_true (padded_digits (hexText_digits n) c mem)
      rw [List.takeWhile_append_of_pos digits, List.takeWhile_cons_of_neg (by simp),
        List.append_nil]
    have first : padded (hexText a) = padded (hexText c) := by
      rw [← front a (padded (hexText b)), ← front c (padded (hexText d))]
      exact congrArg _ same
    have second : padded (hexText b) = padded (hexText d) := by
      rw [identityText, identityText, first] at same
      exact (List.cons.inj (List.append_cancel_left same)).2
    rw [← hexValue_hexText a, ← hexValue_hexText b, ← hexValue_padded (hexText a),
      ← hexValue_padded (hexText b), first, second]
    simp only [hexValue_padded, hexValue_hexText, and_self]
  · rintro ⟨rfl, rfl⟩
    rfl

/-! The threads that share the generator. -/

abbrev workerNum : Nat := 5

/-- The process-wide generator behind `srandom` and `random`. -/
structure Generator (State Number : Type) where
  srandom : UInt32 → State
  random : State → Number × State

/-- Where a worker thread is in `s_worker_socket`: before `srandom`, about to
draw, with one number drawn, or with a socket of the identity of both numbers. -/
inductive Phase (Number : Type) where
  | created
  | drawing
  | half (first : Number)
  | live (first second : Number)
  deriving DecidableEq

/-- The generator and the worker threads. -/
structure Process (State Number : Type) where
  state : State
  threads : Fin workerNum → Phase Number

/-- The atomic steps: `worker_routine` seeds with the time, a `Postman` does so
as well, a thread draws a number, and a thread deletes its socket to reconnect. -/
inductive Event where
  | start (thread : Fin workerNum) (time : UInt32)
  | postman (time : UInt32)
  | random (thread : Fin workerNum)
  | delete (thread : Fin workerNum)
  deriving DecidableEq

section

variable {State Number : Type}

def initial (generator : Generator State Number) : Process State Number :=
  ⟨generator.srandom 1, fun _ => .created⟩

/-- One step; one that the thread is not at changes nothing. -/
def step (generator : Generator State Number) (process : Process State Number) (event : Event) :
    Process State Number :=
  match event with
  | .start thread time =>
    match process.threads thread with
    | .created => ⟨generator.srandom time, Function.update process.threads thread .drawing⟩
    | _ => process
  | .postman time => { process with state := generator.srandom time }
  | .random thread =>
    let (number, state) := generator.random process.state
    match process.threads thread with
    | .drawing => ⟨state, Function.update process.threads thread (.half number)⟩
    | .half first => ⟨state, Function.update process.threads thread (.live first number)⟩
    | _ => process
  | .delete thread =>
    match process.threads thread with
    | .live _ _ => { process with threads := Function.update process.threads thread .drawing }
    | _ => process

def threadsAfter (generator : Generator State Number) (events : List Event) :
    Fin workerNum → Phase Number :=
  (run (step generator) (initial generator) events).threads

end

/-- The identity of a thread's socket, if it has one. -/
def identity : Phase Nat → Option Text
  | .live first second => some (identityText (within 0x10000 first) (within 0x10000 second))
  | _ => none

def Unique (threads : Fin workerNum → Phase Nat) : Prop :=
  ∀ i j text, identity (threads i) = some text → identity (threads j) = some text → i = j

/-! The place of a number in the generator's sequences does not depend on the
generator: it is the last seed and the count of numbers drawn since. -/

abbrev Place := UInt32 × Nat

def places : Generator Place Place where
  srandom seed := (seed, 0)
  random place := (place, (place.1, place.2 + 1))

def Phase.map {A B : Type} (f : A → B) : Phase A → Phase B
  | .created => .created
  | .drawing => .drawing
  | .half first => .half (f first)
  | .live first second => .live (f first) (f second)

section

variable {State : Type} {generator : Generator State Nat}

def Generator.stateAt (generator : Generator State Nat) (place : Place) : State :=
  (fun state => (generator.random state).2)^[place.2] (generator.srandom place.1)

def Generator.numberAt (generator : Generator State Nat) (place : Place) : Nat :=
  (generator.random (generator.stateAt place)).1

private theorem stateAt_succ (place : Place) :
    generator.stateAt (place.1, place.2 + 1) = (generator.random (generator.stateAt place)).2 :=
  Function.iterate_succ_apply' _ _ _

/-- A process whose numbers are those at the places of the other. -/
structure Follows (generator : Generator State Nat) (process : Process State Nat)
    (placed : Process Place Place) : Prop where
  state : process.state = generator.stateAt placed.state
  threads : ∀ thread, process.threads thread = (placed.threads thread).map generator.numberAt

variable {process : Process State Nat} {placed : Process Place Place}

private theorem Follows.update (follows : Follows generator process placed) {state : State}
    {place : Place}
    (moved : state = generator.stateAt place) (thread : Fin workerNum) (phase : Phase Place) :
    Follows generator
      ⟨state, Function.update process.threads thread (phase.map generator.numberAt)⟩
      ⟨place, Function.update placed.threads thread phase⟩ := by
  refine ⟨moved, ?_⟩
  intro other
  by_cases same : other = thread
  · subst same
    simp only [Function.update_self]
  · simp only [Function.update_of_ne same, follows.threads]

private theorem Follows.step (follows : Follows generator process placed) (event : Event) :
    Follows generator (step generator process event) (step places placed event) := by
  cases event with
  | start thread time =>
    have phase := follows.threads thread
    have seeded : generator.srandom time = generator.stateAt (places.srandom time) := rfl
    unfold Identity.step
    cases found : placed.threads thread with
    | created =>
      rw [found] at phase
      simp only [phase, found, Phase.map]
      exact follows.update seeded thread .drawing
    | drawing => simpa [phase, found, Phase.map] using follows
    | half first => simpa [phase, found, Phase.map] using follows
    | live first second => simpa [phase, found, Phase.map] using follows
  | postman time => exact ⟨rfl, follows.threads⟩
  | random thread =>
    have phase := follows.threads thread
    have moved : (generator.random process.state).2 =
        generator.stateAt (placed.state.1, placed.state.2 + 1) := by
      rw [stateAt_succ, follows.state]
    have number : (generator.random process.state).1 = generator.numberAt placed.state := by
      rw [follows.state]
      rfl
    unfold Identity.step
    cases found : placed.threads thread with
    | created => simpa [phase, found, Phase.map] using follows
    | drawing =>
      rw [found] at phase
      simp only [phase, found, Phase.map, number]
      exact follows.update moved thread (.half placed.state)
    | half first =>
      rw [found] at phase
      simp only [phase, found, Phase.map, number]
      exact follows.update moved thread (.live first placed.state)
    | live first second => simpa [phase, found, Phase.map] using follows
  | delete thread =>
    have phase := follows.threads thread
    unfold Identity.step
    cases found : placed.threads thread with
    | created => simpa [phase, found, Phase.map] using follows
    | drawing => simpa [phase, found, Phase.map] using follows
    | half first => simpa [phase, found, Phase.map] using follows
    | live first second =>
      rw [found] at phase
      simp only [phase, found, Phase.map]
      exact follows.update follows.state thread .drawing

private theorem Follows.run (follows : Follows generator process placed) (events : List Event) :
    Follows generator (run (Identity.step generator) process events)
      (run (Identity.step places) placed events) := by
  induction events generalizing process placed with
  | nil => exact follows
  | cons event events ih => exact ih (follows.step event)

private theorem threadsAfter_eq (generator : Generator State Nat) (events : List Event)
    (thread : Fin workerNum) :
    threadsAfter generator events thread =
      (threadsAfter places events thread).map generator.numberAt := by
  have start : Follows generator (initial generator) (initial places) := ⟨rfl, fun _ => rfl⟩
  exact (start.run events).threads thread

def Collide (generator : Generator State Nat) : Phase Place → Phase Place → Prop
  | .live first second, .live first' second' =>
    within 0x10000 (generator.numberAt first) = within 0x10000 (generator.numberAt first') ∧
      within 0x10000 (generator.numberAt second) = within 0x10000 (generator.numberAt second')
  | _, _ => False

private theorem identity_eq_iff (generator : Generator State Nat) (p q : Phase Place) :
    (∃ text, identity (p.map generator.numberAt) = some text ∧
        identity (q.map generator.numberAt) = some text) ↔ Collide generator p q := by
  cases p with
  | live first second =>
    cases q with
    | live first' second' =>
      change (∃ text, some (identityText _ _) = some text ∧ some (identityText _ _) = some text) ↔
        _ ∧ _
      rw [← identityText_inj]
      simp [eq_comm]
    | _ => simp [Phase.map, identity, Collide]
  | _ => simp [Phase.map, identity, Collide]

/-- After any run, the live identities are unique exactly when no two of the
sockets drew their numbers at places of the generator with the same results. -/
theorem unique_iff_places (generator : Generator State Nat) (events : List Event) :
    Unique (threadsAfter generator events) ↔
      ∀ i j, i ≠ j →
        ¬ Collide generator (threadsAfter places events i) (threadsAfter places events j) := by
  unfold Unique
  constructor
  · intro unique i j different collide
    obtain ⟨text, first, second⟩ := (identity_eq_iff generator _ _).mpr collide
    rw [← threadsAfter_eq] at first second
    exact different (unique i j text first second)
  · intro apart i j text first second
    by_contra different
    rw [threadsAfter_eq] at first second
    exact apart i j different ((identity_eq_iff generator _ _).mp ⟨text, first, second⟩)

end

def linear : Generator Nat Nat where
  srandom seed := seed.toNat
  random state :=
    ((1103515245 * state + 12345) % 2 ^ 31, (1103515245 * state + 12345) % 2 ^ 31)

def sameSecond : List Event :=
  [.start 0 1500000000, .random 0, .random 0, .start 1 1500000000, .random 1, .random 1]

/-- Both get the same identity. -/
theorem same_second_collides : ¬ Unique (threadsAfter linear sameSecond) := by
  intro unique
  obtain ⟨text, first, second⟩ : ∃ text, identity (threadsAfter linear sameSecond 0) = some text ∧
      identity (threadsAfter linear sameSecond 1) = some text := ⟨_, rfl, rfl⟩
  exact absurd (unique 0 1 text first second) (by decide)

end CbDaemon.Broker.Identity
