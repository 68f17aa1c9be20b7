/- module: CbDaemon/Broker/Reactor
   source: src/serverd.cpp (socket_listener and the reactor loop), src/zmq/messaging_server.cpp (queue<T>)
   digest: The broker between its polls, part by part, with messages arriving at any time. -/

import CbDaemon.Broker.WorkerQueue
import CbDaemon.Codec.Integer

set_option autoImplicit false
set_option relaxedAutoImplicit false

namespace CbDaemon.Broker.Reactor
open Base.Run Loop WorkerQueue Codec.Integer

/-! Messages of workers. -/

/-- What the listener takes a message for. -/
inductive Notice where
  | ready
  | heartbeat
  | invalid
  | reply
  deriving DecidableEq

/-- The tests on the frames behind the identity: with one frame `parts()` is 2, and
`strcmp` looks at it up to the first NUL. -/
def notice : List Text → Notice
  | [control] =>
    if cString control = ascii "READY" then .ready
    else if cString control = ascii "HEARTBEAT" then .heartbeat
    else .invalid
  | _ => .reply

/-- The messages after which a worker may be in the queue that was not there before. -/
def Notice.Joins : Notice → Prop
  | .ready | .reply => True
  | .heartbeat | .invalid => False

instance : DecidablePred Notice.Joins
  | .ready | .reply => inferInstanceAs (Decidable True)
  | .heartbeat | .invalid => inferInstanceAs (Decidable False)

section

variable {Identity : Type} [DecidableEq Identity]

def received (clock : Int) (identity : Identity) (queue : Queue Identity) :
    Notice → Queue Identity
  | .ready => (queue.delete identity).append clock identity
  | .heartbeat => queue.refresh clock identity
  | .invalid => queue
  | .reply => queue.append clock identity

def Renews (identity : Identity) (queue : Queue Identity) : Notice → Prop
  | .ready => True
  | .heartbeat => identity ∈ identities queue
  | .invalid => False
  | .reply => identity ∉ identities queue

instance (identity : Identity) (queue : Queue Identity) : DecidablePred (Renews identity queue)
  | .ready => inferInstanceAs (Decidable True)
  | .heartbeat => inferInstanceAs (Decidable (_ ∈ _))
  | .invalid => inferInstanceAs (Decidable False)
  | .reply => inferInstanceAs (Decidable (¬ _))

end

/-! The broker. -/

/-- What a poll found ready, fixed until the next one. -/
structure Flags where
  backend : Bool
  frontend : Bool
  deriving DecidableEq

/-- The calls of the listener after a poll: one for each ready socket. -/
def Flags.calls (flags : Flags) : Nat := flags.backend.toNat + flags.frontend.toNat

/-- Where the broker is: in the poll, or at a part of the listener, with the calls that
this one begins or goes on with. -/
inductive Stage where
  | polling
  | backend (flags : Flags) (calls : Nat)
  | frontend (flags : Flags) (calls : Nat)
  | heartbeats (flags : Flags) (calls : Nat)
  | purge (flags : Flags) (calls : Nat)
  deriving DecidableEq

/-- A request handed to a worker: the expiry of the worker and the time. -/
structure Dispatch (Identity : Type) where
  identity : Identity
  expiry : Int
  clock : Int

/-- The broker with the messages pending at its sockets, and a record of the last message
that set the expiry of a worker and of the requests handed out. -/
structure State (Identity : Type) where
  stage : Stage
  queue : Queue Identity
  heartbeatAt : Int
  backend : List (Identity × List Text)
  frontend : List (List Text)
  renewed : Identity → Int
  dispatched : List (Dispatch Identity)

/-- A message arrives, or the broker goes on by one part, with the times that it reads. -/
inductive Event (Identity : Type) where
  | fromWorker (identity : Identity) (frames : List Text)
  | fromClient (frames : List Text)
  | advance (clock later : Int)

variable {Identity : Type} [DecidableEq Identity]

omit [DecidableEq Identity] in
def initial (clock : Int) : State Identity :=
  ⟨.polling, [], clock + heartbeatInterval, [], [], fun _ => 0, []⟩

omit [DecidableEq Identity] in
/-- `reactor.poll()`, which waits until a socket is ready. -/
def poll (broker : State Identity) : State Identity :=
  let flags : Flags := ⟨!broker.backend.isEmpty, !broker.frontend.isEmpty⟩
  if flags.calls = 0 then broker else { broker with stage := .backend flags flags.calls }

/-- The part for the backend. Without a message `receive` does not return. -/
def onBackend (flags : Flags) (calls : Nat) (clock : Int) (broker : State Identity) :
    State Identity :=
  if flags.backend then
    match broker.backend with
    | [] => broker
    | (identity, frames) :: rest =>
      { broker with
        stage := .frontend flags calls
        backend := rest
        queue := received clock identity broker.queue (notice frames)
        renewed :=
          if Renews identity broker.queue (notice frames) then
            Function.update broker.renewed identity clock
          else broker.renewed }
  else { broker with stage := .frontend flags calls }

omit [DecidableEq Identity] in
/-- The part for the frontend: a request goes to the first worker in the queue. -/
def onFrontend (flags : Flags) (calls : Nat) (clock : Int) (broker : State Identity) :
    State Identity :=
  match flags.frontend, broker.queue with
  | true, worker :: queue =>
    match broker.frontend with
    | [] => broker
    | _ :: rest =>
      { broker with
        stage := .heartbeats flags calls
        frontend := rest
        queue := queue
        dispatched := broker.dispatched ++ [⟨worker.identity, worker.expiry, clock⟩] }
  | _, _ => { broker with stage := .heartbeats flags calls }

omit [DecidableEq Identity] in
/-- The heartbeats to idle workers; only the time of the next ones is kept here. -/
def onHeartbeats (flags : Flags) (calls : Nat) (clock later : Int) (broker : State Identity) :
    State Identity :=
  { broker with
    stage := .purge flags calls
    heartbeatAt :=
      if clock > broker.heartbeatAt then later + heartbeatInterval else broker.heartbeatAt }

omit [DecidableEq Identity] in
def onPurge (flags : Flags) (calls : Nat) (clock : Int) (broker : State Identity) :
    State Identity :=
  { broker with
    stage := if calls ≤ 1 then .polling else .backend flags (calls - 1)
    queue := broker.queue.purge clock }

def step (broker : State Identity) : Event Identity → State Identity
  | .fromWorker identity frames => { broker with backend := broker.backend ++ [(identity, frames)] }
  | .fromClient frames => { broker with frontend := broker.frontend ++ [frames] }
  | .advance clock later =>
    match broker.stage with
    | .polling => poll broker
    | .backend flags calls => onBackend flags calls clock broker
    | .frontend flags calls => onFrontend flags calls clock broker
    | .heartbeats flags calls => onHeartbeats flags calls clock later broker
    | .purge flags calls => onPurge flags calls clock broker

/-! A call of the listener is one of the loop with its workers, as far as the queue and the
time of the heartbeats go. -/

def noticeOf : ToBroker → Notice
  | .ready => .ready
  | .heartbeat => .heartbeat
  | .reply _ => .reply

/-- The same queue, the same time and the same pending requests. -/
structure Agrees (broker : State Identity) (system : System Identity) : Prop where
  queue : broker.queue = system.queue
  heartbeatAt : broker.heartbeatAt = system.heartbeatAt
  frontend : broker.frontend = [] ↔ system.frontend = []

/-- The message that the backend gives is the next one of the worker whose turn it is. -/
def Next (broker : State Identity) (system : System Identity) (identity : Identity) : Prop :=
  ∃ socket message rest frames more,
    system.sockets identity = some socket ∧ socket.toBroker = message :: rest ∧
    broker.backend = (identity, frames) :: more ∧ notice frames = noticeOf message

private theorem Agrees.onBackend {broker : State Identity} {system : System Identity}
    (agrees : Agrees broker system) {identity : Identity} (next : Next broker system identity)
    {flags : Flags} (ready : flags.backend = true) (calls : Nat) (clock : Int) :
    (onBackend flags calls clock broker).stage = .frontend flags calls ∧
      Agrees (onBackend flags calls clock broker) (Loop.onBackend identity clock system) := by
  obtain ⟨socket, message, rest, frames, more, found, first, pending, told⟩ := next
  rw [Reactor.onBackend, if_pos ready, pending]
  refine ⟨rfl, ?_⟩
  simp only [Loop.onBackend, found, first, told]
  cases message with
  | ready => exact ⟨congrArg (received clock identity · .ready) agrees.queue, agrees.heartbeatAt,
      agrees.frontend⟩
  | heartbeat => exact ⟨congrArg (received clock identity · .heartbeat) agrees.queue,
      agrees.heartbeatAt, agrees.frontend⟩
  | reply number => exact ⟨congrArg (received clock identity · .reply) agrees.queue,
      agrees.heartbeatAt, agrees.frontend⟩

private theorem Agrees.onFrontend {broker : State Identity} {system : System Identity}
    (agrees : Agrees broker system) {flags : Flags} (ready : flags.frontend = true)
    (pending : broker.frontend ≠ []) (calls : Nat) (clock : Int) :
    (onFrontend flags calls clock broker).stage = .heartbeats flags calls ∧
      (onFrontend flags calls clock broker).queue = (Loop.onFrontend system).queue ∧
      (onFrontend flags calls clock broker).heartbeatAt = (Loop.onFrontend system).heartbeatAt := by
  obtain ⟨sameQueue, sameTime, samePending⟩ := agrees
  have others : system.frontend ≠ [] := fun empty => pending (samePending.mpr empty)
  obtain ⟨frames, more, shape⟩ := List.exists_cons_of_ne_nil pending
  obtain ⟨request, rest, arrived⟩ := List.exists_cons_of_ne_nil others
  rw [Reactor.onFrontend, Loop.onFrontend, ready, shape, arrived, sameQueue]
  cases queue : system.queue with
  | nil => exact ⟨rfl, queue.symm, sameTime⟩
  | cons worker tail => exact ⟨rfl, rfl, sameTime⟩

private theorem run_timers {broker : State Identity} {system : System Identity} {flags : Flags}
    {calls : Nat} (stage : broker.stage = .heartbeats flags calls)
    (queue : broker.queue = system.queue) (heartbeatAt : broker.heartbeatAt = system.heartbeatAt)
    (clocks : Clocks) :
    let after := run step broker [.advance clocks.heartbeat clocks.later, .advance clocks.purge 0]
    let loop := Loop.onHeartbeats clocks.heartbeat clocks.later system
    after.queue = loop.queue.purge clocks.purge ∧ after.heartbeatAt = loop.heartbeatAt := by
  have first : step broker (.advance clocks.heartbeat clocks.later) =
      onHeartbeats flags calls clocks.heartbeat clocks.later broker := by
    rw [step, stage]
  rw [run_cons, first, run_cons, run_nil]
  show broker.queue.purge clocks.purge = _ ∧
    (if clocks.heartbeat > broker.heartbeatAt then clocks.later + heartbeatInterval
      else broker.heartbeatAt) = _
  rw [queue, heartbeatAt, Loop.onHeartbeats]
  split
  · exact ⟨rfl, rfl⟩
  · exact ⟨rfl, rfl⟩

private theorem Agrees.turn {broker : State Identity} {system : System Identity}
    (agrees : Agrees broker system) {flags : Flags} {turn : Option Identity}
    (ready : flags.backend = turn.isSome)
    (next : ∀ identity ∈ turn, Next broker system identity) (calls : Nat) (clock : Int) :
    (Reactor.onBackend flags calls clock broker).stage = .frontend flags calls ∧
      Agrees (Reactor.onBackend flags calls clock broker)
        (turn.elim system fun identity => Loop.onBackend identity clock system) ∧
      (Reactor.onBackend flags calls clock broker).frontend = broker.frontend := by
  cases turn with
  | none =>
    rw [Reactor.onBackend, if_neg (by simp [ready])]
    exact ⟨rfl, ⟨agrees.queue, agrees.heartbeatAt, agrees.frontend⟩, rfl⟩
  | some identity =>
    have mine := next identity rfl
    have isReady : flags.backend = true := ready
    obtain ⟨reached, agreed⟩ := agrees.onBackend mine isReady calls clock
    refine ⟨reached, agreed, ?_⟩
    obtain ⟨socket, message, rest, frames, more, -, -, shape, -⟩ := mine
    rw [Reactor.onBackend, if_pos isReady, shape]

/-- A call of the listener in which nothing arrives and no receive has to wait. -/
theorem call_refines {broker : State Identity} {system : System Identity}
    (agrees : Agrees broker system) {flags : Flags} {calls : Nat}
    (stage : broker.stage = .backend flags calls) {turn : Option Identity}
    (ready : flags.backend = turn.isSome)
    (next : ∀ identity ∈ turn, Next broker system identity)
    (pending : flags.frontend = true → broker.frontend ≠ []) (clocks : Clocks) (clock : Int) :
    let after := run step broker [.advance clocks.append 0, .advance clock 0,
      .advance clocks.heartbeat clocks.later, .advance clocks.purge 0]
    after.queue = (socketListener turn flags.frontend clocks system).queue ∧
      after.heartbeatAt = (socketListener turn flags.frontend clocks system).heartbeatAt := by
  have first : step broker (.advance clocks.append 0) =
      onBackend flags calls clocks.append broker := by
    rw [step, stage]
  obtain ⟨atFrontend, same, kept⟩ := agrees.turn ready next calls clocks.append
  rw [run_cons, first, run_cons]
  generalize onBackend flags calls clocks.append broker = middle at atFrontend same kept
  have second : step middle (.advance clock 0) = onFrontend flags calls clock middle := by
    rw [step, atFrontend]
  rw [second]
  cases open_ : flags.frontend with
  | false =>
    have skipped : onFrontend flags calls clock middle =
        { middle with stage := .heartbeats flags calls } := by
      rw [onFrontend, open_]
    have reached : (onFrontend flags calls clock middle).stage = .heartbeats flags calls := by
      rw [skipped]
    refine run_timers reached ?_ ?_ clocks
    · rw [skipped]
      exact same.queue
    · rw [skipped]
      exact same.heartbeatAt
  | true =>
    have waiting : middle.frontend ≠ [] := by
      rw [kept]
      exact pending open_
    obtain ⟨reached, queue, heartbeatAt⟩ := same.onFrontend open_ waiting calls clock
    exact run_timers reached queue heartbeatAt clocks

end CbDaemon.Broker.Reactor
