/- module: CbDaemon/Broker/Loop
   source: src/serverd.cpp, src/zmq/messaging_server.h, src/zmq/messaging_server.cpp
   digest: The broker loop with its worker sockets, and the messages between them. -/

import Mathlib.Logic.Function.Basic
import CbDaemon.Base.Run

set_option autoImplicit false
set_option relaxedAutoImplicit false

namespace CbDaemon.Broker.Loop
open Base.Run

def heartbeatLiveness : Int := 3

def heartbeatInterval : Int := 1000

/-! The queue of available workers. -/

section

variable {Identity : Type}

/-- `worker_t`. -/
structure Worker (Identity : Type) where
  identity : Identity
  expiry : Int

/-- `queue<worker_t>`. -/
abbrev Queue (Identity : Type) := List (Worker Identity)

def expiryAt (clock : Int) : Int := clock + heartbeatInterval * heartbeatLiveness

def Queue.purge (clock : Int) (queue : Queue Identity) : Queue Identity :=
  queue.filter fun worker => ¬ clock > worker.expiry

/-- `_dequeue`, with `none` for the failed assertion. -/
def Queue.dequeue : Queue Identity → Option (Identity × Queue Identity)
  | [] => none
  | worker :: queue => some (worker.identity, queue)

variable [DecidableEq Identity]

/-- `_append`, which leaves an identity that is found in its place. -/
def Queue.append (clock : Int) (identity : Identity) (queue : Queue Identity) : Queue Identity :=
  if identity ∈ queue.map Worker.identity then queue
  else queue ++ [⟨identity, expiryAt clock⟩]

/-- `_delete`: the first entry of the identity. -/
def Queue.delete (identity : Identity) (queue : Queue Identity) : Queue Identity :=
  queue.eraseP fun worker => worker.identity = identity

/-- `_refresh`: the first entry of the identity. -/
def Queue.refresh (clock : Int) (identity : Identity) : Queue Identity → Queue Identity
  | [] => []
  | worker :: queue =>
    if worker.identity = identity then ⟨identity, expiryAt clock⟩ :: queue
    else worker :: Queue.refresh clock identity queue

end

/-! Messages, by what the receiver tells apart. -/

/-- A client request by its number. `parts` is what the worker counts: the
address of the client and the frames behind it. -/
structure Request where
  number : Nat
  parts : Nat
  deriving DecidableEq

/-- What the broker sends to a worker: one part, or those of a request. -/
inductive ToWorker where
  | heartbeat
  | request (request : Request)
  deriving DecidableEq

/-- What a worker sends: READY and HEARTBEAT are two parts at the broker, a
reply has as many parts as the request and the identity. -/
inductive ToBroker where
  | ready
  | heartbeat
  | reply (number : Nat)
  deriving DecidableEq

/-- A worker socket with its messages in flight, both ways in order, and the
request its thread is processing. -/
structure Socket where
  alive : Bool
  toWorker : List ToWorker
  working : Option Request
  toBroker : List ToBroker

/-- The broker, its sockets, and a record of what it forwarded, what it
answered, and whether a reply found its sender in the queue. -/
structure System (Identity : Type) where
  queue : Queue Identity
  heartbeatAt : Int
  frontend : List Request
  arrived : Nat
  sockets : Identity → Option Socket
  forwarded : List (Nat × Identity)
  answered : List Nat
  duplicate : Bool

/-- What can happen next: at a client, at a worker, and in the four parts of the
broker's listener, each with the time it reads from the clock. -/
inductive Event (Identity : Type) where
  | clientRequest (parts : Nat)
  | start (identity : Identity)
  | receive (identity : Identity)
  | reply (identity : Identity)
  | workerHeartbeat (identity : Identity)
  | reconnect (old : Identity) (sent : Nat) (new : Identity)
  | backend (identity : Identity) (clock : Int)
  | frontend
  | heartbeats (clock later : Int)
  | purge (clock : Int)

section

variable {Identity : Type} [DecidableEq Identity]

def initial (clock : Int) : System Identity :=
  ⟨[], clock + heartbeatInterval, [], 0, fun _ => none, [], [], false⟩

/-- `s_worker_socket`: a new socket announces itself. -/
def Socket.opened : Socket := ⟨true, [], none, [.ready]⟩

/-- `delete worker` with a linger of 0: only the messages that were sent by then
are on their way. -/
def Socket.closed (socket : Socket) (sent : Nat) : Socket :=
  ⟨false, [], none, socket.toBroker.take sent⟩

/-- One round of a worker that has a message: a request of three parts is
processed, any other message is dropped. -/
def Socket.receive (socket : Socket) : Socket :=
  match socket.toWorker with
  | [] => socket
  | .heartbeat :: rest => { socket with toWorker := rest }
  | .request request :: rest =>
    if request.parts = 3 then { socket with toWorker := rest, working := some request }
    else { socket with toWorker := rest }

/-- A message to a worker; a ROUTER drops it if there is no such peer. -/
def send (message : ToWorker) (identity : Identity) (sockets : Identity → Option Socket) :
    Identity → Option Socket :=
  match sockets identity with
  | some socket =>
    if socket.alive then
      Function.update sockets identity
        (some { socket with toWorker := socket.toWorker ++ [message] })
    else sockets
  | none => sockets

def System.setSocket (system : System Identity) (identity : Identity) (socket : Socket) :
    System Identity :=
  { system with sockets := Function.update system.sockets identity (some socket) }

def handle (identity : Identity) (clock : Int) (message : ToBroker) (system : System Identity) :
    System Identity :=
  match message with
  | .ready => { system with queue := (system.queue.delete identity).append clock identity }
  | .heartbeat => { system with queue := system.queue.refresh clock identity }
  | .reply number =>
    { system with
      answered := system.answered ++ [number]
      duplicate := system.duplicate || identity ∈ system.queue.map Worker.identity
      queue := system.queue.append clock identity }

def onBackend (identity : Identity) (clock : Int) (system : System Identity) : System Identity :=
  match system.sockets identity with
  | none => system
  | some socket =>
    match socket.toBroker with
    | [] => system
    | message :: rest =>
      handle identity clock message (system.setSocket identity { socket with toBroker := rest })

def onFrontend (system : System Identity) : System Identity :=
  match system.frontend, system.queue.dequeue with
  | request :: rest, some (identity, queue) =>
    { system with
      frontend := rest
      queue := queue
      forwarded := system.forwarded ++ [(request.number, identity)]
      sockets := send (.request request) identity system.sockets }
  | _, _ => system

/-- Heartbeats to the idle workers if it is time; the clock is read again for the
next time. -/
def onHeartbeats (clock later : Int) (system : System Identity) : System Identity :=
  if clock > system.heartbeatAt then
    { system with
      sockets := system.queue.foldl (fun sockets worker => send .heartbeat worker.identity sockets)
        system.sockets
      heartbeatAt := later + heartbeatInterval }
  else system

/-- A step of a live socket whose thread is not processing a request. -/
def whenIdle (system : System Identity) (identity : Identity)
    (act : Socket → System Identity) : System Identity :=
  match system.sockets identity with
  | some socket => if socket.alive ∧ socket.working = none then act socket else system
  | none => system

/-- The end of `processRequest`: the reply goes out. -/
def sendReply (system : System Identity) (identity : Identity) : System Identity :=
  match system.sockets identity with
  | none => system
  | some socket =>
    match socket.working with
    | none => system
    | some request =>
      system.setSocket identity
        { socket with
          working := none, toBroker := socket.toBroker ++ [.reply request.number] }

/-- A new socket; an identity in use is none. -/
def openSocket (system : System Identity) (identity : Identity) : System Identity :=
  match system.sockets identity with
  | some _ => system
  | none => system.setSocket identity .opened

/-- One event. One that is not possible changes nothing. -/
def step (system : System Identity) (event : Event Identity) : System Identity :=
  match event with
  | .clientRequest parts =>
    { system with
      frontend := system.frontend ++ [⟨system.arrived, parts⟩]
      arrived := system.arrived + 1 }
  | .start identity => openSocket system identity
  | .receive identity =>
    whenIdle system identity fun socket => system.setSocket identity socket.receive
  | .reply identity => sendReply system identity
  | .workerHeartbeat identity =>
    whenIdle system identity fun socket =>
      system.setSocket identity { socket with toBroker := socket.toBroker ++ [.heartbeat] }
  | .reconnect old sent new =>
    whenIdle system old fun socket =>
      openSocket (system.setSocket old (socket.closed sent)) new
  | .backend identity clock => onBackend identity clock system
  | .frontend => onFrontend system
  | .heartbeats clock later => onHeartbeats clock later system
  | .purge clock => { system with queue := system.queue.purge clock }

/-- The times that one call of the listener reads from the clock. -/
structure Clocks where
  append : Int
  heartbeat : Int
  later : Int
  purge : Int

/-- `socket_listener`: a message from the worker whose turn it is, if the backend
has input, then the frontend, the heartbeats and the purge. -/
def socketListener (backend : Option Identity) (frontend : Bool) (clocks : Clocks)
    (system : System Identity) : System Identity :=
  let system := backend.elim system fun identity => onBackend identity clocks.append system
  let system := if frontend then onFrontend system else system
  let system := onHeartbeats clocks.heartbeat clocks.later system
  { system with queue := system.queue.purge clocks.purge }

def listenerEvents (backend : Option Identity) (frontend : Bool) (clocks : Clocks) :
    List (Event Identity) :=
  (backend.toList.map fun identity => .backend identity clocks.append) ++
    ((if frontend then [.frontend] else []) ++
      [.heartbeats clocks.heartbeat clocks.later, .purge clocks.purge])

/-- A call of the listener is a run of the broker's events, between which the
workers and clients may go on. -/
theorem socketListener_eq_run (backend : Option Identity) (frontend : Bool) (clocks : Clocks)
    (system : System Identity) :
    socketListener backend frontend clocks system =
      run step system (listenerEvents backend frontend clocks) := by
  unfold socketListener listenerEvents
  cases backend with
  | none => cases frontend <;> rfl
  | some identity => cases frontend <;> rfl

end

end CbDaemon.Broker.Loop
