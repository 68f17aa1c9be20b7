/- module: CbDaemon/Broker/WorkerThreads
   source: src/zmq/messaging_server.cpp (worker_routine), src/serverd.cpp
   digest: Worker threads that run their loop, beside the broker, are runs of the broker's model. -/

import CbDaemon.Broker.Safety
import CbDaemon.Broker.WorkerLoop

set_option autoImplicit false
set_option relaxedAutoImplicit false

namespace CbDaemon.Broker.WorkerThreads
open Base.Run Codec.Integer Envelope WorkerLoop
open Loop (System Socket ToWorker ToBroker Event step)

variable {Identity : Type} [DecidableEq Identity]

/-! The loop in the broker's model. -/

def Carries : ToWorker → List Text → Prop
  | .heartbeat, frames => frames = [heartbeatText]
  | .request request, frames => frames.length = request.parts

def firstNumber : List ToWorker → Nat
  | .request request :: _ => request.number
  | _ => 0

def onWire (number : Nat) (actions : List Action) : List ToBroker :=
  actions.filterMap fun
    | .ready => some .ready
    | .reply _ => some (.reply number)
    | .heartbeat _ => some .heartbeat
    | .sleep _ => none

/-- The events of a turn: `sent` of the messages have left a socket that is closed. -/
def turnEvents (old new : Identity) (sent : Nat) (s : State) (t : Turn) : List (Event Identity) :=
  let beat (identity : Identity) : List (Event Identity) :=
    if t.clock > s.heartbeatAt then [.workerHeartbeat identity] else []
  match t.message with
  | some frames =>
    (if frames.length = 3 then [.receive old, .reply old] else [.receive old]) ++ beat old
  | none => if s.liveness - 1 = 0 then .reconnect old sent new :: beat new else beat old

private theorem sockets_setSocket (system : System Identity) (identity : Identity)
    (socket : Socket) :
    (system.setSocket identity socket).sockets identity = some socket := Function.update_self ..

private theorem setSocket_setSocket (system : System Identity) (identity : Identity)
    (first second : Socket) :
    (system.setSocket identity first).setSocket identity second =
      system.setSocket identity second := by
  simp only [System.setSocket, Function.update_idem]

private theorem setSocket_of_known {system : System Identity} {identity : Identity}
    {socket : Socket}
    (known : system.sockets identity = some socket) : system.setSocket identity socket = system := by
  rw [System.setSocket, ← known, Function.update_eq_self]

private theorem run_beat (system : System Identity) (identity : Identity) (inbox : List ToWorker)
    (out : List ToBroker) (number : Nat) (s : State) (t : Turn) :
    run step (system.setSocket identity ⟨true, inbox, none, out⟩)
        (if t.clock > s.heartbeatAt then [.workerHeartbeat identity] else []) =
      system.setSocket identity ⟨true, inbox, none, out ++ onWire number (turnHeartbeat s t)⟩ := by
  rw [turnHeartbeat]
  split_ifs with now
  · rw [run_cons, run_nil, step, Loop.whenIdle, sockets_setSocket]
    exact setSocket_setSocket ..
  · rw [run_nil, onWire, List.filterMap_nil, List.append_nil]

private theorem onWire_append (number : Nat) (as bs : List Action) :
    onWire number (as ++ bs) = onWire number as ++ onWire number bs := List.filterMap_append

private theorem step_receive {system : System Identity} {identity : Identity}
    {inbox : List ToWorker}
    {out : List ToBroker} (known : system.sockets identity = some ⟨true, inbox, none, out⟩) :
    step system (.receive identity) =
      system.setSocket identity (Socket.receive ⟨true, inbox, none, out⟩) := by
  rw [step, Loop.whenIdle, known]
  rfl

private theorem parts_of_received {t : Turn} {frames : List Text}
    (received : t.message = some frames) :
    t.parts = some frames.length := by
  rw [Turn.parts, received, Option.map_some, recv, List.length_map]

private theorem run_message {system : System Identity} {old : Identity} {message : ToWorker}
    {inbox : List ToWorker} {out : List ToBroker}
    (known : system.sockets old = some ⟨true, message :: inbox, none, out⟩) {t : Turn}
    (goes : t.aborts = false) {frames : List Text} (received : t.message = some frames)
    (carries : Carries message frames) (s : State) :
    run step system (if frames.length = 3 then [.receive old, .reply old] else [.receive old]) =
      system.setSocket old
        ⟨true, inbox, none, out ++ onWire (firstNumber (message :: inbox)) (turnActions s t)⟩ := by
  simp only [turnActions, received]
  by_cases three : frames.length = 3
  · obtain ⟨reply, made, -⟩ := reply_of_three goes
      ((parts_of_received received).trans (congrArg some three))
    rw [if_pos three, made, run_cons, step_receive known]
    cases message with
    | heartbeat =>
      rw [show frames = [heartbeatText] from carries] at three
      cases three
    | request request =>
      have parts : request.parts = 3 := (show frames.length = request.parts from carries).symm.trans three
      simp only [Socket.receive, parts, if_true]
      rw [run_cons, run_nil, step, Loop.sendReply, sockets_setSocket]
      exact setSocket_setSocket ..
  · have other : t.parts ≠ some 3 := by
      rw [parts_of_received received]
      exact fun same => three (Option.some.inj same)
    rw [if_neg three, reply_of_other other, run_cons, run_nil, step_receive known]
    have dropped : Socket.receive ⟨true, message :: inbox, none, out⟩ = ⟨true, inbox, none, out⟩ := by
      cases message with
      | heartbeat => rfl
      | request request =>
        have parts : request.parts ≠ 3 := fun same =>
          three ((show frames.length = request.parts from carries).trans same)
        simp only [Socket.receive, parts, if_false]
    rw [dropped]
    congr
    exact (List.append_nil out).symm

/-- The events of a silent poll before its heartbeat: the counter runs, or the socket is closed
and a new one opened. -/
private theorem run_silence {system : System Identity} {old new : Identity} {inbox : List ToWorker}
    {out : List ToBroker} (known : system.sockets old = some ⟨true, inbox, none, out⟩)
    (fresh : system.sockets new = none) (sent : Nat) :
    step system (.reconnect old sent new) =
      (system.setSocket old (Socket.closed ⟨true, inbox, none, out⟩ sent)).setSocket new
        ⟨true, [], none, [.ready]⟩ := by
  have other : new ≠ old := by
    intro same
    rw [same, known] at fresh
    cases fresh
  have free : (system.setSocket old (Socket.closed ⟨true, inbox, none, out⟩ sent)).sockets new = none := by
    rw [System.setSocket]
    exact (Function.update_of_ne other _ _).trans fresh
  rw [step, Loop.whenIdle, known]
  simp only [and_self, if_true, Loop.openSocket]
  rw [free]
  rfl

/-- Every turn of the loop is a run of the broker's model on the worker's socket: what the thread
sends in the turn is what the socket holds after the events, in the same order. -/
private theorem turn_refines {system : System Identity} {old new : Identity} {inbox : List ToWorker}
    {out : List ToBroker} (known : system.sockets old = some ⟨true, inbox, none, out⟩)
    (fresh : system.sockets new = none) {s : State} (running : s.aborted = false) {t : Turn}
    (goes : t.aborts = false)
    (arrived : ∀ frames, t.message = some frames →
      ∃ message rest, inbox = message :: rest ∧ Carries message frames) (sent : Nat) :
    ∃ actions, (turn s t).actions = s.actions ++ actions ∧
      run step system (turnEvents old new sent s t) =
        if t.message = none ∧ s.liveness - 1 = 0 then
          (system.setSocket old (Socket.closed ⟨true, inbox, none, out⟩ sent)).setSocket new
            ⟨true, [], none, onWire (firstNumber inbox) actions⟩
        else
          system.setSocket old
            ⟨true, if t.message = none then inbox else inbox.tail, none,
              out ++ onWire (firstNumber inbox) actions⟩ := by
  refine ⟨turnActions s t ++ turnHeartbeat s t, by rw [turn_eq running goes, List.append_assoc], ?_⟩
  rw [turnEvents, onWire_append]
  cases received : t.message with
  | none =>
    simp only [true_and]
    by_cases last : s.liveness - 1 = 0
    · have opened : onWire (firstNumber inbox) (turnActions s t) = [.ready] := by
        simp only [turnActions, received, last, if_true]
        rfl
      rw [if_pos last, if_pos last, run_cons, run_silence known fresh, opened,
        run_beat _ new [] [.ready] (firstNumber inbox)]
    · have nothing : onWire (firstNumber inbox) (turnActions s t) = [] := by
        simp only [turnActions, received, last, if_false]
        rfl
      rw [if_neg last, if_neg last, nothing, List.nil_append, if_pos trivial]
      nth_rewrite 1 [← setSocket_of_known known]
      rw [run_beat _ old inbox out (firstNumber inbox)]
  | some frames =>
    obtain ⟨message, rest, rfl, carries⟩ := arrived frames received
    simp only [reduceCtorEq, false_and, if_false, List.tail_cons]
    rw [run_append, run_message known goes received carries s, ← List.append_assoc,
      run_beat _ old rest _ (firstNumber (message :: rest))]

/-! The daemon. -/

/-- The broker's model, and the thread behind each socket that is in use. -/
structure Daemon (Identity : Type) where
  system : System Identity
  threads : Identity → Option State

/-- What can happen next: a thread starts, comes around its loop, or anything on the broker's or
the clients' side. A whole turn of a thread is one step, so that nothing of the broker's happens
between the receipt of a message and its answer. -/
inductive Item (Identity : Type) where
  | start (identity : Identity) (clock : Int)
  | turn (old new : Identity) (sent : Nat) (t : Turn)
  | other (event : Event Identity)

def Daemon.initial (clock : Int) : Daemon Identity := ⟨Loop.initial clock, fun _ => none⟩

/-- A turn of a thread: what it does goes out on its socket, which is a new one after a wait. -/
def Daemon.turn (d : Daemon Identity) (old new : Identity) (sent : Nat) (t : Turn) :
    Daemon Identity :=
  match d.threads old, d.system.sockets old with
  | some s, some socket =>
    let next := WorkerLoop.turn s t
    let wire := onWire (firstNumber socket.toWorker) (next.actions.drop s.actions.length)
    if t.message = none ∧ s.liveness - 1 = 0 then
      ⟨(d.system.setSocket old (socket.closed sent)).setSocket new ⟨true, [], none, wire⟩,
        Function.update (Function.update d.threads old none) new (some next)⟩
    else
      ⟨d.system.setSocket old
          { socket with
            toWorker := if t.message = none then socket.toWorker else socket.toWorker.tail
            toBroker := socket.toBroker ++ wire },
        Function.update d.threads old (some next)⟩
  | _, _ => d

def Daemon.step (d : Daemon Identity) : Item Identity → Daemon Identity
  | .start identity clock =>
    ⟨Loop.openSocket d.system identity,
      Function.update d.threads identity (some (WorkerLoop.start clock))⟩
  | .turn old new sent t => d.turn old new sent t
  | .other event => { d with system := Loop.step d.system event }

/-- The events that are no worker's. -/
def Outside : Event Identity → Prop
  | .clientRequest _ => True
  | .backend _ _ => True
  | .frontend => True
  | .heartbeats _ _ => True
  | .purge _ => True
  | _ => False

/-- New sockets have new identities, a turn finds the first message on the way to its socket, and
no reply aborts the process. -/
def Possible (d : Daemon Identity) : Item Identity → Prop
  | .start identity _ => d.system.sockets identity = none
  | .turn old new _ t =>
    d.system.sockets new = none ∧ t.aborts = false ∧
      ∀ frames, t.message = some frames → ∀ socket, d.system.sockets old = some socket →
        ∃ message rest, socket.toWorker = message :: rest ∧ Carries message frames
  | .other event => Outside event

def Waiting (sockets : Identity → Option Socket) (identity : Identity) : Prop :=
  ∃ inbox out, sockets identity = some ⟨true, inbox, none, out⟩

def Attended (d : Daemon Identity) : Prop :=
  ∀ identity s, d.threads identity = some s →
    s.aborted = false ∧ Waiting d.system.sockets identity

private theorem Waiting.update {sockets : Identity → Option Socket} {identity : Identity}
    (waiting : Waiting sockets identity) (other : Identity) (inbox : List ToWorker)
    (out : List ToBroker) :
    Waiting (Function.update sockets other (some ⟨true, inbox, none, out⟩)) identity := by
  by_cases same : identity = other
  · rw [same]
    exact ⟨inbox, out, Function.update_self ..⟩
  · obtain ⟨received, sent, known⟩ := waiting
    exact ⟨received, sent, (Function.update_of_ne same _ _).trans known⟩

private theorem Waiting.send {sockets : Identity → Option Socket} {identity : Identity}
    (waiting : Waiting sockets identity) (message : ToWorker) (other : Identity) :
    Waiting (Loop.send message other sockets) identity := by
  by_cases same : identity = other
  · subst same
    obtain ⟨inbox, out, known⟩ := waiting
    refine ⟨inbox ++ [message], out, ?_⟩
    rw [Loop.send, known]
    exact Function.update_self ..
  · obtain ⟨inbox, out, known⟩ := waiting
    exact ⟨inbox, out, (Safety.send_of_ne same message sockets).trans known⟩

private theorem sockets_handle (identity : Identity) (clock : Int) (message : ToBroker)
    (system : System Identity) :
    (Loop.handle identity clock message system).sockets = system.sockets := by
  cases message <;> rfl

private theorem Waiting.onBackend {system : System Identity} {identity : Identity}
    (waiting : Waiting system.sockets identity) (other : Identity) (clock : Int) :
    Waiting (Loop.onBackend other clock system).sockets identity := by
  rw [Loop.onBackend]
  cases found : system.sockets other with
  | none => exact waiting
  | some socket =>
    cases pending : socket.toBroker with
    | nil => simpa only [pending] using waiting
    | cons message rest =>
      simp only [pending, sockets_handle, System.setSocket]
      by_cases same : identity = other
      · obtain ⟨inbox, out, known⟩ := waiting
        rw [same, found, Option.some.injEq] at known
        rw [same, known]
        exact ⟨inbox, rest, Function.update_self ..⟩
      · obtain ⟨inbox, out, known⟩ := waiting
        exact ⟨inbox, out, (Function.update_of_ne same _ _).trans known⟩

private theorem Waiting.onFrontend {system : System Identity} {identity : Identity}
    (waiting : Waiting system.sockets identity) :
    Waiting (Loop.onFrontend system).sockets identity := by
  rw [Loop.onFrontend]
  split
  · exact waiting.send ..
  · exact waiting

private theorem Waiting.onHeartbeats {system : System Identity} {identity : Identity}
    (waiting : Waiting system.sockets identity) (clock later : Int) :
    Waiting (Loop.onHeartbeats clock later system).sockets identity := by
  rw [Loop.onHeartbeats]
  split_ifs
  · change Waiting (List.foldl _ system.sockets system.queue) identity
    generalize system.sockets = sockets at waiting
    induction system.queue generalizing sockets with
    | nil => exact waiting
    | cons worker queue ih => exact ih _ (waiting.send .heartbeat worker.identity)
  · exact waiting

private theorem Waiting.step {system : System Identity} {identity : Identity}
    (waiting : Waiting system.sockets identity) {event : Event Identity} (outside : Outside event) :
    Waiting (Loop.step system event).sockets identity := by
  cases event with
  | clientRequest parts => exact waiting
  | start identity => exact outside.elim
  | receive identity => exact outside.elim
  | reply identity => exact outside.elim
  | workerHeartbeat identity => exact outside.elim
  | reconnect old sent new => exact outside.elim
  | backend other clock => exact waiting.onBackend other clock
  | frontend => exact waiting.onFrontend
  | heartbeats clock later => exact waiting.onHeartbeats clock later
  | purge clock => exact waiting

private theorem turn_system {d : Daemon Identity} (attended : Attended d) {old new : Identity}
    {sent : Nat}
    {t : Turn} (possible : Possible d (.turn old new sent t)) :
    ∃ es, (d.turn old new sent t).system = run Loop.step d.system es := by
  cases running : d.threads old with
  | none => exact ⟨[], by rw [Daemon.turn, running]; rfl⟩
  | some s =>
    obtain ⟨fresh, goes, arrived⟩ := possible
    obtain ⟨alive, inbox, out, known⟩ := attended old s running
    obtain ⟨actions, done, refined⟩ := turn_refines known fresh alive goes
      (fun frames received => arrived frames received _ known) sent
    refine ⟨turnEvents old new sent s t, ?_⟩
    rw [refined, Daemon.turn, running, known]
    simp only [done, List.drop_left]
    split_ifs <;> rfl

private theorem aborted_turn {s : State} {t : Turn} (running : s.aborted = false)
    (goes : t.aborts = false) : (turn s t).aborted = false := by
  rw [turn_eq running goes]

private theorem Attended.turn {d : Daemon Identity} (attended : Attended d) {old new : Identity}
    {sent : Nat}
    {t : Turn} (possible : Possible d (.turn old new sent t)) :
    Attended (d.turn old new sent t) := by
  cases running : d.threads old with
  | none =>
    rw [Daemon.turn, running]
    exact attended
  | some s =>
    obtain ⟨fresh, goes, -⟩ := possible
    obtain ⟨alive, inbox, out, known⟩ := attended old s running
    rw [Daemon.turn, running, known]
    simp only
    by_cases wait : t.message = none ∧ s.liveness - 1 = 0
    · -- the old socket has no thread any more
      rw [if_pos wait]
      intro identity s' found
      simp only at found ⊢
      by_cases isNew : identity = new
      · subst isNew
        rw [Function.update_self, Option.some.injEq] at found
        rw [← found]
        exact ⟨aborted_turn alive goes, [], _, sockets_setSocket ..⟩
      · rw [Function.update_of_ne isNew] at found
        by_cases isOld : identity = old
        · rw [isOld, Function.update_self] at found
          cases found
        · rw [Function.update_of_ne isOld] at found
          obtain ⟨others, received, unsent, socket⟩ := attended identity s' found
          refine ⟨others, received, unsent, ?_⟩
          rw [System.setSocket, System.setSocket]
          exact (Function.update_of_ne isNew _ _).trans
            ((Function.update_of_ne isOld _ _).trans socket)
    · rw [if_neg wait]
      intro identity s' found
      simp only at found
      by_cases same : identity = old
      · rw [same, Function.update_self, Option.some.injEq] at found
        rw [same, ← found]
        exact ⟨aborted_turn alive goes, _, _, sockets_setSocket ..⟩
      · rw [Function.update_of_ne same] at found
        obtain ⟨others, waiting⟩ := attended identity s' found
        exact ⟨others, waiting.update old _ _⟩

private theorem Attended.start {d : Daemon Identity} (attended : Attended d) {identity : Identity}
    (fresh : d.system.sockets identity = none) (clock : Int) :
    Attended (d.step (.start identity clock)) := by
  have opened : Loop.openSocket d.system identity = d.system.setSocket identity .opened := by
    rw [Loop.openSocket, fresh]
  intro other s found
  simp only [Daemon.step] at found ⊢
  rw [opened]
  by_cases same : other = identity
  · rw [same, Function.update_self, Option.some.injEq] at found
    rw [same, ← found]
    exact ⟨rfl, [], [.ready], sockets_setSocket ..⟩
  · rw [Function.update_of_ne same] at found
    obtain ⟨others, waiting⟩ := attended other s found
    exact ⟨others, waiting.update identity [] [.ready]⟩

private theorem Attended.step {d : Daemon Identity} (attended : Attended d) {item : Item Identity}
    (possible : Possible d item) : Attended (d.step item) := by
  cases item with
  | start identity clock => exact attended.start possible clock
  | turn old new sent t => exact attended.turn possible
  | other event =>
    intro identity s found
    obtain ⟨alive, waiting⟩ := attended identity s found
    exact ⟨alive, waiting.step possible⟩

private theorem step_system {d : Daemon Identity} (attended : Attended d) {item : Item Identity}
    (possible : Possible d item) :
    ∃ es, (d.step item).system = run Loop.step d.system es := by
  cases item with
  | start identity clock => exact ⟨[.start identity], rfl⟩
  | turn old new sent t => exact turn_system attended possible
  | other event => exact ⟨[event], rfl⟩

/-- However the threads and the broker take turns, the sockets are in a state of the broker's
model; so what holds in all its runs holds with the threads' own loops. -/
theorem threads_refine {clock : Int} {items : List (Item Identity)}
    (possible : Along Daemon.step Possible (Daemon.initial clock) items) :
    (∃ es, (run Daemon.step (Daemon.initial clock) items).system =
        run Loop.step (Loop.initial clock) es) ∧
      Safety.Safe (run Daemon.step (Daemon.initial clock) items).system := by
  have idle : Attended (Daemon.initial clock : Daemon Identity) := fun _ _ none => nomatch none
  obtain ⟨es, same⟩ := exists_run_of_simulates Daemon.system Attended
    (fun _ _ attended possible => attended.step possible)
    (fun _ _ attended possible => step_system attended possible) idle possible
  refine ⟨⟨es, same⟩, ?_⟩
  rw [same]
  exact ((Safety.Inv.initial clock).run es).safe

def answeringTurn : Turn :=
  ⟨some [[65], [], [49]], fun _ => emptyObject, 0, 0⟩

/-- A worker starts and is known to the broker, a request comes in and is passed to it, and it
answers. -/
def oneRequest : List (Item Nat) :=
  [.start 0 0, .other (.backend 0 5), .other (.clientRequest 3), .other .frontend,
    .turn 0 1 0 answeringTurn]

theorem threads_refine_oneRequest :
    (∃ es, (run Daemon.step (Daemon.initial 0) oneRequest).system =
        run Loop.step (Loop.initial 0) es) ∧
      Safety.Safe (run Daemon.step (Daemon.initial 0) oneRequest).system := by
  have possible : Along Daemon.step Possible (Daemon.initial 0) oneRequest := by
    refine ⟨rfl, trivial, trivial, trivial, ⟨rfl, by decide, fun frames received socket known => ?_⟩,
      trivial⟩
    have inbox : socket = ⟨true, [.request ⟨0, 3⟩], none, []⟩ := (Option.some.inj known).symm
    rw [inbox]
    refine ⟨.request ⟨0, 3⟩, [], rfl, ?_⟩
    rw [← Option.some.inj received]
    rfl
  exact threads_refine possible

end CbDaemon.Broker.WorkerThreads
