/- module: CbDaemon/Broker/Safety
   source: src/serverd.cpp, src/zmq/messaging_server.cpp
   digest: In every run an idle worker owes no answer, and no request is forwarded or answered twice. -/

import Mathlib.Data.List.Nodup
import Mathlib.Data.List.Perm.Subperm
import CbDaemon.Broker.WorkerQueue

set_option autoImplicit false
set_option relaxedAutoImplicit false

namespace CbDaemon.Broker.Safety
open Base.Run Loop WorkerQueue

variable {Identity : Type} [DecidableEq Identity]

/-- The requests forwarded to an identity and not yet answered. -/
def outstanding (system : System Identity) (identity : Identity) : List Nat :=
  (system.forwarded.filter fun entry => entry.2 = identity ∧ entry.1 ∉ system.answered).map Prod.fst

omit [DecidableEq Identity] in
def queued (system : System Identity) : List Identity := system.queue.map Worker.identity

/-- What the broker guarantees in a state. -/
structure Safe (system : System Identity) : Prop where
  queued_once : (queued system).Nodup
  queued_idle : ∀ identity ∈ queued system, outstanding system identity = []
  forwarded_once : (system.forwarded.map Prod.fst).Nodup
  one_outstanding : ∀ identity, (outstanding system identity).length ≤ 1
  answered_once : system.answered.Nodup
  no_duplicate : system.duplicate = false

/-! What an identity has in the queue and in flight: a sign that it is free, or
a request on its way there and back. -/

inductive Token where
  | free
  | busy (number : Nat)
  deriving DecidableEq

def ToWorker.token : ToWorker → Option Token
  | .heartbeat => none
  | .request request => some (.busy request.number)

def ToBroker.token : ToBroker → Option Token
  | .ready => some .free
  | .heartbeat => none
  | .reply number => some (.busy number)

def socketTokens : Option Socket → List Token
  | none => []
  | some socket =>
    socket.toWorker.filterMap ToWorker.token ++
      (socket.working.toList.map fun request => Token.busy request.number) ++
      socket.toBroker.filterMap ToBroker.token

def queueTokens (queue : Queue Identity) (identity : Identity) : List Token :=
  ((queue.map Worker.identity).filter (· = identity)).map fun _ => Token.free

def tokens (system : System Identity) (identity : Identity) : List Token :=
  queueTokens system.queue identity ++ socketTokens (system.sockets identity)

/-- An identity has one token at most, and it agrees with the outstanding requests. -/
inductive Agrees : List Token → List Nat → Prop
  | gone {requests : List Nat} : requests.length ≤ 1 → Agrees [] requests
  | free : Agrees [.free] []
  | busy (number : Nat) : Agrees [.busy number] [number]

private theorem Agrees.length_le {tokens : List Token} {requests : List Nat}
    (agrees : Agrees tokens requests) : tokens.length ≤ 1 ∧ requests.length ≤ 1 := by
  cases agrees with
  | gone short => exact ⟨Nat.zero_le _, short⟩
  | free => exact ⟨Nat.le_refl _, Nat.zero_le _⟩
  | busy number => exact ⟨Nat.le_refl _, Nat.le_refl _⟩

private theorem Agrees.of_free {requests : List Nat} (agrees : Agrees [.free] requests) :
    requests = [] := by
  cases agrees
  rfl

private theorem Agrees.of_busy {number : Nat} {requests : List Nat}
    (agrees : Agrees [.busy number] requests) : requests = [number] := by
  cases agrees
  rfl

private theorem Agrees.subperm {before after : List Token} {requests : List Nat}
    (agrees : Agrees before requests) (fewer : after.Subperm before) : Agrees after requests := by
  cases after with
  | nil => exact .gone agrees.length_le.2
  | cons token after =>
    have size := fewer.length_le
    have mem := fewer.subset List.mem_cons_self
    cases agrees with
    | gone short => cases mem
    | free =>
      have rest : after = [] := List.eq_nil_of_length_eq_zero (by simpa using size)
      rw [rest, List.mem_singleton.mp mem]
      exact .free
    | busy number =>
      have rest : after = [] := List.eq_nil_of_length_eq_zero (by simpa using size)
      rw [rest, List.mem_singleton.mp mem]
      exact .busy number

/-- The invariant of the loop. -/
structure Inv (system : System Identity) : Prop where
  agrees : ∀ identity, Agrees (tokens system identity) (outstanding system identity)
  known : ∀ identity, system.sockets identity = none →
    identity ∉ queued system ∧ identity ∉ system.forwarded.map Prod.snd
  numbers : (system.forwarded.map Prod.fst ++ system.frontend.map Request.number).Nodup
  arrived : ∀ number ∈ system.forwarded.map Prod.fst ++ system.frontend.map Request.number,
    number < system.arrived
  answered : system.answered.Nodup
  answered_sub : system.answered ⊆ system.forwarded.map Prod.fst
  duplicate : system.duplicate = false

theorem Inv.initial (clock : Int) : Inv (Loop.initial clock : System Identity) where
  agrees _ := .gone (Nat.zero_le _)
  known _ _ := ⟨List.not_mem_nil, List.not_mem_nil⟩
  numbers := List.nodup_nil
  arrived _ mem := absurd mem List.not_mem_nil
  answered := List.nodup_nil
  answered_sub := List.nil_subset _
  duplicate := rfl

private theorem Inv.of_tokens {system next : System Identity} (inv : Inv system)
    (known : ∀ identity, next.sockets identity = none → system.sockets identity = none)
    (sub : queued next ⊆ queued system)
    (fewer : ∀ identity, (tokens next identity).Subperm (tokens system identity))
    (forwarded : next.forwarded = system.forwarded) (answered : next.answered = system.answered)
    (frontend : next.frontend = system.frontend) (arrived : next.arrived = system.arrived)
    (duplicate : next.duplicate = system.duplicate) : Inv next where
  agrees identity := by
    have same : outstanding next identity = outstanding system identity := by
      rw [outstanding, outstanding, forwarded, answered]
    rw [same]
    exact (inv.agrees identity).subperm (fewer identity)
  known identity unknown := by
    rw [forwarded]
    obtain ⟨outside, unused⟩ := inv.known identity (known identity unknown)
    exact ⟨fun mem => outside (sub mem), unused⟩
  numbers := by
    rw [forwarded, frontend]
    exact inv.numbers
  arrived := by
    rw [forwarded, frontend, arrived]
    exact inv.arrived
  answered := answered ▸ inv.answered
  answered_sub := by
    rw [answered, forwarded]
    exact inv.answered_sub
  duplicate := duplicate ▸ inv.duplicate

/-! Tokens of single parts of a state. -/

private theorem queueTokens_eq_nil {queue : Queue Identity} {identity : Identity} :
    queueTokens queue identity = [] ↔ identity ∉ queue.map Worker.identity := by
  rw [queueTokens, List.map_eq_nil_iff, List.filter_eq_nil_iff]
  constructor
  · intro none mem
    exact none identity mem (decide_eq_true rfl)
  · intro outside other mem same
    exact outside (of_decide_eq_true same ▸ mem)

private theorem free_mem_queueTokens {queue : Queue Identity} {identity : Identity}
    (mem : identity ∈ queue.map Worker.identity) : Token.free ∈ queueTokens queue identity := by
  apply List.mem_map.mpr
  exact ⟨identity, List.mem_filter.mpr ⟨mem, decide_eq_true rfl⟩, rfl⟩

private theorem outstanding_eq_nil {system : System Identity} {identity : Identity}
    (unused : identity ∉ system.forwarded.map Prod.snd) : outstanding system identity = [] := by
  rw [outstanding, List.map_eq_nil_iff, List.filter_eq_nil_iff]
  intro entry mem same
  have target : entry.2 = identity := (of_decide_eq_true same).1
  exact unused (target ▸ List.mem_map_of_mem mem)

private theorem Inv.only {system : System Identity} (inv : Inv system) {identity : Identity}
    {token : Token}
    (mem : token ∈ tokens system identity) : tokens system identity = [token] := by
  have short := (inv.agrees identity).length_le.1
  obtain ⟨front, back, shape⟩ := List.append_of_mem mem
  rw [shape, List.length_append, List.length_cons] at short
  have noFront : front = [] := List.eq_nil_of_length_eq_zero (by omega)
  have noBack : back = [] := List.eq_nil_of_length_eq_zero (by omega)
  rw [shape, noFront, noBack]
  rfl

private theorem Inv.setSocket {system : System Identity} (inv : Inv system) {identity : Identity}
    {socket next : Socket} (found : system.sockets identity = some socket)
    (fewer : (socketTokens (some next)).Subperm (socketTokens (some socket))) :
    Inv (system.setSocket identity next) := by
  refine inv.of_tokens ?_ (List.Subset.refl _) ?_ rfl rfl rfl rfl rfl
  · intro other unknown
    by_cases same : other = identity
    · subst same
      simp [System.setSocket] at unknown
    · simpa [System.setSocket, Function.update_of_ne same] using unknown
  · intro other
    by_cases same : other = identity
    · subst same
      simp only [tokens, System.setSocket, Function.update_self, found]
      exact (List.Subperm.refl _).append fewer
    · simp only [tokens, System.setSocket, Function.update_of_ne same]
      exact List.Subperm.refl _

private theorem Inv.openSocket {system : System Identity} (inv : Inv system) (identity : Identity) :
    Inv (openSocket system identity) := by
  -- a new identity has a token, and nothing was ever forwarded to it
  unfold Loop.openSocket
  cases found : system.sockets identity with
  | some socket => exact inv
  | none =>
    obtain ⟨outside, unused⟩ := inv.known identity found
    refine { inv with agrees := ?_, known := ?_ }
    · intro other
      by_cases same : other = identity
      · subst same
        have requests : outstanding (system.setSocket other .opened) other = [] :=
          outstanding_eq_nil unused
        have free : tokens (system.setSocket other .opened) other = [.free] := by
          simp [tokens, System.setSocket, queueTokens_eq_nil.mpr outside, socketTokens,
            Socket.opened, ToBroker.token]
        rw [requests, free]
        exact .free
      · have other_tokens : tokens (system.setSocket identity .opened) other =
            tokens system other := by
          simp only [tokens, System.setSocket, Function.update_of_ne same]
        rw [other_tokens]
        exact inv.agrees other
    · intro other unknown
      by_cases same : other = identity
      · subst same
        simp [System.setSocket] at unknown
      · apply inv.known other
        simpa [System.setSocket, Function.update_of_ne same] using unknown

private theorem Inv.whenIdle {system : System Identity} (inv : Inv system) {identity : Identity}
    {act : Socket → System Identity}
    (acts : ∀ socket, system.sockets identity = some socket → socket.working = none →
      Inv (act socket)) : Inv (whenIdle system identity act) := by
  unfold Loop.whenIdle
  cases found : system.sockets identity with
  | none => exact inv
  | some socket =>
    by_cases idle : socket.alive ∧ socket.working = none
    · simp only [idle, and_self, if_true]
      exact acts socket found idle.2
    · simp only [idle, if_false]
      exact inv

private theorem subperm_receive {socket : Socket} (idle : socket.working = none) :
    (socketTokens (some socket.receive)).Subperm (socketTokens (some socket)) := by
  obtain ⟨alive, toWorker, working, toBroker⟩ := socket
  simp only at idle
  subst idle
  cases toWorker with
  | nil => exact List.Subperm.refl _
  | cons message rest =>
    cases message with
    | heartbeat => exact List.Subperm.refl _
    | request request =>
      have before : socketTokens (some ⟨alive, .request request :: rest, none, toBroker⟩) =
          .busy request.number :: (rest.filterMap ToWorker.token ++
            toBroker.filterMap ToBroker.token) := by
        simp [socketTokens, ToWorker.token]
      rw [before]
      by_cases three : request.parts = 3
      · have after : socketTokens (some (Socket.receive
            ⟨alive, .request request :: rest, none, toBroker⟩)) =
            rest.filterMap ToWorker.token ++ .busy request.number ::
              toBroker.filterMap ToBroker.token := by
          simp [Socket.receive, three, socketTokens]
        rw [after]
        exact List.perm_middle.subperm
      · have after : socketTokens (some (Socket.receive
            ⟨alive, .request request :: rest, none, toBroker⟩)) =
            rest.filterMap ToWorker.token ++ toBroker.filterMap ToBroker.token := by
          simp [Socket.receive, three, socketTokens]
        rw [after]
        exact (List.sublist_cons_self _ _).subperm

private theorem subperm_reply {socket : Socket} {request : Request}
    (working : socket.working = some request) :
    (socketTokens (some { socket with
      working := none, toBroker := socket.toBroker ++ [.reply request.number] })).Subperm
      (socketTokens (some socket)) := by
  have before : socketTokens (some socket) = socket.toWorker.filterMap ToWorker.token ++
      .busy request.number :: socket.toBroker.filterMap ToBroker.token := by
    simp [socketTokens, working]
  have after : socketTokens (some { socket with
      working := none, toBroker := socket.toBroker ++ [.reply request.number] }) =
      socket.toWorker.filterMap ToWorker.token ++
        (socket.toBroker.filterMap ToBroker.token ++ [.busy request.number]) := by
    simp [socketTokens, ToBroker.token, List.filterMap_append]
  rw [before, after]
  exact ((List.perm_append_singleton _ _).append_left _).subperm

private theorem subperm_closed (socket : Socket) (sent : Nat) :
    (socketTokens (some (socket.closed sent))).Subperm (socketTokens (some socket)) := by
  -- a closed socket keeps some of what it sent
  have after : socketTokens (some (socket.closed sent)) =
      (socket.toBroker.take sent).filterMap ToBroker.token := by
    simp [socketTokens, Socket.closed]
  rw [after]
  apply List.Sublist.subperm
  exact ((List.take_sublist sent socket.toBroker).filterMap ToBroker.token).trans
    (List.sublist_append_right _ _)

private theorem queueTokens_append (queue : Queue Identity) (identity other : Identity)
    (expiry : Int) :
    queueTokens (queue ++ [⟨identity, expiry⟩]) other =
      queueTokens queue other ++ if identity = other then [.free] else [] := by
  unfold queueTokens
  rw [List.map_append, List.filter_append, List.map_append]
  by_cases same : identity = other
  · simp [same]
  · simp [same]

private theorem Inv.front {system : System Identity} (inv : Inv system) {identity : Identity}
    {socket : Socket} {message : ToBroker} {rest : List ToBroker} {token : Token}
    (found : system.sockets identity = some socket) (next : socket.toBroker = message :: rest)
    (kind : ToBroker.token message = some token) :
    identity ∉ queued system ∧ socketTokens (some { socket with toBroker := rest }) = [] ∧
      Agrees [token] (outstanding system identity) := by
  -- a message from a worker that is no heartbeat is all its identity has
  have shape : tokens system identity = queueTokens system.queue identity ++
      (socket.toWorker.filterMap ToWorker.token ++
        (socket.working.toList.map fun request => Token.busy request.number) ++
        token :: rest.filterMap ToBroker.token) := by
    simp [tokens, found, socketTokens, next, kind]
  have mem : token ∈ tokens system identity := by
    rw [shape]
    simp
  have only := inv.only mem
  have agrees := inv.agrees identity
  rw [only] at agrees
  have size := congrArg List.length (shape.symm.trans only)
  simp only [List.length_append, List.length_cons, List.length_nil] at size
  refine ⟨?_, ?_, agrees⟩
  · rw [queued, ← queueTokens_eq_nil]
    exact List.eq_nil_of_length_eq_zero (by omega)
  · apply List.eq_nil_of_length_eq_zero
    simp only [socketTokens, List.length_append]
    omega

private theorem Inv.enqueue {system : System Identity} (inv : Inv system) {identity : Identity}
    {removed : Socket} {answered : List Nat} (clock : Int)
    (outside : identity ∉ queued system) (empty : socketTokens (some removed) = [])
    (settled : ∀ other, outstanding { system with answered := answered } other =
      if other = identity then [] else outstanding system other)
    (nodup : answered.Nodup) (sub : answered ⊆ system.forwarded.map Prod.fst) :
    Inv { system.setSocket identity removed with
      queue := system.queue.append clock identity
      answered := answered } := by
  rw [append_of_not_mem outside]
  refine { inv with agrees := ?_, known := ?_, answered := nodup, answered_sub := sub }
  · intro other
    have requests := settled other
    change Agrees (queueTokens (system.queue ++ [⟨identity, expiryAt clock⟩]) other ++
      socketTokens (Function.update system.sockets identity (some removed) other))
      (outstanding { system with answered := answered } other)
    rw [queueTokens_append, requests]
    by_cases same : other = identity
    · subst same
      rw [if_pos rfl, if_pos rfl, queueTokens_eq_nil.mpr outside, Function.update_self, empty]
      exact .free
    · rw [if_neg (Ne.symm same), if_neg same, List.append_nil, Function.update_of_ne same]
      exact inv.agrees other
  · intro other unknown
    change Function.update system.sockets identity (some removed) other = none at unknown
    by_cases same : other = identity
    · subst same
      simp at unknown
    · rw [Function.update_of_ne same] at unknown
      obtain ⟨notQueued, unused⟩ := inv.known other unknown
      refine ⟨?_, unused⟩
      change other ∉ (system.queue ++ [_]).map Worker.identity
      rw [List.map_append, List.mem_append, not_or]
      exact ⟨notQueued, by simpa using same⟩

private theorem outstanding_answer (system : System Identity) (number : Nat) (identity : Identity) :
    outstanding { system with answered := system.answered ++ [number] } identity =
      (outstanding system identity).filter (· ≠ number) := by
  unfold outstanding
  rw [List.filter_map, List.filter_filter]
  congr 1
  apply List.filter_congr
  intro entry _
  simp [and_comm, Bool.and_left_comm]

private theorem mem_outstanding {system : System Identity} {number : Nat} {identity : Identity} :
    number ∈ outstanding system identity ↔
      (number, identity) ∈ system.forwarded ∧ number ∉ system.answered := by
  unfold outstanding
  simp only [List.mem_map, List.mem_filter, decide_eq_true_eq, Prod.exists]
  constructor
  · rintro ⟨n, other, ⟨mem, rfl, open_⟩, rfl⟩
    exact ⟨mem, open_⟩
  · rintro ⟨mem, open_⟩
    exact ⟨number, identity, ⟨mem, rfl, open_⟩, rfl⟩

private theorem Inv.identity_unique {system : System Identity} (inv : Inv system) {number : Nat}
    {i j : Identity} (first : number ∈ outstanding system i)
    (second : number ∈ outstanding system j) : i = j := by
  have nodup := (List.nodup_append.mp inv.numbers).1
  have same := List.inj_on_of_nodup_map nodup (mem_outstanding.mp first).1
    (mem_outstanding.mp second).1 rfl
  exact congrArg Prod.snd same

private theorem Inv.heartbeat {system : System Identity} (inv : Inv system) {identity : Identity}
    {socket : Socket} {rest : List ToBroker} (found : system.sockets identity = some socket)
    (next : socket.toBroker = .heartbeat :: rest) (clock : Int) :
    Inv (handle identity clock .heartbeat
      (system.setSocket identity { socket with toBroker := rest })) := by
  have kept : socketTokens (some { socket with toBroker := rest }) = socketTokens (some socket) := by
    simp only [socketTokens, next, List.filterMap_cons, ToBroker.token]
  have fewer : (socketTokens (some { socket with toBroker := rest })).Subperm
      (socketTokens (some socket)) := by
    rw [kept]
  have same : (system.queue.refresh clock identity).map Worker.identity =
      system.queue.map Worker.identity := identities_refresh clock identity system.queue
  refine (inv.setSocket found fewer).of_tokens (fun _ unknown => unknown) ?_ ?_ rfl rfl rfl rfl rfl
  · intro other mem
    change other ∈ (system.queue.refresh clock identity).map Worker.identity at mem
    rwa [same] at mem
  · intro other
    have refreshed : queueTokens (system.queue.refresh clock identity) other =
        queueTokens system.queue other := by
      rw [queueTokens, same, queueTokens]
    simp only [tokens, handle, System.setSocket, refreshed]
    exact List.Subperm.refl _

private theorem Inv.ready {system : System Identity} (inv : Inv system) {identity : Identity}
    {socket : Socket} {rest : List ToBroker} (found : system.sockets identity = some socket)
    (next : socket.toBroker = .ready :: rest) (clock : Int) :
    Inv (handle identity clock .ready
      (system.setSocket identity { socket with toBroker := rest })) := by
  obtain ⟨outside, empty, agrees⟩ := inv.front found next rfl
  have kept : (system.setSocket identity { socket with toBroker := rest }).queue.delete identity =
      system.queue := delete_of_not_mem outside
  rw [handle, kept]
  apply inv.enqueue clock outside empty _ inv.answered inv.answered_sub
  intro other
  by_cases same : other = identity
  · rw [if_pos same, same]
    exact agrees.of_free
  · rw [if_neg same]

/-- A reply comes from an identity that is not in the queue, and settles the only
request that was outstanding there. -/
private theorem Inv.reply {system : System Identity} (inv : Inv system) {identity : Identity}
    {socket : Socket} {number : Nat} {rest : List ToBroker}
    (found : system.sockets identity = some socket)
    (next : socket.toBroker = .reply number :: rest) (clock : Int) :
    Inv (handle identity clock (.reply number)
      (system.setSocket identity { socket with toBroker := rest })) := by
  obtain ⟨outside, empty, agrees⟩ := inv.front found next rfl
  have only := agrees.of_busy
  have mem : number ∈ outstanding system identity := by
    rw [only]
    exact List.mem_singleton_self number
  obtain ⟨forwarded, open_⟩ := mem_outstanding.mp mem
  have settled : ∀ other, outstanding { system with answered := system.answered ++ [number] } other =
      if other = identity then [] else outstanding system other := by
    intro other
    rw [outstanding_answer]
    by_cases same : other = identity
    · rw [if_pos same, same, only]
      simp
    · rw [if_neg same, List.filter_eq_self]
      intro n memN
      apply decide_eq_true
      rintro rfl
      exact same (inv.identity_unique memN mem)
  have nodup : (system.answered ++ [number]).Nodup := by
    rw [List.nodup_append]
    refine ⟨inv.answered, List.nodup_singleton number, ?_⟩
    rintro n memN m memM rfl
    exact open_ (List.mem_singleton.mp memM ▸ memN)
  have sub : system.answered ++ [number] ⊆ system.forwarded.map Prod.fst := by
    apply List.append_subset.mpr
    exact ⟨inv.answered_sub, by simpa using ⟨identity, forwarded⟩⟩
  have enqueued := inv.enqueue clock outside empty settled nodup sub
  refine { enqueued with duplicate := ?_ }
  change (system.duplicate || decide (identity ∈ system.queue.map Worker.identity)) = false
  rw [inv.duplicate, Bool.false_or]
  exact decide_eq_false outside

private theorem Inv.onBackend {system : System Identity} (inv : Inv system) (identity : Identity)
    (clock : Int) : Inv (onBackend identity clock system) := by
  cases found : system.sockets identity with
  | none =>
    simp only [Loop.onBackend, found]
    exact inv
  | some socket =>
    cases next : socket.toBroker with
    | nil =>
      simp only [Loop.onBackend, found, next]
      exact inv
    | cons message rest =>
      simp only [Loop.onBackend, found, next]
      cases message with
      | ready => exact inv.ready found next clock
      | heartbeat => exact inv.heartbeat found next clock
      | reply number => exact inv.reply found next clock

private theorem outstanding_forward (system : System Identity) {number : Nat}
    (new : number ∉ system.answered) (identity other : Identity) :
    outstanding { system with forwarded := system.forwarded ++ [(number, identity)] } other =
      outstanding system other ++ if identity = other then [number] else [] := by
  unfold outstanding
  rw [List.filter_append, List.map_append]
  by_cases same : identity = other
  · simp [same, new]
  · simp [same]

theorem send_of_ne {identity other : Identity} (different : other ≠ identity) (message : ToWorker)
    (sockets : Identity → Option Socket) : send message identity sockets other = sockets other := by
  unfold send
  cases sockets identity with
  | none => rfl
  | some socket =>
    by_cases alive : socket.alive = true
    · simp only [alive, if_true, Function.update_of_ne different]
    · simp only [alive, Bool.false_eq_true, if_false]

private theorem send_self (message : ToWorker) (identity : Identity)
    (sockets : Identity → Option Socket) :
    send message identity sockets identity = sockets identity ∨
      ∃ socket, sockets identity = some socket ∧ send message identity sockets identity =
        some { socket with toWorker := socket.toWorker ++ [message] } := by
  unfold send
  cases found : sockets identity with
  | none => exact .inl found
  | some socket =>
    by_cases alive : socket.alive = true
    · simp only [alive, if_true, Function.update_self]
      exact .inr ⟨socket, rfl, by rw [alive]⟩
    · simp only [alive, Bool.false_eq_true, if_false]
      exact .inl found

private theorem send_eq_none {message : ToWorker} {identity other : Identity}
    {sockets : Identity → Option Socket} (unknown : send message identity sockets other = none) :
    sockets other = none := by
  by_cases same : other = identity
  · subst same
    rcases send_self message other sockets with kept | ⟨socket, _, sent⟩
    · rwa [kept] at unknown
    · rw [sent] at unknown
      cases unknown
  · rwa [send_of_ne same] at unknown

private theorem socketTokens_heartbeat (identity other : Identity)
    (sockets : Identity → Option Socket) :
    socketTokens (send .heartbeat identity sockets other) = socketTokens (sockets other) := by
  by_cases same : other = identity
  · subst same
    rcases send_self .heartbeat other sockets with kept | ⟨socket, found, sent⟩
    · rw [kept]
    · rw [sent, found]
      simp [socketTokens, ToWorker.token]
  · rw [send_of_ne same]

private theorem socketTokens_request {identity : Identity} {sockets : Identity → Option Socket}
    (empty : socketTokens (sockets identity) = []) (request : Request) :
    socketTokens (send (.request request) identity sockets identity) = [] ∨
      socketTokens (send (.request request) identity sockets identity) = [.busy request.number] := by
  rcases send_self (.request request) identity sockets with kept | ⟨socket, found, sent⟩
  · exact .inl (kept.symm ▸ empty)
  · rw [found] at empty
    simp only [socketTokens, List.append_eq_nil_iff] at empty
    right
    rw [sent]
    simp [socketTokens, empty, ToWorker.token]

private theorem queueTokens_cons (worker : Worker Identity) (queue : Queue Identity)
    (other : Identity) :
    queueTokens (worker :: queue) other =
      (if worker.identity = other then [.free] else []) ++ queueTokens queue other := by
  unfold queueTokens
  by_cases same : worker.identity = other
  · simp [same]
  · simp [same]

private theorem Inv.head {system : System Identity} (inv : Inv system) {worker : Worker Identity}
    {queue : Queue Identity} (available : system.queue = worker :: queue) :
    outstanding system worker.identity = [] ∧ queueTokens queue worker.identity = [] ∧
      socketTokens (system.sockets worker.identity) = [] := by
  have member : worker.identity ∈ queued system := by
    rw [queued, available]
    exact List.mem_cons_self
  have only := inv.only (List.mem_append_left _ (free_mem_queueTokens member))
  have agrees := inv.agrees worker.identity
  rw [only] at agrees
  rw [tokens, available, queueTokens_cons, if_pos rfl, List.cons_append, List.cons_append,
    List.nil_append, List.cons.injEq, List.append_eq_nil_iff] at only
  exact ⟨agrees.of_free, only.2⟩

private theorem Inv.forward {system : System Identity} (inv : Inv system) {request : Request}
    {rest : List Request} {worker : Worker Identity} {queue : Queue Identity}
    (pending : system.frontend = request :: rest) (available : system.queue = worker :: queue) :
    Inv { system with
      frontend := rest
      queue := queue
      forwarded := system.forwarded ++ [(request.number, worker.identity)]
      sockets := send (.request request) worker.identity system.sockets } := by
  have numbers := inv.numbers
  have arrived := inv.arrived
  rw [pending] at numbers arrived
  have unforwarded : request.number ∉ system.forwarded.map Prod.fst := by
    intro mem
    exact (List.nodup_append.mp numbers).2.2 _ mem _ List.mem_cons_self rfl
  have unanswered : request.number ∉ system.answered :=
    fun mem => unforwarded (inv.answered_sub mem)
  obtain ⟨settled, noEntry, empty⟩ := inv.head available
  refine ⟨?_, ?_, ?_, ?_, inv.answered, ?_, inv.duplicate⟩
  · intro other
    change Agrees (queueTokens queue other ++
      socketTokens (send (.request request) worker.identity system.sockets other))
      (outstanding
        { system with forwarded := system.forwarded ++ [(request.number, worker.identity)] } other)
    rw [outstanding_forward system unanswered]
    by_cases same : worker.identity = other
    · subst same
      rw [if_pos rfl, settled, noEntry]
      rcases socketTokens_request empty request with lost | sent
      · rw [lost]
        exact .gone (Nat.le_refl 1)
      · rw [sent]
        exact .busy request.number
    · have agrees := inv.agrees other
      rw [tokens, available, queueTokens_cons, if_neg same] at agrees
      rw [if_neg same, List.append_nil, send_of_ne (Ne.symm same)]
      exact agrees
  · intro other unknown
    obtain ⟨outside, unused⟩ := inv.known other (send_eq_none unknown)
    rw [queued, available, List.map_cons, List.mem_cons, not_or] at outside
    refine ⟨outside.2, ?_⟩
    rw [List.map_append, List.mem_append, not_or]
    exact ⟨unused, by simpa using outside.1⟩
  · rw [List.map_append, List.append_assoc]
    exact numbers
  · rw [List.map_append, List.append_assoc]
    exact arrived
  · rw [List.map_append]
    exact List.subset_append_of_subset_left _ inv.answered_sub

private theorem Inv.onFrontend {system : System Identity} (inv : Inv system) :
    Inv (onFrontend system) := by
  unfold Loop.onFrontend
  cases pending : system.frontend with
  | nil => exact inv
  | cons request rest =>
    cases available : system.queue with
    | nil => exact inv
    | cons worker queue => exact inv.forward pending available

private theorem Inv.onHeartbeats {system : System Identity} (inv : Inv system) (clock later : Int) :
    Inv (onHeartbeats clock later system) := by
  have sent : ∀ (queue : Queue Identity) (sockets : Identity → Option Socket) (other : Identity),
      let after := queue.foldl (fun sockets worker => send .heartbeat worker.identity sockets) sockets
      (after other = none → sockets other = none) ∧
        socketTokens (after other) = socketTokens (sockets other) := by
    intro queue
    induction queue with
    | nil => exact fun _ _ => ⟨id, rfl⟩
    | cons worker queue ih =>
      intro sockets other
      obtain ⟨unknown, same⟩ := ih (send .heartbeat worker.identity sockets) other
      exact ⟨fun none => send_eq_none (unknown none), same.trans (socketTokens_heartbeat _ _ _)⟩
  unfold Loop.onHeartbeats
  split
  · refine inv.of_tokens (fun other => (sent _ _ other).1) (List.Subset.refl _) ?_ rfl rfl rfl rfl rfl
    intro other
    simp only [tokens, (sent system.queue system.sockets other).2]
    exact List.Subperm.refl _
  · exact inv

private theorem Inv.purge {system : System Identity} (inv : Inv system) (clock : Int) :
    Inv { system with queue := system.queue.purge clock } := by
  have sub : ((system.queue.purge clock).map Worker.identity).Sublist
      (system.queue.map Worker.identity) := List.filter_sublist.map Worker.identity
  refine inv.of_tokens (fun _ => id) sub.subset ?_ rfl rfl rfl rfl rfl
  intro other
  apply List.Subperm.append _ (List.Subperm.refl _)
  exact ((sub.filter _).map _).subperm

private theorem Inv.clientRequest {system : System Identity} (inv : Inv system) (parts : Nat) :
    Inv { system with
      frontend := system.frontend ++ [⟨system.arrived, parts⟩]
      arrived := system.arrived + 1 } := by
  refine { inv with numbers := ?_, arrived := ?_ }
  · rw [List.map_append, ← List.append_assoc, List.nodup_append]
    refine ⟨inv.numbers, List.nodup_singleton _, ?_⟩
    intro number mem other single same
    have below := inv.arrived number mem
    rw [same, List.mem_singleton.mp single] at below
    exact Nat.lt_irrefl _ below
  · intro number mem
    rw [List.map_append, ← List.append_assoc, List.mem_append] at mem
    rcases mem with old | new
    · exact Nat.lt_succ_of_lt (inv.arrived number old)
    · rw [List.mem_singleton.mp new]
      exact Nat.lt_succ_self _

private theorem Inv.sendReply {system : System Identity} (inv : Inv system) (identity : Identity) :
    Inv (sendReply system identity) := by
  cases found : system.sockets identity with
  | none =>
    simp only [Loop.sendReply, found]
    exact inv
  | some socket =>
    cases working : socket.working with
    | none =>
      simp only [Loop.sendReply, found, working]
      exact inv
    | some request =>
      simp only [Loop.sendReply, found, working]
      exact inv.setSocket found (subperm_reply working)

private theorem Inv.step {system : System Identity} (inv : Inv system) (event : Event Identity) :
    Inv (step system event) := by
  cases event with
  | clientRequest parts => exact inv.clientRequest parts
  | start identity => exact inv.openSocket identity
  | receive identity =>
    apply inv.whenIdle
    intro socket found idle
    exact inv.setSocket found (subperm_receive idle)
  | reply identity => exact inv.sendReply identity
  | workerHeartbeat identity =>
    apply inv.whenIdle
    intro socket found _
    apply inv.setSocket found
    have kept : socketTokens (some { socket with toBroker := socket.toBroker ++ [.heartbeat] }) =
        socketTokens (some socket) := by
      simp [socketTokens, ToBroker.token]
    rw [kept]
  | reconnect old sent new =>
    apply inv.whenIdle
    intro socket found _
    exact (inv.setSocket found (subperm_closed socket sent)).openSocket new
  | backend identity clock => exact inv.onBackend identity clock
  | frontend => exact inv.onFrontend
  | heartbeats clock later => exact inv.onHeartbeats clock later
  | purge clock => exact inv.purge clock

theorem Inv.run {system : System Identity} (inv : Inv system) (events : List (Event Identity)) :
    Inv (run Loop.step system events) :=
  invariant Inv (fun _ event holds => holds.step event) inv events

theorem Inv.safe {system : System Identity} (inv : Inv system) : Safe system where
  queued_once := by
    rw [List.nodup_iff_count_le_one]
    intro identity
    have short := (inv.agrees identity).length_le.1
    rw [tokens, List.length_append, queueTokens, List.length_map] at short
    have same : (queued system).filter (· == identity) =
        (system.queue.map Worker.identity).filter (· = identity) :=
      List.filter_congr fun other _ => rfl
    rw [List.count_eq_length_filter, same]
    omega
  queued_idle identity mem := by
    have only := inv.only (List.mem_append_left _ (free_mem_queueTokens mem))
    have agrees := inv.agrees identity
    rw [only] at agrees
    exact agrees.of_free
  forwarded_once := (List.nodup_append.mp inv.numbers).1
  one_outstanding identity := (inv.agrees identity).length_le.2
  answered_once := inv.answered
  no_duplicate := inv.duplicate

/-- In every run of the broker with its workers and clients, the identities in
the queue are distinct and owe no answer, no request is forwarded or answered
twice, no worker socket has two requests outstanding, and no reply comes from an
identity in the queue. -/
theorem broker_safe (clock : Int) (events : List (Event Identity)) :
    Safe (run step (initial clock) events) :=
  ((Inv.initial clock).run events).safe

end CbDaemon.Broker.Safety
