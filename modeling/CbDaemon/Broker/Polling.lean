/- module: CbDaemon/Broker/Polling
   source: src/serverd.cpp (socket_listener and the reactor loop)
   digest: When every receive of the listener finds a message. -/

import CbDaemon.Broker.Reactor

set_option autoImplicit false
set_option relaxedAutoImplicit false

namespace CbDaemon.Broker.Polling
open Base.Run WorkerQueue Codec.Integer Reactor

variable {Identity : Type}

/-- The broker is at a `receive` of a socket where nothing is pending. -/
def BlockedAt (broker : State Identity) : Stage → Prop
  | .backend flags _ => flags.backend = true ∧ broker.backend = []
  | .frontend flags _ => flags.frontend = true ∧ broker.queue ≠ [] ∧ broker.frontend = []
  | .polling | .heartbeats _ _ | .purge _ _ => False

/-- The broker is at a `receive` that has to wait. -/
def Blocked (broker : State Identity) : Prop := BlockedAt broker broker.stage

instance (broker : State Identity) : DecidablePred (BlockedAt broker)
  | .backend _ _ => inferInstanceAs (Decidable (_ ∧ _))
  | .frontend _ _ => inferInstanceAs (Decidable (_ ∧ _ ∧ _))
  | .polling | .heartbeats _ _ | .purge _ _ => inferInstanceAs (Decidable False)

instance (broker : State Identity) : Decidable (Blocked broker) :=
  inferInstanceAs (Decidable (BlockedAt broker broker.stage))

def joins (messages : List (Identity × List Text)) : Nat :=
  messages.countP fun message => (notice message.2).Joins

/-- A poll that finds both sockets ready also finds a second message at the backend, and a
second one at the frontend unless no two workers can be free in the two calls. -/
def Enough (broker : State Identity) : Event Identity → Prop
  | .fromWorker _ _ | .fromClient _ => True
  | .advance _ _ =>
    broker.stage = .polling → broker.backend ≠ [] → broker.frontend ≠ [] →
      2 ≤ broker.backend.length ∧
        min 2 (broker.queue.length + joins (broker.backend.take 2)) ≤ broker.frontend.length

instance (broker : State Identity) : DecidablePred (Enough broker)
  | .fromWorker _ _ | .fromClient _ => inferInstanceAs (Decidable True)
  | .advance _ _ => inferInstanceAs (Decidable (_ → _ → _ → _ ∧ _))

/-! The messages that the calls after a poll still need. -/

/-- With `m` receives to come at the backend and `n` at the frontend: the backend has a
message for each, and the frontend has one for each worker that can be free. -/
structure Stock (flags : Flags) (m n : Nat) (broker : State Identity) : Prop where
  backend : flags.backend = true → m ≤ broker.backend.length
  frontend : flags.frontend = true →
    min n (broker.queue.length + if flags.backend then joins (broker.backend.take m) else 0) ≤
      broker.frontend.length

/-- What is needed at a stage: the call that goes on has one receive less to come at each
socket that it was at. -/
def StockedAt (broker : State Identity) : Stage → Prop
  | .polling => True
  | .backend flags calls => 1 ≤ calls ∧ Stock flags calls calls broker
  | .frontend flags calls => 1 ≤ calls ∧ Stock flags (calls - 1) calls broker
  | .heartbeats flags calls | .purge flags calls =>
    1 ≤ calls ∧ Stock flags (calls - 1) (calls - 1) broker

def Stocked (broker : State Identity) : Prop := StockedAt broker broker.stage

private theorem StockedAt.not_blockedAt {broker : State Identity} {stage : Stage}
    (stocked : StockedAt broker stage) : ¬ BlockedAt broker stage := by
  cases stage with
  | polling | heartbeats flags calls | purge flags calls => exact not_false
  | backend flags calls =>
    obtain ⟨some, stock⟩ := stocked
    rintro ⟨ready, empty⟩
    have enough := stock.backend ready
    rw [empty, List.length_nil] at enough
    omega
  | frontend flags calls =>
    obtain ⟨some, stock⟩ := stocked
    rintro ⟨ready, free, empty⟩
    have enough := stock.frontend ready
    have workers := List.length_pos_iff.mpr free
    rw [empty, List.length_nil] at enough
    omega

private theorem Stock.mono {flags : Flags} {m n : Nat} {before after : State Identity}
    (stock : Stock flags m n before) (backend : before.backend <+: after.backend)
    (frontend : before.frontend.length ≤ after.frontend.length)
    (queue : after.queue.length ≤ before.queue.length) : Stock flags m n after where
  backend ready := (stock.backend ready).trans backend.length_le
  frontend ready := by
    have enough := stock.frontend ready
    cases found : flags.backend with
    | false =>
      simp only [found, Bool.false_eq_true, if_false] at enough ⊢
      omega
    | true =>
      have held := stock.backend found
      obtain ⟨more, shape⟩ := backend
      simp only [found, if_true] at enough ⊢
      rw [← shape, List.take_append_of_le_length held]
      omega

private theorem StockedAt.mono {before after : State Identity} {stage : Stage}
    (stocked : StockedAt before stage) (backend : before.backend <+: after.backend)
    (frontend : before.frontend.length ≤ after.frontend.length)
    (queue : after.queue.length ≤ before.queue.length) : StockedAt after stage := by
  cases stage with
  | polling => trivial
  | backend flags calls | frontend flags calls | heartbeats flags calls | purge flags calls =>
    exact ⟨stocked.1, stocked.2.mono backend frontend queue⟩

private theorem poll_eq {broker : State Identity} {flags : Flags}
    (backend : flags.backend = !broker.backend.isEmpty)
    (frontend : flags.frontend = !broker.frontend.isEmpty) (some : flags.calls ≠ 0) :
    poll broker = { broker with stage := .backend flags flags.calls } := by
  have same : flags = ⟨!broker.backend.isEmpty, !broker.frontend.isEmpty⟩ := by
    rw [← backend, ← frontend]
  rw [same] at some ⊢
  exact if_neg some

private theorem Stocked.poll {broker : State Identity} (stocked : Stocked broker)
    (enough : broker.backend ≠ [] → broker.frontend ≠ [] →
      2 ≤ broker.backend.length ∧
        min 2 (broker.queue.length + joins (broker.backend.take 2)) ≤ broker.frontend.length) :
    Stocked (poll broker) := by
  cases backend : broker.backend with
  | nil =>
    cases frontend : broker.frontend with
    | nil =>
      have waits : Reactor.poll broker = broker := by
        rw [Reactor.poll, backend, frontend]
        rfl
      rw [waits]
      exact stocked
    | cons request requests =>
      have starts : Reactor.poll broker = { broker with stage := .backend ⟨false, true⟩ 1 } :=
        poll_eq (by rw [backend]; rfl) (by rw [frontend]; rfl) (by decide)
      rw [starts]
      refine ⟨Nat.le_refl 1, fun found => absurd found Bool.false_ne_true, fun _ => ?_⟩
      have one : 1 ≤ broker.frontend.length := by simp [frontend]
      exact (Nat.min_le_left 1 _).trans one
  | cons message messages =>
    cases frontend : broker.frontend with
    | nil =>
      have starts : Reactor.poll broker = { broker with stage := .backend ⟨true, false⟩ 1 } :=
        poll_eq (by rw [backend]; rfl) (by rw [frontend]; rfl) (by decide)
      rw [starts]
      refine ⟨Nat.le_refl 1, fun _ => ?_, fun found => absurd found Bool.false_ne_true⟩
      simp [backend]
    | cons request requests =>
      have starts : Reactor.poll broker = { broker with stage := .backend ⟨true, true⟩ 2 } :=
        poll_eq (by rw [backend]; rfl) (by rw [frontend]; rfl) (by decide)
      obtain ⟨two, free⟩ := enough (by simp [backend]) (by simp [frontend])
      rw [starts]
      exact ⟨by omega, fun _ => two, fun _ => free⟩

section

variable [DecidableEq Identity]

private theorem length_append_le (clock : Int) (identity : Identity) (queue : Loop.Queue Identity) :
    (queue.append clock identity).length ≤ queue.length + 1 := by
  rw [Loop.Queue.append]
  split
  · omega
  · rw [List.length_append, List.length_singleton]

private theorem length_received_le (clock : Int) (identity : Identity) (queue : Loop.Queue Identity)
    (told : Notice) :
    (received clock identity queue told).length ≤
      queue.length + if told.Joins then 1 else 0 := by
  cases told with
  | ready =>
    have appended := length_append_le clock identity (queue.delete identity)
    have deleted : (queue.delete identity).length ≤ queue.length := List.eraseP_sublist.length_le
    exact appended.trans (Nat.add_le_add_right deleted 1)
  | heartbeat =>
    have same := congrArg List.length (identities_refresh clock identity queue)
    rw [identities, identities, List.length_map, List.length_map] at same
    exact same.le
  | invalid => exact Nat.le_refl _
  | reply => exact length_append_le clock identity queue

omit [DecidableEq Identity] in
private theorem joins_take_succ (message : Identity × List Text)
    (messages : List (Identity × List Text))
    (n : Nat) :
    joins ((message :: messages).take (n + 1)) =
      joins (messages.take n) + if (notice message.2).Joins then 1 else 0 := by
  rw [List.take_succ_cons, joins, List.countP_cons]
  simp only [decide_eq_true_eq]
  rfl

private theorem Stocked.onBackend {flags : Flags} {calls : Nat} {broker : State Identity}
    (stocked : StockedAt broker (.backend flags calls)) (stage : broker.stage = .backend flags calls)
    (clock : Int) : Stocked (onBackend flags calls clock broker) := by
  obtain ⟨some, stock⟩ := stocked
  cases ready : flags.backend with
  | false =>
    rw [Reactor.onBackend, if_neg (by simp [ready])]
    refine ⟨some, fun found => absurd found (by simp [ready]), fun open_ => ?_⟩
    have enough := stock.frontend open_
    simp only [ready, Bool.false_eq_true, if_false] at enough ⊢
    exact enough
  | true =>
    cases pending : broker.backend with
    | nil =>
      rw [Reactor.onBackend, if_pos ready, pending, Stocked, stage]
      exact ⟨some, stock⟩
    | cons message rest =>
      obtain ⟨fewer, rfl⟩ : ∃ fewer, calls = fewer + 1 := ⟨calls - 1, by omega⟩
      rw [Reactor.onBackend, if_pos ready, pending]
      have held := stock.backend ready
      rw [pending, List.length_cons] at held
      refine ⟨some, fun _ => by simpa using held, fun open_ => ?_⟩
      have enough := stock.frontend open_
      have brought := length_received_le clock message.1 broker.queue (notice message.2)
      rw [pending, joins_take_succ] at enough
      simp only [ready, if_true, Nat.add_sub_cancel] at enough ⊢
      omega

end

private theorem Stocked.onFrontend {flags : Flags} {calls : Nat} {broker : State Identity}
    (stocked : StockedAt broker (.frontend flags calls))
    (stage : broker.stage = .frontend flags calls) (clock : Int) :
    Stocked (onFrontend flags calls clock broker) := by
  obtain ⟨some, stock⟩ := stocked
  cases open_ : flags.frontend with
  | false =>
    rw [Reactor.onFrontend, open_]
    exact ⟨some, stock.backend, fun found => absurd found (by simp [open_])⟩
  | true =>
    have enough := stock.frontend open_
    cases workers : broker.queue with
    | nil =>
      rw [Reactor.onFrontend, open_, workers]
      refine ⟨some, stock.backend, fun _ => ?_⟩
      refine (min_le_min_right _ (Nat.sub_le calls 1)).trans ?_
      simpa only [workers] using enough
    | cons worker queue =>
      cases pending : broker.frontend with
      | nil =>
        rw [Reactor.onFrontend, open_, workers, pending, Stocked, stage]
        exact ⟨some, stock⟩
      | cons request rest =>
        rw [Reactor.onFrontend, open_, workers, pending]
        refine ⟨some, stock.backend, fun _ => ?_⟩
        rw [workers, pending, List.length_cons, List.length_cons] at enough
        show min (calls - 1) (queue.length +
          if flags.backend then joins (broker.backend.take (calls - 1)) else 0) ≤ rest.length
        omega

private theorem Stocked.onPurge {flags : Flags} {calls : Nat} {broker : State Identity}
    (stocked : StockedAt broker (.purge flags calls)) (clock : Int) :
    Stocked (onPurge flags calls clock broker) := by
  obtain ⟨some, stock⟩ := stocked
  by_cases last : calls ≤ 1
  · rw [Reactor.onPurge, if_pos last]
    trivial
  · rw [Reactor.onPurge, if_neg last]
    have again : 1 ≤ calls - 1 := by omega
    refine ⟨again, stock.mono (List.prefix_refl _) (Nat.le_refl _) ?_⟩
    exact List.length_filter_le _ _

section

variable [DecidableEq Identity]

private theorem Stocked.step {broker : State Identity} (stocked : Stocked broker)
    (event : Event Identity)
    (enough : Enough broker event) : Stocked (step broker event) := by
  cases event with
  | fromWorker identity frames =>
    exact StockedAt.mono stocked (List.prefix_append _ _) (Nat.le_refl _) (Nat.le_refl _)
  | fromClient frames =>
    refine StockedAt.mono stocked (List.prefix_refl _) ?_ (Nat.le_refl _)
    simp [Reactor.step]
  | advance clock later =>
    have here := stocked
    rw [Stocked] at here
    rw [Reactor.step]
    cases stage : broker.stage with
    | polling => exact stocked.poll (enough stage)
    | backend flags calls =>
      rw [stage] at here
      exact Stocked.onBackend here stage clock
    | frontend flags calls =>
      rw [stage] at here
      exact Stocked.onFrontend here stage clock
    | heartbeats flags calls =>
      rw [stage] at here
      exact ⟨here.1, here.2.mono (List.prefix_refl _) (Nat.le_refl _) (Nat.le_refl _)⟩
    | purge flags calls =>
      rw [stage] at here
      exact Stocked.onPurge here clock

/-- In every run whose polls find enough, no receive of the listener has to wait. -/
theorem receives_pending (start : Int) (events : List (Event Identity))
    (enough : Along step Enough (initial start) events) :
    ¬ Blocked (run step (initial start) events) := by
  have stocked : Stocked (run step (initial start) events) :=
    invariant_along Stocked (fun broker event kept meets => kept.step event meets) trivial enough
  exact stocked.not_blockedAt

end

/-- Two workers and two requests: both calls after the poll find what they receive. -/
theorem receives_pending_two :
    let events : List (Event Nat) :=
      [.fromWorker 1 [ascii "READY"], .fromWorker 2 [ascii "READY"], .fromClient [[], [7]],
        .fromClient [[], [8]], .advance 0 0, .advance 1 1, .advance 2 2, .advance 3 3,
        .advance 4 4]
    Along step Enough (initial 0) events ∧
      (run step (initial 0) events).stage = .backend ⟨true, true⟩ 1 ∧
      ¬ Blocked (run step (initial 0) events) :=
  ⟨by decide, by decide, receives_pending 0 _ (by decide)⟩

/-- One worker and one request: the second call after the poll waits for a second message
of a worker. -/
theorem receives_pending_fails :
    ¬ ∀ (start : Int) (events : List (Event Nat)), ¬ Blocked (run step (initial start) events) := by
  intro never
  refine never 0 [.fromWorker 1 [ascii "READY"], .fromClient [[], [7]], .advance 0 0,
    .advance 1 1, .advance 2 2, .advance 3 3, .advance 4 4] ?_
  decide

end CbDaemon.Broker.Polling
