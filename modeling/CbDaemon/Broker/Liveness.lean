/- module: CbDaemon/Broker/Liveness
   source: src/serverd.cpp (dispatch, heartbeats and purge), src/zmq/messaging_server.cpp (queue<T>)
   digest: When every request goes to a worker that has not expired. -/

import CbDaemon.Broker.Reactor

set_option autoImplicit false
set_option relaxedAutoImplicit false

namespace CbDaemon.Broker.Liveness
open Base.Run WorkerQueue Codec.Integer Reactor
open Loop (Queue Worker expiryAt)

section

variable {Identity : Type}

/-- Every request was handed to a worker whose expiry was not before the time. -/
def Live (broker : State Identity) : Prop :=
  ∀ handed ∈ broker.dispatched, handed.clock ≤ handed.expiry

instance (broker : State Identity) : Decidable (Live broker) :=
  inferInstanceAs (Decidable (∀ handed ∈ broker.dispatched, handed.clock ≤ handed.expiry))

/-- The request that an event hands to a worker, if it does. -/
def taken (broker : State Identity) : Event Identity → Option (Dispatch Identity)
  | .fromWorker _ _ | .fromClient _ => none
  | .advance clock _ =>
    match broker.stage, broker.queue, broker.frontend with
    | .frontend ⟨_, true⟩ _, worker :: _, _ :: _ =>
      some ⟨worker.identity, worker.expiry, clock⟩
    | _, _, _ => none

/-- The worker that is given a request was heard of, with a message that sets its expiry,
within the time that the queue allows. -/
def Fresh (broker : State Identity) (event : Event Identity) : Prop :=
  ∀ handed ∈ taken broker event, handed.clock ≤ expiryAt (broker.renewed handed.identity)

def times (events : List (Event Identity)) : List Int :=
  events.flatMap fun
    | .fromWorker _ _ | .fromClient _ => []
    | .advance clock later => [clock, later]

/-! The expiry in the queue. -/

/-- Every entry expires at its time after the last message that set it. -/
structure Dated (renewed : Identity → Int) (queue : Queue Identity) : Prop where
  nodup : (identities queue).Nodup
  expiry : ∀ worker ∈ queue, worker.expiry = expiryAt (renewed worker.identity)

private theorem Dated.sublist {renewed : Identity → Int} {queue fewer : Queue Identity}
    (dated : Dated renewed queue) (sublist : fewer.Sublist queue) : Dated renewed fewer where
  nodup := dated.nodup.sublist (sublist.map Worker.identity)
  expiry worker mem := dated.expiry worker (sublist.subset mem)

variable [DecidableEq Identity]

private theorem Dated.update {renewed : Identity → Int} {queue : Queue Identity}
    (dated : Dated renewed queue) {identity : Identity} (outside : identity ∉ identities queue)
    (clock : Int) : Dated (Function.update renewed identity clock) queue where
  nodup := dated.nodup
  expiry worker mem := by
    have different : worker.identity ≠ identity := by
      rintro rfl
      exact outside (List.mem_map_of_mem mem)
    rw [Function.update_of_ne different]
    exact dated.expiry worker mem

private theorem Dated.append {renewed : Identity → Int} {queue : Queue Identity}
    (dated : Dated renewed queue) {identity : Identity} (outside : identity ∉ identities queue)
    (clock : Int) :
    Dated (Function.update renewed identity clock) (queue.append clock identity) where
  nodup := by
    rw [identities_append outside]
    exact List.nodup_append_comm.mp (List.nodup_cons.mpr ⟨outside, dated.nodup⟩)
  expiry worker mem := by
    rw [append_of_not_mem outside] at mem
    obtain old | new := List.mem_append.mp mem
    · exact (dated.update outside clock).expiry worker old
    · rw [List.mem_singleton.mp new, Function.update_self]

private theorem refresh_of_not_mem {queue : Queue Identity} {identity : Identity}
    (outside : identity ∉ identities queue) (clock : Int) :
    queue.refresh clock identity = queue := by
  induction queue with
  | nil => rfl
  | cons worker queue ih =>
    have different : worker.identity ≠ identity := fun same => outside (same ▸ List.mem_cons_self)
    have rest : identity ∉ identities queue := fun mem => outside (List.mem_cons_of_mem _ mem)
    rw [Queue.refresh, if_neg different, ih rest]

private theorem Dated.refresh {renewed : Identity → Int} {queue : Queue Identity}
    (dated : Dated renewed queue) (identity : Identity) (clock : Int) :
    Dated (Function.update renewed identity clock) (queue.refresh clock identity) where
  nodup := by
    rw [identities_refresh]
    exact dated.nodup
  expiry := by
    induction queue with
    | nil => exact fun worker mem => absurd mem List.not_mem_nil
    | cons first queue ih =>
      have rest : Dated renewed queue := dated.sublist (List.sublist_cons_self first queue)
      rw [Queue.refresh]
      split
      · -- the entry is renewed, and no other one has its identity
        rename_i same
        have outside : identity ∉ identities queue := same ▸ (List.nodup_cons.mp dated.nodup).1
        refine List.forall_mem_cons.mpr ⟨?_, (rest.update outside clock).expiry⟩
        rw [Function.update_self]
      · rename_i different
        refine List.forall_mem_cons.mpr ⟨?_, ih rest⟩
        rw [Function.update_of_ne different]
        exact dated.expiry first List.mem_cons_self

private theorem not_mem_delete {queue : Queue Identity} (nodup : (identities queue).Nodup)
    (identity : Identity) : identity ∉ identities (queue.delete identity) := by
  induction queue with
  | nil => exact List.not_mem_nil
  | cons worker queue ih =>
    obtain ⟨once, rest⟩ := List.nodup_cons.mp nodup
    by_cases same : worker.identity = identity
    · rw [Queue.delete, List.eraseP_cons_of_pos (by simpa using same)]
      exact same ▸ once
    · rw [Queue.delete, List.eraseP_cons_of_neg (by simpa using same)]
      exact List.not_mem_cons_of_ne_of_not_mem (Ne.symm same) (ih rest)

private theorem Dated.received {renewed : Identity → Int} {queue : Queue Identity}
    (dated : Dated renewed queue) (identity : Identity) (clock : Int) (told : Notice) :
    Dated (if Renews identity queue told then Function.update renewed identity clock else renewed)
      (received clock identity queue told) := by
  cases told with
  | ready =>
    have kept : Dated renewed (queue.delete identity) := dated.sublist List.eraseP_sublist
    exact kept.append (not_mem_delete dated.nodup identity) clock
  | heartbeat =>
    by_cases inside : identity ∈ identities queue
    · rw [if_pos (show Renews identity queue .heartbeat from inside)]
      exact dated.refresh identity clock
    · rw [if_neg (show ¬ Renews identity queue .heartbeat from inside), Reactor.received,
        refresh_of_not_mem inside]
      exact dated
  | invalid => exact dated
  | reply =>
    by_cases inside : identity ∈ identities queue
    · rw [if_neg (show ¬ Renews identity queue .reply from not_not_intro inside),
        Reactor.received, append_of_mem inside]
      exact dated
    · rw [if_pos (show Renews identity queue .reply from inside)]
      exact dated.append inside clock

/-! Steps of the broker. -/

private theorem Dated.step {broker : State Identity} (dated : Dated broker.renewed broker.queue)
    (event : Event Identity) :
    Dated (step broker event).renewed (step broker event).queue := by
  cases event with
  | fromWorker identity frames => exact dated
  | fromClient frames => exact dated
  | advance clock later =>
    rw [Reactor.step]
    split
    · rw [poll]
      split
      · exact dated
      · exact dated
    · rw [onBackend]
      split
      · split
        · exact dated
        · exact dated.received _ clock _
      · exact dated
    · rw [onFrontend]
      split
      · rename_i worker queue _ shape
        split
        · exact dated
        · rw [shape] at dated
          exact dated.sublist (List.sublist_cons_self worker queue)
      · exact dated
    · exact dated
    · exact dated.sublist List.filter_sublist

omit [DecidableEq Identity] in
private theorem dispatched_poll (broker : State Identity) :
    (poll broker).dispatched = broker.dispatched := by
  rw [poll]
  split
  · rfl
  · rfl

private theorem dispatched_onBackend (flags : Flags) (calls : Nat) (clock : Int)
    (broker : State Identity) :
    (onBackend flags calls clock broker).dispatched = broker.dispatched := by
  rw [onBackend]
  split
  · split
    · rfl
    · rfl
  · rfl

private theorem dispatched_step (broker : State Identity) (event : Event Identity) :
    (step broker event).dispatched = broker.dispatched ++ (taken broker event).toList := by
  cases event with
  | fromWorker identity frames => exact (List.append_nil _).symm
  | fromClient frames => exact (List.append_nil _).symm
  | advance clock later =>
    cases stage : broker.stage with
    | frontend flags calls =>
      obtain ⟨backend, open_⟩ := flags
      have parted : step broker (.advance clock later) =
          onFrontend ⟨backend, open_⟩ calls clock broker := by
        rw [step, stage]
      rw [parted, taken, stage, onFrontend]
      cases open_ with
      | false => exact (List.append_nil _).symm
      | true =>
        cases workers : broker.queue with
        | nil => exact (List.append_nil _).symm
        | cons worker queue =>
          cases pending : broker.frontend with
          | nil => exact (List.append_nil _).symm
          | cons request rest => rfl
    | polling =>
      rw [step, taken, stage]
      exact (dispatched_poll broker).trans (List.append_nil _).symm
    | backend flags calls =>
      rw [step, taken, stage]
      exact (dispatched_onBackend flags calls clock broker).trans (List.append_nil _).symm
    | heartbeats flags calls =>
      rw [step, taken, stage]
      exact (List.append_nil _).symm
    | purge flags calls =>
      rw [step, taken, stage]
      exact (List.append_nil _).symm

omit [DecidableEq Identity] in
private theorem Dated.taken {broker : State Identity} (dated : Dated broker.renewed broker.queue)
    {event : Event Identity} {handed : Dispatch Identity}
    (mem : handed ∈ Liveness.taken broker event) :
    handed.expiry = expiryAt (broker.renewed handed.identity) := by
  cases event with
  | fromWorker identity frames => exact absurd mem (Option.not_mem_none _)
  | fromClient frames => exact absurd mem (Option.not_mem_none _)
  | advance clock later =>
    rw [Liveness.taken] at mem
    split at mem
    · rename_i worker queue _ _ _ shape _
      obtain rfl := Option.mem_some_iff.mp mem
      exact dated.expiry worker (shape ▸ List.mem_cons_self)
    · exact absurd mem (Option.not_mem_none _)

private theorem live_step_iff {broker : State Identity} (dated : Dated broker.renewed broker.queue)
    (event : Event Identity) : Live (step broker event) ↔ Live broker ∧ Fresh broker event := by
  -- a step keeps the record good if and only if it takes a worker in time
  rw [Live, dispatched_step, List.forall_mem_append]
  refine and_congr_right fun _ => ?_
  constructor
  · intro each handed mem
    rw [← dated.taken mem]
    exact each handed (Option.mem_toList.mpr mem)
  · intro fresh handed mem
    rw [Option.mem_toList] at mem
    rw [dated.taken mem]
    exact fresh handed mem

private theorem live_of_step {broker : State Identity} {event : Event Identity}
    (live : Live (step broker event)) : Live broker := by
  rw [Live, dispatched_step, List.forall_mem_append] at live
  exact live.1

/-- In a run, requests go only to workers that have not expired if and only if each one is
handed out within the expiry time after the last message of its worker that set it. -/
theorem dispatch_live_iff (start : Int) (events : List (Event Identity)) :
    Live (run step (initial start) events) ↔ Along step Fresh (initial start) events := by
  have started : Dated (initial start : State Identity).renewed (initial start).queue :=
    ⟨List.nodup_nil, fun _ mem => absurd mem List.not_mem_nil⟩
  apply goal_iff_along (Q := fun _ _ => True)
    (fun broker : State Identity => Dated broker.renewed broker.queue ∧ Live broker) Live
  · exact fun _ inv => inv.2
  · rintro broker event ⟨dated, live⟩ _ fresh
    exact ⟨dated.step event, (live_step_iff dated event).mpr ⟨live, fresh⟩⟩
  · rintro broker event ⟨dated, -⟩ _ stale live
    exact stale ((live_step_iff dated event).mp live).2
  · exact fun _ _ live => live_of_step live
  · exact ⟨started, fun _ mem => absurd mem List.not_mem_nil⟩
  · exact along_iff_split.mpr fun _ _ _ _ => trivial

end

/-- A worker that said it was ready at 0 and nothing since is given a request at 10000: the
purge comes only after the request was handed out. -/
theorem dispatch_live_fails :
    ¬ ∀ (start : Int) (events : List (Event Nat)), (start :: times events).Pairwise (· ≤ ·) →
      Live (run step (initial start) events) := by
  intro always
  refine absurd (always 0 [.fromWorker 1 [ascii "READY"], .advance 0 0, .advance 0 0, .advance 0 0,
    .advance 0 0, .advance 0 0, .fromClient [[], [7]], .advance 10000 10000,
    .advance 10000 10000, .advance 10000 10000] ?_) ?_
  · decide
  · decide

end CbDaemon.Broker.Liveness
