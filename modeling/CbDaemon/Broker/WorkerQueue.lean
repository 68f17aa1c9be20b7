/- module: CbDaemon/Broker/WorkerQueue
   source: src/zmq/messaging_server.cpp (queue<T>)
   digest: The worker queue over every sequence of its operations, and the loop of its purge. -/

import Mathlib.Data.List.Nodup
import Mathlib.Data.List.Pairwise
import CbDaemon.Broker.Loop

set_option autoImplicit false
set_option relaxedAutoImplicit false

namespace CbDaemon.Broker.WorkerQueue
open Base.Run Loop

section

variable {Identity : Type}

/-- The loop of `_purge` from a position on: the queue it leaves, and the entries it
looked at. -/
def purgeLoop (clock : Int) (queue : Queue Identity) (it : Nat) :
    Queue Identity × List (Worker Identity) :=
  if inside : it < queue.length then
    let worker := queue[it]
    if clock > worker.expiry then
      -- `it = erase(it) - 1`, which is in front of the first entry if `it` was there
      let before : Int := it - 1
      let rest := purgeLoop clock (queue.eraseIdx it) (before + 1).toNat
      (rest.1, worker :: rest.2)
    else
      let rest := purgeLoop clock queue (it + 1)
      (rest.1, worker :: rest.2)
  else (queue, [])
termination_by queue.length - it
decreasing_by
  · rw [List.length_eraseIdx, if_pos inside]
    omega
  · omega

/-- The entries in front of the iterator stay, each one from it on is looked at once,
and those that have not expired are left in order. -/
private theorem purgeLoop_append (clock : Int) (front rest : Queue Identity) :
    purgeLoop clock (front ++ rest) front.length = (front ++ rest.purge clock, rest) := by
  induction rest generalizing front with
  | nil =>
    rw [purgeLoop, dif_neg (by simp)]
    rfl
  | cons worker rest ih =>
    have inside : front.length < (front ++ worker :: rest).length := by simp
    have entry : (front ++ worker :: rest)[front.length] = worker := by simp
    rw [purgeLoop, dif_pos inside]
    simp only [entry]
    by_cases expired : clock > worker.expiry
    · have erased : (front ++ worker :: rest).eraseIdx front.length = front ++ rest := by
        rw [List.eraseIdx_append_of_length_le (Nat.le_refl _), Nat.sub_self]
        rfl
      have position : ((front.length : Int) - 1 + 1).toNat = front.length := by omega
      have dropped : Queue.purge clock (worker :: rest) = Queue.purge clock rest :=
        List.filter_cons_of_neg (by simpa only [decide_eq_true_eq, not_not] using expired)
      rw [if_pos expired, erased, position, ih, dropped]
    · have kept : Queue.purge clock (worker :: rest) = worker :: Queue.purge clock rest :=
        List.filter_cons_of_pos (by simpa only [decide_eq_true_eq] using expired)
      have shifted := ih (front ++ [worker])
      rw [List.append_assoc, List.singleton_append, List.length_append, List.length_singleton,
        List.append_assoc, List.singleton_append] at shifted
      rw [if_neg expired, shifted, kept]

private theorem purgeLoop_eq (clock : Int) (queue : Queue Identity) :
    purgeLoop clock queue 0 = (queue.purge clock, queue) := purgeLoop_append clock [] queue

end

/-! What the operations do to the identities. -/

section

variable {Identity : Type}

def identities (queue : Queue Identity) : List Identity := queue.map Worker.identity

private theorem identities_purge (clock : Int) (queue : Queue Identity) :
    (identities (queue.purge clock)).Sublist (identities queue) :=
  List.filter_sublist.map Worker.identity

variable [DecidableEq Identity]

theorem identities_refresh (clock : Int) (identity : Identity) (queue : Queue Identity) :
    identities (queue.refresh clock identity) = identities queue := by
  induction queue with
  | nil => rfl
  | cons worker queue ih =>
    rw [Queue.refresh]
    split
    · rename_i same
      rw [identities, identities, List.map_cons, List.map_cons, same]
    · exact congrArg (worker.identity :: ·) ih

theorem append_of_not_mem {queue : Queue Identity} {identity : Identity}
    (outside : identity ∉ identities queue) (clock : Int) :
    queue.append clock identity = queue ++ [⟨identity, expiryAt clock⟩] := if_neg outside

theorem append_of_mem {queue : Queue Identity} {identity : Identity}
    (inside : identity ∈ identities queue) (clock : Int) :
    queue.append clock identity = queue := if_pos inside

theorem identities_append {queue : Queue Identity} {identity : Identity}
    (outside : identity ∉ identities queue) (clock : Int) :
    identities (queue.append clock identity) = identities queue ++ [identity] := by
  rw [append_of_not_mem outside, identities, List.map_append]
  rfl

theorem delete_of_not_mem {queue : Queue Identity} {identity : Identity}
    (outside : identity ∉ identities queue) : queue.delete identity = queue := by
  apply List.eraseP_of_forall_not
  intro worker mem same
  exact outside (of_decide_eq_true same ▸ List.mem_map_of_mem mem)

private theorem identities_delete (identity : Identity) (queue : Queue Identity) :
    (identities (queue.delete identity)).Sublist (identities queue) :=
  List.eraseP_sublist.map Worker.identity

/-! Every sequence of operations. -/

/-- A call of one of the operations, with the time it reads from the clock. -/
inductive Operation (Identity : Type) where
  | append (identity : Identity) (clock : Int)
  | delete (identity : Identity)
  | refresh (identity : Identity) (clock : Int)
  | dequeue
  | purge (clock : Int)

/-- The queue, with a record of the appends that were successful: how many there were,
and which of them was the last one of an identity. -/
structure History (Identity : Type) where
  queue : Queue Identity
  appends : Nat
  lastAppend : Identity → Nat

def History.start : History Identity := ⟨[], 0, fun _ => 0⟩

/-- One call. A dequeue of the empty queue fails its assertion and does nothing. -/
def History.call (history : History Identity) : Operation Identity → History Identity
  | .append identity clock =>
    if identity ∈ identities history.queue then
      { history with queue := history.queue.append clock identity }
    else
      { queue := history.queue.append clock identity
        appends := history.appends + 1
        lastAppend := Function.update history.lastAppend identity history.appends }
  | .delete identity => { history with queue := history.queue.delete identity }
  | .refresh identity clock => { history with queue := history.queue.refresh clock identity }
  | .dequeue =>
    match history.queue.dequeue with
    | none => history
    | some (_, queue) => { history with queue := queue }
  | .purge clock => { history with queue := (purgeLoop clock history.queue 0).1 }

/-- The entries stand in the order of their last successful append. -/
structure Ordered (history : History Identity) : Prop where
  increasing : (identities history.queue).Pairwise fun first second =>
    history.lastAppend first < history.lastAppend second
  counted : ∀ identity ∈ identities history.queue, history.lastAppend identity < history.appends

omit [DecidableEq Identity] in
private theorem Ordered.sublist {history : History Identity} (ordered : Ordered history)
    {queue : Queue Identity} (fewer : (identities queue).Sublist (identities history.queue)) :
    Ordered { history with queue := queue } where
  increasing := ordered.increasing.sublist fewer
  counted identity mem := ordered.counted identity (fewer.subset mem)

private theorem Ordered.append {history : History Identity} (ordered : Ordered history)
    (identity : Identity) (clock : Int) : Ordered (history.call (.append identity clock)) := by
  by_cases inside : identity ∈ identities history.queue
  · rw [History.call, if_pos inside, append_of_mem inside]
    exact ordered
  · rw [History.call, if_neg inside]
    have unchanged : ∀ other ∈ identities history.queue,
        Function.update history.lastAppend identity history.appends other =
          history.lastAppend other := by
      intro other mem
      apply Function.update_of_ne
      rintro rfl
      exact inside mem
    constructor
    · -- the new entry has the greatest number, and the others keep theirs
      simp only [identities_append inside]
      refine List.pairwise_append.mpr ⟨?_, List.pairwise_singleton _ _, ?_⟩
      · refine ordered.increasing.imp_of_mem ?_
        intro first second memFirst memSecond less
        rw [unchanged first memFirst, unchanged second memSecond]
        exact less
      · intro other mem new memNew
        rw [List.mem_singleton.mp memNew, Function.update_self, unchanged other mem]
        exact ordered.counted other mem
    · simp only [identities_append inside]
      intro other mem
      obtain old | new := List.mem_append.mp mem
      · rw [unchanged other old]
        exact Nat.lt_succ_of_lt (ordered.counted other old)
      · rw [List.mem_singleton.mp new, Function.update_self]
        exact Nat.lt_succ_self _

private theorem Ordered.call {history : History Identity} (ordered : Ordered history)
    (operation : Operation Identity) : Ordered (history.call operation) := by
  cases operation with
  | append identity clock => exact ordered.append identity clock
  | delete identity => exact ordered.sublist (identities_delete identity history.queue)
  | refresh identity clock =>
    apply ordered.sublist
    rw [identities_refresh]
  | dequeue =>
    obtain ⟨queue, appends, lastAppend⟩ := history
    cases queue with
    | nil => exact ordered
    | cons worker queue => exact ordered.sublist (List.sublist_cons_self _ _)
  | purge clock =>
    apply ordered.sublist
    rw [purgeLoop_eq]
    exact identities_purge clock history.queue

private theorem Ordered.run (operations : List (Operation Identity)) :
    Ordered (Base.Run.run History.call History.start operations) :=
  invariant Ordered (fun _ operation ordered => ordered.call operation)
    ⟨List.Pairwise.nil, fun _ mem => absurd mem List.not_mem_nil⟩ operations

omit [DecidableEq Identity] in
private theorem Ordered.nodup {history : History Identity} (ordered : Ordered history) :
    (identities history.queue).Nodup := by
  -- the order leaves no room for an identity to stand twice
  apply ordered.increasing.imp
  intro first second less same
  rw [same] at less
  exact Nat.lt_irrefl _ less

omit [DecidableEq Identity] in
private theorem Ordered.dequeue {history : History Identity} (ordered : Ordered history)
    (some : history.queue ≠ []) :
    ∃ identity queue, history.queue.dequeue = .some (identity, queue) ∧
      identities history.queue = identity :: identities queue ∧
      ∀ other ∈ identities queue, history.lastAppend identity < history.lastAppend other := by
  obtain ⟨worker, queue, shape⟩ := List.exists_cons_of_ne_nil some
  have increasing := ordered.increasing
  rw [shape] at increasing ⊢
  exact ⟨worker.identity, queue, rfl, rfl, (List.pairwise_cons.mp increasing).1⟩

/-- After every sequence of calls no identity stands twice, the entries are in the order
of their last successful append, a dequeue takes the oldest one, and a purge looks at
every entry and leaves, in order, those whose expiry is not before the clock. -/
theorem queue_representation (operations : List (Operation Identity)) :
    let history := run History.call (History.start : History Identity) operations
    (identities history.queue).Nodup ∧
      (identities history.queue).Pairwise (fun first second =>
        history.lastAppend first < history.lastAppend second) ∧
      (history.queue ≠ [] → ∃ identity queue, history.queue.dequeue = some (identity, queue) ∧
        identities history.queue = identity :: identities queue ∧
        ∀ other ∈ identities queue, history.lastAppend identity < history.lastAppend other) ∧
      ∀ clock, purgeLoop clock history.queue 0 =
        (history.queue.filter fun worker => ¬ worker.expiry < clock, history.queue) := by
  intro history
  have ordered : Ordered history := Ordered.run operations
  exact ⟨ordered.nodup, ordered.increasing, ordered.dequeue,
    fun clock => purgeLoop_eq clock history.queue⟩

end

end CbDaemon.Broker.WorkerQueue
