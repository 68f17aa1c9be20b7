/- module: CbDaemon/Broker/WorkerLoop
   source: src/zmq/messaging_server.h, src/zmq/messaging_server.cpp (worker_routine)
   digest: The loop of a worker thread: its liveness, its waits, its replies and its heartbeats. -/

import Mathlib.Data.List.Chain
import Mathlib.Data.List.DropRight
import Mathlib.Data.List.Forall2
import CbDaemon.Broker.Envelope
import CbDaemon.Broker.Loop

set_option autoImplicit false
set_option relaxedAutoImplicit false

namespace CbDaemon.Broker.WorkerLoop
open Base.Run Codec.Integer Codec.Hex Envelope
open Loop (heartbeatLiveness heartbeatInterval)

def intervalInit : UInt64 := 1000

def intervalMax : UInt64 := 32000

/-- `HEARTBEAT_LIVENESS` as the `size_t` of the loop. -/
def fullLiveness : UInt64 := UInt64.ofInt heartbeatLiveness

def heartbeatText : Text := [72, 69, 65, 82, 84, 66, 69, 65, 84]

/-- What the thread does to the outside. A sleep closes the socket, and the READY
behind it is the first message of the next one. A heartbeat is kept with its time. -/
inductive Action where
  | ready
  | reply (frames : List Text)
  | heartbeat (clock : Int)
  | sleep (msecs : Int32)
  deriving DecidableEq

/-- The variables of `worker_routine`, whether the process was aborted, and what
the thread has done. -/
structure State where
  liveness : UInt64
  interval : UInt64
  heartbeatAt : Int
  aborted : Bool
  actions : List Action

/-- What one turn of the loop finds: the message if the poll has one, what
`processRequest` makes of a text, and the two times read from the clock. -/
structure Turn where
  message : Option (List Text)
  processRequest : Text → ObjectText
  clock : Int
  later : Int

/-- The start of `worker_routine`. -/
def start (clock : Int) : State :=
  ⟨fullLiveness, intervalInit, clock + heartbeatInterval, false, [.ready]⟩

def IsHeartbeat (msg : List Text) : Prop := msg.length = 1 ∧ body msg = heartbeatText

instance (msg : List Text) : Decidable (IsHeartbeat msg) := inferInstanceAs (Decidable (_ ∧ _))

def onMessage (processRequest : Text → ObjectText) (frames : List Text) (s : State) : State :=
  let msg := recv frames
  if msg.length = 3 then
    match send (bodySet (processRequest (body msg)).text msg) with
    | none => { s with aborted := true }
    | some frames =>
      { s with
        actions := s.actions ++ [.reply frames]
        liveness := fullLiveness
        interval := intervalInit }
  else if IsHeartbeat msg then { s with liveness := fullLiveness, interval := intervalInit }
  else { s with interval := intervalInit }

/-- The branch without. `s_sleep` takes an `int`. -/
def onSilence (s : State) : State :=
  let liveness := s.liveness - 1
  if liveness = 0 then
    { s with
      actions := s.actions ++ [.sleep s.interval.toUInt32.toInt32, .ready]
      interval := if s.interval < intervalMax then s.interval * 2 else s.interval
      liveness := fullLiveness }
  else { s with liveness := liveness }

def sendHeartbeat (clock later : Int) (s : State) : State :=
  if clock > s.heartbeatAt then
    { s with heartbeatAt := later + heartbeatInterval, actions := s.actions ++ [.heartbeat later] }
  else s

def turn (s : State) (t : Turn) : State :=
  if s.aborted then s
  else
    let s := match t.message with
      | some frames => onMessage t.processRequest frames s
      | none => onSilence s
    if s.aborted then s else sendHeartbeat t.clock t.later s

/-! What a turn is told about the broker. -/

/-- A request or a heartbeat, any other message, or none. -/
inductive Signal where
  | alive
  | invalid
  | silent
  deriving DecidableEq

def Turn.signal (t : Turn) : Signal :=
  match t.message with
  | none => .silent
  | some frames =>
    if (recv frames).length = 3 ∨ IsHeartbeat (recv frames) then .alive else .invalid

def Turn.reply (t : Turn) : Option (List Text) :=
  t.message.bind fun frames =>
    match workerRoutine t.processRequest frames with
    | .replied frames => some frames
    | _ => none

/-- The process ends in `send`. -/
def Turn.aborts (t : Turn) : Bool :=
  t.message.any fun frames => workerRoutine t.processRequest frames = .aborted

def nextLiveness (liveness : UInt64) : Signal → UInt64
  | .alive => fullLiveness
  | .invalid => liveness
  | .silent => if liveness - 1 = 0 then fullLiveness else liveness - 1

def nextInterval (liveness interval : UInt64) : Signal → UInt64
  | .silent => if liveness - 1 = 0 ∧ interval < intervalMax then interval * 2 else interval
  | _ => intervalInit

def turnActions (s : State) (t : Turn) : List Action :=
  match t.message with
  | some _ => (t.reply.map Action.reply).toList
  | none => if s.liveness - 1 = 0 then [.sleep s.interval.toUInt32.toInt32, .ready] else []

def turnHeartbeat (s : State) (t : Turn) : List Action :=
  if t.clock > s.heartbeatAt then [.heartbeat t.later] else []

private theorem onMessage_eq (processRequest : Text → ObjectText) (frames : List Text) (s : State) :
    onMessage processRequest frames s =
      match workerRoutine processRequest frames with
      | .aborted => { s with aborted := true }
      | .replied reply =>
        { s with
          actions := s.actions ++ [.reply reply]
          liveness := fullLiveness
          interval := intervalInit }
      | .silent =>
        { s with
          liveness := if IsHeartbeat (recv frames) then fullLiveness else s.liveness
          interval := intervalInit } := by
  simp only [onMessage, workerRoutine]
  by_cases three : (recv frames).length = 3
  · simp only [three, if_true]
    cases send (bodySet (processRequest (body (recv frames))).text (recv frames)) with
    | none => rfl
    | some reply => rfl
  · simp only [three, if_false]
    split_ifs <;> rfl

private theorem workerRoutine_eq_silent {processRequest : Text → ObjectText} {frames : List Text} :
    workerRoutine processRequest frames = .silent ↔ (recv frames).length ≠ 3 := by
  simp only [workerRoutine]
  by_cases three : (recv frames).length = 3
  · simp only [three, if_true, ne_eq, not_true_eq_false, iff_false]
    cases send (bodySet (processRequest (body (recv frames))).text (recv frames)) with
    | none => exact Outcome.noConfusion
    | some reply => exact Outcome.noConfusion
  · simp [three]

private theorem turn_of_aborted {s : State} (ended : s.aborted = true) (t : Turn) :
    turn s t = s := by
  rw [turn, if_pos ended]

private theorem turn_of_aborts {s : State} {t : Turn} (running : s.aborted = false)
    (aborts : t.aborts = true) : turn s t = { s with aborted := true } := by
  obtain ⟨message, processRequest, clock, later⟩ := t
  cases message with
  | none => cases aborts
  | some frames =>
    have ended : workerRoutine processRequest frames = .aborted := of_decide_eq_true aborts
    simp only [turn, running, onMessage_eq, ended]
    rfl

private theorem sendHeartbeat_eq (s : State) (t : Turn) :
    sendHeartbeat t.clock t.later s =
      { s with
        heartbeatAt := if t.clock > s.heartbeatAt then t.later + heartbeatInterval else s.heartbeatAt
        actions := s.actions ++ turnHeartbeat s t } := by
  rw [sendHeartbeat, turnHeartbeat]
  by_cases due : t.clock > s.heartbeatAt
  · simp only [if_pos due]
  · simp only [if_neg due, List.append_nil]

private theorem onSilence_eq {s : State} {t : Turn} (quiet : t.message = none) :
    onSilence s =
      { s with
        liveness := nextLiveness s.liveness t.signal
        interval := nextInterval s.liveness s.interval t.signal
        actions := s.actions ++ turnActions s t } := by
  simp only [onSilence, Turn.signal, turnActions, quiet, nextLiveness, nextInterval]
  by_cases last : s.liveness - 1 = 0
  · simp only [last, if_true, true_and]
  · simp only [last, if_false, false_and, List.append_nil]

private theorem onMessage_eq_next {s : State} {t : Turn} {frames : List Text}
    (received : t.message = some frames) (goes : t.aborts = false) :
    onMessage t.processRequest frames s =
      { s with
        liveness := nextLiveness s.liveness t.signal
        interval := nextInterval s.liveness s.interval t.signal
        actions := s.actions ++ turnActions s t } := by
  rw [Turn.aborts, received] at goes
  have kept : workerRoutine t.processRequest frames ≠ .aborted := of_decide_eq_false goes
  simp only [onMessage_eq, Turn.signal, turnActions, Turn.reply, received, Option.bind_some]
  cases made : workerRoutine t.processRequest frames with
  | aborted => exact absurd made kept
  | replied reply =>
    have three : (recv frames).length = 3 := by
      by_contra other
      rw [workerRoutine_eq_silent.mpr other] at made
      cases made
    simp only [three, true_or, if_true, nextLiveness, nextInterval]
    rfl
  | silent =>
    have other := workerRoutine_eq_silent.mp made
    by_cases heartbeat : IsHeartbeat (recv frames)
    · simp [heartbeat, nextLiveness, nextInterval]
    · simp [heartbeat, other, nextLiveness, nextInterval]

theorem turn_eq {s : State} {t : Turn} (running : s.aborted = false) (goes : t.aborts = false) :
    turn s t =
      { liveness := nextLiveness s.liveness t.signal
        interval := nextInterval s.liveness s.interval t.signal
        heartbeatAt := if t.clock > s.heartbeatAt then t.later + heartbeatInterval else s.heartbeatAt
        aborted := false
        actions := s.actions ++ turnActions s t ++ turnHeartbeat s t } := by
  have kept : ¬ s.aborted = true := by simp [running]
  rw [turn, if_neg kept]
  cases received : t.message with
  | none =>
    simp only [onSilence_eq received, running, sendHeartbeat_eq]
    rfl
  | some frames =>
    simp only [onMessage_eq_next received goes, running, sendHeartbeat_eq]
    rfl

/-! How long the broker has been silent. -/

def silentSince (ts : List Turn) : Nat :=
  (ts.rtakeWhile fun t => t.signal ≠ .alive).countP fun t => t.signal = .silent

def upToMessage (ts : List Turn) : List Turn := ts.rdropWhile fun t => t.signal = .silent

def waitsSince (ts : List Turn) : Nat := silentSince ts / 3 - silentSince (upToMessage ts) / 3

private theorem silentSince_append (ts : List Turn) (t : Turn) :
    silentSince (ts ++ [t]) =
      match t.signal with
      | .alive => 0
      | .invalid => silentSince ts
      | .silent => silentSince ts + 1 := by
  rw [silentSince, List.rtakeWhile_concat]
  cases received : t.signal with
  | alive => simp
  | invalid => simp [received, silentSince]
  | silent => simp [received, silentSince]

private theorem silentSince_append_silent {t : Turn} (quiet : t.signal = .silent) (ts : List Turn) :
    silentSince (ts ++ [t]) = silentSince ts + 1 := by
  rw [silentSince_append, quiet]

private theorem upToMessage_append (ts : List Turn) (t : Turn) :
    upToMessage (ts ++ [t]) = if t.signal = .silent then upToMessage ts else ts ++ [t] := by
  rw [upToMessage, List.rdropWhile_concat]
  simp [upToMessage]

private theorem silentSince_upToMessage_le (ts : List Turn) :
    silentSince (upToMessage ts) ≤ silentSince ts := by
  induction ts using List.reverseRecOn with
  | nil => exact le_rfl
  | append_singleton ts t ih =>
    rw [upToMessage_append]
    split_ifs with quiet
    · rw [silentSince_append_silent quiet]
      exact Nat.le_succ_of_le ih
    · exact le_rfl

/-- The variables of a loop that has seen these turns. -/
structure Counted (ts : List Turn) (s : State) : Prop where
  liveness : s.liveness.toNat = 3 - silentSince ts % 3
  interval : s.interval.toNat = 1000 * 2 ^ min 5 (waitsSince ts)

private theorem toNat_liveness_sub_one {liveness : UInt64} {n : Nat}
    (value : liveness.toNat = 3 - n % 3) :
    (liveness - 1).toNat = 2 - n % 3 := by
  have positive : (1 : UInt64) ≤ liveness := by
    rw [UInt64.le_iff_toNat_le, value]
    change 1 ≤ _
    omega
  rw [UInt64.toNat_sub_of_le _ _ positive, value]
  change _ - 1 = _
  omega

private theorem liveness_runs_out {liveness : UInt64} {n : Nat}
    (value : liveness.toNat = 3 - n % 3) :
    liveness - 1 = 0 ↔ (n + 1) % 3 = 0 := by
  rw [← UInt64.toNat_inj, toNat_liveness_sub_one value]
  change _ = 0 ↔ _
  omega

private theorem Counted.nextLiveness {ts : List Turn} {s : State} (counted : Counted ts s)
    (t : Turn) :
    (nextLiveness s.liveness t.signal).toNat = 3 - silentSince (ts ++ [t]) % 3 := by
  rw [silentSince_append]
  cases t.signal with
  | alive => rfl
  | invalid => exact counted.liveness
  | silent =>
    have out := liveness_runs_out counted.liveness
    simp only [WorkerLoop.nextLiveness]
    by_cases last : s.liveness - 1 = 0
    · rw [if_pos last, out.mp last]
      rfl
    · rw [if_neg last, toNat_liveness_sub_one counted.liveness]
      have more := mt out.mpr last
      omega

private theorem waitsSince_append (ts : List Turn) (t : Turn) :
    waitsSince (ts ++ [t]) =
      if t.signal = .silent then
        if (silentSince ts + 1) % 3 = 0 then waitsSince ts + 1 else waitsSince ts
      else 0 := by
  have before := silentSince_upToMessage_le ts
  rw [waitsSince, upToMessage_append]
  by_cases quiet : t.signal = .silent
  · rw [if_pos quiet, if_pos quiet, silentSince_append_silent quiet, waitsSince]
    split_ifs <;> omega
  · rw [if_neg quiet, if_neg quiet, Nat.sub_self]

private theorem doubled_interval {interval : UInt64} {k : Nat}
    (value : interval.toNat = 1000 * 2 ^ min 5 k) :
    (if interval < intervalMax then interval * 2 else interval).toNat =
      1000 * 2 ^ min 5 (k + 1) := by
  -- the interval doubles until it is the largest
  have below : interval < intervalMax ↔ k < 5 := by
    rw [UInt64.lt_iff_toNat_lt, value]
    change _ < 32000 ↔ _
    by_cases small : k < 5
    · have most : 2 ^ min 5 k ≤ 2 ^ 4 := Nat.pow_le_pow_right (by omega) (by omega)
      omega
    · rw [Nat.min_eq_left (by omega)]
      omega
  by_cases small : k < 5
  · have most : 2 ^ k ≤ 2 ^ 4 := Nat.pow_le_pow_right (by omega) (by omega)
    rw [Nat.min_eq_right (by omega)] at value
    rw [if_pos (below.mpr small), UInt64.toNat_mul, value, Nat.min_eq_right (by omega), pow_succ]
    change _ * 2 % 2 ^ 64 = _
    omega
  · rw [if_neg (mt below.mp small), value, Nat.min_eq_left (by omega), Nat.min_eq_left (by omega)]

private theorem Counted.nextInterval {ts : List Turn} {s : State} (counted : Counted ts s)
    (t : Turn) :
    (nextInterval s.liveness s.interval t.signal).toNat =
      1000 * 2 ^ min 5 (waitsSince (ts ++ [t])) := by
  rw [waitsSince_append]
  cases t.signal with
  | alive => rfl
  | invalid => rfl
  | silent =>
    simp only [WorkerLoop.nextInterval, liveness_runs_out counted.liveness, if_true]
    by_cases last : (silentSince ts + 1) % 3 = 0
    · simp only [last, true_and, if_true]
      exact doubled_interval counted.interval
    · simp only [last, false_and, if_false]
      exact counted.interval

private theorem Counted.turn {ts : List Turn} {s : State} (counted : Counted ts s) {t : Turn}
    (running : s.aborted = false) (goes : t.aborts = false) :
    Counted (ts ++ [t]) (turn s t) := by
  rw [turn_eq running goes]
  exact ⟨counted.nextLiveness t, counted.nextInterval t⟩

private theorem running_append {s : State} {ts : List Turn} {t : Turn}
    (running : (run turn s (ts ++ [t])).aborted = false) :
    (run turn s ts).aborted = false ∧ t.aborts = false := by
  rw [run_append, run_cons, run_nil] at running
  cases before : (run WorkerLoop.turn s ts).aborted with
  | true =>
    rw [turn_of_aborted before, before] at running
    cases running
  | false =>
    refine ⟨rfl, ?_⟩
    cases ends : t.aborts with
    | true =>
      rw [turn_of_aborts before ends] at running
      cases running
    | false => rfl

private theorem counted_run {clock : Int} {ts : List Turn}
    (running : (run turn (start clock) ts).aborted = false) :
    Counted ts (run turn (start clock) ts) := by
  induction ts using List.reverseRecOn with
  | nil => exact ⟨rfl, rfl⟩
  | append_singleton ts t ih =>
    obtain ⟨before, goes⟩ := running_append running
    rw [run_append]
    exact (ih before).turn before goes

/-! What the thread does in a run. -/

def waits (actions : List Action) : List Int :=
  actions.filterMap fun
    | .sleep msecs => some msecs.toInt
    | _ => none

def replies (actions : List Action) : List (List Text) :=
  actions.filterMap fun
    | .reply frames => some frames
    | _ => none

def beats (actions : List Action) : List Int :=
  actions.filterMap fun
    | .heartbeat clock => some clock
    | _ => none

private theorem waits_append (as bs : List Action) : waits (as ++ bs) = waits as ++ waits bs :=
  List.filterMap_append

private theorem replies_append (as bs : List Action) :
    replies (as ++ bs) = replies as ++ replies bs :=
  List.filterMap_append

private theorem beats_append (as bs : List Action) : beats (as ++ bs) = beats as ++ beats bs :=
  List.filterMap_append

private theorem signal_eq_silent {t : Turn} : t.signal = .silent ↔ t.message = none := by
  rw [Turn.signal]
  cases t.message with
  | none => exact iff_of_true rfl rfl
  | some frames =>
    refine iff_of_false ?_ (Option.some_ne_none frames)
    by_cases known : (recv frames).length = 3 ∨ IsHeartbeat (recv frames)
    · simp [known]
    · simp [known]

private theorem waits_turnActions (s : State) (t : Turn) :
    waits (turnActions s t) =
      if t.signal = .silent ∧ s.liveness - 1 = 0 then [s.interval.toUInt32.toInt32.toInt] else [] := by
  simp only [signal_eq_silent, turnActions]
  cases t.message with
  | none =>
    simp only [true_and]
    split_ifs <;> rfl
  | some frames => cases t.reply <;> rfl

private theorem replies_turnActions (s : State) (t : Turn) :
    replies (turnActions s t) = t.reply.toList := by
  rw [turnActions]
  cases received : t.message with
  | none =>
    rw [Turn.reply, received]
    simp only [Option.bind_none, Option.toList_none]
    split_ifs <;> rfl
  | some frames => cases t.reply <;> rfl

private theorem beats_turnActions (s : State) (t : Turn) : beats (turnActions s t) = [] := by
  rw [turnActions]
  cases t.message with
  | none =>
    simp only
    split_ifs <;> rfl
  | some frames => cases t.reply <;> rfl

private theorem waits_turnHeartbeat (s : State) (t : Turn) : waits (turnHeartbeat s t) = [] := by
  rw [turnHeartbeat]
  split_ifs <;> rfl

private theorem replies_turnHeartbeat (s : State) (t : Turn) :
    replies (turnHeartbeat s t) = [] := by
  rw [turnHeartbeat]
  split_ifs <;> rfl

private theorem toInt_interval {interval : UInt64} {k : Nat}
    (value : interval.toNat = 1000 * 2 ^ min 5 k) :
    interval.toUInt32.toInt32.toInt = 1000 * 2 ^ min 5 k := by
  have most : 2 ^ min 5 k ≤ 2 ^ 5 := Nat.pow_le_pow_right (by omega) (by omega)
  have narrowed : interval.toUInt32.toBitVec.toNat = 1000 * 2 ^ min 5 k := by
    change interval.toUInt32.toNat = _
    rw [UInt64.toNat_toUInt32, value, Nat.mod_eq_of_lt (by omega)]
  change interval.toUInt32.toBitVec.toInt = _
  rw [BitVec.toInt_eq_toNat_of_lt (by omega), narrowed]
  push_cast
  rfl

/-- The queue is given up with every third silent poll since its last sign of life. The wait
doubles with each time since the last message, valid or not, up to 32 seconds. -/
theorem waits_run_append {clock : Int} {ts : List Turn} {t : Turn}
    (running : (run turn (start clock) (ts ++ [t])).aborted = false) :
    waits (run turn (start clock) (ts ++ [t])).actions =
      waits (run turn (start clock) ts).actions ++
        if t.signal = .silent ∧ silentSince (ts ++ [t]) % 3 = 0 then [1000 * 2 ^ min 5 (waitsSince ts)]
        else [] := by
  obtain ⟨before, goes⟩ := running_append running
  have counted := counted_run before
  have added := waits_turnActions (run turn (start clock) ts) t
  simp only [toInt_interval counted.interval, liveness_runs_out counted.liveness] at added
  rw [run_append, run_cons, run_nil, turn_eq before goes, waits_append, waits_append,
    waits_turnHeartbeat, List.append_nil, added]
  by_cases quiet : t.signal = .silent
  · rw [silentSince_append_silent quiet]
  · simp only [quiet, false_and]

def emptyObject : ObjectText := ⟨[123, 125, 10], rfl, by decide⟩

/-- A poll without a message, two seconds after the start. -/
def quietTurn : Turn := ⟨none, fun _ => emptyObject, 2000, 2000⟩

theorem waits_run_quiet :
    waits (run turn (start 0) ([quietTurn, quietTurn] ++ [quietTurn])).actions =
      waits (run turn (start 0) [quietTurn, quietTurn]).actions ++
        if quietTurn.signal = .silent ∧ silentSince ([quietTurn, quietTurn] ++ [quietTurn]) % 3 = 0
        then [1000 * 2 ^ min 5 (waitsSince [quietTurn, quietTurn])] else [] := by
  have running : (run turn (start 0) ([quietTurn, quietTurn] ++ [quietTurn])).aborted = false := by
    decide
  exact waits_run_append running

private theorem replies_turn {s : State} {t : Turn} (running : s.aborted = false)
    (goes : t.aborts = false) :
    replies (turn s t).actions = replies s.actions ++ t.reply.toList := by
  rw [turn_eq running goes, replies_append, replies_append, replies_turnActions,
    replies_turnHeartbeat, List.append_nil]

private theorem run_of_aborted {s : State} (ended : s.aborted = true) (ts : List Turn) :
    run turn s ts = s := by
  induction ts with
  | nil => rfl
  | cons t ts ih => rw [run_cons, turn_of_aborted ended, ih]

private theorem replies_run_of_running {s : State} (running : s.aborted = false) (ts : List Turn) :
    replies (run turn s ts).actions =
      replies s.actions ++ (ts.takeWhile fun t => !t.aborts).filterMap Turn.reply := by
  induction ts generalizing s with
  | nil => simp
  | cons t ts ih =>
    rw [run_cons]
    cases ends : t.aborts with
    | true =>
      rw [turn_of_aborts running ends, run_of_aborted rfl]
      simp [ends]
    | false =>
      have next : (turn s t).aborted = false := by rw [turn_eq running ends]
      rw [ih next, replies_turn running ends, List.takeWhile_cons_of_pos (by simp [ends]),
        List.filterMap_cons]
      cases t.reply with
      | none => simp
      | some frames => simp

def Turn.parts (t : Turn) : Option Nat := t.message.map fun frames => (recv frames).length

/-- The answer to the message of a turn: its parts, with the body replaced by what
`processRequest` makes of it. -/
def Answers (t : Turn) (reply : List Text) : Prop :=
  ∃ frames, t.message = some frames ∧
    send (bodySet (t.processRequest (body (recv frames))).text (recv frames)) = some reply

theorem reply_of_three {t : Turn} (goes : t.aborts = false) (three : t.parts = some 3) :
    ∃ reply, t.reply = some reply ∧ Answers t reply := by
  obtain ⟨frames, received, length⟩ := Option.map_eq_some_iff.mp three
  rw [Turn.aborts, received] at goes
  have kept : workerRoutine t.processRequest frames ≠ .aborted := of_decide_eq_false goes
  simp only [workerRoutine, length, if_true] at kept
  cases sent : send (bodySet (t.processRequest (body (recv frames))).text (recv frames)) with
  | none => simp [sent] at kept
  | some reply =>
    refine ⟨reply, ?_, frames, received, sent⟩
    simp [Turn.reply, received, workerRoutine, length, sent]

theorem reply_of_other {t : Turn} (other : t.parts ≠ some 3) : t.reply = none := by
  unfold Turn.reply
  cases received : t.message with
  | none => rfl
  | some frames =>
    have length : (recv frames).length ≠ 3 := by
      intro three
      rw [Turn.parts, received] at other
      exact other (congrArg some three)
    rw [Option.bind_some, workerRoutine_eq_silent.mpr length]

private theorem parts_of_aborts {t : Turn} (aborts : t.aborts = true) : t.parts = some 3 := by
  rw [Turn.aborts, Option.any_eq_true] at aborts
  obtain ⟨frames, received, ended⟩ := aborts
  by_contra other
  have length : (recv frames).length ≠ 3 := by
    intro three
    rw [Turn.parts, received] at other
    exact other (congrArg some three)
  rw [workerRoutine_eq_silent.mpr length] at ended
  cases ended

private theorem forall₂_reply {ts : List Turn} (go : ∀ t ∈ ts, t.aborts = false) :
    List.Forall₂ Answers (ts.filter fun t => t.parts = some 3) (ts.filterMap Turn.reply) := by
  induction ts with
  | nil => exact .nil
  | cons t ts ih =>
    obtain ⟨goes, others⟩ := List.forall_mem_cons.mp go
    by_cases three : t.parts = some 3
    · obtain ⟨reply, made, answers⟩ := reply_of_three goes three
      rw [List.filter_cons_of_pos (by simp [three]), List.filterMap_cons_some made]
      exact .cons answers (ih others)
    · rw [List.filter_cons_of_neg (by simp [three]), List.filterMap_cons_none (reply_of_other three)]
      exact ih others

/-- Every message of three parts is answered once, in the order they come in, until the process
is aborted, which only such a message can do; nothing else is answered. -/
theorem replies_run (clock : Int) (ts : List Turn) :
    List.Forall₂ Answers ((ts.takeWhile fun t => !t.aborts).filter fun t => t.parts = some 3)
        (replies (run turn (start clock) ts).actions) ∧
      ∀ t : Turn, t.aborts = true → t.parts = some 3 := by
  constructor
  · have logged : replies (run turn (start clock) ts).actions =
        (ts.takeWhile fun t => !t.aborts).filterMap Turn.reply := replies_run_of_running rfl ts
    rw [logged]
    apply forall₂_reply
    intro t among
    have goes := List.mem_takeWhile_imp among
    simpa using goes
  · exact fun t => parts_of_aborts

private theorem beats_turn {s : State} {t : Turn} (running : s.aborted = false)
    (goes : t.aborts = false) :
    beats (turn s t).actions =
      beats s.actions ++ if t.clock > s.heartbeatAt then [t.later] else [] := by
  rw [turn_eq running goes, beats_append, beats_append, beats_turnActions, List.append_nil,
    turnHeartbeat]
  split_ifs <;> rfl

private theorem heartbeatAt_turn {s : State} {t : Turn} (running : s.aborted = false)
    (goes : t.aborts = false) :
    (turn s t).heartbeatAt =
      if t.clock > s.heartbeatAt then t.later + heartbeatInterval else s.heartbeatAt := by
  rw [turn_eq running goes]

/-- The heartbeats so far are far enough apart, and the next is due after the last of them. -/
structure Timed (clock : Int) (s : State) : Prop where
  spaced : List.IsChain (fun a b => a + heartbeatInterval < b) (clock :: beats s.actions)
  due : ∀ last ∈ (clock :: beats s.actions).getLast?, s.heartbeatAt = last + heartbeatInterval

private theorem Timed.start (clock : Int) : Timed clock (start clock) :=
  ⟨.singleton clock, fun last only => by rw [← Option.some.inj only]; rfl⟩

private theorem Timed.turn {clock : Int} {s : State} (timed : Timed clock s) {t : Turn}
    (forward : t.clock ≤ t.later) (running : s.aborted = false) (goes : t.aborts = false) :
    Timed clock (turn s t) ∧
      ∀ last ∈ (clock :: beats (turn s t).actions).getLast?, t.clock ≤ last + heartbeatInterval := by
  -- the second reading of the clock is what the next heartbeat is counted from
  have at' := heartbeatAt_turn running goes
  have sent := beats_turn running goes
  by_cases now : t.clock > s.heartbeatAt
  · rw [if_pos now] at at' sent
    rw [sent, ← List.cons_append, List.getLast?_append, List.getLast?_singleton, Option.some_or]
    refine ⟨⟨?_, ?_⟩, ?_⟩
    · rw [sent, ← List.cons_append, List.isChain_append]
      refine ⟨timed.spaced, .singleton _, fun last is next first => ?_⟩
      rw [← Option.some.inj first]
      have before := timed.due last is
      omega
    · intro last is
      rw [sent, ← List.cons_append, List.getLast?_append, List.getLast?_singleton,
        Option.some_or] at is
      rw [at', ← Option.some.inj is]
    · intro last is
      rw [← Option.some.inj is, heartbeatInterval]
      omega
  · rw [if_neg now] at at' sent
    rw [List.append_nil] at sent
    rw [sent]
    refine ⟨⟨?_, ?_⟩, ?_⟩
    · rw [sent]
      exact timed.spaced
    · rw [sent, at']
      exact timed.due
    · intro last is
      rw [← timed.due last is]
      omega

private theorem timed_run {clock : Int} {ts : List Turn} (forward : ∀ t ∈ ts, t.clock ≤ t.later)
    (running : (run turn (start clock) ts).aborted = false) :
    Timed clock (run turn (start clock) ts) := by
  induction ts using List.reverseRecOn with
  | nil => exact Timed.start clock
  | append_singleton ts t ih =>
    obtain ⟨before, goes⟩ := running_append running
    have timed := ih (fun u among => forward u (List.mem_append_left _ among)) before
    rw [run_append]
    exact (timed.turn (forward t (by simp)) before goes).1

/-- Heartbeats are more than a second apart, the first that long after the start, and whenever
the loop has come to its end the last one is at most a second old. -/
theorem heartbeats_regular {clock : Int} {ts : List Turn} {t : Turn}
    (forward : ∀ u ∈ ts ++ [t], u.clock ≤ u.later)
    (running : (run turn (start clock) (ts ++ [t])).aborted = false) :
    List.IsChain (fun a b => a + heartbeatInterval < b)
        (clock :: beats (run turn (start clock) (ts ++ [t])).actions) ∧
      ∀ last ∈ (clock :: beats (run turn (start clock) (ts ++ [t])).actions).getLast?,
        t.clock ≤ last + heartbeatInterval := by
  obtain ⟨before, goes⟩ := running_append running
  have timed := timed_run (fun u among => forward u (List.mem_append_left _ among)) before
  rw [run_append]
  obtain ⟨after, recent⟩ := timed.turn (forward t (by simp)) before goes
  exact ⟨after.spaced, recent⟩

theorem heartbeats_regular_quiet :
    List.IsChain (fun a b => a + heartbeatInterval < b)
        (0 :: beats (run turn (start 0) ([quietTurn] ++ [quietTurn])).actions) ∧
      ∀ last ∈ (0 :: beats (run turn (start 0) ([quietTurn] ++ [quietTurn])).actions).getLast?,
        quietTurn.clock ≤ last + heartbeatInterval := by
  have running : (run turn (start 0) ([quietTurn] ++ [quietTurn])).aborted = false := by decide
  refine heartbeats_regular ?_ running
  intro u among
  have same : u = quietTurn := (List.mem_replicate (n := 2).mp among).2
  rw [same]
  exact le_rfl

end CbDaemon.Broker.WorkerLoop
