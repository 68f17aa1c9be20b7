/- module: CbDaemon/Base/CheckInsert
   layer: library
   digest: Workers that look for a stored key and store one of their own if there is none. -/

import Mathlib.Algebra.Order.Ring.Int
import Mathlib.Algebra.Order.Ring.Nat
import Mathlib.Data.List.Basic
import Mathlib.Tactic.Common

set_option autoImplicit false
set_option relaxedAutoImplicit false

namespace CbDaemon.Base.CheckInsert

/-- How far a worker is: not at work, about to store a key because it found none, or in
possession of one. -/
inductive Phase (Key : Type*) where
  | idle
  | absent
  | holds (key : Key)

/-- The stored keys and the workers. -/
structure Slot (Worker Key : Type*) where
  stored : List Key
  phase : Worker → Phase Key

inductive Event (Worker Key : Type*) where
  | query (worker : Worker)
  | insert (worker : Worker) (key : Key)
  | leave (worker : Worker)

variable {Worker Key : Type*} [DecidableEq Worker]

/-- One step, where a stored key is found as `read` makes it. -/
def step (read : Key → Key) (slot : Slot Worker Key) : Event Worker Key → Slot Worker Key
  | .query worker =>
    let found := match slot.stored with
      | [] => .absent
      | key :: _ => .holds (read key)
    { slot with phase := Function.update slot.phase worker found }
  | .insert worker key =>
    match slot.phase worker with
    | .absent => ⟨slot.stored ++ [key], Function.update slot.phase worker (.holds key)⟩
    | _ => slot
  | .leave worker => { slot with phase := Function.update slot.phase worker .idle }

def Undisturbed (slot : Slot Worker Key) : Event Worker Key → Prop
  | .query worker => ∀ other, other ≠ worker → slot.phase other ≠ .absent
  | .insert _ _ | .leave _ => True

def Faithful (read : Key → Key) (slot : Slot Worker Key) : Event Worker Key → Prop
  | .insert worker key => slot.phase worker = .absent → read key = key
  | .query _ | .leave _ => True

/-- One key at most is stored, and one worker at most is about to store one, with none
stored. -/
structure Single (slot : Slot Worker Key) : Prop where
  stored : slot.stored.length ≤ 1
  absent : ∀ worker, slot.phase worker = .absent → slot.stored = []
  unique : ∀ worker other, slot.phase worker = .absent → slot.phase other = .absent →
    worker = other

/-- Every worker in possession of a key has the one that is stored, and it is read as it
is. -/
structure Agreed (read : Key → Key) (slot : Slot Worker Key) : Prop where
  readable : ∀ key ∈ slot.stored, read key = key
  held : ∀ worker key, slot.phase worker = .holds key → slot.stored = [key]

/-- A slot rests or takes an undisturbed step, which is faithful if `kept`. -/
def Moves (read : Key → Key) (kept : Prop) (slot next : Slot Worker Key) : Prop :=
  next = slot ∨ ∃ event, Undisturbed slot event ∧ (kept → Faithful read slot event) ∧
    next = step read slot event

variable {read : Key → Key} {slot : Slot Worker Key}

theorem step_insert {worker : Worker} (found : slot.phase worker = .absent) (key : Key) :
    step read slot (.insert worker key) =
      ⟨slot.stored ++ [key], Function.update slot.phase worker (.holds key)⟩ := by
  show (match slot.phase worker with
    | .absent => _
    | _ => _) = _
  rw [found]

private theorem eq_of_update {phase : Worker → Phase Key} {worker other : Worker}
    {next found : Phase Key}
    (moved : Function.update phase worker next other = found) :
    (other = worker ∧ next = found) ∨ (other ≠ worker ∧ phase other = found) := by
  by_cases same : other = worker
  · subst same
    rw [Function.update_self] at moved
    exact Or.inl ⟨rfl, moved⟩
  · rw [Function.update_of_ne same] at moved
    exact Or.inr ⟨same, moved⟩

section
omit [DecidableEq Worker]

theorem single_of_idle {phase : Worker → Phase Key} (idle : ∀ worker, phase worker = .idle) :
    Single ⟨[], phase⟩ := by
  refine ⟨Nat.zero_le 1, fun _ _ => rfl, ?_⟩
  intro worker _ absent _
  cases (idle worker).symm.trans absent

theorem agreed_of_idle {phase : Worker → Phase Key} (idle : ∀ worker, phase worker = .idle) :
    Agreed read ⟨[], phase⟩ := by
  constructor
  · intro key stored
    cases stored
  · intro worker key holds
    cases (idle worker).symm.trans holds

end

private theorem Single.move (single : Single slot) {worker : Worker} {next : Phase Key}
    (absent : next = .absent →
      slot.stored = [] ∧ ∀ other, other ≠ worker → slot.phase other ≠ .absent) :
    Single { slot with phase := Function.update slot.phase worker next } where
  stored := single.stored
  absent other moved := by
    rcases eq_of_update moved with ⟨_, new⟩ | ⟨_, old⟩
    · exact (absent new).1
    · exact single.absent other old
  unique first second moved moved' := by
    rcases eq_of_update moved with ⟨isWorker, new⟩ | ⟨different, old⟩
    · rcases eq_of_update moved' with ⟨isWorker', _⟩ | ⟨different', old'⟩
      · rw [isWorker, isWorker']
      · exact absurd old' ((absent new).2 second different')
    · rcases eq_of_update moved' with ⟨_, new'⟩ | ⟨_, old'⟩
      · exact absurd old ((absent new').2 first different)
      · exact single.unique first second old old'

private theorem Single.insert (single : Single slot) {worker : Worker} {key : Key}
    (found : slot.phase worker = .absent) :
    Single ⟨slot.stored ++ [key], Function.update slot.phase worker (.holds key)⟩ := by
  -- after the only worker that was about to store a key has stored one, none is
  have noneLeft : ∀ other, Function.update slot.phase worker (.holds key) other ≠ .absent := by
    intro other moved
    rcases eq_of_update moved with ⟨_, new⟩ | ⟨different, old⟩
    · cases new
    · exact different (single.unique other worker old found)
  constructor
  · show (slot.stored ++ [key]).length ≤ 1
    rw [single.absent worker found]
    exact Nat.le_refl 1
  · intro other moved
    exact absurd moved (noneLeft other)
  · intro first _ moved _
    exact absurd moved (noneLeft first)

private theorem Single.step (single : Single slot) {event : Event Worker Key}
    (undisturbed : Undisturbed slot event) : Single (step read slot event) := by
  cases event with
  | query worker =>
    apply single.move
    intro absent
    refine ⟨?_, undisturbed⟩
    split at absent
    next none => exact none
    next => cases absent
  | insert worker key =>
    show Single (match slot.phase worker with
      | .absent => ⟨slot.stored ++ [key], Function.update slot.phase worker (.holds key)⟩
      | _ => slot)
    split
    next found => exact single.insert found
    next => exact single
  | leave worker =>
    apply single.move
    intro impossible
    cases impossible

private theorem Agreed.move (agreed : Agreed read slot) {worker : Worker} {next : Phase Key}
    (held : ∀ key, next = .holds key → slot.stored = [key]) :
    Agreed read { slot with phase := Function.update slot.phase worker next } where
  readable := agreed.readable
  held other key moved := by
    rcases eq_of_update moved with ⟨_, new⟩ | ⟨_, old⟩
    · exact held key new
    · exact agreed.held other key old

private theorem Agreed.insert (agreed : Agreed read slot) {worker : Worker} {key : Key}
    (none : slot.stored = []) (readable : read key = key) :
    Agreed read ⟨slot.stored ++ [key], Function.update slot.phase worker (.holds key)⟩ := by
  rw [none, List.nil_append]
  constructor
  · intro stored isStored
    rw [List.mem_singleton.mp isStored, readable]
  · intro other held moved
    rcases eq_of_update moved with ⟨_, new⟩ | ⟨_, old⟩
    · cases new
      rfl
    · have stored := agreed.held other held old
      rw [none] at stored
      cases stored

private theorem Agreed.step (agreed : Agreed read slot) (single : Single slot)
    {event : Event Worker Key}
    (faithful : Faithful read slot event) : Agreed read (step read slot event) := by
  -- while the key is single, faithful steps keep the workers agreed on it
  cases event with
  | query worker =>
    apply agreed.move
    intro key held
    split at held
    next => cases held
    next first rest found =>
      cases held
      have one : rest = [] := by
        have length := single.stored
        rw [found, List.length_cons] at length
        exact List.eq_nil_of_length_eq_zero (by omega)
      rw [agreed.readable first (by rw [found]; exact List.mem_cons_self), found, one]
  | insert worker key =>
    show Agreed read (match slot.phase worker with
      | .absent => ⟨slot.stored ++ [key], Function.update slot.phase worker (.holds key)⟩
      | _ => slot)
    split
    next found => exact agreed.insert (single.absent worker found) (faithful found)
    next => exact agreed
  | leave worker =>
    apply agreed.move
    intro key impossible
    cases impossible

theorem Single.moves (single : Single slot) {kept : Prop} {next : Slot Worker Key}
    (moves : Moves read kept slot next) : Single next := by
  rcases moves with rests | ⟨event, undisturbed, _, steps⟩
  · rwa [rests]
  · rw [steps]
    exact single.step undisturbed

theorem Agreed.moves (agreed : Agreed read slot) (single : Single slot) {kept : Prop}
    {next : Slot Worker Key} (isKept : kept) (moves : Moves read kept slot next) :
    Agreed read next := by
  rcases moves with rests | ⟨event, _, faithful, steps⟩
  · rwa [rests]
  · rw [steps]
    exact agreed.step single (faithful isKept)

end CbDaemon.Base.CheckInsert
