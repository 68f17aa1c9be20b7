/- module: CbDaemon/Base/Run
   layer: library
   digest: Runs of a step function whose events meet a condition, and the invariant rule. -/

import Mathlib.Algebra.Order.Ring.Int
import Mathlib.Algebra.Order.Ring.Nat
import Mathlib.Data.List.Basic
import Mathlib.Tactic.Common

set_option autoImplicit false
set_option relaxedAutoImplicit false

namespace CbDaemon.Base.Run

variable {State Event : Type*} {step : State → Event → State} {P : State → Event → Prop}

def run (step : State → Event → State) (s : State) (es : List Event) : State := es.foldl step s

/-- Every event of a run from `s` meets `P` in the state it is taken from. -/
def Along (step : State → Event → State) (P : State → Event → Prop) :
    State → List Event → Prop
  | _, [] => True
  | s, e :: es => P s e ∧ Along step P (step s e) es

instance Along.decidable [∀ s e, Decidable (P s e)] :
    ∀ (s : State) (es : List Event), Decidable (Along step P s es)
  | _, [] => inferInstanceAs (Decidable True)
  | s, e :: es =>
    have := Along.decidable (step s e) es
    inferInstanceAs (Decidable (P s e ∧ Along step P (step s e) es))

@[simp]
theorem run_nil (s : State) : run step s [] = s := rfl

@[simp]
theorem run_cons (s : State) (e : Event) (es : List Event) :
    run step s (e :: es) = run step (step s e) es := rfl

@[simp]
theorem run_append (s : State) (es fs : List Event) :
    run step s (es ++ fs) = run step (run step s es) fs := List.foldl_append

theorem along_append {s : State} {es fs : List Event} :
    Along step P s (es ++ fs) ↔ Along step P s es ∧ Along step P (run step s es) fs := by
  induction es generalizing s with
  | nil => simp [Along]
  | cons e es ih =>
    rw [List.cons_append, Along, ih, Along, run_cons, and_assoc]

theorem along_iff_split {s : State} {es : List Event} :
    Along step P s es ↔ ∀ front e back, es = front ++ e :: back → P (run step s front) e := by
  constructor
  · rintro along front e back rfl
    exact (along_append.mp along).2.1
  · intro each
    induction es generalizing s with
    | nil => trivial
    | cons e es ih =>
      refine ⟨each [] e es rfl, ih ?_⟩
      rintro front next back rfl
      exact each (e :: front) next back rfl

theorem invariant_along (Inv : State → Prop)
    (preserves : ∀ s e, Inv s → P s e → Inv (step s e)) {s : State} {es : List Event}
    (initial : Inv s) (along : Along step P s es) : Inv (run step s es) := by
  induction es generalizing s with
  | nil => exact initial
  | cons e es ih =>
    obtain ⟨first, rest⟩ := along
    exact ih (preserves s e initial first) rest

theorem invariant (Inv : State → Prop) (preserves : ∀ s e, Inv s → Inv (step s e)) {s : State}
    (initial : Inv s) (es : List Event) : Inv (run step s es) := by
  induction es generalizing s with
  | nil => exact initial
  | cons e es ih => exact ih (preserves s e initial)

/-- Forward simulation: if every step that meets `Q`, in a state with the invariant, is a run of
the other system, so is every run along `Q`. -/
theorem exists_run_of_simulates {Concrete Move : Type*} {move : Concrete → Move → Concrete}
    {Q : Concrete → Move → Prop} (abstraction : Concrete → State) (Inv : Concrete → Prop)
    (preserves : ∀ c m, Inv c → Q c m → Inv (move c m))
    (simulates : ∀ c m, Inv c → Q c m →
      ∃ es, abstraction (move c m) = run step (abstraction c) es)
    {c : Concrete} {ms : List Move} (initial : Inv c) (along : Along move Q c ms) :
    ∃ es, abstraction (run move c ms) = run step (abstraction c) es := by
  induction ms generalizing c with
  | nil => exact ⟨[], rfl⟩
  | cons m ms ih =>
    obtain ⟨first, rest⟩ := along
    obtain ⟨es, here⟩ := simulates c m initial first
    obtain ⟨fs, after⟩ := ih (preserves c m initial first) rest
    exact ⟨es ++ fs, by rw [run_cons, after, here, run_append]⟩

/-- A goal that steps meeting `P` keep, under an assumption `Q` on the events,
and that any other step breaks for good, is kept exactly by the runs along `P`. -/
theorem goal_iff_along {Q : State → Event → Prop} (Inv Goal : State → Prop)
    (goal : ∀ s, Inv s → Goal s)
    (preserves : ∀ s e, Inv s → Q s e → P s e → Inv (step s e))
    (breaks : ∀ s e, Inv s → Q s e → ¬ P s e → ¬ Goal (step s e))
    (lasting : ∀ s e, Goal (step s e) → Goal s) {s : State} {es : List Event}
    (initial : Inv s) (assumed : Along step Q s es) :
    Goal (run step s es) ↔ Along step P s es := by
  induction es generalizing s with
  | nil => exact ⟨fun _ => trivial, fun _ => goal s initial⟩
  | cons e es ih =>
    obtain ⟨first, rest⟩ := assumed
    by_cases meets : P s e
    · rw [run_cons, ih (preserves s e initial first meets) rest, Along]
      exact ⟨fun along => ⟨meets, along⟩, fun along => along.2⟩
    · -- the goal is lost with this step, and no later one brings it back
      have lost : ¬ Goal (run step (step s e) es) :=
        invariant (fun s => ¬ Goal s) (fun s e without => mt (lasting s e) without)
          (breaks s e initial first meets) es
      exact ⟨fun kept => absurd kept lost, fun along => absurd along.1 meets⟩

end CbDaemon.Base.Run
