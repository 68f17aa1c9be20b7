/- module: CbDaemon/Base/Fallible
   layer: library
   digest: Postconditions of computations that may fail, with one rule for each way to compose them. -/

import Mathlib.Algebra.Order.Ring.Int
import Mathlib.Algebra.Order.Ring.Nat
import Mathlib.Data.List.Basic
import Mathlib.Tactic.Common

set_option autoImplicit false
set_option relaxedAutoImplicit false

namespace CbDaemon.Base.Fallible

universe u

variable {ε δ : Type*} {α β : Type u}

/-- The computation succeeds with a result that meets the postcondition. -/
def Returns (x : Except ε α) (P : α → Prop) : Prop := ∃ a, x = .ok a ∧ P a

@[simp]
theorem returns_ok {a : α} {P : α → Prop} : Returns (.ok a : Except ε α) P ↔ P a := by
  simp [Returns]

@[simp]
theorem returns_pure {a : α} {P : α → Prop} : Returns (pure a : Except ε α) P ↔ P a :=
  returns_ok

@[simp]
theorem returns_error {e : ε} {P : α → Prop} : ¬ Returns (.error e : Except ε α) P := by
  rintro ⟨a, impossible, _⟩
  cases impossible

@[simp]
theorem returns_bind {x : Except ε α} {f : α → Except ε β} {P : β → Prop} :
    Returns (x >>= f) P ↔ Returns x fun a => Returns (f a) P := by
  cases x with
  | error e => exact iff_of_false returns_error returns_error
  | ok a =>
    rw [returns_ok]
    rfl

@[simp]
theorem returns_map {x : Except ε α} {f : α → β} {P : β → Prop} :
    Returns (x.map f) P ↔ Returns x fun a => P (f a) := by
  cases x with
  | error e => exact iff_of_false returns_error returns_error
  | ok a =>
    rw [Except.map, returns_ok, returns_ok]

theorem Returns.mono {x : Except ε α} {P Q : α → Prop} (returns : Returns x P)
    (weaker : ∀ a, P a → Q a) : Returns x Q := by
  obtain ⟨a, result, holds⟩ := returns
  exact ⟨a, result, weaker a holds⟩

/-- The result, if there is one, meets the postcondition. -/
def Yields (x : Except ε α) (P : α → Prop) : Prop := ∀ a, x = .ok a → P a

theorem yields_ok {a : α} {P : α → Prop} (holds : P a) : Yields (.ok a : Except ε α) P := by
  rintro b ⟨⟩
  exact holds

theorem yields_error {e : ε} {P : α → Prop} : Yields (.error e : Except ε α) P := by
  rintro a ⟨⟩

theorem yields_bind {x : Except ε α} {f : α → Except ε β} {P : α → Prop} {Q : β → Prop}
    (first : Yields x P) (rest : ∀ a, P a → Yields (f a) Q) : Yields (x >>= f) Q := by
  cases x with
  | error e => exact yields_error
  | ok a => exact rest a (first a rfl)

theorem yields_ite {p : Prop} [Decidable p] {x y : Except ε α} {P : α → Prop}
    (pos : p → Yields x P) (neg : ¬ p → Yields y P) : Yields (if p then x else y) P := by
  split
  · exact pos ‹_›
  · exact neg ‹_›

theorem returns_mapM {f : α → Except ε β} {xs : List α} :
    Returns (xs.mapM f) (fun _ => True) ↔ ∀ x ∈ xs, Returns (f x) fun _ => True := by
  induction xs with
  | nil => simp
  | cons x xs ih =>
    rw [List.mapM_cons, returns_bind, List.forall_mem_cons, ← ih]
    constructor
    · rintro ⟨b, first, rest⟩
      exact ⟨⟨b, first, trivial⟩, (returns_bind.mp rest).mono fun _ _ => trivial⟩
    · rintro ⟨⟨b, first, _⟩, rest⟩
      refine ⟨b, first, returns_bind.mpr (rest.mono fun _ _ => ?_)⟩
      exact returns_pure.mpr trivial

/-- A computation over a list has a result for each of its elements; here, whether there
are any. -/
theorem isEmpty_of_mapM {f : α → Except ε β} {xs : List α} {ys : List β}
    (result : xs.mapM f = .ok ys) : ys.isEmpty = xs.isEmpty := by
  cases xs with
  | nil =>
    cases result
    rfl
  | cons x xs =>
    have returns : Returns ((x :: xs).mapM f) (· = ys) := ⟨ys, result, rfl⟩
    rw [List.mapM_cons, returns_bind] at returns
    obtain ⟨b, _, rest⟩ := returns
    obtain ⟨bs, _, last⟩ := returns_bind.mp rest
    rw [← returns_pure.mp last]
    rfl

end CbDaemon.Base.Fallible
