/- module: CbDaemon/Base/InPlace
   layer: library
   digest: Exchanges in an array, and loops in which every turn works on cells of its own. -/

import Mathlib.Data.List.GetD
import Mathlib.Logic.Equiv.Basic
import Mathlib.Tactic.Common

set_option autoImplicit false
set_option relaxedAutoImplicit false

namespace CbDaemon.Base.InPlace

variable {α ι : Type*} {d : α} {n : Nat} {step : List α → ι → List α} {cells : ι → Nat → Prop}
  {out : ι → (Nat → α) → Nat → α}

theorem getD_set {a : List α} {i : Nat} (x : α) (p : Nat) (within : i < a.length) :
    (a.set i x).getD p d = if p = i then x else a.getD p d := by
  rw [List.getD_eq_getElem?_getD, List.getElem?_set, List.getD_eq_getElem?_getD]
  by_cases here : p = i
  · rw [if_pos here.symm, if_pos here, if_pos within, Option.getD_some]
  · rw [if_neg (Ne.symm here), if_neg here]

def swapAt (d : α) (a : List α) (i j : Nat) : List α := (a.set i (a.getD j d)).set j (a.getD i d)

@[simp] theorem length_swapAt (d : α) (a : List α) (i j : Nat) :
    (swapAt d a i j).length = a.length := by
  rw [swapAt, List.length_set, List.length_set]

theorem getD_swapAt {a : List α} {i j : Nat} (within : i < a.length) (within' : j < a.length)
    (p : Nat) : (swapAt d a i j).getD p d = a.getD (Equiv.swap i j p) d := by
  rw [swapAt, getD_set _ _ (by rwa [List.length_set]), getD_set _ _ within, Equiv.swap_apply_def]
  split_ifs with second first
  · rw [← first, second]
  · rfl
  · rfl
  · rfl

theorem swapAt_perm {a : List α} {i j : Nat} (within : i < a.length) (within' : j < a.length) :
    (swapAt d a i j).Perm a := by
  rw [swapAt, List.getD_eq_getElem _ _ within, List.getD_eq_getElem _ _ within']
  exact List.set_set_perm within within'

/-- On arrays of `n` cells, turn `i` computes the cells that belong to it from what they held
and leaves all others. -/
structure Works (d : α) (n : Nat) (step : List α → ι → List α) (cells : ι → Nat → Prop)
    (out : ι → (Nat → α) → Nat → α) (i : ι) : Prop where
  size : ∀ a : List α, a.length = n → (step a i).length = n
  kept : ∀ a : List α, a.length = n → ∀ p, ¬ cells i p → (step a i).getD p d = a.getD p d
  written : ∀ a : List α, a.length = n → ∀ p, cells i p →
    (step a i).getD p d = out i (a.getD · d) p
  own : ∀ f g : Nat → α, (∀ p, cells i p → f p = g p) → ∀ p, cells i p → out i f p = out i g p

theorem foldl_works {is : List ι} (works : ∀ i ∈ is, Works d n step cells out i)
    (apart : is.Pairwise fun i j => ∀ p, cells i p → ¬ cells j p) {a : List α}
    (size : a.length = n) :
    (is.foldl step a).length = n ∧
      (∀ i ∈ is, ∀ p, cells i p → (is.foldl step a).getD p d = out i (a.getD · d) p) ∧
      ∀ p, (∀ i ∈ is, ¬ cells i p) → (is.foldl step a).getD p d = a.getD p d := by
  induction is generalizing a with
  | nil => exact ⟨size, by simp, by simp⟩
  | cons i is ih =>
    obtain ⟨first, apart⟩ := List.pairwise_cons.mp apart
    have turn := works i List.mem_cons_self
    obtain ⟨length, written, kept⟩ :=
      ih (fun j listed => works j (List.mem_cons_of_mem i listed)) apart (turn.size a size)
    refine ⟨length, fun j listed p own => ?_, fun p free => ?_⟩
    · rcases List.mem_cons.mp listed with rfl | later
      · rw [List.foldl_cons, kept p fun k among => first k among p own, turn.written a size p own]
      · rw [List.foldl_cons, written j later p own]
        -- what turn `j` reads is not touched by turn `i`
        refine (works j listed).own _ _ (fun q other => turn.kept a size q fun taken => ?_) p own
        exact first j later q taken other
    · rw [List.foldl_cons, kept p fun k among => free k (List.mem_cons_of_mem i among),
        turn.kept a size p (free i List.mem_cons_self)]

end CbDaemon.Base.InPlace
