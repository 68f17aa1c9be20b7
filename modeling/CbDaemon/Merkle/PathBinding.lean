/- module: CbDaemon/Merkle/PathBinding
   layer: library
   digest: A path to the root of a tree starts at a leaf of the tree, or a collision shows up. -/

import Mathlib.Data.List.Induction
import CbDaemon.Base.Bits
import CbDaemon.Merkle.TreePath

set_option autoImplicit false
set_option relaxedAutoImplicit false

namespace CbDaemon.Merkle.PathBinding

open Base.Bits PerfectTree TreePath TreeHash

universe u

variable {H : Type u}

def pathIndex (steps : List (Bool × H)) : Nat := number (steps.map Prod.fst)

private theorem pathIndex_lt (steps : List (Bool × H)) : pathIndex steps < 2 ^ steps.length := by
  have low := number_lt (steps.map Prod.fst)
  rwa [List.length_map] at low

private theorem pathIndex_concat (steps : List (Bool × H)) (step : Bool × H) :
    pathIndex (steps ++ [step]) = pathIndex steps + 2 ^ steps.length * step.1.toNat := by
  rw [pathIndex, List.map_append, number_append, List.length_map]
  rfl

def stepPair (hash : H) (step : Bool × H) : H × H :=
  if step.1 then (step.2, hash) else (hash, step.2)

variable [TreeHash H]

theorem climbStep_eq_combine (hash : H) (step : Bool × H) :
    climbStep hash step = combine (stepPair hash step).1 (stepPair hash step).2 := by
  rw [climbStep, stepPair]
  split_ifs <;> rfl

def pathPairs (leaf : H) : List (Bool × H) → List (H × H)
  | [] => []
  | step :: steps => stepPair leaf step :: pathPairs (climbStep leaf step) steps

private theorem pathPairs_concat (leaf : H) (steps : List (Bool × H)) (step : Bool × H) :
    pathPairs leaf (steps ++ [step]) =
      pathPairs leaf steps ++ [stepPair (climb leaf steps) step] := by
  induction steps generalizing leaf with
  | nil => rfl
  | cons first steps ih =>
    rw [List.cons_append, pathPairs, ih, pathPairs, List.cons_append]
    rfl

theorem leaf_eq_or_collision {steps : List (Bool × H)} {leaf : H} {xs : List H}
    (same : climb leaf steps = perfectRoot steps.length xs) :
    leaf = xs.getD (pathIndex steps) blank ∨
      Collision (pathPairs leaf steps) (hashedPairs steps.length xs) := by
  induction steps using List.reverseRecOn generalizing xs with
  | nil =>
    left
    rw [climb, List.foldl_nil] at same
    rw [same]
    cases xs <;> rfl
  | append_singleton steps step ih =>
    -- the last step meets the two halves of the tree
    have length : (steps ++ [step]).length = steps.length + 1 := List.length_append
    rw [length, perfectRoot, climb, List.foldl_append, List.foldl_cons, List.foldl_nil,
      climbStep_eq_combine] at same
    rw [length, pathPairs_concat, pathIndex_concat]
    have low := pathIndex_lt steps
    by_cases pairs : stepPair (climb leaf steps) step =
        (perfectRoot steps.length (xs.take (2 ^ steps.length)),
          perfectRoot steps.length (xs.drop (2 ^ steps.length)))
    · have child : climb leaf steps = perfectRoot steps.length
          (if step.1 then xs.drop (2 ^ steps.length) else xs.take (2 ^ steps.length)) := by
        rw [stepPair] at pairs
        split_ifs at pairs ⊢
        · exact (Prod.mk.inj pairs).2
        · exact (Prod.mk.inj pairs).1
      rcases ih child with found | found
      · left
        rw [found]
        cases step.1
        · simp [List.getD_eq_getElem?_getD, low]
        · simp [List.getD_eq_getElem?_getD, List.getElem?_drop, Nat.add_comm]
      · right
        refine found.mono (List.subset_append_left _ _) ?_
        intro pair listed
        rw [hashedPairs, List.mem_cons, List.mem_append]
        split_ifs at listed
        · exact .inr (.inr listed)
        · exact .inr (.inl listed)
    · right
      refine ⟨_, List.mem_append_right _ (List.mem_singleton_self _), _, List.mem_cons_self, pairs, ?_⟩
      exact same

/-! The paths of a tree have one step for each level. -/

private theorem length_pathParents (d : Nat) (queue : List H) (ps : List (Option H)) :
    (pathParents d queue ps).1.length = ps.length ∧ (pathParents d queue ps).2.1 = d + ps.length := by
  induction ps generalizing d queue with
  | nil => exact ⟨rfl, rfl⟩
  | cons p ps ih =>
    cases p with
    | some p =>
      obtain ⟨steps, depth⟩ := ih (d + 1) queue
      exact ⟨congrArg (· + 1) steps, by rw [pathParents, depth, List.length_cons]; omega⟩
    | none =>
      obtain ⟨steps, depth⟩ := ih (d + 1) (IncrementalTree.IncrementalMerkleTree.fillerNext queue d).2
      exact ⟨congrArg (· + 1) steps, by rw [pathParents, depth, List.length_cons]; omega⟩

private theorem length_pathAbove (n d : Nat) (queue : List H) :
    (pathAbove n d queue).length = n := by
  induction n generalizing d queue with
  | zero => rfl
  | succ n ih => rw [pathAbove, List.length_cons, ih]

theorem length_pathSteps {Depth : Nat} {filler : List H}
    {t : IncrementalTree.IncrementalMerkleTree H} {steps : List (Bool × H)}
    (short : t.parents.length < Depth) (made : pathSteps Depth filler t = .ok steps) :
    steps.length = Depth := by
  unfold pathSteps at made
  cases left : t.left with
  | none => simp [left] at made
  | some l =>
    simp only [left, Except.ok.injEq] at made
    rw [← made, List.length_cons, List.length_append, length_pathAbove, (length_pathParents _ _ _).1,
      (length_pathParents _ _ _).2]
    omega

end CbDaemon.Merkle.PathBinding
