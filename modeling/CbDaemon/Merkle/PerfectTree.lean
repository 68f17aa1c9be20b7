/- module: CbDaemon/Merkle/PerfectTree
   layer: library
   digest: Roots of right-padded perfect binary trees, and the way a spine of holes is filled. -/

import Mathlib.Algebra.Order.Ring.Int
import Mathlib.Algebra.Order.Ring.Nat
import Mathlib.Data.List.Basic
import Mathlib.Data.List.GetD
import Mathlib.Data.List.Nodup
import Mathlib.Data.Nat.Init
import Mathlib.Tactic.Common

set_option autoImplicit false
set_option relaxedAutoImplicit false

namespace CbDaemon.Merkle.PerfectTree

universe u

/-- A two-to-one hash with the value that stands at leaves not yet written. -/
class TreeHash (H : Type u) where
  combine : H → H → H
  blank : H

open TreeHash

variable {H : Type u} [TreeHash H]

/-- Root of the perfect tree of a given depth over the listed leaves, padded on
the right with blank leaves. Leaves past the capacity are not looked at. -/
def perfectRoot : Nat → List H → H
  | 0, xs => xs.headD blank
  | d + 1, xs =>
      combine (perfectRoot d (xs.take (2 ^ d))) (perfectRoot d (xs.drop (2 ^ d)))

/-- Roots of the all-blank subtrees, by repeated squaring of the blank leaf. -/
def emptyRoot : Nat → H
  | 0 => blank
  | d + 1 => combine (emptyRoot d) (emptyRoot d)

@[simp] theorem perfectRoot_nil (d : Nat) : perfectRoot d ([] : List H) = emptyRoot d := by
  induction d with
  | zero => rfl
  | succ d ih => simp [perfectRoot, emptyRoot, ih]

@[simp] theorem perfectRoot_zero_cons (x : H) (xs : List H) :
    perfectRoot 0 (x :: xs) = x := rfl

private theorem perfectRoot_take (d : Nat) (xs : List H) :
    perfectRoot d (xs.take (2 ^ d)) = perfectRoot d xs := by
  induction d generalizing xs with
  | zero => cases xs <;> rfl
  | succ d ih =>
    have half : 2 ^ (d + 1) - 2 ^ d = 2 ^ d := by
      rw [Nat.pow_succ]
      omega
    have le : 2 ^ d ≤ 2 ^ (d + 1) := Nat.pow_le_pow_right (by omega) (by omega)
    simp only [perfectRoot, List.take_take, Nat.min_eq_left le, List.drop_take, half]
    rw [ih (xs.drop (2 ^ d))]

theorem perfectRoot_full_append (d : Nat) {xs : List H} (ys : List H)
    (full : xs.length = 2 ^ d) : perfectRoot d (xs ++ ys) = perfectRoot d xs := by
  rw [← perfectRoot_take d (xs ++ ys), List.take_left' full]

theorem perfectRoot_succ_append (d : Nat) {xs : List H} (ys : List H)
    (full : xs.length = 2 ^ d) :
    perfectRoot (d + 1) (xs ++ ys) = combine (perfectRoot d xs) (perfectRoot d ys) := by
  simp only [perfectRoot, List.take_left' full, List.drop_left' full]

theorem perfectRoot_succ_of_le (d : Nat) {xs : List H} (fits : xs.length ≤ 2 ^ d) :
    perfectRoot (d + 1) xs = combine (perfectRoot d xs) (emptyRoot d) := by
  simp only [perfectRoot, List.take_of_length_le fits, List.drop_eq_nil_of_le fits,
    perfectRoot_nil]

private theorem perfectRoot_congr (d : Nat) {xs ys : List H}
    (same : ∀ i < 2 ^ d, xs.getD i blank = ys.getD i blank) :
    perfectRoot d xs = perfectRoot d ys := by
  induction d generalizing xs ys with
  | zero =>
    have head := same 0 Nat.one_pos
    cases xs <;> cases ys <;> exact head
  | succ d ih =>
    have double : 2 ^ (d + 1) = 2 ^ d + 2 ^ d := by
      rw [Nat.pow_succ]
      omega
    rw [perfectRoot, perfectRoot]
    congr 1
    · apply ih
      intro i inside
      simpa [List.getD_eq_getElem?_getD, List.getElem?_take, inside] using same i (by omega)
    · apply ih
      intro i inside
      simpa [List.getD_eq_getElem?_getD, List.getElem?_drop] using same (2 ^ d + i) (by omega)

def hashedPairs : Nat → List H → List (H × H)
  | 0, _ => []
  | d + 1, xs =>
      (perfectRoot d (xs.take (2 ^ d)), perfectRoot d (xs.drop (2 ^ d))) ::
        (hashedPairs d (xs.take (2 ^ d)) ++ hashedPairs d (xs.drop (2 ^ d)))

/-- Two different pairs from the given lists that combine to the same hash. -/
def Collision (ps qs : List (H × H)) : Prop :=
  ∃ p ∈ ps, ∃ q ∈ qs, p ≠ q ∧ combine p.1 p.2 = combine q.1 q.2

theorem Collision.mono {ps qs ps' qs' : List (H × H)} (found : Collision ps qs)
    (left : ps ⊆ ps') (right : qs ⊆ qs') : Collision ps' qs' := by
  obtain ⟨p, hp, q, hq, differ, same⟩ := found
  exact ⟨p, left hp, q, right hq, differ, same⟩

/-- Equal roots have equal leaves, unless a collision of the combine function
shows up among the nodes of the two trees. -/
theorem leaves_eq_or_collision (d : Nat) {xs ys : List H}
    (same : perfectRoot d xs = perfectRoot d ys) :
    (∀ i < 2 ^ d, xs.getD i blank = ys.getD i blank) ∨
      Collision (hashedPairs d xs) (hashedPairs d ys) := by
  induction d generalizing xs ys with
  | zero =>
    left
    intro i inside
    obtain rfl : i = 0 := by simpa using inside
    have head (zs : List H) : zs.getD 0 blank = perfectRoot 0 zs := by
      cases zs <;> rfl
    rw [head, head, same]
  | succ d ih =>
    by_cases pairs : (perfectRoot d (xs.take (2 ^ d)), perfectRoot d (xs.drop (2 ^ d))) =
        (perfectRoot d (ys.take (2 ^ d)), perfectRoot d (ys.drop (2 ^ d)))
    · obtain ⟨lefts, rights⟩ := Prod.mk.inj pairs
      rcases ih lefts with leftLeaves | found
      · rcases ih rights with rightLeaves | found
        · left
          intro i inside
          by_cases low : i < 2 ^ d
          · simpa [List.getD_eq_getElem?_getD, List.getElem?_take, low] using leftLeaves i low
          · have high : i - 2 ^ d < 2 ^ d := by
              rw [Nat.pow_succ] at inside
              omega
            have back : 2 ^ d + (i - 2 ^ d) = i := by omega
            simpa [List.getD_eq_getElem?_getD, List.getElem?_drop, back]
              using rightLeaves (i - 2 ^ d) high
        · right
          refine found.mono ?_ ?_ <;> intro p hp <;> simp [hashedPairs, hp]
      · right
        refine found.mono ?_ ?_ <;> intro p hp <;> simp [hashedPairs, hp]
    · right
      exact ⟨_, List.mem_cons_self, _, List.mem_cons_self, pairs, same⟩

theorem perfectRoot_append_blank (d : Nat) (xs : List H) :
    perfectRoot d (xs ++ [blank]) = perfectRoot d xs := by
  apply perfectRoot_congr
  intro i _
  simp only [List.getD_eq_getElem?_getD, List.getElem?_append]
  split
  · rfl
  · rename_i high
    have none : xs[i]? = none := List.getElem?_eq_none (by omega)
    rw [none]
    cases i - xs.length <;> rfl

/-- A rearrangement of distinct leaves that pads like one of their prefixes is
the list itself, unless a leaf past the prefix does not change the root. -/
theorem eq_of_padded_eq (d m : Nat) {xs cs : List H} (perm : xs.Perm cs) (nodup : cs.Nodup)
    (fits : cs.length ≤ 2 ^ d) (inside : m ≤ cs.length)
    (leaves : ∀ i < 2 ^ d, xs.getD i blank = (cs.take m).getD i blank)
    (fresh : m < cs.length → perfectRoot d (cs.take (m + 1)) ≠ perfectRoot d (cs.take m)) :
    m = cs.length ∧ xs = cs := by
  have size := perm.length_eq
  have front : xs.take m = cs.take m := by
    apply List.ext_getElem (by simp [size])
    intro i left right
    rw [List.length_take] at left
    have same := leaves i (by omega)
    rw [List.getD_eq_getElem xs blank (by omega), List.getD_eq_getElem _ blank right] at same
    rw [List.getElem_take, same]
  rcases Nat.lt_or_eq_of_le inside with short | whole
  · exfalso
    have past (i : Nat) (low : m ≤ i) (high : i < cs.length) : xs.getD i blank = blank := by
      rw [leaves i (by omega)]
      exact List.getD_eq_default _ _ (by rw [List.length_take]; omega)
    rcases Nat.lt_or_eq_of_le (Nat.succ_le_of_lt short) with two | one
    · -- two blank leaves among distinct ones
      have first := past m (Nat.le_refl m) short
      have second := past (m + 1) (Nat.le_succ m) two
      rw [List.getD_eq_getElem xs blank (by omega)] at first second
      have distinct := (List.Nodup.getElem_inj_iff (perm.nodup_iff.mpr nodup)).mp
        (first.trans second.symm)
      omega
    · -- the one leaf past the prefix is blank
      have lastX : xs = cs.take m ++ [blank] := by
        have first := past m (Nat.le_refl m) short
        rw [List.getD_eq_getElem xs blank (by omega)] at first
        rw [← front, ← first, List.take_append_getElem (by omega), List.take_of_length_le (by omega)]
      have lastC : cs = cs.take m ++ [cs[m]] := by
        rw [List.take_append_getElem short, List.take_of_length_le (by omega)]
      have blankLeaf : cs[m] = blank := by
        have both := perm
        rw [lastX] at both
        nth_rewrite 2 [lastC] at both
        exact (List.singleton_perm_singleton.mp ((List.perm_append_left_iff _).mp both)).symm
      apply fresh short
      rw [List.take_succ_eq_append_getElem short, blankLeaf]
      exact perfectRoot_append_blank d _
  · refine ⟨whole, ?_⟩
    rw [whole, List.take_length, ← size, List.take_length] at front
    exact front

/-- The hashes that fill a list of holes, in order, when the leaves `ws` are
appended one after another: each hole of depth `d` takes the next `2 ^ d`
leaves, and holes that receive no leaf have no filler. -/
def fillers : List Nat → List H → List H
  | [], _ => []
  | _ :: _, [] => []
  | d :: hs, w :: ws =>
      perfectRoot d ((w :: ws).take (2 ^ d)) :: fillers hs ((w :: ws).drop (2 ^ d))

def capacity (hs : List Nat) : Nat := (hs.map (2 ^ ·)).sum

@[simp] theorem capacity_nil : capacity [] = 0 := rfl

@[simp] theorem capacity_cons (d : Nat) (hs : List Nat) :
    capacity (d :: hs) = 2 ^ d + capacity hs := rfl

@[simp] theorem capacity_append (hs ks : List Nat) :
    capacity (hs ++ ks) = capacity hs + capacity ks := by
  simp [capacity]

@[simp] theorem fillers_nil_right (hs : List Nat) : fillers hs ([] : List H) = [] := by
  cases hs <;> rfl

private theorem fillers_cons_of_ne_nil (d : Nat) (hs : List Nat) {ws : List H} (some : ws ≠ []) :
    fillers (d :: hs) ws =
      perfectRoot d (ws.take (2 ^ d)) :: fillers hs (ws.drop (2 ^ d)) := by
  cases ws with
  | nil => exact absurd rfl some
  | cons w ws => rfl

theorem fillers_append (hs ks : List Nat) {us : List H} (vs : List H)
    (exact : us.length = capacity hs) :
    fillers (hs ++ ks) (us ++ vs) = fillers hs us ++ fillers ks vs := by
  induction hs generalizing us with
  | nil =>
    obtain rfl : us = [] := by simpa using exact
    simp [fillers]
  | cons d hs ih =>
    have pos : 0 < 2 ^ d := Nat.two_pow_pos d
    rw [capacity_cons] at exact
    have le : 2 ^ d ≤ us.length := by omega
    have nonempty : us ≠ [] := by
      rintro rfl
      simp at le
    have rest : (us.drop (2 ^ d)).length = capacity hs := by
      rw [List.length_drop]
      omega
    rw [List.cons_append, fillers_cons_of_ne_nil _ _ (by simp [nonempty]),
      fillers_cons_of_ne_nil _ _ nonempty, List.take_append_of_le_length le,
      List.drop_append_of_le_length le, ih rest, List.cons_append]

theorem length_fillers (hs : List Nat) {us : List H} (exact : us.length = capacity hs) :
    (fillers hs us).length = hs.length := by
  induction hs generalizing us with
  | nil => rfl
  | cons d hs ih =>
    have pos : 0 < 2 ^ d := Nat.two_pow_pos d
    rw [capacity_cons] at exact
    have nonempty : us ≠ [] := by
      rintro rfl
      simp at exact
      omega
    rw [fillers_cons_of_ne_nil _ _ nonempty, List.length_cons, List.length_cons,
      ih (by rw [List.length_drop]; omega)]

theorem fillers_cons_of_le (d : Nat) (hs : List Nat) {ws : List H}
    (some : ws ≠ []) (fits : ws.length ≤ 2 ^ d) :
    fillers (d :: hs) ws = [perfectRoot d ws] := by
  rw [fillers_cons_of_ne_nil _ _ some, List.take_of_length_le fits,
    List.drop_eq_nil_of_le fits, fillers_nil_right]

end CbDaemon.Merkle.PerfectTree
