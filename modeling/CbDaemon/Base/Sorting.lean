/- module: CbDaemon/Base/Sorting
   layer: library
   digest: `std::sort` by a key, with the order of equal keys left open. -/

import Mathlib.Algebra.Order.Ring.Int
import Mathlib.Algebra.Order.Ring.Nat
import Mathlib.Data.List.Sort
import Mathlib.Tactic.Common

set_option autoImplicit false
set_option relaxedAutoImplicit false

namespace CbDaemon.Base.Sorting

/-- A sorting function for the comparison of a key. Elements with equal keys may
come out in any order. -/
structure StdSort {α : Type*} (key : α → Nat) where
  sort : List α → List α
  perm : ∀ xs, (sort xs).Perm xs
  ascending : ∀ xs, (sort xs).Pairwise (key · ≤ key ·)

variable {α : Type*} {key : α → Nat}

def StdSort.stable (key : α → Nat) : StdSort key where
  sort := List.insertionSort (key · ≤ key ·)
  perm := List.perm_insertionSort _
  ascending xs := by
    have : Std.Total (α := α) (key · ≤ key ·) := ⟨fun a b => Nat.le_total (key a) (key b)⟩
    have : IsTrans α (key · ≤ key ·) := ⟨fun _ _ _ => Nat.le_trans⟩
    exact List.pairwise_insertionSort _ xs

theorem eq_of_ascending {xs ys : List α} (perm : xs.Perm ys)
    (ascending : xs.Pairwise (key · ≤ key ·)) (strict : ys.Pairwise (key · < key ·)) :
    xs = ys := by
  have distinct : ∀ a ∈ ys, ∀ b ∈ ys, key a = key b → a = b := by
    have injective : (ys.map key).Nodup := by
      rw [List.Nodup, List.pairwise_map]
      exact strict.imp Nat.ne_of_lt
    intro a memA b memB
    exact List.inj_on_of_nodup_map injective memA memB
  apply perm.eq_of_pairwise _ ascending (strict.imp Nat.le_of_lt)
  intro a b memA memB le ge
  exact distinct a (perm.mem_iff.mp memA) b memB (Nat.le_antisymm le ge)

theorem StdSort.sort_eq (std : StdSort key) {xs ys : List α} (perm : xs.Perm ys)
    (strict : ys.Pairwise (key · < key ·)) : std.sort xs = ys :=
  eq_of_ascending ((std.perm xs).trans perm) (std.ascending xs) strict

theorem StdSort.head?_sort (std : StdSort key) (xs : List α) :
    (std.sort xs).head?.map key = (xs.map key).min? := by
  have perm := std.perm xs
  have ascending := std.ascending xs
  cases sorted : std.sort xs with
  | nil =>
    rw [sorted] at perm
    rw [perm.symm.eq_nil]
    rfl
  | cons first rest =>
    rw [sorted] at perm ascending
    symm
    rw [List.head?_cons, Option.map_some, List.min?_eq_some_iff]
    constructor
    · exact List.mem_map_of_mem (perm.mem_iff.mp List.mem_cons_self)
    · intro least among
      obtain ⟨x, mem, rfl⟩ := List.mem_map.mp among
      rcases List.mem_cons.mp (perm.mem_iff.mpr mem) with rfl | later
      · exact Nat.le_refl _
      · exact (List.pairwise_cons.mp ascending).1 x later

end CbDaemon.Base.Sorting
