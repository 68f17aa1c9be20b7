/- module: CbDaemon/Base/Heap
   layer: library
   digest: Binary heaps in an array: exchanges that repair one place, and what the root says. -/

import Mathlib.Data.List.GetD
import Mathlib.Data.List.Sort
import Mathlib.Logic.Equiv.Basic
import Mathlib.Order.Basic
import Mathlib.Tactic.Common

set_option autoImplicit false
set_option relaxedAutoImplicit false

namespace CbDaemon.Base.Heap

variable {β : Type*} [LinearOrder β] {n p : Nat} {f : Nat → β}

def parent (i : Nat) : Nat := (i - 1) / 2

def IsHeap (n : Nat) (f : Nat → β) : Prop := ∀ i, 0 < i → i < n → f i ≤ f (parent i)

/-- A heap once `p` is left out: below and above it nothing is said of `p` itself. -/
structure HoleAt (n : Nat) (f : Nat → β) (p : Nat) : Prop where
  others : ∀ i, 0 < i → i < n → i ≠ p → parent i ≠ p → f i ≤ f (parent i)
  across : ∀ i, 0 < i → i < n → parent i = p → 0 < p → f i ≤ f (parent p)

/-- A heap, but for what `p` holds against the place above. -/
structure RisingAt (n : Nat) (f : Nat → β) (p : Nat) : Prop where
  others : ∀ i, 0 < i → i < n → i ≠ p → f i ≤ f (parent i)
  across : ∀ i, 0 < i → i < n → parent i = p → 0 < p → f i ≤ f (parent p)

theorem parent_lt {i : Nat} (positive : 0 < i) : parent i < i := by
  rw [parent]
  omega

theorem IsHeap.holeAt (heap : IsHeap n f) {g : Nat → β} (kept : ∀ i, i ≠ 0 → g i = f i) :
    HoleAt n g 0 where
  others i positive within _ inner := by
    rw [kept i (by omega), kept _ inner]
    exact heap i positive within
  across _ _ _ _ positive := absurd positive (Nat.lt_irrefl 0)

theorem HoleAt.down (hole : HoleAt n f p) {c : Nat} (positive : 0 < c) (within : c < n)
    (child : parent c = p) (greatest : ∀ i, 0 < i → i < n → parent i = p → f i ≤ f c) :
    HoleAt n (f ∘ Equiv.swap p c) c := by
  have below : p < c := child ▸ parent_lt positive
  refine ⟨fun i above inside other inner => ?_, fun i above inside grandchild _ => ?_⟩
  · rw [Function.comp_apply, Function.comp_apply]
    by_cases here : i = p
    · -- the child that came up is below what was above the hole
      subst here
      have higher := parent_lt above
      rw [Equiv.swap_apply_left, Equiv.swap_apply_of_ne_of_ne (by omega) (by omega)]
      exact hole.across c positive within child above
    · rw [Equiv.swap_apply_of_ne_of_ne here other]
      by_cases sibling : parent i = p
      · rw [sibling, Equiv.swap_apply_left]
        exact greatest i above inside sibling
      · rw [Equiv.swap_apply_of_ne_of_ne sibling inner]
        exact hole.others i above inside here sibling
  · have lower : c < i := grandchild ▸ parent_lt above
    rw [Function.comp_apply, Function.comp_apply, child, Equiv.swap_apply_left,
      Equiv.swap_apply_of_ne_of_ne (by omega) (by omega), ← grandchild]
    exact hole.others i above inside (by omega) (by omega)

theorem HoleAt.risingAt (hole : HoleAt n f p) (leaf : n ≤ 2 * p + 1) : RisingAt n f p where
  others i positive within other := by
    refine hole.others i positive within other fun child => ?_
    rw [parent] at child
    omega
  across := hole.across

theorem RisingAt.up (rising : RisingAt n f p) (positive : 0 < p) (within : p < n)
    (greater : f (parent p) < f p) : RisingAt n (f ∘ Equiv.swap p (parent p)) (parent p) := by
  have above := parent_lt positive
  refine ⟨fun i inner inside other => ?_, fun i inner inside child higher => ?_⟩
  · rw [Function.comp_apply, Function.comp_apply]
    by_cases here : i = p
    · subst here
      rw [Equiv.swap_apply_left, Equiv.swap_apply_right]
      exact greater.le
    · rw [Equiv.swap_apply_of_ne_of_ne here other]
      by_cases sibling : parent i = parent p
      · rw [sibling, Equiv.swap_apply_right]
        exact (sibling ▸ rising.others i inner inside here).trans greater.le
      · by_cases child : parent i = p
        · rw [child, Equiv.swap_apply_left]
          exact rising.across i inner inside child positive
        · rw [Equiv.swap_apply_of_ne_of_ne child sibling]
          exact rising.others i inner inside here
  · have top := parent_lt higher
    have step := rising.others (parent p) higher (by omega) (by omega)
    rw [Function.comp_apply, Function.comp_apply,
      Equiv.swap_apply_of_ne_of_ne (a := p) (x := parent (parent p)) (by omega) (by omega)]
    by_cases here : i = p
    · subst here
      rw [Equiv.swap_apply_left]
      exact step
    · rw [Equiv.swap_apply_of_ne_of_ne here (by have := parent_lt inner; omega)]
      exact (child ▸ rising.others i inner inside here).trans step

theorem RisingAt.isHeap (rising : RisingAt n f p) (settled : p = 0 ∨ f p ≤ f (parent p)) :
    IsHeap n f := by
  intro i positive within
  by_cases here : i = p
  · subst here
    exact settled.resolve_left (by omega)
  · exact rising.others i positive within here

theorem IsHeap.le_root (heap : IsHeap n f) {i : Nat} (within : i < n) : f i ≤ f 0 := by
  induction i using Nat.strongRecOn with
  | _ i ih =>
    rcases Nat.eq_zero_or_pos i with rfl | positive
    · exact le_rfl
    · have above := parent_lt positive
      exact (heap i positive within).trans (ih _ above (by omega))

theorem IsHeap.le_children (heap : IsHeap n f) {i : Nat} (positive : 0 < i) (within : i < n) :
    f i ≤ max (f 1) (f 2) := by
  induction i using Nat.strongRecOn with
  | _ i ih =>
    have above := parent_lt positive
    rcases Nat.eq_zero_or_pos (parent i) with root | inner
    · have child : i = 1 ∨ i = 2 := by
        rw [parent] at root
        omega
      rcases child with rfl | rfl
      · exact le_max_left _ _
      · exact le_max_right _ _
    · exact (heap i positive within).trans (ih _ above inner (by omega))

/-- `std::make_heap` by a key: the elements in an order that is a heap. -/
structure MakeHeap {α : Type*} (key : α → Nat) (d : α) where
  make : List α → List α
  perm : ∀ xs, (make xs).Perm xs
  heap : ∀ xs, IsHeap xs.length fun i => key ((make xs).getD i d)

def MakeHeap.descending {α : Type*} (key : α → Nat) (d : α) : MakeHeap key d where
  make := List.insertionSort (key · ≥ key ·)
  perm := List.perm_insertionSort _
  heap xs i positive within := by
    have : Std.Total (α := α) (key · ≥ key ·) := ⟨fun a b => Nat.le_total (key b) (key a)⟩
    have : IsTrans α (key · ≥ key ·) := ⟨fun _ _ _ first second => Nat.le_trans second first⟩
    have above := parent_lt positive
    rw [← List.length_insertionSort (key · ≥ key ·)] at within
    beta_reduce
    rw [List.getD_eq_getElem _ _ within, List.getD_eq_getElem _ _ (above.trans within)]
    exact List.pairwise_iff_getElem.mp (List.pairwise_insertionSort (key · ≥ key ·) xs) _ _
      (above.trans within) within above

end CbDaemon.Base.Heap
