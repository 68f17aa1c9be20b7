/- module: CbDaemon/Base/KeyedList
   layer: library
   digest: Lists with at most one element for each key, and the merge of new elements into them. -/

import Mathlib.Algebra.Order.Ring.Int
import Mathlib.Algebra.Order.Ring.Nat
import Mathlib.Data.List.Nodup
import Mathlib.Tactic.Common

set_option autoImplicit false
set_option relaxedAutoImplicit false

namespace CbDaemon.Base.KeyedList

variable {α κ : Type*} [DecidableEq κ] (key : α → κ)

/-- Append an element unless its key is there. -/
def insertNew (xs : List α) (x : α) : List α := if key x ∈ xs.map key then xs else xs ++ [x]

def merge (xs ys : List α) : List α := ys.foldl (insertNew key) xs

variable {key} {xs : List α}

private theorem prefix_insertNew (x : α) : xs <+: insertNew key xs x := by
  unfold insertNew
  split
  · exact List.prefix_refl xs
  · exact List.prefix_append xs [x]

private theorem nodup_insertNew (distinct : (xs.map key).Nodup) (x : α) :
    ((insertNew key xs x).map key).Nodup := by
  unfold insertNew
  split
  next present => exact distinct
  next absent =>
    rw [List.map_append, List.map_singleton, ← List.concat_eq_append]
    exact distinct.concat absent

private theorem mem_keys_insertNew {k : κ} {x : α} :
    k ∈ (insertNew key xs x).map key ↔ k ∈ xs.map key ∨ k = key x := by
  unfold insertNew
  split
  next present =>
    constructor
    · exact Or.inl
    · rintro (old | rfl)
      · exact old
      · exact present
  next absent => rw [List.map_append, List.map_singleton, List.mem_append, List.mem_singleton]

theorem prefix_merge (ys : List α) : xs <+: merge key xs ys := by
  induction ys generalizing xs with
  | nil => exact List.prefix_refl xs
  | cons y ys ih => exact (prefix_insertNew y).trans ih

theorem nodup_merge (distinct : (xs.map key).Nodup) (ys : List α) :
    ((merge key xs ys).map key).Nodup := by
  induction ys generalizing xs with
  | nil => exact distinct
  | cons y ys ih => exact ih (nodup_insertNew distinct y)

theorem mem_keys_merge {k : κ} {ys : List α} :
    k ∈ (merge key xs ys).map key ↔ k ∈ xs.map key ∨ k ∈ ys.map key := by
  induction ys generalizing xs with
  | nil => simp [merge]
  | cons y ys ih =>
    show k ∈ (merge key (insertNew key xs y) ys).map key ↔ _
    rw [ih, mem_keys_insertNew, List.map_cons, List.mem_cons, or_assoc]

theorem length_filter_key (distinct : (xs.map key).Nodup) {k : κ} (present : k ∈ xs.map key) :
    (xs.filter (key · = k)).length = 1 := by
  have count := List.count_eq_one_of_mem distinct present
  rw [List.count, List.countP_map] at count
  rw [← List.countP_eq_length_filter, ← count]
  apply List.countP_congr
  intro x _
  rw [decide_eq_true_eq, Function.comp_apply, beq_iff_eq]

end CbDaemon.Base.KeyedList
