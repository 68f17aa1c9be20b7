/- module: CbDaemon/Base/Coefficients
   layer: library
   digest: Lists of coefficients, their values at the powers of a root of unity, and quotients. -/

import Mathlib.Algebra.Field.GeomSum
import Mathlib.Algebra.Polynomial.OfFn
import Mathlib.LinearAlgebra.Lagrange
import Mathlib.RingTheory.RootsOfUnity.PrimitiveRoots
import CbDaemon.Base.InPlace

set_option autoImplicit false
set_option relaxedAutoImplicit false

namespace CbDaemon.Base.Coefficients

open Finset Polynomial InPlace

variable {F : Type*} [Field F]

def evalAt (a : List F) (x : F) : F := ∑ i ∈ range a.length, a.getD i 0 * x ^ i

theorem sum_even_odd (f : Nat → F) (x : F) (n : Nat) :
    ∑ i ∈ range (2 * n), f i * x ^ i =
      (∑ i ∈ range n, f (2 * i) * (x ^ 2) ^ i) + x * ∑ i ∈ range n, f (2 * i + 1) * (x ^ 2) ^ i := by
  induction n with
  | zero => simp
  | succ n ih =>
    rw [Nat.mul_succ, sum_range_succ, sum_range_succ, ih, sum_range_succ, sum_range_succ]
    ring

/-! Coefficients that are changed or joined place by place. -/

theorem getD_zipWith {f : F → F → F} (zero : f 0 0 = 0) {a b : List F}
    (same : a.length = b.length) (i : Nat) :
    (List.zipWith f a b).getD i 0 = f (a.getD i 0) (b.getD i 0) := by
  by_cases within : i < a.length
  · have within' : i < (List.zipWith f a b).length := by
      rw [List.length_zipWith]
      omega
    rw [List.getD_eq_getElem _ _ within', List.getElem_zipWith, List.getD_eq_getElem _ _ within,
      List.getD_eq_getElem _ _ (by omega)]
  · rw [List.getD_eq_default _ _ (by rw [List.length_zipWith]; omega),
      List.getD_eq_default _ _ (by omega), List.getD_eq_default _ _ (by omega), zero]

theorem evalAt_zipWith {f : F → F → F} {p q : F} (linear : ∀ x y, f x y = p * x + q * y)
    {a b : List F} (same : a.length = b.length) (x : F) :
    evalAt (List.zipWith f a b) x = p * evalAt a x + q * evalAt b x := by
  have zero : f 0 0 = 0 := by rw [linear, mul_zero, mul_zero, add_zero]
  rw [evalAt, evalAt, evalAt, List.length_zipWith, ← same, Nat.min_self, mul_sum, mul_sum,
    ← sum_add_distrib]
  refine sum_congr rfl fun i _ => ?_
  rw [getD_zipWith zero same, linear]
  ring

theorem evalAt_append_zero (a : List F) (x : F) : evalAt (a ++ [0]) x = evalAt a x := by
  rw [evalAt, evalAt, List.length_append, List.length_singleton, sum_range_succ,
    List.getD_append_right _ _ _ _ (le_refl _), Nat.sub_self, List.getD_cons_zero, zero_mul, add_zero]
  refine sum_congr rfl fun i among => ?_
  rw [List.getD_append _ _ _ _ (mem_range.mp among)]

theorem evalAt_set {a : List F} {i : Nat} (within : i < a.length) (y x : F) :
    evalAt (a.set i (a.getD i 0 + y)) x = evalAt a x + y * x ^ i := by
  have added : ∀ k, (a.set i (a.getD i 0 + y)).getD k 0 * x ^ k =
      a.getD k 0 * x ^ k + if k = i then y * x ^ i else 0 := by
    intro k
    rw [getD_set _ _ within]
    split_ifs with here
    · rw [here, add_mul]
    · rw [add_zero]
  rw [evalAt, evalAt, List.length_set]
  simp only [added]
  rw [sum_add_distrib, sum_ite_eq' (range a.length) i, if_pos (mem_range.mpr within)]

/-! Values at the powers of a root of unity. -/

private theorem sum_pow_eq_zero {n : Nat} {x : F} (root : x ^ n = 1) (other : x ≠ 1) :
    ∑ i ∈ range n, x ^ i = 0 := by
  have product := geom_sum_mul x n
  rw [root, sub_self] at product
  exact (mul_eq_zero.mp product).resolve_right (sub_ne_zero.mpr other)

section Root

variable {ω : F} {n : Nat} (primitive : IsPrimitiveRoot ω n)
include primitive

theorem evalAt_evalAt {a b : List F} (sizeA : a.length = n) (sizeB : b.length = n)
    (values : ∀ i < n, b.getD i 0 = evalAt a (ω ^ i)) {k : Nat} (within : k < n) :
    evalAt b (ω⁻¹ ^ k) = n * a.getD k 0 := by
  have unit : ω ≠ 0 := primitive.ne_zero (by omega)
  -- with the sums exchanged, every place but `k` cancels out
  have single : ∀ j ∈ range n,
      ∑ i ∈ range n, a.getD j 0 * (ω ^ j * ω⁻¹ ^ k) ^ i = if j = k then n * a.getD k 0 else 0 := by
    intro j among
    rw [← mul_sum]
    by_cases same : j = k
    · have one : ω ^ j * ω⁻¹ ^ k = 1 := by
        rw [same, ← mul_pow, mul_inv_cancel₀ unit, one_pow]
      rw [if_pos same, one, same]
      simp [mul_comm]
    · have other : ω ^ j * ω⁻¹ ^ k ≠ 1 := by
        intro one
        rw [inv_pow, mul_inv_eq_one₀ (pow_ne_zero k unit)] at one
        exact same (primitive.pow_inj (mem_range.mp among) within one)
      have root : (ω ^ j * ω⁻¹ ^ k) ^ n = 1 := by
        rw [mul_pow, ← pow_mul, ← pow_mul, mul_comm j, mul_comm k, pow_mul, pow_mul, inv_pow,
          primitive.pow_eq_one, inv_one, one_pow, one_pow, one_mul]
      rw [if_neg same, sum_pow_eq_zero root other, mul_zero]
  calc evalAt b (ω⁻¹ ^ k)
      = ∑ i ∈ range n, ∑ j ∈ range n, a.getD j 0 * (ω ^ j * ω⁻¹ ^ k) ^ i := by
        rw [evalAt, sizeB]
        refine sum_congr rfl fun i among => ?_
        rw [values i (mem_range.mp among), evalAt, sizeA, sum_mul]
        refine sum_congr rfl fun j _ => ?_
        rw [mul_pow, ← pow_mul ω, ← pow_mul ω, Nat.mul_comm i j, mul_assoc]
    _ = ∑ j ∈ range n, if j = k then n * a.getD k 0 else 0 := by
        rw [sum_comm]
        exact sum_congr rfl single
    _ = n * a.getD k 0 := by rw [sum_ite_eq' (range n) k, if_pos (mem_range.mpr within)]

theorem evalAt_eq_sum_lagrange {a : List F} (size : a.length = n) (unit : (n : F) ≠ 0) {t : F}
    (off : t ^ n ≠ 1) :
    evalAt a t =
      ∑ k ∈ range n, (t ^ n - 1) * (n : F)⁻¹ * ω ^ k * (t - ω ^ k)⁻¹ * evalAt a (ω ^ k) := by
  have positive : 0 < n := by
    rcases Nat.eq_zero_or_pos n with none | positive
    · rw [none, Nat.cast_zero] at unit
      exact absurd rfl unit
    · exact positive
  have root : ω ≠ 0 := primitive.ne_zero positive.ne'
  set b := (List.range n).map fun k => evalAt a (ω ^ k) with values
  have value : ∀ i < n, b.getD i 0 = evalAt a (ω ^ i) := by
    intro i within
    rw [values, List.getD_eq_getElem _ _ (by simpa using within)]
    simp
  have length : b.length = n := by simp [values]
  have inverse : ∀ j, evalAt b (ω⁻¹ ^ j) = ∑ k ∈ range n, b.getD k 0 * (ω⁻¹ ^ j) ^ k := by
    intro j
    rw [evalAt, length]
  -- the geometric sum that the place `k` contributes
  have geometric : ∀ k ∈ range n, ∑ j ∈ range n, (t * ω⁻¹ ^ k) ^ j =
      (t ^ n - 1) * ω ^ k * (t - ω ^ k)⁻¹ := by
    intro k _
    have power : (ω ^ k) ^ n = 1 := by rw [← pow_mul, mul_comm, pow_mul, primitive.pow_eq_one, one_pow]
    have apart : t - ω ^ k ≠ 0 := by
      intro same
      rw [sub_eq_zero] at same
      exact off (by rw [same, power])
    have nonzero := pow_ne_zero k root
    have other : t * ω⁻¹ ^ k ≠ 1 := by
      intro one
      rw [inv_pow, mul_inv_eq_one₀ nonzero] at one
      exact apart (sub_eq_zero.mpr one)
    rw [geom_sum_eq other, mul_pow, inv_pow, inv_pow, power, inv_one, mul_one,
      show t * (ω ^ k)⁻¹ - 1 = (t - ω ^ k) * (ω ^ k)⁻¹ by field_simp, div_eq_mul_inv, mul_inv,
      inv_inv]
    ring
  calc evalAt a t = ∑ j ∈ range n, (n : F)⁻¹ * evalAt b (ω⁻¹ ^ j) * t ^ j := by
        rw [evalAt, size]
        refine sum_congr rfl fun j among => ?_
        rw [evalAt_evalAt primitive size length value (mem_range.mp among), inv_mul_cancel_left₀ unit]
    _ = ∑ k ∈ range n, (n : F)⁻¹ * evalAt a (ω ^ k) * ∑ j ∈ range n, (t * ω⁻¹ ^ k) ^ j := by
        simp only [inverse, mul_sum, sum_mul]
        rw [sum_comm]
        refine sum_congr rfl fun k among => sum_congr rfl fun j _ => ?_
        rw [value k (mem_range.mp among), mul_pow, ← pow_mul, ← pow_mul, Nat.mul_comm j k]
        ring
    _ = _ := by
        refine sum_congr rfl fun k among => ?_
        rw [geometric k among]
        ring

end Root

/-! Division by the polynomial that vanishes at the roots of unity. -/

section Quotient

variable {ω : F} {n : Nat}

private theorem eq_of_coset (primitive : IsPrimitiveRoot ω n) {g : F} (shift : g ≠ 0) {p q : F[X]}
    (below : p.degree < n) (below' : q.degree < n)
    (agree : ∀ k < n, p.eval (g * ω ^ k) = q.eval (g * ω ^ k)) : p = q := by
  -- two polynomials of degree below `n` that agree on a coset of the roots of unity are the same
  have distinct : Set.InjOn (fun k => g * ω ^ k) (range n : Set Nat) := by
    intro i among j among' same
    have powers : ω ^ i = ω ^ j := mul_left_cancel₀ shift same
    simp only [coe_range, Set.mem_Iio] at among among'
    exact primitive.pow_inj among among' powers
  refine eq_of_degrees_lt_of_eval_index_eq (range n) distinct ?_ ?_ ?_
  · rwa [card_range]
  · rwa [card_range]
  · intro k among
    exact agree k (mem_range.mp among)

private theorem exists_quotient (primitive : IsPrimitiveRoot ω n) (positive : 0 < n) {p : F[X]}
    (below : p.degree < (2 * n : Nat)) (vanishes : ∀ k < n, p.eval (ω ^ k) = 0) :
    ∃ q : F[X], q.degree < n ∧ p = q * (X ^ n - 1) := by
  have monic : (X ^ n - 1 : F[X]).Monic := monic_X_pow_sub_C 1 positive.ne'
  have degree : (X ^ n - 1 : F[X]).degree = n := degree_X_pow_sub_C positive 1
  have split := modByMonic_add_div p (X ^ n - 1 : F[X])
  have root : ∀ k, (X ^ n - 1 : F[X]).eval (ω ^ k) = 0 := by
    intro k
    rw [eval_sub, eval_pow, eval_X, eval_one, ← pow_mul, mul_comm, pow_mul, primitive.pow_eq_one,
      one_pow, sub_self]
  have rest : p %ₘ (X ^ n - 1) = 0 := by
    refine eq_of_coset primitive one_ne_zero (q := 0) ?_ ?_ fun k within => ?_
    · rw [← degree]
      exact degree_modByMonic_lt p monic
    · rw [degree_zero]
      exact WithBot.bot_lt_coe n
    · have value := congrArg (eval (ω ^ k)) split
      rw [eval_add, eval_mul, root, zero_mul, add_zero, vanishes k within] at value
      rw [one_mul, value, eval_zero]
  refine ⟨p /ₘ (X ^ n - 1), ?_, ?_⟩
  · by_cases small : p.degree < n
    · rw [(divByMonic_eq_zero_iff monic).mpr (by rwa [degree]), degree_zero]
      exact WithBot.bot_lt_coe n
    · have large : (X ^ n - 1 : F[X]).degree ≤ p.degree := degree ▸ not_lt.mp small
      have sum := degree_add_divByMonic monic large
      rw [degree] at sum
      rw [← sum, two_mul, Nat.cast_add] at below
      exact lt_of_add_lt_add_left below
  · rw [rest, zero_add] at split
    rw [mul_comm, split]

variable [DecidableEq F]

noncomputable def poly (a : List F) : F[X] := ofFn a.length a.get

private theorem eval_poly (a : List F) (x : F) : (poly a).eval x = evalAt a x := by
  rw [poly, ofFn_eq_sum_monomial, eval_finsetSum, evalAt, ← Fin.sum_univ_eq_sum_range
    fun i => a.getD i 0 * x ^ i]
  refine sum_congr rfl fun i _ => ?_
  rw [eval_monomial, List.getD_eq_getElem _ _ i.isLt, List.get_eq_getElem]

private theorem degree_poly_lt {a : List F} (size : a.length = n) : (poly a).degree < n := by
  rw [← size]
  exact ofFn_degree_lt _

theorem evalAt_quotient (primitive : IsPrimitiveRoot ω n) (positive : 0 < n) {g : F}
    (shift : g ≠ 0) (off : g ^ n ≠ 1) {a b c h : List F} (sizeA : a.length = n)
    (sizeB : b.length = n) (sizeC : c.length = n) (sizeH : h.length = n)
    (onRoots : ∀ k < n, evalAt a (ω ^ k) * evalAt b (ω ^ k) = evalAt c (ω ^ k))
    (onCoset : ∀ k < n, evalAt h (g * ω ^ k) * (g ^ n - 1) =
      evalAt a (g * ω ^ k) * evalAt b (g * ω ^ k) - evalAt c (g * ω ^ k)) (t : F) :
    evalAt a t * evalAt b t - evalAt c t = evalAt h t * (t ^ n - 1) := by
  have value : ∀ x, (poly a * poly b - poly c).eval x = evalAt a x * evalAt b x - evalAt c x := by
    intro x
    rw [eval_sub, eval_mul, eval_poly, eval_poly, eval_poly]
  have below : (poly a * poly b - poly c).degree < (2 * n : Nat) := by
    refine lt_of_le_of_lt (degree_sub_le _ _) (max_lt ?_ ?_)
    · by_cases zero : poly a * poly b = 0
      · rw [zero, degree_zero]
        exact WithBot.bot_lt_coe _
      · obtain ⟨nonzero, nonzero'⟩ := mul_ne_zero_iff.mp zero
        have smallA := (natDegree_lt_iff_degree_lt nonzero).mpr (degree_poly_lt sizeA)
        have smallB := (natDegree_lt_iff_degree_lt nonzero').mpr (degree_poly_lt sizeB)
        rw [degree_mul, degree_eq_natDegree nonzero, degree_eq_natDegree nonzero', ← Nat.cast_add,
          Nat.cast_lt]
        omega
    · refine (degree_poly_lt sizeC).trans (Nat.cast_lt.mpr ?_)
      omega
  obtain ⟨q, small, product⟩ := exists_quotient primitive positive below fun k within => by
    rw [value, onRoots k within, sub_self]
  have same : poly h = q := by
    refine eq_of_coset primitive shift (degree_poly_lt sizeH) small fun k within => ?_
    have power : (g * ω ^ k) ^ n = g ^ n := by
      rw [mul_pow, ← pow_mul, mul_comm k, pow_mul, primitive.pow_eq_one, one_pow, mul_one]
    have there := congrArg (eval (g * ω ^ k)) product
    rw [value, eval_mul, eval_sub, eval_pow, eval_X, eval_one, power, ← onCoset k within] at there
    rw [eval_poly]
    exact mul_right_cancel₀ (sub_ne_zero.mpr off) there
  have everywhere := congrArg (eval t) product
  rw [value, eval_mul, eval_sub, eval_pow, eval_X, eval_one, ← same, eval_poly] at everywhere
  exact everywhere

private theorem natDegree_poly_le {a : List F} (size : a.length ≤ n + 1) : (poly a).natDegree ≤ n :=
  natDegree_le_of_degree_le (Order.le_of_lt_succ (lt_of_lt_of_le (degree_poly_lt rfl)
    (Nat.cast_le.mpr size)))

/-- The identity with random multiples of `X ^ n - 1` has degree at most `2 * n`: what fulfils it
at more points fulfils it everywhere. -/
theorem identity_of_many_points {a b c h : List F} (sizeA : a.length = n) (sizeB : b.length = n)
    (sizeC : c.length = n) (sizeH : h.length = n + 1) (d1 d2 d3 : F) {points : Finset F}
    (many : 2 * n < points.card)
    (holds : ∀ t ∈ points, (evalAt a t + d1 * (t ^ n - 1)) * (evalAt b t + d2 * (t ^ n - 1)) -
      (evalAt c t + d3 * (t ^ n - 1)) = evalAt h t * (t ^ n - 1)) (t : F) :
    (evalAt a t + d1 * (t ^ n - 1)) * (evalAt b t + d2 * (t ^ n - 1)) -
      (evalAt c t + d3 * (t ^ n - 1)) = evalAt h t * (t ^ n - 1) := by
  have degreeZ : (X ^ n - 1 : F[X]).natDegree ≤ n := (natDegree_X_pow_sub_C (r := (1 : F))).le
  have shifted : ∀ (list : List F) (d : F), list.length = n →
      (poly list + C d * (X ^ n - 1)).natDegree ≤ n := by
    intro list d size
    refine natDegree_add_le_of_degree_le (natDegree_poly_le (by omega)) ?_
    exact (natDegree_C_mul_le d _).trans degreeZ
  set p := (poly a + C d1 * (X ^ n - 1)) * (poly b + C d2 * (X ^ n - 1)) -
    (poly c + C d3 * (X ^ n - 1)) - poly h * (X ^ n - 1) with difference
  have value : ∀ x, p.eval x = (evalAt a x + d1 * (x ^ n - 1)) * (evalAt b x + d2 * (x ^ n - 1)) -
      (evalAt c x + d3 * (x ^ n - 1)) - evalAt h x * (x ^ n - 1) := by
    intro x
    simp only [difference, eval_sub, eval_mul, eval_add, eval_C, eval_pow, eval_X, eval_one, eval_poly]
  have degree : p.natDegree ≤ 2 * n := by
    refine (natDegree_sub_le _ _).trans
      (max_le ((natDegree_sub_le _ _).trans (max_le ?_ ?_)) ?_)
    · exact (natDegree_mul_le_of_le (shifted a d1 sizeA) (shifted b d2 sizeB)).trans (by omega)
    · exact (shifted c d3 sizeC).trans (by omega)
    · exact (natDegree_mul_le_of_le (natDegree_poly_le sizeH.le) degreeZ).trans (by omega)
  have zero : p = 0 := by
    refine eq_zero_of_natDegree_lt_card_of_eval_eq_zero' p points (fun x listed => ?_)
      (lt_of_le_of_lt degree many)
    rw [value, holds x listed, sub_self]
  rw [← sub_eq_zero, ← value, zero, eval_zero]

end Quotient

end CbDaemon.Base.Coefficients
