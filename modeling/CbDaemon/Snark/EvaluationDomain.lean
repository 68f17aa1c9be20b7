/- module: CbDaemon/Snark/EvaluationDomain
   source: snark/libsnark/algebra/evaluation_domain/evaluation_domain.tcc,
     snark/libsnark/algebra/evaluation_domain/domains/basic_radix2_domain.tcc,
     snark/libsnark/algebra/evaluation_domain/domains/basic_radix2_domain_aux.tcc,
     snark/libsnark/algebra/fields/field_utils.tcc (get_root_of_unity),
     snark/libsnark/algebra/curves/alt_bn128/alt_bn128_init.cpp
   digest: The domain of roots of unity: choice, transforms, coset transforms and Lagrange values. -/

import CbDaemon.Circuit.ScalarField
import CbDaemon.Snark.Fft

set_option autoImplicit false
set_option relaxedAutoImplicit false

namespace CbDaemon.Snark.EvaluationDomain

open Base.Coefficients Fft
open Circuit.ScalarField (Fr modulusR)
open Finset (range sum_congr)

variable {F : Type} [Field F]

/-- The constants of a field that the domains use. -/
structure FieldParams (F : Type) [Field F] where
  s : Nat
  rootOfUnity : F
  multiplicativeGenerator : F
  primitive : IsPrimitiveRoot rootOfUnity (2 ^ s)
  nonzero : multiplicativeGenerator ≠ 0
  off_roots : multiplicativeGenerator ^ 2 ^ s ≠ 1

variable (P : FieldParams F)

def getRootOfUnity (n : Nat) : Option F :=
  let logn := log2 n
  if n = 2 ^ logn ∧ logn ≤ P.s then
    some ((List.range (P.s - logn)).foldl (fun omega _ => omega * omega) P.rootOfUnity)
  else none

/-- `basic_radix2_domain`. -/
structure Radix2Domain where
  m : Nat
  omega : F
  large : 1 < m
  root : getRootOfUnity P m = some omega

variable {P}

/-- The constructor; the second of its assertions is one of `get_root_of_unity` too. -/
def basicRadix2Domain (P : FieldParams F) (m : Nat) : Option (Radix2Domain P) :=
  if large : 1 < m then
    match root : getRootOfUnity P m with
    | some omega => some ⟨m, omega, large, root⟩
    | none => none
  else none

/-- `get_evaluation_domain`: other domains than the basic one have been taken out. -/
def getEvaluationDomain (P : FieldParams F) (minSize : Nat) : Option (Radix2Domain P) :=
  let logMinSize := log2 minSize
  if 1 < minSize ∧ logMinSize ≤ P.s + 1 then
    if minSize = 2 ^ logMinSize then
      if logMinSize = P.s + 1 then none else basicRadix2Domain P minSize
    else
      let big := 2 ^ (logMinSize - 1)
      let roundedSmall := 2 ^ log2 (minSize - big)
      if big = roundedSmall then
        if log2 (big + roundedSmall) < P.s + 1 then basicRadix2Domain P (big + roundedSmall)
        else none
      else none
  else none

/-! The choice of the domain. -/

private theorem foldl_square (omega : F) (n : Nat) :
    (List.range n).foldl (fun omega _ => omega * omega) omega = omega ^ 2 ^ n := by
  induction n with
  | zero => rw [pow_zero, pow_one]; rfl
  | succ n ih =>
    rw [List.range_succ, List.foldl_append, ih, pow_succ, pow_mul, pow_two]
    rfl

private theorem getRootOfUnity_eq_some {n : Nat} {omega : F} :
    getRootOfUnity P n = some omega ↔
      n = 2 ^ log2 n ∧ log2 n ≤ P.s ∧ P.rootOfUnity ^ 2 ^ (P.s - log2 n) = omega := by
  rw [getRootOfUnity, foldl_square]
  simp only [Option.ite_none_right_eq_some, Option.some.injEq, and_assoc]

namespace Radix2Domain

variable (domain : Radix2Domain P)

private theorem m_eq : domain.m = 2 ^ log2 domain.m := (getRootOfUnity_eq_some.mp domain.root).1

private theorem log2_pos : log2 domain.m ≠ 0 := by
  intro zero
  have size := domain.m_eq
  rw [zero, pow_zero] at size
  exact absurd domain.large (by omega)

theorem primitive : IsPrimitiveRoot domain.omega domain.m := by
  obtain ⟨size, small, power⟩ := getRootOfUnity_eq_some.mp domain.root
  rw [← power]
  refine P.primitive.pow (Nat.two_pow_pos _) ?_
  calc 2 ^ P.s = 2 ^ (P.s - log2 domain.m) * 2 ^ log2 domain.m := by
        rw [← pow_add, Nat.sub_add_cancel small]
    _ = 2 ^ (P.s - log2 domain.m) * domain.m := by rw [← size]

private theorem omega_ne_zero :
    domain.omega ≠ 0 := domain.primitive.ne_zero (by have := domain.large; omega)

private theorem omega_pow_half : domain.omega ^ 2 ^ (log2 domain.m - 1) = -1 := by
  have full : domain.omega ^ domain.m = 1 := domain.primitive.pow_eq_one
  have halves : domain.m = 2 ^ (log2 domain.m - 1) * 2 := by
    rw [← pow_succ, Nat.sub_add_cancel (Nat.pos_of_ne_zero domain.log2_pos), ← domain.m_eq]
  rw [halves, pow_mul, pow_two] at full
  rcases mul_self_eq_one_iff.mp full with one | minus
  · have divides := domain.primitive.dvd_of_pow_eq_one _ one
    have small := Nat.le_of_dvd (Nat.two_pow_pos _) divides
    have := domain.large
    omega
  · exact minus

private theorem m_ne_zero : (domain.m : F) ≠ 0 := by
  have two : (2 : F) ≠ 0 := by
    intro zero
    have minus : (-1 : F) = 1 := by
      rw [neg_eq_iff_add_eq_zero, one_add_one_eq_two, zero]
    have divides := domain.primitive.dvd_of_pow_eq_one _ (domain.omega_pow_half.trans minus)
    have small := Nat.le_of_dvd (Nat.two_pow_pos _) divides
    have grows := Nat.pow_lt_pow_right (a := 2) (by decide)
      (Nat.sub_one_lt domain.log2_pos)
    rw [← domain.m_eq] at grows
    omega
  rw [domain.m_eq, Nat.cast_pow, Nat.cast_ofNat]
  exact pow_ne_zero _ two

theorem off_domain : P.multiplicativeGenerator ^ domain.m ≠ 1 := by
  obtain ⟨size, small, -⟩ := getRootOfUnity_eq_some.mp domain.root
  intro one
  refine P.off_roots ?_
  rw [← Nat.sub_add_cancel small, pow_add, Nat.mul_comm, pow_mul, ← size, one, one_pow]

end Radix2Domain

private theorem basicRadix2Domain_size {m : Nat} {domain : Radix2Domain P}
    (chosen : basicRadix2Domain P m = some domain) : domain.m = m := by
  rw [basicRadix2Domain] at chosen
  split_ifs at chosen
  split at chosen
  · obtain rfl := Option.some.inj chosen
    rfl
  · cases chosen

theorem getEvaluationDomain_le {minSize : Nat} {domain : Radix2Domain P}
    (chosen : getEvaluationDomain P minSize = some domain) : minSize ≤ domain.m := by
  simp only [getEvaluationDomain] at chosen
  split_ifs at chosen with asserted whole small rounded room
  · rw [basicRadix2Domain_size chosen]
  · rw [basicRadix2Domain_size chosen, ← rounded, ← Nat.two_mul, ← pow_succ']
    have fits := le_two_pow_log2 (n := minSize) (by omega)
    refine fits.trans (Nat.pow_le_pow_right (by decide) (by omega))

/-! The field of the circuit. -/

/-- `alt_bn128_Fr::root_of_unity`. -/
def frRootOfUnity : Fr :=
  19103219067921713944291392827692070036145651957329286315305642004821462161904

private theorem frRootOfUnity_pow : frRootOfUnity ^ 2 ^ 28 = 1 := by
  unfold frRootOfUnity Fr modulusR
  reduce_mod_char

private theorem frRootOfUnity_pow_half : frRootOfUnity ^ 2 ^ 27 ≠ 1 := by
  unfold frRootOfUnity Fr modulusR
  reduce_mod_char
  decide

private theorem five_off_roots : ((5 : Nat) : Fr) ^ 2 ^ 28 ≠ 1 := by
  unfold Fr modulusR
  reduce_mod_char
  decide

private theorem five_ne_zero : ((5 : Nat) : Fr) ≠ 0 := by
  unfold Fr modulusR
  decide

private theorem isPrimitiveRoot_fr : IsPrimitiveRoot frRootOfUnity (2 ^ 28) := by
  rw [IsPrimitiveRoot.iff_orderOf]
  exact orderOf_eq_prime_pow frRootOfUnity_pow_half frRootOfUnity_pow

/-- The constants of `alt_bn128_Fr`, the field of the circuit. -/
def frParams : FieldParams Fr where
  s := 28
  rootOfUnity := frRootOfUnity
  multiplicativeGenerator := (5 : Nat)
  primitive := isPrimitiveRoot_fr
  nonzero := five_ne_zero
  off_roots := five_off_roots

example : (getEvaluationDomain frParams (2 ^ 28)).isSome = true := by decide +kernel

/-! The transforms. -/

/-- `_multiply_by_coset`, from the element that is multiplied by `u` on. -/
def multiplyFrom (g : F) : F → List F → List F
  | _, [] => []
  | u, x :: xs => x * u :: multiplyFrom g (u * g) xs

def multiplyByCoset (g : F) : List F → List F
  | [] => []
  | x :: xs => x :: multiplyFrom g g xs

variable [DecidableEq F]

/-- `inverse`, which asserts that the element is not zero. -/
def inverse (x : F) : Option F := if x = 0 then none else some x⁻¹

namespace Radix2Domain

variable (domain : Radix2Domain P)

def fft (a : List F) : Option (List F) :=
  if a.length = domain.m then basicSerialRadix2FFT a domain.omega else none

def iFFT (a : List F) : Option (List F) := do
  if a.length = domain.m then
    let b ← basicSerialRadix2FFT a (← inverse domain.omega)
    let sconst ← inverse (a.length : F)
    some (b.map (· * sconst))
  else none

def cosetFFT (a : List F) (g : F) : Option (List F) := domain.fft (multiplyByCoset g a)

def icosetFFT (a : List F) (g : F) : Option (List F) := do
  let b ← domain.iFFT a
  some (multiplyByCoset (← inverse g) b)

def computeZ (t : F) : F := t ^ domain.m - 1

def addPolyZ (coeff : F) (H : List F) : Option (List F) :=
  if H.length = domain.m + 1 then
    let H := H.set domain.m (H.getD domain.m 0 + coeff)
    some (H.set 0 (H.getD 0 0 - coeff))
  else none

def divideByZOnCoset (values : List F) : Option (List F) := do
  let zInverseAtCoset ← inverse (domain.computeZ P.multiplicativeGenerator)
  some (values.map (· * zInverseAtCoset))

end Radix2Domain

/-- The search for the root that `t` is. -/
def findRoot (omega t : F) : Nat → Nat → F → Option Nat
  | 0, _, _ => none
  | rest + 1, i, omegaI => if omegaI = t then some i else findRoot omega t rest (i + 1) (omegaI * omega)

def lagrangeLoop (omega t : F) : Nat → F → F → Option (List F)
  | 0, _, _ => some []
  | rest + 1, l, r => do
    let distance ← inverse (t - r)
    let others ← lagrangeLoop omega t rest (l * omega) (r * omega)
    some (l * distance :: others)

/-- `_basic_radix2_lagrange_coeffs`. -/
def lagrangeCoeffs (P : FieldParams F) (m : Nat) (t : F) : Option (List F) := do
  if m = 1 then some [1]
  else if m = 2 ^ log2 m then
    let omega ← getRootOfUnity P m
    match if t ^ m = 1 then findRoot omega t m 0 1 else none with
    | some i => some ((List.replicate m 0).set i 1)
    | none =>
      let size ← inverse (m : F)
      lagrangeLoop omega t m ((t ^ m - 1) * size) 1
  else none

/-! What the transforms compute. -/

omit [DecidableEq F] in
theorem getD_map_mul (a : List F) (c : F) (i : Nat) :
    (a.map (· * c)).getD i 0 = a.getD i 0 * c := by
  have mapped := List.getD_map a (0 : F) (· * c) (n := i)
  rwa [zero_mul] at mapped

theorem inverse_of_ne {x : F} (nonzero : x ≠ 0) : inverse x = some x⁻¹ := if_neg nonzero

omit [DecidableEq F] in
private theorem length_multiplyFrom (g u : F) (a : List F) :
    (multiplyFrom g u a).length = a.length := by
  induction a generalizing u with
  | nil => rfl
  | cons x xs ih => rw [multiplyFrom, List.length_cons, ih, List.length_cons]

omit [DecidableEq F] in
private theorem getD_multiplyFrom (g u : F) (a : List F) (i : Nat) :
    (multiplyFrom g u a).getD i 0 = a.getD i 0 * (u * g ^ i) := by
  induction a generalizing u i with
  | nil => rw [multiplyFrom, List.getD_nil, zero_mul]
  | cons x xs ih =>
    cases i with
    | zero => rw [multiplyFrom, List.getD_cons_zero, List.getD_cons_zero, pow_zero, mul_one]
    | succ i => rw [multiplyFrom, List.getD_cons_succ, List.getD_cons_succ, ih, mul_assoc u, ← pow_succ']

omit [DecidableEq F] in
private theorem length_multiplyByCoset (g : F) (a : List F) :
    (multiplyByCoset g a).length = a.length := by
  cases a with
  | nil => rfl
  | cons x xs => rw [multiplyByCoset, List.length_cons, length_multiplyFrom, List.length_cons]

omit [DecidableEq F] in
private theorem getD_multiplyByCoset (g : F) (a : List F) (i : Nat) :
    (multiplyByCoset g a).getD i 0 = a.getD i 0 * g ^ i := by
  cases a with
  | nil => rw [multiplyByCoset, List.getD_nil, zero_mul]
  | cons x xs =>
    cases i with
    | zero => rw [multiplyByCoset, List.getD_cons_zero, List.getD_cons_zero, pow_zero, mul_one]
    | succ i =>
      rw [multiplyByCoset, List.getD_cons_succ, List.getD_cons_succ, getD_multiplyFrom, ← pow_succ']

omit [DecidableEq F] in
private theorem evalAt_multiplyByCoset (g : F) (a : List F) (x : F) :
    evalAt (multiplyByCoset g a) x = evalAt a (g * x) := by
  -- the coefficients for a variable that is `g` times the old one
  rw [evalAt, evalAt, length_multiplyByCoset]
  refine sum_congr rfl fun i _ => ?_
  rw [getD_multiplyByCoset, mul_pow, mul_assoc]

namespace Radix2Domain

variable (domain : Radix2Domain P) {a : List F}

omit [DecidableEq F] in
private theorem fft_spec (size : a.length = domain.m) :
    ∃ b, domain.fft a = some b ∧ b.length = domain.m ∧
      ∀ k < domain.m, b.getD k 0 = evalAt a (domain.omega ^ k) := by
  obtain ⟨b, run, length, values⟩ :=
    basicSerialRadix2FFT_spec (size.trans domain.m_eq) fun _ => domain.omega_pow_half
  rw [← domain.m_eq] at length values
  exact ⟨b, by rw [fft, if_pos size, run], length, values⟩

theorem iFFT_spec (size : a.length = domain.m) :
    ∃ b, domain.iFFT a = some b ∧ b.length = domain.m ∧
      ∀ k < domain.m, evalAt b (domain.omega ^ k) = a.getD k 0 := by
  have half : domain.omega⁻¹ ^ 2 ^ (log2 domain.m - 1) = -1 := by
    rw [inv_pow, domain.omega_pow_half, inv_neg, inv_one]
  obtain ⟨b, run, length, values⟩ :=
    basicSerialRadix2FFT_spec (size.trans domain.m_eq) fun _ => half
  rw [← domain.m_eq] at length values
  refine ⟨b.map (· * (domain.m : F)⁻¹), ?_, by rw [List.length_map, length], fun k within => ?_⟩
  · rw [iFFT, if_pos size, inverse_of_ne domain.omega_ne_zero, size,
      inverse_of_ne domain.m_ne_zero]
    simp only [Option.bind_eq_bind, Option.bind_some, run]
  · have back := evalAt_evalAt domain.primitive.inv size length values within
    rw [inv_inv] at back
    have scaled : evalAt (b.map (· * (domain.m : F)⁻¹)) (domain.omega ^ k) =
        evalAt b (domain.omega ^ k) * (domain.m : F)⁻¹ := by
      rw [evalAt, evalAt, List.length_map, Finset.sum_mul]
      refine sum_congr rfl fun i among => ?_
      rw [getD_map_mul]
      ring
    rw [scaled, back, mul_comm, inv_mul_cancel_left₀ domain.m_ne_zero]

omit [DecidableEq F] in
theorem cosetFFT_spec (size : a.length = domain.m) (g : F) :
    ∃ b, domain.cosetFFT a g = some b ∧ b.length = domain.m ∧
      ∀ k < domain.m, b.getD k 0 = evalAt a (g * domain.omega ^ k) := by
  obtain ⟨b, run, length, values⟩ := domain.fft_spec ((length_multiplyByCoset g a).trans size)
  refine ⟨b, run, length, fun k within => ?_⟩
  rw [values k within, evalAt_multiplyByCoset]

theorem icosetFFT_spec (size : a.length = domain.m) {g : F} (nonzero : g ≠ 0) :
    ∃ b, domain.icosetFFT a g = some b ∧ b.length = domain.m ∧
      ∀ k < domain.m, evalAt b (g * domain.omega ^ k) = a.getD k 0 := by
  obtain ⟨b, run, length, values⟩ := domain.iFFT_spec size
  refine ⟨multiplyByCoset g⁻¹ b, ?_, by rw [length_multiplyByCoset, length], fun k within => ?_⟩
  · rw [icosetFFT, run, inverse_of_ne nonzero]
    rfl
  · rw [evalAt_multiplyByCoset, inv_mul_cancel_left₀ nonzero, values k within]

omit [DecidableEq F] in
theorem addPolyZ_spec {H : List F} (size : H.length = domain.m + 1) (coeff : F) :
    ∃ H', domain.addPolyZ coeff H = some H' ∧ H'.length = domain.m + 1 ∧
      ∀ t, evalAt H' t = evalAt H t + coeff * domain.computeZ t := by
  refine ⟨_, if_pos size, by rw [List.length_set, List.length_set, size], fun t => ?_⟩
  rw [sub_eq_add_neg, evalAt_set (by rw [List.length_set]; omega), evalAt_set (by omega), computeZ,
    pow_zero]
  ring

end Radix2Domain

/-! Lagrange coefficients. -/

private theorem findRoot_eq_some {omega t : F} {rest i j : Nat} (start : F)
    (found : findRoot omega t rest i (start * omega ^ i) = some j) :
    i ≤ j ∧ j < i + rest ∧ start * omega ^ j = t := by
  induction rest generalizing i with
  | zero => cases found
  | succ rest ih =>
    rw [findRoot] at found
    split_ifs at found with here
    · obtain rfl := Option.some.inj found
      exact ⟨le_refl i, by omega, here⟩
    · rw [mul_assoc, ← pow_succ] at found
      obtain ⟨above, below, power⟩ := ih found
      exact ⟨by omega, by omega, power⟩

private theorem findRoot_eq_none {omega t : F} {rest i : Nat} (start : F)
    (missed : findRoot omega t rest i (start * omega ^ i) = none) {k : Nat} (above : i ≤ k)
    (below : k < i + rest) : start * omega ^ k ≠ t := by
  induction rest generalizing i with
  | zero => omega
  | succ rest ih =>
    rw [findRoot] at missed
    split_ifs at missed with here
    rw [mul_assoc, ← pow_succ] at missed
    rcases Nat.eq_or_lt_of_le above with rfl | later
    · exact here
    · exact ih missed later (by omega)

private theorem lagrangeLoop_spec {omega t : F} (off : ∀ k, t - omega ^ k ≠ 0) (l : F)
    (rest i : Nat) :
    ∃ u, lagrangeLoop omega t rest (l * omega ^ i) (omega ^ i) = some u ∧ u.length = rest ∧
      ∀ k < rest, u.getD k 0 = l * omega ^ (i + k) * (t - omega ^ (i + k))⁻¹ := by
  induction rest generalizing i with
  | zero => exact ⟨[], rfl, rfl, fun k within => absurd within (Nat.not_lt_zero k)⟩
  | succ rest ih =>
    obtain ⟨u, run, length, values⟩ := ih (i + 1)
    refine ⟨l * omega ^ i * (t - omega ^ i)⁻¹ :: u, ?_, by rw [List.length_cons, length],
      fun k within => ?_⟩
    · rw [lagrangeLoop, inverse_of_ne (off i), mul_assoc, ← pow_succ, run]
      rfl
    · cases k with
      | zero => rw [List.getD_cons_zero, Nat.add_zero]
      | succ k =>
        rw [List.getD_cons_succ, values k (by omega), Nat.add_right_comm, Nat.add_assoc]

/-- The coefficients of the domain: they give the value of every small polynomial at `t` from
its values on the domain, also where `t` is one of the roots. -/
theorem Radix2Domain.lagrangeCoeffs_spec (domain : Radix2Domain P) (t : F) :
    ∃ u, lagrangeCoeffs P domain.m t = some u ∧ u.length = domain.m ∧
      ∀ c : List F, c.length = domain.m →
        ∑ k ∈ range domain.m, u.getD k 0 * evalAt c (domain.omega ^ k) = evalAt c t := by
  have start : ∀ {α : Type} (f : F → α), f 1 = f (1 * domain.omega ^ 0) := by
    intro α f
    rw [pow_zero, mul_one]
  have large := domain.large
  rw [lagrangeCoeffs, if_neg (by omega), if_pos domain.m_eq, domain.root]
  simp only [Option.bind_eq_bind, Option.bind_some]
  by_cases onRoots : t ^ domain.m = 1
  · have : NeZero domain.m := ⟨by omega⟩
    obtain ⟨j, within, power⟩ := domain.primitive.eq_pow_of_pow_eq_one onRoots
    rw [if_pos onRoots]
    cases found : findRoot domain.omega t domain.m 0 1 with
    | none =>
      rw [start (findRoot domain.omega t domain.m 0)] at found
      have other := findRoot_eq_none 1 found (Nat.zero_le j) (by omega)
      rw [one_mul] at other
      exact absurd power other
    | some i =>
      rw [start (findRoot domain.omega t domain.m 0)] at found
      obtain ⟨-, below, here⟩ := findRoot_eq_some 1 found
      rw [one_mul] at here
      rw [Nat.zero_add] at below
      refine ⟨_, rfl, by rw [List.length_set, List.length_replicate], fun c size => ?_⟩
      rw [Finset.sum_eq_single i]
      · rw [Base.InPlace.getD_set _ _ (by rwa [List.length_replicate]), if_pos rfl, one_mul, here]
      · intro k among other
        rw [Base.InPlace.getD_set _ _ (by rwa [List.length_replicate]), if_neg other,
          List.getD_replicate _ (Finset.mem_range.mp among), zero_mul]
      · intro outside
        exact absurd (Finset.mem_range.mpr below) outside
  · have off : ∀ k, t - domain.omega ^ k ≠ 0 := by
      intro k zero
      rw [sub_eq_zero] at zero
      refine onRoots ?_
      rw [zero, ← pow_mul, mul_comm, pow_mul, domain.primitive.pow_eq_one, one_pow]
    rw [if_neg onRoots, inverse_of_ne domain.m_ne_zero]
    obtain ⟨u, run, length, values⟩ := lagrangeLoop_spec off
      ((t ^ domain.m - 1) * (domain.m : F)⁻¹) domain.m 0
    rw [pow_zero, mul_one] at run
    refine ⟨u, by simpa using run, length, fun c size => ?_⟩
    rw [evalAt_eq_sum_lagrange domain.primitive size domain.m_ne_zero onRoots]
    refine sum_congr rfl fun k among => ?_
    rw [values k (Finset.mem_range.mp among), Nat.zero_add]

end CbDaemon.Snark.EvaluationDomain
