/- module: CbDaemon/Snark/QapReduction
   source: snark/libsnark/reductions/r1cs_to_qap/r1cs_to_qap.tcc,
     snark/libsnark/relations/constraint_satisfaction_problems/r1cs/r1cs.tcc,
     snark/libsnark/relations/arithmetic_programs/qap/qap.tcc
   digest: A constraint system is satisfied exactly if its arithmetic program is, at every point. -/

import CbDaemon.Base.R1cs
import CbDaemon.Snark.EvaluationDomain

set_option autoImplicit false
set_option relaxedAutoImplicit false

namespace CbDaemon.Snark.QapReduction

open Base.R1cs Base.Coefficients Base.InPlace EvaluationDomain
open Finset (range sum_congr)

variable {F : Type}

/-- The index of a term: zero is the constant one, variable `v` of the assignment has `v + 1`. -/
def index (v : Option Nat) : Nat := v.elim 0 (· + 1)

/-- The terms of a constraint have indices up to `n`. -/
def InRange (n : Nat) (constraint : Constraint F Nat) : Prop :=
  (∀ term ∈ constraint.a.terms, index term.1 ≤ n) ∧
    (∀ term ∈ constraint.b.terms, index term.1 ≤ n) ∧ ∀ term ∈ constraint.c.terms, index term.1 ≤ n

/-- `r1cs_constraint_system`. -/
structure ConstraintSystem (F : Type) where
  primaryInputSize : Nat
  auxiliaryInputSize : Nat
  constraints : List (Constraint F Nat)
  in_range : ∀ constraint ∈ constraints, InRange (primaryInputSize + auxiliaryInputSize) constraint

namespace ConstraintSystem

variable (cs : ConstraintSystem F)

def numInputs : Nat := cs.primaryInputSize

def numVariables : Nat := cs.primaryInputSize + cs.auxiliaryInputSize

def numConstraints : Nat := cs.constraints.length

end ConstraintSystem

variable [Field F] [DecidableEq F]

def assign (full : List F) (v : Nat) : F := full.getD v 0

/-- `r1cs_constraint_system::is_satisfied`; `none` is a failed assertion. -/
def ConstraintSystem.isSatisfied (cs : ConstraintSystem F) (primaryInput auxiliaryInput : List F) :
    Option Bool :=
  if primaryInput.length = cs.numInputs ∧
      primaryInput.length + auxiliaryInput.length = cs.numVariables then
    some (cs.constraints.all fun constraint =>
      constraint.a.eval (assign (primaryInput ++ auxiliaryInput)) *
        constraint.b.eval (assign (primaryInput ++ auxiliaryInput)) ==
          constraint.c.eval (assign (primaryInput ++ auxiliaryInput)))
  else none

structure QapInstanceEvaluation (P : FieldParams F) where
  domain : Radix2Domain P
  numVariables : Nat
  degree : Nat
  numInputs : Nat
  t : F
  At : List F
  Bt : List F
  Ct : List F
  Ht : List F
  Zt : F

structure QapWitness (F : Type) where
  numVariables : Nat
  degree : Nat
  numInputs : Nat
  d1 : F
  d2 : F
  d3 : F
  coefficientsForABCs : List F
  coefficientsForH : List F

def naivePlainExp (vec scalars : List F) : F :=
  (List.zip vec scalars).foldl (fun result pair => result + pair.2 * pair.1) 0

/-- `qap_instance_evaluation::is_satisfied`. -/
def QapInstanceEvaluation.isSatisfied {P : FieldParams F} (inst : QapInstanceEvaluation P)
    (witness : QapWitness F) : Bool :=
  if inst.numVariables ≠ witness.numVariables then false
  else if inst.degree ≠ witness.degree then false
  else if inst.numInputs ≠ witness.numInputs then false
  else if inst.numVariables ≠ witness.coefficientsForABCs.length then false
  else if inst.degree + 1 ≠ witness.coefficientsForH.length then false
  else if inst.At.length ≠ inst.numVariables + 1 ∨ inst.Bt.length ≠ inst.numVariables + 1 ∨
      inst.Ct.length ≠ inst.numVariables + 1 then false
  else if inst.Ht.length ≠ inst.degree + 1 then false
  else if inst.Zt ≠ inst.domain.computeZ inst.t then false
  else
    let ansA := inst.At.getD 0 0 + witness.d1 * inst.Zt
    let ansB := inst.Bt.getD 0 0 + witness.d2 * inst.Zt
    let ansC := inst.Ct.getD 0 0 + witness.d3 * inst.Zt
    let ansA := ansA + naivePlainExp (inst.At.drop 1) witness.coefficientsForABCs
    let ansB := ansB + naivePlainExp (inst.Bt.drop 1) witness.coefficientsForABCs
    let ansC := ansC + naivePlainExp (inst.Ct.drop 1) witness.coefficientsForABCs
    let ansH := 0 + naivePlainExp inst.Ht witness.coefficientsForH
    ansA * ansB - ansC == ansH * inst.Zt

/-- The terms of one linear combination, added to the evaluations of their variables. -/
def addTerms (u : F) (terms : List (Option Nat × F)) (evaluations : List F) : List F :=
  terms.foldl (fun evaluations term =>
    evaluations.set (index term.1) (evaluations.getD (index term.1) 0 + u * term.2)) evaluations

def addConstraints (u : List F) (side : Constraint F Nat → LinearCombination F Nat)
    (constraints : List (Constraint F Nat)) (evaluations : List F) : List F :=
  constraints.zipIdx.foldl (fun evaluations item =>
    addTerms (u.getD item.2 0) (side item.1).terms evaluations) evaluations

/-- The first entries of `At`: the constraints `input_i * 0 = 0`. -/
def inputEvaluations (cs : ConstraintSystem F) (u : List F) : List F :=
  (List.range (cs.numInputs + 1)).map (fun i => u.getD (cs.numConstraints + i) 0) ++
    List.replicate cs.auxiliaryInputSize 0

/-- The powers of `t`, by a running product. -/
def powers (t : F) : Nat → F → List F
  | 0, _ => []
  | rest + 1, ti => ti :: powers t rest (ti * t)

/-- What the instance is made of once the domain and its Lagrange coefficients are there. -/
def evaluation {P : FieldParams F} (cs : ConstraintSystem F) (domain : Radix2Domain P) (t : F)
    (u : List F) : QapInstanceEvaluation P where
  domain := domain
  numVariables := cs.numVariables
  degree := domain.m
  numInputs := cs.numInputs
  t := t
  At := addConstraints u Constraint.a cs.constraints (inputEvaluations cs u)
  Bt := addConstraints u Constraint.b cs.constraints (List.replicate (cs.numVariables + 1) 0)
  Ct := addConstraints u Constraint.c cs.constraints (List.replicate (cs.numVariables + 1) 0)
  Ht := powers t (domain.m + 1) 1
  Zt := domain.computeZ t

/-- `r1cs_to_qap_instance_map_with_evaluation`. -/
def instanceMapWithEvaluation (P : FieldParams F) (cs : ConstraintSystem F) (t : F) :
    Option (QapInstanceEvaluation P) := do
  let domain ← getEvaluationDomain P (cs.numConstraints + cs.numInputs + 1)
  let u ← lagrangeCoeffs P domain.m t
  some (evaluation cs domain t u)

/-- The evaluations of one side on the domain, filled up with zeros; `inputs` are those of the
additional constraints. -/
def rows (cs : ConstraintSystem F) (m : Nat) (side : Constraint F Nat → LinearCombination F Nat)
    (full inputs : List F) : List F :=
  let filled := cs.constraints.map (fun constraint => (side constraint).eval (assign full)) ++ inputs
  filled ++ List.replicate (m - filled.length) 0

/-- `r1cs_to_qap_witness_map`. -/
def witnessMap (P : FieldParams F) (cs : ConstraintSystem F) (primaryInput auxiliaryInput : List F)
    (d1 d2 d3 : F) : Option (QapWitness F) := do
  if cs.isSatisfied primaryInput auxiliaryInput ≠ some true then none
  else
    let domain ← getEvaluationDomain P (cs.numConstraints + cs.numInputs + 1)
    let full := primaryInput ++ auxiliaryInput
    let aA ← domain.iFFT (rows cs domain.m Constraint.a full (1 :: full.take cs.numInputs))
    let aB ← domain.iFFT (rows cs domain.m Constraint.b full [])
    -- the patch (d2 * A + d1 * B - d3) + d1 * d2 * Z
    let patch := List.zipWith (fun a b => d2 * a + d1 * b) aA aB ++ [0]
    let patch := patch.set 0 (patch.getD 0 0 - d3)
    let patch ← domain.addPolyZ (d1 * d2) patch
    let tA ← domain.cosetFFT aA P.multiplicativeGenerator
    let tB ← domain.cosetFFT aB P.multiplicativeGenerator
    let hTmp := List.zipWith (· * ·) tA tB
    let aC ← domain.iFFT (rows cs domain.m Constraint.c full [])
    let tC ← domain.cosetFFT aC P.multiplicativeGenerator
    let hTmp := List.zipWith (· - ·) hTmp tC
    let hTmp ← domain.divideByZOnCoset hTmp
    let hTmp ← domain.icosetFFT hTmp P.multiplicativeGenerator
    some {
      numVariables := cs.numVariables
      degree := domain.m
      numInputs := cs.numInputs
      d1 := d1
      d2 := d2
      d3 := d3
      coefficientsForABCs := full
      coefficientsForH := List.zipWith (· + ·) patch (hTmp ++ [0]) }

/-! A system over a small field, `w * w = x` and `w * w = w`, on the four roots of unity there. -/

instance primeThirteen : Fact (Nat.Prime 13) := ⟨by decide⟩

theorem isPrimitiveRoot_five : IsPrimitiveRoot (5 : ZMod 13) (2 ^ 2) := by
  refine IsPrimitiveRoot.mk_of_lt _ (by decide) (by decide) fun l positive small => ?_
  have among : l = 1 ∨ l = 2 ∨ l = 3 := by omega
  rcases among with rfl | rfl | rfl <;> decide

theorem generator_ne_zero : (6 : ZMod 13) ≠ 0 := by decide

theorem generator_off_roots : (6 : ZMod 13) ^ 2 ^ 2 ≠ 1 := by decide

def smallParams : FieldParams (ZMod 13) where
  s := 2
  rootOfUnity := 5
  multiplicativeGenerator := 6
  primitive := isPrimitiveRoot_five
  nonzero := generator_ne_zero
  off_roots := generator_off_roots

def bitSystem : ConstraintSystem (ZMod 13) where
  primaryInputSize := 1
  auxiliaryInputSize := 1
  constraints := [⟨.var 1, .var 1, .var 0⟩, ⟨.var 1, .var 1, .var 1⟩]
  in_range := by simp [InRange, index, LinearCombination.var]

private theorem bitSystem_chosen : ∃ domain, getEvaluationDomain smallParams
    (bitSystem.numConstraints + bitSystem.numInputs + 1) = some domain :=
  Option.isSome_iff_exists.mp (by decide +kernel)

private theorem bitSystem_satisfied : bitSystem.isSatisfied [1] [1] = some true := by decide

/-! Sums over the variables. -/

/-- The evaluations of the variables, weighted with an assignment; the first stands for one. -/
def combine (evaluations full : List F) : F :=
  ∑ i ∈ range evaluations.length, evaluations.getD i 0 * (1 :: full).getD i 0

omit [DecidableEq F]

private theorem getD_index (full : List F) (v : Option Nat) :
    (1 :: full).getD (index v) 0 = v.elim 1 (assign full) := by
  cases v <;> rfl

private theorem combine_set_add {evaluations : List F} {i : Nat} (within : i < evaluations.length)
    (x : F)
    (full : List F) :
    combine (evaluations.set i (evaluations.getD i 0 + x)) full =
      combine evaluations full + x * (1 :: full).getD i 0 := by
  have added : ∀ p, (evaluations.set i (evaluations.getD i 0 + x)).getD p 0 * (1 :: full).getD p 0 =
      evaluations.getD p 0 * (1 :: full).getD p 0 + if p = i then x * (1 :: full).getD i 0 else 0 := by
    intro p
    rw [getD_set _ _ within]
    split_ifs with here
    · rw [here]
      ring
    · rw [add_zero]
  rw [combine, combine, List.length_set]
  simp only [added]
  rw [Finset.sum_add_distrib, Finset.sum_ite_eq' (range evaluations.length) i,
    if_pos (Finset.mem_range.mpr within)]

private theorem length_addTerms (u : F) (terms : List (Option Nat × F)) (evaluations : List F) :
    (addTerms u terms evaluations).length = evaluations.length := by
  induction terms generalizing evaluations with
  | nil => rfl
  | cons term terms ih =>
    rw [addTerms, List.foldl_cons, ← addTerms, ih, List.length_set]

private theorem combine_addTerms (u : F) {terms : List (Option Nat × F)} {evaluations : List F}
    (within : ∀ term ∈ terms, index term.1 < evaluations.length) (full : List F) :
    combine (addTerms u terms evaluations) full =
      combine evaluations full + u * (LinearCombination.mk terms).eval (assign full) := by
  induction terms generalizing evaluations with
  | nil => simp [addTerms, LinearCombination.eval]
  | cons term terms ih =>
    obtain ⟨first, others⟩ := List.forall_mem_cons.mp within
    rw [addTerms, List.foldl_cons, ← addTerms,
      ih fun other listed => by rw [List.length_set]; exact others other listed,
      combine_set_add first, getD_index, LinearCombination.eval, LinearCombination.eval,
      List.map_cons, List.sum_cons]
    ring

private theorem addConstraints_spec (u : List F) (side : Constraint F Nat → LinearCombination F Nat)
    {constraints : List (Constraint F Nat)} {size : Nat}
    (within : ∀ constraint ∈ constraints, ∀ term ∈ (side constraint).terms, index term.1 < size)
    {evaluations : List F} (length : evaluations.length = size) (n : Nat) (full : List F) :
    let added := (constraints.zipIdx n).foldl (fun evaluations item =>
      addTerms (u.getD item.2 0) (side item.1).terms evaluations) evaluations
    added.length = size ∧ combine added full = combine evaluations full +
      ∑ k ∈ range constraints.length, u.getD (n + k) 0 *
        (constraints.map fun constraint => (side constraint).eval (assign full)).getD k 0 := by
  -- the loop over the constraints from number `n` on adds the sides, weighted with `u`
  induction constraints generalizing evaluations n with
  | nil => simp [length]
  | cons constraint constraints ih =>
    obtain ⟨first, others⟩ := List.forall_mem_cons.mp within
    obtain ⟨size', sum⟩ := ih others
      ((length_addTerms (u.getD n 0) (side constraint).terms evaluations).trans length) (n + 1)
    rw [List.zipIdx_cons, List.foldl_cons]
    refine ⟨size', ?_⟩
    rw [sum, combine_addTerms _ fun term listed => by rw [length]; exact first term listed,
      List.length_cons, Finset.sum_range_succ', List.map_cons, List.getD_cons_zero, Nat.add_zero,
      add_assoc, add_comm (∑ k ∈ range _, _)]
    congr 2
    refine sum_congr rfl fun k _ => ?_
    rw [List.getD_cons_succ, Nat.add_right_comm, Nat.add_assoc]

private theorem sum_getD_append (u : Nat → F) (xs ys : List F) :
    ∑ k ∈ range (xs ++ ys).length, u k * (xs ++ ys).getD k 0 =
      ∑ k ∈ range xs.length, u k * xs.getD k 0 + ∑ k ∈ range ys.length, u (xs.length + k) * ys.getD k 0 := by
  rw [List.length_append, Finset.sum_range_add]
  congr 1
  · refine sum_congr rfl fun k among => ?_
    rw [List.getD_append _ _ _ _ (Finset.mem_range.mp among)]
  · refine sum_congr rfl fun k _ => ?_
    rw [List.getD_append_right _ _ _ _ (Nat.le_add_right _ _), Nat.add_sub_cancel_left]

private theorem sum_getD_replicate_zero (u : Nat → F) (n : Nat) :
    ∑ k ∈ range (List.replicate n (0 : F)).length, u k * (List.replicate n (0 : F)).getD k 0 = 0 := by
  refine Finset.sum_eq_zero fun k among => ?_
  rw [List.length_replicate, Finset.mem_range] at among
  rw [List.getD_replicate _ among, mul_zero]

private theorem naivePlainExp_eq {vec scalars : List F} (same : vec.length = scalars.length) :
    naivePlainExp vec scalars = ∑ i ∈ range vec.length, vec.getD i 0 * scalars.getD i 0 := by
  have run : ∀ (vec scalars : List F) (start : F), vec.length = scalars.length →
      (List.zip vec scalars).foldl (fun result pair => result + pair.2 * pair.1) start =
        start + ∑ i ∈ range vec.length, vec.getD i 0 * scalars.getD i 0 := by
    intro vec
    induction vec with
    | nil => simp
    | cons x vec ih =>
      intro scalars start same
      cases scalars with
      | nil => cases same
      | cons y scalars =>
        rw [List.zip_cons_cons, List.foldl_cons, ih scalars _ (Nat.succ.inj same), List.length_cons,
          Finset.sum_range_succ']
        simp only [List.getD_cons_succ, List.getD_cons_zero]
        ring
  rw [naivePlainExp, run vec scalars 0 same, zero_add]

private theorem first_add_naivePlainExp {evaluations full : List F}
    (size : evaluations.length = full.length + 1) :
    evaluations.getD 0 0 + naivePlainExp (evaluations.drop 1) full = combine evaluations full := by
  cases evaluations with
  | nil => cases size
  | cons x xs =>
    rw [List.length_cons, Nat.add_right_cancel_iff] at size
    rw [List.drop_one, List.tail_cons, naivePlainExp_eq size, combine, List.length_cons,
      Finset.sum_range_succ', List.getD_cons_zero, List.getD_cons_zero, mul_one, add_comm]
    simp only [List.getD_cons_succ]

private theorem length_powers (t : F) (n : Nat) (ti : F) : (powers t n ti).length = n := by
  induction n generalizing ti with
  | zero => rfl
  | succ n ih => rw [powers, List.length_cons, ih]

private theorem getD_powers (t : F) {n k : Nat} (within : k < n) (ti : F) :
    (powers t n ti).getD k 0 = ti * t ^ k := by
  induction n generalizing ti k with
  | zero => omega
  | succ n ih =>
    cases k with
    | zero => rw [powers, List.getD_cons_zero, pow_zero, mul_one]
    | succ k => rw [powers, List.getD_cons_succ, ih (by omega), mul_assoc, ← pow_succ']

private theorem naivePlainExp_powers {t : F} {n : Nat} {coefficients : List F}
    (size : coefficients.length = n) :
    naivePlainExp (powers t n 1) coefficients = evalAt coefficients t := by
  rw [naivePlainExp_eq (by rw [length_powers, size]), length_powers, evalAt, size]
  refine sum_congr rfl fun k among => ?_
  rw [getD_powers t (Finset.mem_range.mp among), one_mul, mul_comm]

/-! The rows of the constraints, and polynomials through them. -/

section Rows

variable {cs : ConstraintSystem F} {m : Nat} {side : Constraint F Nat → LinearCombination F Nat}
  {full inputs : List F}

private theorem length_rows (side : Constraint F Nat → LinearCombination F Nat) (full : List F)
    (fits : cs.numConstraints + inputs.length ≤ m) : (rows cs m side full inputs).length = m := by
  rw [rows, List.length_append, List.length_replicate, List.length_append, List.length_map]
  exact Nat.add_sub_cancel' fits

private theorem sum_rows (u : Nat → F) (fits : cs.numConstraints + inputs.length ≤ m) :
    ∑ k ∈ range m, u k * (rows cs m side full inputs).getD k 0 =
      (∑ k ∈ range cs.constraints.length, u k *
        (cs.constraints.map fun constraint => (side constraint).eval (assign full)).getD k 0) +
      ∑ k ∈ range inputs.length, u (cs.numConstraints + k) * inputs.getD k 0 := by
  have whole := length_rows side full fits
  nth_rewrite 1 [← whole]
  rw [rows, sum_getD_append, sum_getD_append, List.length_map,
    sum_getD_replicate_zero fun k => u (_ + k), add_zero]
  rfl

private theorem getD_rows {k : Nat} (within : k < cs.constraints.length) :
    (rows cs m side full inputs).getD k 0 = (side cs.constraints[k]).eval (assign full) := by
  have first : k < (cs.constraints.map fun c => (side c).eval (assign full)).length := by
    rwa [List.length_map]
  rw [rows, List.getD_append _ _ _ _ (by rw [List.length_append]; omega),
    List.getD_append _ _ _ _ first, List.getD_eq_getElem _ _ first, List.getElem_map]

private theorem getD_rows_rest {k : Nat} (beyond : cs.constraints.length ≤ k) :
    (rows cs m side full []).getD k 0 = 0 := by
  rw [rows, List.append_nil, List.getD_append_right _ _ _ _ (by rwa [List.length_map]),
    List.getD_eq_getElem?_getD, List.getElem?_replicate]
  split_ifs <;> rfl

end Rows

section Domain

variable {P : FieldParams F} {cs : ConstraintSystem F} {domain : Radix2Domain P}

/-- A polynomial of degree below the size of the domain with these values there. -/
def Interpolates (domain : Radix2Domain P) (a values : List F) : Prop :=
  a.length = domain.m ∧ ∀ k < domain.m, evalAt a (domain.omega ^ k) = values.getD k 0

/-- Polynomials through the rows of the three sides. -/
structure Through (cs : ConstraintSystem F) (domain : Radix2Domain P) (full a b c : List F) :
    Prop where
  onA : Interpolates domain a (rows cs domain.m Constraint.a full (1 :: full.take cs.numInputs))
  onB : Interpolates domain b (rows cs domain.m Constraint.b full [])
  onC : Interpolates domain c (rows cs domain.m Constraint.c full [])

/-- The coefficients weigh the values on the domain to those at `t`. -/
def Weighs (domain : Radix2Domain P) (t : F) (u : List F) : Prop :=
  ∀ a values : List F, Interpolates domain a values →
    ∑ k ∈ range domain.m, u.getD k 0 * values.getD k 0 = evalAt a t

private theorem length_inputs {full : List F} (size : full.length = cs.numVariables) :
    ((1 : F) :: full.take cs.numInputs).length = cs.numInputs + 1 := by
  have fewer : cs.numInputs ≤ cs.numVariables := Nat.le_add_right _ _
  rw [List.length_cons, List.length_take, size, Nat.min_eq_left fewer]

private theorem combine_inputEvaluations (u : List F) {full : List F}
    (size : full.length = cs.numVariables) :
    combine (inputEvaluations cs u) full =
      ∑ k ∈ range ((1 : F) :: full.take cs.numInputs).length,
        u.getD (cs.numConstraints + k) 0 * (1 :: full.take cs.numInputs).getD k 0 := by
  rw [combine, length_inputs size]
  simp only [mul_comm ((inputEvaluations cs u).getD _ 0)]
  rw [inputEvaluations, sum_getD_append fun k => (1 :: full).getD k 0,
    sum_getD_replicate_zero fun k => (1 :: full).getD (_ + k) 0, add_zero, List.length_map,
    List.length_range]
  refine sum_congr rfl fun k among => ?_
  have within := Finset.mem_range.mp among
  have input : ((List.range (cs.numInputs + 1)).map fun i =>
      u.getD (cs.numConstraints + i) 0).getD k 0 = u.getD (cs.numConstraints + k) 0 := by
    rw [List.getD_eq_getElem _ _ (by rwa [List.length_map, List.length_range]), List.getElem_map,
      List.getElem_range]
  rw [input, mul_comm]
  congr 1
  cases k with
  | zero => rfl
  | succ k =>
    rw [List.getD_cons_succ, List.getD_cons_succ, List.getD_eq_getElem?_getD,
      List.getD_eq_getElem?_getD, List.getElem?_take_of_lt (by omega)]

private theorem combine_replicate_zero (n : Nat) (full : List F) :
    combine (List.replicate n 0) full = 0 := by
  rw [combine]
  simp only [mul_comm ((List.replicate n (0 : F)).getD _ 0)]
  exact sum_getD_replicate_zero (fun k => (1 :: full).getD k 0) n

private theorem combine_At {t : F} {u full a : List F} (weighs : Weighs domain t u)
    (fits : cs.numConstraints + cs.numInputs + 1 ≤ domain.m) (size : full.length = cs.numVariables)
    (onA : Interpolates domain a
      (rows cs domain.m Constraint.a full (1 :: full.take cs.numInputs))) :
    (evaluation cs domain t u).At.length = cs.numVariables + 1 ∧
      combine (evaluation cs domain t u).At full = evalAt a t := by
  have length : (inputEvaluations cs u).length = cs.numVariables + 1 := by
    rw [inputEvaluations, List.length_append, List.length_map, List.length_range,
      List.length_replicate, ConstraintSystem.numVariables, ConstraintSystem.numInputs]
    omega
  obtain ⟨length', sum⟩ := addConstraints_spec u Constraint.a
    (fun constraint listed term among =>
      Nat.lt_succ_of_le ((cs.in_range constraint listed).1 term among)) length 0 full
  refine ⟨length', sum.trans ?_⟩
  rw [combine_inputEvaluations u size, add_comm, ← weighs a _ onA,
    sum_rows (fun k => u.getD k 0) (by rw [length_inputs size]; omega)]
  simp only [Nat.zero_add]

private theorem combine_side {t : F} {u full b : List F}
    {side : Constraint F Nat → LinearCombination F Nat} (weighs : Weighs domain t u)
    (fits : cs.numConstraints ≤ domain.m)
    (inRange : ∀ constraint ∈ cs.constraints, ∀ term ∈ (side constraint).terms,
      index term.1 ≤ cs.numVariables)
    (on : Interpolates domain b (rows cs domain.m side full [])) :
    let evaluations := addConstraints u side cs.constraints (List.replicate (cs.numVariables + 1) 0)
    evaluations.length = cs.numVariables + 1 ∧ combine evaluations full = evalAt b t := by
  obtain ⟨length, sum⟩ := addConstraints_spec u side
    (fun constraint listed term among => Nat.lt_succ_of_le (inRange constraint listed term among))
    (List.length_replicate (n := cs.numVariables + 1) (a := (0 : F))) 0 full
  refine ⟨length, sum.trans ?_⟩
  rw [combine_replicate_zero, zero_add, ← weighs b _ on,
    sum_rows (fun k => u.getD k 0) (by rwa [List.length_nil])]
  simp

/-- The sizes that `is_satisfied` compares. -/
structure WellSized (cs : ConstraintSystem F) (domain : Radix2Domain P) (witness : QapWitness F) :
    Prop where
  numVariables : witness.numVariables = cs.numVariables
  degree : witness.degree = domain.m
  numInputs : witness.numInputs = cs.numInputs
  abcs : witness.coefficientsForABCs.length = cs.numVariables
  h : witness.coefficientsForH.length = domain.m + 1

/-- What `is_satisfied` compares beside the sizes, in terms of the polynomials. -/
def Divides (domain : Radix2Domain P) (witness : QapWitness F) (a b c : List F) (t : F) : Prop :=
  (evalAt a t + witness.d1 * domain.computeZ t) * (evalAt b t + witness.d2 * domain.computeZ t) -
    (evalAt c t + witness.d3 * domain.computeZ t) =
      evalAt witness.coefficientsForH t * domain.computeZ t

private theorem wellSized_of_isSatisfied [DecidableEq F] {t : F} {u : List F}
    {witness : QapWitness F}
    (accepted : (evaluation cs domain t u).isSatisfied witness = true) :
    WellSized cs domain witness := by
  rw [QapInstanceEvaluation.isSatisfied] at accepted
  split_ifs at accepted with counts degree inputs abcs h
  exact ⟨(not_not.mp counts).symm, (not_not.mp degree).symm, (not_not.mp inputs).symm,
    (not_not.mp abcs).symm, (not_not.mp h).symm⟩

private theorem isSatisfied_evaluation [DecidableEq F] {t : F} {u a b c : List F}
    (weighs : Weighs domain t u) (fits : cs.numConstraints + cs.numInputs + 1 ≤ domain.m)
    {witness : QapWitness F} (through : Through cs domain witness.coefficientsForABCs a b c) :
    (evaluation cs domain t u).isSatisfied witness = true ↔
      WellSized cs domain witness ∧ Divides domain witness a b c t := by
  have compared : WellSized cs domain witness →
      ((evaluation cs domain t u).isSatisfied witness = true ↔ Divides domain witness a b c t) := by
    intro sized
    obtain ⟨lengthA, sumA⟩ := combine_At weighs fits sized.abcs through.onA
    obtain ⟨lengthB, sumB⟩ := combine_side weighs (by omega)
      (fun constraint listed => (cs.in_range constraint listed).2.1) through.onB
    obtain ⟨lengthC, sumC⟩ := combine_side weighs (by omega)
      (fun constraint listed => (cs.in_range constraint listed).2.2) through.onC
    have next : cs.numVariables + 1 = witness.coefficientsForABCs.length + 1 := by rw [sized.abcs]
    rw [← first_add_naivePlainExp (lengthA.trans next)] at sumA
    rw [← first_add_naivePlainExp (lengthB.trans next)] at sumB
    rw [← first_add_naivePlainExp (lengthC.trans next)] at sumC
    have sumH : naivePlainExp (powers t (domain.m + 1) 1) witness.coefficientsForH =
        evalAt witness.coefficientsForH t := naivePlainExp_powers sized.h
    have lengthH := length_powers t (domain.m + 1) 1
    simp only [evaluation] at lengthA sumA
    simp only [QapInstanceEvaluation.isSatisfied, evaluation, sized.numVariables, sized.degree,
      sized.numInputs, sized.abcs, sized.h, lengthA, lengthB, lengthC, lengthH, ne_eq,
      not_true_eq_false, or_self, if_false, beq_iff_eq]
    rw [Divides, ← sumA, ← sumB, ← sumC, zero_add, sumH, add_right_comm _ (witness.d1 * _),
      add_right_comm _ (witness.d2 * _), add_right_comm _ (witness.d3 * _)]
  constructor
  · intro accepted
    have sized := wellSized_of_isSatisfied accepted
    exact ⟨sized, (compared sized).mp accepted⟩
  · rintro ⟨sized, divides⟩
    exact (compared sized).mpr divides

private theorem instanceMap_eq_some [DecidableEq F] (cs : ConstraintSystem F) (t : F)
    (chosen : getEvaluationDomain P (cs.numConstraints + cs.numInputs + 1) = some domain) :
    ∃ u, Weighs domain t u ∧ instanceMapWithEvaluation P cs t = some (evaluation cs domain t u) := by
  obtain ⟨u, run, -, values⟩ := domain.lagrangeCoeffs_spec t
  refine ⟨u, fun a interpolated on => ?_, ?_⟩
  · rw [← values a on.1]
    refine sum_congr rfl fun k among => ?_
    rw [on.2 k (Finset.mem_range.mp among)]
  · rw [instanceMapWithEvaluation, chosen]
    simp only [Option.bind_eq_bind, Option.bind_some, run]

private theorem exists_through [DecidableEq F]
    (fits : cs.numConstraints + cs.numInputs + 1 ≤ domain.m)
    {full : List F} (size : full.length = cs.numVariables) :
    ∃ a b c, Through cs domain full a b c ∧
      domain.iFFT (rows cs domain.m Constraint.a full (1 :: full.take cs.numInputs)) = some a ∧
      domain.iFFT (rows cs domain.m Constraint.b full []) = some b ∧
      domain.iFFT (rows cs domain.m Constraint.c full []) = some c := by
  have inputs : cs.numConstraints + ((1 : F) :: full.take cs.numInputs).length ≤ domain.m := by
    rwa [length_inputs size]
  have none : cs.numConstraints + ([] : List F).length ≤ domain.m := by
    rw [List.length_nil]
    omega
  obtain ⟨a, runA, lengthA, valuesA⟩ := domain.iFFT_spec (length_rows Constraint.a full inputs)
  obtain ⟨b, runB, lengthB, valuesB⟩ :=
    domain.iFFT_spec (length_rows Constraint.b full none)
  obtain ⟨c, runC, lengthC, valuesC⟩ :=
    domain.iFFT_spec (length_rows Constraint.c full none)
  exact ⟨a, b, c, ⟨⟨lengthA, valuesA⟩, ⟨lengthB, valuesB⟩, ⟨lengthC, valuesC⟩⟩, runA, runB, runC⟩

private theorem forall_rows_iff {full : List F} (inputs : List F) :
    (∀ k < domain.m, (rows cs domain.m Constraint.a full inputs).getD k 0 *
      (rows cs domain.m Constraint.b full []).getD k 0 =
        (rows cs domain.m Constraint.c full []).getD k 0) ↔
    ∀ k (within : k < cs.constraints.length), k < domain.m →
      cs.constraints[k].Holds (assign full) := by
  -- the rows multiply as the constraints ask: this is what satisfied means
  constructor
  · intro each k within inside
    have row := each k inside
    rwa [getD_rows within, getD_rows within, getD_rows within] at row
  · intro each k inside
    by_cases within : k < cs.constraints.length
    · rw [getD_rows within, getD_rows within, getD_rows within]
      exact each k within inside
    · rw [getD_rows_rest (Nat.le_of_not_lt within), getD_rows_rest (Nat.le_of_not_lt within),
        mul_zero]

variable [DecidableEq F]

private theorem isSatisfied_eq_true {primaryInput auxiliaryInput : List F} :
    cs.isSatisfied primaryInput auxiliaryInput = some true ↔ primaryInput.length = cs.numInputs ∧
      primaryInput.length + auxiliaryInput.length = cs.numVariables ∧
        Satisfied (assign (primaryInput ++ auxiliaryInput)) cs.constraints := by
  simp only [ConstraintSystem.isSatisfied, Option.ite_none_right_eq_some, Option.some.injEq,
    List.all_eq_true, beq_iff_eq, and_assoc]
  rfl

omit [DecidableEq F] in
private theorem patch_spec (domain : Radix2Domain P) {a b : List F} (sizeA : a.length = domain.m)
    (sizeB : b.length = domain.m) (d1 d2 d3 : F) :
    let patch := List.zipWith (fun a b => d2 * a + d1 * b) a b ++ [0]
    ∃ patched, domain.addPolyZ (d1 * d2) (patch.set 0 (patch.getD 0 0 - d3)) = some patched ∧
      patched.length = domain.m + 1 ∧ ∀ t, evalAt patched t =
        d2 * evalAt a t + d1 * evalAt b t - d3 + d1 * d2 * domain.computeZ t := by
  intro patch
  have length : patch.length = domain.m + 1 := by
    rw [List.length_append, List.length_zipWith, sizeA, sizeB, Nat.min_self, List.length_singleton]
  obtain ⟨patched, run, size, values⟩ :=
    domain.addPolyZ_spec ((List.length_set (i := 0) (a := patch.getD 0 0 - d3)).trans length) (d1 * d2)
  refine ⟨patched, run, size, fun t => ?_⟩
  rw [values, sub_eq_add_neg, evalAt_set (by omega), evalAt_append_zero,
    evalAt_zipWith (fun _ _ => rfl) (sizeA.trans sizeB.symm), pow_zero]
  ring

private theorem witnessMap_spec {primaryInput auxiliaryInput : List F}
    (satisfied : cs.isSatisfied primaryInput auxiliaryInput = some true)
    (chosen : getEvaluationDomain P (cs.numConstraints + cs.numInputs + 1) = some domain)
    (d1 d2 d3 : F) :
    ∃ witness a b c, witnessMap P cs primaryInput auxiliaryInput d1 d2 d3 = some witness ∧
      witness.coefficientsForABCs = primaryInput ++ auxiliaryInput ∧
      (witness.d1 = d1 ∧ witness.d2 = d2 ∧ witness.d3 = d3) ∧ WellSized cs domain witness ∧
      Through cs domain (primaryInput ++ auxiliaryInput) a b c ∧
        ∀ t, Divides domain witness a b c t := by
  -- every step of the witness map succeeds, and what it makes divides
  obtain ⟨inputs, sizes, holds⟩ := isSatisfied_eq_true.mp satisfied
  have fits := getEvaluationDomain_le chosen
  have size : (primaryInput ++ auxiliaryInput).length = cs.numVariables := by
    rw [List.length_append, sizes]
  obtain ⟨a, b, c, through, runA, runB, runC⟩ := exists_through fits size
  have rowwise : ∀ k < domain.m, evalAt a (domain.omega ^ k) * evalAt b (domain.omega ^ k) =
      evalAt c (domain.omega ^ k) := by
    intro k inside
    rw [through.onA.2 k inside, through.onB.2 k inside, through.onC.2 k inside]
    exact (forall_rows_iff _).mpr (fun k within _ => holds _ (List.getElem_mem within)) k inside
  -- the values on the coset, and the quotient from them
  set g := P.multiplicativeGenerator with shift
  obtain ⟨tA, runTA, lengthTA, valuesTA⟩ := domain.cosetFFT_spec through.onA.1 g
  obtain ⟨tB, runTB, lengthTB, valuesTB⟩ := domain.cosetFFT_spec through.onB.1 g
  obtain ⟨tC, runTC, lengthTC, valuesTC⟩ := domain.cosetFFT_spec through.onC.1 g
  have vanish : domain.computeZ g ≠ 0 := sub_ne_zero.mpr domain.off_domain
  set divided := (List.zipWith (· - ·) (List.zipWith (· * ·) tA tB) tC).map
    (· * (domain.computeZ g)⁻¹) with division
  have lengthProduct : (List.zipWith (· * ·) tA tB).length = domain.m := by
    rw [List.length_zipWith, lengthTA, lengthTB, Nat.min_self]
  have lengthDivided : divided.length = domain.m := by
    rw [division, List.length_map, List.length_zipWith, lengthProduct, lengthTC, Nat.min_self]
  obtain ⟨h, runH, lengthH, valuesH⟩ := domain.icosetFFT_spec lengthDivided (g := g) P.nonzero
  have onCoset : ∀ k < domain.m, evalAt h (g * domain.omega ^ k) * (g ^ domain.m - 1) =
      evalAt a (g * domain.omega ^ k) * evalAt b (g * domain.omega ^ k) -
        evalAt c (g * domain.omega ^ k) := by
    intro k inside
    rw [valuesH k inside, division, getD_map_mul, getD_zipWith (sub_zero 0) (by rw [lengthProduct, lengthTC]),
      getD_zipWith (mul_zero 0) (by rw [lengthTA, lengthTB]), valuesTA k inside, valuesTB k inside,
      valuesTC k inside]
    exact inv_mul_cancel_right₀ vanish _
  have quotient := evalAt_quotient domain.primitive (by have := domain.large; omega) P.nonzero
    domain.off_domain through.onA.1 through.onB.1 through.onC.1 lengthH rowwise onCoset
  obtain ⟨patched, runPatch, lengthPatch, valuesPatch⟩ :=
    patch_spec domain through.onA.1 through.onB.1 d1 d2 d3
  have lengths : patched.length = (h ++ [0]).length := by
    rw [lengthPatch, List.length_append, lengthH, List.length_singleton]
  refine ⟨⟨cs.numVariables, domain.m, cs.numInputs, d1, d2, d3, primaryInput ++ auxiliaryInput,
    List.zipWith (· + ·) patched (h ++ [0])⟩, a, b, c, ?_, rfl, ⟨rfl, rfl, rfl⟩,
    ⟨rfl, rfl, rfl, size, ?_⟩, through, fun t => ?_⟩
  · rw [witnessMap, if_neg (not_not.mpr satisfied), chosen]
    simp only [Option.bind_eq_bind, Option.bind_some, runA, runB, runC, runPatch, ← shift, runTA,
      runTB, runTC, Radix2Domain.divideByZOnCoset, inverse_of_ne vanish, ← division, runH]
  · rw [List.length_zipWith, ← lengths, Nat.min_self, lengthPatch]
  · have added := evalAt_zipWith (f := (· + ·)) (fun x y : F => by rw [one_mul, one_mul]) lengths t
    rw [Divides, added, one_mul, one_mul, evalAt_append_zero, valuesPatch, add_mul (_ + _),
      ← show _ = evalAt h t * domain.computeZ t from quotient t]
    ring

/-- A satisfied constraint system gives, with any random multiples, a witness that the
arithmetic program accepts at every point. -/
theorem witness_accepted {primaryInput auxiliaryInput : List F}
    (satisfied : cs.isSatisfied primaryInput auxiliaryInput = some true)
    (chosen : getEvaluationDomain P (cs.numConstraints + cs.numInputs + 1) = some domain)
    (d1 d2 d3 t : F) :
    ∃ witness inst, witnessMap P cs primaryInput auxiliaryInput d1 d2 d3 = some witness ∧
      instanceMapWithEvaluation P cs t = some inst ∧ inst.isSatisfied witness = true := by
  obtain ⟨witness, a, b, c, made, abcs, -, sized, through, divides⟩ :=
    witnessMap_spec satisfied chosen d1 d2 d3
  obtain ⟨u, weighs, mapped⟩ := instanceMap_eq_some cs t chosen
  rw [← abcs] at through
  refine ⟨witness, evaluation cs domain t u, made, mapped, ?_⟩
  exact (isSatisfied_evaluation weighs (getEvaluationDomain_le chosen) through).mpr
    ⟨sized, divides t⟩

theorem witness_accepted_bit :
    ∃ witness inst, witnessMap smallParams bitSystem [1] [1] 1 2 3 = some witness ∧
      instanceMapWithEvaluation smallParams bitSystem 4 = some inst ∧
        inst.isSatisfied witness = true := by
  obtain ⟨_, chosen⟩ := bitSystem_chosen
  exact witness_accepted bitSystem_satisfied chosen 1 2 3 4

/-- A witness made from anything but a satisfying assignment, with whatever quotient and
multiples, is accepted at no more than `2 * m` of the points. -/
theorem accepted_points_le
    (chosen : getEvaluationDomain P (cs.numConstraints + cs.numInputs + 1) = some domain)
    {witness : QapWitness F}
    (violated : cs.isSatisfied (witness.coefficientsForABCs.take cs.numInputs)
      (witness.coefficientsForABCs.drop cs.numInputs) ≠ some true) {points : Finset F}
    (accepted : ∀ t ∈ points, ∃ inst, instanceMapWithEvaluation P cs t = some inst ∧
      inst.isSatisfied witness = true) : points.card ≤ 2 * domain.m := by
  by_contra many
  rw [not_le] at many
  refine violated ?_
  have fits := getEvaluationDomain_le chosen
  have mapped : ∀ t ∈ points, ∃ u, Weighs domain t u ∧
      (evaluation cs domain t u).isSatisfied witness = true := by
    intro t listed
    obtain ⟨inst, made, passed⟩ := accepted t listed
    obtain ⟨u, weighs, made'⟩ := instanceMap_eq_some cs t chosen
    obtain rfl := Option.some.inj (made'.symm.trans made)
    exact ⟨u, weighs, passed⟩
  obtain ⟨point, listed⟩ := Finset.card_pos.mp (lt_of_le_of_lt (Nat.zero_le _) many)
  obtain ⟨_, -, passed⟩ := mapped point listed
  have sized := wellSized_of_isSatisfied passed
  obtain ⟨a, b, c, through, -⟩ := exists_through fits sized.abcs
  have everywhere : ∀ t, Divides domain witness a b c t :=
    identity_of_many_points through.onA.1 through.onB.1 through.onC.1 sized.h witness.d1 witness.d2
      witness.d3 many fun t listed => by
        obtain ⟨u, weighs, passed⟩ := mapped t listed
        exact ((isSatisfied_evaluation weighs fits through).mp passed).2
  have fewer : cs.numInputs ≤ cs.numVariables := Nat.le_add_right _ _
  refine isSatisfied_eq_true.mpr ⟨?_, ?_, ?_⟩
  · rw [List.length_take, sized.abcs, Nat.min_eq_left fewer]
  · rw [← List.length_append, List.take_append_drop, sized.abcs]
  · rw [List.take_append_drop]
    intro constraint listed
    obtain ⟨k, within, rfl⟩ := List.getElem_of_mem listed
    have inside : k < domain.m := lt_of_lt_of_le within (by
      rw [ConstraintSystem.numConstraints] at fits
      omega)
    refine (forall_rows_iff (1 :: witness.coefficientsForABCs.take cs.numInputs)).mp
      (fun k inside => ?_) k within inside
    -- at the roots the multiples of `Z` vanish
    have divides := everywhere (domain.omega ^ k)
    have root : domain.computeZ (domain.omega ^ k) = 0 := by
      rw [Radix2Domain.computeZ, ← pow_mul, mul_comm, pow_mul, domain.primitive.pow_eq_one, one_pow,
        sub_self]
    rw [Divides, root, mul_zero, mul_zero, mul_zero, mul_zero, add_zero, add_zero, add_zero,
      through.onA.2 k inside, through.onB.2 k inside, through.onC.2 k inside, sub_eq_zero] at divides
    exact divides

/-- Two is not a bit, and yet there are four points at which a quotient can be found for it. -/
theorem accepted_points_le_two :
    ∃ domain, getEvaluationDomain smallParams
      (bitSystem.numConstraints + bitSystem.numInputs + 1) = some domain ∧
        ({4, 6, 8, 12} : Finset (ZMod 13)).card ≤ 2 * domain.m := by
  obtain ⟨domain, chosen⟩ := bitSystem_chosen
  have accepted : ∀ t ∈ ({4, 6, 8, 12} : Finset (ZMod 13)),
      ∃ inst, instanceMapWithEvaluation smallParams bitSystem t = some inst ∧
        inst.isSatisfied ⟨2, 4, 1, 0, 0, 0, [1, 2], [2, 0, 0, 0, 0]⟩ = true := by
    simp only [← Option.any_eq_true]
    decide +kernel
  exact ⟨domain, chosen, accepted_points_le chosen (by decide) accepted⟩

end Domain

end CbDaemon.Snark.QapReduction
