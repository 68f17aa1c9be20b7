/- module: CbDaemon/Circuit/ScalarField
   source: snark/libsnark/algebra/curves/alt_bn128/alt_bn128_init.cpp,
     snark/libsnark/common/default_types/ec_pp.hpp
   digest: The scalar field of the curve is a field, and has room for 253 bits. -/

import Mathlib.Tactic.NormNum.Prime
import Mathlib.Tactic.ReduceModChar
import CbDaemon.Base.Primality

set_option autoImplicit false
set_option relaxedAutoImplicit false

namespace CbDaemon.Circuit.ScalarField

open Base.Primality

/-- `alt_bn128_modulus_r`. -/
def modulusR : ℕ := 21888242871839275222246405745257275088548364400416034343698204186575808495617

/-- `alt_bn128_Fr`, the `FieldT` of the circuit. -/
abbrev Fr := ZMod modulusR

/-! The modulus is prime. Below it stand the factors that are too large to try divisors. -/

private theorem prime_405928799 : Nat.Prime 405928799 := by
  refine prime_of_factors 22 [(2, 1), (11, 1), (3691, 1), (4999, 1)] (by norm_num) ?_ ?_ ?_
  · simp only [List.forall_mem_cons, List.not_mem_nil, false_implies, implies_true, and_true]
    exact ⟨by norm_num, by norm_num, by norm_num, by norm_num⟩
  · reduce_mod_char
  · simp only [List.forall_mem_cons, List.not_mem_nil, false_implies, implies_true, and_true]
    norm_num only
    refine ⟨?_, ?_, ?_, ?_⟩ <;> reduce_mod_char <;> decide

private theorem prime_12048837557 : Nat.Prime 12048837557 := by
  refine prime_of_factors 2 [(2, 2), (7, 2), (661, 1), (93001, 1)] (by norm_num) ?_ ?_ ?_
  · simp only [List.forall_mem_cons, List.not_mem_nil, false_implies, implies_true, and_true]
    exact ⟨by norm_num, by norm_num, by norm_num, by norm_num⟩
  · reduce_mod_char
  · simp only [List.forall_mem_cons, List.not_mem_nil, false_implies, implies_true, and_true]
    norm_num only
    refine ⟨?_, ?_, ?_, ?_⟩ <;> reduce_mod_char <;> decide

private theorem prime_5156902474397 : Nat.Prime 5156902474397 := by
  refine prime_of_factors 2 [(2, 2), (107, 1), (12048837557, 1)] (by norm_num) ?_ ?_ ?_
  · simp only [List.forall_mem_cons, List.not_mem_nil, false_implies, implies_true, and_true]
    exact ⟨by norm_num, by norm_num, prime_12048837557⟩
  · reduce_mod_char
  · simp only [List.forall_mem_cons, List.not_mem_nil, false_implies, implies_true, and_true]
    norm_num only
    refine ⟨?_, ?_, ?_⟩ <;> reduce_mod_char <;> decide

private theorem prime_1670836401704629 : Nat.Prime 1670836401704629 := by
  refine prime_of_factors 2 [(2, 2), (3, 4), (5156902474397, 1)] (by norm_num) ?_ ?_ ?_
  · simp only [List.forall_mem_cons, List.not_mem_nil, false_implies, implies_true, and_true]
    exact ⟨by norm_num, by norm_num, prime_5156902474397⟩
  · reduce_mod_char
  · simp only [List.forall_mem_cons, List.not_mem_nil, false_implies, implies_true, and_true]
    norm_num only
    refine ⟨?_, ?_, ?_⟩ <;> reduce_mod_char <;> decide

private theorem prime_639533339 : Nat.Prime 639533339 := by
  refine prime_of_factors 2 [(2, 1), (229, 1), (853, 1), (1637, 1)] (by norm_num) ?_ ?_ ?_
  · simp only [List.forall_mem_cons, List.not_mem_nil, false_implies, implies_true, and_true]
    exact ⟨by norm_num, by norm_num, by norm_num, by norm_num⟩
  · reduce_mod_char
  · simp only [List.forall_mem_cons, List.not_mem_nil, false_implies, implies_true, and_true]
    norm_num only
    refine ⟨?_, ?_, ?_, ?_⟩ <;> reduce_mod_char <;> decide

private theorem prime_65865678001877903 : Nat.Prime 65865678001877903 := by
  refine prime_of_factors 5 [(2, 1), (83, 1), (379, 1), (1637, 1), (639533339, 1)] (by norm_num)
    ?_ ?_ ?_
  · simp only [List.forall_mem_cons, List.not_mem_nil, false_implies, implies_true, and_true]
    exact ⟨by norm_num, by norm_num, by norm_num, by norm_num, prime_639533339⟩
  · reduce_mod_char
  · simp only [List.forall_mem_cons, List.not_mem_nil, false_implies, implies_true, and_true]
    norm_num only
    refine ⟨?_, ?_, ?_, ?_, ?_⟩ <;> reduce_mod_char <;> decide

private theorem prime_13818364434197438864469338081 : Nat.Prime 13818364434197438864469338081 := by
  refine prime_of_factors 3 [(2, 5), (5, 1), (823, 1), (1593227, 1), (65865678001877903, 1)]
    (by norm_num) ?_ ?_ ?_
  · simp only [List.forall_mem_cons, List.not_mem_nil, false_implies, implies_true, and_true]
    exact ⟨by norm_num, by norm_num, by norm_num, by norm_num, prime_65865678001877903⟩
  · reduce_mod_char
  · simp only [List.forall_mem_cons, List.not_mem_nil, false_implies, implies_true, and_true]
    norm_num only
    refine ⟨?_, ?_, ?_, ?_, ?_⟩ <;> reduce_mod_char <;> decide

theorem prime_modulusR : modulusR.Prime := by
  rw [modulusR]
  refine prime_of_factors 5 [(2, 28), (3, 2), (13, 1), (29, 1), (983, 1), (11003, 1),
    (237073, 1), (405928799, 1), (1670836401704629, 1), (13818364434197438864469338081, 1)]
    (by norm_num) ?_ ?_ ?_
  · simp only [List.forall_mem_cons, List.not_mem_nil, false_implies, implies_true, and_true]
    exact ⟨by norm_num, by norm_num, by norm_num, by norm_num, by norm_num, by norm_num, by norm_num,
      prime_405928799, prime_1670836401704629, prime_13818364434197438864469338081⟩
  · reduce_mod_char
  · simp only [List.forall_mem_cons, List.not_mem_nil, false_implies, implies_true, and_true]
    norm_num only
    refine ⟨?_, ?_, ?_, ?_, ?_, ?_, ?_, ?_, ?_, ?_⟩ <;> reduce_mod_char <;> decide

instance : Fact modulusR.Prime := ⟨prime_modulusR⟩

/-- `FieldT::capacity` is one less than the 254 bits of the modulus. -/
instance : Fact (2 ^ 253 < modulusR) := ⟨by norm_num [modulusR]⟩

end CbDaemon.Circuit.ScalarField
