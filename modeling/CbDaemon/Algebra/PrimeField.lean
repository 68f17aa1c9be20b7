/- module: CbDaemon/Algebra/PrimeField
   source: snark/libsnark/algebra/fields/fp.hpp, snark/libsnark/algebra/fields/fp.tcc,
     snark/libsnark/algebra/fields/bigint.tcc
   digest: The prime fields in Montgomery representation compute modulo the prime. -/

import Mathlib.Data.ZMod.Basic
import Mathlib.FieldTheory.Finite.Basic
import CbDaemon.Base.Limbs
import CbDaemon.Circuit.ScalarField

set_option autoImplicit false
set_option relaxedAutoImplicit false

namespace CbDaemon.Algebra.PrimeField

open Base.Limbs Circuit.ScalarField

/-- The constants of an `Fp_model`. One bit of the limbs is free, and `inv` is the
negative inverse of the modulus. -/
structure FpModel where
  n : Nat
  modulus : List UInt64
  inv : UInt64
  rSquared : List UInt64
  rCubed : List UInt64
  length_modulus : modulus.length = n
  length_rSquared : rSquared.length = n
  length_rCubed : rCubed.length = n
  room : 2 * value modulus < radix ^ n
  prime : (value modulus).Prime
  inv_mul : (inv.toNat * value modulus + 1) % radix = 0
  value_rSquared : value rSquared = (radix ^ n) ^ 2 % value modulus
  value_rCubed : value rCubed = (radix ^ n) ^ 3 % value modulus

variable (P : FpModel)

def FpModel.p : Nat := value P.modulus

def FpModel.R : Nat := radix ^ P.n

/-- One turn of the reduction: `res + k * mod * b^i`, and `none` for a failed assertion. -/
def reduceStep (res : List UInt64) (i : Nat) : Option (List UInt64) :=
  let k := P.inv * res.getD i 0
  let (seg, carry) := addMul ((res.drop i).take P.n) P.modulus k
  let (high, carryout) := addLimb (res.drop (P.n + i)) carry
  if carryout = 0 then some (res.take i ++ seg ++ high) else none

/-- `mul_reduce` where it is not written in assembly. -/
def mulReduce (a b : List UInt64) : Option (List UInt64) := do
  let res ← (List.range P.n).foldlM (reduceStep P) (mulN a b)
  let high := res.drop P.n
  if value high ≥ value P.modulus then
    let (diff, borrow) := subN high P.modulus
    if borrow then none else some diff
  else some high

private theorem clears_limb (x : Nat) {k : Nat} (choice : k = P.inv.toNat * (x % radix) % radix) :
    (x + k * P.p) % radix = 0 := by
  have inverse : (P.inv.toNat * P.p + 1) % radix = 0 := P.inv_mul
  calc (x + k * P.p) % radix
      = (x % radix * (P.inv.toNat * P.p + 1)) % radix := by
        rw [choice, Nat.add_mod, Nat.mod_mul_mod, ← Nat.add_mod, ← Nat.mod_add_mod]
        congr 1
        ring
    _ = 0 := by rw [Nat.mul_mod, inverse, Nat.mul_zero, Nat.zero_mod]

private theorem reduceStep_spec {res : List UInt64} {i : Nat} (within : i < P.n)
    (size : res.length = 2 * P.n)
    (fits : ∀ k < radix, value res + k * P.p * radix ^ i < radix ^ (2 * P.n)) :
    ∃ k < radix, ∃ next, reduceStep P res i = some next ∧ next.length = 2 * P.n ∧
      value next = value res + k * P.p * radix ^ i ∧
        (value res / radix ^ i + k * P.p) % radix = 0 := by
  set k := P.inv * res.getD i 0 with chosen
  set seg := (res.drop i).take P.n with middle
  set high := res.drop (P.n + i) with upper
  have segSize : seg.length = P.n := by
    rw [middle, List.length_take, List.length_drop]
    omega
  have highSize : high.length = P.n - i := by
    rw [upper, List.length_drop]
    omega
  have segValue : value seg = value res / radix ^ i % radix ^ P.n := by
    rw [middle, value_take (by rw [List.length_drop]; omega), value_drop (by omega)]
  have highValue : value high = value res / radix ^ i / radix ^ P.n := by
    rw [upper, value_drop (by omega), Nat.div_div_eq_div_mul, ← pow_add, Nat.add_comm i]
  have added := value_addMul k (segSize.trans P.length_modulus.symm)
  rw [segSize] at added
  set sum := value high + (addMul seg P.modulus k).2.toNat with total
  -- the whole number, in three parts
  have parts : value res + k.toNat * P.p * radix ^ i =
      value (res.take i) + radix ^ i *
        (value (addMul seg P.modulus k).1 + radix ^ P.n * sum) := by
    have low := Nat.mod_add_div (value res) (radix ^ i)
    have rest := Nat.mod_add_div (value res / radix ^ i) (radix ^ P.n)
    rw [← segValue, ← highValue] at rest
    rw [value_take (by omega), total, FpModel.p]
    calc value res + k.toNat * value P.modulus * radix ^ i
        = value res % radix ^ i + radix ^ i * (value res / radix ^ i +
            value P.modulus * k.toNat) := by
          nth_rewrite 1 [← low]
          ring
      _ = _ := by
          rw [← rest]
          have expanded := congrArg (radix ^ i * ·) added
          linarith
  have small : sum < radix ^ (P.n - i) := by
    have whole := fits k.toNat (toNat_lt_radix k)
    rw [parts, show 2 * P.n = i + (P.n + (P.n - i)) by omega, pow_add radix i,
      pow_add radix P.n] at whole
    by_contra large
    have : radix ^ i * (radix ^ P.n * radix ^ (P.n - i)) ≤ radix ^ i * (radix ^ P.n * sum) :=
      Nat.mul_le_mul_left _ (Nat.mul_le_mul_left _ (Nat.le_of_not_lt large))
    rw [Nat.mul_add] at whole
    omega
  have noCarry : (addLimb high (addMul seg P.modulus k).2).2 = 0 := by
    rw [addLimb, highSize, ← total, Nat.div_eq_of_lt small]
    rfl
  have upperValue : value (addLimb high (addMul seg P.modulus k).2).1 = sum := by
    rw [addLimb, highSize, ← total, value_ofValue_of_lt small]
  have segLength : (addMul seg P.modulus k).1.length = P.n := by
    rw [addMul, length_ofValue, segSize]
  refine ⟨k.toNat, toNat_lt_radix k, res.take i ++ (addMul seg P.modulus k).1 ++
    (addLimb high (addMul seg P.modulus k).2).1, ?_, ?_, ?_, ?_⟩
  · rw [reduceStep]
    simp only [← chosen, ← middle, ← upper, noCarry, if_true]
  · rw [List.length_append, List.length_append, segLength, addLimb, length_ofValue, highSize,
      List.length_take_of_le (by omega)]
    omega
  · rw [List.append_assoc, value_append, value_append, segLength, upperValue,
      List.length_take_of_le (by omega), parts]
  · apply clears_limb
    rw [chosen, UInt64.toNat_mul, toNat_getD (by omega)]
    rfl

private theorem reduceLoop_spec {start : List UInt64} (size : start.length = 2 * P.n)
    (below : value start < P.p * P.R) {i : Nat} (within : i ≤ P.n) :
    ∃ m < radix ^ i, ∃ res, (List.range i).foldlM (reduceStep P) start = some res ∧
      res.length = 2 * P.n ∧ value res = value start + m * P.p ∧ radix ^ i ∣ value res := by
  induction i with
  | zero => exact ⟨0, Nat.one_pos, start, rfl, size, by rw [Nat.zero_mul, Nat.add_zero], one_dvd _⟩
  | succ i ih =>
    obtain ⟨m, small, res, run, length, sum, cleared⟩ := ih (by omega)
    have grows : radix ^ (i + 1) ≤ P.R := Nat.pow_le_pow_right radix_pos within
    have step : ∀ k < radix, m + k * radix ^ i < radix ^ (i + 1) := by
      intro k limb
      have most : k * radix ^ i + radix ^ i ≤ radix * radix ^ i := by
        rw [← Nat.succ_mul]
        exact Nat.mul_le_mul_right _ limb
      rw [pow_succ, Nat.mul_comm (radix ^ i)]
      omega
    have fits : ∀ k < radix, value res + k * P.p * radix ^ i < radix ^ (2 * P.n) := by
      intro k limb
      have multiple : (m + k * radix ^ i) * P.p ≤ P.R * P.p :=
        Nat.mul_le_mul_right _ ((step k limb).le.trans grows)
      calc value res + k * P.p * radix ^ i = value start + (m + k * radix ^ i) * P.p := by
            rw [sum]
            ring
        _ < P.p * P.R + P.R * P.p := Nat.add_lt_add_of_lt_of_le below multiple
        _ = 2 * P.p * P.R := by ring
        _ ≤ P.R * P.R := Nat.mul_le_mul_right _ P.room.le
        _ = radix ^ (2 * P.n) := by rw [FpModel.R, ← pow_add, Nat.two_mul]
    obtain ⟨k, limb, next, stepped, size', sum', zero⟩ := reduceStep_spec P within length fits
    refine ⟨m + k * radix ^ i, step k limb, next, ?_, size', ?_, ?_⟩
    · rw [List.range_succ, List.foldlM_append, run]
      simpa using stepped
    · rw [sum', sum]
      ring
    · obtain ⟨x, shifted⟩ := cleared
      rw [shifted, Nat.mul_div_cancel_left _ (radix_pow_pos i)] at zero
      obtain ⟨y, cleared'⟩ := Nat.dvd_of_mod_eq_zero zero
      refine ⟨y, ?_⟩
      calc value next = radix ^ i * (x + k * P.p) := by
            rw [sum', shifted]
            ring
        _ = radix ^ (i + 1) * y := by
            rw [cleared', pow_succ]
            ring

/-- No assertion of `mul_reduce` fails, and the result is the product without the factor, below
the modulus. -/
private theorem mulReduce_spec {a b : List UInt64} (sizeA : a.length = P.n) (sizeB : b.length = P.n)
    (below : value a * value b < P.p * P.R) :
    ∃ c, mulReduce P a b = some c ∧ c.length = P.n ∧ value c < P.p ∧
      value c * P.R ≡ value a * value b [MOD P.p] := by
  have product : value (mulN a b) = value a * value b := by
    rw [mulN, value_ofValue_of_lt]
    rw [pow_add]
    exact Nat.mul_lt_mul'' (value_lt a) (value_lt b)
  have size : (mulN a b).length = 2 * P.n := by
    rw [mulN, length_ofValue, sizeA, sizeB, Nat.two_mul]
  obtain ⟨m, small, res, run, length, sum, ⟨high, cleared⟩⟩ :=
    reduceLoop_spec P size (by rwa [product]) (le_refl P.n)
  rw [product] at sum
  have upper : value (res.drop P.n) = high := by
    rw [value_drop (by omega), cleared, Nat.mul_div_cancel_left _ (radix_pow_pos P.n)]
  have shifted : high * P.R = value a * value b + m * P.p := by
    rw [← sum, cleared, FpModel.R, Nat.mul_comm]
  have twice : high < 2 * P.p := by
    have bound : high * P.R < 2 * P.p * P.R := by
      have multiple : m * P.p ≤ P.R * P.p := Nat.mul_le_mul_right _ small.le
      calc high * P.R < P.p * P.R + P.R * P.p := by
            rw [shifted]
            exact Nat.add_lt_add_of_lt_of_le below multiple
        _ = 2 * P.p * P.R := by ring
    exact Nat.lt_of_mul_lt_mul_right bound
  have congruent : high * P.R ≡ value a * value b [MOD P.p] := by
    rw [shifted]
    exact Nat.add_mul_modulus_modEq_iff.mpr rfl
  have lengthHigh : (res.drop P.n).length = P.n := by
    rw [List.length_drop, length]
    omega
  rw [mulReduce, run]
  by_cases large : value (res.drop P.n) ≥ value P.modulus
  · -- what is subtracted is there, so there is no borrow
    have lower : P.p ≤ high := upper ▸ large
    have difference : value (subN (res.drop P.n) P.modulus).1 = high - P.p := by
      rw [value_subN large, upper, FpModel.p]
    have borrowless : (subN (res.drop P.n) P.modulus).2 = false :=
      decide_eq_false (Nat.not_lt.mpr large)
    refine ⟨(subN (res.drop P.n) P.modulus).1, ?_, ?_, ?_, ?_⟩
    · simp [large, borrowless]
    · rw [subN, length_ofValue, lengthHigh]
    · rw [difference]
      omega
    · rw [difference]
      refine Nat.ModEq.trans (Nat.ModEq.mul_right _ ?_) congruent
      exact (Nat.modEq_iff_dvd' (Nat.sub_le _ _)).mpr (by rw [Nat.sub_sub_self lower])
  · refine ⟨res.drop P.n, ?_, lengthHigh, Nat.lt_of_not_le large, ?_⟩
    · simp [large]
    · rw [upper]
      exact congruent

/-! The operations. -/

/-- `Fp_model(const bigint<n> &b)`. -/
def ofBigint (b : List UInt64) : Option (List UInt64) := mulReduce P P.rSquared b

def asBigint (a : List UInt64) : Option (List UInt64) := mulReduce P a (ofValue P.n 1)

/-- `mpn_sub` in a scratch of one more limb, its assertion, and the copy of `n` limbs. -/
def subtracted (scratch b : List UInt64) : Option (List UInt64) :=
  let (diff, borrow) := subN scratch b
  if borrow then none else some (diff.take P.n)

/-- `operator+=`. -/
def add (a b : List UInt64) : Option (List UInt64) :=
  let (low, carry) := addN a b
  if carry ≠ 0 ∨ value low ≥ value P.modulus then subtracted P (low ++ [carry]) P.modulus
  else some low

/-- `operator-=`. -/
def sub (a b : List UInt64) : Option (List UInt64) :=
  if value a < value b then subtracted P ((addN a P.modulus).1 ++ [(addN a P.modulus).2]) b
  else subtracted P (a ++ [0]) b

/-- `operator-`. -/
def neg (a : List UInt64) : List UInt64 := if value a = 0 then a else (subN P.modulus a).1

/-- What `mpn_gcdext` does for numbers without a common factor. -/
structure GcdExt where
  cofactor : Nat → Nat → Int
  inverse : ∀ u v, 0 < v → u.Coprime v → (u * cofactor u v : ZMod v) = 1
  small : ∀ u v, 0 < v → (cofactor u v).natAbs < v

/-- `invert`; its limbs are those of the cofactor without its sign, reduced if there are `n`. -/
def invert (gcdext : GcdExt) (a : List UInt64) : Option (List UInt64) :=
  if value a = 0 then none
  else if (value a).gcd (value P.modulus) ≠ 1 then none
  else
    let s := gcdext.cofactor (value a) (value P.modulus)
    let repr := ofValue P.n (if radix ^ (P.n - 1) ≤ s.natAbs then s.natAbs % value P.modulus
      else s.natAbs)
    if s < 0 then
      let (diff, borrow) := subN P.modulus repr
      if borrow then none else mulReduce P diff P.rCubed
    else mulReduce P repr P.rCubed

abbrev Bigint (n : Nat) := { limbs : List UInt64 // limbs.length = n }

/-- A computation in the field. -/
inductive Expr (n : Nat) where
  | bigint (b : Bigint n)
  | add (e f : Expr n)
  | sub (e f : Expr n)
  | mul (e f : Expr n)
  | neg (e : Expr n)
  | inverse (e : Expr n)

/-- The limbs that a computation ends with; `none` is a failed assertion. -/
def Expr.run (gcdext : GcdExt) : Expr P.n → Option (List UInt64)
  | bigint b => ofBigint P b
  | add e f => do PrimeField.add P (← e.run gcdext) (← f.run gcdext)
  | sub e f => do PrimeField.sub P (← e.run gcdext) (← f.run gcdext)
  | mul e f => do mulReduce P (← e.run gcdext) (← f.run gcdext)
  | neg e => do some (PrimeField.neg P (← e.run gcdext))
  | inverse e => do invert P gcdext (← e.run gcdext)

/-- What it should compute: arithmetic modulo the prime, without an inverse of zero. -/
def Expr.meaning : Expr P.n → Option (ZMod P.p)
  | bigint b => some (value b)
  | add e f => do some ((← e.meaning) + (← f.meaning))
  | sub e f => do some ((← e.meaning) - (← f.meaning))
  | mul e f => do some ((← e.meaning) * (← f.meaning))
  | neg e => do some (-(← e.meaning))
  | inverse e => do
    let x ← e.meaning
    if x = 0 then none else some x⁻¹

/-! Limbs below the modulus stand for an element times `R`. -/

/-- The limbs of an element. -/
structure Represents (limbs : List UInt64) (x : ZMod P.p) : Prop where
  length : limbs.length = P.n
  below : value limbs < P.p
  factor : (value limbs : ZMod P.p) = x * P.R

instance fact_prime : Fact P.p.Prime := ⟨P.prime⟩

variable {P}

private theorem p_lt_R : P.p < P.R := by
  have room := P.room
  rw [FpModel.p, FpModel.R]
  omega

private theorem R_ne_zero : (P.R : ZMod P.p) ≠ 0 := by
  -- the modulus has no factor in common with the limbs, so `R` can be divided by
  intro zero
  have divides : P.p ∣ radix ^ P.n := (ZMod.natCast_eq_zero_iff _ _).mp zero
  have limb : P.p ∣ radix := P.prime.dvd_of_dvd_pow divides
  have sum : P.p ∣ P.inv.toNat * P.p + 1 := limb.trans (Nat.dvd_of_mod_eq_zero P.inv_mul)
  have one : P.p ∣ 1 := (Nat.dvd_add_right (Nat.dvd_mul_left _ _)).mp sum
  exact P.prime.one_lt.ne' (Nat.dvd_one.mp one)

private theorem mulReduce_represents {a b : List UInt64} (sizeA : a.length = P.n)
    (sizeB : b.length = P.n)
    (below : value a < P.p) {x : ZMod P.p}
    (product : (value a : ZMod P.p) * value b = x * P.R * P.R) :
    ∃ c, mulReduce P a b = some c ∧ Represents P c x := by
  have belowB : value b < P.R := by
    have := value_lt b
    rwa [sizeB] at this
  obtain ⟨c, run, size, small, congruent⟩ :=
    mulReduce_spec P sizeA sizeB (Nat.mul_lt_mul'' below belowB)
  refine ⟨c, run, size, small, mul_right_cancel₀ R_ne_zero ?_⟩
  have cast := (ZMod.natCast_eq_natCast_iff _ _ _).mpr congruent
  rw [Nat.cast_mul, Nat.cast_mul, product] at cast
  exact cast

private theorem value_rSquared_lt : value P.rSquared < P.p := by
  rw [P.value_rSquared]
  exact Nat.mod_lt _ P.prime.pos

private theorem cast_rSquared : (value P.rSquared : ZMod P.p) = P.R * P.R := by
  rw [P.value_rSquared, ← FpModel.p, ZMod.natCast_mod, Nat.cast_pow, ← FpModel.R, pow_two]

private theorem cast_rCubed : (value P.rCubed : ZMod P.p) = P.R * P.R * P.R := by
  rw [P.value_rCubed, ← FpModel.p, ZMod.natCast_mod, Nat.cast_pow, ← FpModel.R, pow_succ, pow_two]

private theorem ofBigint_represents {b : List UInt64} (size : b.length = P.n) :
    ∃ c, ofBigint P b = some c ∧ Represents P c (value b) := by
  refine mulReduce_represents P.length_rSquared size value_rSquared_lt ?_
  rw [cast_rSquared]
  ring

private theorem mul_represents {a b : List UInt64} {x y : ZMod P.p} (first : Represents P a x)
    (second : Represents P b y) : ∃ c, mulReduce P a b = some c ∧ Represents P c (x * y) := by
  refine mulReduce_represents first.length second.length first.below ?_
  rw [first.factor, second.factor]
  ring

private theorem asBigint_eq {a : List UInt64} {x : ZMod P.p} (of : Represents P a x) :
    (asBigint P a).map value = some x.val := by
  have one : value (ofValue P.n 1) = 1 := by
    refine value_ofValue_of_lt ?_
    have := P.prime.one_lt
    exact this.trans p_lt_R
  obtain ⟨c, run, size, small, congruent⟩ := mulReduce_spec P of.length (length_ofValue P.n 1)
    (Nat.mul_lt_mul'' of.below ((value_lt _).trans_eq (by rw [length_ofValue]; rfl)))
  have cast := (ZMod.natCast_eq_natCast_iff _ _ _).mpr congruent
  rw [one, Nat.mul_one, Nat.cast_mul, of.factor] at cast
  have same : (value c : ZMod P.p) = x := mul_right_cancel₀ R_ne_zero cast
  rw [asBigint, run, Option.map_some, ← same, ZMod.val_cast_of_lt small]

private theorem subtracted_represents {scratch b : List UInt64} (size : scratch.length = P.n + 1)
    (less : value b ≤ value scratch) (below : value scratch - value b < P.p) {x : ZMod P.p}
    (factor : ((value scratch - value b : Nat) : ZMod P.p) = x * P.R) :
    ∃ c, subtracted P scratch b = some c ∧ Represents P c x := by
  have borrowless : (subN scratch b).2 = false := decide_eq_false (Nat.not_lt.mpr less)
  have length : (subN scratch b).1.length = P.n + 1 := by rw [subN, length_ofValue, size]
  have taken : value ((subN scratch b).1.take P.n) = value scratch - value b := by
    rw [value_take (by omega), value_subN less]
    exact Nat.mod_eq_of_lt (below.trans p_lt_R)
  refine ⟨(subN scratch b).1.take P.n, ?_, ?_, taken.trans_lt below, ?_⟩
  · simp only [subtracted, borrowless, Bool.false_eq_true, if_false]
  · rw [List.length_take_of_le (by omega)]
  · rw [taken, factor]

private theorem add_represents {a b : List UInt64} {x y : ZMod P.p} (first : Represents P a x)
    (second : Represents P b y) : ∃ c, add P a b = some c ∧ Represents P c (x + y) := by
  have room : 2 * P.p < radix ^ P.n := P.room
  have belowA := first.below
  have belowB := second.below
  have sum := value_addN (first.length.trans second.length.symm)
  have size : (addN a b).1.length = P.n := by rw [addN, length_ofValue, first.length]
  have carryless : (addN a b).2 = 0 := by
    rw [addN, first.length, Nat.div_eq_of_lt (by omega)]
    rfl
  have low : value (addN a b).1 = value a + value b := by
    rw [value_append, carryless] at sum
    simpa using sum
  have whole : ((value a + value b : Nat) : ZMod P.p) = (x + y) * P.R := by
    rw [Nat.cast_add, first.factor, second.factor]
    ring
  by_cases large : value (addN a b).1 ≥ value P.modulus
  · have lower : P.p ≤ value a + value b := low ▸ large
    have taken : add P a b = subtracted P ((addN a b).1 ++ [(addN a b).2]) P.modulus := by
      simp only [add, large, or_true, if_true]
    rw [taken]
    refine subtracted_represents ?_ (by rw [sum]; exact lower) ?_ ?_
    · rw [List.length_append, size, List.length_singleton]
    · rw [sum, ← FpModel.p]
      omega
    · rw [sum, ← FpModel.p, Nat.cast_sub lower, whole, ZMod.natCast_self, sub_zero]
  · refine ⟨(addN a b).1, ?_, size, Nat.lt_of_not_le large, ?_⟩
    · simp only [add, carryless, ne_eq, not_true_eq_false, large, or_self, if_false]
    · rw [low, whole]

private theorem sub_represents {a b : List UInt64} {x y : ZMod P.p} (first : Represents P a x)
    (second : Represents P b y) : ∃ c, sub P a b = some c ∧ Represents P c (x - y) := by
  have belowA := first.below
  have belowB := second.below
  rw [sub]
  split_ifs with less
  · have sum := value_addN (first.length.trans P.length_modulus.symm)
    rw [← FpModel.p] at sum
    refine subtracted_represents ?_ (by rw [sum]; omega) (by rw [sum]; omega) ?_
    · rw [List.length_append, addN, length_ofValue, first.length, List.length_singleton]
    · rw [sum, Nat.cast_sub (by omega), Nat.cast_add, first.factor, second.factor,
        ZMod.natCast_self]
      ring
  · have same : value (a ++ [0]) = value a := by simp [value_append]
    refine subtracted_represents ?_ (by rw [same]; omega) (by rw [same]; omega) ?_
    · rw [List.length_append, first.length, List.length_singleton]
    · rw [same, Nat.cast_sub (Nat.le_of_not_lt less), first.factor, second.factor]
      ring

private theorem value_eq_zero_iff {a : List UInt64} {x : ZMod P.p} (of : Represents P a x) :
    value a = 0 ↔ x = 0 := by
  constructor
  · intro zero
    have factor := of.factor
    rw [zero, Nat.cast_zero, eq_comm] at factor
    exact (mul_eq_zero.mp factor).resolve_right R_ne_zero
  · rintro rfl
    have factor := of.factor
    rw [zero_mul, ZMod.natCast_eq_zero_iff] at factor
    exact Nat.eq_zero_of_dvd_of_lt factor of.below

private theorem neg_represents {a : List UInt64} {x : ZMod P.p} (of : Represents P a x) :
    Represents P (neg P a) (-x) := by
  rw [neg]
  split_ifs with zero
  · rw [(value_eq_zero_iff of).mp zero, neg_zero]
    rwa [(value_eq_zero_iff of).mp zero] at of
  · have less : value a ≤ value P.modulus := of.below.le
    have difference : value (subN P.modulus a).1 = P.p - value a := value_subN less
    refine ⟨?_, ?_, ?_⟩
    · rw [subN, length_ofValue, P.length_modulus]
    · rw [difference]
      have := P.prime.pos
      rw [← FpModel.p] at this
      omega
    · rw [difference, Nat.cast_sub of.below.le, ZMod.natCast_self, of.factor]
      ring

private theorem invert_represents (gcdext : GcdExt) {a : List UInt64} {x : ZMod P.p}
    (of : Represents P a x) (nonzero : x ≠ 0) :
    ∃ c, invert P gcdext a = some c ∧ Represents P c x⁻¹ := by
  have positive : value a ≠ 0 := fun zero => nonzero ((value_eq_zero_iff of).mp zero)
  have coprime : (value a).gcd (value P.modulus) = 1 :=
    (Nat.coprime_of_lt_prime positive of.below P.prime).symm
  set s := gcdext.cofactor (value a) (value P.modulus) with cofactor
  have unit : (value a : ZMod P.p) * s = 1 := gcdext.inverse _ _ P.prime.pos coprime
  have small : s.natAbs < P.p := gcdext.small _ _ P.prime.pos
  have inverse : x⁻¹ = P.R * s := by
    refine inv_eq_of_mul_eq_one_right ?_
    rw [← mul_assoc, ← of.factor, unit]
  have product : ∀ t : Nat, (t : ZMod P.p) = s →
      (t : ZMod P.p) * value P.rCubed = x⁻¹ * P.R * P.R := by
    intro t same
    rw [same, cast_rCubed, inverse]
    ring
  have reduced : (if radix ^ (P.n - 1) ≤ s.natAbs then s.natAbs % value P.modulus
      else s.natAbs) = s.natAbs := by
    split_ifs
    · exact Nat.mod_eq_of_lt small
    · rfl
  have held : value (ofValue P.n s.natAbs) = s.natAbs :=
    value_ofValue_of_lt (small.trans p_lt_R)
  rw [invert, if_neg positive, if_neg (not_not.mpr coprime)]
  simp only [← cofactor, reduced]
  split_ifs with negative borrow
  · exact absurd (of_decide_eq_true borrow) (by rw [held]; exact Nat.not_lt.mpr small.le)
  · have difference : value (subN P.modulus (ofValue P.n s.natAbs)).1 = P.p - s.natAbs := by
      rw [value_subN (by rw [held]; exact small.le), held, FpModel.p]
    refine mulReduce_represents ?_ P.length_rCubed ?_ ?_
    · rw [subN, length_ofValue, P.length_modulus]
    · rw [difference]
      omega
    · refine product _ ?_
      rw [difference, Nat.cast_sub small.le, ZMod.natCast_self, zero_sub, ← Int.cast_natCast,
        ← Int.cast_neg, Int.ofNat_natAbs_of_nonpos negative.le, neg_neg]
  · refine mulReduce_represents (length_ofValue P.n _) P.length_rCubed (by rwa [held]) ?_
    refine product _ ?_
    rw [held, ← Int.cast_natCast, Int.natAbs_of_nonneg (not_lt.mp negative)]

/-! Whole computations. -/

section Run

variable {r₁ r₂ : Option (List UInt64)} {m₁ m₂ : Option (ZMod P.p)}

private theorem rel_binary {operation : List UInt64 → List UInt64 → Option (List UInt64)}
    {f : ZMod P.p → ZMod P.p → ZMod P.p}
    (sound : ∀ {a b : List UInt64} {x y : ZMod P.p}, Represents P a x → Represents P b y →
      ∃ c, operation a b = some c ∧ Represents P c (f x y))
    (first : Option.Rel (Represents P) r₁ m₁) (second : Option.Rel (Represents P) r₂ m₂) :
    Option.Rel (Represents P) (do operation (← r₁) (← r₂)) (do some (f (← m₁) (← m₂))) := by
  cases first with
  | none => exact .none
  | some first =>
    cases second with
    | none => exact .none
    | some second =>
      obtain ⟨c, run, of⟩ := sound first second
      simp only [Option.bind_eq_bind, Option.bind_some, run]
      exact .some of

end Run

/-- Every assertion holds but that of an inverse of zero, and the limbs stand for what should be
computed. -/
private theorem run_represents (gcdext : GcdExt) (e : Expr P.n) :
    Option.Rel (Represents P) (e.run P gcdext) (e.meaning P) := by
  induction e with
  | bigint b =>
    obtain ⟨c, run, of⟩ := ofBigint_represents b.property
    rw [Expr.run, Expr.meaning, run]
    exact .some of
  | add e f ihE ihF => exact rel_binary add_represents ihE ihF
  | sub e f ihE ihF => exact rel_binary sub_represents ihE ihF
  | mul e f ihE ihF => exact rel_binary mul_represents ihE ihF
  | neg e ih =>
    rw [Expr.run, Expr.meaning]
    generalize e.run P gcdext = limbs, e.meaning P = element at ih
    cases ih with
    | none => exact .none
    | some of => exact .some (neg_represents of)
  | inverse e ih =>
    rw [Expr.run, Expr.meaning]
    generalize e.run P gcdext = limbs, e.meaning P = element at ih
    cases ih with
    | none => exact .none
    | some of =>
      rename_i a x
      simp only [Option.bind_eq_bind, Option.bind_some]
      by_cases zero : x = 0
      · rw [invert, if_pos ((value_eq_zero_iff of).mpr zero), if_pos zero]
        exact .none
      · obtain ⟨c, run, inverse⟩ := invert_represents gcdext of zero
        rw [run, if_neg zero]
        exact .some inverse

/-- A computation that is read back with `as_bigint` gives the least residue of what it should
compute, and fails exactly where zero is inverted. -/
theorem asBigint_run (gcdext : GcdExt) (e : Expr P.n) :
    (e.run P gcdext >>= asBigint P).map value = (e.meaning P).map ZMod.val := by
  have rel := run_represents gcdext e
  generalize e.run P gcdext = limbs, e.meaning P = element at rel
  cases rel with
  | none => rfl
  | some of => exact asBigint_eq of

def GcdExt.residue : GcdExt where
  cofactor u v := ((u : ZMod v)⁻¹).val
  inverse u v positive coprime := by
    have : NeZero v := ⟨positive.ne'⟩
    rw [Int.cast_natCast, ZMod.natCast_zmod_val]
    exact ZMod.coe_mul_inv_eq_one u coprime
  small u v positive := by
    have : NeZero v := ⟨positive.ne'⟩
    rw [Int.natAbs_natCast]
    exact ZMod.val_lt _

/-- The constants of `alt_bn128_Fr`. -/
def altBn128Fr : FpModel where
  n := 4
  modulus := ofValue 4 modulusR
  inv := 0xc2e1f593efffffff
  rSquared := ofValue 4
    944936681149208446651664254269745548490766851729442924617792859073125903783
  rCubed := ofValue 4
    5866548545943845227489894872040244720403868105578784105281690076696998248512
  length_modulus := length_ofValue 4 _
  length_rSquared := length_ofValue 4 _
  length_rCubed := length_ofValue 4 _
  room := by decide +kernel
  prime := by
    rw [value_ofValue_of_lt (by decide +kernel)]
    exact prime_modulusR
  inv_mul := by decide +kernel
  value_rSquared := by decide +kernel
  value_rCubed := by decide +kernel

end CbDaemon.Algebra.PrimeField
