/- module: CbDaemon/Snark/Wnaf
   source: snark/libsnark/algebra/scalar_multiplication/wnaf.tcc,
     snark/libsnark/algebra/curves/curve_utils.tcc,
     snark/libsnark/algebra/scalar_multiplication/kc_multiexp.tcc (opt_window_wnaf_exp)
   digest: Multiples of a group element, bit by bit and by signed digits in a window. -/

import Mathlib.Algebra.Module.Basic
import Mathlib.Data.List.GetD
import Mathlib.Tactic.Abel
import Mathlib.Tactic.Module
import Mathlib.Tactic.Ring

set_option autoImplicit false
set_option relaxedAutoImplicit false

namespace CbDaemon.Snark.Wnaf

variable {T : Type} [AddCommGroup T]

/-- One turn of the loop of `find_wnaf` on a number of `n` limbs: the digit, and what is left. -/
def wnafTurn (n windowSize c : Nat) : Int × Nat :=
  if c % 2 = 1 then
    -- `1 << (window_size + 1)` is an `int`, so windows are below thirty
    let u : Int := (c % 2 ^ 64 % 2 ^ (windowSize + 1) : Nat)
    let u := if 2 ^ windowSize < u then u - 2 ^ (windowSize + 1) else u
    -- `mpn_sub_1` and `mpn_add_1` drop what is carried out of the highest limb
    let c := if 0 < u then (c + 2 ^ (64 * n) - u.toNat) % 2 ^ (64 * n)
      else (c + (-u).toNat) % 2 ^ (64 * n)
    (u, c / 2)
  else (0, c / 2)

/-- The loop; `none` is a write behind the end of `res`. -/
def wnafDigits (n windowSize : Nat) : Nat → Nat → Option (List Int)
  | 0, c => if c = 0 then some [] else none
  | room + 1, c =>
    if c = 0 then some (List.replicate (room + 1) 0)
    else do
      let (u, c) := wnafTurn n windowSize c
      some (u :: (← wnafDigits n windowSize room c))

def findWnaf (n windowSize scalar : Nat) : Option (List Int) :=
  wnafDigits n windowSize (64 * n + 1) scalar

/-- From the highest digit down: double, once something has been added, and add. -/
def doubleAndAdd {δ : Type*} (nonzero : δ → Bool) (add : T → δ → T) (digits : List δ) : T × Bool :=
  digits.foldr (fun digit state =>
    let res := if state.2 then state.1 + state.1 else state.1
    if nonzero digit then (add res digit, true) else (res, state.2)) (0, false)

/-- The table of odd multiples, from `tmp` on. -/
def oddMultiples (dbl : T) : Nat → T → List T
  | 0, _ => []
  | size + 1, tmp => tmp :: oddMultiples dbl size (tmp + dbl)

def fixedWindowWnafExp (n windowSize : Nat) (base : T) (scalar : Nat) : Option T := do
  let naf ← findWnaf n windowSize scalar
  let table := oddMultiples (base + base) (2 ^ (windowSize - 1)) base
  some (doubleAndAdd (fun digit : Int => digit ≠ 0) (fun res digit =>
    if 0 < digit then res + table.getD (digit.toNat / 2) 0
    else res - table.getD ((-digit).toNat / 2) 0) naf).1

def scalarMul (n : Nat) (base : T) (scalar : Nat) : T :=
  (doubleAndAdd (fun i => scalar.testBit i) (fun result _ => result + base) (List.range (64 * n))).1

/-- `opt_window_wnaf_exp` for a curve whose table of windows is given. -/
def optWindowWnafExp (wnafWindowTable : List Nat) (n : Nat) (base : T) (scalar scalarBits : Nat) :
    Option T :=
  match (List.range wnafWindowTable.length).reverse.find?
      fun i => wnafWindowTable.getD i 0 ≤ scalarBits with
  | some i => fixedWindowWnafExp n (i + 1) base scalar
  | none => some (scalarMul n base scalar)

/-! The digits. -/

def weigh (digits : List Int) : Int := digits.foldr (fun digit rest => digit + 2 * rest) 0

def InWindow (windowSize : Nat) (digit : Int) : Prop :=
  digit ≠ 0 → digit % 2 = 1 ∧ digit.natAbs < 2 ^ windowSize

private theorem wnafTurn_spec {n windowSize k c : Nat} (window : 0 < windowSize)
    (small : windowSize < 30)
    (room : k < 64 * n) (below : c ≤ 2 ^ k) :
    (c : Int) = (wnafTurn n windowSize c).1 + 2 * (wnafTurn n windowSize c).2 ∧
      InWindow windowSize (wnafTurn n windowSize c).1 ∧
      (wnafTurn n windowSize c).2 ≤ 2 ^ (k - 1) ∧ (k = 0 → (wnafTurn n windowSize c).2 = 0) := by
  -- a turn takes an odd digit off, and halves the bound on what is left
  have halves : k ≠ 0 → 2 ^ k = 2 * 2 ^ (k - 1) := fun positive => by
    rw [← pow_succ', Nat.sub_add_cancel (Nat.pos_of_ne_zero positive)]
  have limit : 2 * 2 ^ k ≤ 2 ^ (64 * n) := by
    rw [← pow_succ']
    exact Nat.pow_le_pow_right (by decide) room
  by_cases odd : c % 2 = 1
  · have word : (2 : Nat) ^ (windowSize + 1) ∣ 2 ^ 64 := pow_dvd_pow 2 (by omega)
    obtain ⟨m, power⟩ : ∃ m, m = 2 ^ (windowSize - 1) := ⟨_, rfl⟩
    have size : 2 ^ windowSize = 2 * m := by
      rw [power, ← pow_succ', Nat.sub_add_cancel window]
    have next : 2 ^ (windowSize + 1) = 4 * m := by
      rw [pow_succ', size]
      omega
    have split := Nat.div_add_mod c (4 * m)
    have digit := Nat.mod_lt c (show 0 < 4 * m from next ▸ Nat.two_pow_pos _)
    set q := c / (4 * m)
    set v := c % (4 * m) with low
    have reduced : c % 2 ^ 64 % 2 ^ (windowSize + 1) = v := by rw [Nat.mod_mod_of_dvd _ word, next]
    have cast : ((2 : Int) ^ windowSize = 2 * m) ∧ (2 : Int) ^ (windowSize + 1) = 4 * m :=
      ⟨by exact_mod_cast size, by exact_mod_cast next⟩
    rw [wnafTurn, if_pos odd]
    simp only [reduced, cast.1, cast.2]
    rw [mul_assoc] at split
    by_cases high : 2 * m < v
    · -- the next multiple of the window is still below the bound
      have wide : windowSize + 1 ≤ k := by
        by_contra narrow
        have := Nat.pow_le_pow_right (n := 2) (by decide) (show k ≤ windowSize by omega)
        omega
      obtain ⟨e, multiple⟩ := (next ▸ pow_dvd_pow 2 wide : 4 * m ∣ 2 ^ k)
      rw [mul_assoc] at multiple
      have less : q < e := by
        by_contra more
        have := Nat.mul_le_mul_left m (Nat.le_of_not_lt more)
        omega
      have fits : m * q + m ≤ m * e := by
        rw [← Nat.mul_succ]
        exact Nat.mul_le_mul_left m less
      have positive := halves (by omega)
      rw [if_pos (by omega), if_neg (by omega),
        show (-((v : Int) - 4 * m)).toNat = 4 * m - v by omega, Nat.mod_eq_of_lt (by omega)]
      refine ⟨by omega, fun _ => ⟨by omega, by rw [size]; omega⟩, by omega, by omega⟩
    · rw [if_neg (by omega), if_pos (by omega), Int.toNat_natCast,
        show c + 2 ^ (64 * n) - v = 4 * (m * q) + 2 ^ (64 * n) by omega, Nat.add_mod_right,
        Nat.mod_eq_of_lt (by omega)]
      refine ⟨by omega, fun _ => ⟨by omega, by rw [size]; omega⟩, ?_, ?_⟩
      · by_cases zero : k = 0
        · subst zero
          omega
        · have := halves zero
          omega
      · rintro rfl
        omega
  · rw [wnafTurn, if_neg odd]
    refine ⟨by omega, fun nonzero => absurd rfl nonzero, ?_, ?_⟩
    · by_cases zero : k = 0
      · subst zero
        omega
      · have := halves zero
        omega
    · rintro rfl
      omega

private theorem weigh_replicate_zero (room : Nat) : weigh (List.replicate room 0) = 0 := by
  induction room with
  | zero => rfl
  | succ room ih =>
    rw [List.replicate_succ, weigh, List.foldr_cons, ← weigh, ih]
    rfl

private theorem wnafDigits_zero (n windowSize room : Nat) :
    wnafDigits n windowSize room 0 = some (List.replicate room 0) := by
  cases room <;> rfl

private theorem wnafDigits_spec {n windowSize : Nat} (window : 0 < windowSize)
    (small : windowSize < 30)
    {room k c : Nat} (fits : k < 64 * n) (long : k < room) (below : c ≤ 2 ^ k) :
    ∃ naf, wnafDigits n windowSize room c = some naf ∧ (∀ digit ∈ naf, InWindow windowSize digit) ∧
      weigh naf = c := by
  -- the digits stand for the scalar, as long as nothing is carried out of its limbs
  have zero : ∀ room, ∃ naf, wnafDigits n windowSize room 0 = some naf ∧
      (∀ digit ∈ naf, InWindow windowSize digit) ∧ weigh naf = (0 : Nat) := fun room =>
    ⟨_, wnafDigits_zero n windowSize room, fun digit listed nonzero =>
      absurd (List.eq_of_mem_replicate listed) nonzero, weigh_replicate_zero room⟩
  induction room generalizing c k with
  | zero => omega
  | succ room ih =>
    by_cases done : c = 0
    · subst done
      exact zero _
    · obtain ⟨sum, digit, bound, last⟩ := wnafTurn_spec window small fits below
      have rest : ∃ naf, wnafDigits n windowSize room (wnafTurn n windowSize c).2 = some naf ∧
          (∀ digit ∈ naf, InWindow windowSize digit) ∧
            weigh naf = (wnafTurn n windowSize c).2 := by
        by_cases one : k = 0
        · rw [last one]
          exact zero room
        · exact ih (k := k - 1) (by omega) (by omega) bound
      obtain ⟨naf, run, digits, value⟩ := rest
      refine ⟨(wnafTurn n windowSize c).1 :: naf, ?_, List.forall_mem_cons.mpr ⟨digit, digits⟩, ?_⟩
      · rw [wnafDigits, if_neg done]
        simp only [run, Option.bind_eq_bind, Option.bind_some]
      · rw [weigh, List.foldr_cons, ← weigh, value, ← sum]

/-! The loops over the digits. -/

private theorem doubleAndAdd_fst {δ : Type*} {nonzero : δ → Bool} {add : T → δ → T}
    (value : δ → Int)
    (base : T) {digits : List δ}
    (adds : ∀ digit ∈ digits, nonzero digit = true →
      ∀ res, add res digit = res + value digit • base)
    (skips : ∀ digit ∈ digits, nonzero digit = false → value digit = 0) :
    (doubleAndAdd nonzero add digits).1 = weigh (digits.map value) • base := by
  -- doubling nothing makes no difference, so the loop computes the multiple
  have both : (doubleAndAdd nonzero add digits).1 = weigh (digits.map value) • base ∧
      ((doubleAndAdd nonzero add digits).2 = false → (doubleAndAdd nonzero add digits).1 = 0) := by
    induction digits with
    | nil => exact ⟨(zero_zsmul base).symm, fun _ => rfl⟩
    | cons digit digits ih =>
      obtain ⟨add', adds⟩ := List.forall_mem_cons.mp adds
      obtain ⟨skip, skips⟩ := List.forall_mem_cons.mp skips
      obtain ⟨sum, empty⟩ := ih adds skips
      rw [doubleAndAdd, List.foldr_cons, ← doubleAndAdd]
      generalize doubleAndAdd nonzero add digits = state at sum empty
      have doubled : (if state.2 = true then state.1 + state.1 else state.1) =
          (2 * weigh (digits.map value)) • base := by
        rw [two_mul, add_zsmul, ← sum]
        split_ifs with found
        · rfl
        · rw [empty (Bool.eq_false_of_not_eq_true found), add_zero]
      rw [List.map_cons, weigh, List.foldr_cons, ← weigh, add_zsmul, ← doubled]
      by_cases here : nonzero digit = true
      · simp only [here, if_true, reduceCtorEq, false_implies, and_true]
        rw [add' here, add_comm]
      · have zero := Bool.eq_false_of_not_eq_true here
        simp only [zero, Bool.false_eq_true, if_false, skip zero, zero_zsmul, zero_add, true_and]
        intro none
        rw [none, if_neg (by decide)]
        exact empty none
  exact both.1

private theorem getD_oddMultiples (dbl tmp : T) {size i : Nat} (within : i < size) :
    (oddMultiples dbl size tmp).getD i 0 = tmp + i • dbl := by
  induction size generalizing i tmp with
  | zero => omega
  | succ size ih =>
    cases i with
    | zero => rw [oddMultiples, List.getD_cons_zero, zero_smul, add_zero]
    | succ i =>
      rw [oddMultiples, List.getD_cons_succ, ih _ (by omega), add_smul, one_smul]
      abel

private theorem getD_table (base : T) {windowSize d : Nat} (window : 0 < windowSize)
    (odd : d % 2 = 1)
    (below : d < 2 ^ windowSize) :
    (oddMultiples (base + base) (2 ^ (windowSize - 1)) base).getD (d / 2) 0 = d • base := by
  -- the entry of the table for an odd number
  have half : 2 ^ windowSize = 2 * 2 ^ (windowSize - 1) := by
    rw [← pow_succ', Nat.sub_add_cancel window]
  rw [getD_oddMultiples _ _ (by omega), ← two_nsmul, ← mul_nsmul', ← succ_nsmul']
  congr 1
  omega

private theorem fixedWindowWnafExp_spec {n windowSize k scalar : Nat} (window : 0 < windowSize)
    (small : windowSize < 30) (fits : k < 64 * n) (below : scalar ≤ 2 ^ k) (base : T) :
    fixedWindowWnafExp n windowSize base scalar = some (scalar • base) := by
  obtain ⟨naf, run, digits, value⟩ := wnafDigits_spec window small fits
    (Nat.lt_succ_of_lt fits) below
  rw [fixedWindowWnafExp, findWnaf, run]
  simp only [Option.bind_eq_bind, Option.bind_some, Option.some.injEq]
  refine (doubleAndAdd_fst id base ?_ ?_).trans ?_
  · intro digit listed nonzero res
    obtain ⟨odd, below⟩ := digits digit listed (of_decide_eq_true nonzero)
    split_ifs with positive
    · rw [getD_table base window (by omega) (by omega), ← natCast_zsmul,
        Int.toNat_of_nonneg (by omega)]
      rfl
    · rw [getD_table base window (by omega) (by omega), ← natCast_zsmul,
        Int.toNat_of_nonneg (by omega), neg_zsmul, sub_neg_eq_add]
      rfl
  · intro digit _ zero
    exact not_not.mp (of_decide_eq_false zero)
  · rw [List.map_id, value, natCast_zsmul]

private theorem weigh_testBit (size scalar : Nat) :
    weigh ((List.range size).map fun i => ((scalar.testBit i).toNat : Int)) =
      (scalar % 2 ^ size : Nat) := by
  induction size generalizing scalar with
  | zero => simp [weigh, Nat.mod_one]
  | succ size ih =>
    have shifted := ih (scalar / 2)
    rw [List.range_succ_eq_map, List.map_cons, List.map_map, weigh, List.foldr_cons, ← weigh]
    simp only [Function.comp_def, Nat.succ_eq_add_one, Nat.testBit_succ]
    rw [shifted, Nat.testBit_zero, Nat.pow_succ', Nat.mod_mul]
    rcases Nat.mod_two_eq_zero_or_one scalar with even | odd
    · simp [even]
    · simp [odd]

theorem scalarMul_spec {n scalar : Nat} (below : scalar < 2 ^ (64 * n)) (base : T) :
    scalarMul n base scalar = scalar • base := by
  refine (doubleAndAdd_fst (fun i => ((scalar.testBit i).toNat : Int)) base ?_ ?_).trans ?_
  · intro i _ set res
    rw [set, Bool.toNat_true, Nat.cast_one, one_zsmul]
  · intro i _ clear
    rw [clear, Bool.toNat_false, Nat.cast_zero]
  · rw [weigh_testBit, Nat.mod_eq_of_lt below, natCast_zsmul]

theorem optWindowWnafExp_spec {wnafWindowTable : List Nat} (short : wnafWindowTable.length < 30)
    {n k scalar : Nat} (fits : k < 64 * n) (below : scalar ≤ 2 ^ k) (base : T) (scalarBits : Nat) :
    optWindowWnafExp wnafWindowTable n base scalar scalarBits = some (scalar • base) := by
  rw [optWindowWnafExp]
  split
  · rename_i i found
    have listed := List.mem_of_find?_eq_some found
    rw [List.mem_reverse, List.mem_range] at listed
    exact fixedWindowWnafExp_spec (Nat.succ_pos i) (by omega) fits below base
  · have inside : 2 ^ k < 2 ^ (64 * n) := Nat.pow_lt_pow_right (by decide) fits
    rw [scalarMul_spec (by omega)]

end CbDaemon.Snark.Wnaf
