/- module: CbDaemon/Base/Limbs
   layer: library
   digest: Natural numbers in limbs of 64 bits, the lowest first, and arithmetic on them. -/

import Mathlib.Data.Nat.Digits.Defs
import Mathlib.Tactic.Linarith
import Mathlib.Tactic.Ring

set_option autoImplicit false
set_option relaxedAutoImplicit false

namespace CbDaemon.Base.Limbs

def radix : Nat := 2 ^ 64

def value (limbs : List UInt64) : Nat := Nat.ofDigits radix (limbs.map UInt64.toNat)

def ofValue : Nat → Nat → List UInt64
  | 0, _ => []
  | n + 1, v => UInt64.ofNat v :: ofValue n (v / radix)

/-! Arithmetic in place, with what is carried out of the highest limb. -/

/-- The sum in the limbs of `a`, and the carry. -/
def addN (a b : List UInt64) : List UInt64 × UInt64 :=
  let sum := value a + value b
  (ofValue a.length sum, UInt64.ofNat (sum / radix ^ a.length))

def addLimb (a : List UInt64) (limb : UInt64) : List UInt64 × UInt64 :=
  let sum := value a + limb.toNat
  (ofValue a.length sum, UInt64.ofNat (sum / radix ^ a.length))

/-- A multiple of `b` added. -/
def addMul (a b : List UInt64) (limb : UInt64) : List UInt64 × UInt64 :=
  let sum := value a + value b * limb.toNat
  (ofValue a.length sum, UInt64.ofNat (sum / radix ^ a.length))

def subN (a b : List UInt64) : List UInt64 × Bool :=
  (ofValue a.length (value a + radix ^ a.length - value b), value a < value b)

def mulN (a b : List UInt64) : List UInt64 := ofValue (a.length + b.length) (value a * value b)

theorem radix_pos : 0 < radix := Nat.two_pow_pos 64

theorem radix_pow_pos (n : Nat) : 0 < radix ^ n := Nat.pow_pos radix_pos

theorem toNat_lt_radix (limb : UInt64) : limb.toNat < radix := limb.toNat_lt

@[simp] theorem value_nil : value [] = 0 := rfl

@[simp] theorem value_cons (limb : UInt64) (limbs : List UInt64) :
    value (limb :: limbs) = limb.toNat + radix * value limbs := Nat.ofDigits_cons

theorem value_append (low high : List UInt64) :
    value (low ++ high) = value low + radix ^ low.length * value high := by
  rw [value, List.map_append, Nat.ofDigits_append, List.length_map]
  rfl

theorem value_lt (limbs : List UInt64) : value limbs < radix ^ limbs.length := by
  have bound : ∀ digit ∈ limbs.map UInt64.toNat, digit < radix := by
    intro digit among
    obtain ⟨limb, -, rfl⟩ := List.mem_map.mp among
    exact toNat_lt_radix limb
  have below := Nat.ofDigits_lt_base_pow_length (Nat.one_lt_two_pow (by decide)) bound
  rwa [List.length_map] at below

@[simp] theorem length_ofValue (n v : Nat) : (ofValue n v).length = n := by
  induction n generalizing v with
  | zero => rfl
  | succ n ih => rw [ofValue, List.length_cons, ih]

private theorem value_ofValue (n v : Nat) : value (ofValue n v) = v % radix ^ n := by
  induction n generalizing v with
  | zero => rw [ofValue, value_nil, pow_zero, Nat.mod_one]
  | succ n ih =>
    have lowest : (UInt64.ofNat v).toNat = v % radix := UInt64.toNat_ofNat
    rw [ofValue, value_cons, ih, lowest, pow_succ, Nat.mul_comm (radix ^ n), Nat.mod_mul]

theorem value_ofValue_of_lt {n v : Nat} (fits : v < radix ^ n) : value (ofValue n v) = v := by
  rw [value_ofValue, Nat.mod_eq_of_lt fits]

theorem value_take {limbs : List UInt64} {i : Nat} (within : i ≤ limbs.length) :
    value (limbs.take i) = value limbs % radix ^ i := by
  have parts := value_append (limbs.take i) (limbs.drop i)
  have below := value_lt (limbs.take i)
  rw [List.length_take_of_le within] at parts below
  rw [List.take_append_drop] at parts
  rw [parts, Nat.add_mul_mod_self_left, Nat.mod_eq_of_lt below]

theorem value_drop {limbs : List UInt64} {i : Nat} (within : i ≤ limbs.length) :
    value (limbs.drop i) = value limbs / radix ^ i := by
  have parts := value_append (limbs.take i) (limbs.drop i)
  have below := value_lt (limbs.take i)
  rw [List.length_take_of_le within] at parts below
  rw [List.take_append_drop] at parts
  rw [parts, Nat.add_mul_div_left _ _ (radix_pow_pos i), Nat.div_eq_of_lt below, Nat.zero_add]

theorem toNat_getD {limbs : List UInt64} {i : Nat} (within : i < limbs.length) :
    (limbs.getD i 0).toNat = value limbs / radix ^ i % radix := by
  rw [← value_drop (Nat.le_of_lt within), List.drop_eq_getElem_cons within, value_cons,
    Nat.add_mul_mod_self_left, Nat.mod_eq_of_lt (toNat_lt_radix _),
    List.getD_eq_getElem?_getD, List.getElem?_eq_getElem within, Option.getD_some]

theorem value_addN {a b : List UInt64} (same : a.length = b.length) :
    value ((addN a b).1 ++ [(addN a b).2]) = value a + value b := by
  have belowA := value_lt a
  have belowB := value_lt b
  rw [← same] at belowB
  have carry : (UInt64.ofNat ((value a + value b) / radix ^ a.length)).toNat =
      (value a + value b) / radix ^ a.length := by
    refine UInt64.toNat_ofNat_of_lt' (lt_of_lt_of_le (b := 2) ?_ (by decide))
    exact Nat.div_lt_of_lt_mul (by omega)
  rw [value_append, addN, value_ofValue, length_ofValue, value_cons, value_nil, carry, Nat.mul_zero,
    Nat.add_zero]
  exact Nat.mod_add_div _ _

theorem value_addMul {a b : List UInt64} (limb : UInt64) (same : a.length = b.length) :
    value (addMul a b limb).1 + radix ^ a.length * (addMul a b limb).2.toNat =
      value a + value b * limb.toNat := by
  have belowA := value_lt a
  have belowB := value_lt b
  have belowL := toNat_lt_radix limb
  rw [← same] at belowB
  have bound : value a + value b * limb.toNat < radix ^ a.length * radix := by
    nlinarith [belowA, belowB, belowL, radix_pos]
  have carry : (UInt64.ofNat ((value a + value b * limb.toNat) / radix ^ a.length)).toNat =
      (value a + value b * limb.toNat) / radix ^ a.length :=
    UInt64.toNat_ofNat_of_lt' (Nat.div_lt_of_lt_mul bound)
  rw [addMul, value_ofValue, carry]
  exact Nat.mod_add_div _ _

theorem value_subN {a b : List UInt64} (less : value b ≤ value a) :
    value (subN a b).1 = value a - value b := by
  have below := value_lt a
  rw [subN, value_ofValue, Nat.sub_add_comm less, Nat.add_mod_right, Nat.mod_eq_of_lt (by omega)]

end CbDaemon.Base.Limbs
