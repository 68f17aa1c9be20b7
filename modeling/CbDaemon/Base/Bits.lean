/- module: CbDaemon/Base/Bits
   layer: library
   digest: Bit lists, the lowest bit first, and the numbers they stand for. -/

import Mathlib.Data.List.GetD
import Mathlib.Data.Nat.Bitwise
import Mathlib.Tactic.Ring

set_option autoImplicit false
set_option relaxedAutoImplicit false

namespace CbDaemon.Base.Bits

def number : List Bool → Nat
  | [] => 0
  | bit :: bits => bit.toNat + 2 * number bits

theorem number_lt (bits : List Bool) : number bits < 2 ^ bits.length := by
  induction bits with
  | nil => exact Nat.one_pos
  | cons bit bits ih =>
    have low : bit.toNat ≤ 1 := Bool.toNat_le bit
    rw [number, List.length_cons, Nat.pow_succ]
    omega

theorem number_append (low high : List Bool) :
    number (low ++ high) = number low + 2 ^ low.length * number high := by
  induction low with
  | nil => simp [number]
  | cons bit low ih =>
    rw [List.cons_append, number, ih, number, List.length_cons, Nat.pow_succ]
    ring

theorem number_inj {bits other : List Bool} (size : bits.length = other.length)
    (same : number bits = number other) : bits = other := by
  induction bits generalizing other with
  | nil => exact (List.length_eq_zero_iff.mp size.symm).symm
  | cons bit bits ih =>
    obtain ⟨first, rest, rfl⟩ := List.exists_cons_of_length_eq_add_one size.symm
    have low : bit.toNat ≤ 1 := Bool.toNat_le bit
    have low' : first.toNat ≤ 1 := Bool.toNat_le first
    rw [number, number] at same
    have head : bit.toNat = first.toNat := by omega
    rw [ih (Nat.succ.inj size) (by omega)]
    cases bit <;> cases first <;> simp_all

def bitsOf (n x : Nat) : List Bool := List.ofFn fun i : Fin n => x.testBit i

@[simp] theorem length_bitsOf (n x : Nat) : (bitsOf n x).length = n := List.length_ofFn

theorem getD_bitsOf {n x i : Nat} (within : i < n) : (bitsOf n x).getD i false = x.testBit i := by
  simp [bitsOf, within]

private theorem bitsOf_succ (n x : Nat) : bitsOf (n + 1) x = x.testBit 0 :: bitsOf n (x / 2) := by
  rw [bitsOf, List.ofFn_succ, bitsOf]
  congr 2
  funext i
  exact Nat.testBit_succ x i

theorem bitsOf_add (n k x : Nat) : bitsOf (n + k) x = bitsOf n x ++ bitsOf k (x / 2 ^ n) := by
  induction n generalizing x with
  | zero =>
    rw [Nat.zero_add, Nat.pow_zero, Nat.div_one]
    rfl
  | succ n ih =>
    rw [Nat.add_right_comm, bitsOf_succ, ih, bitsOf_succ, List.cons_append, Nat.div_div_eq_div_mul,
      Nat.pow_succ']

theorem number_bitsOf (n x : Nat) : number (bitsOf n x) = x % 2 ^ n := by
  induction n generalizing x with
  | zero => exact (Nat.mod_one x).symm
  | succ n ih =>
    rw [bitsOf_succ, number, ih, Nat.testBit_zero, Nat.pow_succ', Nat.mod_mul]
    rcases Nat.mod_two_eq_zero_or_one x with even | odd
    · simp [even]
    · simp [odd]

theorem bitsOf_number {n : Nat} {bits : List Bool} (size : bits.length = n) :
    bitsOf n (number bits) = bits := by
  apply number_inj
  · rw [length_bitsOf, size]
  · rw [number_bitsOf, ← size, Nat.mod_eq_of_lt (number_lt bits)]

theorem bitsOf_mod (n x : Nat) : bitsOf n (x % 2 ^ n) = bitsOf n x := by
  rw [← number_bitsOf, bitsOf_number (length_bitsOf n x)]

theorem bitsOf_concat {n k : Nat} (high : BitVec n) (low : BitVec k) :
    bitsOf (k + n) (high ++ low).toNat = bitsOf k low.toNat ++ bitsOf n high.toNat := by
  have back : ∀ i : Fin k, (high ++ low).toNat.testBit i = low.toNat.testBit i := by
    intro i
    rw [BitVec.testBit_toNat, BitVec.getLsbD_append, if_pos i.isLt]
    rfl
  have front : ∀ i : Fin n, ((high ++ low).toNat / 2 ^ k).testBit i = high.toNat.testBit i := by
    intro i
    rw [Nat.testBit_div_two_pow, BitVec.testBit_toNat, BitVec.getLsbD_append, if_neg (by omega),
      Nat.add_sub_cancel]
    rfl
  rw [bitsOf_add, bitsOf, bitsOf, funext back, funext front]
  rfl

end CbDaemon.Base.Bits
