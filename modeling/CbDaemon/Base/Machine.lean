/- module: CbDaemon/Base/Machine
   source: uint256.h, and the integer conversions of the target
   digest: Fixed-width byte blobs and the narrowing of 64-bit amounts to `int`. -/

import Mathlib.Algebra.Order.Ring.Int
import Mathlib.Algebra.Order.Ring.Nat
import Mathlib.Data.List.Basic
import Mathlib.Tactic.Common

set_option autoImplicit false
set_option relaxedAutoImplicit false

namespace CbDaemon.Base.Machine

/-- `base_blob`: a fixed number of raw bytes. -/
@[ext]
structure Blob (width : Nat) where
  data : List UInt8
  length_eq : data.length = width
  deriving DecidableEq

namespace Blob

variable {width : Nat}

def null : Blob width := ⟨List.replicate width 0, List.length_replicate⟩

/-- `*begin()`, the byte stored first. -/
def lead (blob : Blob width) : UInt8 := blob.data.headD 0

/-- `Unserialize`: `read` overwrites as many bytes as the stream can give and
leaves the others as they were. -/
def unserialize (blob : Blob width) (stream : List UInt8) : Blob width where
  data := stream.take width ++ blob.data.drop stream.length
  length_eq := by
    rw [List.length_append, List.length_take, List.length_drop, blob.length_eq]
    omega

end Blob

/-- The blob with the same byte at every place. -/
def uniform {width : Nat} (byte : UInt8) : Blob width :=
  ⟨List.replicate width byte, List.length_replicate⟩

/-- The whole part of a `double`. -/
def truncate (x : Dyadic) : Int := x.toRat.num.tdiv x.toRat.den

theorem truncate_ofInt (n : Int) : truncate (Dyadic.ofInt n) = n := by
  rw [truncate, show (Dyadic.ofInt n).toRat = n from Dyadic.toRat_intCast n]
  simp

/-- `int(x)` of a 64-bit amount: the low 32 bits, read as a signed number. -/
def toInt (x : UInt64) : Int32 := x.toInt64.toInt32

theorem toInt_toInt64 {x : UInt64} (small : x.toNat < 2 ^ 63) : x.toInt64.toInt = x.toNat := by
  change x.toBitVec.toInt = x.toNat
  rw [BitVec.toInt_eq_toNat_cond, UInt64.toNat_toBitVec, if_pos (by omega)]

theorem toInt_eq_of_lt {x : UInt64} (small : x.toNat < 2 ^ 31) :
    (toInt x).toInt = x.toNat := by
  rw [toInt, Int64.toInt_toInt32, toInt_toInt64 (by omega)]
  exact Int.bmod_eq_of_le (by omega) (by omega)

/-! Amounts that pass through `int` on their way to a `uint64_t`. -/

/-- `uint64_t(int(x))` of a `CAmount`. -/
def narrow (x : Int64) : UInt64 := x.toInt32.toInt64.toUInt64

theorem toNat_toUInt64 (x : Int64) : (x.toUInt64.toNat : Int) = x.toInt % 2 ^ 64 := by
  have value := BitVec.toInt_eq_toNat_cond x.toUInt64.toBitVec
  have bound := x.toUInt64.toNat_lt
  have same : x.toInt = x.toUInt64.toBitVec.toInt := rfl
  rw [same, value]
  simp only [UInt64.toNat_toBitVec]
  split <;> omega

theorem toNat_neg {x : Int64} (negative : x.toInt < 0) :
    ((-x).toUInt64.toNat : Int) = -x.toInt := by
  have lower := x.le_toInt
  have wrapped := toNat_toUInt64 (-x)
  have reduced : (-x.toInt).bmod (2 ^ 64) % 2 ^ 64 = -x.toInt % 2 ^ 64 := Int.bmod_emod
  rw [Int64.toInt_neg, reduced] at wrapped
  omega

theorem toInt_sub_eq {x y : Int64} {n : Nat} (exact : x.toInt - y.toInt = n) (small : n < 2 ^ 63) :
    (x - y).toInt = n := by
  rw [Int64.toInt_sub, exact]
  exact Int.bmod_eq_of_le (by omega) (by omega)

/-- A narrowed amount below `2 ^ 31` is unchanged; any other loses a positive
multiple of `2 ^ 32`, possibly below zero. -/
theorem narrow_spec {x : Int64} {n : Nat} (value : x.toInt = n) (small : n < 2 ^ 40) :
    (n < 2 ^ 31 ∧ (narrow x).toNat = n) ∨
      (2 ^ 31 ≤ n ∧ ∃ t, 1 ≤ t ∧ t ≤ 1024 ∧
        ((narrow x).toNat + 2 ^ 32 * t = n ∨ (narrow x).toNat + 2 ^ 32 * t = n + 2 ^ 64)) := by
  have wrapped := toNat_toUInt64 x.toInt32.toInt64
  rw [Int32.toInt_toInt64, Int64.toInt_toInt32, value] at wrapped
  change ((narrow x).toNat : Int) = _ at wrapped
  simp only [Int.bmod] at wrapped
  by_cases low : n % 2 ^ 32 < 2 ^ 31
  · by_cases tiny : n < 2 ^ 31
    · left
      split at wrapped <;> omega
    · right
      refine ⟨by omega, n / 2 ^ 32, by omega, by omega, .inl ?_⟩
      split at wrapped <;> omega
  · right
    refine ⟨by omega, n / 2 ^ 32 + 1, by omega, by omega, .inr ?_⟩
    split at wrapped <;> omega

/-- The outputs `total - rest` and `old + rest - new`, both narrowed, balance
`old + total` against `new` only if nothing was lost on the way. -/
theorem narrowed_balance_iff {back rest : Int64} {old new : UInt64} {total n : Nat}
    (restValue : rest.toInt = n) (backValue : back.toInt = (total - n : Nat)) (le : n ≤ total)
    (small : total < 2 ^ 40) (cap : old.toNat + total ≤ 2100000000000000) :
    old.toNat + total =
        new.toNat + (narrow back).toNat + (old + narrow rest - new).toNat ↔
      n < 2 ^ 31 ∧ total - n < 2 ^ 31 ∧ new.toNat ≤ old.toNat + n := by
  have out : (old + narrow rest - new).toNat =
      (2 ^ 64 - new.toNat + (old.toNat + (narrow rest).toNat) % 2 ^ 64) % 2 ^ 64 := by
    rw [UInt64.toNat_sub, UInt64.toNat_add]
  have newBound := new.toNat_lt
  have first := narrow_spec restValue (by omega)
  have second := narrow_spec backValue (by omega)
  rw [out]
  generalize (narrow rest).toNat = a at *
  generalize (narrow back).toNat = b at *
  rcases first with ⟨_, rfl⟩ | ⟨_, t, _, _, ha⟩
  · rcases second with ⟨_, rfl⟩ | ⟨_, u, _, _, hb⟩
    · omega
    · omega
  · rcases second with ⟨_, rfl⟩ | ⟨_, u, _, _, hb⟩
    · omega
    · omega

end CbDaemon.Base.Machine
