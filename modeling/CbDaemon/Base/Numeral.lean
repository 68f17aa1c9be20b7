/- module: CbDaemon/Base/Numeral
   layer: library
   digest: Numbers written out in a base, with any alphabet for the digits. -/

import Mathlib.Data.Nat.Digits.Defs

set_option autoImplicit false
set_option relaxedAutoImplicit false

namespace CbDaemon.Base.Numeral

variable {Letter : Type*} {base : Nat}

/-- A number in the letters that `letter` makes of its digits. -/
def numeral (base : Nat) (letter : Char → Letter) (n : Nat) : List Letter :=
  (Nat.toDigits base n).map letter

theorem numeral_ne_nil (letter : Char → Letter) (n : Nat) : numeral base letter n ≠ [] :=
  fun empty => Nat.toDigits_ne_nil (List.map_eq_nil_iff.mp empty)

private theorem numeral_eq (big : 1 < base) (letter : Char → Letter) (n : Nat) :
    numeral base letter n =
      (if n < base then [] else numeral base letter (n / base)) ++
        [letter (Nat.digitChar (n % base))] := by
  unfold numeral
  by_cases small : n < base
  · rw [Nat.toDigits_of_lt_base small, if_pos small, Nat.mod_eq_of_lt small]
    rfl
  · rw [Nat.toDigits_of_base_le big (Nat.le_of_not_lt small), if_neg small, List.map_append]
    rfl

theorem forall_mem_numeral (big : 1 < base) {letter : Char → Letter} {P : Letter → Prop}
    (digit : ∀ d < base, P (letter (Nat.digitChar d))) (n : Nat) :
    ∀ a ∈ numeral base letter n, P a := by
  induction n using Nat.strong_induction_on with
  | _ n ih =>
    intro a mem
    rw [numeral_eq big, List.mem_append] at mem
    rcases mem with front | last
    · split at front
      next => cases front
      next large =>
        have smaller : n / base < n :=
          Nat.div_lt_self (Nat.lt_of_lt_of_le (Nat.zero_lt_of_lt big) (Nat.le_of_not_lt large)) big
        exact ih (n / base) smaller a front
    · rw [List.mem_singleton.mp last]
      exact digit _ (Nat.mod_lt n (Nat.zero_lt_of_lt big))

theorem foldl_numeral (big : 1 < base) {letter : Char → Letter} {value : Letter → Nat}
    (digit : ∀ d < base, value (letter (Nat.digitChar d)) = d) (n : Nat) :
    (numeral base letter n).foldl (fun m a => base * m + value a) 0 = n := by
  induction n using Nat.strong_induction_on with
  | _ n ih =>
    have last := digit _ (Nat.mod_lt n (Nat.zero_lt_of_lt big))
    rw [numeral_eq big, List.foldl_append, List.foldl_cons, List.foldl_nil, last]
    by_cases small : n < base
    · rw [if_pos small, List.foldl_nil, Nat.mul_zero, Nat.zero_add, Nat.mod_eq_of_lt small]
    · have smaller : n / base < n :=
        Nat.div_lt_self (Nat.lt_of_lt_of_le (Nat.zero_lt_of_lt big) (Nat.le_of_not_lt small)) big
      rw [if_neg small, ih (n / base) smaller]
      exact Nat.div_add_mod n base

end CbDaemon.Base.Numeral
