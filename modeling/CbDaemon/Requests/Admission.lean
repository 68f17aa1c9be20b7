/- module: CbDaemon/Requests/Admission
   source: src/cblib/request_methods.cpp
   digest: The amounts and balances for which a pour is let through exactly when it is covered. -/

import CbDaemon.Codec.Integer

set_option autoImplicit false
set_option relaxedAutoImplicit false

namespace CbDaemon.Requests.Admission
open Codec.Integer

/-- What `confidential_tx_pour` decides before it asks for the merkle root. -/
inductive Decision where
  | failed (description : String)
  | admitted (noteValueFrom : Int32)
  deriving DecidableEq

/-- `note_value_from`. The sum is taken in `int` and wraps around on the target. -/
def noteValueFrom (txValueTo txValueFrom noteValueTo : Text) : Except StoiError Int32 := do
  let txTo ← stoi txValueTo
  let note ← stoi noteValueTo
  let txFrom ← stoi txValueFrom
  return txTo + note - txFrom

/-- The checks against the reported balances, which are read back from text. -/
def checks (noteValueFrom : Int32) (txValueTo txValueFrom noteValueTo : Text)
    (notesBalance transparentBalance : UInt32) : Except StoiError Decision := do
  if noteValueFrom > (← stoi (decimal notesBalance.toNat)) then
    return .failed "notes balance is not enough for performing transaction."
  else if (← stoi txValueFrom) > (← stoi (decimal transparentBalance.toNat)) then
    return .failed "transparent balance is not enough for performing transaction."
  else if (← stoi txValueFrom) < 0 ∨ (← stoi txValueTo) < 0 ∨ (← stoi noteValueTo) < 0 then
    return .failed "invalid values for transaction."
  else
    return .admitted noteValueFrom

def admission (txValueTo txValueFrom noteValueTo : Text)
    (notesBalance transparentBalance : UInt32) : Except StoiError Decision := do
  let value ← noteValueFrom txValueTo txValueFrom noteValueTo
  checks value txValueTo txValueFrom noteValueTo notesBalance transparentBalance

/-- The transfer in exact integers: no amount is negative, and the balances
cover what is taken from them. -/
def Covered (txTo txFrom note : Int) (notesBalance transparentBalance : UInt32) : Prop :=
  0 ≤ txTo ∧ 0 ≤ txFrom ∧ 0 ≤ note ∧ txTo + note - txFrom ≤ notesBalance.toNat ∧
    txFrom ≤ transparentBalance.toNat

instance (txTo txFrom note : Int) (notesBalance transparentBalance : UInt32) :
    Decidable (Covered txTo txFrom note notesBalance transparentBalance) :=
  inferInstanceAs (Decidable (_ ∧ _))

/-- A decision that agrees with the exact one and passes on the exact amount. -/
def Decides (txTo txFrom note : Int) (notesBalance transparentBalance : UInt32) :
    Except StoiError Decision → Prop
  | .ok (.admitted value) =>
    Covered txTo txFrom note notesBalance transparentBalance ∧ value.toInt = txTo + note - txFrom
  | .ok (.failed _) => ¬ Covered txTo txFrom note notesBalance transparentBalance
  | .error _ => False

instance (txTo txFrom note : Int) (notesBalance transparentBalance : UInt32)
    (decision : Except StoiError Decision) :
    Decidable (Decides txTo txFrom note notesBalance transparentBalance decision) :=
  match decision with
  | .ok (.admitted _) => inferInstanceAs (Decidable (_ ∧ _))
  | .ok (.failed _) => inferInstanceAs (Decidable (¬ _))
  | .error _ => inferInstanceAs (Decidable False)

/-- The amounts and the balance of the notes fit `int`, the transparent balance
does as well unless the notes already fall short, and the sum does not overflow
when the other conditions hold. -/
def Representable (txTo txFrom note : Int) (notesBalance transparentBalance : UInt32) : Prop :=
  FitsInt txTo ∧ FitsInt txFrom ∧ FitsInt note ∧ notesBalance.toNat < 2 ^ 31 ∧
    (transparentBalance.toNat < 2 ^ 31 ∨
      notesBalance.toNat < (txTo + note - txFrom).bmod (2 ^ 32)) ∧
    (0 ≤ txTo → 0 ≤ txFrom → 0 ≤ note → txFrom ≤ transparentBalance.toNat →
      txTo + note - txFrom < 2 ^ 31)

instance (txTo txFrom note : Int) (notesBalance transparentBalance : UInt32) :
    Decidable (Representable txTo txFrom note notesBalance transparentBalance) :=
  inferInstanceAs (Decidable (_ ∧ _))

private theorem toInt_ofInt_of_fits {n : Int} (fits : FitsInt n) : (Int32.ofInt n).toInt = n := by
  rw [Int32.toInt_ofInt]
  exact Int.bmod_eq_of_le (by have := fits.1; simp; omega) (by have := fits.2; simp; omega)

private theorem toInt_noteValueFrom (txTo txFrom note : Int) :
    (Int32.ofInt txTo + Int32.ofInt note - Int32.ofInt txFrom).toInt =
      (txTo + note - txFrom).bmod (2 ^ 32) := by
  rw [Int32.toInt_sub, Int32.toInt_add, Int32.toInt_ofInt, Int32.toInt_ofInt, Int32.toInt_ofInt]
  simp

theorem noteValueFrom_eq {txValueTo txValueFrom noteValueTo : Text}
    (txTo : isInteger txValueTo = true) (txFrom : isInteger txValueFrom = true)
    (note : isInteger noteValueTo = true) :
    noteValueFrom txValueTo txValueFrom noteValueTo =
      if FitsInt (amount txValueTo) ∧ FitsInt (amount txValueFrom) ∧
          FitsInt (amount noteValueTo) then
        .ok (Int32.ofInt (amount txValueTo) + Int32.ofInt (amount noteValueTo) -
          Int32.ofInt (amount txValueFrom))
      else .error .outOfRange := by
  rw [noteValueFrom, stoi_of_isInteger txTo, stoi_of_isInteger txFrom, stoi_of_isInteger note]
  by_cases first : FitsInt (amount txValueTo)
  · by_cases second : FitsInt (amount noteValueTo)
    · by_cases third : FitsInt (amount txValueFrom)
      · simp [first, second, third, pure, Except.pure, bind, Except.bind]
      · simp [first, second, third, bind, Except.bind]
    · simp [first, second, bind, Except.bind]
  · simp [first, bind, Except.bind]

/-- The order of the checks, once the amounts are known to fit `int`: a balance
that does not fit is an exception at the point where it is read. -/
theorem checks_eq {txValueTo txValueFrom noteValueTo : Text}
    (txTo : isInteger txValueTo = true) (txFrom : isInteger txValueFrom = true)
    (note : isInteger noteValueTo = true) (fitsTo : FitsInt (amount txValueTo))
    (fitsFrom : FitsInt (amount txValueFrom)) (fitsNote : FitsInt (amount noteValueTo))
    (value : Int32) (notesBalance transparentBalance : UInt32) :
    checks value txValueTo txValueFrom noteValueTo notesBalance transparentBalance =
      if 2 ^ 31 ≤ notesBalance.toNat then .error .outOfRange
      else if notesBalance.toNat < value.toInt then
        .ok (.failed "notes balance is not enough for performing transaction.")
      else if 2 ^ 31 ≤ transparentBalance.toNat then .error .outOfRange
      else if transparentBalance.toNat < amount txValueFrom then
        .ok (.failed "transparent balance is not enough for performing transaction.")
      else if amount txValueFrom < 0 ∨ amount txValueTo < 0 ∨ amount noteValueTo < 0 then
        .ok (.failed "invalid values for transaction.")
      else .ok (.admitted value) := by
  have larger : ∀ (x : Int32) {n : Nat}, n < 2 ^ 31 → (x > Int32.ofInt n ↔ n < x.toInt) := by
    intro x n small
    rw [gt_iff_lt, Int32.lt_iff_toInt_lt, toInt_ofInt_of_fits ((fitsInt_natCast n).mpr small)]
  have negative : ∀ {n : Int}, FitsInt n → (Int32.ofInt n < 0 ↔ n < 0) := by
    intro n fits
    rw [Int32.lt_iff_toInt_lt, toInt_ofInt_of_fits fits]
    rfl
  rw [checks, stoi_decimal, stoi_decimal, stoi_of_isInteger txTo, stoi_of_isInteger txFrom,
    stoi_of_isInteger note, if_pos fitsTo, if_pos fitsFrom, if_pos fitsNote]
  by_cases notes : notesBalance.toNat < 2 ^ 31
  · rw [if_pos notes, if_neg (Nat.not_le.mpr notes)]
    simp only [bind, Except.bind, pure, Except.pure, larger value notes]
    by_cases transparent : transparentBalance.toNat < 2 ^ 31
    · rw [if_pos transparent, if_neg (Nat.not_le.mpr transparent)]
      simp only [larger _ transparent, toInt_ofInt_of_fits fitsFrom, negative fitsTo,
        negative fitsFrom, negative fitsNote]
    · rw [if_neg transparent, if_pos (Nat.not_lt.mp transparent)]
  · rw [if_neg notes, if_pos (Nat.not_lt.mp notes)]
    rfl

/-- A wrapped sum lies in the range of `int` and differs from the exact one by
a multiple of `2 ^ 32`. -/
private theorem bmod_spec (n : Int) :
    -2 ^ 31 ≤ n.bmod (2 ^ 32) ∧ n.bmod (2 ^ 32) < 2 ^ 31 ∧
      ∃ k : Int, n = n.bmod (2 ^ 32) + 2 ^ 32 * k := by
  have lower := Int.le_bmod (x := n) (m := 2 ^ 32) (by decide)
  have upper := Int.bmod_lt (x := n) (m := 2 ^ 32) (by decide)
  refine ⟨by omega, by omega, (n - n.bmod (2 ^ 32)) / 2 ^ 32, ?_⟩
  have same : n.bmod (2 ^ 32) % 2 ^ 32 = n % 2 ^ 32 := Int.bmod_emod
  omega

/-- The decision is exact for exactly the representable amounts and balances. -/
theorem admission_decides_iff (txValueTo txValueFrom noteValueTo : Text)
    (txTo : isInteger txValueTo = true) (txFrom : isInteger txValueFrom = true)
    (note : isInteger noteValueTo = true) (notesBalance transparentBalance : UInt32) :
    Decides (amount txValueTo) (amount txValueFrom) (amount noteValueTo) notesBalance
        transparentBalance
        (admission txValueTo txValueFrom noteValueTo notesBalance transparentBalance) ↔
      Representable (amount txValueTo) (amount txValueFrom) (amount noteValueTo) notesBalance
        transparentBalance := by
  rw [admission, noteValueFrom_eq txTo txFrom note]
  by_cases fits : FitsInt (amount txValueTo) ∧ FitsInt (amount txValueFrom) ∧
      FitsInt (amount noteValueTo)
  · rw [if_pos fits]
    obtain ⟨fitsTo, fitsFrom, fitsNote⟩ := fits
    have wrapped := toInt_noteValueFrom (amount txValueTo) (amount txValueFrom) (amount noteValueTo)
    obtain ⟨low, high, k, exact⟩ := bmod_spec (amount txValueTo + amount noteValueTo - amount txValueFrom)
    change Decides _ _ _ _ _ (checks _ _ _ _ _ _) ↔ _
    rw [checks_eq txTo txFrom note fitsTo fitsFrom fitsNote, wrapped]
    unfold Representable
    unfold FitsInt at fitsTo fitsFrom fitsNote ⊢
    split
    · exact iff_of_false id (by omega)
    · split
      · -- the notes fall short, also when the sum wrapped around
        exact iff_of_true (fun covered => by unfold Covered at covered; omega) (by omega)
      · split
        · exact iff_of_false id (by omega)
        · split
          · exact iff_of_true (fun covered => by unfold Covered at covered; omega) (by omega)
          · split
            · exact iff_of_true (fun covered => by unfold Covered at covered; omega) (by omega)
            · -- the pour goes on, with the wrapped sum
              unfold Decides Covered
              simp only [wrapped]
              omega
  · rw [if_neg fits]
    constructor
    · intro decided
      exact decided.elim
    · rintro ⟨fitsTo, fitsFrom, fitsNote, _⟩
      exact fits ⟨fitsTo, fitsFrom, fitsNote⟩

/-- 3 to a transparent account and 4 to a note, 2 of it from a transparent account. -/
theorem small_pour_decided :
    isInteger (ascii "3") = true ∧ isInteger (ascii "2") = true ∧ isInteger (ascii "+4") = true ∧
      Decides (amount (ascii "3")) (amount (ascii "2")) (amount (ascii "+4")) 10 6
        (admission (ascii "3") (ascii "2") (ascii "+4") 10 6) :=
  ⟨by decide, by decide, by decide,
    (admission_decides_iff (ascii "3") (ascii "2") (ascii "+4") (by decide) (by decide)
      (by decide) 10 6).mpr (by decide)⟩

/-- An amount of 3000000000 passes `isInteger` and then ends in an exception. -/
theorem large_amount_undecided :
    isInteger (ascii "3000000000") = true ∧ isInteger (ascii "0") = true ∧
      ¬ Decides (amount (ascii "3000000000")) (amount (ascii "0")) (amount (ascii "0")) 0 0
        (admission (ascii "3000000000") (ascii "0") (ascii "0") 0 0) := by
  decide

end CbDaemon.Requests.Admission
