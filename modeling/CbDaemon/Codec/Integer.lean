/- module: CbDaemon/Codec/Integer
   source: src/cblib/request_methods.cpp, and strtol and std::stoi of the target
   digest: Decimal texts, the check of `isInteger` and the range of `std::stoi`. -/

import CbDaemon.Base.Numeral
import Mathlib.Algebra.Order.Ring.Int
import Mathlib.Algebra.Order.Ring.Nat
import Mathlib.Data.List.Basic
import Mathlib.Data.List.TakeWhile
import Mathlib.Tactic.Common

set_option autoImplicit false
set_option relaxedAutoImplicit false

namespace CbDaemon.Codec.Integer
open Base.Numeral

/-- The bytes of a `std::string`. -/
abbrev Text := List UInt8

def ascii (s : String) : Text := s.toList.map fun c => UInt8.ofNat c.toNat

/-- `isspace` of the C locale. -/
def isSpace (b : UInt8) : Bool := b == 32 || (9 ≤ b && b ≤ 13)

def isDigit (b : UInt8) : Bool := 48 ≤ b && b ≤ 57

/-- `c_str()`: the bytes with the terminating NUL. -/
def cStr (s : Text) : Text := s ++ [0]

/-- What a C function sees of a text: the bytes in front of the first NUL. -/
def cString (s : Text) : Text := s.takeWhile (· ≠ 0)

def digits : Nat → Text → Nat × Text
  | n, [] => (n, [])
  | n, b :: rest => if isDigit b then digits (10 * n + (b.toNat - 48)) rest else (n, b :: rest)

/-- An optional sign: whether it is a minus, and what follows it. -/
def sign : Text → Bool × Text
  | [] => (false, [])
  | b :: rest => if b = 45 then (true, rest) else if b = 43 then (false, rest) else (false, b :: rest)

/-- The exact value at the front of a text and what follows it, if there is a digit. -/
def scan (s : Text) : Option (Int × Text) :=
  let (negative, body) := sign (s.dropWhile isSpace)
  if body.head?.any isDigit then
    let (n, rest) := digits 0 body
    some (if negative then -n else n, rest)
  else none

/-- `strtol` in base 10: the value, the position of `endptr` as the rest of the
text, and whether `errno` is `ERANGE`. -/
def strtol (s : Text) : Int × Text × Bool :=
  match scan s with
  | none => (0, s, false)
  | some (n, rest) =>
    if n < -2 ^ 63 then (-2 ^ 63, rest, true)
    else if 2 ^ 63 - 1 < n then (2 ^ 63 - 1, rest, true)
    else (n, rest, false)

def isInteger (s : Text) : Bool :=
  match s with
  | [] => false
  | b :: _ =>
    if !isDigit b && b != 45 && b != 43 then false
    else (strtol (cStr s)).2.1.head? == some 0

/-- The exceptions of `std::stoi`. -/
inductive StoiError where
  | invalidArgument
  | outOfRange
  deriving DecidableEq

/-- `std::stoi`. -/
def stoi (s : Text) : Except StoiError Int32 :=
  let (value, rest, range) := strtol (cStr s)
  if rest = cStr s then .error .invalidArgument
  else if range ∨ value < -2 ^ 31 ∨ 2 ^ 31 - 1 < value then .error .outOfRange
  else .ok (Int32.ofInt value)

def amount (s : Text) : Int := ((scan (cStr s)).map (·.1)).getD 0

def decimal (n : Nat) : Text := (Nat.toDigits 10 n).map fun c => UInt8.ofNat c.toNat

/-- The values an `int` can hold. -/
def FitsInt (n : Int) : Prop := -2 ^ 31 ≤ n ∧ n < 2 ^ 31

instance (n : Int) : Decidable (FitsInt n) := inferInstanceAs (Decidable (_ ∧ _))

@[simp] theorem fitsInt_natCast (n : Nat) : FitsInt n ↔ n < 2 ^ 31 := by
  unfold FitsInt
  omega

/-! Texts as C strings. -/

theorem cString_append_nul {front : Text} (clean : ∀ b ∈ front, b ≠ 0) (rest : Text) :
    cString (front ++ 0 :: rest) = front := by
  have kept : ∀ b ∈ front, decide (b ≠ 0) = true := fun b mem => decide_eq_true (clean b mem)
  rw [cString, List.takeWhile_append_of_pos kept, List.takeWhile_cons_of_neg (by simp),
    List.append_nil]

theorem cString_of_clean {s : Text} (clean : 0 ∉ s) : cString s = s := by
  have kept : ∀ b ∈ s, decide (b ≠ 0) = true := by
    intro b mem
    apply decide_eq_true
    rintro rfl
    exact clean mem
  exact List.takeWhile_eq_self_iff.mpr kept

theorem not_mem_cString (s : Text) : 0 ∉ cString s := by
  intro mem
  have kept := List.mem_takeWhile_imp mem
  simp at kept

theorem exists_cStr_eq (s : Text) : ∃ behind, cStr s = cString s ++ 0 :: behind := by
  induction s with
  | nil => exact ⟨[], rfl⟩
  | cons b s ih =>
    by_cases nul : b = 0
    · refine ⟨cStr s, ?_⟩
      subst nul
      rfl
    · obtain ⟨behind, rest⟩ := ih
      refine ⟨behind, ?_⟩
      rw [cString, List.takeWhile_cons_of_pos (by simpa using nul)]
      exact congrArg (b :: ·) rest

/-! Texts that consist of digits. -/

private theorem digits_append {l : Text} (all : ∀ b ∈ l, isDigit b = true) (n : Nat) (tail : Text) :
    digits n (l ++ tail) = digits (l.foldl (fun m b => 10 * m + (b.toNat - 48)) n) tail := by
  induction l generalizing n with
  | nil => rfl
  | cons b l ih =>
    rw [List.cons_append, digits, if_pos (all b List.mem_cons_self),
      ih fun c mem => all c (List.mem_cons_of_mem b mem)]
    rfl

theorem length_digits_le (n : Nat) (s : Text) : (digits n s).2.length ≤ s.length := by
  induction s generalizing n with
  | nil => exact Nat.le_refl _
  | cons b s ih =>
    rw [digits]
    split
    · exact Nat.le_succ_of_le (ih _)
    · exact Nat.le_refl _

private theorem length_sign_le (s : Text) : (sign s).2.length ≤ s.length := by
  cases s with
  | nil => exact Nat.le_refl _
  | cons b s =>
    rw [sign]
    split
    · exact Nat.le_succ _
    · split
      · exact Nat.le_succ _
      · exact Nat.le_refl _

private theorem isDigit_of_mem_decimal (n : Nat) : ∀ b ∈ decimal n, isDigit b = true := by
  show ∀ b ∈ numeral 10 _ n, isDigit b = true
  exact forall_mem_numeral (by decide) (by decide) n

private theorem foldl_decimal (n : Nat) :
    (decimal n).foldl (fun m b => 10 * m + (b.toNat - 48)) 0 = n := by
  show (numeral 10 _ n).foldl (fun m (b : UInt8) => 10 * m + (b.toNat - 48)) 0 = n
  exact foldl_numeral (by decide) (by decide) n

theorem isSpace_of_le {b : UInt8} (low : 48 ≤ b) : isSpace b = false := by
  have bound : 48 ≤ b.toNat := UInt8.le_iff_toNat_le.mp low
  have space : (b == 32) = false := by
    apply beq_eq_false_iff_ne.mpr
    rintro rfl
    exact absurd low (by decide)
  have high : decide (b ≤ 13) = false := by
    apply decide_eq_false
    rw [UInt8.le_iff_toNat_le]
    change ¬ b.toNat ≤ 13
    omega
  rw [isSpace, space, high, Bool.and_false, Bool.or_false]

theorem isSpace_of_isDigit {b : UInt8} (digit : isDigit b = true) : isSpace b = false := by
  rw [isDigit, Bool.and_eq_true, decide_eq_true_eq] at digit
  exact isSpace_of_le digit.1

private theorem sign_of_isDigit {b : UInt8} (digit : isDigit b = true) (rest : Text) :
    sign (b :: rest) = (false, b :: rest) := by
  have other : b ≠ 45 ∧ b ≠ 43 := by
    constructor <;> rintro rfl <;> exact absurd digit (by decide)
  rw [sign, if_neg other.1, if_neg other.2]

private theorem digits_stop {tail : Text} (stop : tail.head?.any isDigit = false) (n : Nat) :
    digits n tail = (n, tail) := by
  cases tail with
  | nil => rfl
  | cons b tail =>
    have other : ¬ isDigit b = true := by simpa using stop
    rw [digits, if_neg other]

def Digits (body : Text) : Prop := body ≠ [] ∧ ∀ b ∈ body, isDigit b = true

def value (body : Text) : Nat := body.foldl (fun m b => 10 * m + (b.toNat - 48)) 0

theorem Digits.exists_cons {body : Text} (digits : Digits body) :
    ∃ b rest, body = b :: rest ∧ isDigit b = true := by
  obtain ⟨b, rest, rfl⟩ := List.exists_cons_of_ne_nil digits.1
  exact ⟨b, rest, rfl, digits.2 b List.mem_cons_self⟩

theorem digits_of_digits {body tail : Text} (all : Digits body)
    (stop : tail.head?.any isDigit = false) : digits 0 (body ++ tail) = (value body, tail) := by
  rw [digits_append all.2, digits_stop stop]
  rfl

theorem scan_digits {body tail : Text} (all : Digits body)
    (stop : tail.head?.any isDigit = false) :
    scan (body ++ tail) = some ((value body : Int), tail) := by
  have read := digits_of_digits all stop
  obtain ⟨b, rest, rfl, digit⟩ := all.exists_cons
  rw [List.cons_append] at read ⊢
  rw [scan, List.dropWhile_cons_of_neg (by simp [isSpace_of_isDigit digit]),
    sign_of_isDigit digit]
  simp [digit, read]

private theorem scan_decimal (n : Nat) : scan (cStr (decimal n)) = some ((n : Int), [0]) := by
  have all : Digits (decimal n) := ⟨numeral_ne_nil _ n, isDigit_of_mem_decimal n⟩
  have number : value (decimal n) = n := foldl_decimal n
  rw [cStr, scan_digits all (by decide), number]

private theorem length_scan_lt {s rest : Text} {n : Int} (found : scan s = some (n, rest)) :
    rest.length < s.length := by
  have unsigned := length_sign_le (s.dropWhile isSpace)
  have trimmed := (s.dropWhile_suffix isSpace).length_le
  unfold scan at found
  generalize sign (s.dropWhile isSpace) = parts at found unsigned
  obtain ⟨negative, body⟩ := parts
  cases body with
  | nil => cases found
  | cons b body =>
    by_cases digit : isDigit b = true
    · have shorter := length_digits_le (10 * 0 + (b.toNat - 48)) body
      simp only [List.head?_cons, Option.any_some, digit, if_true, digits, Option.some.injEq,
        Prod.mk.injEq] at found
      rw [← found.2]
      simp only [List.length_cons] at unsigned
      omega
    · simp [digit] at found

private theorem stoi_of_scan {s rest : Text} {n : Int} (found : scan (cStr s) = some (n, rest)) :
    stoi s = if FitsInt n then .ok (Int32.ofInt n) else .error .outOfRange := by
  have moved : rest ≠ cStr s := by
    intro same
    have shorter := length_scan_lt found
    rw [same] at shorter
    omega
  unfold stoi strtol
  rw [found]
  by_cases fits : FitsInt n
  · have inRange := fits
    unfold FitsInt at inRange
    simp only
    rw [if_neg (by omega : ¬ n < -2 ^ 63), if_neg (by omega : ¬ 2 ^ 63 - 1 < n), if_pos fits]
    simp only
    rw [if_neg moved, if_neg (by simp; omega)]
  · have outside := fits
    unfold FitsInt at outside
    rw [if_neg fits]
    simp only
    by_cases low : n < -2 ^ 63
    · rw [if_pos low]
      simp [moved]
    · rw [if_neg low]
      by_cases high : 2 ^ 63 - 1 < n
      · rw [if_pos high]
        simp [moved]
      · rw [if_neg high]
        simp only
        rw [if_neg moved, if_pos (Or.inr (by omega))]

theorem stoi_decimal (n : Nat) :
    stoi (decimal n) = if n < 2 ^ 31 then .ok (Int32.ofInt n) else .error .outOfRange := by
  rw [stoi_of_scan (scan_decimal n)]
  simp only [fitsInt_natCast]

theorem scan_of_isInteger {s : Text} (accepted : isInteger s = true) :
    ∃ rest, scan (cStr s) = some (amount s, rest) := by
  cases found : scan (cStr s) with
  | some result =>
    refine ⟨result.2, ?_⟩
    rw [amount, found]
    rfl
  | none =>
    -- nothing is consumed, so `*p` is the first character, which is no NUL
    cases s with
    | nil => cases accepted
    | cons b s =>
      simp only [isInteger, strtol, found] at accepted
      split at accepted
      · cases accepted
      · rename_i start
        have nul : b = 0 := by simpa [cStr] using accepted
        subst nul
        exact absurd (by decide) start

/-- On the accepted texts `std::stoi` is exact within the range of `int` and
throws outside it. -/
theorem stoi_of_isInteger {s : Text} (accepted : isInteger s = true) :
    stoi s = if FitsInt (amount s) then .ok (Int32.ofInt (amount s)) else .error .outOfRange := by
  obtain ⟨rest, found⟩ := scan_of_isInteger accepted
  exact stoi_of_scan found

end CbDaemon.Codec.Integer
