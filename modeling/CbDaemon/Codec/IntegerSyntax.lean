/- module: CbDaemon/Codec/IntegerSyntax
   source: src/cblib/request_methods.cpp (isInteger and its uses with std::stoi)
   digest: Which texts `isInteger` accepts, and when `std::stoi` converts an accepted one. -/

import CbDaemon.Codec.Integer

set_option autoImplicit false
set_option relaxedAutoImplicit false

namespace CbDaemon.Codec.IntegerSyntax
open Integer

/-- The sign in front of a number, and whether it is a minus. -/
inductive Sign : Text → Bool → Prop where
  | absent : Sign [] false
  | plus : Sign [43] false
  | minus : Sign [45] true

/-- An optional sign followed by one or more decimal digits, and the integer it denotes. -/
inductive Denotes : Text → Int → Prop where
  | intro {front body : Text} {negative : Bool} : Sign front negative → Digits body →
      Denotes (front ++ body) (if negative then -(value body : Int) else value body)

/-! The texts behind a number that was read. -/

private theorem digits_sound (n : Nat) (s : Text) :
    ∃ l, (∀ b ∈ l, isDigit b = true) ∧ s = l ++ (digits n s).2 ∧
      (digits n s).1 = l.foldl (fun m b => 10 * m + (b.toNat - 48)) n := by
  induction s generalizing n with
  | nil => exact ⟨[], by simp, rfl, rfl⟩
  | cons b s ih =>
    rw [digits]
    by_cases digit : isDigit b = true
    · obtain ⟨l, all, split, number⟩ := ih (10 * n + (b.toNat - 48))
      rw [if_pos digit]
      refine ⟨b :: l, ?_, ?_, number⟩
      · rintro c (_ | ⟨_, mem⟩)
        · exact digit
        · exact all c mem
      · rw [List.cons_append, ← split]
    · rw [if_neg digit]
      exact ⟨[], by simp, rfl, rfl⟩

private theorem digits_front {body : Text} (digit : body.head?.any isDigit = true) :
    ∃ l, Digits l ∧ body = l ++ (digits 0 body).2 ∧ (digits 0 body).1 = value l := by
  obtain ⟨l, all, split, number⟩ := digits_sound 0 body
  refine ⟨l, ⟨?_, all⟩, split, number⟩
  rintro rfl
  -- with no digit taken the whole text is the rest, which does start with a digit
  cases body with
  | nil => cases digit
  | cons b body =>
    have first : isDigit b = true := by simpa using digit
    have shorter := length_digits_le (10 * 0 + (b.toNat - 48)) body
    rw [List.nil_append, digits, if_pos first] at split
    have lengths := congrArg List.length split
    rw [List.length_cons] at lengths
    omega

private theorem exists_sign (s : Text) :
    ∃ front, Sign front (sign s).1 ∧ s = front ++ (sign s).2 := by
  cases s with
  | nil => exact ⟨[], .absent, rfl⟩
  | cons b s =>
    rw [sign]
    by_cases minus : b = 45
    · rw [if_pos minus, minus]
      exact ⟨[45], .minus, rfl⟩
    · rw [if_neg minus]
      by_cases plus : b = 43
      · rw [if_pos plus, plus]
        exact ⟨[43], .plus, rfl⟩
      · rw [if_neg plus]
        exact ⟨[], .absent, rfl⟩

private theorem denotes_of_scan {s rest : Text} {n : Int} (solid : s.dropWhile isSpace = s)
    (found : scan s = some (n, rest)) : ∃ c, Denotes c n ∧ s = c ++ rest := by
  obtain ⟨front, signed, whole⟩ := exists_sign s
  simp only [scan, solid, Option.ite_none_right_eq_some, Option.some.injEq, Prod.mk.injEq] at found
  obtain ⟨digit, rfl, rfl⟩ := found
  obtain ⟨l, all, split, number⟩ := digits_front digit
  refine ⟨front ++ l, ?_, ?_⟩
  · rw [number]
    exact .intro signed all
  · rw [List.append_assoc, ← split]
    exact whole

private theorem Denotes.scan {c tail : Text} {n : Int} (denotes : Denotes c n)
    (stop : tail.head?.any isDigit = false) : scan (c ++ tail) = some (n, tail) := by
  obtain ⟨signed, all⟩ := denotes
  rename_i body negative
  cases signed with
  | absent => exact scan_digits all stop
  | plus | minus =>
    have read := digits_of_digits all stop
    obtain ⟨b, rest, rfl, digit⟩ := all.exists_cons
    rw [List.cons_append] at read
    rw [List.append_assoc, Integer.scan, List.cons_append, List.cons_append, List.nil_append,
      List.dropWhile_cons_of_neg (by decide)]
    simp [sign, digit, read]

/-- The first character `isInteger` lets through. -/
def Opens (b : UInt8) : Prop := isDigit b = true ∨ b = 45 ∨ b = 43

private theorem Opens.solid {b : UInt8} (opens : Opens b) : isSpace b = false := by
  rcases opens with digit | rfl | rfl
  · exact isSpace_of_isDigit digit
  · decide
  · decide

private theorem Denotes.opens {c : Text} {n : Int} (denotes : Denotes c n) : ∀ b ∈ c, Opens b := by
  obtain ⟨signed, all⟩ := denotes
  intro b mem
  obtain front | body := List.mem_append.mp mem
  · cases signed with
    | absent => cases front
    | plus => exact .inr (.inr (List.mem_singleton.mp front))
    | minus => exact .inr (.inl (List.mem_singleton.mp front))
  · exact .inl (all.2 b body)

private theorem Denotes.ne_nil {c : Text} {n : Int} (denotes : Denotes c n) : c ≠ [] := by
  obtain ⟨-, all⟩ := denotes
  intro empty
  exact all.1 (List.append_eq_nil_iff.mp empty).2

private theorem Denotes.clean {c : Text} {n : Int} (denotes : Denotes c n) : ∀ b ∈ c, b ≠ 0 := by
  rintro b mem rfl
  rcases denotes.opens 0 mem with digit | nul | nul
  · exact absurd digit (by decide)
  · exact absurd nul (by decide)
  · exact absurd nul (by decide)

/-! The check against the syntax. -/

private theorem strtol_end {s rest : Text} {n : Int} (found : scan s = some (n, rest)) :
    (strtol s).2.1 = rest := by
  rw [strtol, found]
  simp only
  split
  · rfl
  · split <;> rfl

private theorem isInteger_cons (b : UInt8) (t : Text) :
    isInteger (b :: t) = true ↔ Opens b ∧ (strtol (cStr (b :: t))).2.1.head? = some 0 := by
  unfold isInteger Opens
  by_cases digit : isDigit b = true <;> by_cases minus : b = 45 <;> by_cases plus : b = 43 <;>
    simp [digit, minus, plus]

private theorem scan_of_denotes {s : Text} {n : Int} (denotes : Denotes (cString s) n) :
    ∃ behind, scan (cStr s) = some (n, 0 :: behind) := by
  obtain ⟨behind, whole⟩ := exists_cStr_eq s
  refine ⟨behind, ?_⟩
  rw [whole]
  exact denotes.scan rfl

private theorem amount_of_denotes {s : Text} {n : Int} (denotes : Denotes (cString s) n) :
    amount s = n := by
  obtain ⟨behind, found⟩ := scan_of_denotes denotes
  rw [amount, found]
  rfl

private theorem isInteger_of_denotes {s : Text} {n : Int} (denotes : Denotes (cString s) n) :
    isInteger s = true := by
  obtain ⟨behind, found⟩ := scan_of_denotes denotes
  cases s with
  | nil => exact absurd rfl denotes.ne_nil
  | cons b t =>
    refine (isInteger_cons b t).mpr ⟨?_, ?_⟩
    · -- the first byte is the first one of the C string, which is not empty
      by_cases nul : b = 0
      · subst nul
        exact absurd rfl denotes.ne_nil
      · apply denotes.opens b
        rw [cString, List.takeWhile_cons_of_pos (by simpa using nul)]
        exact List.mem_cons_self
    · rw [strtol_end found]
      rfl

private theorem denotes_of_isInteger {s : Text} (accepted : isInteger s = true) :
    Denotes (cString s) (amount s) := by
  obtain ⟨rest, found⟩ := scan_of_isInteger accepted
  cases s with
  | nil => cases accepted
  | cons b t =>
    obtain ⟨opens, atNul⟩ := (isInteger_cons b t).mp accepted
    have solid : (cStr (b :: t)).dropWhile isSpace = cStr (b :: t) :=
      List.dropWhile_cons_of_neg (by simp [opens.solid])
    obtain ⟨c, denotes, split⟩ := denotes_of_scan solid found
    -- `strtol` stopped at a NUL, so the numeral is all of the C string
    rw [strtol_end found] at atNul
    obtain ⟨behind, rfl⟩ := List.head?_eq_some_iff.mp atNul
    obtain ⟨tail, whole⟩ := exists_cStr_eq (b :: t)
    have front : cString (cStr (b :: t)) = c := by
      rw [split]
      exact cString_append_nul denotes.clean behind
    have own : cString (cStr (b :: t)) = cString (b :: t) := by
      rw [whole]
      apply cString_append_nul
      rintro z mem rfl
      exact not_mem_cString _ mem
    rw [← own, front]
    exact denotes

/-- `isInteger` looks at the C string only: what it accepts is an optional sign
followed by digits up to the first NUL. -/
private theorem isInteger_iff (s : Text) : isInteger s = true ↔ ∃ n, Denotes (cString s) n :=
  ⟨fun accepted => ⟨_, denotes_of_isInteger accepted⟩,
    fun ⟨_, denotes⟩ => isInteger_of_denotes denotes⟩

/-- The check is right at a text and the conversion after it returns what the text denotes. -/
def Sound (s : Text) : Prop :=
  (isInteger s = true ↔ ∃ n, Denotes s n) ∧
    (isInteger s = true → ∃ n v, Denotes s n ∧ stoi s = .ok v ∧ v.toInt = n)

private theorem toInt_of_fits {n : Int} (fits : FitsInt n) : (Int32.ofInt n).toInt = n := by
  obtain ⟨low, high⟩ := fits
  exact Int32.toInt_ofInt_of_le low high

/-- A text is checked and converted rightly exactly when, if what precedes its first
NUL is a numeral, nothing follows it and the number fits `int`. -/
theorem isInteger_sound_iff (s : Text) :
    Sound s ↔ ∀ n, Denotes (cString s) n → 0 ∉ s ∧ FitsInt n := by
  constructor
  · rintro ⟨-, converted⟩ n denotes
    have accepted := isInteger_of_denotes denotes
    obtain ⟨m, v, whole, result, -⟩ := converted accepted
    have clean : 0 ∉ s := fun mem => whole.clean 0 mem rfl
    refine ⟨clean, ?_⟩
    rw [stoi_of_isInteger accepted, amount_of_denotes denotes] at result
    by_contra outside
    rw [if_neg outside] at result
    cases result
  · intro fits
    constructor
    · rw [isInteger_iff]
      constructor
      · rintro ⟨n, denotes⟩
        rw [cString_of_clean (fits n denotes).1] at denotes
        exact ⟨n, denotes⟩
      · rintro ⟨n, denotes⟩
        have clean : 0 ∉ s := fun mem => denotes.clean 0 mem rfl
        rw [cString_of_clean clean]
        exact ⟨n, denotes⟩
    · intro accepted
      have denotes := denotes_of_isInteger accepted
      obtain ⟨clean, fit⟩ := fits _ denotes
      rw [cString_of_clean clean] at denotes
      refine ⟨amount s, Int32.ofInt (amount s), denotes, ?_, toInt_of_fits fit⟩
      rw [stoi_of_isInteger accepted, if_pos fit]

/-- `12` followed by a NUL and more text passes the check; so does `2147483648`, and
`std::stoi` throws on it. -/
theorem isInteger_sound_fails : ¬ Sound [49, 50, 0, 120] ∧ ¬ Sound (ascii "2147483648") := by
  constructor
  · rintro ⟨numeral, -⟩
    obtain ⟨n, denotes⟩ := numeral.mp (by decide)
    exact denotes.clean 0 (by decide) rfl
  · rintro ⟨-, converted⟩
    obtain ⟨n, v, -, result, -⟩ := converted (by decide)
    have thrown : stoi (ascii "2147483648") = .error .outOfRange := by decide
    rw [thrown] at result
    cases result

end CbDaemon.Codec.IntegerSyntax
