/- module: CbDaemon/Wallet/Memo
   source: src/cblib/request_methods.cpp (get_memo_from_hex_string, string_to_hex),
     utilstrencodings.cpp (ParseHex)
   digest: Memos as hexadecimal texts: which texts are accepted, refused, or neither. -/

import CbDaemon.Codec.Hex
import CbDaemon.Wallet.Notes

set_option autoImplicit false
set_option relaxedAutoImplicit false

namespace CbDaemon.Wallet.Memo
open Base.Machine Codec.Integer Codec.Hex Notes

/-- `ParseHex` on what `c_str()` points to. Blanks are skipped in front of a pair of
digits, and everything from the first other character on is dropped. The terminating
NUL is no digit, so the end of the list is never reached. -/
def parseHex : Text → List UInt8
  | [] => []
  | c :: rest =>
    if isSpace c then parseHex rest
    else
      match hexDigit c with
      | none => []
      | some high =>
        match rest with
        | [] => []
        | d :: rest =>
          match hexDigit d with
          | none => []
          | some low => UInt8.ofNat (high <<< 4 ||| low) :: parseHex rest

/-- What a conversion ends in. -/
inductive Conversion where
  | returned (memo : Blob zcMemoSize)
  | threw (what : String)
  /-- `sprintf` has written through a pointer that was never set. -/
  | undefined
  deriving DecidableEq

def copyMemo (rawMemo : List UInt8) : Blob zcMemoSize := Blob.null.unserialize rawMemo

def getMemoFromHexString (s : Text) : Conversion :=
  let rawMemo := parseHex (cStr s)
  let slen := s.length
  if slen % 2 ≠ 0 ∨ (slen > 0 ∧ rawMemo.length ≠ slen / 2) then
    .threw "Memo must be in hexadecimal format"
  else if rawMemo.length > zcMemoSize then .undefined
  else .returned (copyMemo rawMemo)

def stringToHex (input : Text) : Text := input.flatMap upperByte

def HexText (s : Text) : Prop :=
  ∀ c ∈ s, (48 ≤ c ∧ c ≤ 57) ∨ (65 ≤ c ∧ c ≤ 70) ∨ (97 ≤ c ∧ c ≤ 102)

private theorem isSome_hexDigit {c : UInt8} :
    (hexDigit c).isSome = true ↔
      (48 ≤ c ∧ c ≤ 57) ∨ (65 ≤ c ∧ c ≤ 70) ∨ (97 ≤ c ∧ c ≤ 102) := by
  unfold hexDigit
  split
  · simp_all
  · split
    · simp_all
    · split <;> simp_all

private theorem isSpace_of_hexDigit {c : UInt8} {n : Nat} (digit : hexDigit c = some n) :
    isSpace c = false := by
  have kinds := isSome_hexDigit.mp (Option.isSome_of_mem digit)
  apply isSpace_of_le
  rcases kinds with ⟨low, -⟩ | ⟨low, -⟩ | ⟨low, -⟩
  · exact low
  · exact UInt8.le_trans (by decide) low
  · exact UInt8.le_trans (by decide) low

private theorem hexText_iff {s : Text} : HexText s ↔ ∀ c ∈ s, ∃ n, hexDigit c = some n := by
  simp only [HexText, ← isSome_hexDigit, Option.isSome_iff_exists]

theorem hexText_cons {c : UInt8} {s : Text} :
    HexText (c :: s) ↔ (∃ n, hexDigit c = some n) ∧ HexText s := by
  rw [hexText_iff, hexText_iff, List.forall_mem_cons]

/-! The loop of `ParseHex`. -/

theorem parseHex_pair {c d : UInt8} {high low : Nat} (first : hexDigit c = some high)
    (second : hexDigit d = some low) (rest : Text) :
    parseHex (c :: d :: rest) = UInt8.ofNat (high <<< 4 ||| low) :: parseHex rest := by
  simp [parseHex, isSpace_of_hexDigit first, first, second]

private theorem parseHex_blank {c : UInt8} (blank : isSpace c = true) (rest : Text) :
    parseHex (c :: rest) = parseHex rest := by
  rw [parseHex.eq_def]
  simp only [blank, if_true]

private theorem parseHex_stop {c : UInt8} {rest : Text} (solid : isSpace c = false)
    (broken : hexDigit c = none ∨ ∃ d tail, rest = d :: tail ∧ hexDigit d = none) :
    parseHex (c :: rest) = [] := by
  rcases broken with first | ⟨d, tail, rfl, second⟩
  · simp [parseHex, solid, first]
  · cases first : hexDigit c with
    | none => simp [parseHex, solid, first]
    | some high => simp [parseHex, solid, first, second]

/-- One round of the loop on a C string: a blank is skipped, a pair of digits makes a
byte, and anything else ends it. -/
private theorem parseHex_cases (c : UInt8) (s : Text) :
    parseHex (cStr (c :: s)) = parseHex (cStr s) ∧ isSpace c = true ∨
      (∃ d t high low, s = d :: t ∧ hexDigit c = some high ∧ hexDigit d = some low ∧
        parseHex (cStr (c :: s)) = UInt8.ofNat (high <<< 4 ||| low) :: parseHex (cStr t)) ∨
      parseHex (cStr (c :: s)) = [] := by
  by_cases blank : isSpace c = true
  · exact .inl ⟨parseHex_blank blank _, blank⟩
  · have solid : isSpace c = false := by simpa using blank
    cases first : hexDigit c with
    | none => exact .inr (.inr (parseHex_stop solid (.inl first)))
    | some high =>
      cases s with
      | nil => exact .inr (.inr (parseHex_stop solid (.inr ⟨0, [], rfl, by decide⟩)))
      | cons d t =>
        cases second : hexDigit d with
        | none => exact .inr (.inr (parseHex_stop solid (.inr ⟨d, cStr t, rfl, second⟩)))
        | some low =>
          exact .inr (.inl ⟨d, t, high, low, rfl, rfl, second, parseHex_pair first second _⟩)

private theorem length_parseHex_le : ∀ s : Text, 2 * (parseHex (cStr s)).length ≤ s.length
  | [] => by decide
  | c :: s => by
    rcases parseHex_cases c s with ⟨skip, -⟩ | ⟨d, t, high, low, rfl, -, -, read⟩ | stop
    · have rest := length_parseHex_le s
      rw [skip, List.length_cons]
      omega
    · have rest := length_parseHex_le t
      rw [read]
      simp only [List.length_cons]
      omega
    · rw [stop]
      simp

private theorem hexText_of_length :
    ∀ s : Text, 2 * (parseHex (cStr s)).length = s.length → HexText s
  | [] => fun _ => by simp [HexText]
  | c :: s => by
    intro full
    rcases parseHex_cases c s with ⟨skip, -⟩ | ⟨d, t, high, low, rfl, first, second, read⟩ | stop
    · have rest := length_parseHex_le s
      rw [skip, List.length_cons] at full
      omega
    · rw [read] at full
      simp only [List.length_cons] at full
      have rest := hexText_of_length t (by omega)
      exact hexText_cons.mpr ⟨⟨high, first⟩, hexText_cons.mpr ⟨⟨low, second⟩, rest⟩⟩
    · rw [stop] at full
      simp at full

private theorem length_of_hexText : ∀ s : Text, HexText s → s.length % 2 = 0 →
    2 * (parseHex (cStr s)).length = s.length
  | [] => fun _ _ => by decide
  | [c] => fun _ even => by simp at even
  | c :: d :: t => by
    intro all even
    obtain ⟨⟨high, first⟩, all⟩ := hexText_cons.mp all
    obtain ⟨⟨low, second⟩, all⟩ := hexText_cons.mp all
    simp only [List.length_cons] at even
    have rest := length_of_hexText t all (by omega)
    change 2 * (parseHex (c :: d :: cStr t)).length = _
    rw [parseHex_pair first second]
    simp only [List.length_cons]
    omega

/-! Which texts are accepted. -/

def Pairs (s : Text) : Prop := s.length % 2 = 0 ∧ HexText s

private theorem getMemo_of_not_pairs {s : Text} (other : ¬ Pairs s) :
    getMemoFromHexString s = .threw "Memo must be in hexadecimal format" := by
  have refused : s.length % 2 ≠ 0 ∨
      (s.length > 0 ∧ (parseHex (cStr s)).length ≠ s.length / 2) := by
    by_cases even : s.length % 2 = 0
    · have mixed : ¬ HexText s := fun all => other ⟨even, all⟩
      have bound := length_parseHex_le s
      have short : 2 * (parseHex (cStr s)).length ≠ s.length :=
        fun full => mixed (hexText_of_length s full)
      exact .inr ⟨by omega, by omega⟩
    · exact .inl even
  rw [getMemoFromHexString, if_pos refused]

private theorem getMemo_of_pairs {s : Text} (pairs : Pairs s) :
    getMemoFromHexString s =
      if s.length ≤ 2 * zcMemoSize then .returned (copyMemo (parseHex (cStr s)))
      else .undefined := by
  have full := length_of_hexText s pairs.2 pairs.1
  have even := pairs.1
  rw [getMemoFromHexString, if_neg (by omega)]
  by_cases short : s.length ≤ 2 * zcMemoSize
  · rw [if_pos short, if_neg (by omega)]
  · rw [if_neg short, if_pos (by omega)]

/-- The accepted texts at a point are the intended ones, and every other one is thrown at. -/
def Exact (s : Text) : Prop :=
  ((∃ memo, getMemoFromHexString s = .returned memo) ↔
      Pairs s ∧ s.length ≤ 2 * zcMemoSize) ∧
    (¬ (Pairs s ∧ s.length ≤ 2 * zcMemoSize) → ∃ what, getMemoFromHexString s = .threw what)

private theorem exact_iff (s : Text) : Exact s ↔ ¬ (Pairs s ∧ 2 * zcMemoSize < s.length) := by
  constructor
  · rintro ⟨-, thrown⟩ ⟨pairs, long⟩
    obtain ⟨what, result⟩ := thrown fun fine => Nat.not_le.mpr long fine.2
    rw [getMemo_of_pairs pairs, if_neg (Nat.not_le.mpr long)] at result
    cases result
  · intro short
    by_cases pairs : Pairs s
    · have fits : s.length ≤ 2 * zcMemoSize := Nat.not_lt.mp fun long => short ⟨pairs, long⟩
      have result := getMemo_of_pairs pairs
      rw [if_pos fits] at result
      exact ⟨⟨fun _ => ⟨pairs, fits⟩, fun _ => ⟨_, result⟩⟩, fun other => absurd ⟨pairs, fits⟩ other⟩
    · have result := getMemo_of_not_pairs pairs
      refine ⟨⟨?_, fun fine => absurd fine.1 pairs⟩, fun _ => ⟨_, result⟩⟩
      rintro ⟨memo, returned⟩
      rw [result] at returned
      cases returned

/-! Texts written by `string_to_hex`. -/

private theorem parseHex_stringToHex (m : Text) : parseHex (cStr (stringToHex m)) = m := by
  induction m with
  | nil => decide
  | cons c m ih =>
    have written : cStr (stringToHex (c :: m)) =
        upperChar (c.toNat >>> 4) :: upperChar (c.toNat &&& 15) :: cStr (stringToHex m) := by
      simp [stringToHex, upperByte, cStr]
    rw [written, parseHex_pair (hexDigit_upperChar (shiftRight_lt c))
      (hexDigit_upperChar (and_lt c)), join_halves, UInt8.ofNat_toNat, ih]

private theorem length_stringToHex (m : Text) : (stringToHex m).length = 2 * m.length :=
  length_flatMap_upperByte m

private theorem pairs_stringToHex (m : Text) : Pairs (stringToHex m) := by
  have length := length_stringToHex m
  refine ⟨by omega, hexText_of_length _ ?_⟩
  rw [parseHex_stringToHex, length]

private theorem copyMemo_data {m : Text} (short : m.length ≤ zcMemoSize) :
    (copyMemo m).data = m ++ List.replicate (zcMemoSize - m.length) 0 := by
  show m.take zcMemoSize ++ (List.replicate zcMemoSize 0).drop m.length = _
  rw [List.take_of_length_le short, List.drop_replicate]

/-- A memo of at most the size of the array comes back padded with zeros, and the
accepted texts are exactly the intended ones, unless the text is a longer one of
paired digits. -/
theorem memo_conversion (m s : Text) :
    (m.length ≤ zcMemoSize → ∃ memo, getMemoFromHexString (stringToHex m) = .returned memo ∧
        memo.data = m ++ List.replicate (zcMemoSize - m.length) 0) ∧
      (Exact s ↔ ¬ (Pairs s ∧ 2 * zcMemoSize < s.length)) := by
  refine ⟨?_, exact_iff s⟩
  intro short
  have length := length_stringToHex m
  refine ⟨copyMemo m, ?_, copyMemo_data short⟩
  rw [getMemo_of_pairs (pairs_stringToHex m), if_pos (by omega), parseHex_stringToHex]

/-- 1026 digits reach the `sprintf`. -/
theorem memo_conversion_long : ¬ Exact (List.replicate 1026 48) := by
  have pairs : Pairs (List.replicate 1026 48) := by
    refine ⟨by rw [List.length_replicate], ?_⟩
    intro c mem
    rw [List.eq_of_mem_replicate mem]
    exact .inl (by decide)
  rintro ⟨-, thrown⟩
  have long : ¬ (List.replicate 1026 (48 : UInt8)).length ≤ 2 * zcMemoSize := by
    rw [List.length_replicate]
    decide
  obtain ⟨what, result⟩ := thrown fun fine => long fine.2
  rw [getMemo_of_pairs pairs, if_neg long] at result
  cases result

end CbDaemon.Wallet.Memo
