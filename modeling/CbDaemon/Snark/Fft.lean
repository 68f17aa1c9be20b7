/- module: CbDaemon/Snark/Fft
   source: snark/libsnark/common/utils.cpp (log2, bitreverse),
     snark/libsnark/algebra/evaluation_domain/domains/basic_radix2_domain_aux.tcc
   digest: The transform in place computes the values at the powers of the root of unity. -/

import Mathlib.Data.Nat.Log
import CbDaemon.Base.Coefficients
import CbDaemon.Base.InPlace

set_option autoImplicit false
set_option relaxedAutoImplicit false

namespace CbDaemon.Snark.Fft

open Base.InPlace Base.Coefficients
open Finset (range sum_congr)

/-! Logarithm and reversal of bits. -/

/-- `log2`, rounded up: the loop counts shifts, and one is added where `n` is no power of two. -/
def log2 (n : Nat) : Nat := (if n &&& (n - 1) = 0 then 0 else 1) + n.log2

def bitreverse (n l : Nat) : Nat :=
  ((List.range l).foldl (fun (state : Nat × Nat) _ =>
    ((state.1 <<< 1) ||| (state.2 &&& 1), state.2 >>> 1)) (0, n)).1

private theorem log2_two_pow (l : Nat) : log2 (2 ^ l) = l := by
  have power : (2 ^ l) &&& (2 ^ l - 1) = 0 := by
    rw [Nat.and_two_pow_sub_one_eq_mod, Nat.mod_self]
  rw [log2, if_pos power, Nat.zero_add, Nat.log2_two_pow]

private theorem log2_eq_clog {n : Nat} (positive : n ≠ 0) : log2 n = Nat.clog 2 n := by
  by_cases power : n &&& (n - 1) = 0
  · obtain ⟨k, rfl⟩ := (Nat.and_sub_one_eq_zero_iff_isPowerOfTwo positive).mp power
    rw [log2_two_pow, Nat.clog_pow 2 k (by decide)]
  · have other : 2 ^ Nat.log 2 n ≠ n := by
      intro same
      exact power ((Nat.and_sub_one_eq_zero_iff_isPowerOfTwo positive).mpr ⟨_, same.symm⟩)
    have below : 2 ^ Nat.log 2 n < n := lt_of_le_of_ne (Nat.pow_log_le_self 2 positive) other
    rw [log2, if_neg power, Nat.log2_eq_log_two]
    refine le_antisymm ?_ ?_
    · rw [Nat.add_comm, Nat.succ_le_iff]
      exact (Nat.lt_clog_iff_pow_lt (by decide)).mpr below
    · rw [Nat.clog_le_iff_le_pow (by decide), Nat.add_comm]
      exact (Nat.lt_pow_succ_log_self (by decide) n).le

theorem le_two_pow_log2 {n : Nat} (positive : n ≠ 0) : n ≤ 2 ^ log2 n := by
  rw [log2_eq_clog positive]
  exact Nat.le_pow_clog (by decide) n

private theorem bitreverse_loop (n l : Nat) :
    (List.range l).foldl (fun (state : Nat × Nat) _ =>
      ((state.1 <<< 1) ||| (state.2 &&& 1), state.2 >>> 1)) (0, n) = (bitreverse n l, n >>> l) := by
  -- the loop puts the lowest of the remaining bits below those it has taken
  induction l with
  | zero => rfl
  | succ l ih =>
    rw [bitreverse, List.range_succ, List.foldl_append, ih]
    rfl

private theorem bitreverse_succ (n l : Nat) :
    bitreverse n (l + 1) = 2 * bitreverse n l + n / 2 ^ l % 2 := by
  have next : bitreverse n (l + 1) = (bitreverse n l <<< 1) ||| ((n >>> l) &&& 1) := by
    rw [bitreverse, List.range_succ, List.foldl_append, bitreverse_loop]
    rfl
  rw [next, Nat.and_one_is_mod, Nat.shiftRight_eq_div_pow,
    ← Nat.shiftLeft_add_eq_or_of_lt (Nat.mod_lt _ (by decide)), Nat.shiftLeft_eq, Nat.mul_comm]

private theorem testBit_bitreverse (n l i : Nat) :
    (bitreverse n l).testBit i = (decide (i < l) && n.testBit (l - 1 - i)) := by
  induction l generalizing i with
  | zero => simp [bitreverse]
  | succ l ih =>
    rw [bitreverse_succ]
    have last : n / 2 ^ l % 2 < 2 := Nat.mod_lt _ (by decide)
    cases i with
    | zero =>
      rw [Nat.testBit_zero, Nat.mul_add_mod, Nat.mod_mod, Nat.add_sub_cancel, Nat.sub_zero,
        Nat.testBit_eq_decide_div_mod_eq]
      simp
    | succ i =>
      have half : (2 * bitreverse n l + n / 2 ^ l % 2) / 2 = bitreverse n l := by omega
      rw [Nat.testBit_add_one, half, ih, show l + 1 - 1 - (i + 1) = l - 1 - i by omega]
      simp

private theorem bitreverse_lt (n l : Nat) : bitreverse n l < 2 ^ l := by
  induction l with
  | zero => exact Nat.one_pos
  | succ l ih =>
    rw [bitreverse_succ, pow_succ]
    omega

private theorem bitreverse_bitreverse {n l : Nat} (small : n < 2 ^ l) :
    bitreverse (bitreverse n l) l = n := by
  refine Nat.eq_of_testBit_eq fun i => ?_
  rw [testBit_bitreverse, testBit_bitreverse]
  by_cases within : i < l
  · rw [show l - 1 - (l - 1 - i) = i by omega]
    simp [within, show l - 1 - i < l by omega]
  · have high : 2 ^ l ≤ 2 ^ i := Nat.pow_le_pow_right (by decide) (by omega)
    rw [Nat.testBit_lt_two_pow (small.trans_le high)]
    simp [within]

private theorem bitreverse_succ_low (n l : Nat) :
    bitreverse n (l + 1) = n % 2 * 2 ^ l + bitreverse (n / 2) l := by
  induction l with
  | zero => simp [bitreverse]
  | succ l ih =>
    rw [bitreverse_succ, ih, bitreverse_succ (n / 2), Nat.div_div_eq_div_mul, ← pow_succ']
    ring

variable {F : Type} [Field F]

/-! The transform. -/

def reorder (logn : Nat) (a : List F) : List F :=
  (List.range a.length).foldl (fun a k =>
    let rk := bitreverse k logn
    if k < rk then swapAt 0 a k rk else a) a

def butterfly (k m : Nat) (wm : F) (state : List F × F) (j : Nat) : List F × F :=
  let (a, w) := state
  let t := w * a.getD (k + j + m) 0
  let a := a.set (k + j + m) (a.getD (k + j) 0 - t)
  (a.set (k + j) (a.getD (k + j) 0 + t), w * wm)

def block (m : Nat) (wm : F) (a : List F) (k : Nat) : List F :=
  ((List.range m).foldl (butterfly k m wm) (a, 1)).1

/-- The loop over the blocks of `2 * m` elements. -/
def stage (n m : Nat) (wm : F) (a : List F) : List F :=
  (List.range (n / (2 * m))).foldl (fun a c => block m wm a (2 * m * c)) a

/-- `_basic_serial_radix2_FFT`; `none` is a failed assertion. -/
def basicSerialRadix2FFT (a : List F) (omega : F) : Option (List F) :=
  let n := a.length
  let logn := log2 n
  if n = 2 ^ logn then
    some ((List.range logn).foldl (fun (state : List F × Nat) _ =>
      (stage n state.2 (omega ^ (n / (2 * state.2))) state.1, 2 * state.2)) (reorder logn a, 1)).1
  else none

/-! What the swaps do. -/

/-- The elements that turn `k` swaps. -/
def Swapped (logn k p : Nat) : Prop :=
  k < bitreverse k logn ∧ (p = k ∨ p = bitreverse k logn)

private theorem swapped_bitreverse {logn k p : Nat} (small : k < 2 ^ logn)
    (swapped : Swapped logn k p) :
    Swapped logn k (bitreverse p logn) := by
  obtain ⟨lower, rfl | rfl⟩ := swapped
  · exact ⟨lower, .inr rfl⟩
  · exact ⟨lower, .inl (bitreverse_bitreverse small)⟩

private theorem swapped_unique {logn k k' p : Nat} (small : k < 2 ^ logn) (small' : k' < 2 ^ logn)
    (swapped : Swapped logn k p) (swapped' : Swapped logn k' p) : k = k' := by
  have twice := bitreverse_bitreverse small
  have twice' := bitreverse_bitreverse small'
  obtain ⟨lower, rfl | rfl⟩ := swapped
  · obtain ⟨lower', rfl | same⟩ := swapped'
    · rfl
    · rw [same, twice'] at lower
      omega
  · obtain ⟨lower', same | same⟩ := swapped'
    · rw [← same, twice] at lower'
      omega
    · rw [← twice, same, twice']

private theorem reorder_spec {logn : Nat} {a : List F} (size : a.length = 2 ^ logn) :
    (reorder logn a).length = 2 ^ logn ∧
      ∀ p < 2 ^ logn, (reorder logn a).getD p 0 = a.getD (bitreverse p logn) 0 := by
  have works : ∀ k ∈ List.range a.length, Works (0 : F) (2 ^ logn)
      (fun a k => if k < bitreverse k logn then swapAt 0 a k (bitreverse k logn) else a)
      (Swapped logn) (fun _ f p => f (bitreverse p logn)) k := by
    intro k listed
    rw [List.mem_range, size] at listed
    have image := bitreverse_lt k logn
    refine ⟨fun a length => ?_, fun a length p other => ?_, fun a length p own => ?_,
      fun f g agree p own => agree _ (swapped_bitreverse listed own)⟩
    · split_ifs
      · rw [length_swapAt, length]
      · exact length
    · split_ifs with lower
      · rw [getD_swapAt (by omega) (by omega), Equiv.swap_apply_of_ne_of_ne
          (fun same => other ⟨lower, .inl same⟩) fun same => other ⟨lower, .inr same⟩]
      · rfl
    · rw [if_pos own.1, getD_swapAt (by omega) (by omega)]
      have lower := own.1
      obtain ⟨-, rfl | rfl⟩ := own
      · rw [Equiv.swap_apply_left]
      · rw [Equiv.swap_apply_right, bitreverse_bitreverse listed]
  have apart : (List.range a.length).Pairwise fun i j =>
      ∀ p, Swapped logn i p → ¬ Swapped logn j p := by
    refine List.Pairwise.imp_of_mem ?_ (List.nodup_range (n := a.length))
    intro i j listed listed' differ p swapped swapped'
    rw [List.mem_range, size] at listed listed'
    exact differ (swapped_unique listed listed' swapped swapped')
  obtain ⟨length, written, kept⟩ := foldl_works works apart size
  refine ⟨length, fun p within => ?_⟩
  have image := bitreverse_lt p logn
  rcases Nat.lt_trichotomy p (bitreverse p logn) with lower | fixed | higher
  · exact written p (List.mem_range.mpr (by omega)) p ⟨lower, .inl rfl⟩
  · rw [← fixed]
    refine kept p fun k listed swapped => ?_
    rw [List.mem_range, size] at listed
    obtain ⟨lower, rfl | rfl⟩ := swapped
    · omega
    · rw [bitreverse_bitreverse listed] at fixed
      omega
  · refine written (bitreverse p logn) (List.mem_range.mpr (by omega)) p ⟨?_, .inr ?_⟩
    · rwa [bitreverse_bitreverse within]
    · rw [bitreverse_bitreverse within]

/-! What the butterflies do. -/

private theorem foldl_butterfly (k m : Nat) (wm : F) (a : List F) (J : Nat) :
    (List.range J).foldl (butterfly k m wm) (a, 1) =
      ((List.range J).foldl (fun a j => (butterfly k m wm (a, wm ^ j) j).1) a, wm ^ J) := by
  -- the running power is a power of the root
  induction J with
  | zero => rw [List.range_zero, List.foldl_nil, List.foldl_nil, pow_zero]
  | succ J ih =>
    rw [List.range_succ, List.foldl_append, List.foldl_append, ih, pow_succ]
    rfl

def butterflied (k m : Nat) (wm : F) (j : Nat) (f : Nat → F) (p : Nat) : F :=
  if p = k + j then f (k + j) + wm ^ j * f (k + j + m) else f (k + j) - wm ^ j * f (k + j + m)

private theorem butterfly_works {n k m : Nat} (wm : F) (fits : k + 2 * m ≤ n) {j : Nat}
    (within : j < m) :
    Works (0 : F) n (fun a j => (butterfly k m wm (a, wm ^ j) j).1)
      (fun j p => p = k + j ∨ p = k + j + m) (butterflied k m wm) j := by
  have value : ∀ a : List F, a.length = n → ∀ p, (butterfly k m wm (a, wm ^ j) j).1.getD p 0 =
      if p = k + j then a.getD (k + j) 0 + wm ^ j * a.getD (k + j + m) 0
      else if p = k + j + m then a.getD (k + j) 0 - wm ^ j * a.getD (k + j + m) 0
      else a.getD p 0 := by
    intro a length p
    have upper : k + j + m < a.length := by omega
    have untouched : ∀ x, (a.set (k + j + m) x).getD (k + j) 0 = a.getD (k + j) 0 := by
      intro x
      rw [getD_set _ _ upper, if_neg (by omega)]
    rw [butterfly, getD_set _ _ (by rw [List.length_set]; omega), untouched, getD_set _ _ upper]
  refine ⟨fun a length => ?_, fun a length p other => ?_, fun a length p own => ?_,
    fun f g agree p own => ?_⟩
  · rw [butterfly, List.length_set, List.length_set, length]
  · rw [value a length, if_neg fun low => other (.inl low), if_neg fun high => other (.inr high)]
  · rw [value a length, butterflied]
    split_ifs with low high
    · rfl
    · rfl
    · exact absurd own (not_or.mpr ⟨low, high⟩)
  · rw [butterflied, butterflied, agree (k + j) (.inl rfl), agree (k + j + m) (.inr rfl)]

def blocked (k m : Nat) (wm : F) (f : Nat → F) (p : Nat) : F :=
  if p < k + m then f p + wm ^ (p - k) * f (p + m) else f (p - m) - wm ^ (p - m - k) * f p

private theorem block_spec {n k m : Nat} (wm : F) (fits : k + 2 * m ≤ n) {a : List F}
    (size : a.length = n) :
    (block m wm a k).length = n ∧
      (∀ p, k ≤ p → p < k + 2 * m → (block m wm a k).getD p 0 = blocked k m wm (a.getD · 0) p) ∧
      ∀ p, ¬ (k ≤ p ∧ p < k + 2 * m) → (block m wm a k).getD p 0 = a.getD p 0 := by
  have apart : (List.range m).Pairwise fun i j =>
      ∀ p, (p = k + i ∨ p = k + i + m) → ¬ (p = k + j ∨ p = k + j + m) := by
    refine List.Pairwise.imp_of_mem ?_ (List.nodup_range (n := m))
    intro i j listed listed' differ p
    rw [List.mem_range] at listed listed'
    omega
  obtain ⟨length, written, kept⟩ := foldl_works
    (fun j listed => butterfly_works wm fits (List.mem_range.mp listed)) apart size
  rw [block, foldl_butterfly]
  refine ⟨length, fun p above below => ?_, fun p outside => ?_⟩
  · by_cases lower : p < k + m
    · rw [written (p - k) (List.mem_range.mpr (by omega)) p (.inl (by omega)), butterflied,
        if_pos (by omega), blocked, if_pos lower, show k + (p - k) = p by omega]
    · rw [written (p - m - k) (List.mem_range.mpr (by omega)) p (.inr (by omega)), butterflied,
        if_neg (by omega), blocked, if_neg lower, show k + (p - m - k) = p - m by omega,
        show p - m + m = p by omega]
  · refine kept p fun j listed own => outside ?_
    rw [List.mem_range] at listed
    omega

private theorem block_works {n m c : Nat} (wm : F) (fits : 2 * m * c + 2 * m ≤ n) :
    Works (0 : F) n (fun a c => block m wm a (2 * m * c))
      (fun c p => 2 * m * c ≤ p ∧ p < 2 * m * c + 2 * m)
      (fun c => blocked (2 * m * c) m wm) c := by
  refine ⟨fun a length => (block_spec wm fits length).1, fun a length p other => ?_,
    fun a length p own => ?_, fun f g agree p own => ?_⟩
  · exact (block_spec wm fits length).2.2 p other
  · exact (block_spec wm fits length).2.1 p own.1 own.2
  · by_cases lower : p < 2 * m * c + m
    · rw [blocked, blocked, if_pos lower, if_pos lower, agree p own, agree (p + m) (by omega)]
    · rw [blocked, blocked, if_neg lower, if_neg lower, agree p own, agree (p - m) (by omega)]

private theorem stage_spec {n m : Nat} (wm : F) (whole : n / (2 * m) * (2 * m) = n) {a : List F}
    (size : a.length = n) :
    (stage n m wm a).length = n ∧ ∀ q < n / (2 * m), ∀ j < m,
      (stage n m wm a).getD (2 * m * q + j) 0 =
        a.getD (2 * m * q + j) 0 + wm ^ j * a.getD (2 * m * q + m + j) 0 ∧
      (stage n m wm a).getD (2 * m * q + m + j) 0 =
        a.getD (2 * m * q + j) 0 - wm ^ j * a.getD (2 * m * q + m + j) 0 := by
  -- one pass over the array turns each block into sums and differences of its halves
  have fits : ∀ c ∈ List.range (n / (2 * m)), 2 * m * c + 2 * m ≤ n := by
    intro c listed
    rw [List.mem_range] at listed
    calc 2 * m * c + 2 * m = (c + 1) * (2 * m) := by ring
      _ ≤ n / (2 * m) * (2 * m) := Nat.mul_le_mul_right _ listed
      _ = n := whole
  have apart : (List.range (n / (2 * m))).Pairwise fun c c' => ∀ p,
      (2 * m * c ≤ p ∧ p < 2 * m * c + 2 * m) → ¬ (2 * m * c' ≤ p ∧ p < 2 * m * c' + 2 * m) := by
    refine List.Pairwise.imp ?_ List.pairwise_lt_range
    intro c c' before p inside inside'
    have next : 2 * m * c + 2 * m ≤ 2 * m * c' := by
      rw [← Nat.mul_succ]
      exact Nat.mul_le_mul_left _ before
    omega
  obtain ⟨length, written, -⟩ := foldl_works (fun c listed => block_works wm (fits c listed)) apart size
  refine ⟨length, fun q within j small => ⟨?_, ?_⟩⟩
  · rw [stage, written q (List.mem_range.mpr within) _ (by omega), blocked, if_pos (by omega),
      Nat.add_sub_cancel_left, Nat.add_right_comm]
  · rw [stage, written q (List.mem_range.mpr within) _ (by omega), blocked, if_neg (by omega),
      show 2 * m * q + m + j - m = 2 * m * q + j by omega, Nat.add_sub_cancel_left]

/-! The whole transform. -/

section Rounds

variable {omega : F} {logn : Nat} {a : List F}

/-- After `s` rounds each block of `2 ^ s` elements holds the values of a part of the
coefficients: those `2 ^ (logn - s)` apart. -/
def Transformed (omega : F) (logn : Nat) (a : List F) (s : Nat) (b : List F) : Prop :=
  b.length = 2 ^ logn ∧ ∀ q < 2 ^ (logn - s), ∀ j < 2 ^ s,
    b.getD (2 ^ s * q + j) 0 = ∑ i ∈ range (2 ^ s),
      a.getD (bitreverse q (logn - s) + i * 2 ^ (logn - s)) 0 * ((omega ^ 2 ^ (logn - s)) ^ j) ^ i

private theorem transformed_reorder (size : a.length = 2 ^ logn) :
    Transformed omega logn a 0 (reorder logn a) := by
  obtain ⟨length, value⟩ := reorder_spec size
  refine ⟨length, fun q within j small => ?_⟩
  obtain rfl : j = 0 := by omega
  rw [Nat.sub_zero, pow_zero, one_mul, Nat.add_zero, value q within]
  simp

private theorem Transformed.stage {s : Nat} {b : List F}
    (transformed : Transformed omega logn a s b)
    (more : s < logn) (root : omega ^ 2 ^ (logn - 1) = -1) :
    Transformed omega logn a (s + 1)
      (stage (2 ^ logn) (2 ^ s) (omega ^ (2 ^ logn / (2 * 2 ^ s))) b) := by
  obtain ⟨length, values⟩ := transformed
  have rest : logn - s = logn - (s + 1) + 1 := by omega
  have double : 2 * 2 ^ s = 2 ^ (s + 1) := (pow_succ' 2 s).symm
  have count : 2 ^ logn / (2 * 2 ^ s) = 2 ^ (logn - (s + 1)) := by
    rw [double, Nat.pow_div (by omega) (by decide)]
  have whole : 2 ^ logn / (2 * 2 ^ s) * (2 * 2 ^ s) = 2 ^ logn := by
    rw [count, double, ← pow_add, Nat.sub_add_cancel more]
  obtain ⟨length', parts⟩ := stage_spec (omega ^ (2 ^ logn / (2 * 2 ^ s))) whole length
  refine ⟨length', fun q within j small => ?_⟩
  rw [count] at parts ⊢
  set v := omega ^ 2 ^ (logn - (s + 1)) with twist
  have square : omega ^ 2 ^ (logn - s) = v ^ 2 := by
    rw [twist, ← pow_mul, rest, pow_succ]
  have turn : v ^ 2 ^ s = -1 := by
    rw [twist, ← pow_mul, ← pow_add, show logn - (s + 1) + s = logn - 1 by omega, root]
  -- the values of the even and of the odd part
  have even : ∀ i < 2 ^ s, b.getD (2 * 2 ^ s * q + i) 0 = ∑ k ∈ range (2 ^ s),
      a.getD (bitreverse q (logn - (s + 1)) + 2 * k * 2 ^ (logn - (s + 1))) 0 *
        ((v ^ i) ^ 2) ^ k := by
    intro i below
    rw [show 2 * 2 ^ s * q + i = 2 ^ s * (2 * q) + i by ring,
      values (2 * q) (by rw [rest, pow_succ]; omega) i below, square, rest, bitreverse_succ_low,
      Nat.mul_mod_right, Nat.zero_mul, Nat.zero_add, Nat.mul_div_cancel_left _ (by decide)]
    refine sum_congr rfl fun k _ => ?_
    rw [pow_right_comm v 2 i, pow_succ, show k * (2 ^ (logn - (s + 1)) * 2) =
      2 * k * 2 ^ (logn - (s + 1)) by ring]
  have odd : ∀ i < 2 ^ s, b.getD (2 * 2 ^ s * q + 2 ^ s + i) 0 = ∑ k ∈ range (2 ^ s),
      a.getD (bitreverse q (logn - (s + 1)) + (2 * k + 1) * 2 ^ (logn - (s + 1))) 0 *
        ((v ^ i) ^ 2) ^ k := by
    intro i below
    rw [show 2 * 2 ^ s * q + 2 ^ s + i = 2 ^ s * (2 * q + 1) + i by ring,
      values (2 * q + 1) (by rw [rest, pow_succ]; omega) i below, square, rest,
      bitreverse_succ_low, show (2 * q + 1) % 2 = 1 by omega, show (2 * q + 1) / 2 = q by omega]
    refine sum_congr rfl fun k _ => ?_
    rw [pow_right_comm v 2 i, pow_succ, show 1 * 2 ^ (logn - (s + 1)) +
      bitreverse q (logn - (s + 1)) + k * (2 ^ (logn - (s + 1)) * 2) =
        bitreverse q (logn - (s + 1)) + (2 * k + 1) * 2 ^ (logn - (s + 1)) by ring]
  rw [← double, sum_even_odd fun i =>
    a.getD (bitreverse q (logn - (s + 1)) + i * 2 ^ (logn - (s + 1))) 0]
  by_cases lower : j < 2 ^ s
  · rw [(parts q within j lower).1, even j lower, odd j lower]
  · have below : j - 2 ^ s < 2 ^ s := by omega
    have power : v ^ j = -v ^ (j - 2 ^ s) := by
      rw [← neg_one_mul, ← turn, ← pow_add, Nat.add_sub_cancel' (by omega)]
    rw [show 2 * 2 ^ s * q + j = 2 * 2 ^ s * q + 2 ^ s + (j - 2 ^ s) by omega,
      (parts q within _ below).2, even _ below, odd _ below, power, neg_sq]
    ring

private theorem transformed_rounds (size : a.length = 2 ^ logn)
    (root : logn ≠ 0 → omega ^ 2 ^ (logn - 1) = -1) {s : Nat} (within : s ≤ logn) :
    ∃ b, Transformed omega logn a s b ∧ (List.range s).foldl (fun (state : List F × Nat) _ =>
      (stage (2 ^ logn) state.2 (omega ^ (2 ^ logn / (2 * state.2))) state.1, 2 * state.2))
        (reorder logn a, 1) = (b, 2 ^ s) := by
  induction s with
  | zero => exact ⟨reorder logn a, transformed_reorder size, rfl⟩
  | succ s ih =>
    obtain ⟨b, transformed, run⟩ := ih (by omega)
    refine ⟨_, transformed.stage (by omega) (root (by omega)), ?_⟩
    rw [List.range_succ, List.foldl_append, run, pow_succ']
    rfl

theorem basicSerialRadix2FFT_spec (size : a.length = 2 ^ logn)
    (root : logn ≠ 0 → omega ^ 2 ^ (logn - 1) = -1) :
    ∃ b, basicSerialRadix2FFT a omega = some b ∧ b.length = 2 ^ logn ∧
      ∀ k < 2 ^ logn, b.getD k 0 = evalAt a (omega ^ k) := by
  obtain ⟨b, ⟨length, values⟩, run⟩ := transformed_rounds size root (le_refl logn)
  refine ⟨b, ?_, length, fun k within => ?_⟩
  · rw [basicSerialRadix2FFT, size, log2_two_pow, if_pos rfl, run]
  · have value := values 0 (by simp) k within
    rw [Nat.mul_zero, Nat.zero_add] at value
    rw [value, evalAt, size, Nat.sub_self]
    simp [bitreverse]

end Rounds

end CbDaemon.Snark.Fft
