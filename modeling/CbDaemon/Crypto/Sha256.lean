/- module: CbDaemon/Crypto/Sha256
   source: crypto/sha256.cpp, crypto/common.h
   digest: The unrolled transformation of a chunk is the compression function of SHA-256. -/

import Mathlib.Data.List.Basic
import Mathlib.Data.Nat.Init
import Mathlib.Tactic.Common
import Mathlib.Tactic.IntervalCases

set_option autoImplicit false
set_option relaxedAutoImplicit false

namespace CbDaemon.Crypto.Sha256

/-- `uint32_t`. -/
abbrev Word := BitVec 32

def ch (x y z : Word) : Word := z ^^^ (x &&& (y ^^^ z))

def maj (x y z : Word) : Word := (x &&& y) ||| (z &&& (x ||| y))

/-- `Sigma0`. -/
def bigSigma0 (x : Word) : Word :=
  (x >>> 2 ||| x <<< 30) ^^^ (x >>> 13 ||| x <<< 19) ^^^ (x >>> 22 ||| x <<< 10)

/-- `Sigma1`. -/
def bigSigma1 (x : Word) : Word :=
  (x >>> 6 ||| x <<< 26) ^^^ (x >>> 11 ||| x <<< 21) ^^^ (x >>> 25 ||| x <<< 7)

def sigma0 (x : Word) : Word :=
  (x >>> 7 ||| x <<< 25) ^^^ (x >>> 18 ||| x <<< 14) ^^^ (x >>> 3)

def sigma1 (x : Word) : Word :=
  (x >>> 17 ||| x <<< 15) ^^^ (x >>> 19 ||| x <<< 13) ^^^ (x >>> 10)

/-- The eight words of a state, or the eight working variables. -/
@[ext]
structure Registers where
  a : Word
  b : Word
  c : Word
  d : Word
  e : Word
  f : Word
  g : Word
  h : Word
  deriving DecidableEq

/-- `Initialize`. -/
def initialState : Registers :=
  ⟨0x6a09e667, 0xbb67ae85, 0x3c6ef372, 0xa54ff53a, 0x510e527f, 0x9b05688c, 0x1f83d9ab, 0x5be0cd19⟩

def roundConstants : List Word :=
  [0x428a2f98, 0x71374491, 0xb5c0fbcf, 0xe9b5dba5, 0x3956c25b, 0x59f111f1, 0x923f82a4, 0xab1c5ed5,
   0xd807aa98, 0x12835b01, 0x243185be, 0x550c7dc3, 0x72be5d74, 0x80deb1fe, 0x9bdc06a7, 0xc19bf174,
   0xe49b69c1, 0xefbe4786, 0x0fc19dc6, 0x240ca1cc, 0x2de92c6f, 0x4a7484aa, 0x5cb0a9dc, 0x76f988da,
   0x983e5152, 0xa831c66d, 0xb00327c8, 0xbf597fc7, 0xc6e00bf3, 0xd5a79147, 0x06ca6351, 0x14292967,
   0x27b70a85, 0x2e1b2138, 0x4d2c6dfc, 0x53380d13, 0x650a7354, 0x766a0abb, 0x81c2c92e, 0x92722c85,
   0xa2bfe8a1, 0xa81a664b, 0xc24b8b70, 0xc76c51a3, 0xd192e819, 0xd6990624, 0xf40e3585, 0x106aa070,
   0x19a4c116, 0x1e376c08, 0x2748774c, 0x34b0bcb5, 0x391c0cb3, 0x4ed8aa4a, 0x5b9cca4f, 0x682e6ff3,
   0x748f82ee, 0x78a5636f, 0x84c87814, 0x8cc70208, 0x90befffa, 0xa4506ceb, 0xbef9a3f7, 0xc67178f2]

def roundConstant (i : Nat) : Word := roundConstants.getD i 0

/-- `Round`: the new values of `d` and `h`. -/
def round (a b c d e f g h k w : Word) : Word × Word :=
  let t1 := h + bigSigma1 e + ch e f g + k + w
  let t2 := bigSigma0 a + maj a b c
  (d + t1, t1 + t2)

/-- The `i`-th call of `Round` in `Transform`. No variable moves: the arguments of
each call are those of the one before, turned by one place. -/
def callRound (i : Nat) (k w : Word) (v : Registers) : Registers :=
  match i % 8 with
  | 0 => let (d, h) := round v.a v.b v.c v.d v.e v.f v.g v.h k w; { v with d, h }
  | 1 => let (c, g) := round v.h v.a v.b v.c v.d v.e v.f v.g k w; { v with c, g }
  | 2 => let (b, f) := round v.g v.h v.a v.b v.c v.d v.e v.f k w; { v with b, f }
  | 3 => let (a, e) := round v.f v.g v.h v.a v.b v.c v.d v.e k w; { v with a, e }
  | 4 => let (h, d) := round v.e v.f v.g v.h v.a v.b v.c v.d k w; { v with h, d }
  | 5 => let (g, c) := round v.d v.e v.f v.g v.h v.a v.b v.c k w; { v with g, c }
  | 6 => let (f, b) := round v.c v.d v.e v.f v.g v.h v.a v.b k w; { v with f, b }
  | _ => let (e, a) := round v.b v.c v.d v.e v.f v.g v.h v.a k w; { v with e, a }

/-- `ReadBE32`, at an offset into the chunk. -/
def readBE32 (chunk : List UInt8) (offset : Nat) : Word :=
  (chunk.getD offset 0).toBitVec ++ (chunk.getD (offset + 1) 0).toBitVec ++
    (chunk.getD (offset + 2) 0).toBitVec ++ (chunk.getD (offset + 3) 0).toBitVec

/-- The variables of `Transform`: `a` to `h` and `w0` to `w15`. -/
structure Working where
  regs : Registers
  w : Vector Word 16

/-- The word that the `i`-th call gets: read from the chunk in the first sixteen,
made of four earlier ones after that. -/
def messageWord (chunk : List UInt8) (i : Nat) (w : Vector Word 16) : Word :=
  if i < 16 then readBE32 chunk (4 * i)
  else w[i % 16] + (sigma1 w[(i + 14) % 16] + w[(i + 9) % 16] + sigma0 w[(i + 1) % 16])

/-- One line of `Transform`. The last two do not keep the word they make. -/
def transformLine (chunk : List UInt8) (v : Working) (i : Nat) : Working where
  regs := callRound i (roundConstant i) (messageWord chunk i v.w) v.regs
  w := if i < 62 then v.w.set (i % 16) (messageWord chunk i v.w) else v.w

/-- `s[0] += a` and so on. -/
def Registers.add (s v : Registers) : Registers :=
  ⟨s.a + v.a, s.b + v.b, s.c + v.c, s.d + v.d, s.e + v.e, s.f + v.f, s.g + v.g, s.h + v.h⟩

/-- `Transform`; what `w0` to `w15` hold before they are set is of no account. -/
def transform (s : Registers) (chunk : List UInt8) : Registers :=
  s.add ((List.range 64).foldl (transformLine chunk) ⟨s, Vector.replicate 16 0⟩).regs

/-! The compression function in its plain form: all variables move along in every
round, and the sixty-four words are made in advance. -/

def schedule (block : Nat → Word) (t : Nat) : Word :=
  if t < 16 then block t
  else sigma1 (schedule block (t - 2)) + schedule block (t - 7) + sigma0 (schedule block (t - 15)) +
    schedule block (t - 16)

theorem schedule_of_lt (block : Nat → Word) {t : Nat} (first : t < 16) :
    schedule block t = block t := by
  rw [schedule, if_pos first]

theorem schedule_add (block : Nat → Word) (t : Nat) :
    schedule block (t + 16) = sigma1 (schedule block (t + 14)) + schedule block (t + 9) +
      sigma0 (schedule block (t + 1)) + schedule block t := by
  rw [schedule, if_neg (by omega)]
  rfl

def step (k w : Word) (v : Registers) : Registers :=
  let t1 := v.h + bigSigma1 v.e + ch v.e v.f v.g + k + w
  let t2 := bigSigma0 v.a + maj v.a v.b v.c
  ⟨t1 + t2, v.a, v.b, v.c, v.d + t1, v.e, v.f, v.g⟩

def rounds (s : Registers) (block : Nat → Word) : Nat → Registers
  | 0 => s
  | n + 1 => step (roundConstant n) (schedule block n) (rounds s block n)

def compress (s : Registers) (block : Nat → Word) : Registers := s.add (rounds s block 64)

def chunkWords (chunk : List UInt8) (i : Nat) : Word := readBE32 chunk (4 * i)

/-- The variables as the `i`-th call of `Round` sees them. -/
def Registers.seen (i : Nat) (v : Registers) : Registers :=
  match i % 8 with
  | 0 => v
  | 1 => ⟨v.h, v.a, v.b, v.c, v.d, v.e, v.f, v.g⟩
  | 2 => ⟨v.g, v.h, v.a, v.b, v.c, v.d, v.e, v.f⟩
  | 3 => ⟨v.f, v.g, v.h, v.a, v.b, v.c, v.d, v.e⟩
  | 4 => ⟨v.e, v.f, v.g, v.h, v.a, v.b, v.c, v.d⟩
  | 5 => ⟨v.d, v.e, v.f, v.g, v.h, v.a, v.b, v.c⟩
  | 6 => ⟨v.c, v.d, v.e, v.f, v.g, v.h, v.a, v.b⟩
  | _ => ⟨v.b, v.c, v.d, v.e, v.f, v.g, v.h, v.a⟩

private theorem seen_callRound (i : Nat) (k w : Word) (v : Registers) :
    (callRound i k w v).seen (i + 1) = step k w (v.seen i) := by
  -- turning the arguments does what moving the variables does
  have turn : (i + 1) % 8 = (i % 8 + 1) % 8 := by omega
  have bound : i % 8 < 8 := Nat.mod_lt i (by decide)
  unfold Registers.seen callRound
  rw [turn]
  generalize i % 8 = r at bound
  interval_cases r <;> rfl

/-- The ring holds the last sixteen words of the schedule, each at its place; the
last two of all are never stored. -/
def RingHolds (chunk : List UInt8) (i : Nat) (w : Vector Word 16) : Prop :=
  ∀ t, t < i → t < 62 → i ≤ t + 16 → w[t % 16] = schedule (chunkWords chunk) t

private theorem messageWord_eq {chunk : List UInt8} {i : Nat} {w : Vector Word 16}
    (ring : RingHolds chunk i w) (within : i < 64) :
    messageWord chunk i w = schedule (chunkWords chunk) i := by
  unfold messageWord
  split_ifs with first
  · rw [schedule_of_lt _ first, chunkWords]
  · obtain ⟨t, rfl⟩ : ∃ t, i = t + 16 := ⟨i - 16, by omega⟩
    have oldest : w[(t + 16) % 16] = schedule (chunkWords chunk) t := by
      rw [← ring t (by omega) (by omega) (by omega)]
      simp only [Nat.add_mod_right]
    have second : w[(t + 16 + 14) % 16] = schedule (chunkWords chunk) (t + 14) := by
      rw [← ring (t + 14) (by omega) (by omega) (by omega)]
      simp only [Nat.add_right_comm t 16 14, Nat.add_mod_right]
    have seventh : w[(t + 16 + 9) % 16] = schedule (chunkWords chunk) (t + 9) := by
      rw [← ring (t + 9) (by omega) (by omega) (by omega)]
      simp only [Nat.add_right_comm t 16 9, Nat.add_mod_right]
    have next : w[(t + 16 + 1) % 16] = schedule (chunkWords chunk) (t + 1) := by
      rw [← ring (t + 1) (by omega) (by omega) (by omega)]
      simp only [Nat.add_right_comm t 16 1, Nat.add_mod_right]
    rw [oldest, second, seventh, next, schedule_add, BitVec.add_comm]

/-- After `i` lines the variables, as the next call sees them, are those of `i`
plain rounds. -/
structure Simulates (s : Registers) (chunk : List UInt8) (i : Nat) (v : Working) : Prop where
  regs : v.regs.seen i = rounds s (chunkWords chunk) i
  ring : RingHolds chunk i v.w

private theorem Simulates.transformLine {s : Registers} {chunk : List UInt8} {i : Nat} {v : Working}
    (sim : Simulates s chunk i v) (within : i < 64) :
    Simulates s chunk (i + 1) (transformLine chunk v i) := by
  have word := messageWord_eq sim.ring within
  constructor
  · rw [Sha256.transformLine, seen_callRound, sim.regs, word, rounds]
  · intro t old stored recent
    by_cases keeps : i < 62
    · simp only [Sha256.transformLine, keeps, if_true, word, Vector.getElem_set]
      by_cases last : t = i
      · subst last
        rw [if_pos rfl]
      · rw [if_neg (by omega)]
        exact sim.ring t (by omega) stored (by omega)
    · simp only [Sha256.transformLine, keeps, if_false]
      exact sim.ring t (by omega) stored (by omega)

private theorem simulates_lines (s : Registers) (chunk : List UInt8) {n : Nat} (within : n ≤ 64) :
    Simulates s chunk n
      ((List.range n).foldl (Sha256.transformLine chunk) ⟨s, Vector.replicate 16 0⟩) := by
  induction n with
  | zero => exact ⟨rfl, fun t old _ _ => absurd old (Nat.not_lt_zero t)⟩
  | succ n ih =>
    rw [List.range_succ, List.foldl_append, List.foldl_cons, List.foldl_nil]
    exact (ih (by omega)).transformLine (by omega)

/-- The unrolled `Transform`, with its turning arguments and its ring of sixteen
words, computes the compression function. -/
theorem transform_eq_compress (s : Registers) (chunk : List UInt8) :
    transform s chunk = compress s (chunkWords chunk) := by
  have sim := (simulates_lines s chunk (Nat.le_refl 64)).regs
  rw [transform, compress, ← sim]
  rfl

end CbDaemon.Crypto.Sha256
