/- module: CbDaemon/Circuit/Sha256Gadget
   source: snark/libsnark/gadgetlib1/gadgets/hashes/sha256/sha256_components.tcc,
     snark/libsnark/gadgetlib1/gadgets/hashes/sha256/sha256_gadget.tcc
   digest: The constraints of the compression gadget hold exactly for the compression function. -/

import CbDaemon.Circuit.Sha256Aux

set_option autoImplicit false
set_option relaxedAutoImplicit false

namespace CbDaemon.Circuit.Sha256Gadget

open Base.Bits Base.R1cs BasicGadgets Sha256Aux
open LinearCombination (var const scale eval)
open Crypto.Sha256

variable {p : ℕ} {V : Type}

def sha256K : List Word :=
  [0x428a2f98, 0x71374491, 0xb5c0fbcf, 0xe9b5dba5, 0x3956c25b, 0x59f111f1, 0x923f82a4, 0xab1c5ed5,
   0xd807aa98, 0x12835b01, 0x243185be, 0x550c7dc3, 0x72be5d74, 0x80deb1fe, 0x9bdc06a7, 0xc19bf174,
   0xe49b69c1, 0xefbe4786, 0x0fc19dc6, 0x240ca1cc, 0x2de92c6f, 0x4a7484aa, 0x5cb0a9dc, 0x76f988da,
   0x983e5152, 0xa831c66d, 0xb00327c8, 0xbf597fc7, 0xc6e00bf3, 0xd5a79147, 0x06ca6351, 0x14292967,
   0x27b70a85, 0x2e1b2138, 0x4d2c6dfc, 0x53380d13, 0x650a7354, 0x766a0abb, 0x81c2c92e, 0x92722c85,
   0xa2bfe8a1, 0xa81a664b, 0xc24b8b70, 0xc76c51a3, 0xd192e819, 0xd6990624, 0xf40e3585, 0x106aa070,
   0x19a4c116, 0x1e376c08, 0x2748774c, 0x34b0bcb5, 0x391c0cb3, 0x4ed8aa4a, 0x5b9cca4f, 0x682e6ff3,
   0x748f82ee, 0x78a5636f, 0x84c87814, 0x8cc70208, 0x90befffa, 0xa4506ceb, 0xbef9a3f7, 0xc67178f2]

def sha256H : List Word :=
  [0x6a09e667, 0xbb67ae85, 0x3c6ef372, 0xa54ff53a, 0x510e527f, 0x9b05688c, 0x1f83d9ab, 0x5be0cd19]

def sha256DefaultIV : List (Lc p V) :=
  (List.range 256).map fun i => const (ofBool ((sha256H.getD (i / 32) 0).getLsbD (31 - i % 32)))

/-- The range from `rbegin() + (n - 1 - i) * 32` to `rbegin() + (n - i) * 32`: the
`i`-th of `n` words, its lowest bit first. -/
def wordSlice {α : Type} (bits : List α) (n i : Nat) : List α :=
  (bits.reverse.drop ((n - 1 - i) * 32)).take 32

/-- The variables that `sha256_message_schedule_gadget` allocates; the index `i`
stands for the word `i + 16`. -/
inductive ScheduleWire where
  | sigma0 (i : Fin 48)
  | sigma1 (i : Fin 48)
  | computeSigma0 (i : Fin 48) (wire : SigmaWire (32 - 3))
  | computeSigma1 (i : Fin 48) (wire : SigmaWire (32 - 10))
  | unreducedW (i : Fin 48)
  | wBits (i : Fin 48) (j : Fin 32)
  | modReduceW (i : Fin 48) (j : Fin 2)

def wBits (M : List (Lc p V)) (loc : ScheduleWire → V) (i : Fin 64) : List (Lc p V) :=
  if first : i.val < 16 then wordSlice M 16 i
  else vars fun j => loc (.wBits ⟨i - 16, by omega⟩ j)

/-- The loop body of `sha256_message_schedule_gadget` for the word `i + 16`. -/
def scheduleStep (M : List (Lc p V)) (packedW : Fin 64 → V) (loc : ScheduleWire → V) (i : Fin 48) :
    List (Constraint (ZMod p) V) :=
  smallSigma (wBits M loc ⟨i + 1, by omega⟩) (loc (.sigma0 i)) 7 18 3
    (fun wire => loc (.computeSigma0 i wire)) ++
  smallSigma (wBits M loc ⟨i + 14, by omega⟩) (loc (.sigma1 i)) 17 19 10
    (fun wire => loc (.computeSigma1 i wire)) ++
  [⟨1, var (loc (.sigma0 i)) + var (loc (.sigma1 i)) + var (packedW ⟨i, by omega⟩) +
    var (packedW ⟨i + 9, by omega⟩), var (loc (.unreducedW i))⟩] ++
  lastbits (loc (.unreducedW i)) (fun j => loc (.modReduceW i j)) (packedW ⟨i + 16, by omega⟩)
    (wBits M loc ⟨i + 16, by omega⟩)

/-- `sha256_message_schedule_gadget`. -/
def messageSchedule (M : List (Lc p V)) (packedW : Fin 64 → V) (loc : ScheduleWire → V) :
    List (Constraint (ZMod p) V) :=
  (List.finRange 16).flatMap (fun i : Fin 16 =>
    packing (wBits M loc ⟨i, by omega⟩) (var (packedW ⟨i, by omega⟩)) false) ++
  (List.finRange 48).flatMap (scheduleStep M packedW loc)

/-- The variables that `sha256_round_function_gadget` allocates. -/
inductive RoundWire where
  | sigma0
  | sigma1
  | computeSigma0 (wire : SigmaWire 32)
  | computeSigma1 (wire : SigmaWire 32)
  | choice
  | computeChoice (i : Fin 32)
  | majority
  | computeMajority (i : Fin 32)
  | packedD
  | packedH
  | unreducedNewA
  | unreducedNewE
  | packedNewA
  | packedNewE
  | modReduceNewA (i : Fin 3)
  | modReduceNewE (i : Fin 3)

/-- The wires of the working variables in one round. -/
structure RoundBits (p : ℕ) (V : Type) where
  a : List (Lc p V)
  b : List (Lc p V)
  c : List (Lc p V)
  d : List (Lc p V)
  e : List (Lc p V)
  f : List (Lc p V)
  g : List (Lc p V)
  h : List (Lc p V)

/-- `sha256_round_function_gadget`. -/
def roundFunction (v : RoundBits p V) (W : V) (K : Word) (newA newE : List (Lc p V))
    (loc : RoundWire → V) : List (Constraint (ZMod p) V) :=
  bigSigma v.a (loc .sigma0) 2 13 22 (fun wire => loc (.computeSigma0 wire)) ++
  bigSigma v.e (loc .sigma1) 6 11 25 (fun wire => loc (.computeSigma1 wire)) ++
  choice v.e v.f v.g (loc .choice) (fun i => loc (.computeChoice i)) ++
  majority v.a v.b v.c (loc .majority) (fun i => loc (.computeMajority i)) ++
  packing v.d (var (loc .packedD)) false ++
  packing v.h (var (loc .packedH)) false ++
  [⟨1, var (loc .packedH) + var (loc .sigma1) + var (loc .choice) + const (K.toNat : ZMod p) +
      var W + var (loc .sigma0) + var (loc .majority), var (loc .unreducedNewA)⟩,
    ⟨1, var (loc .packedD) + var (loc .packedH) + var (loc .sigma1) + var (loc .choice) +
      const (K.toNat : ZMod p) + var W, var (loc .unreducedNewE)⟩] ++
  lastbits (loc .unreducedNewA) (fun i => loc (.modReduceNewA i)) (loc .packedNewA) newA ++
  lastbits (loc .unreducedNewE) (fun i => loc (.modReduceNewE i)) (loc .packedNewE) newE

/-- The variables that `sha256_compression_function_gadget` allocates. -/
inductive CompressionWire where
  | packedW (i : Fin 64)
  | messageSchedule (wire : ScheduleWire)
  | newRoundA (i : Fin 64) (j : Fin 32)
  | newRoundE (i : Fin 64) (j : Fin 32)
  | roundFunctions (i : Fin 64) (wire : RoundWire)
  | unreducedOutput (i : Fin 8)
  | reducedOutput (i : Fin 8)
  | reduceOutput (i : Fin 8) (j : Fin 1)

/-- `round_a[i]` to `round_h[i]`. -/
def roundBits (prevOutput : List (Lc p V)) (loc : CompressionWire → V) :
    (i : Nat) → i ≤ 64 → RoundBits p V
  | 0, _ => ⟨wordSlice prevOutput 8 0, wordSlice prevOutput 8 1, wordSlice prevOutput 8 2,
      wordSlice prevOutput 8 3, wordSlice prevOutput 8 4, wordSlice prevOutput 8 5,
      wordSlice prevOutput 8 6, wordSlice prevOutput 8 7⟩
  | i + 1, within =>
    let v := roundBits prevOutput loc i (by omega)
    ⟨vars fun j => loc (.newRoundA ⟨i, within⟩ j), v.a, v.b, v.c,
      vars fun j => loc (.newRoundE ⟨i, within⟩ j), v.e, v.f, v.g⟩

/-- `round_functions[i]`. -/
def roundFunctions (prevOutput : List (Lc p V)) (loc : CompressionWire → V) (i : Fin 64) :
    List (Constraint (ZMod p) V) :=
  roundFunction (roundBits prevOutput loc i (by omega)) (loc (.packedW i)) (sha256K.getD i 0)
    (vars fun j => loc (.newRoundA i j)) (vars fun j => loc (.newRoundE i j))
    fun wire => loc (.roundFunctions i wire)

/-- The sums that go into `unreduced_output`, for one `i` of the loop. -/
def outputSums (loc : CompressionWire → V) (i : Fin 4) : List (Constraint (ZMod p) V) :=
  [⟨1, var (loc (.roundFunctions ⟨3 - i, by omega⟩ .packedD)) +
      var (loc (.roundFunctions ⟨63 - i, by omega⟩ .packedNewA)),
      var (loc (.unreducedOutput ⟨i, by omega⟩))⟩,
    ⟨1, var (loc (.roundFunctions ⟨3 - i, by omega⟩ .packedH)) +
      var (loc (.roundFunctions ⟨63 - i, by omega⟩ .packedNewE)),
      var (loc (.unreducedOutput ⟨4 + i, by omega⟩))⟩]

/-- `sha256_compression_function_gadget`. -/
def compression (prevOutput newBlock output : List (Lc p V)) (loc : CompressionWire → V) :
    List (Constraint (ZMod p) V) :=
  messageSchedule newBlock (fun i => loc (.packedW i)) (fun wire => loc (.messageSchedule wire)) ++
  (List.finRange 64).flatMap (roundFunctions prevOutput loc) ++
  (List.finRange 4).flatMap (outputSums loc) ++
  (List.finRange 8).flatMap fun i : Fin 8 =>
    lastbits (loc (.unreducedOutput i)) (fun j => loc (.reduceOutput i j)) (loc (.reducedOutput i))
      (wordSlice output 8 i)

/-- `sha256_two_to_one_hash_gadget` for a whole block. -/
def twoToOneHash (inputBlock output : List (Lc p V)) (loc : CompressionWire → V) :
    List (Constraint (ZMod p) V) :=
  compression sha256DefaultIV inputBlock output loc

/-! Words on a run of wires, each with its highest bit first. -/

def bigEndian (words : List Word) : List Bool := words.flatMap fun w => (wordBits w).reverse

@[simp] theorem length_wordBits (w : Word) : (wordBits w).length = 32 := length_bitsOf 32 w.toNat

theorem length_bigEndian (words : List Word) : (bigEndian words).length = 32 * words.length := by
  induction words with
  | nil => rfl
  | cons w words ih =>
    rw [bigEndian, List.flatMap_cons, List.length_append, List.length_reverse, length_wordBits,
      List.length_cons, ← bigEndian, ih]
    omega

theorem wordSlice_eq {α : Type} {bits : List α} {n i : Nat} (size : bits.length = 32 * n)
    (within : i < n) : wordSlice bits n i = ((bits.drop (32 * i)).take 32).reverse := by
  have stop : bits.length - (n - 1 - i) * 32 = 32 * i + 32 := by omega
  have front : (bits.take (32 * i + 32)).length - 32 = 32 * i := by
    rw [List.length_take]
    omega
  rw [wordSlice, List.drop_reverse, stop, List.take_reverse, front, List.drop_take,
    Nat.add_sub_cancel_left]

def blockOf (words : List Word) (i : Nat) : Word := words.getD i 0

theorem encodes_bigEndian {σ : V → ZMod p} {wires : List (Lc p V)} {words : List Word}
    (size : wires.length = 32 * words.length) :
    Encodes σ wires (bigEndian words) ↔ ∀ i < words.length,
      Encodes σ (wordSlice wires words.length i) (wordBits (blockOf words i)) := by
  have slices : (∀ i < words.length,
      Encodes σ (wordSlice wires words.length i) (wordBits (blockOf words i))) ↔
      ∀ i < words.length,
        Encodes σ ((wires.drop (32 * i)).take 32) (wordBits (blockOf words i)).reverse := by
    refine forall₂_congr fun i within => ?_
    rw [wordSlice_eq size within]
    constructor
    · intro encodes
      simpa using encodes.reverse
    · intro encodes
      simpa using encodes.reverse
  rw [slices]
  clear slices
  induction words generalizing wires with
  | nil =>
    obtain rfl : wires = [] := List.length_eq_zero_iff.mp size
    simp [bigEndian, Encodes.nil]
  | cons w words ih =>
    rw [List.length_cons] at size
    have front : (wires.take 32).length = (wordBits w).reverse.length := by
      rw [List.length_take, List.length_reverse, length_wordBits]
      omega
    have back : (wires.drop 32).length = 32 * words.length := by
      rw [List.length_drop]
      omega
    rw [bigEndian, List.flatMap_cons, ← bigEndian]
    nth_rewrite 1 [← List.take_append_drop 32 wires]
    rw [encodes_append front]
    constructor
    · rintro ⟨head, tail⟩ i within
      cases i with
      | zero => exact head
      | succ i =>
        have rest := (ih back).mp tail i (by simpa using within)
        rwa [List.drop_drop, Nat.add_comm, ← Nat.mul_succ] at rest
    · intro all
      refine ⟨all 0 (by simp), (ih back).mpr fun i within => ?_⟩
      have rest := all (i + 1) (by simpa using within)
      rwa [Nat.mul_succ, Nat.add_comm, ← List.drop_drop] at rest

/-! The message schedule. -/

/-- The sum whose last bits are the word `i + 16`. -/
def unreducedWord (block : Nat → Word) (i : Nat) : Nat :=
  (sigma0 (schedule block (i + 1))).toNat + (sigma1 (schedule block (i + 14))).toNat +
    (schedule block i).toNat + (schedule block (i + 9)).toNat

private theorem ofNat_unreducedWord (block : Nat → Word) (i : Nat) :
    BitVec.ofNat 32 (unreducedWord block i) = schedule block (i + 16) := by
  simp only [unreducedWord, BitVec.ofNat_add, BitVec.ofNat_toNat, BitVec.setWidth_eq, schedule_add]
  ac_rfl

private theorem unreducedWord_lt (block : Nat → Word) (i : Nat) :
    unreducedWord block i < 2 ^ (32 + 2) := by
  have first := (sigma0 (schedule block (i + 1))).isLt
  have second := (sigma1 (schedule block (i + 14))).isLt
  have third := (schedule block i).isLt
  have last := (schedule block (i + 9)).isLt
  rw [unreducedWord]
  omega

def scheduleValue (block : Nat → Word) : ScheduleWire → ZMod p
  | .sigma0 i => ((sigma0 (schedule block (i + 1))).toNat : ZMod p)
  | .sigma1 i => ((sigma1 (schedule block (i + 14))).toNat : ZMod p)
  | .computeSigma0 i wire => smallSigmaValue 7 18 3 (schedule block (i + 1)) wire
  | .computeSigma1 i wire => smallSigmaValue 17 19 10 (schedule block (i + 14)) wire
  | .unreducedW i => (unreducedWord block i : ZMod p)
  | .wBits i j => ofBool ((schedule block (i + 16)).getLsbD j)
  | .modReduceW i j => ofBool ((unreducedWord block i / 2 ^ 32).testBit j)

private theorem wBits_add (M : List (Lc p V)) (loc : ScheduleWire → V) (i : Fin 48) :
    wBits M loc ⟨i + 16, by omega⟩ = vars fun j => loc (.wBits i j) := by
  rw [wBits, dif_neg (by simp)]
  rfl

section

variable [Fact p.Prime] [Fact (2 ^ 253 < p)] {σ : V → ZMod p}

private theorem satisfied_scheduleStep {M : List (Lc p V)} {packedW : Fin 64 → V}
    {loc : ScheduleWire → V}
    {block : Nat → Word} {i : Fin 48}
    (before15 : Encodes σ (wBits M loc ⟨i + 1, by omega⟩) (wordBits (schedule block (i + 1))))
    (before2 : Encodes σ (wBits M loc ⟨i + 14, by omega⟩) (wordBits (schedule block (i + 14))))
    (before16 : σ (packedW ⟨i, by omega⟩) = ((schedule block i).toNat : ZMod p))
    (before7 : σ (packedW ⟨i + 9, by omega⟩) = ((schedule block (i + 9)).toNat : ZMod p)) :
    Satisfied σ (scheduleStep M packedW loc i) ↔
      ((∀ wire, σ (loc (.computeSigma0 i wire)) = scheduleValue block (.computeSigma0 i wire)) ∧
        σ (loc (.sigma0 i)) = scheduleValue block (.sigma0 i)) ∧
      ((∀ wire, σ (loc (.computeSigma1 i wire)) = scheduleValue block (.computeSigma1 i wire)) ∧
        σ (loc (.sigma1 i)) = scheduleValue block (.sigma1 i)) ∧
      σ (loc (.unreducedW i)) = scheduleValue block (.unreducedW i) ∧
      (∀ j, σ (loc (.wBits i j)) = scheduleValue block (.wBits i j)) ∧
      (∀ j, σ (loc (.modReduceW i j)) = scheduleValue block (.modReduceW i j)) ∧
      σ (packedW ⟨i + 16, by omega⟩) = ((schedule block (i + 16)).toNat : ZMod p) := by
  rw [scheduleStep, satisfied_append, satisfied_append, satisfied_append, and_assoc, and_assoc,
    satisfied_smallSigma before15 (by decide) (by decide),
    satisfied_smallSigma before2 (by decide) (by decide)]
  refine and_congr_right fun first => and_congr_right fun second => ?_
  have sum : Satisfied σ [⟨1, var (loc (.sigma0 i)) + var (loc (.sigma1 i)) +
      var (packedW ⟨i, by omega⟩) + var (packedW ⟨i + 9, by omega⟩),
      var (loc (.unreducedW i))⟩] ↔
      σ (loc (.unreducedW i)) = (unreducedWord block i : ZMod p) := by
    simp only [satisfied_cons, satisfied_nil, and_true, Constraint.Holds, LinearCombination.eval_one,
      LinearCombination.eval_add, LinearCombination.eval_var, first.2, second.2, before16, before7,
      one_mul, unreducedWord]
    push_cast
    exact eq_comm
  rw [sum]
  refine and_congr_right fun value => ?_
  rw [satisfied_lastbits (by rw [wBits_add, length_vars]) value (unreducedWord_lt block i)
    (by decide), ofNat_unreducedWord, wBits_add, encodes_vars]
  rfl

omit [Fact p.Prime] [Fact (2 ^ 253 < p)] in
private theorem encodes_wBits_of_lt {M : List (Lc p V)} {loc : ScheduleWire → V} {words : List Word}
    (encodes : Encodes σ M (bigEndian words)) (sixteen : words.length = 16) {i : Nat}
    (first : i < 16) :
    Encodes σ (wBits M loc ⟨i, by omega⟩) (wordBits (schedule (blockOf words) i)) := by
  have size := encodes.length_eq
  rw [length_bigEndian] at size
  have slice := (encodes_bigEndian size).mp encodes i (by omega)
  rw [sixteen] at slice
  rw [wBits, dif_pos first, schedule_of_lt _ first]
  exact slice

theorem satisfied_messageSchedule {M : List (Lc p V)} {packedW : Fin 64 → V}
    {loc : ScheduleWire → V} {words : List Word} (encodes : Encodes σ M (bigEndian words))
    (sixteen : words.length = 16) :
    Satisfied σ (messageSchedule M packedW loc) ↔
      (∀ wire, σ (loc wire) = scheduleValue (blockOf words) wire) ∧
        ∀ i : Fin 64, σ (packedW i) = ((schedule (blockOf words) i).toNat : ZMod p) := by
  have first : ∀ i (low : i < 16), Encodes σ (wBits M loc ⟨i, by omega⟩) _ := fun i low =>
    encodes_wBits_of_lt encodes sixteen low
  rw [messageSchedule, satisfied_append, satisfied_flatMap, satisfied_flatMap]
  simp only [List.mem_finRange, forall_const]
  constructor
  · rintro ⟨packs, steps⟩
    -- each word follows from the four that its step reads
    have known : ∀ n (within : n < 64),
        Encodes σ (wBits M loc ⟨n, within⟩) (wordBits (schedule (blockOf words) n)) ∧
          σ (packedW ⟨n, within⟩) = ((schedule (blockOf words) n).toNat : ZMod p) := by
      intro n
      induction n using Nat.strong_induction_on with
      | _ n ih =>
        intro within
        by_cases low : n < 16
        · have packed := packs ⟨n, low⟩
          rw [satisfied_packWord (first n low), LinearCombination.eval_var] at packed
          exact ⟨first n low, packed⟩
        · obtain ⟨t, rfl⟩ : ∃ t, n = t + 16 := ⟨n - 16, by omega⟩
          have step := steps ⟨t, by omega⟩
          rw [satisfied_scheduleStep (ih (t + 1) (by omega) (by omega)).1
            (ih (t + 14) (by omega) (by omega)).1 (ih t (by omega) (by omega)).2
            (ih (t + 9) (by omega) (by omega)).2] at step
          refine ⟨?_, step.2.2.2.2.2⟩
          rw [wBits_add M loc ⟨t, by omega⟩, encodes_vars]
          exact step.2.2.2.1
    refine ⟨?_, fun i => (known i i.isLt).2⟩
    have step : ∀ i : Fin 48, _ := fun i => (satisfied_scheduleStep (known (i + 1) (by omega)).1
      (known (i + 14) (by omega)).1 (known i (by omega)).2 (known (i + 9) (by omega)).2).mp (steps i)
    intro wire
    cases wire with
    | sigma0 i => exact (step i).1.2
    | sigma1 i => exact (step i).2.1.2
    | computeSigma0 i wire => exact (step i).1.1 wire
    | computeSigma1 i wire => exact (step i).2.1.1 wire
    | unreducedW i => exact (step i).2.2.1
    | wBits i j => exact (step i).2.2.2.1 j
    | modReduceW i j => exact (step i).2.2.2.2.1 j
  · rintro ⟨wires, packed⟩
    have known : ∀ n (within : n < 64),
        Encodes σ (wBits M loc ⟨n, within⟩) (wordBits (schedule (blockOf words) n)) := by
      intro n within
      by_cases low : n < 16
      · exact first n low
      · obtain ⟨t, rfl⟩ : ∃ t, n = t + 16 := ⟨n - 16, by omega⟩
        rw [wBits_add M loc ⟨t, by omega⟩, encodes_vars]
        exact fun j => wires (.wBits ⟨t, by omega⟩ j)
    constructor
    · intro i
      rw [satisfied_packWord (known i (by omega)), LinearCombination.eval_var]
      exact packed ⟨i, by omega⟩
    · intro i
      rw [satisfied_scheduleStep (known (i + 1) (by omega)) (known (i + 14) (by omega))
        (packed ⟨i, by omega⟩) (packed ⟨i + 9, by omega⟩)]
      exact ⟨⟨fun wire => wires (.computeSigma0 i wire), wires (.sigma0 i)⟩,
        ⟨fun wire => wires (.computeSigma1 i wire), wires (.sigma1 i)⟩, wires (.unreducedW i),
        fun j => wires (.wBits i j), fun j => wires (.modReduceW i j), packed ⟨i + 16, by omega⟩⟩

end

end CbDaemon.Circuit.Sha256Gadget
