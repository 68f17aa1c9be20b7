/- module: CbDaemon/Circuit/Sha256Compression
   source: snark/libsnark/gadgetlib1/gadgets/hashes/sha256/sha256_components.tcc,
     snark/libsnark/gadgetlib1/gadgets/hashes/sha256/sha256_gadget.tcc
   digest: Every wire of the compression gadget is determined, and its output is the compression. -/

import CbDaemon.Circuit.Sha256Gadget

set_option autoImplicit false
set_option relaxedAutoImplicit false

namespace CbDaemon.Circuit.Sha256Compression

open Base.Bits Base.R1cs BasicGadgets Sha256Aux Sha256Gadget
open LinearCombination (var const scale eval)
open Crypto.Sha256

variable {p : ℕ} {V : Type}

/-- The wires of a round carry the working variables. -/
structure RoundEncodes (σ : V → ZMod p) (v : RoundBits p V) (regs : Registers) : Prop where
  a : Encodes σ v.a (wordBits regs.a)
  b : Encodes σ v.b (wordBits regs.b)
  c : Encodes σ v.c (wordBits regs.c)
  d : Encodes σ v.d (wordBits regs.d)
  e : Encodes σ v.e (wordBits regs.e)
  f : Encodes σ v.f (wordBits regs.f)
  g : Encodes σ v.g (wordBits regs.g)
  h : Encodes σ v.h (wordBits regs.h)

/-- The sum whose last bits are the new `a`. -/
def unreducedA (regs : Registers) (k w : Word) : Nat :=
  regs.h.toNat + (bigSigma1 regs.e).toNat + (ch regs.e regs.f regs.g).toNat + k.toNat + w.toNat +
    (bigSigma0 regs.a).toNat + (maj regs.a regs.b regs.c).toNat

/-- The sum whose last bits are the new `e`. -/
def unreducedE (regs : Registers) (k w : Word) : Nat :=
  regs.d.toNat + regs.h.toNat + (bigSigma1 regs.e).toNat + (ch regs.e regs.f regs.g).toNat +
    k.toNat + w.toNat

private theorem ofNat_unreducedA (regs : Registers) (k w : Word) :
    BitVec.ofNat 32 (unreducedA regs k w) = (step k w regs).a := by
  simp only [unreducedA, BitVec.ofNat_add, BitVec.ofNat_toNat, BitVec.setWidth_eq, step]
  ac_rfl

private theorem ofNat_unreducedE (regs : Registers) (k w : Word) :
    BitVec.ofNat 32 (unreducedE regs k w) = (step k w regs).e := by
  simp only [unreducedE, BitVec.ofNat_add, BitVec.ofNat_toNat, BitVec.setWidth_eq, step]
  ac_rfl

private theorem unreduced_lt (regs : Registers) (k w : Word) :
    unreducedA regs k w < 2 ^ (32 + 3) ∧ unreducedE regs k w < 2 ^ (32 + 3) := by
  have h1 := regs.h.isLt
  have h2 := (bigSigma1 regs.e).isLt
  have h3 := (ch regs.e regs.f regs.g).isLt
  have h4 := (bigSigma0 regs.a).isLt
  have h5 := (maj regs.a regs.b regs.c).isLt
  have h6 := regs.d.isLt
  have h7 := k.isLt
  have h8 := w.isLt
  rw [unreducedA, unreducedE]
  omega

def roundValue (regs : Registers) (k w : Word) : RoundWire → ZMod p
  | .sigma0 => ((bigSigma0 regs.a).toNat : ZMod p)
  | .sigma1 => ((bigSigma1 regs.e).toNat : ZMod p)
  | .computeSigma0 wire => bigSigmaValue 2 13 22 regs.a wire
  | .computeSigma1 wire => bigSigmaValue 6 11 25 regs.e wire
  | .choice => ((ch regs.e regs.f regs.g).toNat : ZMod p)
  | .computeChoice i => ofBool ((ch regs.e regs.f regs.g).getLsbD i)
  | .majority => ((maj regs.a regs.b regs.c).toNat : ZMod p)
  | .computeMajority i => ofBool ((maj regs.a regs.b regs.c).getLsbD i)
  | .packedD => (regs.d.toNat : ZMod p)
  | .packedH => (regs.h.toNat : ZMod p)
  | .unreducedNewA => (unreducedA regs k w : ZMod p)
  | .unreducedNewE => (unreducedE regs k w : ZMod p)
  | .packedNewA => ((step k w regs).a.toNat : ZMod p)
  | .packedNewE => ((step k w regs).e.toNat : ZMod p)
  | .modReduceNewA i => ofBool ((unreducedA regs k w / 2 ^ 32).testBit i)
  | .modReduceNewE i => ofBool ((unreducedE regs k w / 2 ^ 32).testBit i)

def registerWords (s : Registers) : List Word := [s.a, s.b, s.c, s.d, s.e, s.f, s.g, s.h]

def unreducedOutput (s : Registers) (block : Nat → Word) (i : Nat) : Nat :=
  (blockOf (registerWords s) i).toNat + (blockOf (registerWords (rounds s block 64)) i).toNat

def compressionValue (s : Registers) (block : Nat → Word) : CompressionWire → ZMod p
  | .packedW i => ((schedule block i).toNat : ZMod p)
  | .messageSchedule wire => scheduleValue block wire
  | .newRoundA i j => ofBool ((rounds s block (i + 1)).a.getLsbD j)
  | .newRoundE i j => ofBool ((rounds s block (i + 1)).e.getLsbD j)
  | .roundFunctions i wire => roundValue (rounds s block i) (roundConstant i) (schedule block i) wire
  | .unreducedOutput i => (unreducedOutput s block i : ZMod p)
  | .reducedOutput i => ((blockOf (registerWords (compress s block)) i).toNat : ZMod p)
  | .reduceOutput i j => ofBool ((unreducedOutput s block i / 2 ^ 32).testBit j)

private theorem ofNat_unreducedOutput (s : Registers) (block : Nat → Word) {i : Nat}
    (within : i < 8) :
    BitVec.ofNat 32 (unreducedOutput s block i) =
      blockOf (registerWords (compress s block)) i := by
  simp only [unreducedOutput, BitVec.ofNat_add, BitVec.ofNat_toNat, BitVec.setWidth_eq]
  interval_cases i <;> rfl

private theorem unreducedOutput_lt (s : Registers) (block : Nat → Word) (i : Nat) :
    unreducedOutput s block i < 2 ^ (32 + 1) := by
  have first := (blockOf (registerWords s) i).isLt
  have second := (blockOf (registerWords (rounds s block 64)) i).isLt
  rw [unreducedOutput]
  omega

section

variable [Fact p.Prime] [Fact (2 ^ 253 < p)] {σ : V → ZMod p}

private theorem satisfied_roundFunction {v : RoundBits p V} {W : V} {K w : Word}
    {newA newE : List (Lc p V)} {loc : RoundWire → V} {regs : Registers}
    (encodes : RoundEncodes σ v regs) (word : σ W = (w.toNat : ZMod p))
    (sizeA : newA.length = 32) (sizeE : newE.length = 32) :
    Satisfied σ (roundFunction v W K newA newE loc) ↔
      (∀ wire, σ (loc wire) = roundValue regs K w wire) ∧
        Encodes σ newA (wordBits (step K w regs).a) ∧
        Encodes σ newE (wordBits (step K w regs).e) := by
  have sums : σ (loc .packedD) = (regs.d.toNat : ZMod p) →
      σ (loc .packedH) = (regs.h.toNat : ZMod p) →
      σ (loc .sigma0) = ((bigSigma0 regs.a).toNat : ZMod p) →
      σ (loc .sigma1) = ((bigSigma1 regs.e).toNat : ZMod p) →
      σ (loc .choice) = ((ch regs.e regs.f regs.g).toNat : ZMod p) →
      σ (loc .majority) = ((maj regs.a regs.b regs.c).toNat : ZMod p) →
      (Satisfied σ
        [⟨1, var (loc .packedH) + var (loc .sigma1) + var (loc .choice) +
            const (K.toNat : ZMod p) + var W + var (loc .sigma0) + var (loc .majority),
            var (loc .unreducedNewA)⟩,
          ⟨1, var (loc .packedD) + var (loc .packedH) + var (loc .sigma1) + var (loc .choice) +
            const (K.toNat : ZMod p) + var W, var (loc .unreducedNewE)⟩] ↔
      σ (loc .unreducedNewA) = (unreducedA regs K w : ZMod p) ∧
        σ (loc .unreducedNewE) = (unreducedE regs K w : ZMod p)) := by
    intro d h s0 s1 c m
    simp only [satisfied_cons, satisfied_nil, and_true, Constraint.Holds, LinearCombination.eval_one,
      LinearCombination.eval_add, LinearCombination.eval_var, LinearCombination.eval_const, one_mul,
      d, h, s0, s1, c, m, word, unreducedA, unreducedE]
    push_cast
    exact and_congr eq_comm eq_comm
  obtain ⟨smallA, smallE⟩ := unreduced_lt regs K w
  simp only [roundFunction, satisfied_append]
  rw [satisfied_bigSigma encodes.a (by decide) (by decide) (by decide),
    satisfied_bigSigma encodes.e (by decide) (by decide) (by decide),
    satisfied_choice encodes.e encodes.f encodes.g, satisfied_majority encodes.a encodes.b encodes.c,
    satisfied_packWord encodes.d, satisfied_packWord encodes.h, LinearCombination.eval_var,
    LinearCombination.eval_var]
  constructor
  · rintro ⟨⟨⟨⟨⟨⟨⟨⟨⟨bits0, s0⟩, bits1, s1⟩, bitsC, c⟩, bitsM, m⟩, d⟩, h⟩, unreduced⟩, lastA⟩, lastE⟩
    obtain ⟨sumA, sumE⟩ := (sums d h s0 s1 c m).mp unreduced
    obtain ⟨newA, overA, packedA⟩ := (satisfied_lastbits sizeA sumA smallA (by decide)).mp lastA
    obtain ⟨newE, overE, packedE⟩ := (satisfied_lastbits sizeE sumE smallE (by decide)).mp lastE
    rw [ofNat_unreducedA] at newA packedA
    rw [ofNat_unreducedE] at newE packedE
    refine ⟨fun wire => ?_, newA, newE⟩
    cases wire with
    | sigma0 => exact s0
    | sigma1 => exact s1
    | computeSigma0 wire => exact bits0 wire
    | computeSigma1 wire => exact bits1 wire
    | choice => exact c
    | computeChoice i => exact bitsC i
    | majority => exact m
    | computeMajority i => exact bitsM i
    | packedD => exact d
    | packedH => exact h
    | unreducedNewA => exact sumA
    | unreducedNewE => exact sumE
    | packedNewA => exact packedA
    | packedNewE => exact packedE
    | modReduceNewA i => exact overA i
    | modReduceNewE i => exact overE i
  · rintro ⟨wires, newA, newE⟩
    refine ⟨⟨⟨⟨⟨⟨⟨⟨⟨fun wire => wires (.computeSigma0 wire), wires .sigma0⟩,
      fun wire => wires (.computeSigma1 wire), wires .sigma1⟩,
      fun i => wires (.computeChoice i), wires .choice⟩,
      fun i => wires (.computeMajority i), wires .majority⟩, wires .packedD⟩, wires .packedH⟩,
      (sums (wires .packedD) (wires .packedH) (wires .sigma0) (wires .sigma1) (wires .choice)
        (wires .majority)).mpr ⟨wires .unreducedNewA, wires .unreducedNewE⟩⟩, ?_⟩, ?_⟩
    · rw [satisfied_lastbits sizeA (wires .unreducedNewA) smallA (by decide), ofNat_unreducedA]
      exact ⟨newA, fun i => wires (.modReduceNewA i), wires .packedNewA⟩
    · rw [satisfied_lastbits sizeE (wires .unreducedNewE) smallE (by decide), ofNat_unreducedE]
      exact ⟨newE, fun i => wires (.modReduceNewE i), wires .packedNewE⟩

omit [Fact p.Prime] [Fact (2 ^ 253 < p)] in
private theorem roundEncodes_zero {prevOutput : List (Lc p V)} {loc : CompressionWire → V}
    {s : Registers}
    (encodes : Encodes σ prevOutput (bigEndian (registerWords s))) :
    RoundEncodes σ (roundBits prevOutput loc 0 (by omega)) s := by
  have size := encodes.length_eq
  rw [length_bigEndian] at size
  have slice : ∀ i < 8, Encodes σ (wordSlice prevOutput 8 i)
      (wordBits (blockOf (registerWords s) i)) := (encodes_bigEndian size).mp encodes
  exact ⟨slice 0 (by decide), slice 1 (by decide), slice 2 (by decide), slice 3 (by decide),
    slice 4 (by decide), slice 5 (by decide), slice 6 (by decide), slice 7 (by decide)⟩

omit [Fact p.Prime] [Fact (2 ^ 253 < p)] in
private theorem roundEncodes_all {prevOutput : List (Lc p V)} {loc : CompressionWire → V}
    {s : Registers}
    {block : Nat → Word} (encodes : Encodes σ prevOutput (bigEndian (registerWords s)))
    (each : ∀ n (next : n < 64) (within : n ≤ 64),
      RoundEncodes σ (roundBits prevOutput loc n within) (rounds s block n) →
        Encodes σ (vars fun j => loc (.newRoundA ⟨n, next⟩ j)) (wordBits (rounds s block (n + 1)).a) ∧
        Encodes σ (vars fun j => loc (.newRoundE ⟨n, next⟩ j)) (wordBits (rounds s block (n + 1)).e))
    {n : Nat} (within : n ≤ 64) :
    RoundEncodes σ (roundBits prevOutput loc n within) (rounds s block n) := by
  -- each round passes six of the working variables on; only two are new
  induction n with
  | zero => exact roundEncodes_zero encodes
  | succ n ih =>
    have before := ih (by omega)
    obtain ⟨newA, newE⟩ := each n within _ before
    exact ⟨newA, before.a, before.b, before.c, newE, before.e, before.f, before.g⟩

private theorem satisfied_rounds {prevOutput : List (Lc p V)} {loc : CompressionWire → V}
    {s : Registers}
    {block : Nat → Word} (encodes : Encodes σ prevOutput (bigEndian (registerWords s)))
    (words : ∀ i, σ (loc (.packedW i)) = ((schedule block i).toNat : ZMod p)) :
    (∀ i, Satisfied σ (roundFunctions prevOutput loc i)) ↔
      ∀ i : Fin 64,
        (∀ wire, σ (loc (.roundFunctions i wire)) = compressionValue s block (.roundFunctions i wire)) ∧
        (∀ j, σ (loc (.newRoundA i j)) = compressionValue s block (.newRoundA i j)) ∧
        (∀ j, σ (loc (.newRoundE i j)) = compressionValue s block (.newRoundE i j)) := by
  have one : ∀ (i : Fin 64) (within : i.val ≤ 64),
      RoundEncodes σ (roundBits prevOutput loc i within) (rounds s block i) →
      (Satisfied σ (roundFunctions prevOutput loc i) ↔ _) := fun i _ known =>
    satisfied_roundFunction known (words i) (length_vars _) (length_vars _)
  constructor
  · intro sat i
    have known := roundEncodes_all encodes
      (fun n next within before => ((one ⟨n, next⟩ within before).mp (sat ⟨n, next⟩)).2)
      (Nat.le_of_lt i.isLt)
    obtain ⟨wires, newA, newE⟩ := (one i _ known).mp (sat i)
    exact ⟨wires, encodes_vars.mp newA, encodes_vars.mp newE⟩
  · intro all i
    have new : ∀ i : Fin 64, _ ∧ _ := fun i =>
      ⟨encodes_vars.mpr (all i).2.1, encodes_vars.mpr (all i).2.2⟩
    have known := roundEncodes_all encodes (fun n next _ _ => new ⟨n, next⟩) (Nat.le_of_lt i.isLt)
    exact (one i _ known).mpr ⟨(all i).1, new i⟩

omit [Fact (2 ^ 253 < p)] in
/-- The sums at the end: the state before the first round, which the rounds still
hold in `d` and `h`, and the state after the last. -/
private theorem satisfied_unreducedOutput {loc : CompressionWire → V} {s : Registers}
    {block : Nat → Word}
    (known : ∀ i wire, σ (loc (.roundFunctions i wire)) =
      compressionValue s block (.roundFunctions i wire)) :
    (∀ i, Satisfied σ (outputSums loc i)) ↔
      ∀ i, σ (loc (.unreducedOutput i)) = compressionValue s block (.unreducedOutput i) := by
  have low : ∀ i : Fin 4, (rounds s block (3 - i)).d.toNat + (rounds s block (63 - i + 1)).a.toNat =
      unreducedOutput s block i := by
    intro i
    fin_cases i <;> rfl
  have high : ∀ i : Fin 4, (rounds s block (3 - i)).h.toNat + (rounds s block (63 - i + 1)).e.toNat =
      unreducedOutput s block (4 + i) := by
    intro i
    fin_cases i <;> rfl
  have each : ∀ i : Fin 4, Satisfied σ (outputSums loc i) ↔
      σ (loc (.unreducedOutput ⟨i, by omega⟩)) = (unreducedOutput s block i : ZMod p) ∧
        σ (loc (.unreducedOutput ⟨4 + i, by omega⟩)) =
          (unreducedOutput s block (4 + i) : ZMod p) := by
    intro i
    rw [← low, ← high]
    simp only [outputSums, satisfied_cons, satisfied_nil, and_true, Constraint.Holds, LinearCombination.eval_one,
      LinearCombination.eval_add, LinearCombination.eval_var, one_mul, known, compressionValue,
      roundValue]
    push_cast
    exact and_congr eq_comm eq_comm
  rw [forall_congr' each]
  constructor
  · intro all i
    by_cases front : i.val < 4
    · exact (all ⟨i, front⟩).1
    · have back := (all ⟨i - 4, by omega⟩).2
      have place : 4 + (i.val - 4) = i := by omega
      simp only [place] at back
      exact back
  · intro all i
    exact ⟨all ⟨i, by omega⟩, all ⟨4 + i, by omega⟩⟩

/-- The gadget holds exactly when all its wires carry what the compression makes
of the state and the block. -/
theorem satisfied_compression {prevOutput newBlock output : List (Lc p V)}
    {loc : CompressionWire → V} {s : Registers} {words : List Word}
    (state : Encodes σ prevOutput (bigEndian (registerWords s)))
    (block : Encodes σ newBlock (bigEndian words)) (sixteen : words.length = 16)
    (size : output.length = 256) :
    Satisfied σ (compression prevOutput newBlock output loc) ↔
      (∀ wire, σ (loc wire) = compressionValue s (blockOf words) wire) ∧
        Encodes σ output (bigEndian (registerWords (compress s (blockOf words)))) := by
  have slices : Encodes σ output (bigEndian (registerWords (compress s (blockOf words)))) ↔
      ∀ i : Fin 8, Encodes σ (wordSlice output 8 i)
        (wordBits (blockOf (registerWords (compress s (blockOf words))) i)) := by
    rw [encodes_bigEndian (by rw [size]; rfl)]
    exact ⟨fun all i => all i i.isLt, fun all i within => all ⟨i, within⟩⟩
  have last : ∀ i : Fin 8,
      σ (loc (.unreducedOutput i)) = compressionValue s (blockOf words) (.unreducedOutput i) →
      (Satisfied σ (lastbits (loc (.unreducedOutput i)) (fun j => loc (.reduceOutput i j))
        (loc (.reducedOutput i)) (wordSlice output 8 i)) ↔ _) := fun i value =>
    satisfied_lastbits (by rw [wordSlice_eq (by rw [size]) i.isLt]; simp; omega) value
      (unreducedOutput_lt s (blockOf words) i) (by decide)
  rw [compression, satisfied_append, satisfied_append, satisfied_append, satisfied_flatMap,
    satisfied_flatMap, satisfied_flatMap, satisfied_messageSchedule block sixteen, slices]
  simp only [List.mem_finRange, forall_const]
  constructor
  · rintro ⟨⟨⟨⟨schedule, packed⟩, rounds⟩, sums⟩, reduced⟩
    rw [satisfied_rounds state packed] at rounds
    rw [satisfied_unreducedOutput fun i => (rounds i).1] at sums
    have done := fun i => (last i (sums i)).mp (reduced i)
    simp only [ofNat_unreducedOutput s (blockOf words) (Fin.isLt _)] at done
    refine ⟨fun wire => ?_, fun i => (done i).1⟩
    cases wire with
    | packedW i => exact packed i
    | messageSchedule wire => exact schedule wire
    | newRoundA i j => exact (rounds i).2.1 j
    | newRoundE i j => exact (rounds i).2.2 j
    | roundFunctions i wire => exact (rounds i).1 wire
    | unreducedOutput i => exact sums i
    | reducedOutput i => exact (done i).2.2
    | reduceOutput i j => exact (done i).2.1 j
  · rintro ⟨wires, carried⟩
    refine ⟨⟨⟨⟨fun wire => wires (.messageSchedule wire), fun i => wires (.packedW i)⟩, ?_⟩, ?_⟩, ?_⟩
    · rw [satisfied_rounds state fun i => wires (.packedW i)]
      exact fun i => ⟨fun wire => wires (.roundFunctions i wire), fun j => wires (.newRoundA i j),
        fun j => wires (.newRoundE i j)⟩
    · rw [satisfied_unreducedOutput fun i wire => wires (.roundFunctions i wire)]
      exact fun i => wires (.unreducedOutput i)
    · intro i
      rw [last i (wires (.unreducedOutput i)), ofNat_unreducedOutput s (blockOf words) i.isLt]
      exact ⟨carried i, fun j => wires (.reduceOutput i j), wires (.reducedOutput i)⟩

end

end CbDaemon.Circuit.Sha256Compression
