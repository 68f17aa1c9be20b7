/- module: CbDaemon/Circuit/Sha256Aux
   source: snark/libsnark/gadgetlib1/gadgets/hashes/sha256/sha256_aux.tcc
   digest: The gadgets of the word functions hold exactly when their wires carry the functions' bits. -/

import CbDaemon.Circuit.BasicGadgets
import CbDaemon.Crypto.Sha256

set_option autoImplicit false
set_option relaxedAutoImplicit false

namespace CbDaemon.Circuit.Sha256Aux

open Base.Bits Base.R1cs BasicGadgets
open LinearCombination (var const scale eval)
open Crypto.Sha256

variable {p : ℕ} {V : Type}

/-- `lastbits_gadget`: `X` has as many bits as the result and the overflow together. -/
def lastbits {k : Nat} (X : V) (overflow : Fin k → V) (result : V) (resultBits : List (Lc p V)) :
    List (Constraint (ZMod p) V) :=
  packing (resultBits ++ vars overflow) (var X) true ++ packing resultBits (var result) false

/-- `XOR3_gadget`. The third input comes with the variable `tmp`; neither is there
when it is assumed to be zero. -/
def xor3 (A B : Lc p V) (third : Option (Lc p V × V)) (out : Lc p V) :
    List (Constraint (ZMod p) V) :=
  match third with
  | none => [⟨scale 2 A, B, A + B - out⟩]
  | some (C, tmp) =>
    [⟨scale 2 A, B, A + B - var tmp⟩, ⟨scale 2 (var tmp), C, var tmp + C - out⟩]

/-- `SHA256_GADGET_ROTR`. -/
def gadgetRotr (A : List (Lc p V)) (i k : Nat) : Lc p V := A.getD ((i + k) % 32) 0

/-- What the two sigma gadgets share: an `XOR3_gadget` for each bit, and the packing. -/
def sigma (W : List (Lc p V)) (result : V) (rot1 rot2 : Nat)
    (third : Fin 32 → Option (Lc p V × V)) (resultBits : Fin 32 → V) :
    List (Constraint (ZMod p) V) :=
  (List.finRange 32).flatMap (fun i : Fin 32 =>
    xor3 (gadgetRotr W i rot1) (gadgetRotr W i rot2) (third i) (var (resultBits i))) ++
  packing (vars resultBits) (var result) false

/-- The variables that a sigma gadget allocates. -/
inductive SigmaWire (tmps : Nat) where
  | resultBit (i : Fin 32)
  | tmp (i : Fin tmps)

/-- `small_sigma_gadget`. -/
def smallSigma (W : List (Lc p V)) (result : V) (rot1 rot2 shift : Nat)
    (loc : SigmaWire (32 - shift) → V) : List (Constraint (ZMod p) V) :=
  sigma W result rot1 rot2
    (fun i => if low : i + shift < 32 then some (W.getD (i + shift) 0, loc (.tmp ⟨i, by omega⟩))
      else none)
    fun i => loc (.resultBit i)

/-- `big_sigma_gadget`. -/
def bigSigma (W : List (Lc p V)) (result : V) (rot1 rot2 rot3 : Nat) (loc : SigmaWire 32 → V) :
    List (Constraint (ZMod p) V) :=
  sigma W result rot1 rot2 (fun i => some (gadgetRotr W i rot3, loc (.tmp i)))
    fun i => loc (.resultBit i)

/-- `choice_gadget`. -/
def choice (X Y Z : List (Lc p V)) (result : V) (resultBits : Fin 32 → V) :
    List (Constraint (ZMod p) V) :=
  (List.finRange 32).map (fun i : Fin 32 =>
    ⟨X.getD i 0, Y.getD i 0 - Z.getD i 0, var (resultBits i) - Z.getD i 0⟩) ++
  packing (vars resultBits) (var result) false

/-- `majority_gadget`. -/
def majority (X Y Z : List (Lc p V)) (result : V) (resultBits : Fin 32 → V) :
    List (Constraint (ZMod p) V) :=
  (List.finRange 32).flatMap (fun i : Fin 32 =>
    let aux := X.getD i 0 + Y.getD i 0 + Z.getD i 0 - scale 2 (var (resultBits i))
    [generateBoolean (var (resultBits i)), ⟨aux, 1 - aux, 0⟩]) ++
  packing (vars resultBits) (var result) false

/-! Words on wires, the lowest bit first. -/

def wordBits (w : Word) : List Bool := bitsOf 32 w.toNat

private theorem wordBits_getD (w : Word) {i : Nat} (within : i < 32) :
    (wordBits w).getD i false = w.getLsbD i := getD_bitsOf within

private theorem number_wordBits (w : Word) : number (wordBits w) = w.toNat := by
  rw [wordBits, number_bitsOf, Nat.mod_eq_of_lt w.isLt]

private theorem wordBits_ofNat (x : Nat) : wordBits (BitVec.ofNat 32 x) = bitsOf 32 x := by
  rw [wordBits, BitVec.toNat_ofNat, bitsOf_mod]

private theorem eval_word {σ : V → ZMod p} {wires : List (Lc p V)} {w : Word}
    (encodes : Encodes σ wires (wordBits w)) {i : Nat} (within : i < 32) :
    (wires.getD i 0).eval σ = ofBool (w.getLsbD i) := by
  rw [encodes.getD, wordBits_getD w within]

theorem encodes_vars {σ : V → ZMod p} {v : Fin 32 → V} {w : Word} :
    Encodes σ (vars v) (wordBits w) ↔ ∀ i : Fin 32, σ (v i) = ofBool (w.getLsbD i) := by
  rw [vars, wordBits, bitsOf, encodes_ofFn]
  simp only [LinearCombination.eval_var]
  rfl

def rotr (w : Word) (k : Nat) : Word := w >>> k ||| w <<< (32 - k)

private theorem getLsbD_rotr (w : Word) {k i : Nat} (turn : k < 32) (within : i < 32) :
    (rotr w k).getLsbD i = w.getLsbD ((i + k) % 32) := by
  rw [rotr, BitVec.getLsbD_or, BitVec.getLsbD_ushiftRight, BitVec.getLsbD_shiftLeft]
  by_cases low : i + k < 32
  · have below : i < 32 - k := by omega
    rw [Nat.mod_eq_of_lt low, Nat.add_comm i k]
    simp [below]
  · have wrapped : (i + k) % 32 = i - (32 - k) := by omega
    have above : ¬ i < 32 - k := by omega
    rw [wrapped, BitVec.getLsbD_of_ge w (k + i) (by omega)]
    simp [within, above]

private theorem eval_gadgetRotr {σ : V → ZMod p} {W : List (Lc p V)} {w : Word}
    (encodes : Encodes σ W (wordBits w)) {k i : Nat} (turn : k < 32) (within : i < 32) :
    (gadgetRotr W i k).eval σ = ofBool ((rotr w k).getLsbD i) := by
  rw [gadgetRotr, eval_word encodes (Nat.mod_lt _ (by decide)), getLsbD_rotr w turn within]

section

variable [Fact p.Prime]

theorem satisfied_packWord {σ : V → ZMod p} {wires : List (Lc p V)} {packed : Lc p V}
    {enforceBitness : Bool} {w : Word} (encodes : Encodes σ wires (wordBits w)) :
    Satisfied σ (packing wires packed enforceBitness) ↔ packed.eval σ = (w.toNat : ZMod p) := by
  rw [satisfied_packing encodes, number_wordBits]

theorem satisfied_lastbits [Fact (2 ^ 253 < p)] {σ : V → ZMod p} {k : Nat} {X result : V}
    {overflow : Fin k → V} {resultBits : List (Lc p V)} {x : Nat}
    (size : resultBits.length = 32) (value : σ X = (x : ZMod p)) (fits : x < 2 ^ (32 + k))
    (few : k ≤ 3) :
    Satisfied σ (lastbits X overflow result resultBits) ↔
      Encodes σ resultBits (wordBits (BitVec.ofNat 32 x)) ∧
      (∀ i, σ (overflow i) = ofBool ((x / 2 ^ 32).testBit i)) ∧
      σ result = ((BitVec.ofNat 32 x).toNat : ZMod p) := by
  have full : (resultBits ++ vars overflow).length = 32 + k := by
    rw [List.length_append, size, length_vars]
  have tail : Encodes σ (vars overflow) (bitsOf k (x / 2 ^ 32)) ↔
      ∀ i, σ (overflow i) = ofBool ((x / 2 ^ 32).testBit i) := by
    rw [vars, bitsOf, encodes_ofFn]
    simp only [LinearCombination.eval_var]
  have unpacked : Satisfied σ (packing (resultBits ++ vars overflow) (var X) true) ↔ _ :=
    satisfied_unpacking (by rwa [LinearCombination.eval_var]) (by rwa [full]) (by omega)
  rw [full, bitsOf_add, encodes_append (by rw [size, length_bitsOf]), tail,
    ← wordBits_ofNat] at unpacked
  rw [lastbits, satisfied_append, unpacked, and_assoc]
  refine and_congr_right fun encodes => and_congr_right fun _ => ?_
  rw [satisfied_packWord encodes, LinearCombination.eval_var]

private theorem xor_constraint {a b : Bool} {x : ZMod p} :
    2 * ofBool a * ofBool b = ofBool a + ofBool b - x ↔ x = ofBool (a ^^ b) := by
  rw [ofBool_xor]
  constructor
  · intro held
    linear_combination held
  · intro value
    rw [value]
    ring

private theorem satisfied_xor3_none {σ : V → ZMod p} {A B out : Lc p V} {a b : Bool}
    (first : A.eval σ = ofBool a) (second : B.eval σ = ofBool b) :
    Satisfied σ (xor3 A B none out) ↔ out.eval σ = ofBool (a ^^ b) := by
  rw [← xor_constraint]
  simp [xor3, Constraint.Holds, first, second]

private theorem satisfied_xor3_some {σ : V → ZMod p} {A B C out : Lc p V} {tmp : V} {a b c : Bool}
    (first : A.eval σ = ofBool a) (second : B.eval σ = ofBool b) (last : C.eval σ = ofBool c) :
    Satisfied σ (xor3 A B (some (C, tmp)) out) ↔
      σ tmp = ofBool (a ^^ b) ∧ out.eval σ = ofBool (a ^^ b ^^ c) := by
  simp only [xor3, satisfied_cons, satisfied_nil, and_true, Constraint.Holds,
    LinearCombination.eval_scale, LinearCombination.eval_sub, LinearCombination.eval_add,
    LinearCombination.eval_var, first, second, last, xor_constraint]
  refine and_congr_right fun carried => ?_
  rw [carried, xor_constraint]

private theorem satisfied_sigma {σ : V → ZMod p} {W : List (Lc p V)} {result : V} {rot1 rot2 : Nat}
    {third : Fin 32 → Option (Lc p V × V)} {resultBits : Fin 32 → V} (out : Word)
    (tmps : Fin 32 → Prop)
    (each : ∀ i : Fin 32,
      Satisfied σ (xor3 (gadgetRotr W i rot1) (gadgetRotr W i rot2) (third i)
        (var (resultBits i))) ↔ tmps i ∧ σ (resultBits i) = ofBool (out.getLsbD i)) :
    Satisfied σ (sigma W result rot1 rot2 third resultBits) ↔
      (∀ i, tmps i) ∧ (∀ i, σ (resultBits i) = ofBool (out.getLsbD i)) ∧
        σ result = (out.toNat : ZMod p) := by
  rw [sigma, satisfied_append, satisfied_flatMap]
  simp only [List.mem_finRange, forall_const, each, forall_and, and_assoc]
  refine and_congr_right fun _ => and_congr_right fun carried => ?_
  rw [satisfied_packWord (encodes_vars.mpr carried), LinearCombination.eval_var]

/-- The word function of `small_sigma_gadget`. -/
def smallSigmaWord (rot1 rot2 shift : Nat) (w : Word) : Word :=
  rotr w rot1 ^^^ rotr w rot2 ^^^ (w >>> shift)

def smallSigmaValue (rot1 rot2 shift : Nat) (w : Word) : SigmaWire (32 - shift) → ZMod p
  | .resultBit i => ofBool ((smallSigmaWord rot1 rot2 shift w).getLsbD i)
  | .tmp i => ofBool ((rotr w rot1).getLsbD i ^^ (rotr w rot2).getLsbD i)

theorem satisfied_smallSigma {σ : V → ZMod p} {W : List (Lc p V)} {result : V}
    {rot1 rot2 shift : Nat} {loc : SigmaWire (32 - shift) → V} {w : Word}
    (encodes : Encodes σ W (wordBits w)) (turn1 : rot1 < 32) (turn2 : rot2 < 32) :
    Satisfied σ (smallSigma W result rot1 rot2 shift loc) ↔
      (∀ wire, σ (loc wire) = smallSigmaValue rot1 rot2 shift w wire) ∧
        σ result = ((smallSigmaWord rot1 rot2 shift w).toNat : ZMod p) := by
  have bit : ∀ i, (smallSigmaWord rot1 rot2 shift w).getLsbD i =
      ((rotr w rot1).getLsbD i ^^ (rotr w rot2).getLsbD i ^^ (w >>> shift).getLsbD i) := by
    intro i
    rw [smallSigmaWord, BitVec.getLsbD_xor, BitVec.getLsbD_xor]
  rw [smallSigma, satisfied_sigma (smallSigmaWord rot1 rot2 shift w)
    (fun i => ∀ low : i + shift < 32, σ (loc (.tmp ⟨i, by omega⟩)) =
      ofBool ((rotr w rot1).getLsbD i ^^ (rotr w rot2).getLsbD i)), ← and_assoc]
  · refine and_congr_left fun _ => ⟨?_, fun all => ⟨fun i _ => all (.tmp _), fun i => all (.resultBit i)⟩⟩
    rintro ⟨tmps, bits⟩ (i | i)
    · exact bits i
    · exact tmps ⟨i, by omega⟩ (by have := i.isLt; simp only; omega)
  · intro i
    have first := eval_gadgetRotr encodes turn1 i.isLt
    have second := eval_gadgetRotr encodes turn2 i.isLt
    split_ifs with low
    · have shifted : (W.getD (i + shift) 0).eval σ = ofBool ((w >>> shift).getLsbD i) := by
        rw [eval_word encodes low, BitVec.getLsbD_ushiftRight, Nat.add_comm]
      rw [satisfied_xor3_some first second shifted, bit, LinearCombination.eval_var]
      exact and_congr_left fun _ => ⟨fun carried _ => carried, fun carried => carried low⟩
    · have gone : (w >>> shift).getLsbD i = false := by
        rw [BitVec.getLsbD_ushiftRight, BitVec.getLsbD_of_ge w _ (by omega)]
      rw [satisfied_xor3_none first second, bit, gone, Bool.xor_false, LinearCombination.eval_var]
      exact (and_iff_right fun within => absurd within low).symm

/-- The word function of `big_sigma_gadget`. -/
def bigSigmaWord (rot1 rot2 rot3 : Nat) (w : Word) : Word :=
  rotr w rot1 ^^^ rotr w rot2 ^^^ rotr w rot3

def bigSigmaValue (rot1 rot2 rot3 : Nat) (w : Word) : SigmaWire 32 → ZMod p
  | .resultBit i => ofBool ((bigSigmaWord rot1 rot2 rot3 w).getLsbD i)
  | .tmp i => ofBool ((rotr w rot1).getLsbD i ^^ (rotr w rot2).getLsbD i)

theorem satisfied_bigSigma {σ : V → ZMod p} {W : List (Lc p V)} {result : V}
    {rot1 rot2 rot3 : Nat} {loc : SigmaWire 32 → V} {w : Word}
    (encodes : Encodes σ W (wordBits w)) (turn1 : rot1 < 32) (turn2 : rot2 < 32)
    (turn3 : rot3 < 32) :
    Satisfied σ (bigSigma W result rot1 rot2 rot3 loc) ↔
      (∀ wire, σ (loc wire) = bigSigmaValue rot1 rot2 rot3 w wire) ∧
        σ result = ((bigSigmaWord rot1 rot2 rot3 w).toNat : ZMod p) := by
  rw [bigSigma, satisfied_sigma (bigSigmaWord rot1 rot2 rot3 w) (fun i => σ (loc (.tmp i)) =
      ofBool ((rotr w rot1).getLsbD i ^^ (rotr w rot2).getLsbD i)), ← and_assoc]
  · refine and_congr_left fun _ => ⟨?_, fun all => ⟨fun i => all (.tmp i), fun i => all (.resultBit i)⟩⟩
    rintro ⟨tmps, bits⟩ (i | i)
    · exact bits i
    · exact tmps i
  · intro i
    rw [satisfied_xor3_some (eval_gadgetRotr encodes turn1 i.isLt)
      (eval_gadgetRotr encodes turn2 i.isLt) (eval_gadgetRotr encodes turn3 i.isLt),
      LinearCombination.eval_var, bigSigmaWord, BitVec.getLsbD_xor, BitVec.getLsbD_xor]

theorem satisfied_choice {σ : V → ZMod p} {X Y Z : List (Lc p V)} {result : V}
    {resultBits : Fin 32 → V} {x y z : Word} (first : Encodes σ X (wordBits x))
    (second : Encodes σ Y (wordBits y)) (last : Encodes σ Z (wordBits z)) :
    Satisfied σ (choice X Y Z result resultBits) ↔
      (∀ i, σ (resultBits i) = ofBool ((ch x y z).getLsbD i)) ∧
        σ result = ((ch x y z).toNat : ZMod p) := by
  have each : ∀ i : Fin 32, Constraint.Holds σ ⟨X.getD i 0, Y.getD i 0 - Z.getD i 0,
      var (resultBits i) - Z.getD i 0⟩ ↔ σ (resultBits i) = ofBool ((ch x y z).getLsbD i) := by
    intro i
    rw [Constraint.Holds, LinearCombination.eval_sub, LinearCombination.eval_sub,
      LinearCombination.eval_var, eval_word first i.isLt, eval_word second i.isLt,
      eval_word last i.isLt, ch, BitVec.getLsbD_xor, BitVec.getLsbD_and, BitVec.getLsbD_xor,
      eq_sub_iff_add_eq, eq_comm]
    cases x.getLsbD i <;> cases y.getLsbD i <;> cases z.getLsbD i <;> simp
  rw [choice, satisfied_append, satisfied_map]
  simp only [List.mem_finRange, forall_const, each]
  refine and_congr_right fun carried => ?_
  rw [satisfied_packWord (encodes_vars.mpr carried), LinearCombination.eval_var]

private theorem adder_constraint [wide : Fact (2 ^ 253 < p)] {x y z carry bit : Bool} :
    (ofBool x + ofBool y + ofBool z - 2 * ofBool carry : ZMod p) = ofBool bit ↔
      x.toNat + y.toNat + z.toNat = 2 * carry.toNat + bit.toNat := by
  -- the constraint of a full adder is one of natural numbers
  have room := wide.out
  have sizes := And.intro (Bool.toNat_le x) (And.intro (Bool.toNat_le y) (Bool.toNat_le z))
  have sizes' := And.intro (Bool.toNat_le carry) (Bool.toNat_le bit)
  rw [sub_eq_iff_eq_add', ← natCast_inj (p := p) (by omega) (by omega)]
  push_cast
  simp only [ofBool_eq_cast]

private theorem majority_constraint [Fact (2 ^ 253 < p)] {x y z : Bool} {result : ZMod p} :
    ((∃ bit, result = ofBool bit) ∧
        ∃ bit, ofBool x + ofBool y + ofBool z - 2 * result = ofBool bit) ↔
      result = ofBool (x && y || z && (x || y)) := by
  have carries : ∀ x y z carry bit : Bool, x.toNat + y.toNat + z.toNat =
      2 * carry.toNat + bit.toNat → carry = (x && y || z && (x || y)) := by decide
  have adds : ∀ x y z : Bool, x.toNat + y.toNat + z.toNat =
      2 * (x && y || z && (x || y)).toNat + (x ^^ y ^^ z).toNat := by decide
  constructor
  · rintro ⟨⟨carry, rfl⟩, bit, sum⟩
    rw [carries x y z carry bit (adder_constraint.mp sum)]
  · rintro rfl
    exact ⟨⟨_, rfl⟩, _, adder_constraint.mpr (adds x y z)⟩

theorem satisfied_majority [Fact (2 ^ 253 < p)] {σ : V → ZMod p} {X Y Z : List (Lc p V)}
    {result : V} {resultBits : Fin 32 → V} {x y z : Word} (first : Encodes σ X (wordBits x))
    (second : Encodes σ Y (wordBits y)) (last : Encodes σ Z (wordBits z)) :
    Satisfied σ (majority X Y Z result resultBits) ↔
      (∀ i, σ (resultBits i) = ofBool ((maj x y z).getLsbD i)) ∧
        σ result = ((maj x y z).toNat : ZMod p) := by
  have each : ∀ i : Fin 32,
      (Satisfied σ (
        let aux := X.getD i 0 + Y.getD i 0 + Z.getD i 0 - scale 2 (var (resultBits i))
        [generateBoolean (var (resultBits i)), ⟨aux, 1 - aux, 0⟩]) ↔
      σ (resultBits i) = ofBool ((maj x y z).getLsbD i)) := by
    intro i
    rw [satisfied_cons, holds_generateBoolean, satisfied_cons, Constraint.Holds]
    simp only [satisfied_nil, and_true, LinearCombination.eval_sub, LinearCombination.eval_add,
      LinearCombination.eval_one, LinearCombination.eval_zero, LinearCombination.eval_scale,
      LinearCombination.eval_var, eval_word first i.isLt, eval_word second i.isLt,
      eval_word last i.isLt, mul_one_sub_eq_zero_iff, majority_constraint]
    rw [maj, BitVec.getLsbD_or, BitVec.getLsbD_and, BitVec.getLsbD_and, BitVec.getLsbD_or]
  rw [majority, satisfied_append, satisfied_flatMap]
  simp only [List.mem_finRange, forall_const]
  rw [forall_congr' each]
  refine and_congr_right fun carried => ?_
  rw [satisfied_packWord (encodes_vars.mpr carried), LinearCombination.eval_var]

end

end CbDaemon.Circuit.Sha256Aux
