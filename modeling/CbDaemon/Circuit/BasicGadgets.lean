/- module: CbDaemon/Circuit/BasicGadgets
   source: snark/libsnark/gadgetlib1/gadgets/basic_gadgets.tcc, snark/libsnark/gadgetlib1/pb_variable.tcc
   digest: Bitness, packing and conditional copies of bits, as constraints over the scalar field. -/

import CbDaemon.Base.R1cs

set_option autoImplicit false
set_option relaxedAutoImplicit false

namespace CbDaemon.Circuit.BasicGadgets

open Base.Bits Base.R1cs
open LinearCombination (var const scale eval)

variable {p : ℕ} {V : Type}

/-- `pb_linear_combination` over the field of `p` elements. -/
abbrev Lc (p : ℕ) (V : Type) := LinearCombination (ZMod p) V

def vars {n : Nat} (v : Fin n → V) : List (Lc p V) := List.ofFn fun i => var (v i)

@[simp] theorem length_vars {n : Nat} (v : Fin n → V) : (vars v : List (Lc p V)).length = n :=
  List.length_ofFn

theorem forall_eval_getD_vars {σ : V → ZMod p} {n : Nat} {v : Fin n → V} {value : Nat → ZMod p} :
    (∀ i < n, ((vars v).getD i 0).eval σ = value i) ↔ ∀ i : Fin n, σ (v i) = value i := by
  have wire : ∀ i : Fin n, ((vars v : List (Lc p V)).getD i 0).eval σ = σ (v i) := by
    intro i
    have within : i.val < (vars v : List (Lc p V)).length := by
      rw [length_vars]
      exact i.isLt
    have element : (vars v : List (Lc p V))[i.val] = var (v i) := List.getElem_ofFn within
    rw [List.getD_eq_getElem _ _ within, element, LinearCombination.eval_var]
  constructor
  · intro all i
    rw [← wire, all i i.isLt]
  · intro all i within
    exact (wire ⟨i, within⟩).trans (all ⟨i, within⟩)

theorem encodes_vars_getD {σ : V → ZMod p} {n : Nat} {v : Fin n → V} {bits : List Bool}
    (size : bits.length = n) :
    Encodes σ (vars v) bits ↔ ∀ i : Fin n, σ (v i) = ofBool (bits.getD i false) := by
  have listed : bits = List.ofFn fun i : Fin n => bits.getD i false := by
    apply List.ext_getElem
    · rw [List.length_ofFn, size]
    · intro i within _
      rw [List.getElem_ofFn, List.getD_eq_getElem]
  nth_rewrite 1 [listed]
  rw [vars, encodes_ofFn]
  simp only [LinearCombination.eval_var]

/-- `generate_boolean_r1cs_constraint`. -/
def generateBoolean (lc : Lc p V) : Constraint (ZMod p) V := ⟨lc, 1 - lc, 0⟩

/-- The loop of `pb_packing_sum`, with the weight that it enters the iteration with. -/
def packingSumFrom (twoi : ZMod p) : List (Lc p V) → Lc p V
  | [] => 0
  | lc :: rest => scale twoi lc + packingSumFrom (twoi + twoi) rest

/-- `pb_packing_sum`. -/
def packingSum (bits : List (Lc p V)) : Lc p V := packingSumFrom 1 bits

/-- `packing_gadget`. -/
def packing (bits : List (Lc p V)) (packed : Lc p V) (enforceBitness : Bool) :
    List (Constraint (ZMod p) V) :=
  ⟨1, packingSum bits, packed⟩ :: if enforceBitness then bits.map generateBoolean else []

def divCeil (x y : Nat) : Nat := (x + y - 1) / y

/-- The `i`-th of the ranges that `multipacking_gadget` cuts an array into. -/
def chunk {α : Type} (bits : List α) (chunkSize i : Nat) : List α :=
  (bits.drop (i * chunkSize)).take chunkSize

/-- `multipacking_gadget`. -/
def multipacking (bits packedVars : List (Lc p V)) (chunkSize : Nat) (enforceBitness : Bool) :
    List (Constraint (ZMod p) V) :=
  (List.range (divCeil bits.length chunkSize)).flatMap fun i =>
    packing (chunk bits chunkSize i) (packedVars.getD i 0) enforceBitness

/-- `field_vector_copy_gadget`. -/
def fieldVectorCopy (source target : List (Lc p V)) (doCopy : Lc p V) :
    List (Constraint (ZMod p) V) :=
  (List.range source.length).map fun i => ⟨doCopy, source.getD i 0 - target.getD i 0, 0⟩

/-- `bit_vector_copy_gadget`, with the variables that it allocates. -/
def bitVectorCopy (sourceBits targetBits : List (Lc p V)) (doCopy : Lc p V) (chunkSize : Nat)
    (packedSource packedTarget : List (Lc p V)) (enforceSource enforceTarget : Bool) :
    List (Constraint (ZMod p) V) :=
  multipacking sourceBits packedSource chunkSize enforceSource ++
  multipacking targetBits packedTarget chunkSize enforceTarget ++
  fieldVectorCopy packedSource packedTarget doCopy

/-! What the constraints say. Numbers stay apart in the field as long as they are
below its size. -/

theorem natCast_inj {m n : Nat} (low : m < p) (low' : n < p) : (m : ZMod p) = n ↔ m = n := by
  rw [ZMod.natCast_eq_natCast_iff', Nat.mod_eq_of_lt low, Nat.mod_eq_of_lt low']

private theorem eval_packingSumFrom {σ : V → ZMod p} {wires : List (Lc p V)} {bits : List Bool}
    (encodes : Encodes σ wires bits) (twoi : ZMod p) :
    (packingSumFrom twoi wires).eval σ = twoi * (number bits : ZMod p) := by
  induction wires generalizing bits twoi with
  | nil =>
    obtain rfl : bits = [] := List.length_eq_zero_iff.mp encodes.length_eq.symm
    simp [packingSumFrom, number]
  | cons wire wires ih =>
    obtain ⟨bit, rest, rfl⟩ := List.exists_cons_of_length_eq_add_one encodes.length_eq.symm
    obtain ⟨carried, others⟩ := encodes_cons.mp encodes
    rw [packingSumFrom, LinearCombination.eval_add, LinearCombination.eval_scale, carried,
      ih others, number, ofBool_eq_cast]
    push_cast
    ring

theorem eval_packingSum {σ : V → ZMod p} {wires : List (Lc p V)} {bits : List Bool}
    (encodes : Encodes σ wires bits) : (packingSum wires).eval σ = (number bits : ZMod p) := by
  rw [packingSum, eval_packingSumFrom encodes, one_mul]

section

variable [Fact p.Prime]

theorem holds_generateBoolean {σ : V → ZMod p} {lc : Lc p V} :
    (generateBoolean lc).Holds σ ↔ ∃ bit, lc.eval σ = ofBool bit := by
  rw [← mul_one_sub_eq_zero_iff, Constraint.Holds, generateBoolean]
  simp

theorem satisfied_boolean {σ : V → ZMod p} {wires : List (Lc p V)} {bits : List Bool}
    (encodes : Encodes σ wires bits) : Satisfied σ (wires.map generateBoolean) := by
  intro constraint listed
  obtain ⟨wire, among, rfl⟩ := List.mem_map.mp listed
  obtain ⟨i, within, rfl⟩ := List.getElem_of_mem among
  refine holds_generateBoolean.mpr ⟨bits.getD i false, ?_⟩
  rw [← encodes.getD, List.getD_eq_getElem]

theorem exists_encodes_of_boolean {σ : V → ZMod p} {wires : List (Lc p V)}
    (sat : Satisfied σ (wires.map generateBoolean)) : ∃ bits, Encodes σ wires bits :=
  exists_encodes fun wire listed => holds_generateBoolean.mp (satisfied_map.mp sat wire listed)

theorem satisfied_packing {σ : V → ZMod p} {wires : List (Lc p V)} {packed : Lc p V}
    {enforceBitness : Bool} {bits : List Bool} (encodes : Encodes σ wires bits) :
    Satisfied σ (packing wires packed enforceBitness) ↔ packed.eval σ = (number bits : ZMod p) := by
  have bitness : Satisfied σ (if enforceBitness then wires.map generateBoolean else []) := by
    split_ifs
    · exact satisfied_boolean encodes
    · exact satisfied_nil σ
  rw [packing, satisfied_cons, Constraint.Holds, eval_packingSum encodes]
  simp [bitness, eq_comm]

private theorem exists_encodes_of_packing {σ : V → ZMod p} {wires : List (Lc p V)} {packed : Lc p V}
    (sat : Satisfied σ (packing wires packed true)) : ∃ bits, Encodes σ wires bits := by
  rw [packing, satisfied_cons, if_pos rfl] at sat
  exact exists_encodes_of_boolean sat.2

theorem satisfied_unpacking [wide : Fact (2 ^ 253 < p)] {σ : V → ZMod p} {wires : List (Lc p V)}
    {packed : Lc p V} {x : Nat} (value : packed.eval σ = (x : ZMod p))
    (fits : x < 2 ^ wires.length) (small : wires.length ≤ 253) :
    Satisfied σ (packing wires packed true) ↔ Encodes σ wires (bitsOf wires.length x) := by
  have bound : 2 ^ wires.length ≤ 2 ^ 253 := Nat.pow_le_pow_right (by decide) small
  have room := wide.out
  constructor
  · intro sat
    obtain ⟨bits, encodes⟩ := exists_encodes_of_packing sat
    have low := number_lt bits
    rw [← encodes.length_eq] at low
    rw [satisfied_packing encodes, value, natCast_inj (by omega) (by omega)] at sat
    rw [sat, bitsOf_number encodes.length_eq.symm]
    exact encodes
  · intro encodes
    rw [satisfied_packing encodes, number_bitsOf, Nat.mod_eq_of_lt fits, value]

theorem satisfied_multipacking {σ : V → ZMod p} {wires packedVars : List (Lc p V)}
    {chunkSize : Nat} {enforceBitness : Bool} {bits : List Bool} (encodes : Encodes σ wires bits) :
    Satisfied σ (multipacking wires packedVars chunkSize enforceBitness) ↔
      ∀ i < divCeil bits.length chunkSize,
        (packedVars.getD i 0).eval σ = (number (chunk bits chunkSize i) : ZMod p) := by
  rw [multipacking, satisfied_flatMap, encodes.length_eq]
  simp only [List.mem_range]
  refine forall₂_congr fun i _ => satisfied_packing ?_
  exact (encodes.drop _).take _

private theorem getElem?_chunk {α : Type} (items : List α) {chunkSize : Nat}
    (positive : 0 < chunkSize)
    (k : Nat) : (chunk items chunkSize (k / chunkSize))[k % chunkSize]? = items[k]? := by
  rw [chunk, List.getElem?_take_of_lt (Nat.mod_lt k positive), List.getElem?_drop, Nat.div_add_mod']

private theorem div_lt_divCeil {k n chunkSize : Nat} (positive : 0 < chunkSize) (within : k < n) :
    k / chunkSize < divCeil n chunkSize := by
  have next : k / chunkSize + 1 = (k + chunkSize) / chunkSize :=
    (Nat.add_div_right k positive).symm
  rw [divCeil, ← Nat.succ_le_iff, Nat.succ_eq_add_one, next]
  exact Nat.div_le_div_right (by omega)

theorem exists_encodes_of_multipacking {σ : V → ZMod p} {wires packedVars : List (Lc p V)}
    {chunkSize : Nat} (positive : 0 < chunkSize)
    (sat : Satisfied σ (multipacking wires packedVars chunkSize true)) :
    ∃ bits, Encodes σ wires bits := by
  refine exists_encodes fun wire listed => ?_
  obtain ⟨k, within, rfl⟩ := List.getElem_of_mem listed
  rw [multipacking, satisfied_flatMap] at sat
  have packed := sat _ (List.mem_range.mpr (div_lt_divCeil positive within))
  rw [packing, satisfied_cons, if_pos rfl, satisfied_map] at packed
  refine holds_generateBoolean.mp (packed.2 _ ?_)
  refine List.mem_of_getElem? (i := k % chunkSize) ?_
  rw [getElem?_chunk wires positive, List.getElem?_eq_getElem within]

private theorem eq_of_chunks {α : Type} {xs ys : List α} {chunkSize : Nat}
    (positive : 0 < chunkSize)
    (size : xs.length = ys.length)
    (same : ∀ i < divCeil xs.length chunkSize, chunk xs chunkSize i = chunk ys chunkSize i) :
    xs = ys := by
  refine List.ext_getElem? fun k => ?_
  by_cases within : k < xs.length
  · rw [← getElem?_chunk xs positive, same _ (div_lt_divCeil positive within),
      getElem?_chunk ys positive]
  · rw [List.getElem?_eq_none (by omega), List.getElem?_eq_none (by omega)]

section Copy

variable [wide : Fact (2 ^ 253 < p)] {σ : V → ZMod p}

theorem eq_of_packed {bits others : List Bool} {chunkSize : Nat} (positive : 0 < chunkSize)
    (small : chunkSize ≤ 253) (size : bits.length = others.length)
    (same : ∀ i < divCeil bits.length chunkSize, (number (chunk bits chunkSize i) : ZMod p) =
      (number (chunk others chunkSize i) : ZMod p)) : bits = others := by
  have bound : ∀ (list : List Bool) (i : Nat), number (chunk list chunkSize i) < p := by
    intro list i
    have low := number_lt (chunk list chunkSize i)
    have short : (chunk list chunkSize i).length ≤ 253 := (List.length_take_le _ _).trans small
    have power : 2 ^ (chunk list chunkSize i).length ≤ 2 ^ 253 :=
      Nat.pow_le_pow_right (by decide) short
    exact (low.trans_le power).trans wide.out
  refine eq_of_chunks positive size fun i within => number_inj ?_ ?_
  · simp only [chunk, List.length_take, List.length_drop, size]
  · exact (natCast_inj (bound bits i) (bound others i)).mp (same i within)

theorem satisfied_bitVectorCopy {sourceBits targetBits packedSource packedTarget : List (Lc p V)}
    {doCopy : Lc p V} {chunkSize : Nat} {enforceSource enforceTarget : Bool}
    {source target : List Bool} {asked : Bool} (positive : 0 < chunkSize) (small : chunkSize ≤ 253)
    (left : Encodes σ sourceBits source) (right : Encodes σ targetBits target)
    (size : source.length = target.length)
    (packed : packedSource.length = divCeil source.length chunkSize)
    (flag : doCopy.eval σ = ofBool asked) :
    Satisfied σ (bitVectorCopy sourceBits targetBits doCopy chunkSize packedSource
      packedTarget enforceSource enforceTarget) ↔
      (∀ i < divCeil source.length chunkSize,
        (packedSource.getD i 0).eval σ = (number (chunk source chunkSize i) : ZMod p)) ∧
      (∀ i < divCeil source.length chunkSize,
        (packedTarget.getD i 0).eval σ = (number (chunk target chunkSize i) : ZMod p)) ∧
      (asked = true → source = target) := by
  rw [bitVectorCopy, satisfied_append, satisfied_append, satisfied_multipacking left,
    satisfied_multipacking right, fieldVectorCopy, satisfied_map, packed, ← size, and_assoc]
  refine and_congr_right fun sources => and_congr_right fun targets => ?_
  simp only [List.mem_range, Constraint.Holds, flag, LinearCombination.eval_sub,
    LinearCombination.eval_zero]
  constructor
  · rintro copies rfl
    refine eq_of_packed (p := p) positive small size fun i within => ?_
    have copied := copies i within
    rwa [ofBool_true, one_mul, sub_eq_zero, sources i within, targets i within] at copied
  · intro same i within
    rw [sources i within, targets i within]
    cases asked
    · exact zero_mul _
    · rw [same rfl, sub_self, mul_zero]

end Copy

end

end CbDaemon.Circuit.BasicGadgets
