/- module: CbDaemon/Base/R1cs
   layer: library
   digest: Rank-one constraints over named variables, and wires that carry bits. -/

import Mathlib.Algebra.BigOperators.Group.List.Basic
import Mathlib.Algebra.BigOperators.Ring.List
import Mathlib.Algebra.Field.ZMod
import Mathlib.Tactic.LinearCombination
import CbDaemon.Base.Bits

set_option autoImplicit false
set_option relaxedAutoImplicit false

namespace CbDaemon.Base.R1cs

open Bits

variable {F V W : Type}

/-- A sum of multiples of variables; `none` stands for the constant one. -/
structure LinearCombination (F V : Type) where
  terms : List (Option V × F)

namespace LinearCombination

variable [CommRing F]

def var (v : V) : LinearCombination F V := ⟨[(some v, 1)]⟩

def const (c : F) : LinearCombination F V := ⟨[(none, c)]⟩

def scale (k : F) (lc : LinearCombination F V) : LinearCombination F V :=
  ⟨lc.terms.map fun term => (term.1, k * term.2)⟩

instance : Zero (LinearCombination F V) := ⟨⟨[]⟩⟩
instance : One (LinearCombination F V) := ⟨const 1⟩
instance : Add (LinearCombination F V) := ⟨fun lc other => ⟨lc.terms ++ other.terms⟩⟩
instance : Sub (LinearCombination F V) := ⟨fun lc other => lc + scale (-1) other⟩

def eval (σ : V → F) (lc : LinearCombination F V) : F :=
  (lc.terms.map fun term => term.1.elim 1 σ * term.2).sum

variable (σ : V → F)

@[simp] theorem eval_var (v : V) : eval σ (var v) = σ v := by simp [eval, var]

@[simp] theorem eval_const (c : F) : eval σ (const c) = c := by simp [eval, const]

@[simp] theorem eval_zero : eval σ (0 : LinearCombination F V) = 0 := rfl

@[simp] theorem eval_one : eval σ (1 : LinearCombination F V) = 1 := eval_const σ 1

@[simp] theorem eval_add (lc other : LinearCombination F V) :
    eval σ (lc + other) = eval σ lc + eval σ other := by
  change ((lc.terms ++ other.terms).map _).sum = _
  rw [List.map_append, List.sum_append]
  rfl

@[simp] theorem eval_scale (k : F) (lc : LinearCombination F V) :
    eval σ (scale k lc) = k * eval σ lc := by
  rw [eval, scale, List.map_map, eval, ← List.sum_map_mul_left]
  congr 2
  funext term
  exact mul_left_comm _ _ _

@[simp] theorem eval_sub (lc other : LinearCombination F V) :
    eval σ (lc - other) = eval σ lc - eval σ other := by
  change eval σ (lc + scale (-1) other) = _
  rw [eval_add, eval_scale]
  ring

end LinearCombination

/-- A product of two linear combinations is a third. -/
structure Constraint (F V : Type) where
  a : LinearCombination F V
  b : LinearCombination F V
  c : LinearCombination F V

section

variable [CommRing F]

def Constraint.Holds (σ : V → F) (constraint : Constraint F V) : Prop :=
  constraint.a.eval σ * constraint.b.eval σ = constraint.c.eval σ

instance [DecidableEq F] (σ : V → F) (constraint : Constraint F V) :
    Decidable (constraint.Holds σ) :=
  inferInstanceAs (Decidable (_ = _))

def Satisfied (σ : V → F) (constraints : List (Constraint F V)) : Prop :=
  ∀ constraint ∈ constraints, constraint.Holds σ

@[simp] theorem satisfied_nil (σ : V → F) : Satisfied σ [] := List.forall_mem_nil _

@[simp] theorem satisfied_cons {σ : V → F} {constraint : Constraint F V}
    {constraints : List (Constraint F V)} :
    Satisfied σ (constraint :: constraints) ↔ constraint.Holds σ ∧ Satisfied σ constraints :=
  List.forall_mem_cons

@[simp] theorem satisfied_append {σ : V → F} {constraints others : List (Constraint F V)} :
    Satisfied σ (constraints ++ others) ↔ Satisfied σ constraints ∧ Satisfied σ others :=
  List.forall_mem_append

@[simp] theorem satisfied_flatMap {α : Type} {σ : V → F} {items : List α}
    {constraints : α → List (Constraint F V)} :
    Satisfied σ (items.flatMap constraints) ↔ ∀ item ∈ items, Satisfied σ (constraints item) := by
  simp only [Satisfied, List.mem_flatMap, forall_exists_index, and_imp]
  exact ⟨fun all item listed constraint => all constraint item listed,
    fun all constraint item listed => all item listed constraint⟩

@[simp] theorem satisfied_map {α : Type} {σ : V → F} {items : List α}
    {constraint : α → Constraint F V} :
    Satisfied σ (items.map constraint) ↔ ∀ item ∈ items, (constraint item).Holds σ :=
  List.forall_mem_map

/-! Wires that carry bits. -/

def ofBool (bit : Bool) : F := if bit then 1 else 0

@[simp] theorem ofBool_false : (ofBool false : F) = 0 := rfl

@[simp] theorem ofBool_true : (ofBool true : F) = 1 := rfl

theorem ofBool_eq_cast (bit : Bool) : (ofBool bit : F) = (bit.toNat : F) := by
  cases bit <;> simp

private theorem ofBool_inj [Nontrivial F] {bit other : Bool} :
    (ofBool bit : F) = ofBool other ↔ bit = other := by
  cases bit <;> cases other <;> simp

theorem ofBool_xor (bit other : Bool) :
    (ofBool (bit ^^ other) : F) = ofBool bit + ofBool other - 2 * ofBool bit * ofBool other := by
  cases bit <;> cases other <;> simp
  ring

theorem mul_one_sub_eq_zero_iff [NoZeroDivisors F] {x : F} :
    x * (1 - x) = 0 ↔ ∃ bit, x = ofBool bit := by
  rw [mul_eq_zero, sub_eq_zero, Bool.exists_bool, ofBool_false, ofBool_true, eq_comm (a := (1 : F))]

def Encodes (σ : V → F) (wires : List (LinearCombination F V)) (bits : List Bool) : Prop :=
  wires.map (·.eval σ) = bits.map ofBool

namespace Encodes

variable {σ : V → F} {wires others : List (LinearCombination F V)} {bits more : List Bool}

theorem nil : Encodes σ [] [] := rfl

theorem length_eq (encodes : Encodes σ wires bits) : wires.length = bits.length := by
  simpa using congrArg List.length encodes

theorem append (encodes : Encodes σ wires bits) (rest : Encodes σ others more) :
    Encodes σ (wires ++ others) (bits ++ more) := by
  rw [Encodes, List.map_append, List.map_append, encodes, rest]

theorem take (encodes : Encodes σ wires bits) (n : Nat) :
    Encodes σ (wires.take n) (bits.take n) := by
  rw [Encodes, List.map_take, List.map_take, encodes]

theorem drop (encodes : Encodes σ wires bits) (n : Nat) :
    Encodes σ (wires.drop n) (bits.drop n) := by
  rw [Encodes, List.map_drop, List.map_drop, encodes]

theorem reverse (encodes : Encodes σ wires bits) : Encodes σ wires.reverse bits.reverse := by
  rw [Encodes, List.map_reverse, List.map_reverse, encodes]

theorem getD (encodes : Encodes σ wires bits) (i : Nat) :
    (wires.getD i 0).eval σ = ofBool (bits.getD i false) := by
  have wire : (wires.map (·.eval σ)).getD i 0 = (wires.getD i 0).eval σ :=
    List.getD_map wires 0 (LinearCombination.eval σ)
  have bit : (bits.map ofBool).getD i (0 : F) = ofBool (bits.getD i false) :=
    List.getD_map bits false ofBool
  rw [← wire, ← bit, encodes]

theorem unique [Nontrivial F] (encodes : Encodes σ wires bits) (again : Encodes σ wires more) :
    bits = more :=
  List.map_injective_iff.mpr (fun _ _ same => ofBool_inj.mp same) (encodes.symm.trans again)

end Encodes

theorem encodes_cons {σ : V → F} {wire : LinearCombination F V}
    {wires : List (LinearCombination F V)} {bit : Bool} {bits : List Bool} :
    Encodes σ (wire :: wires) (bit :: bits) ↔ wire.eval σ = ofBool bit ∧ Encodes σ wires bits :=
  List.cons_eq_cons

theorem encodes_append {σ : V → F} {wires others : List (LinearCombination F V)}
    {bits more : List Bool} (size : wires.length = bits.length) :
    Encodes σ (wires ++ others) (bits ++ more) ↔ Encodes σ wires bits ∧ Encodes σ others more := by
  constructor
  · intro both
    rw [Encodes, List.map_append, List.map_append] at both
    exact List.append_inj both (by rw [List.length_map, List.length_map, size])
  · intro both
    exact both.1.append both.2

theorem encodes_flatMap {α : Type} {σ : V → F} {items : List α}
    {wires : α → List (LinearCombination F V)} {bits : α → List Bool}
    (size : ∀ item, (wires item).length = (bits item).length) :
    Encodes σ (items.flatMap wires) (items.flatMap bits) ↔
      ∀ item ∈ items, Encodes σ (wires item) (bits item) := by
  induction items with
  | nil => simp [Encodes.nil]
  | cons item items ih =>
    rw [List.flatMap_cons, List.flatMap_cons, encodes_append (size item), ih, List.forall_mem_cons]

theorem encodes_ofFn {σ : V → F} {n : Nat} {wire : Fin n → LinearCombination F V}
    {bit : Fin n → Bool} :
    Encodes σ (List.ofFn wire) (List.ofFn bit) ↔ ∀ i, (wire i).eval σ = ofBool (bit i) := by
  rw [Encodes, List.map_ofFn, List.map_ofFn, List.ofFn_inj, funext_iff]
  rfl

theorem encodes_iff_getD {σ : V → F} {wires : List (LinearCombination F V)} {bits : List Bool}
    {n : Nat} (size : wires.length = n) (size' : bits.length = n) :
    Encodes σ wires bits ↔ ∀ i < n, (wires.getD i 0).eval σ = ofBool (bits.getD i false) := by
  constructor
  · intro encodes i _
    exact encodes.getD i
  · intro each
    refine List.ext_getElem (by rw [List.length_map, List.length_map, size, size']) ?_
    intro i within within'
    rw [List.length_map] at within within'
    have place := each i (size ▸ within)
    rw [List.getD_eq_getElem _ _ within, List.getD_eq_getElem _ _ within'] at place
    rw [List.getElem_map, List.getElem_map]
    exact place

theorem exists_encodes {σ : V → F} {wires : List (LinearCombination F V)}
    (each : ∀ wire ∈ wires, ∃ bit, wire.eval σ = ofBool bit) : ∃ bits, Encodes σ wires bits := by
  induction wires with
  | nil => exact ⟨[], .nil⟩
  | cons wire wires ih =>
    obtain ⟨bit, carried⟩ := each wire List.mem_cons_self
    obtain ⟨bits, rest⟩ := ih fun other listed => each other (List.mem_cons_of_mem wire listed)
    exact ⟨bit :: bits, encodes_cons.mpr ⟨carried, rest⟩⟩

end

end CbDaemon.Base.R1cs
