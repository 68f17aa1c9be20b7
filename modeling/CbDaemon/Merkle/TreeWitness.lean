/- module: CbDaemon/Merkle/TreeWitness
   source: zcash/IncrementalMerkleTree.hpp, zcash/IncrementalMerkleTree.cpp
   digest: A witness taken at one leaf follows the tree through every later append. -/

import CbDaemon.Merkle.IncrementalTree

set_option autoImplicit false
set_option relaxedAutoImplicit false

namespace CbDaemon.Merkle.TreeWitness

open CbDaemon.Merkle.PerfectTree
open CbDaemon.Merkle.IncrementalTree
open IncrementalMerkleTree (rootAt)

universe u

/-- A frozen tree, the roots of the uncles filled since, and the uncle being filled. -/
structure IncrementalWitness (H : Type u) where
  tree : IncrementalMerkleTree H
  filled : List H
  cursor : Option (IncrementalMerkleTree H)
  cursorDepth : Nat
  deriving DecidableEq, Repr

namespace IncrementalWitness

variable {H : Type u}

def empty : IncrementalWitness H := ⟨.empty, [], none, 0⟩

/-- `IncrementalMerkleTree::witness()`. -/
def ofTree (t : IncrementalMerkleTree H) : IncrementalWitness H := ⟨t, [], none, 0⟩

def element (w : IncrementalWitness H) : Except String H := w.tree.last

variable [TreeHash H]

def partialPath (w : IncrementalWitness H) : List H :=
  match w.cursor with
  | some c => w.filled ++ [rootAt w.cursorDepth [] c]
  | none => w.filled

def root (Depth : Nat) (w : IncrementalWitness H) : H := rootAt Depth w.partialPath w.tree

def append (Depth : Nat) (w : IncrementalWitness H) (obj : H) :
    Except String (IncrementalWitness H) :=
  match w.cursor with
  | some c => do
      let c' ← c.append Depth obj
      if c'.isComplete w.cursorDepth then
        .ok { w with filled := w.filled ++ [rootAt w.cursorDepth [] c'], cursor := none }
      else .ok { w with cursor := some c' }
  | none =>
      let depth := w.tree.nextDepth w.filled.length
      if Depth ≤ depth then .error "tree is full"
      else if depth = 0 then
        .ok { w with filled := w.filled ++ [obj], cursorDepth := depth }
      else do
        let c ← IncrementalMerkleTree.empty.append Depth obj
        .ok { w with cursor := some c, cursorDepth := depth }

def appendAll (Depth : Nat) (w : IncrementalWitness H) (xs : List H) :
    Except String (IncrementalWitness H) :=
  xs.foldlM (append Depth) w

end IncrementalWitness

open IncrementalWitness

variable {H : Type u} [TreeHash H] {Depth : Nat} {w : IncrementalWitness H} {xs ws : List H}

/-- The uncle in progress holds the leaves `vs` in the first hole of `rest`. -/
def CursorAt (w : IncrementalWitness H) (rest : List Nat) (vs : List H) : Prop :=
  match w.cursor with
  | none => vs = []
  | some c => ∃ later, rest = w.cursorDepth :: later ∧ 0 < w.cursorDepth ∧
      Holds c vs ∧ vs ≠ [] ∧ vs.length < 2 ^ w.cursorDepth

/-- The witness was taken over the leaves `xs` and has followed the leaves `ws`. -/
structure Follows (Depth : Nat) (w : IncrementalWitness H) (xs ws : List H) : Prop where
  tree : Holds w.tree xs
  levels : w.tree.parents.length < Depth
  state : ∃ (done rest : List Nat) (us vs : List H), holes Depth w.tree = done ++ rest ∧
    ws = us ++ vs ∧ us.length = capacity done ∧ w.filled = fillers done us ∧ CursorAt w rest vs

theorem follows_ofTree {t : IncrementalMerkleTree H} (h : Holds t xs)
    (levels : t.parents.length < Depth) : Follows Depth (ofTree t) xs [] :=
  ⟨h, levels, [], holes Depth t, [], [], rfl, rfl, rfl, rfl, rfl⟩

namespace Follows

private theorem partialPath_eq (h : Follows Depth w xs ws) :
    w.partialPath = fillers (holes Depth w.tree) ws := by
  obtain ⟨done, rest, us, vs, split, rfl, exact, filled, cursor⟩ := h.state
  rw [split, fillers_append done rest vs exact, ← filled]
  cases isCursor : w.cursor with
  | none =>
    simp only [CursorAt, isCursor] at cursor
    simp [partialPath, isCursor, cursor]
  | some c =>
    simp only [CursorAt, isCursor] at cursor
    obtain ⟨later, rfl, positive, holds, nonempty, small⟩ := cursor
    have fits : vs.length ≤ 2 ^ w.cursorDepth := Nat.le_of_lt small
    rw [fillers_cons_of_le _ _ nonempty fits,
      ← holds.rootAt_nil (holds.parents_lt positive fits)]
    simp [partialPath, isCursor]

theorem root_eq (h : Follows Depth w xs ws) : w.root Depth = perfectRoot Depth (xs ++ ws) := by
  rw [IncrementalWitness.root, h.partialPath_eq, h.tree.rootAt_fillers h.levels]

private theorem append_cursor (h : Follows Depth w xs ws) {c : IncrementalMerkleTree H}
    (isCursor : w.cursor = some c) (x : H) :
    ∃ w', w.append Depth x = .ok w' ∧ w'.tree = w.tree ∧ Follows Depth w' xs (ws ++ [x]) := by
  obtain ⟨done, rest, us, vs, split, rfl, exact, filled, cursor⟩ := h.state
  simp only [CursorAt, isCursor] at cursor
  obtain ⟨later, rfl, positive, holds, nonempty, small⟩ := cursor
  have below : w.cursorDepth < Depth := mem_holes_lt h.levels (by rw [split]; simp)
  have grow : 2 ^ w.cursorDepth ≤ 2 ^ Depth := Nat.pow_le_pow_right (by omega) (by omega)
  obtain ⟨c', step, holds'⟩ := holds.append (by omega) (Nat.lt_of_lt_of_le small grow) x
  have size : (vs ++ [x]).length = vs.length + 1 := by simp
  by_cases complete : c'.isComplete w.cursorDepth = true
  · have full := (holds'.isComplete_iff positive).mp complete
    refine ⟨{ w with filled := w.filled ++ [rootAt w.cursorDepth [] c'], cursor := none },
      ?_, rfl, h.tree, h.levels, done ++ [w.cursorDepth], later, us ++ (vs ++ [x]), [],
      by simp [split], by simp, by simp [exact, ← full], ?_, rfl⟩
    · simp only [IncrementalWitness.append, isCursor, step]
      exact if_pos complete
    · rw [fillers_append done _ _ exact, ← filled,
        fillers_cons_of_le _ _ (by simp) (Nat.le_of_eq full),
        ← holds'.rootAt_nil (holds'.parents_lt positive (Nat.le_of_eq full))]
  · have notFull : (vs ++ [x]).length ≠ 2 ^ w.cursorDepth := fun full =>
      complete ((holds'.isComplete_iff positive).mpr full)
    have still : (vs ++ [x]).length < 2 ^ w.cursorDepth := by omega
    refine ⟨{ w with cursor := some c' }, ?_, rfl, h.tree, h.levels, done,
      w.cursorDepth :: later, us, vs ++ [x], split, by simp, exact, filled,
      later, rfl, positive, holds', by simp, still⟩
    simp only [IncrementalWitness.append, isCursor, step]
    exact if_neg complete

private theorem append_noCursor (h : Follows Depth w xs ws) (noCursor : w.cursor = none)
    (room : xs.length + ws.length < 2 ^ Depth) (x : H) :
    ∃ w', w.append Depth x = .ok w' ∧ w'.tree = w.tree ∧ Follows Depth w' xs (ws ++ [x]) := by
  obtain ⟨done, rest, us, vs, split, rfl, exact, filled, cursor⟩ := h.state
  simp only [CursorAt, noCursor] at cursor
  subst cursor
  rw [List.append_nil] at room ⊢
  have total := h.tree.capacity_holes h.levels
  rw [split, capacity_append] at total
  obtain ⟨d, later, rfl⟩ : ∃ d later, rest = d :: later := by
    cases rest with
    | nil =>
      rw [capacity_nil] at total
      omega
    | cons d later => exact ⟨d, later, rfl⟩
  have count : w.filled.length = done.length := by rw [filled, length_fillers done exact]
  have next : w.tree.nextDepth w.filled.length = d := by
    rw [count, nextDepth_lt w.tree (by simp [split] : done.length < (holes Depth w.tree).length)]
    simp [split]
  have below : d < Depth := mem_holes_lt h.levels (by rw [split]; simp)
  by_cases leaf : d = 0
  · -- a hole of one leaf is filled at once, without a cursor
    subst leaf
    refine ⟨{ w with filled := w.filled ++ [x], cursorDepth := 0 }, ?_, rfl, h.tree, h.levels,
      done ++ [0], later, us ++ [x], [], by simp [split], by simp, by simp [exact], ?_, ?_⟩
    · simp [IncrementalWitness.append, noCursor, next, show ¬ Depth ≤ 0 by omega]
    · rw [fillers_append done _ _ exact, ← filled]
      rfl
    · simp [CursorAt, noCursor]
  · have one : ([] : List H).length < 2 ^ Depth := Nat.two_pow_pos Depth
    obtain ⟨c, step, holds⟩ := (holds_empty (H := H)).append (by omega) one x
    have two : 2 ≤ 2 ^ d := by
      have := Nat.pow_le_pow_right (n := 2) (by omega) (show 1 ≤ d by omega)
      simpa using this
    refine ⟨{ w with cursor := some c, cursorDepth := d }, ?_, rfl, h.tree, h.levels, done,
      d :: later, us, [x], split, rfl, exact, filled, later, rfl, Nat.pos_of_ne_zero leaf,
      holds, by simp, two⟩
    simp only [IncrementalWitness.append, noCursor, next, if_neg (Nat.not_le.mpr below),
      if_neg leaf, step]
    rfl

private theorem append (h : Follows Depth w xs ws) (room : xs.length + ws.length < 2 ^ Depth)
    (x : H) :
    ∃ w', w.append Depth x = .ok w' ∧ w'.tree = w.tree ∧ Follows Depth w' xs (ws ++ [x]) := by
  cases isCursor : w.cursor with
  | none => exact h.append_noCursor isCursor room x
  | some c => exact h.append_cursor isCursor x

theorem appendAll (h : Follows Depth w xs ws) (ys : List H)
    (room : xs.length + ws.length + ys.length ≤ 2 ^ Depth) :
    ∃ w', w.appendAll Depth ys = .ok w' ∧ w'.tree = w.tree ∧
      Follows Depth w' xs (ws ++ ys) := by
  induction ys generalizing w ws with
  | nil => exact ⟨w, rfl, rfl, by simpa using h⟩
  | cons y ys ih =>
    simp only [List.length_cons] at room
    obtain ⟨w₁, step, tree₁, h₁⟩ := h.append (by omega) y
    obtain ⟨w₂, rest, tree₂, h₂⟩ := ih h₁ (by
      simp only [List.length_append, List.length_singleton]
      omega)
    refine ⟨w₂, ?_, tree₂.trans tree₁, by simpa using h₂⟩
    simp only [IncrementalWitness.appendAll, List.foldlM_cons, step] at rest ⊢
    exact rest

private theorem rest_eq_nil {done rest : List Nat} {n k : Nat}
    (total : n + (capacity done + capacity rest) = k) (full : n + capacity done = k) :
    rest = [] := by
  cases rest with
  | nil => rfl
  | cons d later =>
    have := Nat.two_pow_pos d
    rw [capacity_cons] at total
    omega

private theorem append_full (h : Follows Depth w xs ws) (full : xs.length + ws.length = 2 ^ Depth)
    (x : H) : w.append Depth x = .error "tree is full" := by
  obtain ⟨done, rest, us, vs, split, rfl, exact, filled, cursor⟩ := h.state
  have total := h.tree.capacity_holes h.levels
  rw [split, capacity_append] at total
  rw [List.length_append, exact] at full
  cases isCursor : w.cursor with
  | some c =>
    -- an uncle in progress still has room
    simp only [CursorAt, isCursor] at cursor
    obtain ⟨later, rfl, _, _, _, small⟩ := cursor
    rw [capacity_cons] at total
    omega
  | none =>
    simp only [CursorAt, isCursor] at cursor
    subst cursor
    have none_ : rest = [] := rest_eq_nil total (by simpa using full)
    subst none_
    rw [List.append_nil] at split
    have count : w.filled.length = (holes Depth w.tree).length := by
      rw [filled, length_fillers done exact, split]
    rw [IncrementalWitness.append, isCursor]
    simp only [count, nextDepth_length w.tree h.levels, Nat.le_refl, if_true]

theorem fits_of_appendAll (h : Follows Depth w xs ws) (fits : xs.length + ws.length ≤ 2 ^ Depth)
    {ys : List H} {w' : IncrementalWitness H} (ok : w.appendAll Depth ys = .ok w') :
    xs.length + ws.length + ys.length ≤ 2 ^ Depth := by
  induction ys generalizing w ws with
  | nil => exact fits
  | cons y ys ih =>
    by_cases full : xs.length + ws.length = 2 ^ Depth
    · rw [IncrementalWitness.appendAll, List.foldlM_cons, h.append_full full y] at ok
      cases ok
    · obtain ⟨next, step, _, follows⟩ := h.append (by omega) y
      rw [IncrementalWitness.appendAll, List.foldlM_cons, step] at ok
      have later := ih follows (by rw [List.length_append, List.length_singleton]; omega) ok
      rw [List.length_append, List.length_singleton] at later
      rw [List.length_cons]
      omega

end Follows

end CbDaemon.Merkle.TreeWitness
