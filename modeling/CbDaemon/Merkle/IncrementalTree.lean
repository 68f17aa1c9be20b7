/- module: CbDaemon/Merkle/IncrementalTree
   source: zcash/IncrementalMerkleTree.hpp, zcash/IncrementalMerkleTree.cpp
   digest: The two-leaf tree with collapsed parents, and the leaf list it stands for. -/

import CbDaemon.Merkle.PerfectTree

set_option autoImplicit false
set_option relaxedAutoImplicit false

namespace CbDaemon.Merkle.IncrementalTree

open CbDaemon.Merkle.PerfectTree
open TreeHash

universe u

/-- Two leaves and the collapsed left subtrees, ordered towards the root. -/
structure IncrementalMerkleTree (H : Type u) where
  left : Option H
  right : Option H
  parents : List (Option H)
  deriving DecidableEq, Repr

namespace IncrementalMerkleTree

variable {H : Type u}

def empty : IncrementalMerkleTree H := ⟨none, none, []⟩

/-- The most recent leaf; the empty tree has no cursor. -/
def last (t : IncrementalMerkleTree H) : Except String H :=
  match t.right, t.left with
  | some r, _ => .ok r
  | none, some l => .ok l
  | none, none => .error "tree has no cursor"

def isComplete (t : IncrementalMerkleTree H) (depth : Nat) : Bool :=
  t.left.isSome && t.right.isSome && t.parents.length + 1 == depth &&
    t.parents.all Option.isSome

variable [TreeHash H]

/-- The carry loop of `append`; the first argument counts the levels left. -/
def carry : Nat → List (Option H) → H → List (Option H)
  | 0, parents, _ => parents
  | _ + 1, [], combined => [some combined]
  | _ + 1, none :: rest, combined => some combined :: rest
  | n + 1, some p :: rest, combined => none :: carry n rest (combine p combined)

def append (Depth : Nat) (t : IncrementalMerkleTree H) (obj : H) :
    Except String (IncrementalMerkleTree H) :=
  if t.isComplete Depth then .error "tree is full"
  else match t.left, t.right with
    | none, _ => .ok { t with left := some obj }
    | some _, none => .ok { t with right := some obj }
    | some l, some r =>
        .ok { left := some obj, right := none, parents := carry Depth t.parents (combine l r) }

/-- `PathFiller::next`: the front of the queue, or an empty root once it is used up. -/
def fillerNext (queue : List H) (depth : Nat) : H × List H :=
  match queue with
  | h :: rest => (h, rest)
  | [] => (emptyRoot depth, [])

/-- The loop over `parents` in `root`, with the depth reached so far. -/
def rootParents (d : Nat) (root : H) (queue : List H) : List (Option H) → Nat × H × List H
  | [] => (d, root, queue)
  | some p :: rest => rootParents (d + 1) (combine p root) queue rest
  | none :: rest =>
      rootParents (d + 1) (combine root (fillerNext queue d).1) (fillerNext queue d).2 rest

/-- The closing `while (d < depth)` loop of `root`; the first argument is `depth - d`. -/
def rootAbove : Nat → Nat → H → List H → H
  | 0, _, root, _ => root
  | n + 1, d, root, queue =>
      rootAbove n (d + 1) (combine root (fillerNext queue d).1) (fillerNext queue d).2

/-- The leaf pair of `root`, with fillers in the missing positions. -/
def rootLeaves (filler : List H) (t : IncrementalMerkleTree H) : H × List H :=
  let l := match t.left with
    | some h => (h, filler)
    | none => fillerNext filler 0
  let r := match t.right with
    | some h => (h, l.2)
    | none => fillerNext l.2 0
  (combine l.1 r.1, r.2)

/-- Root at a depth, with hashes that fill the uncle subtrees in order. -/
def rootAt (depth : Nat) (filler : List H) (t : IncrementalMerkleTree H) : H :=
  let base := rootLeaves filler t
  let s := rootParents 1 base.1 base.2 t.parents
  rootAbove (depth - s.1) s.1 s.2.1 s.2.2

/-- `root()` of a tree of maximal depth `Depth`. -/
def root (Depth : Nat) (t : IncrementalMerkleTree H) : H := rootAt Depth [] t

/-- The loop over `parents` in `next_depth`. -/
def nextDepthParents (d : Nat) : Nat → List (Option H) → Nat
  | skip, [] => d + skip
  | skip, some _ :: rest => nextDepthParents (d + 1) skip rest
  | 0, none :: _ => d
  | skip + 1, none :: rest => nextDepthParents (d + 1) skip rest

/-- Depth of the next unfilled subtree after `skip` filled ones. -/
def nextDepth (t : IncrementalMerkleTree H) (skip : Nat) : Nat :=
  match t.left, t.right, skip with
  | none, _, 0 => 0
  | none, none, 1 => 0
  | none, none, s + 2 => nextDepthParents 1 s t.parents
  | none, some _, s + 1 => nextDepthParents 1 s t.parents
  | some _, none, 0 => 0
  | some _, none, s + 1 => nextDepthParents 1 s t.parents
  | some _, some _, s => nextDepthParents 1 s t.parents

def appendAll (Depth : Nat) (t : IncrementalMerkleTree H) (xs : List H) :
    Except String (IncrementalMerkleTree H) :=
  xs.foldlM (append Depth) t

end IncrementalMerkleTree

open IncrementalMerkleTree

variable {H : Type u}

/-- The last collapsed parent is never missing. -/
def Canonical (ps : List (Option H)) : Prop := ps.getLast? ≠ some none

private theorem Canonical.tail {p : Option H} {ps : List (Option H)}
    (h : Canonical (p :: ps)) : Canonical ps := by
  cases ps with
  | nil => simp [Canonical]
  | cons q qs => simpa [Canonical, List.getLast?_cons_cons] using h

private theorem level_shift (d : Nat) (p : Option H) (ps : List (Option H)) :
    d + (p :: ps).length = d + 1 + ps.length := by
  simp only [List.length_cons]
  omega

private theorem two_pow_succ (d : Nat) : 2 ^ (d + 1) = 2 * 2 ^ d := by
  rw [Nat.pow_succ, Nat.mul_comm]

def holesParents (d : Nat) : List (Option H) → List Nat
  | [] => []
  | some _ :: rest => holesParents (d + 1) rest
  | none :: rest => d :: holesParents (d + 1) rest

def holesLeaves (t : IncrementalMerkleTree H) : List Nat :=
  (if t.left.isNone then [0] else []) ++ (if t.right.isNone then [0] else [])

/-- Depths of all subtrees still to be filled, from the leaves up to `depth`. -/
def holes (depth : Nat) (t : IncrementalMerkleTree H) : List Nat :=
  holesLeaves t ++
    holesParents 1 (t.parents ++ List.replicate (depth - (1 + t.parents.length)) none)

private theorem mem_holesParents (d : Nat) (ps : List (Option H)) {h : Nat}
    (mem : h ∈ holesParents d ps) : h < d + ps.length := by
  induction ps generalizing d with
  | nil => simp [holesParents] at mem
  | cons p ps ih =>
    rw [level_shift]
    cases p with
    | some p => exact ih (d + 1) mem
    | none =>
      rcases List.mem_cons.mp mem with rfl | later
      · omega
      · exact ih (d + 1) later

theorem mem_holes_lt {depth : Nat} {t : IncrementalMerkleTree H}
    (levels : t.parents.length < depth) {h : Nat} (mem : h ∈ holes depth t) : h < depth := by
  rcases List.mem_append.mp mem with leaf | above
  · have zero : h = 0 := by
      cases isLeft : t.left <;> cases isRight : t.right <;>
        simp only [holesLeaves, isLeft, isRight] at leaf <;> simp_all
    omega
  · have bound := mem_holesParents 1 _ above
    simp only [List.length_append, List.length_replicate] at bound
    omega

private theorem nextDepthParents_lt (ps : List (Option H)) (d skip : Nat)
    (inside : skip < (holesParents d ps).length) :
    nextDepthParents d skip ps = (holesParents d ps)[skip] := by
  induction ps generalizing d skip with
  | nil => simp [holesParents] at inside
  | cons p ps ih =>
    cases p with
    | some p => exact ih (d + 1) skip inside
    | none =>
      cases skip with
      | zero => rfl
      | succ skip => exact ih (d + 1) skip (by simpa [holesParents] using inside)

private theorem nextDepthParents_replicate (ps : List (Option H)) (d skip n : Nat) :
    nextDepthParents d skip (ps ++ List.replicate n none) = nextDepthParents d skip ps := by
  induction ps generalizing d skip with
  | nil =>
    simp only [List.nil_append]
    induction n generalizing d skip with
    | zero => rfl
    | succ n ih =>
      cases skip with
      | zero => rfl
      | succ skip =>
        simp only [List.replicate_succ, nextDepthParents, ih]
        omega
  | cons p ps ih =>
    cases p with
    | some p => exact ih (d + 1) skip
    | none =>
      cases skip with
      | zero => rfl
      | succ skip => exact ih (d + 1) skip

private theorem nextDepth_eq (t : IncrementalMerkleTree H) (skip : Nat) :
    t.nextDepth skip =
      if inside : skip < (holesLeaves t).length then (holesLeaves t)[skip]
      else nextDepthParents 1 (skip - (holesLeaves t).length) t.parents := by
  have outside (n : Nat) : ¬ n + 1 + 1 < 2 := by omega
  cases isLeft : t.left <;> cases isRight : t.right <;>
    rcases skip with _ | _ | skip <;> simp [nextDepth, holesLeaves, isLeft, isRight, outside]

theorem nextDepth_lt (t : IncrementalMerkleTree H) {depth skip : Nat}
    (inside : skip < (holes depth t).length) : t.nextDepth skip = (holes depth t)[skip] := by
  rw [nextDepth_eq]
  by_cases leaf : skip < (holesLeaves t).length
  · simp [holes, leaf]
  · have deeper : skip - (holesLeaves t).length < (holesParents 1
        (t.parents ++ List.replicate (depth - (1 + t.parents.length)) none)).length := by
      rw [holes, List.length_append] at inside
      omega
    have found := nextDepthParents_lt _ 1 _ deeper
    rw [nextDepthParents_replicate] at found
    simp only [leaf, dif_neg, not_false_eq_true, found, holes]
    rw [List.getElem_append_right (by omega)]

private theorem nextDepthParents_length (ps : List (Option H)) (d : Nat) :
    nextDepthParents d (holesParents d ps).length ps = d + ps.length := by
  induction ps generalizing d with
  | nil => rfl
  | cons p ps ih =>
    rw [level_shift]
    cases p with
    | some p => exact ih (d + 1)
    | none => exact ih (d + 1)

theorem nextDepth_length (t : IncrementalMerkleTree H) {depth : Nat}
    (levels : t.parents.length < depth) : t.nextDepth (holes depth t).length = depth := by
  have above := nextDepthParents_length
    (t.parents ++ List.replicate (depth - (1 + t.parents.length)) none) 1
  rw [nextDepthParents_replicate, List.length_append, List.length_replicate] at above
  rw [nextDepth_eq, holes, List.length_append, dif_neg (by omega), Nat.add_sub_cancel_left, above]
  omega

variable [TreeHash H]

/-- The collapsed parents from level `d` upward stand for the listed leaves:
a present parent is the root of a full block, later levels hold earlier leaves. -/
inductive Blocks : Nat → List (Option H) → List H → Prop
  | nil (d : Nat) : Blocks d [] []
  | absent {d : Nat} {ps : List (Option H)} {xs : List H} :
      Blocks (d + 1) ps xs → Blocks d (none :: ps) xs
  | present {d : Nat} {ps : List (Option H)} {xs ys : List H} :
      Blocks (d + 1) ps xs → ys.length = 2 ^ d →
        Blocks d (some (perfectRoot d ys) :: ps) (xs ++ ys)

/-- The tree stands for the listed leaves. -/
structure Holds (t : IncrementalMerkleTree H) (xs : List H) : Prop where
  blocks : ∃ ys, Blocks 1 t.parents ys ∧ xs = ys ++ (t.left.toList ++ t.right.toList)
  canonical : Canonical t.parents
  leftFirst : t.left = none → t.right = none ∧ t.parents = []

theorem holds_empty : Holds (empty : IncrementalMerkleTree H) [] :=
  ⟨⟨[], .nil 1, rfl⟩, by simp [Canonical, empty], fun _ => ⟨rfl, rfl⟩⟩

namespace Blocks

variable {d : Nat} {ps : List (Option H)} {xs : List H}

private theorem length_le (h : Blocks d ps xs) : xs.length + 2 ^ d ≤ 2 ^ (d + ps.length) := by
  induction h with
  | nil d => simp
  | @absent d ps xs _ ih =>
    rw [level_shift]
    rw [two_pow_succ] at ih
    omega
  | @present d ps xs ys _ size ih =>
    rw [level_shift, List.length_append]
    rw [two_pow_succ] at ih
    omega

private theorem length_eq_iff (h : Blocks d ps xs) :
    xs.length + 2 ^ d = 2 ^ (d + ps.length) ↔ ps.all Option.isSome := by
  -- every level is occupied exactly when the blocks reach the next power of two
  induction h with
  | nil d => simp
  | @absent d ps xs rest ih =>
    have bound := rest.length_le
    have pos : 0 < 2 ^ d := Nat.two_pow_pos d
    rw [two_pow_succ] at bound
    rw [level_shift]
    simp only [List.all_cons, Option.isSome_none, Bool.false_and, Bool.false_eq_true, iff_false]
    omega
  | @present d ps xs ys _ size ih =>
    rw [level_shift, List.length_append]
    simp only [List.all_cons, Option.isSome_some, Bool.true_and]
    rw [← ih, two_pow_succ]
    omega

private theorem dvd_length (h : Blocks d ps xs) : 2 ^ d ∣ xs.length := by
  induction h with
  | nil d => simp
  | @absent d ps xs _ ih => exact Nat.dvd_trans (Nat.pow_dvd_pow 2 (by omega)) ih
  | @present d ps xs ys _ size ih =>
    rw [List.length_append, size]
    exact Nat.dvd_add (Nat.dvd_trans (Nat.pow_dvd_pow 2 (by omega)) ih) (Nat.dvd_refl _)

private theorem pow_le_length (h : Blocks d ps xs) (canonical : Canonical ps) (nonempty : ps ≠ []) :
    2 ^ (d + ps.length) ≤ 2 * xs.length := by
  induction h with
  | nil d => exact absurd rfl nonempty
  | @absent d ps xs rest ih =>
    have more : ps ≠ [] := by
      rintro rfl
      simp [Canonical] at canonical
    rw [level_shift]
    exact ih canonical.tail more
  | @present d ps xs ys rest size ih =>
    rw [level_shift, List.length_append]
    by_cases more : ps = []
    · subst more
      rw [List.length_nil, Nat.add_zero, two_pow_succ]
      omega
    · have bound := ih canonical.tail more
      omega

private theorem append_replicate (h : Blocks d ps xs) (n : Nat) :
    Blocks d (ps ++ List.replicate n none) xs := by
  induction h with
  | nil d =>
    induction n generalizing d with
    | zero => exact .nil d
    | succ n ih => exact .absent (ih (d + 1))
  | absent _ ih => exact .absent ih
  | present _ size ih => exact .present ih size

private theorem carry (h : Blocks d ps xs) {us : List H} (size : us.length = 2 ^ d) (n : Nat)
    (room : ps.length < n) :
    Blocks d (IncrementalMerkleTree.carry n ps (perfectRoot d us)) (xs ++ us) := by
  -- the carry adds one full block at its level and keeps the leaf order
  induction h generalizing us n with
  | nil d =>
    cases n with
    | zero => omega
    | succ n => exact .present (.nil _) size
  | absent rest _ =>
    cases n with
    | zero => omega
    | succ n => exact .present rest size
  | @present d ps xs ys _ full ih =>
    cases n with
    | zero => omega
    | succ n =>
      have joined : (ys ++ us).length = 2 ^ (d + 1) := by
        rw [List.length_append, two_pow_succ]
        omega
      simp only [IncrementalMerkleTree.carry, List.append_assoc]
      rw [← perfectRoot_succ_append d us full]
      exact .absent (ih joined n (by simpa using room))

end Blocks

private theorem carry_ne_nil (n : Nat) (ps : List (Option H)) (c : H) (room : ps.length < n) :
    carry n ps c ≠ [] := by
  cases n with
  | zero => omega
  | succ n =>
    cases ps with
    | nil => simp [carry]
    | cons p ps => cases p <;> simp [carry]

private theorem carry_canonical (n : Nat) (ps : List (Option H)) (c : H)
    (room : ps.length < n) (canonical : Canonical ps) : Canonical (carry n ps c) := by
  induction ps generalizing n c with
  | nil =>
    cases n with
    | zero => omega
    | succ n => simp [carry, Canonical]
  | cons p ps ih =>
    cases n with
    | zero => omega
    | succ n =>
      cases p with
      | none =>
        cases ps with
        | nil => simp [carry, Canonical]
        | cons q qs => simpa [carry, Canonical, List.getLast?_cons_cons] using canonical
      | some p =>
        have room' : ps.length < n := by simpa using room
        have above := ih n (combine p c) room' canonical.tail
        obtain ⟨q, qs, shape⟩ := List.exists_cons_of_ne_nil (carry_ne_nil n ps (combine p c) room')
        simp only [carry]
        rw [shape] at above ⊢
        simpa [Canonical, List.getLast?_cons_cons] using above

namespace Holds

variable {t : IncrementalMerkleTree H} {xs : List H}

theorem parents_lt (h : Holds t xs) {depth : Nat} (positive : 0 < depth)
    (fits : xs.length ≤ 2 ^ depth) : t.parents.length < depth := by
  by_cases none : t.parents = []
  · simpa [none] using positive
  · obtain ⟨ys, blocks, rfl⟩ := h.blocks
    have size := blocks.pow_le_length h.canonical none
    have some : t.left.isSome := by
      cases missing : t.left with
      | none => exact absurd (h.leftFirst missing).2 none
      | some l => rfl
    obtain ⟨l, isLeft⟩ := Option.isSome_iff_exists.mp some
    have below : ys.length < 2 ^ depth := by
      simp only [isLeft, List.length_append, Option.toList_some, List.length_singleton] at fits
      omega
    rw [Nat.add_comm 1, two_pow_succ] at size
    exact (Nat.pow_lt_pow_iff_right (by omega)).mp (by omega : 2 ^ t.parents.length < 2 ^ depth)

private theorem leaves_of_even (h : Holds t xs) (positive : 0 < xs.length) (even : 2 ∣ xs.length) :
    ∃ l r, t.left = some l ∧ t.right = some r := by
  obtain ⟨ys, blocks, shape⟩ := h.blocks
  obtain ⟨half, ysEven⟩ := blocks.dvd_length
  cases isLeft : t.left with
  | none =>
    obtain ⟨noRight, noParents⟩ := h.leftFirst isLeft
    rw [noParents] at blocks
    cases blocks
    simp [shape, isLeft, noRight] at positive
  | some l =>
    cases isRight : t.right with
    | none =>
      rw [shape, isLeft, isRight, List.length_append, List.length_append] at even
      simp only [Option.toList_some, Option.toList_none, List.length_singleton,
        List.length_nil] at even
      omega
    | some r => exact ⟨l, r, rfl, rfl⟩

theorem isComplete_iff (h : Holds t xs) {depth : Nat} (positive : 0 < depth) :
    t.isComplete depth = true ↔ xs.length = 2 ^ depth := by
  obtain ⟨ys, blocks, shape⟩ := h.blocks
  have full := blocks.length_eq_iff
  have bound := blocks.length_le
  constructor
  · intro complete
    simp only [isComplete, Bool.and_eq_true, beq_iff_eq] at complete
    obtain ⟨⟨⟨hasLeft, hasRight⟩, levels⟩, all⟩ := complete
    obtain ⟨l, isLeft⟩ := Option.isSome_iff_exists.mp hasLeft
    obtain ⟨r, isRight⟩ := Option.isSome_iff_exists.mp hasRight
    have exact := full.mpr all
    rw [Nat.add_comm 1, levels] at exact
    simpa [shape, isLeft, isRight] using exact
  · intro size
    obtain ⟨below, rfl⟩ := Nat.exists_eq_succ_of_ne_zero (by omega : depth ≠ 0)
    have pos : 0 < 2 ^ below := Nat.two_pow_pos below
    rw [Nat.succ_eq_add_one, two_pow_succ] at size
    obtain ⟨l, r, isLeft, isRight⟩ := h.leaves_of_even (by omega) ⟨2 ^ below, size⟩
    have total : ys.length + 2 = 2 * 2 ^ below := by
      simpa [shape, isLeft, isRight] using size
    have lower : t.parents.length < below + 1 :=
      h.parents_lt (by omega) (by rw [two_pow_succ]; omega)
    have upper : below ≤ t.parents.length := by
      by_contra less
      have small : 2 ^ (1 + t.parents.length) ≤ 2 ^ below := Nat.pow_le_pow_right (by omega) (by omega)
      omega
    have levels : t.parents.length = below := by omega
    have all : t.parents.all Option.isSome = true := by
      apply full.mp
      rw [levels, Nat.add_comm 1, two_pow_succ]
      omega
    simp [isComplete, isLeft, isRight, levels, all]

theorem append (h : Holds t xs) {Depth : Nat} (positive : 0 < Depth)
    (room : xs.length < 2 ^ Depth) (x : H) :
    ∃ t', t.append Depth x = .ok t' ∧ Holds t' (xs ++ [x]) := by
  have open_ : t.isComplete Depth = false := by
    rw [Bool.eq_false_iff, ne_eq, h.isComplete_iff positive]
    omega
  have levels := h.parents_lt positive (Nat.le_of_lt room)
  obtain ⟨ys, blocks, shape⟩ := h.blocks
  cases isLeft : t.left with
  | none =>
    obtain ⟨noRight, noParents⟩ := h.leftFirst isLeft
    refine ⟨{ t with left := some x }, by simp [IncrementalMerkleTree.append, open_, isLeft], ?_⟩
    exact ⟨⟨ys, blocks, by simp [shape, isLeft, noRight]⟩, h.canonical, by simp⟩
  | some l =>
    cases isRight : t.right with
    | none =>
      refine ⟨{ t with right := some x },
        by simp [IncrementalMerkleTree.append, open_, isLeft, isRight], ?_⟩
      exact ⟨⟨ys, blocks, by simp [shape, isLeft, isRight]⟩, h.canonical, by simp [isLeft]⟩
    | some r =>
      refine ⟨⟨some x, none, carry Depth t.parents (combine l r)⟩,
        by simp [IncrementalMerkleTree.append, open_, isLeft, isRight], ?_⟩
      have pair : combine l r = perfectRoot 1 [l, r] := rfl
      refine ⟨⟨ys ++ [l, r], ?_, by simp [shape, isLeft, isRight]⟩,
        carry_canonical _ _ _ levels h.canonical, by simp⟩
      rw [pair]
      exact blocks.carry rfl Depth levels

theorem append_full (h : Holds t xs) {Depth : Nat} (positive : 0 < Depth)
    (full : xs.length = 2 ^ Depth) (x : H) : t.append Depth x = .error "tree is full" := by
  simp [IncrementalMerkleTree.append, (h.isComplete_iff positive).mpr full]

theorem appendAll (h : Holds t xs) {Depth : Nat} (positive : 0 < Depth) (ys : List H)
    (room : xs.length + ys.length ≤ 2 ^ Depth) :
    ∃ t', t.appendAll Depth ys = .ok t' ∧ Holds t' (xs ++ ys) := by
  induction ys generalizing t xs with
  | nil => exact ⟨t, rfl, by simpa using h⟩
  | cons y ys ih =>
    simp only [List.length_cons] at room
    obtain ⟨t₁, step, h₁⟩ := h.append positive (by omega) y
    obtain ⟨t₂, rest, h₂⟩ := ih h₁ (by simp only [List.length_append, List.length_singleton]; omega)
    refine ⟨t₂, ?_, by simpa using h₂⟩
    simp only [IncrementalMerkleTree.appendAll, List.foldlM_cons, step] at rest ⊢
    exact rest

theorem fits_of_appendAll (h : Holds t xs) {Depth : Nat} (positive : 0 < Depth)
    (fits : xs.length ≤ 2 ^ Depth) {ys : List H} {t' : IncrementalMerkleTree H}
    (ok : t.appendAll Depth ys = .ok t') :
    xs.length + ys.length ≤ 2 ^ Depth ∧ Holds t' (xs ++ ys) := by
  have room : xs.length + ys.length ≤ 2 ^ Depth := by
    by_contra beyond
    -- the appends that still fit give a full tree, and the next one fails
    have front : xs.length + (ys.take (2 ^ Depth - xs.length)).length = 2 ^ Depth := by
      rw [List.length_take]
      omega
    obtain ⟨full, reach, holds⟩ := h.appendAll positive _ (Nat.le_of_eq front)
    have size : (xs ++ ys.take (2 ^ Depth - xs.length)).length = 2 ^ Depth := by
      rw [List.length_append, front]
    have split : ys = ys.take (2 ^ Depth - xs.length) ++ ys.drop (2 ^ Depth - xs.length) :=
      (List.take_append_drop _ ys).symm
    cases rest : ys.drop (2 ^ Depth - xs.length) with
    | nil =>
      have short := List.drop_eq_nil_iff.mp rest
      omega
    | cons y rest' =>
      rw [IncrementalMerkleTree.appendAll, split, rest, List.foldlM_append] at ok
      rw [IncrementalMerkleTree.appendAll] at reach
      rw [reach] at ok
      have stuck := holds.append_full positive size y
      change (rest'.foldlM (IncrementalMerkleTree.append Depth) =<< full.append Depth y) = _ at ok
      rw [stuck] at ok
      cases ok
  obtain ⟨found, same, holds⟩ := h.appendAll positive ys room
  rw [same] at ok
  cases ok
  exact ⟨room, holds⟩

end Holds

private theorem rootParents_depth (d : Nat) (root : H) (queue : List H)
    (ps : List (Option H)) : (rootParents d root queue ps).1 = d + ps.length := by
  induction ps generalizing d root queue with
  | nil => rfl
  | cons p ps ih => cases p <;> rw [rootParents, ih, level_shift]

private theorem rootParents_append (d : Nat) (root : H) (queue : List H)
    (ps qs : List (Option H)) :
    rootParents d root queue (ps ++ qs) =
      rootParents (rootParents d root queue ps).1 (rootParents d root queue ps).2.1
        (rootParents d root queue ps).2.2 qs := by
  induction ps generalizing d root queue with
  | nil => rfl
  | cons p ps ih => cases p <;> simp only [List.cons_append, rootParents, ih]

private theorem rootAbove_eq (n d : Nat) (root : H) (queue : List H) :
    rootAbove n d root queue = (rootParents d root queue (List.replicate n none)).2.1 := by
  induction n generalizing d root queue with
  | zero => rfl
  | succ n ih => simp only [rootAbove, List.replicate_succ, rootParents, ih]

private theorem fillerNext_fillers (d : Nat) (hs : List Nat) (ws : List H) :
    fillerNext (fillers (d :: hs) ws) d =
      (perfectRoot d (ws.take (2 ^ d)), fillers hs (ws.drop (2 ^ d))) := by
  cases ws with
  | nil => simp [fillers, fillerNext]
  | cons w ws => rfl

/-- The climb over the parents: with the subtree below standing for `zs`, and the
later leaves `ws` in the fillers, it reaches the root over all leaves. A pending
filler is only used once the subtree below is full. -/
private theorem rootParents_spec {d : Nat} {ps : List (Option H)} {ys : List H}
    (blocks : Blocks d ps ys) {zs ws : List H} (fits : zs.length ≤ 2 ^ d)
    (ready : ws = [] ∨ zs.length = 2 ^ d) :
    (rootParents d (perfectRoot d zs) (fillers (holesParents d ps) ws) ps).2.1 =
      perfectRoot (d + ps.length) (ys ++ (zs ++ ws)) := by
  induction blocks generalizing zs ws with
  | nil d =>
    rcases ready with rfl | full
    · simp [rootParents]
    · simp only [rootParents, List.nil_append, List.length_nil, Nat.add_zero]
      exact (perfectRoot_full_append d ws full).symm
  | @present d ps xs ys _ full ih =>
    rw [level_shift]
    simp only [rootParents, holesParents, List.append_assoc]
    rw [← perfectRoot_succ_append d zs full, ← List.append_assoc ys]
    apply ih
    · rw [List.length_append, two_pow_succ]
      omega
    · refine ready.imp id fun closed => ?_
      rw [List.length_append, two_pow_succ]
      omega
  | @absent d ps xs _ ih =>
    rw [level_shift]
    simp only [rootParents, holesParents, fillerNext_fillers]
    rcases ready with rfl | full
    · have wider : zs.length ≤ 2 ^ (d + 1) := by
        rw [two_pow_succ]
        omega
      simpa [perfectRoot_succ_of_le d fits] using ih wider (Or.inl rfl)
    · rw [← perfectRoot_succ_append d _ full]
      have split : zs ++ ws = (zs ++ ws.take (2 ^ d)) ++ ws.drop (2 ^ d) := by
        rw [List.append_assoc, List.take_append_drop]
      rw [split]
      apply ih
      · rw [List.length_append, List.length_take, two_pow_succ]
        omega
      · by_cases few : ws.length ≤ 2 ^ d
        · exact Or.inl (List.drop_eq_nil_of_le few)
        · right
          rw [List.length_append, List.length_take, two_pow_succ]
          omega

private theorem rootLeaves_spec (t : IncrementalMerkleTree H) (ws : List H)
    (leftFirst : t.left = none → t.right = none) (hs : List Nat) :
    ∃ zs us : List H, (t.left.toList ++ t.right.toList) ++ ws = zs ++ us ∧
      zs.length ≤ 2 ^ 1 ∧ (us = [] ∨ zs.length = 2 ^ 1) ∧
      rootLeaves (fillers (holesLeaves t ++ hs) ws) t = (perfectRoot 1 zs, fillers hs us) := by
  cases isLeft : t.left with
  | none =>
    have isRight := leftFirst isLeft
    refine ⟨ws.take 2, ws.drop 2, by simp [isRight], List.length_take_le _ _, ?_, ?_⟩
    · rcases ws with _ | ⟨a, _ | ⟨b, ws⟩⟩ <;> simp
    · have shape : holesLeaves t ++ hs = 0 :: 0 :: hs := by simp [holesLeaves, isLeft, isRight]
      simp only [shape, rootLeaves, isLeft, isRight, fillerNext_fillers]
      rcases ws with _ | ⟨a, _ | ⟨b, ws⟩⟩ <;> rfl
  | some l =>
    cases isRight : t.right with
    | none =>
      refine ⟨l :: ws.take 1, ws.drop 1, by rcases ws with _ | ⟨a, ws⟩ <;> simp, ?_, ?_, ?_⟩
      · have := List.length_take_le 1 ws
        simp only [List.length_cons]
        omega
      · rcases ws with _ | ⟨a, ws⟩ <;> simp
      · have shape : holesLeaves t ++ hs = 0 :: hs := by simp [holesLeaves, isLeft, isRight]
        simp only [shape, rootLeaves, isLeft, isRight, fillerNext_fillers]
        rfl
    | some r =>
      have shape : holesLeaves t ++ hs = hs := by simp [holesLeaves, isLeft, isRight]
      refine ⟨[l, r], ws, by simp, by simp, Or.inr rfl, ?_⟩
      simp only [shape, rootLeaves, isLeft, isRight]
      rfl

private theorem rootAt_eq (depth : Nat) (filler : List H) (t : IncrementalMerkleTree H) :
    rootAt depth filler t =
      (rootParents 1 (rootLeaves filler t).1 (rootLeaves filler t).2
        (t.parents ++ List.replicate (depth - (1 + t.parents.length)) none)).2.1 := by
  simp only [rootAt, rootAbove_eq, rootParents_append, rootParents_depth]

theorem Holds.rootAt_fillers {t : IncrementalMerkleTree H} {xs : List H} (h : Holds t xs)
    {depth : Nat} (levels : t.parents.length < depth) (ws : List H) :
    rootAt depth (fillers (holes depth t) ws) t = perfectRoot depth (xs ++ ws) := by
  obtain ⟨ys, blocks, rfl⟩ := h.blocks
  obtain ⟨zs, us, split, fits, ready, base⟩ :=
    rootLeaves_spec t ws (fun missing => (h.leftFirst missing).1)
      (holesParents 1 (t.parents ++ List.replicate (depth - (1 + t.parents.length)) none))
  have top : 1 + (t.parents ++ List.replicate (depth - (1 + t.parents.length)) none).length =
      depth := by
    simp only [List.length_append, List.length_replicate]
    omega
  rw [rootAt_eq, holes, base, rootParents_spec (blocks.append_replicate _) fits ready, top,
    List.append_assoc, split]

theorem Holds.rootAt_nil {t : IncrementalMerkleTree H} {xs : List H} (h : Holds t xs)
    {depth : Nat} (levels : t.parents.length < depth) :
    rootAt depth [] t = perfectRoot depth xs := by
  simpa using h.rootAt_fillers levels []

theorem Holds.root {t : IncrementalMerkleTree H} {xs : List H} (h : Holds t xs)
    {Depth : Nat} (positive : 0 < Depth) (fits : xs.length ≤ 2 ^ Depth) :
    t.root Depth = perfectRoot Depth xs :=
  h.rootAt_nil (h.parents_lt positive fits)

private theorem holesParents_capacity {d : Nat} {ps : List (Option H)} {ys : List H}
    (blocks : Blocks d ps ys) :
    ys.length + capacity (holesParents d ps) + 2 ^ d = 2 ^ (d + ps.length) := by
  induction blocks with
  | nil d => simp [holesParents]
  | @absent d ps xs _ ih =>
    rw [level_shift, ← ih, holesParents, capacity_cons, two_pow_succ]
    omega
  | @present d ps xs ys _ full ih =>
    rw [level_shift, ← ih, holesParents, List.length_append, two_pow_succ]
    omega

theorem Holds.capacity_holes {t : IncrementalMerkleTree H} {xs : List H} (h : Holds t xs)
    {depth : Nat} (levels : t.parents.length < depth) :
    xs.length + capacity (holes depth t) = 2 ^ depth := by
  obtain ⟨ys, blocks, rfl⟩ := h.blocks
  have total := holesParents_capacity
    (blocks.append_replicate (depth - (1 + t.parents.length)))
  have top : 1 + (t.parents ++ List.replicate (depth - (1 + t.parents.length)) none).length =
      depth := by
    simp only [List.length_append, List.length_replicate]
    omega
  have leaves : (t.left.toList ++ t.right.toList).length + capacity (holesLeaves t) = 2 := by
    cases isLeft : t.left <;> cases isRight : t.right <;> simp [holesLeaves, isLeft, isRight]
  rw [top] at total
  rw [holes, capacity_append, List.length_append]
  omega

theorem Holds.last {t : IncrementalMerkleTree H} {xs : List H} {x : H}
    (h : Holds t (xs ++ [x])) : t.last = .ok x := by
  obtain ⟨ys, blocks, shape⟩ := h.blocks
  cases isLeft : t.left with
  | none =>
    obtain ⟨noRight, noParents⟩ := h.leftFirst isLeft
    rw [noParents] at blocks
    cases blocks
    simp [isLeft, noRight] at shape
  | some l =>
    cases isRight : t.right with
    | none =>
      have ends : xs ++ [x] = ys ++ [l] := by simpa [isLeft, isRight] using shape
      obtain ⟨-, same⟩ := List.append_inj' ends rfl
      simpa [IncrementalMerkleTree.last, isLeft, isRight] using (List.singleton_inj.mp same).symm
    | some r =>
      have ends : xs ++ [x] = (ys ++ [l]) ++ [r] := by simpa [isLeft, isRight] using shape
      obtain ⟨-, same⟩ := List.append_inj' ends rfl
      simpa [IncrementalMerkleTree.last, isLeft, isRight] using (List.singleton_inj.mp same).symm

end CbDaemon.Merkle.IncrementalTree
