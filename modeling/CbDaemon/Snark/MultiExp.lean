/- module: CbDaemon/Snark/MultiExp
   source: snark/libsnark/algebra/scalar_multiplication/multiexp.tcc
   digest: The multi-exponentiation by repeated subtraction on a heap is the plain sum. -/

import Mathlib.Algebra.BigOperators.Group.List.Basic
import Mathlib.Data.ZMod.Basic
import CbDaemon.Base.Heap
import CbDaemon.Base.InPlace
import CbDaemon.Snark.Wnaf

set_option autoImplicit false
set_option relaxedAutoImplicit false

namespace CbDaemon.Snark.MultiExp

open Base.Heap Base.InPlace Wnaf

structure OrderedExponent where
  idx : Nat
  r : Nat
deriving DecidableEq

def OrderedExponent.blank : OrderedExponent := ⟨0, 0⟩

open OrderedExponent (blank)

def numBits (x : Nat) : Nat := if x = 0 then 0 else x.log2 + 1

def exponent (q : List OrderedExponent) (i : Nat) : Nat := (q.getD i blank).r

/-- The child that `A` is swapped with on its way down. -/
def greaterChild (q : List OrderedExponent) (pos : Nat) : Nat :=
  if exponent q (2 * pos + 1) < exponent q (2 * pos + 2) then 2 * pos + 2 else 2 * pos + 1

/-- The loop that takes `A` down, which ends before it has had a turn for each place. -/
def heapifyDown : Nat → List OrderedExponent → Nat → List OrderedExponent × Nat
  | 0, q, pos => (q, pos)
  | turns + 1, q, pos =>
    if 2 * pos + 2 < q.length then
      heapifyDown turns (swapAt blank q pos (greaterChild q pos)) (greaterChild q pos)
    else (q, pos)

def heapifyUp : Nat → List OrderedExponent → Nat → List OrderedExponent
  | 0, q, _ => q
  | turns + 1, q, pos =>
    if 0 < pos ∧ exponent q ((pos - 1) / 2) < exponent q pos then
      heapifyUp turns (swapAt blank q pos ((pos - 1) / 2)) ((pos - 1) / 2)
    else q

def reheap (q : List OrderedExponent) : List OrderedExponent :=
  let down := heapifyDown q.length q 0
  heapifyUp down.2 down.1 down.2

/-- The test whether to exponentiate at once rather than to subtract many times. -/
def exponentiates (abits bbits : Nat) : Bool :=
  let apart := (abits + 2 ^ 64 - bbits) % 2 ^ 64
  let limit := if 20 ≤ apart then 20 else apart
  bbits < 2 ^ limit

variable {T : Type} [AddCommGroup T]

/-- The `while (true)` loop of `multi_exp_inner`, for a number of turns. -/
def innerLoop (windows : List Nat) (n : Nat) :
    Nat → List OrderedExponent → List T → T → Option T
  | 0, _, _, _ => none
  | turns + 1, q, g, result =>
    let a := q.getD 0 blank
    let b := q.getD (if exponent q 1 < exponent q 2 then 2 else 1) blank
    let abits := numBits a.r
    if b.r = 0 then do
      some (result + (← optWindowWnafExp windows n (g.getD a.idx 0) a.r abits))
    else
      if exponentiates abits (numBits b.r) then do
        let term ← optWindowWnafExp windows n (g.getD a.idx 0) a.r abits
        innerLoop windows n turns (reheap (q.set 0 ⟨a.idx, 0⟩)) g (result + term)
      else
        -- x A + y B => (x - y) A + y (B + A)
        let rest := (a.r + 2 ^ (64 * n) - b.r) % 2 ^ (64 * n)
        innerLoop windows n turns (reheap (q.set 0 ⟨a.idx, rest⟩))
          (g.set b.idx (g.getD b.idx 0 + g.getD a.idx 0)) result

variable {p : Nat}

/-- `opt_q` before the heap is made. -/
def exponents (scalars : List (ZMod p)) : List OrderedExponent :=
  scalars.zipIdx.map fun item => ⟨item.2, item.1.val⟩

/-- `multi_exp_inner`; no run takes more turns than the exponents have units. -/
def multiExpInner (windows : List Nat) (n : Nat) (heap : MakeHeap OrderedExponent.r blank)
    (vec : List T) (scalars : List (ZMod p)) : Option T :=
  if vec.length = 0 then some 0
  else if vec.length = 1 then some (scalarMul n (vec.getD 0 0) (scalars.getD 0 0).val)
  else if vec.length = scalars.length then
    let q := heap.make (exponents scalars)
    let turns := (q.map OrderedExponent.r).sum + 1
    if vec.length % 2 = 1 then innerLoop windows n turns q vec 0
    else innerLoop windows n turns (q ++ [⟨vec.length, 0⟩]) (vec ++ [0]) 0
  else none

/-- One turn of `naive_exp`. -/
def naiveTurn (windows : List Nat) (n : Nat) (result : T) (item : T × ZMod p) : Option T := do
  some (result + (← optWindowWnafExp windows n item.1 item.2.val (numBits item.2.val)))

def naiveExp (windows : List Nat) (n : Nat) (vec : List T) (scalars : List (ZMod p)) : Option T :=
  if vec.length = scalars.length then
    (vec.zip scalars).foldlM (naiveTurn windows n) 0
  else none

/-- The `i`-th of the ranges that are handled on their own. -/
def slice {α : Type*} (one chunks : Nat) (xs : List α) (i : Nat) : List α :=
  (xs.drop (i * one)).take (if i = chunks - 1 then xs.length - i * one else one)

def multiExp (windows : List Nat) (n : Nat) (heap : MakeHeap OrderedExponent.r blank)
    (vec : List T) (scalars : List (ZMod p)) (chunks : Nat) (useMultiexp : Bool) : Option T :=
  if vec.length < chunks then naiveExp windows n vec scalars
  else if chunks = 0 then none
  else do
    let one := vec.length / chunks
    let parts ← (List.range chunks).mapM fun i =>
      if useMultiexp then
        multiExpInner windows n heap (slice one chunks vec i) (slice one chunks scalars i)
      else naiveExp windows n (slice one chunks vec i) (slice one chunks scalars i)
    some (parts.foldl (· + ·) 0)

/-- The loop of `multi_exp_with_mixed_addition`: the sum of what has the scalar one, and what is
left to be multiplied. -/
def processScalars (state : T × List T × List (ZMod p)) (item : T × ZMod p) :
    T × List T × List (ZMod p) :=
  if item.2 = 0 then state
  else if item.2 = 1 then (state.1 + item.1, state.2.1, state.2.2)
  else (state.1, state.2.1 ++ [item.1], state.2.2 ++ [item.2])

def multiExpWithMixedAddition (windows : List Nat) (n : Nat)
    (heap : MakeHeap OrderedExponent.r blank) (vec : List T) (scalars : List (ZMod p))
    (chunks : Nat) (useMultiexp : Bool) : Option T :=
  if vec.length = scalars.length then do
    let (acc, g, others) := (vec.zip scalars).foldl processScalars (0, [], [])
    some (acc + (← multiExp windows n heap g others chunks useMultiexp))
  else none

/-! The heap. -/

private theorem exponent_swapAt {q : List OrderedExponent} {i j : Nat} (within : i < q.length)
    (within' : j < q.length) : exponent (swapAt blank q i j) = exponent q ∘ Equiv.swap i j := by
  funext k
  rw [exponent, getD_swapAt within within']
  rfl

private theorem greaterChild_eq (q : List OrderedExponent) (pos : Nat) :
    greaterChild q pos = 2 * pos + 1 ∨ greaterChild q pos = 2 * pos + 2 := by
  rw [greaterChild]
  split_ifs
  · exact .inr rfl
  · exact .inl rfl

private theorem le_greaterChild {q : List OrderedExponent} {pos i : Nat} (positive : 0 < i)
    (child : parent i = pos) : exponent q i ≤ exponent q (greaterChild q pos) := by
  have children : i = 2 * pos + 1 ∨ i = 2 * pos + 2 := by
    rw [parent] at child
    omega
  rw [greaterChild]
  split_ifs with less
  · rcases children with rfl | rfl
    · exact less.le
    · exact le_rfl
  · rcases children with rfl | rfl
    · exact le_rfl
    · exact not_lt.mp less

private theorem heapifyDown_spec {turns : Nat} {q : List OrderedExponent} {pos : Nat}
    (odd : q.length % 2 = 1) (within : pos < q.length) (enough : q.length ≤ turns + pos)
    (hole : HoleAt q.length (exponent q) pos) :
    (heapifyDown turns q pos).1.Perm q ∧ (heapifyDown turns q pos).2 < q.length ∧
      RisingAt q.length (exponent (heapifyDown turns q pos).1) (heapifyDown turns q pos).2 := by
  induction turns generalizing q pos with
  | zero => omega
  | succ turns ih =>
    rw [heapifyDown]
    split_ifs with inner
    · have either := greaterChild_eq q pos
      have next := hole.down (c := greaterChild q pos) (by omega) (by omega)
        (by rw [parent]; omega) fun i positive _ child => le_greaterChild positive child
      rw [← exponent_swapAt within (by omega),
        ← length_swapAt blank q pos (greaterChild q pos)] at next
      obtain ⟨perm, inside, rising⟩ := ih (by rwa [length_swapAt]) (by rw [length_swapAt]; omega)
        (by rw [length_swapAt]; omega) next
      rw [length_swapAt] at inside rising
      exact ⟨perm.trans (swapAt_perm within (by omega)), inside, rising⟩
    · exact ⟨List.Perm.refl q, within, hole.risingAt (by omega)⟩

private theorem heapifyUp_spec {turns : Nat} {q : List OrderedExponent} {pos : Nat}
    (within : pos < q.length) (enough : pos ≤ turns)
    (rising : RisingAt q.length (exponent q) pos) :
    (heapifyUp turns q pos).Perm q ∧ IsHeap q.length (exponent (heapifyUp turns q pos)) := by
  induction turns generalizing q pos with
  | zero => exact ⟨List.Perm.refl q, rising.isHeap (.inl (by omega))⟩
  | succ turns ih =>
    rw [heapifyUp]
    split_ifs with greater
    · have above : (pos - 1) / 2 < pos := parent_lt greater.1
      have next := rising.up greater.1 within greater.2
      rw [parent, ← exponent_swapAt within (by omega),
        ← length_swapAt blank q pos ((pos - 1) / 2)] at next
      obtain ⟨perm, heap⟩ := ih (by rw [length_swapAt]; omega) (by omega) next
      rw [length_swapAt] at heap
      exact ⟨perm.trans (swapAt_perm within (by omega)), heap⟩
    · refine ⟨List.Perm.refl q, rising.isHeap ?_⟩
      by_cases root : pos = 0
      · exact .inl root
      · exact .inr (not_lt.mp fun less => greater ⟨Nat.pos_of_ne_zero root, less⟩)

private theorem reheap_spec {q : List OrderedExponent} (odd : q.length % 2 = 1)
    (hole : HoleAt q.length (exponent q) 0) :
    (reheap q).Perm q ∧ IsHeap q.length (exponent (reheap q)) := by
  obtain ⟨perm, inside, rising⟩ := heapifyDown_spec odd (by omega) (le_refl _) hole
  rw [reheap]
  generalize heapifyDown q.length q 0 = down at perm inside rising
  rw [← perm.length_eq] at inside rising
  obtain ⟨perm', heap⟩ := heapifyUp_spec inside (le_refl _) rising
  rw [perm.length_eq] at heap
  exact ⟨perm'.trans perm, heap⟩

/-! What the queue stands for. -/

def total (g : List T) (q : List OrderedExponent) : T := (q.map fun e => e.r • g.getD e.idx 0).sum

private theorem total_perm (g : List T) {q q' : List OrderedExponent} (perm : q.Perm q') :
    total g q = total g q' := (perm.map _).sum_eq

private theorem total_cons (g : List T) (a : OrderedExponent) (q : List OrderedExponent) :
    total g (a :: q) = a.r • g.getD a.idx 0 + total g q := List.sum_cons

/-- A queue whose elements have places of their own, with exponents that leave the highest bit of
their limbs free. -/
structure Stocked (k : Nat) (g : List T) (q : List OrderedExponent) : Prop where
  apart : (q.map OrderedExponent.idx).Nodup
  within : ∀ e ∈ q, e.idx < g.length
  small : ∀ e ∈ q, e.r ≤ 2 ^ k
  heap : IsHeap q.length (exponent q)

/-- Such a queue, of an odd length above one. -/
structure Ready (k : Nat) (g : List T) (q : List OrderedExponent) : Prop extends Stocked k g q where
  large : 2 < q.length
  odd : q.length % 2 = 1

omit [AddCommGroup T] in
private theorem Ready.next {k : Nat} {g g' : List T} {a : OrderedExponent}
    {rest : List OrderedExponent}
    (ready : Ready k g (a :: rest)) {r : Nat} (less : r ≤ a.r) (same : g'.length = g.length) :
    (reheap (⟨a.idx, r⟩ :: rest)).Perm (⟨a.idx, r⟩ :: rest) ∧
      Ready k g' (reheap (⟨a.idx, r⟩ :: rest)) := by
  have hole : HoleAt (a :: rest).length (exponent (⟨a.idx, r⟩ :: rest)) 0 :=
    ready.heap.holeAt fun i inner => by
      obtain ⟨j, rfl⟩ := Nat.exists_eq_succ_of_ne_zero inner
      rfl
  obtain ⟨perm, heap⟩ := reheap_spec (q := ⟨a.idx, r⟩ :: rest) ready.odd hole
  obtain ⟨inside, others⟩ := List.forall_mem_cons.mp ready.within
  obtain ⟨small, smaller⟩ := List.forall_mem_cons.mp ready.small
  refine ⟨perm, ⟨?_, ?_, ?_, ?_⟩, ?_, ?_⟩
  · exact (perm.map OrderedExponent.idx).nodup_iff.mpr ready.apart
  · intro e listed
    rw [same]
    rcases List.mem_cons.mp (perm.mem_iff.mp listed) with rfl | later
    · exact inside
    · exact others e later
  · intro e listed
    rcases List.mem_cons.mp (perm.mem_iff.mp listed) with rfl | later
    · exact less.trans small
    · exact smaller e later
  · rw [perm.length_eq]
    exact heap
  · rw [perm.length_eq]
    exact ready.large
  · rw [perm.length_eq]
    exact ready.odd

private theorem total_subtract {g : List T} {a b : OrderedExponent} {rest : List OrderedExponent}
    (apart : ((a :: rest).map OrderedExponent.idx).Nodup) (listed : b ∈ rest)
    (within : b.idx < g.length) (less : b.r ≤ a.r) :
    total (g.set b.idx (g.getD b.idx 0 + g.getD a.idx 0)) (⟨a.idx, a.r - b.r⟩ :: rest) =
      total g (a :: rest) := by
  -- `x A + y B` is `(x - y) A + y (B + A)`
  have perm := List.perm_cons_erase listed
  have distinct := ((perm.cons a).map OrderedExponent.idx).nodup_iff.mp apart
  rw [List.map_cons, List.map_cons, List.nodup_cons, List.nodup_cons, List.mem_cons,
    not_or] at distinct
  obtain ⟨⟨different, -⟩, own, -⟩ := distinct
  have others : total (g.set b.idx (g.getD b.idx 0 + g.getD a.idx 0)) (rest.erase b) =
      total g (rest.erase b) := by
    refine congrArg List.sum (List.map_congr_left fun e among => ?_)
    rw [getD_set _ _ within, if_neg fun same => own (List.mem_map.mpr ⟨e, among, same⟩)]
  rw [total_cons, total_cons, total_perm _ perm, total_perm g perm, total_cons, total_cons, others,
    getD_set _ _ within, getD_set _ _ within, if_neg different, if_pos rfl, smul_add]
  have split : a.r • g.getD a.idx 0 = (a.r - b.r) • g.getD a.idx 0 + b.r • g.getD a.idx 0 := by
    rw [← add_smul, Nat.sub_add_cancel less]
  rw [split]
  abel

variable {windows : List Nat} {n k : Nat}

private theorem innerLoop_spec (short : windows.length < 30) (fits : k < 64 * n) {turns : Nat}
    {q : List OrderedExponent} {g : List T} (ready : Ready k g q)
    (enough : (q.map OrderedExponent.r).sum < turns) (result : T) :
    innerLoop windows n turns q g result = some (result + total g q) := by
  -- the loop computes what its queue stands for
  induction turns generalizing q g result with
  | zero => omega
  | succ turns ih =>
    obtain _ | ⟨a, rest⟩ := q
    · exact absurd ready.large (by decide)
    set place := if exponent (a :: rest) 1 < exponent (a :: rest) 2 then 2 else 1 with chosen
    set b := (a :: rest).getD place blank with second
    have large := ready.large
    have positive : 0 < place ∧ place < (a :: rest).length := by
      rw [chosen]
      split_ifs <;> omega
    have listed : b ∈ rest := by
      obtain ⟨j, shifted⟩ := Nat.exists_eq_succ_of_ne_zero positive.1.ne'
      rw [List.length_cons] at positive
      rw [second, shifted, Nat.succ_eq_add_one, List.getD_cons_succ,
        List.getD_eq_getElem _ _ (by omega)]
      exact List.getElem_mem _
    have less : b.r ≤ a.r := ready.heap.le_root positive.2
    have most : max (exponent (a :: rest) 1) (exponent (a :: rest) 2) = b.r := by
      rw [second, ← exponent, chosen]
      split_ifs with greater
      · exact max_eq_right greater.le
      · exact max_eq_left (not_lt.mp greater)
    have single : ∀ scalarBits, optWindowWnafExp windows n (g.getD a.idx 0) a.r scalarBits =
        some (a.r • g.getD a.idx 0) :=
      optWindowWnafExp_spec short fits (ready.small a List.mem_cons_self) _
    rw [List.map_cons, List.sum_cons] at enough
    rw [innerLoop]
    simp only [← chosen, ← second, List.getD_cons_zero, List.set_cons_zero, single,
      Option.bind_eq_bind, Option.bind_some]
    split_ifs with zero direct
    · -- nothing is left beside `a`
      have none : total g rest = 0 := by
        refine List.sum_eq_zero fun term among => ?_
        obtain ⟨e, inside, rfl⟩ := List.mem_map.mp among
        obtain ⟨i, within, value⟩ := List.getElem_of_mem inside
        have bound := ready.heap.le_children (Nat.succ_pos i) (Nat.succ_lt_succ within)
        rw [most, zero, exponent, List.getD_cons_succ, List.getD_eq_getElem _ _ within, value,
          Nat.le_zero] at bound
        rw [bound, zero_smul]
      rw [total_cons, none, add_zero]
    · obtain ⟨perm, ready'⟩ := ready.next (Nat.zero_le a.r) (rfl : g.length = g.length)
      have fewer : ((reheap (⟨a.idx, 0⟩ :: rest)).map OrderedExponent.r).sum < turns := by
        rw [(perm.map _).sum_eq]
        simp only [List.map_cons, List.sum_cons]
        omega
      rw [ih ready' fewer, total_perm g perm, total_cons, total_cons, zero_smul, zero_add,
        add_assoc]
    · have bound : 2 ^ k < 2 ^ (64 * n) := Nat.pow_lt_pow_right (by decide) fits
      have small := ready.small a List.mem_cons_self
      have difference : (a.r + 2 ^ (64 * n) - b.r) % 2 ^ (64 * n) = a.r - b.r := by
        rw [Nat.sub_add_comm less, Nat.add_mod_right, Nat.mod_eq_of_lt (by omega)]
      rw [difference]
      have same : (g.set b.idx (g.getD b.idx 0 + g.getD a.idx 0)).length = g.length :=
        List.length_set
      obtain ⟨perm, ready'⟩ := ready.next (Nat.sub_le a.r b.r) same
      have fewer : ((reheap (⟨a.idx, a.r - b.r⟩ :: rest)).map OrderedExponent.r).sum < turns := by
        rw [(perm.map _).sum_eq]
        simp only [List.map_cons, List.sum_cons]
        omega
      rw [ih ready' fewer, total_perm _ perm, total_subtract ready.apart listed
        (ready.within b (List.mem_cons_of_mem a listed)) less]

/-! The functions around the loop. -/

def plainSum (vec : List T) (scalars : List (ZMod p)) : T :=
  (List.zipWith (fun v s => s.val • v) vec scalars).sum

private theorem total_exponents {vec : List T} {scalars : List (ZMod p)}
    (same : vec.length = scalars.length) :
    total vec (exponents scalars) = plainSum vec scalars := by
  rw [total, exponents, List.map_map, plainSum]
  congr 1
  refine List.ext_getElem (by simp [same]) fun i within _ => ?_
  have inside : i < vec.length := by simpa [same] using within
  rw [List.getElem_map, List.getElem_zipIdx, List.getElem_zipWith, Function.comp_apply,
    Nat.zero_add, List.getD_eq_getElem _ _ inside]

private theorem total_append_zero (g : List T) (q : List OrderedExponent)
    (within : ∀ e ∈ q, e.idx < g.length) :
    total (g ++ [0]) (q ++ [⟨g.length, 0⟩]) = total g q := by
  rw [total, List.map_append, List.sum_append, List.map_singleton, List.sum_singleton, zero_smul,
    add_zero, total]
  refine congrArg List.sum (List.map_congr_left fun e listed => ?_)
  rw [List.getD_append _ _ _ _ (within e listed)]

private theorem map_idx_exponents (scalars : List (ZMod p)) :
    (exponents scalars).map OrderedExponent.idx = List.range scalars.length := by
  rw [exponents, List.map_map]
  exact List.zipIdx_map_snd 0 scalars |>.trans List.range_eq_range'.symm

variable [NeZero p]

private theorem exponents_small (below : p ≤ 2 ^ k) (scalars : List (ZMod p)) :
    ∀ e ∈ exponents scalars, e.r ≤ 2 ^ k := by
  intro e listed
  obtain ⟨item, -, rfl⟩ := List.mem_map.mp listed
  exact (ZMod.val_lt item.1).le.trans below

omit [AddCommGroup T] in
private theorem stocked_make (below : p ≤ 2 ^ k) (heap : MakeHeap OrderedExponent.r blank)
    {vec : List T}
    {scalars : List (ZMod p)} (same : vec.length = scalars.length) :
    Stocked k vec (heap.make (exponents scalars)) := by
  have perm := heap.perm (exponents scalars)
  have places := map_idx_exponents scalars
  refine ⟨?_, fun e listed => ?_, fun e listed => ?_, ?_⟩
  · rw [(perm.map _).nodup_iff, places]
    exact List.nodup_range
  · have place := List.mem_map_of_mem (f := OrderedExponent.idx) (perm.mem_iff.mp listed)
    rw [places, List.mem_range] at place
    omega
  · exact exponents_small below scalars e (perm.mem_iff.mp listed)
  · rw [perm.length_eq]
    exact heap.heap _

omit [AddCommGroup T] in
private theorem Stocked.pad [Zero T] {vec : List T} {q : List OrderedExponent}
    (stocked : Stocked k vec q) :
    Stocked k (vec ++ [0]) (q ++ [⟨vec.length, 0⟩]) := by
  -- the element that makes the length odd is the least, so it may stand at the end
  refine ⟨?_, fun e listed => ?_, fun e listed => ?_, fun i positive inside => ?_⟩
  · rw [List.map_append, List.map_singleton, List.nodup_append_comm, List.singleton_append,
      List.nodup_cons]
    refine ⟨fun taken => ?_, stocked.apart⟩
    obtain ⟨e, listed, place⟩ := List.mem_map.mp taken
    exact absurd place (stocked.within e listed).ne
  · rw [List.length_append, List.length_singleton]
    rcases List.mem_append.mp listed with earlier | last
    · exact (stocked.within e earlier).trans (Nat.lt_succ_self _)
    · rw [List.mem_singleton.mp last]
      exact Nat.lt_succ_self _
  · rcases List.mem_append.mp listed with earlier | last
    · exact stocked.small e earlier
    · rw [List.mem_singleton.mp last]
      exact Nat.zero_le _
  · rw [List.length_append, List.length_singleton] at inside
    have above := parent_lt positive
    by_cases earlier : i < q.length
    · rw [exponent, exponent, List.getD_append _ _ _ _ earlier,
        List.getD_append _ _ _ _ (above.trans earlier)]
      exact stocked.heap i positive earlier
    · have last : i = q.length := by omega
      rw [exponent, last, List.getD_append_right _ _ _ _ (le_refl _), Nat.sub_self,
        List.getD_cons_zero]
      exact Nat.zero_le _

private theorem multiExpInner_spec (short : windows.length < 30) (fits : k < 64 * n)
    (below : p ≤ 2 ^ k)
    (heap : MakeHeap OrderedExponent.r blank) {vec : List T} {scalars : List (ZMod p)}
    (same : vec.length = scalars.length) :
    multiExpInner windows n heap vec scalars = some (plainSum vec scalars) := by
  have stocked := stocked_make below heap same
  have perm := heap.perm (exponents scalars)
  have value : total vec (heap.make (exponents scalars)) = plainSum vec scalars := by
    rw [total_perm vec perm, total_exponents same]
  have size : (heap.make (exponents scalars)).length = vec.length := by
    rw [perm.length_eq, exponents, List.length_map, List.length_zipIdx, same]
  rw [multiExpInner]
  split_ifs with empty single odd
  · rw [plainSum, List.length_eq_zero_iff.mp empty, List.zipWith_nil_left, List.sum_nil]
  · obtain ⟨v, rfl⟩ := List.length_eq_one_iff.mp single
    obtain ⟨s, rfl⟩ := List.length_eq_one_iff.mp (same.symm.trans single)
    have bound : 2 ^ k < 2 ^ (64 * n) := Nat.pow_lt_pow_right (by decide) fits
    have small := ZMod.val_lt s
    rw [List.getD_cons_zero, List.getD_cons_zero, scalarMul_spec (by omega)]
    simp [plainSum]
  · rw [innerLoop_spec short fits ⟨stocked, by omega, by omega⟩ (Nat.lt_succ_self _), zero_add,
      value]
  · have longer : (heap.make (exponents scalars) ++ [OrderedExponent.mk vec.length 0]).length =
        (heap.make (exponents scalars)).length + 1 := List.length_append
    have enough : ((heap.make (exponents scalars) ++ [OrderedExponent.mk vec.length 0]).map
        OrderedExponent.r).sum <
          ((heap.make (exponents scalars)).map OrderedExponent.r).sum + 1 := by
      simp
    rw [innerLoop_spec short fits ⟨stocked.pad, by omega, by omega⟩ enough, zero_add,
      total_append_zero vec _ stocked.within, value]

private theorem naiveTurn_spec (short : windows.length < 30) (fits : k < 64 * n) (below : p ≤ 2 ^ k)
    (result : T) (item : T × ZMod p) :
    naiveTurn windows n result item = some (result + item.2.val • item.1) := by
  rw [naiveTurn, optWindowWnafExp_spec short fits ((ZMod.val_lt item.2).le.trans below)]
  rfl

private theorem naiveExp_spec (short : windows.length < 30) (fits : k < 64 * n) (below : p ≤ 2 ^ k)
    {vec : List T} {scalars : List (ZMod p)} (same : vec.length = scalars.length) :
    naiveExp windows n vec scalars = some (plainSum vec scalars) := by
  have run : ∀ (vec : List T) (scalars : List (ZMod p)) (result : T),
      (vec.zip scalars).foldlM (naiveTurn windows n) result =
        some (result + plainSum vec scalars) := by
    intro vec
    induction vec with
    | nil => simp [plainSum]
    | cons v vec ih =>
      intro scalars result
      cases scalars with
      | nil => simp [plainSum]
      | cons s scalars =>
        rw [List.zip_cons_cons, List.foldlM_cons, naiveTurn_spec short fits below,
          Option.bind_eq_bind, Option.bind_some, ih, plainSum, plainSum, List.zipWith_cons_cons,
          List.sum_cons, add_assoc]
  rw [naiveExp, if_pos same, run, zero_add]

/-! The chunks. -/

private theorem slice_zipWith {α β γ : Type*} (f : α → β → γ) (one chunks : Nat) {xs : List α}
    {ys : List β}
    (same : xs.length = ys.length) (i : Nat) :
    List.zipWith f (slice one chunks xs i) (slice one chunks ys i) =
      slice one chunks (List.zipWith f xs ys) i := by
  rw [slice, slice, slice, List.length_zipWith, ← same, Nat.min_self, ← List.take_zipWith,
    ← List.drop_zipWith]

private theorem length_slice {α β : Type*} (one chunks : Nat) {xs : List α} {ys : List β}
    (same : xs.length = ys.length) (i : Nat) :
    (slice one chunks xs i).length = (slice one chunks ys i).length := by
  rw [slice, slice, List.length_take, List.length_take, List.length_drop, List.length_drop, same]

private theorem sum_slices (one : Nat) {chunks : Nat} (positive : chunks ≠ 0) (xs : List T) :
    ((List.range chunks).map fun i => (slice one chunks xs i).sum).sum = xs.sum := by
  -- the chunks before the last, and the last
  obtain ⟨last, rfl⟩ := Nat.exists_eq_succ_of_ne_zero positive
  have front : ∀ j ≤ last, ((List.range j).map fun i => (slice one (last + 1) xs i).sum).sum =
      (xs.take (j * one)).sum := by
    intro j few
    induction j with
    | zero => simp
    | succ j ih =>
      rw [List.range_succ, List.map_append, List.sum_append, ih (by omega), List.map_singleton,
        List.sum_singleton, slice, if_neg (by omega), Nat.succ_mul, List.take_add, List.sum_append]
  have back : slice one (last + 1) xs last = xs.drop (last * one) := by
    rw [slice, Nat.add_sub_cancel, if_pos rfl, ← List.length_drop, List.take_length]
  rw [Nat.succ_eq_add_one, List.range_succ, List.map_append, List.sum_append, front last le_rfl,
    List.map_singleton, List.sum_singleton, back, ← List.sum_append, List.take_append_drop]

private theorem multiExp_spec (short : windows.length < 30) (fits : k < 64 * n) (below : p ≤ 2 ^ k)
    (heap : MakeHeap OrderedExponent.r blank) {vec : List T} {scalars : List (ZMod p)}
    (same : vec.length = scalars.length) {chunks : Nat} (positive : chunks ≠ 0)
    (useMultiexp : Bool) :
    multiExp windows n heap vec scalars chunks useMultiexp = some (plainSum vec scalars) := by
  by_cases few : vec.length < chunks
  · rw [multiExp, if_pos few, naiveExp_spec short fits below same]
  · rw [multiExp, if_neg few, if_neg positive]
    set one := vec.length / chunks
    have part : ∀ i, (if useMultiexp = true then
        multiExpInner windows n heap (slice one chunks vec i) (slice one chunks scalars i)
        else naiveExp windows n (slice one chunks vec i) (slice one chunks scalars i)) =
          some (slice one chunks (List.zipWith (fun v s => s.val • v) vec scalars) i).sum := by
      intro i
      have lengths := length_slice one chunks same i
      rw [multiExpInner_spec short fits below heap lengths, naiveExp_spec short fits below lengths,
        ite_self, plainSum, slice_zipWith _ _ _ same]
    have parts := List.mapM_pure (m := Option) (l := List.range chunks)
      (f := fun i => (slice one chunks (List.zipWith (fun v s => s.val • v) vec scalars) i).sum)
    simp only [Option.pure_def] at parts
    simp only [part, parts, Option.bind_eq_bind, Option.bind_some]
    rw [← List.sum_eq_foldl, sum_slices one positive, plainSum]

/-! The scalars zero and one. -/

omit [NeZero p] in
private theorem processScalars_spec (one_lt : 1 < p) (items : List (T × ZMod p)) (acc : T)
    {g : List T}
    {others : List (ZMod p)} (same : g.length = others.length) :
    let state := items.foldl processScalars (acc, g, others)
    state.2.1.length = state.2.2.length ∧ state.1 + plainSum state.2.1 state.2.2 =
      acc + plainSum g others + (items.map fun item => item.2.val • item.1).sum := by
  -- what has been added and what is left to be multiplied make up the sum
  induction items generalizing acc g others with
  | nil => exact ⟨same, (add_zero _).symm⟩
  | cons item items ih =>
    rw [List.foldl_cons, List.map_cons, List.sum_cons, processScalars]
    split_ifs with zero one
    · obtain ⟨lengths, sum⟩ := ih acc same
      refine ⟨lengths, sum.trans ?_⟩
      rw [zero, ZMod.val_zero, zero_smul, zero_add]
    · obtain ⟨lengths, sum⟩ := ih (acc + item.1) same
      have : Fact (1 < p) := ⟨one_lt⟩
      refine ⟨lengths, sum.trans ?_⟩
      rw [one, ZMod.val_one, one_smul]
      abel
    · have grown : (g ++ [item.1]).length = (others ++ [item.2]).length := by
        rw [List.length_append, List.length_append, same]
        rfl
      obtain ⟨lengths, sum⟩ := ih acc grown
      have longer : plainSum (g ++ [item.1]) (others ++ [item.2]) =
          plainSum g others + item.2.val • item.1 := by
        rw [plainSum, List.zipWith_append same, List.sum_append, plainSum]
        simp
      refine ⟨lengths, sum.trans ?_⟩
      rw [longer]
      abel

omit [NeZero p] in
/-- With whatever heap, chunks and choice of algorithm, the multi-exponentiation is the sum of
the multiples. -/
theorem multiExpWithMixedAddition_eq (one_lt : 1 < p) (short : windows.length < 30)
    (fits : k < 64 * n) (below : p ≤ 2 ^ k) (heap : MakeHeap OrderedExponent.r blank) {vec : List T}
    {scalars : List (ZMod p)} (same : vec.length = scalars.length) {chunks : Nat}
    (positive : chunks ≠ 0) (useMultiexp : Bool) :
    multiExpWithMixedAddition windows n heap vec scalars chunks useMultiexp =
      some (List.zipWith (fun v s => s.val • v) vec scalars).sum := by
  have : NeZero p := ⟨by omega⟩
  have start : ([] : List T).length = ([] : List (ZMod p)).length := rfl
  obtain ⟨lengths, sum⟩ := processScalars_spec one_lt (vec.zip scalars) 0 start
  rw [multiExpWithMixedAddition, if_pos same]
  generalize (vec.zip scalars).foldl processScalars ((0 : T), [], []) = state at lengths sum
  have rest := multiExp_spec short fits below heap lengths positive useMultiexp
  simp only [rest, Option.bind_eq_bind, Option.bind_some, sum]
  rw [plainSum, List.zipWith_nil_left, List.sum_nil, zero_add, zero_add, List.zip, List.map_zipWith]

theorem multiExpWithMixedAddition_eq_four :
    multiExpWithMixedAddition (T := Int) (p := 11) [5, 15, 39, 109] 1 (MakeHeap.descending _ _)
      [3, -5, 7, 11] [9, 1, 0, 10] 1 true = some 132 := by
  have short : [5, 15, 39, 109].length < 30 := by decide
  have same : [(3 : Int), -5, 7, 11].length = [(9 : ZMod 11), 1, 0, 10].length := rfl
  exact multiExpWithMixedAddition_eq (k := 4) (n := 1) (by decide) short (by decide) (by decide)
    (MakeHeap.descending _ _) same one_ne_zero true

end CbDaemon.Snark.MultiExp
