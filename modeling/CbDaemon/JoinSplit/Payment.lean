/- module: CbDaemon/JoinSplit/Payment
   source: src/cblib/request_methods.cpp
   digest: When a payment spends each note once, moves its value, and is made at all. -/

import Mathlib.Algebra.Order.BigOperators.Group.List
import Mathlib.Data.List.ReduceOption
import CbDaemon.JoinSplit.Calls

set_option autoImplicit false
set_option relaxedAutoImplicit false

namespace CbDaemon.JoinSplit.Payment
open Base.Sorting Merkle.PerfectTree
open Wallet.Notes Prove Creator Rounds Selection Calls

variable {Hash : Type}

section

variable {found : List (NotePlaintextDB Hash)}

/-! Whether the notes are used once. -/

def Once (found : List (NotePlaintextDB Hash)) (places : List Nat) : Prop :=
  places.Nodup ∧ ∀ position ∈ places, ∃ note, found[position]? = some note ∧ note.status = false

/-- The inputs that are no dummies come from different documents, all unspent. -/
def SpendsOnce (found : List (NotePlaintextDB Hash)) (made : List (JSDescription Hash)) : Prop :=
  Once found (origins made).reduceOption

/-- The pair covers the value, and the residual note is another unspent one. -/
def SelectsApart (all : List (Candidate Hash)) (rest : Nat) : List (Candidate Hash) → Prop
  | [] => True
  | [_] => ∃ residual, all[0]? = some residual ∧ residual.note.status = false
  | first :: second :: others =>
    rest ≤ first.note.value.toNat + second.note.value.toNat ∧
      (others.length % 2 = 1 → ∃ residual, all[others.length + 1]? = some residual ∧
        residual.note.status = false ∧ residual ≠ first ∧ residual ≠ second)

private theorem once_residual {candidate : Candidate Hash} (mem : candidate ∈ candidates found) :
    Once found [candidate.position] ↔ candidate.note.status = false := by
  rw [← unspent_status mem]
  simp [Once]

private theorem not_once_pairOrigins {first second : Candidate Hash} {count : Nat}
    (twice : 2 ≤ count)
    (others : List (Option Nat)) :
    ¬ Once found (pairOrigins first second count ++ others).reduceOption := by
  obtain ⟨count, rfl⟩ := Nat.exists_eq_add_of_le' twice
  intro once
  have nodup := once.1
  simp [pairOrigins, List.replicate_succ, List.reduceOption] at nodup

private theorem once_pair {first second : Candidate Hash} (mem : first ∈ candidates found)
    (mem' : second ∈ candidates found) (distinct : first ≠ second)
    (status : first.note.status = false) (status' : second.note.status = false) :
    Once found [first.position, second.position] := by
  have apart : first.position ≠ second.position :=
    fun same => distinct (eq_of_position_eq mem mem' same)
  have places := (unspent_status mem).mpr status
  have places' := (unspent_status mem').mpr status'
  simp [Once, apart, places, places']

private theorem once_pair_residual {first second residual : Candidate Hash}
    (mem : first ∈ candidates found) (mem' : second ∈ candidates found)
    (inside : residual ∈ candidates found) (pair : Once found [first.position, second.position]) :
    Once found [first.position, second.position, residual.position] ↔
      residual.note.status = false ∧ residual ≠ first ∧ residual ≠ second := by
  have apart : residual.position ≠ first.position ↔ residual ≠ first :=
    not_congr ⟨eq_of_position_eq inside mem, fun same => by rw [same]⟩
  have apart' : residual.position ≠ second.position ↔ residual ≠ second :=
    not_congr ⟨eq_of_position_eq inside mem', fun same => by rw [same]⟩
  obtain ⟨nodup, places⟩ := pair
  simp only [List.nodup_cons, List.mem_cons, List.not_mem_nil, or_false] at nodup
  rw [← unspent_status inside, ← apart, ← apart']
  constructor
  · rintro ⟨nodup', places'⟩
    simp only [List.nodup_cons, List.mem_cons, List.not_mem_nil, or_false, not_or] at nodup'
    exact ⟨places' _ (by simp), fun same => nodup'.1.2 same.symm, fun same => nodup'.2.1 same.symm⟩
  · rintro ⟨status, ne, ne'⟩
    constructor
    · simp [nodup.1, ne.symm, ne'.symm]
    · intro position listed
      rw [List.mem_cons, List.mem_cons, List.mem_singleton] at listed
      rcases listed with rfl | rfl | rfl
      · exact places _ (by simp)
      · exact places _ (by simp)
      · exact status

end

variable [TreeHash Hash] [DecidableEq Hash]

section

variable {request : Request Hash} {sorting : ValueSort Hash} {purge : Delete} {fuel : Nat}
  {fromValue : Int64} {userNotes : List (UserNote Hash)} {found : List (NotePlaintextDB Hash)}
  {made : List (JSDescription Hash)}

/-- A successful call spends each note once, and no spent one, exactly when the
two smallest unspent notes cover the value and the residual note, if there is
one, is another unspent note. -/
theorem spendsOnce_iff (nonneg : 0 ≤ fromValue)
    (queried : queryUserNote 0 (purgeUserNotes purge userNotes).2 = some found)
    (returned : joinsplitCreator request sorting purge fuel fromValue userNotes =
      .returned true made) :
    SpendsOnce found made ↔
      SelectsApart (candidates found) fromValue.toInt.toNat
        (unspent sorting (candidates found)) := by
  obtain ⟨value, selects⟩ := selected nonneg queried returned
  obtain ⟨ok, none_, some_⟩ := selection_true (candidates_small queried) value selects
  have members := fun candidate => (mem_unspent sorting (candidates found) candidate).mp
  have distinct := nodup_unspent sorting found
  unfold SpendsOnce
  generalize unspent sorting (candidates found) = notes at ok none_ some_ members distinct ⊢
  rcases notes with _ | ⟨first, _ | ⟨second, others⟩⟩
  · rw [none_ rfl]
    exact ⟨fun _ => trivial, fun _ => ⟨List.nodup_nil, fun _ mem => absurd mem List.not_mem_nil⟩⟩
  · obtain ⟨residual, lookup, _⟩ := ok
    obtain ⟨count, batch, _⟩ := some_ (List.cons_ne_nil _ _)
    have once := once_residual (List.mem_of_getElem? lookup)
    rw [batch.origins]
    simp only [selectionOrigins, SelectsApart, lookup, Option.map_some, List.reduceOption_cons_of_some,
      List.reduceOption_cons_of_none, List.reduceOption_nil, once, Option.some.injEq, exists_eq_left']
  · obtain ⟨count, batch, positive, uses⟩ := some_ (List.cons_ne_nil _ _)
    have once := uses first second others rfl
    obtain ⟨mem, status⟩ := members first (by simp)
    obtain ⟨mem', status'⟩ := members second (by simp)
    rw [batch.origins, SelectsApart, ← once, selectionOrigins]
    by_cases single : count = 1
    · have apart : first ≠ second := by
        intro same
        rw [same] at distinct
        simp at distinct
      have pair := once_pair mem mem' apart status status'
      subst single
      by_cases odd : others.length % 2 = 1
      · obtain ⟨residual, lookup, _⟩ := ok.2.2.2.2 odd
        have three := once_pair_residual mem mem' (List.mem_of_getElem? lookup) pair
        simpa [pairOrigins, odd, lookup, List.reduceOption] using three
      · simpa [pairOrigins, odd, List.reduceOption] using pair
    · simp only [single, false_and, iff_false]
      exact not_once_pairOrigins (by omega) _

/-- Two notes pay the value 2. -/
theorem two_spent_once :
    SpendsOnce sampleFound (Calls.made (samplePayment 0 0 2 sampleDocs)) := by
  have returned : samplePayment 0 0 2 sampleDocs =
      .returned true (Calls.made (samplePayment 0 0 2 sampleDocs)) := by
    decide +kernel
  rw [spendsOnce_iff (by decide) query_sampleDocs returned, unspent_sampleFound]
  exact ⟨by decide, nofun⟩

/-- The value 3 is paid with the first two notes, used twice. -/
theorem three_spends_twice :
    samplePayment 0 0 3 sampleDocs =
        .returned true (Calls.made (samplePayment 0 0 3 sampleDocs)) ∧
      ¬ SpendsOnce sampleFound (Calls.made (samplePayment 0 0 3 sampleDocs)) := by
  refine ⟨by decide +kernel, fun once => absurd once.1 ?_⟩
  decide +kernel

/-! Whether the value is moved. -/

/-- The joinsplits move the value: the public values once, the value and their
difference to the destination, and the rest of the inputs back. -/
def MovesValue (made : List (JSDescription Hash)) (fromValue old new : Int) : Prop :=
  total (·.vpubOld.toInt) made = old ∧ total (·.vpubNew.toInt) made = new ∧
    total (·.outputs.2.value.toNat) made = fromValue + old - new ∧
    total (·.outputs.1.value.toNat) made = total (inputValue ·.inputs) made - fromValue

omit [TreeHash Hash] [DecidableEq Hash] in
private theorem mem_purgeUserNotes {doc : UserNote Hash} (purge : Delete)
    (status : doc.status.asBool = false) :
    doc ∈ (purgeUserNotes purge userNotes).2 ↔ doc ∈ userNotes := by
  have kept : doc.status ≠ .int 1 := by
    intro spent
    rw [spent] at status
    cases status
  cases purge with
  | applied => simp [purgeUserNotes, kept]
  | hidden => rfl
  | thrown => rfl

omit [TreeHash Hash] [DecidableEq Hash] in
private theorem exists_unspent_iff (sorting : ValueSort Hash)
    (queried : queryUserNote 0 (purgeUserNotes purge userNotes).2 = some found) :
    unspent sorting (candidates found) ≠ [] ↔
      ∃ doc ∈ userNotes, 0 < doc.noteHeight ∧ doc.status.asBool = false := by
  obtain ⟨_, rfl⟩ := queryUserNote_eq_some.mp queried
  constructor
  · intro nonempty
    obtain ⟨candidate, listed⟩ := List.exists_mem_of_ne_nil _ nonempty
    obtain ⟨mem, status⟩ := (mem_unspent sorting _ candidate).mp listed
    obtain ⟨doc, inside, same⟩ := List.mem_map.mp (List.mem_of_getElem? (mem_candidates.mp mem))
    rw [← same] at status
    rw [List.mem_filter, decide_eq_true_eq] at inside
    exact ⟨doc, (mem_purgeUserNotes purge status).mp inside.1, inside.2, status⟩
  · rintro ⟨doc, mem, positive, status⟩
    have inside : doc ∈ (purgeUserNotes purge userNotes).2.filter (0 < ·.noteHeight) :=
      List.mem_filter.mpr ⟨(mem_purgeUserNotes purge status).mpr mem, by simpa using positive⟩
    have read := List.mem_map_of_mem (f := UserNote.content) inside
    obtain ⟨position, lookup⟩ := List.mem_iff_getElem?.mp read
    have listed := (mem_unspent sorting _ ⟨position, doc.content⟩).mpr
      ⟨mem_candidates.mpr lookup, status⟩
    exact List.ne_nil_of_mem listed

omit [TreeHash Hash] [DecidableEq Hash] in
private theorem Batch.movesValue {sources : List (Option Nat)} {paid old new : Int}
    (batch : Batch made sources paid old new) : MovesValue made paid old new :=
  ⟨batch.vpubOld, batch.vpubNew, batch.destination, batch.back⟩

omit [TreeHash Hash] [DecidableEq Hash] in
private theorem movesValue_nil {paid old new : Int} :
    MovesValue ([] : List (JSDescription Hash)) paid old new ↔ paid = 0 ∧ old = 0 ∧ new = 0 := by
  simp only [MovesValue, total, List.map_nil, List.sum_nil]
  omega

/-- A successful call moves the value, unless there is something to move and all
the notes it found are spent. -/
theorem movesValue_iff
    (returned : joinsplitCreator request sorting purge fuel fromValue userNotes =
      .returned true made) :
    MovesValue made fromValue.toInt request.vpubOldTotal.toNat request.vpubNewTotal.toNat ↔
      fromValue < 0 ∨ (∃ doc ∈ userNotes, 0 < doc.noteHeight ∧ doc.status.asBool = false) ∨
        (fromValue = 0 ∧ request.vpubOldTotal = 0 ∧ request.vpubNewTotal = 0) := by
  by_cases negative : fromValue < 0
  · have minted : mint request fromValue = .returned true made := by
      unfold joinsplitCreator at returned
      split at returned
      · cases returned
      · split at returned
        · cases returned
        · exact returned
    exact ⟨fun _ => .inl negative, fun _ => Batch.movesValue (mint_true negative minted)⟩
  · have nonneg := Int64.not_lt.mp negative
    obtain ⟨_, _, found, queried, _, _⟩ := (joinsplitCreator_spend nonneg).mp returned
    obtain ⟨value, selects⟩ := selected nonneg queried returned
    obtain ⟨_, none_, some_⟩ := selection_true (candidates_small queried) value selects
    rw [← exists_unspent_iff sorting queried]
    by_cases empty : unspent sorting (candidates found) = []
    · have zero : fromValue.toInt = 0 ↔ fromValue = 0 := by
        rw [← Int64.toInt_inj]
        rfl
      rw [none_ empty, movesValue_nil, zero]
      simp [negative, empty, ← UInt64.toNat_inj]
    · obtain ⟨count, batch, _⟩ := some_ empty
      rw [← value] at batch
      exact ⟨fun _ => .inr (.inl empty), fun _ => Batch.movesValue batch⟩

/-- Two notes and a public value of 5 give 6 to the destination and 1 back to
the public. -/
theorem two_moved :
    MovesValue (Calls.made (samplePayment 5 1 2 sampleDocs)) 2 5 1 := by
  have returned : samplePayment 5 1 2 sampleDocs =
      .returned true (Calls.made (samplePayment 5 1 2 sampleDocs)) := by
    decide +kernel
  refine (movesValue_iff returned).mpr (.inr (.inl ⟨sampleDoc false 1, ?_, ?_⟩))
  · exact List.mem_cons_self
  · decide

/-- With one spent note, a public value of 5 is lost: the call succeeds without
any joinsplit. -/
theorem public_value_lost :
    samplePayment 5 0 0 [sampleDoc true 1] = .returned true [] ∧
      ¬ MovesValue ([] : List (JSDescription (BitVec 256))) 0 5 0 := by
  refine ⟨by decide +kernel, fun moved => ?_⟩
  have none_ := movesValue_nil.mp moved
  omega

/-! Whether a payment is made. -/

def unspentTotal (userNotes : List (UserNote Hash)) : Nat :=
  ((userNotes.filter (·.status.asBool = false)).map (·.value.toNat)).sum

/-- A payment within the balance, from documents whose notes are all stored. -/
structure Funded (request : Request Hash) (fromValue : Int64)
    (userNotes : List (UserNote Hash)) : Prop where
  stored : ∀ doc ∈ userNotes, doc.status.asBool = false →
    request.prims.cm ⟨request.prims.aPk request.aSk, .ofInt doc.value, doc.rho, doc.r⟩ ∈
      request.notes.map (·.noteCommitment)
  money : ∀ doc ∈ userNotes, doc.status.asBool = false →
    1 ≤ doc.value ∧ doc.value ≤ maxMoney.toNat
  nonneg : 0 ≤ fromValue
  covered : fromValue.toInt ≤ unspentTotal userNotes
  destination : (request.vpubNewTotal.toNat : Int) ≤ fromValue.toInt + request.vpubOldTotal.toNat
  cap : unspentTotal userNotes + request.vpubOldTotal.toNat ≤ maxMoney.toNat

/-- The residual note has a witness under the root and covers what is left. -/
def ResidualServes (request : Request Hash) (candidate : Candidate Hash) (rest : Nat)
    (old new : UInt64) : Prop :=
  Led request candidate ∧ rest ≤ candidate.note.value.toNat ∧
    PayOK candidate.note.value.toNat rest old new

/-- What a funded payment needs besides: the notes that are used lead to the root, the
keys that are encrypted to are accepted, no amount that is narrowed reaches `2 ^ 31`, and
the public values are equal if the pair is used more than once. -/
def Payable (request : Request Hash) (all : List (Candidate Hash)) (rest : Nat) :
    List (Candidate Hash) → Prop
  | [] => False
  | [_] => PayingKeys request ∧ ∃ residual, all[0]? = some residual ∧
      ResidualServes request residual rest request.vpubOldTotal request.vpubNewTotal
  | first :: second :: others =>
    PayingKeys request ∧ Led request first ∧ Led request second ∧
      (if rest ≤ first.note.value.toNat + second.note.value.toNat then
        rest < 2 ^ 31 ∧ first.note.value.toNat + second.note.value.toNat - rest < 2 ^ 31
      else first.note.value.toNat + second.note.value.toNat < 2 ^ 31 ∧
        request.vpubOldTotal = request.vpubNewTotal ∧ ShortKeys request) ∧
      (others.length % 2 = 1 → ∃ residual, all[others.length + 1]? = some residual ∧
        ResidualServes request residual 0 0 0)

omit [TreeHash Hash] [DecidableEq Hash] in
private theorem sum_unspent (sorting : ValueSort Hash) (found : List (NotePlaintextDB Hash)) :
    ((unspent sorting (candidates found)).map (·.note.value.toNat)).sum =
      ((found.filter (·.status = false)).map (·.value.toNat)).sum := by
  have notes : (candidates found).map (·.note) = found := by
    rw [candidates, List.map_map]
    exact List.zipIdx_map_fst 0 found
  rw [unspent, ((sorting.perm _).map _).sum_nat]
  nth_rewrite 2 [← notes]
  rw [List.filter_map, List.map_map]
  rfl

omit [TreeHash Hash] [DecidableEq Hash] in
private theorem purgeUserNotes_sublist (purge : Delete) (userNotes : List (UserNote Hash)) :
    (purgeUserNotes purge userNotes).2.Sublist userNotes := by
  cases purge with
  | applied => exact List.filter_sublist
  | hidden => exact List.Sublist.refl _
  | thrown => exact List.Sublist.refl _

omit [TreeHash Hash] [DecidableEq Hash] in
private theorem sum_unspent_le (sorting : ValueSort Hash)
    (queried : queryUserNote 0 (purgeUserNotes purge userNotes).2 = some found) :
    ((unspent sorting (candidates found)).map (·.note.value.toNat)).sum ≤
      unspentTotal userNotes := by
  obtain ⟨readable, rfl⟩ := queryUserNote_eq_some.mp queried
  have left : ((purgeUserNotes purge userNotes).2.filter (0 < ·.noteHeight)).Sublist userNotes :=
    List.filter_sublist.trans (purgeUserNotes_sublist purge userNotes)
  have values : ∀ doc ∈ (purgeUserNotes purge userNotes).2.filter (0 < ·.noteHeight),
      ((·.value.toNat) ∘ UserNote.content) doc = doc.value.toNat := by
    intro doc mem
    rw [List.mem_filter, decide_eq_true_eq] at mem
    have value := toNat_content_value (readable doc mem.1 mem.2)
    change doc.content.value.toNat = doc.value.toNat
    omega
  rw [sum_unspent, List.filter_map, List.map_map,
    List.map_congr_left fun doc mem => values doc (List.mem_filter.mp mem).1]
  exact ((left.filter _).map _).sum_le_sum fun _ _ => Nat.zero_le _

omit [TreeHash Hash] [DecidableEq Hash] in
private theorem Funded.positive (funded : Funded request fromValue userNotes)
    (queried : queryUserNote 0 (purgeUserNotes purge userNotes).2 = some found)
    {note : NotePlaintextDB Hash} (mem : note ∈ found) (status : note.status = false) :
    1 ≤ note.value.toNat := by
  obtain ⟨readable, rfl⟩ := queryUserNote_eq_some.mp queried
  obtain ⟨doc, inside, rfl⟩ := List.mem_map.mp mem
  rw [List.mem_filter, decide_eq_true_eq] at inside
  have value := toNat_content_value (readable doc inside.1 inside.2)
  have one := (funded.money doc ((purgeUserNotes_sublist purge userNotes).mem inside.1) status).1
  omega

/-- For notes that are worth something and amounts within `MAX_MONEY`, the pair
loop needs little more than that nothing is cut off. -/
private theorem loopOK_iff {value rest : Nat} {old new : UInt64} (positive : 0 < value)
    (destination : new.toNat ≤ old.toNat + rest) (cap : old.toNat + value ≤ 2100000000000000) :
    LoopOK value rest old new ↔
      if rest ≤ value then rest < 2 ^ 31 ∧ value - rest < 2 ^ 31
      else value < 2 ^ 31 ∧ old = new := by
  unfold LoopOK PayOK
  split
  · constructor
    · rintro ⟨small, back, _, _⟩
      exact ⟨small, back⟩
    · rintro ⟨small, back⟩
      exact ⟨small, back, destination, cap⟩
  · constructor
    · rintro ⟨_, small, equal, _⟩
      exact ⟨small, equal⟩
    · rintro ⟨small, equal⟩
      exact ⟨positive, small, equal, cap⟩

private theorem residualOK_iff (current : RootCurrent request) {candidate : Candidate Hash}
    {rest : Nat} {old new : UInt64} :
    ResidualOK request candidate rest old new ↔
      PayingKeys request ∧ ResidualServes request candidate rest old new := by
  rw [ResidualOK, ResidualServes, anchored_iff current]
  constructor
  · rintro ⟨led, covers, payOK, keys⟩
    exact ⟨keys, led, covers, payOK⟩
  · rintro ⟨keys, led, covers, payOK⟩
    exact ⟨led, covers, payOK, keys⟩

private theorem Funded.payable_iff (funded : Funded request fromValue userNotes)
    (queried : queryUserNote 0 (purgeUserNotes purge userNotes).2 = some found)
    (current : RootCurrent request) (sorting : ValueSort Hash) :
    (unspent sorting (candidates found) ≠ [] ∧
        SelectionOK request (candidates found) fromValue.toInt.toNat
          (unspent sorting (candidates found))) ↔
      Payable request (candidates found) fromValue.toInt.toNat
        (unspent sorting (candidates found)) := by
  have destination := funded.destination
  have cap := funded.cap
  have sum := sum_unspent_le sorting queried
  have members := fun candidate => (mem_unspent sorting (candidates found) candidate).mp
  have value : 0 ≤ fromValue.toInt := Int64.le_iff_toInt_le.mp funded.nonneg
  generalize unspent sorting (candidates found) = notes at sum members ⊢
  rcases notes with _ | ⟨first, _ | ⟨second, others⟩⟩
  · simp [Payable]
  · simp only [Payable, SelectionOK, residualOK_iff current]
    constructor
    · rintro ⟨_, residual, lookup, keys, serves⟩
      exact ⟨keys, residual, lookup, serves⟩
    · rintro ⟨keys, residual, lookup, serves⟩
      exact ⟨List.cons_ne_nil _ _, residual, lookup, keys, serves⟩
  · obtain ⟨mem, status⟩ := members first (by simp)
    have some_ := funded.positive queried (List.mem_of_getElem? (mem_candidates.mp mem)) status
    have money : maxMoney.toNat = 2100000000000000 := rfl
    simp only [List.map_cons, List.sum_cons] at sum
    have loop : LoopOK (first.note.value.toNat + second.note.value.toNat) fromValue.toInt.toNat
        request.vpubOldTotal request.vpubNewTotal ↔ _ :=
      loopOK_iff (by omega) (by omega) (by omega)
    simp only [SelectionOK, Payable, loop, LoopKeys, anchored_iff current,
      residualOK_iff current]
    generalize first.note.value.toNat + second.note.value.toNat = p
    constructor
    · rintro ⟨_, led, led', ok, ⟨keys, short⟩, residual⟩
      refine ⟨keys, led, led', ?_, fun isOdd => ?_⟩
      · split at ok
        · next covers =>
          rw [if_pos covers]
          exact ok
        · next more =>
          rw [if_neg more]
          exact ⟨ok.1, ok.2, short (Nat.not_le.mp more)⟩
      · obtain ⟨candidate, lookup, _, serves⟩ := residual isOdd
        exact ⟨candidate, lookup, serves⟩
    · rintro ⟨keys, led, led', ok, residual⟩
      refine ⟨List.cons_ne_nil _ _, led, led', ?_, ⟨keys, fun more => ?_⟩, fun isOdd => ?_⟩
      · split at ok
        · next covers =>
          rw [if_pos covers]
          exact ok
        · next more =>
          rw [if_neg more]
          exact ⟨ok.1, ok.2.1⟩
      · rw [if_neg (Nat.not_le.mpr more)] at ok
        exact ok.2.2
      · obtain ⟨candidate, lookup, serves⟩ := residual isOdd
        exact ⟨candidate, lookup, keys, serves⟩

/-- A funded payment is made, with at least one joinsplit, exactly when the root
is current, the purge does not throw, the documents that are left can be read, and the
selected notes and the keys serve. -/
theorem payment_made_iff (sorting : ValueSort Hash)
    (funded : Funded request fromValue userNotes) :
    (∃ fuel made, joinsplitCreator request sorting purge fuel fromValue userNotes =
        .returned true made ∧ made ≠ []) ↔
      RootCurrent request ∧ purge ≠ .thrown ∧
        ∃ found, queryUserNote 0 (purgeUserNotes purge userNotes).2 = some found ∧
          Payable request (candidates found) fromValue.toInt.toNat
            (unspent sorting (candidates found)) := by
  constructor
  · rintro ⟨fuel, made, returned, nonempty⟩
    obtain ⟨current, reached, found, queried, _⟩ :=
      (joinsplitCreator_spend funded.nonneg).mp returned
    obtain ⟨value, selects⟩ := selected funded.nonneg queried returned
    obtain ⟨ok, none_, _⟩ := selection_true (candidates_small queried) value selects
    exact ⟨current, reached, found, queried, (funded.payable_iff queried current sorting).mp
      ⟨fun empty => nonempty (none_ empty), ok⟩⟩
  · rintro ⟨current, reached, found, queried, payable⟩
    have small := candidates_small queried
    obtain ⟨unspent_, ok⟩ := (funded.payable_iff queried current sorting).mpr payable
    have value : fromValue.toInt = fromValue.toInt.toNat := by
      have : 0 ≤ fromValue.toInt := Int64.le_iff_toInt_le.mp funded.nonneg
      omega
    obtain ⟨fuel, made, selects⟩ := selection_ends small value ok
    refine ⟨fuel, made, (joinsplitCreator_spend funded.nonneg).mpr
      ⟨current, reached, found, queried, ?_, selects⟩, ?_⟩
    · rintro rfl
      obtain ⟨candidate, listed⟩ := List.exists_mem_of_ne_nil _ unspent_
      exact absurd ((mem_unspent sorting _ candidate).mp listed).1 List.not_mem_nil
    · rintro rfl
      obtain ⟨count, batch, positive, _⟩ := (selection_true small value selects).2.2 unspent_
      exact selectionOrigins_ne_nil positive unspent_ batch.origins.symm

private theorem sampleDocs_funded {vpubOld vpubNew : UInt64} {fromValue : Int64}
    (nonneg : 0 ≤ fromValue) (covered : fromValue.toInt ≤ 4)
    (destination : (vpubNew.toNat : Int) ≤ fromValue.toInt + vpubOld.toNat)
    (cap : 4 + vpubOld.toNat ≤ 2100000000000000) :
    Funded (sampleRequest vpubOld vpubNew) fromValue sampleDocs where
  stored := by
    change ∀ doc ∈ sampleDocs, doc.status.asBool = false →
      doc.rho ∈ [chainNote 1, chainNote 2, chainNote 3, chainNote 4].map (·.noteCommitment)
    decide +kernel
  money := by decide +kernel
  nonneg := nonneg
  covered := covered
  destination := destination
  cap := cap

/-- The payment of 2 is made. -/
theorem two_made : ∃ fuel made, joinsplitCreator (sampleRequest 5 1) (StdSort.stable _) .applied
    fuel 2 sampleDocs = .returned true made ∧ made ≠ [] := by
  have funded : Funded (sampleRequest 5 1) 2 sampleDocs :=
    sampleDocs_funded (by decide) (by decide) (by decide) (by decide)
  have current := (sampleRequest_synced 5 1).rootCurrent
  have led : ∀ candidate ∈ candidates sampleFound, Led (sampleRequest 5 1) candidate :=
    fun candidate mem => (anchored_iff current candidate).mp (sampleFound_anchored 5 1 candidate mem)
  refine (payment_made_iff _ funded).mpr ⟨current, nofun, sampleFound, query_sampleDocs, ?_⟩
  rw [unspent_sampleFound]
  refine ⟨⟨rfl, rfl⟩, led _ (by decide +kernel), led _ (by decide +kernel), ?_, nofun⟩
  rw [if_pos (by decide)]
  decide

/-- The notes are worth 4, but with a public value of 1 no payment of 3 is made:
the first of its two rounds does not balance. -/
theorem three_not_made :
    Funded (sampleRequest 1 0) 3 sampleDocs ∧ RootCurrent (sampleRequest 1 0) ∧
      ¬ ∃ fuel made, joinsplitCreator (sampleRequest 1 0) (StdSort.stable _) .applied fuel 3
        sampleDocs = .returned true made ∧ made ≠ [] := by
  refine ⟨sampleDocs_funded (by decide) (by decide) (by decide) (by decide),
    (sampleRequest_synced 1 0).rootCurrent, ?_⟩
  rintro ⟨fuel, made, returned, _⟩
  obtain ⟨value, selects⟩ := selected (by decide) query_sampleDocs returned
  obtain ⟨ok, _⟩ := selection_true (candidates_small query_sampleDocs) value selects
  rw [unspent_sampleFound] at ok
  obtain ⟨_, _, loopOK, _⟩ := ok
  exact absurd loopOK (by decide)

end

end CbDaemon.JoinSplit.Payment
