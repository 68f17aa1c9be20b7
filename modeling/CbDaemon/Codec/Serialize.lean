/- module: CbDaemon/Codec/Serialize
   source: serialize.h, uint256.h, and std::istream of the target
   digest: Optional blobs and vectors of them in the binary format, read back from a stream. -/

import CbDaemon.Base.Fallible
import CbDaemon.Base.Machine

set_option autoImplicit false
set_option relaxedAutoImplicit false

namespace CbDaemon.Codec.Serialize
open Base.Fallible Base.Machine

variable {width : Nat}

/-! Writing. -/

def numberBytes : Nat → Nat → List UInt8
  | 0, _ => []
  | size + 1, n => UInt8.ofNat (n % 256) :: numberBytes size (n / 256)

def writeCompactSize (nSize : Nat) : List UInt8 :=
  if nSize < 253 then numberBytes 1 nSize
  else if nSize ≤ 0xFFFF then 253 :: numberBytes 2 nSize
  else if nSize ≤ 0xFFFFFFFF then 254 :: numberBytes 4 nSize
  else 255 :: numberBytes 8 nSize

/-- `Serialize` of an optional blob. -/
def writeOptional : Option (Blob width) → List UInt8
  | some item => 0x01 :: item.data
  | none => [0x00]

/-- `Serialize` of a vector of optional blobs. -/
def writeVector (v : List (Option (Blob width))) : List UInt8 :=
  writeCompactSize v.length ++ v.flatMap writeOptional

/-! Reading. -/

/-- An `istringstream`, and what stands in the local variables that are read into: a
read that finds too few bytes leaves the others of the variable as they were. -/
structure Input where
  bytes : List UInt8
  garbage : Nat → Nat → UInt8
  reads : Nat

def Input.after (input : Input) (size : Nat) : Input :=
  { input with bytes := input.bytes.drop size, reads := input.reads + 1 }

/-- `ser_readdata8` to `ser_readdata64`: the bytes of an uninitialised variable. -/
def serReaddata (size : Nat) (input : Input) : List UInt8 × Input :=
  (input.bytes.take size ++
    (List.range' input.bytes.length (size - input.bytes.length)).map (input.garbage input.reads),
    input.after size)

def littleEndian (bytes : List UInt8) : Nat := bytes.foldr (fun b n => b.toNat + 256 * n) 0

def maxSize : Nat := 0x02000000

/-- The last check of `ReadCompactSize`. -/
def checkSize (nSizeRet : Nat) (input : Input) : Except String (Nat × Input) :=
  if nSizeRet > maxSize then .error "ReadCompactSize(): size too large" else .ok (nSizeRet, input)

/-- A size of more than one byte, which has to be at least the given one. -/
def readWide (size low : Nat) (input : Input) : Except String (Nat × Input) :=
  let (bytes, input) := serReaddata size input
  if littleEndian bytes < low then .error "non-canonical ReadCompactSize()"
  else checkSize (littleEndian bytes) input

def readCompactSize (input : Input) : Except String (Nat × Input) :=
  let (bytes, input) := serReaddata 1 input
  let chSize := littleEndian bytes
  if chSize < 253 then checkSize chSize input
  else if chSize = 253 then readWide 2 253 input
  else if chSize = 254 then readWide 4 0x10000 input
  else readWide 8 0x100000000 input

/-- `Unserialize` of an optional blob. -/
def readOptional (input : Input) : Except String (Option (Blob width) × Input) :=
  let (bytes, input) := serReaddata 1 input
  let discriminant := littleEndian bytes
  if discriminant = 0x00 then .ok (none, input)
  else if discriminant = 0x01 then
    .ok (some (Blob.null.unserialize input.bytes), input.after width)
  else .error "non-canonical optional discriminant"

/-- The loop of `Unserialize_impl`. -/
def readItems : Nat → Input → Except String (List (Option (Blob width)) × Input)
  | 0, input => .ok ([], input)
  | n + 1, input => do
    let (item, input) ← readOptional input
    let (items, input) ← readItems n input
    return (item :: items, input)

/-- `Unserialize` of a vector of optional blobs. -/
def readVector (input : Input) : Except String (List (Option (Blob width)) × Input) := do
  let (nSize, input) ← readCompactSize input
  readItems nSize input

/-! What was written is read back. -/

/-- The read takes this value from the front of the stream and leaves the rest. -/
def Reads {α : Type} (x : Except String (α × Input)) (value : α) (rest : List UInt8) : Prop :=
  Returns x fun result => result.1 = value ∧ result.2.bytes = rest

private theorem serReaddata_one {input : Input} {b : UInt8} {rest : List UInt8}
    (front : input.bytes = b :: rest) :
    serReaddata 1 input = ([b], input.after 1) ∧ (input.after 1).bytes = rest := by
  obtain ⟨bytes, garbage, reads⟩ := input
  obtain rfl : bytes = b :: rest := front
  constructor
  · simp [serReaddata]
  · rfl

private theorem littleEndian_one (b : UInt8) : littleEndian [b] = b.toNat := by
  simp [littleEndian]

theorem reads_optional {input : Input} (item : Option (Blob width)) {rest : List UInt8}
    (front : input.bytes = writeOptional item ++ rest) :
    Reads (readOptional input) item rest := by
  cases item with
  | none =>
    obtain ⟨read, left⟩ := serReaddata_one front
    refine ⟨(none, input.after 1), ?_, rfl, left⟩
    simp only [readOptional, read, littleEndian_one]
    rfl
  | some blob =>
    obtain ⟨read, left⟩ := serReaddata_one (front.trans (List.cons_append ..))
    have whole : Blob.null.unserialize (blob.data ++ rest) = blob := by
      apply Blob.ext
      show (blob.data ++ rest).take width ++ (List.replicate width 0).drop _ = blob.data
      rw [List.take_left' blob.length_eq, List.drop_eq_nil_of_le, List.append_nil]
      rw [List.length_replicate, List.length_append, blob.length_eq]
      omega
    refine ⟨(some blob, (input.after 1).after width), ?_, rfl, ?_⟩
    · simp only [readOptional, read, littleEndian_one, left, whole]
      rfl
    · show (input.after 1).bytes.drop width = rest
      rw [left, List.drop_left' blob.length_eq]

private theorem reads_items {input : Input} (v : List (Option (Blob width))) {rest : List UInt8}
    (front : input.bytes = v.flatMap writeOptional ++ rest) :
    Reads (readItems v.length input) v rest := by
  induction v generalizing input with
  | nil => exact ⟨([], input), rfl, rfl, front⟩
  | cons item v ih =>
    rw [List.flatMap_cons, List.append_assoc] at front
    obtain ⟨⟨first, next⟩, read, rfl, left⟩ := reads_optional item front
    obtain ⟨⟨others, last⟩, loop, rfl, gone⟩ := ih left
    refine ⟨(first :: others, last), ?_, rfl, gone⟩
    rw [List.length_cons, readItems, read]
    show (do
      let (items, input) ← readItems others.length next
      return (first :: items, input)) = _
    rw [loop]
    rfl

theorem reads_vector {input : Input} (v : List (Option (Blob width))) (short : v.length < 253)
    {rest : List UInt8} (front : input.bytes = writeVector v ++ rest) :
    Reads (readVector input) v rest := by
  have size : writeCompactSize v.length = [UInt8.ofNat v.length] := by
    rw [writeCompactSize, if_pos short, numberBytes, numberBytes, Nat.mod_eq_of_lt (by omega)]
  have number : (UInt8.ofNat v.length).toNat = v.length := by
    rw [UInt8.toNat_ofNat_of_lt' (by show v.length < 256; omega)]
  rw [writeVector, size, List.append_assoc, List.singleton_append] at front
  obtain ⟨read, left⟩ := serReaddata_one front
  have count : readCompactSize input = .ok (v.length, input.after 1) := by
    simp only [readCompactSize, read, littleEndian_one, number]
    rw [if_pos short, checkSize, if_neg (by unfold maxSize; omega)]
  obtain ⟨result, loop, same, gone⟩ := reads_items v left
  refine ⟨result, ?_, same, gone⟩
  rw [readVector, count]
  exact loop

/-! A stream of seven-bit bytes only gives blobs of such bytes, whatever stands in the
local variables: a blob is cleared before it is read into. -/

/-- Bytes below `0x80`. -/
def SevenBit (bytes : List UInt8) : Prop := ∀ b ∈ bytes, b < 0x80

private theorem SevenBit.drop {bytes : List UInt8} (low : SevenBit bytes) (n : Nat) :
    SevenBit (bytes.drop n) := fun b mem => low b (List.mem_of_mem_drop mem)

private theorem SevenBit.unserialize {bytes : List UInt8} (low : SevenBit bytes) :
    SevenBit ((Blob.null : Blob width).unserialize bytes).data := by
  intro b mem
  rcases List.mem_append.mp mem with read | kept
  · exact low b (List.mem_of_mem_take read)
  · have zero : b = 0 := List.eq_of_mem_replicate (List.mem_of_mem_drop kept)
    rw [zero]
    decide

private theorem yields_checkSize (n : Nat) {input : Input} (low : SevenBit input.bytes) :
    Yields (checkSize n input) fun result => SevenBit result.2.bytes :=
  yields_ite (fun _ => yields_error) fun _ => yields_ok low

private theorem yields_readWide (size least : Nat) {input : Input} (low : SevenBit input.bytes) :
    Yields (readWide size least input) fun result => SevenBit result.2.bytes :=
  yields_ite (fun _ => yields_error) fun _ => yields_checkSize _ (low.drop size)

private theorem yields_readCompactSize {input : Input} (low : SevenBit input.bytes) :
    Yields (readCompactSize input) fun result => SevenBit result.2.bytes := by
  have rest : SevenBit (input.after 1).bytes := low.drop 1
  apply yields_ite
  · exact fun _ => yields_checkSize _ rest
  · intro _
    apply yields_ite
    · exact fun _ => yields_readWide 2 _ rest
    · intro _
      apply yields_ite
      · exact fun _ => yields_readWide 4 _ rest
      · exact fun _ => yields_readWide 8 _ rest

theorem yields_readOptional {input : Input} (low : SevenBit input.bytes) :
    Yields (readOptional input : Except String (Option (Blob width) × Input)) fun result =>
      (∀ blob ∈ result.1, SevenBit blob.data) ∧ SevenBit result.2.bytes := by
  have rest : SevenBit (input.after 1).bytes := low.drop 1
  apply yields_ite
  · intro _
    exact yields_ok ⟨fun _ mem => absurd mem (by simp), rest⟩
  · intro _
    apply yields_ite
    · intro _
      refine yields_ok ⟨?_, rest.drop width⟩
      rintro blob ⟨⟩
      exact rest.unserialize
    · exact fun _ => yields_error

private theorem yields_readItems (n : Nat) {input : Input} (low : SevenBit input.bytes) :
    Yields (readItems n input : Except String (List (Option (Blob width)) × Input)) fun result =>
      ∀ item ∈ result.1, ∀ blob ∈ item, SevenBit blob.data := by
  induction n generalizing input with
  | zero => exact yields_ok fun _ mem => absurd mem List.not_mem_nil
  | succ n ih =>
    rw [readItems]
    refine yields_bind (yields_readOptional low) ?_
    rintro ⟨item, next⟩ ⟨first, left⟩
    refine yields_bind (ih left) ?_
    rintro ⟨items, last⟩ others
    exact yields_ok (List.forall_mem_cons.mpr ⟨first, others⟩)

theorem yields_readVector {input : Input} (low : SevenBit input.bytes) :
    Yields (readVector input : Except String (List (Option (Blob width)) × Input)) fun result =>
      ∀ item ∈ result.1, ∀ blob ∈ item, SevenBit blob.data := by
  rw [readVector]
  refine yields_bind (yields_readCompactSize low) ?_
  rintro ⟨n, next⟩ left
  exact yields_readItems n left

end CbDaemon.Codec.Serialize
