/- module: CbDaemon/Crypto/Hasher
   source: crypto/sha256.h, crypto/sha256.cpp, crypto/common.h
   digest: A hasher depends only on the bytes written, not on how the writes cut them. -/

import Mathlib.Data.List.GetD
import CbDaemon.Base.Machine
import CbDaemon.Crypto.Sha256

set_option autoImplicit false
set_option relaxedAutoImplicit false

namespace CbDaemon.Crypto.Hasher

open Base.Machine
open Sha256

def writeBE (n : Nat) (x : BitVec (8 * n)) : List UInt8 :=
  (List.range n).map fun i => UInt8.ofBitVec ((x >>> (8 * (n - 1 - i))).setWidth 8)

def writeBE32 (x : Word) : List UInt8 := writeBE 4 x

def writeBE64 (x : UInt64) : List UInt8 := writeBE 8 x.toBitVec

@[simp] theorem length_writeBE (n : Nat) (x : BitVec (8 * n)) : (writeBE n x).length = n := by
  rw [writeBE, List.length_map, List.length_range]

structure CSHA256 where
  s : Registers
  buf : Blob 64
  bytes : UInt64
  deriving DecidableEq

/-- `memcpy` into the buffer at an offset. -/
def memcpy (buf : Blob 64) (offset : Nat) (data : List UInt8) : Blob 64 where
  data := (buf.data.take offset ++ data ++ buf.data.drop (offset + data.length)).take 64
  length_eq := by
    rw [List.length_take, List.length_append, List.length_append, List.length_take,
      List.length_drop, buf.length_eq]
    omega

namespace CSHA256

/-- The constructor; the buffer is not initialised. -/
def new (buf : Blob 64) : CSHA256 := ⟨initialState, buf, 0⟩

def reset (hasher : CSHA256) : CSHA256 := { hasher with s := initialState, bytes := 0 }

/-- The `while (end >= data + 64)` loop of `Write`, which takes a given number of turns. -/
def writeChunks : Nat → Registers → UInt64 → List UInt8 → Registers × UInt64 × List UInt8
  | 0, s, bytes, data => (s, bytes, data)
  | n + 1, s, bytes, data => writeChunks n (transform s data) (bytes + 64) (data.drop 64)

/-- The end of `Write`: what remains goes to the buffer. -/
def writeTail (hasher : CSHA256) (bufsize : Nat) (rest : List UInt8) : CSHA256 :=
  if rest = [] then hasher
  else ⟨hasher.s, memcpy hasher.buf bufsize rest, hasher.bytes + UInt64.ofNat rest.length⟩

/-- `Write` from the `while` loop on. -/
def writeFrom (hasher : CSHA256) (bufsize : Nat) (data : List UInt8) : CSHA256 :=
  let (s, bytes, rest) := writeChunks (data.length / 64) hasher.s hasher.bytes data
  writeTail ⟨s, hasher.buf, bytes⟩ bufsize rest

def write (hasher : CSHA256) (data : List UInt8) : CSHA256 :=
  let bufsize := (hasher.bytes % 64).toNat
  if bufsize ≠ 0 ∧ 64 ≤ bufsize + data.length then
    let buf := memcpy hasher.buf bufsize (data.take (64 - bufsize))
    writeFrom ⟨transform hasher.s buf.data, buf, hasher.bytes + UInt64.ofNat (64 - bufsize)⟩ 0
      (data.drop (64 - bufsize))
  else writeFrom hasher bufsize data

/-- The eight words, as `FinalizeNoPadding` writes them. -/
def digest (s : Registers) : Blob 32 where
  data := writeBE32 s.a ++ writeBE32 s.b ++ writeBE32 s.c ++ writeBE32 s.d ++
    writeBE32 s.e ++ writeBE32 s.f ++ writeBE32 s.g ++ writeBE32 s.h
  length_eq := by simp [writeBE32]

def finalizeNoPadding (hasher : CSHA256) (enforceCompression : Bool) : Except String (Blob 32) :=
  if enforceCompression ∧ hasher.bytes ≠ 64 then
    .error "SHA256Compress should be invoked with a 512-bit block"
  else .ok (digest hasher.s)

/-- The `pad` of `Finalize`. -/
def pad : List UInt8 := 0x80 :: List.replicate 63 0

def finalize (hasher : CSHA256) : Except String (Blob 32) :=
  let sizedesc := writeBE64 (hasher.bytes <<< 3)
  let padded := hasher.write (pad.take (1 + ((119 - hasher.bytes % 64) % 64).toNat))
  (padded.write sizedesc).finalizeNoPadding false

end CSHA256

/-! What the bytes written so far make of the state. -/

def chain : Nat → Registers → List UInt8 → Registers
  | 0, s, _ => s
  | n + 1, s, message => chain n (compress s (chunkWords message)) (message.drop 64)

private theorem chain_add (n k : Nat) (s : Registers) (message : List UInt8) :
    chain (n + k) s message = chain k (chain n s message) (message.drop (64 * n)) := by
  induction n generalizing s message with
  | zero => simp [chain]
  | succ n ih =>
    rw [Nat.add_right_comm, chain, ih, chain, List.drop_drop]
    congr 2
    omega

theorem schedule_congr {block other : Nat → Word} (same : ∀ i < 16, block i = other i) (t : Nat) :
    schedule block t = schedule other t := by
  induction t using Nat.strong_induction_on with
  | _ t ih =>
    by_cases first : t < 16
    · rw [schedule_of_lt block first, schedule_of_lt other first, same t first]
    · obtain ⟨t, rfl⟩ : ∃ u, t = u + 16 := ⟨t - 16, by omega⟩
      rw [schedule_add, schedule_add, ih (t + 14) (by omega), ih (t + 9) (by omega),
        ih (t + 1) (by omega), ih t (by omega)]

theorem rounds_congr {block other : Nat → Word} (same : ∀ i < 16, block i = other i)
    (s : Registers) (n : Nat) : rounds s block n = rounds s other n := by
  induction n with
  | zero => rfl
  | succ n ih => rw [rounds, rounds, ih, schedule_congr same]

theorem compress_congr {block other : Nat → Word} (same : ∀ i < 16, block i = other i)
    (s : Registers) : compress s block = compress s other := by
  rw [compress, compress, rounds_congr same]

theorem chunkWords_append {chunk : List UInt8} (whole : 64 ≤ chunk.length) (rest : List UInt8)
    {i : Nat} (within : i < 16) : chunkWords (chunk ++ rest) i = chunkWords chunk i := by
  have byte : ∀ j < 64, (chunk ++ rest).getD j 0 = chunk.getD j 0 := fun j low =>
    List.getD_append _ _ _ _ (by omega)
  rw [chunkWords, chunkWords, readBE32, readBE32, byte _ (by omega), byte _ (by omega),
    byte _ (by omega), byte _ (by omega)]

private theorem chain_append {n : Nat} (s : Registers) {message : List UInt8}
    (whole : 64 * n ≤ message.length) (rest : List UInt8) :
    chain n s (message ++ rest) = chain n s message := by
  -- whole chunks do not depend on what follows them
  induction n generalizing s message with
  | zero => rfl
  | succ n ih =>
    rw [chain, chain, List.drop_append_of_le_length (by omega),
      ih _ (by rw [List.length_drop]; omega),
      compress_congr fun i within => chunkWords_append (by omega) rest within]

/-- The hasher has taken in a message: its whole chunks are in the state, the rest
is in the buffer. -/
structure Absorbed (message : List UInt8) (hasher : CSHA256) : Prop where
  s : hasher.s = chain (message.length / 64) initialState message
  buf : hasher.buf.data.take (message.length % 64) = message.drop (64 * (message.length / 64))
  bytes : hasher.bytes = UInt64.ofNat message.length

private theorem absorbed_new (buf : Blob 64) : Absorbed [] (CSHA256.new buf) := ⟨rfl, rfl, rfl⟩

private theorem absorbed_reset (hasher : CSHA256) : Absorbed [] hasher.reset := ⟨rfl, rfl, rfl⟩

private theorem toNat_bytes_mod {message : List UInt8} {hasher : CSHA256}
    (absorbed : Absorbed message hasher) : (hasher.bytes % 64).toNat = message.length % 64 := by
  rw [absorbed.bytes, UInt64.toNat_mod, UInt64.toNat_ofNat']
  exact Nat.mod_mod_of_dvd _ (by decide)

private theorem writeChunks_eq (n : Nat) (s : Registers) (bytes : UInt64) (data : List UInt8) :
    CSHA256.writeChunks n s bytes data =
      (chain n s data, bytes + UInt64.ofNat (64 * n), data.drop (64 * n)) := by
  induction n generalizing s bytes data with
  | zero => simp [CSHA256.writeChunks, chain]
  | succ n ih =>
    have count : (64 : UInt64) + UInt64.ofNat (64 * n) = UInt64.ofNat (64 * (n + 1)) := by
      rw [Nat.mul_succ, Nat.add_comm, UInt64.ofNat_add]
      rfl
    have rest : 64 + 64 * n = 64 * (n + 1) := by omega
    rw [CSHA256.writeChunks, ih, chain, transform_eq_compress, List.drop_drop, UInt64.add_assoc,
      count, rest]

private theorem take_memcpy {buf : Blob 64} {offset : Nat} {data : List UInt8}
    (fits : offset + data.length ≤ 64) :
    (memcpy buf offset data).data.take (offset + data.length) = buf.data.take offset ++ data := by
  have front : (buf.data.take offset).length = offset :=
    List.length_take_of_le (by rw [buf.length_eq]; omega)
  rw [memcpy, List.take_take, Nat.min_eq_left fits]
  exact List.take_left' (by rw [List.length_append, front])

private theorem Absorbed.writeTail {message : List UInt8} {hasher : CSHA256}
    (absorbed : Absorbed message hasher) {rest : List UInt8}
    (short : message.length % 64 + rest.length < 64) :
    Absorbed (message ++ rest) (hasher.writeTail (message.length % 64) rest) := by
  unfold CSHA256.writeTail
  split_ifs with empty
  · rw [empty, List.append_nil]
    exact absorbed
  · have size : (message ++ rest).length = message.length + rest.length := List.length_append
    have chunks : (message ++ rest).length / 64 = message.length / 64 := by omega
    have held : (message ++ rest).length % 64 = message.length % 64 + rest.length := by omega
    constructor
    · rw [chunks, chain_append _ (by omega)]
      exact absorbed.s
    · rw [held, chunks, take_memcpy (by omega), absorbed.buf,
        List.drop_append_of_le_length (by omega)]
    · rw [size, UInt64.ofNat_add, absorbed.bytes]

private theorem Absorbed.chunks {message : List UInt8} {hasher : CSHA256}
    (absorbed : Absorbed message hasher) {n : Nat} (aligned : message.length % 64 = 0 ∨ n = 0)
    {data : List UInt8} (within : 64 * n ≤ data.length) :
    Absorbed (message ++ data.take (64 * n))
      ⟨chain n hasher.s data, hasher.buf, hasher.bytes + UInt64.ofNat (64 * n)⟩ := by
  -- chunks are taken from the source only when the buffer is empty
  have size : (message ++ data.take (64 * n)).length = message.length + 64 * n := by
    rw [List.length_append, List.length_take_of_le within]
  rcases aligned with whole | rfl
  · have chunks : (message ++ data.take (64 * n)).length / 64 = message.length / 64 + n := by omega
    have start : 64 * (message.length / 64) = message.length := by omega
    constructor
    · rw [chunks, chain_add, chain_append _ (by omega), ← absorbed.s, start, List.drop_left]
      nth_rewrite 1 [← List.take_append_drop (64 * n) data]
      exact chain_append _ (by rw [List.length_take_of_le within]) _
    · have held : (message ++ data.take (64 * n)).length % 64 = 0 := by omega
      rw [held, chunks, List.take_zero, List.drop_eq_nil_of_le (by omega)]
    · rw [size, UInt64.ofNat_add, absorbed.bytes]
  · simpa [chain] using absorbed

private theorem Absorbed.writeFrom {message : List UInt8} {hasher : CSHA256}
    (absorbed : Absorbed message hasher) {data : List UInt8}
    (aligned : message.length % 64 = 0 ∨ message.length % 64 + data.length < 64) :
    Absorbed (message ++ data) (hasher.writeFrom (message.length % 64) data) := by
  let n := data.length / 64
  have within : 64 * n ≤ data.length := Nat.mul_div_le data.length 64
  have taken := absorbed.chunks (n := n) (by omega) within
  have size : (message ++ data.take (64 * n)).length = message.length + 64 * n := by
    rw [List.length_append, List.length_take_of_le within]
  have left : (data.drop (64 * n)).length = data.length - 64 * n := List.length_drop
  have held : (message ++ data.take (64 * n)).length % 64 = message.length % 64 := by omega
  have done : Absorbed (message ++ data.take (64 * n) ++ data.drop (64 * n)) _ :=
    taken.writeTail (by omega)
  rw [List.append_assoc, List.take_append_drop, held] at done
  rw [CSHA256.writeFrom, writeChunks_eq]
  exact done

private theorem Absorbed.write {message : List UInt8} {hasher : CSHA256}
    (absorbed : Absorbed message hasher) (data : List UInt8) :
    Absorbed (message ++ data) (hasher.write data) := by
  rw [CSHA256.write, toNat_bytes_mod absorbed]
  set bufsize := message.length % 64 with held
  split_ifs with fills
  · -- the buffer is filled and taken in, and the rest is written to an empty one
    have front : (data.take (64 - bufsize)).length = 64 - bufsize :=
      List.length_take_of_le (by omega)
    have filled : (memcpy hasher.buf bufsize (data.take (64 - bufsize))).data =
        message.drop (64 * (message.length / 64)) ++ data.take (64 - bufsize) := by
      have all : (memcpy hasher.buf bufsize (data.take (64 - bufsize))).data.length ≤
          bufsize + (data.take (64 - bufsize)).length := by
        rw [Blob.length_eq, front]
        omega
      rw [← absorbed.buf, ← take_memcpy (by omega), List.take_of_length_le all]
    have size : (message ++ data.take (64 - bufsize)).length = message.length + (64 - bufsize) := by
      rw [List.length_append, front]
    have chunks : (message ++ data.take (64 - bufsize)).length / 64 = message.length / 64 + 1 := by
      omega
    have aligned : (message ++ data.take (64 - bufsize)).length % 64 = 0 := by omega
    have between : Absorbed (message ++ data.take (64 - bufsize))
        ⟨transform hasher.s (memcpy hasher.buf bufsize (data.take (64 - bufsize))).data,
          memcpy hasher.buf bufsize (data.take (64 - bufsize)),
          hasher.bytes + UInt64.ofNat (64 - bufsize)⟩ := by
      constructor
      · rw [chunks, chain_add, chain_append _ (by omega), ← absorbed.s,
          List.drop_append_of_le_length (by omega), transform_eq_compress, filled]
        rfl
      · rw [aligned, chunks, List.take_zero, List.drop_eq_nil_of_le (by omega)]
      · rw [size, UInt64.ofNat_add, absorbed.bytes]
    have done : Absorbed (message ++ data.take (64 - bufsize) ++ data.drop (64 - bufsize)) _ :=
      between.writeFrom (.inl aligned)
    rw [aligned, List.append_assoc, List.take_append_drop] at done
    exact done
  · exact absorbed.writeFrom (by omega)

private theorem Absorbed.writes {message : List UInt8} {hasher : CSHA256}
    (absorbed : Absorbed message hasher) (parts : List (List UInt8)) :
    Absorbed (message ++ parts.flatten) (parts.foldl CSHA256.write hasher) := by
  induction parts generalizing message hasher with
  | nil => simpa using absorbed
  | cons part parts ih =>
    rw [List.flatten_cons, ← List.append_assoc]
    exact ih (absorbed.write part)

/-! The hash of a message as a whole. -/

def fillerLength (message : List UInt8) : Nat := (119 - message.length % 64) % 64

/-- A message with its padding: a one bit, zeros, and its length in bits. -/
def padded (message : List UInt8) : List UInt8 :=
  message ++ 0x80 :: List.replicate (fillerLength message) 0 ++
    writeBE64 (UInt64.ofNat (8 * message.length))

def sha256 (message : List UInt8) : Blob 32 :=
  CSHA256.digest (chain ((padded message).length / 64) initialState (padded message))

/-- The padding takes the least number of chunks that hold the message, the one
bit and the length. -/
theorem length_padded (message : List UInt8) :
    (padded message).length = 64 * ((message.length + 72) / 64) := by
  have zeros : fillerLength message = (119 - message.length % 64) % 64 := rfl
  simp only [padded, writeBE64, List.length_append, List.length_cons, List.length_replicate,
    length_writeBE]
  omega

private theorem Absorbed.finalize {message : List UInt8} {hasher : CSHA256}
    (absorbed : Absorbed message hasher) : hasher.finalize = .ok (sha256 message) := by
  have count : ((119 - hasher.bytes % 64) % 64).toNat = fillerLength message := by
    have held := toNat_bytes_mod absorbed
    have below : hasher.bytes % 64 ≤ 119 := by
      rw [UInt64.le_iff_toNat_le, held]
      exact (Nat.mod_lt _ (by decide)).le.trans (by decide)
    rw [UInt64.toNat_mod, UInt64.toNat_sub_of_le _ _ below, held]
    rfl
  have filler : CSHA256.pad.take (1 + fillerLength message) =
      0x80 :: List.replicate (fillerLength message) 0 := by
    have room : fillerLength message ≤ 63 := Nat.lt_succ_iff.mp (Nat.mod_lt _ (by decide))
    rw [CSHA256.pad, Nat.add_comm, List.take_succ_cons, List.take_replicate, Nat.min_eq_left room]
  have length : hasher.bytes <<< 3 = UInt64.ofNat (8 * message.length) := by
    rw [absorbed.bytes, ← UInt64.toNat_inj, UInt64.toNat_shiftLeft, UInt64.toNat_ofNat',
      UInt64.toNat_ofNat', Nat.shiftLeft_eq]
    change message.length % 2 ^ 64 * 2 ^ 3 % 2 ^ 64 = 8 * message.length % 2 ^ 64
    omega
  have written := (absorbed.write (CSHA256.pad.take (1 + fillerLength message))).write
    (writeBE64 (hasher.bytes <<< 3))
  rw [filler, length] at written
  rw [CSHA256.finalize, count, filler, length, CSHA256.finalizeNoPadding, if_neg (by simp),
    written.s]
  rfl

/-- However a message is cut into writes, and whatever the buffer held before,
`Finalize` gives its SHA-256. -/
theorem finalize_writes (buf : Blob 64) (parts : List (List UInt8)) :
    (parts.foldl CSHA256.write (CSHA256.new buf)).finalize = .ok (sha256 parts.flatten) :=
  ((absorbed_new buf).writes parts).finalize

example : ([[0x61], [0x62, 0x63]].foldl CSHA256.write (CSHA256.new .null)).finalize.map Blob.data =
    .ok [0xba, 0x78, 0x16, 0xbf, 0x8f, 0x01, 0xcf, 0xea, 0x41, 0x41, 0x40, 0xde, 0x5d, 0xae, 0x22,
      0x23, 0xb0, 0x03, 0x61, 0xa3, 0x96, 0x17, 0x7a, 0x9c, 0xb4, 0x10, 0xff, 0x61, 0xf2, 0x00,
      0x15, 0xad] := by
  decide +kernel

/-- A call that a hasher takes before `Finalize`. -/
inductive Call where
  | write (data : List UInt8)
  | reset

def CSHA256.call (hasher : CSHA256) : Call → CSHA256
  | .write data => hasher.write data
  | .reset => hasher.reset

/-- The bytes since the last `Reset`, after one more call. -/
def written (message : List UInt8) : Call → List UInt8
  | .write data => message ++ data
  | .reset => []

private theorem Absorbed.calls {message : List UInt8} {hasher : CSHA256}
    (absorbed : Absorbed message hasher)
    (calls : List Call) : Absorbed (calls.foldl written message) (calls.foldl CSHA256.call hasher) := by
  induction calls generalizing message hasher with
  | nil => exact absorbed
  | cons call calls ih =>
    cases call with
    | write data => exact ih (absorbed.write data)
    | reset => exact ih (absorbed_reset hasher)

/-- In whatever order a hasher was written to and reset, and whatever its buffer held at first,
`Finalize` gives the SHA-256 of what was written since the last `Reset`. -/
theorem finalize_calls (buf : Blob 64) (calls : List Call) :
    (calls.foldl CSHA256.call (CSHA256.new buf)).finalize = .ok (sha256 (calls.foldl written [])) :=
  ((absorbed_new buf).calls calls).finalize

theorem finalizeNoPadding_writes (buf : Blob 64) (parts : List (List UInt8))
    (possible : parts.flatten.length < 2 ^ 64) :
    (parts.foldl CSHA256.write (CSHA256.new buf)).finalizeNoPadding true =
      if parts.flatten.length = 64 then
        .ok (CSHA256.digest (compress initialState (chunkWords parts.flatten)))
      else .error "SHA256Compress should be invoked with a 512-bit block" := by
  have absorbed := (absorbed_new buf).writes parts
  rw [List.nil_append] at absorbed
  have full : (parts.foldl CSHA256.write (CSHA256.new buf)).bytes = 64 ↔
      parts.flatten.length = 64 := by
    rw [absorbed.bytes, ← UInt64.toNat_inj, UInt64.toNat_ofNat_of_lt' possible]
    rfl
  rw [CSHA256.finalizeNoPadding, absorbed.s]
  by_cases one : parts.flatten.length = 64
  · rw [if_neg fun checked => checked.2 (full.mpr one), if_pos one, one]
    rfl
  · rw [if_pos ⟨rfl, fun other => one (full.mp other)⟩, if_neg one]

end CbDaemon.Crypto.Hasher
