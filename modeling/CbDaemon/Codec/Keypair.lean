/- module: CbDaemon/Codec/Keypair
   source: src/zmq/request.cpp, uint252.h, uint256.h
   digest: A confidential key survives storage exactly when all its bytes are seven-bit. -/

import CbDaemon.Base.Machine
import CbDaemon.Codec.Utf8

set_option autoImplicit false
set_option relaxedAutoImplicit false

namespace CbDaemon.Codec.Keypair
open Base.Machine Utf8

/-- `uint252`: 256 bits whose first four are zero. -/
@[ext]
structure Uint252 where
  contents : Blob 32
  leadingBits : contents.lead &&& 0xF0 = 0
  deriving DecidableEq

namespace Uint252

def null : Uint252 := ⟨Blob.null, rfl⟩

/-- `SerializationOp` when writing; the check after the write cannot fail. -/
def serialize (key : Uint252) : List UInt8 := key.contents.data

/-- `SerializationOp` when reading. -/
def unserialize (key : Uint252) (stream : List UInt8) : Except String Uint252 :=
  let contents := key.contents.unserialize stream
  if leadingBits : contents.lead &&& 0xF0 = 0 then .ok ⟨contents, leadingBits⟩
  else .error "spending key has invalid leading bits"

private theorem unserialize_eq_ok {key found : Uint252} {stream : List UInt8} :
    key.unserialize stream = .ok found ↔ key.contents.unserialize stream = found.contents := by
  constructor
  · intro ok
    simp only [unserialize] at ok
    split at ok
    · cases ok
      rfl
    · cases ok
  · intro same
    have lead : (key.contents.unserialize stream).lead &&& 0xF0 = 0 := by
      rw [same]
      exact found.leadingBits
    rw [unserialize, dif_pos lead]
    congr 1
    exact Uint252.ext same

end Uint252

/-- The JSON and database layers between writing a string field and reading it
back. They are only known to keep well-formed UTF-8. -/
structure JsonLayer where
  transfer : List UInt8 → List UInt8
  transfer_valid : ∀ s, ValidUtf8 s → transfer s = s

def JsonLayer.exact : JsonLayer := ⟨id, fun _ _ => rfl⟩

@[ext]
structure ZCKeypair where
  recipientKey : Uint252
  deriving DecidableEq

namespace ZCKeypair

/-- `serialize`: the string put into the `recipient_key` field. The source copies between
iterators of two temporary strings, so what is copied of the bytes is a parameter. -/
def serializeWith (copy : List UInt8 → List UInt8) (pair : ZCKeypair) : List UInt8 :=
  unicodeToUTF8 ((copy pair.recipientKey.serialize).map widen)

/-- `serialize` where the bytes are copied. -/
def serialize (pair : ZCKeypair) : List UInt8 := pair.serializeWith id

/-- `ZC_Keypair(std::string)`: the bytes of the `recipient_key` field are read
as they are, with no decoding. -/
def ofString (recipientKey : List UInt8) : Except String ZCKeypair :=
  (Uint252.null.unserialize recipientKey).map ZCKeypair.mk

/-- A pair written by `serialize`, carried by the layers and read again. -/
def recovered (json : JsonLayer) (pair : ZCKeypair) : Except String ZCKeypair :=
  ofString (json.transfer pair.serialize)

private theorem serializeWith_eq_filter (copy : List UInt8 → List UInt8) (pair : ZCKeypair) :
    pair.serializeWith copy = (copy pair.recipientKey.contents.data).filter (· < 0x80) :=
  unicodeToUTF8_widen _

private theorem serialize_eq_filter (pair : ZCKeypair) :
    pair.serialize = pair.recipientKey.contents.data.filter (· < 0x80) :=
  serializeWith_eq_filter id pair

/-- What is stored is well-formed UTF-8 for every key, so the layers are not to
blame for a difference. -/
private theorem transfer_serialize (json : JsonLayer) (pair : ZCKeypair) :
    json.transfer pair.serialize = pair.serialize := by
  apply json.transfer_valid
  apply validUtf8_of_ascii
  intro b mem
  rw [serialize_eq_filter] at mem
  simpa using (List.mem_filter.mp mem).2

private theorem ofString_eq_ok {stream : List UInt8} {pair : ZCKeypair} :
    ofString stream = .ok pair ↔
      (Blob.null : Blob 32).unserialize stream = pair.recipientKey.contents := by
  change (Uint252.null.unserialize stream).map ZCKeypair.mk = .ok pair ↔
    Uint252.null.contents.unserialize stream = pair.recipientKey.contents
  rw [← Uint252.unserialize_eq_ok]
  cases Uint252.null.unserialize stream with
  | error message => simp [Except.map]
  | ok key => simp [Except.map, ZCKeypair.ext_iff]

/-- A written key can be read, even where it is read as another one: its first
byte is seven-bit and not lost. -/
theorem exists_ofString_serialize (pair : ZCKeypair) :
    ∃ found, ofString pair.serialize = .ok found := by
  have sevenBit : ∀ n < 256, UInt8.ofNat n &&& 0xF0 = 0 → UInt8.ofNat n < 0x80 := by
    decide +kernel
  have lead : ((Blob.null : Blob 32).unserialize pair.serialize).lead &&& 0xF0 = 0 := by
    rw [serialize_eq_filter]
    obtain ⟨⟨⟨data, width⟩, leadingBits⟩⟩ := pair
    cases data with
    | nil => cases width
    | cons b bytes =>
      have low := sevenBit b.toNat b.toNat_lt
      rw [UInt8.ofNat_toNat] at low
      rw [List.filter_cons_of_pos (by simpa using low leadingBits)]
      exact leadingBits
  exact ⟨⟨_, lead⟩, ofString_eq_ok.mpr rfl⟩

end ZCKeypair

/-- Filtering and padding with zeros gives the list back only when nothing was
filtered: a dropped byte is not seven-bit, the padding is. -/
private theorem filter_padded_eq_iff (bytes : List UInt8) :
    bytes.filter (· < 0x80) ++
        (List.replicate bytes.length 0).drop (bytes.filter (· < 0x80)).length = bytes ↔
      ∀ b ∈ bytes, b < 0x80 := by
  constructor
  · intro same b mem
    rw [← same, List.mem_append] at mem
    rcases mem with kept | padding
    · simpa using (List.mem_filter.mp kept).2
    · have zero : b = 0 := List.eq_of_mem_replicate (List.mem_of_mem_drop padding)
      rw [zero]
      decide
  · intro ascii
    have all : bytes.filter (· < 0x80) = bytes := by
      apply List.filter_eq_self.mpr
      intro b mem
      exact decide_eq_true (ascii b mem)
    rw [all]
    simp

theorem ZCKeypair.ofString_serialize_iff (pair : ZCKeypair) :
    ofString pair.serialize = .ok pair ↔ ∀ b ∈ pair.recipientKey.contents.data, b < 0x80 := by
  have width := pair.recipientKey.contents.length_eq
  have short := List.length_filter_le (· < 0x80) pair.recipientKey.contents.data
  rw [ofString_eq_ok, Blob.ext_iff, serialize_eq_filter, ← filter_padded_eq_iff]
  simp only [Blob.unserialize, Blob.null, width]
  rw [List.take_of_length_le (by omega)]

/-- A stored spending key is read back as it was exactly when every byte of it
is below `0x80`. -/
theorem recovered_recipientKey_iff (json : JsonLayer) (pair : ZCKeypair) :
    (pair.recovered json).map ZCKeypair.recipientKey = .ok pair.recipientKey ↔
      ∀ b ∈ pair.recipientKey.contents.data, b < 0x80 := by
  have read : (pair.recovered json).map ZCKeypair.recipientKey = .ok pair.recipientKey ↔
      pair.recovered json = .ok pair := by
    cases pair.recovered json with
    | error message => simp [Except.map]
    | ok found => simp [Except.map, ZCKeypair.ext_iff]
  rw [read, ZCKeypair.recovered, ZCKeypair.transfer_serialize, ZCKeypair.ofString_serialize_iff]

/-- The key `00 80 00 … 00`. -/
def highByteKey : ZCKeypair where
  recipientKey := ⟨⟨0 :: 0x80 :: List.replicate 30 0, rfl⟩, rfl⟩

/-- The key `00 80 00 … 00` comes back as the zero key, without an error. -/
theorem highByteKey_recovered :
    (highByteKey.recovered JsonLayer.exact).map ZCKeypair.recipientKey = .ok Uint252.null ∧
      Uint252.null ≠ highByteKey.recipientKey := by
  constructor
  · decide
  · decide

end CbDaemon.Codec.Keypair
