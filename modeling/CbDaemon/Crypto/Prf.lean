/- module: CbDaemon/Crypto/Prf
   source: zcash/prf.cpp, zcash/IncrementalMerkleTree.cpp, zcash/Note.cpp, zcash/util.cpp
   digest: The keyed functions, the node hash and the note commitment never fail, and what they hash. -/

import CbDaemon.Codec.Keypair
import CbDaemon.Crypto.Hasher
import CbDaemon.JoinSplit.Prove

set_option autoImplicit false
set_option relaxedAutoImplicit false

namespace CbDaemon.Crypto.Prf

open Base.Machine
open Sha256 Hasher
open Codec.Keypair (Uint252)
open JoinSplit.Prove (Note)

abbrev Uint256 := Blob 32

/-- The first byte of `blob` in `PRF`. -/
def prfLead (a b c d : Bool) (lead : UInt8) : UInt8 :=
  let bit (set : Bool) (place : UInt8) : UInt8 := if set then 1 <<< place else 0
  (lead &&& 0x0F) ||| (bit a 7 ||| bit b 6 ||| bit c 5 ||| bit d 4)

/-- The `blob` of `PRF`. -/
def prfBlob (a b c d : Bool) (x y : Uint256) : List UInt8 :=
  prfLead a b c d x.lead :: (x.data.tail ++ y.data)

/-- `PRF`. The hasher's buffer is not initialised; nothing depends on it. -/
def prf (a b c d : Bool) (x : Uint252) (y : Uint256) : Except String Uint256 :=
  ((CSHA256.new .null).write (prfBlob a b c d x.contents y)).finalizeNoPadding true

/-- A `uint256` of zeros but for its first byte. -/
def firstByte (t : UInt8) : Uint256 := ⟨t :: List.replicate 31 0, by simp⟩

def prfAddr (aSk : Uint252) (t : UInt8) : Except String Uint256 :=
  prf true true false false aSk (firstByte t)

def prfAddrAPk (aSk : Uint252) : Except String Uint256 := prfAddr aSk 0

def prfAddrSkEnc (aSk : Uint252) : Except String Uint256 := prfAddr aSk 1

def prfNf (aSk : Uint252) (rho : Uint256) : Except String Uint256 :=
  prf true true true false aSk rho

def prfPk (aSk : Uint252) (i0 : Nat) (hSig : Uint256) : Except String Uint256 :=
  if i0 ≠ 0 ∧ i0 ≠ 1 then .error "PRF_pk invoked with index out of bounds"
  else prf false (i0 != 0) false false aSk hSig

def prfRho (phi : Uint252) (i0 : Nat) (hSig : Uint256) : Except String Uint256 :=
  if i0 ≠ 0 ∧ i0 ≠ 1 then .error "PRF_rho invoked with index out of bounds"
  else prf false (i0 != 0) true false phi hSig

/-- `SHA256Compress::combine`. -/
def combine (a b : Uint256) : Except String Uint256 :=
  (((CSHA256.new .null).write a.data).write b.data).finalizeNoPadding true

def convertIntToVectorLE (val : UInt64) : List UInt8 :=
  (List.range 8).map fun i => (val >>> UInt64.ofNat (i * 8)).toUInt8

/-- `Note::cm`. -/
def cm (note : Note Uint256) : Except String Uint256 :=
  (((((((CSHA256.new .null).write [0xb0]).write note.aPk.data).write
    (convertIntToVectorLE note.value)).write note.rho.data).write note.r.data)).finalize

/-! What is hashed. -/

def blockHash (block : List UInt8) : Uint256 :=
  CSHA256.digest (compress initialState (chunkWords block))

theorem blob_ne_nil (blob : Uint256) : blob.data = blob.lead :: blob.data.tail := by
  obtain ⟨data, size⟩ := blob
  cases data with
  | nil => cases size
  | cons first rest => rfl

theorem length_prfBlob (a b c d : Bool) (x y : Uint256) : (prfBlob a b c d x y).length = 64 := by
  rw [prfBlob, List.length_cons, List.length_append, List.length_tail, x.length_eq, y.length_eq]

theorem prf_eq (a b c d : Bool) (x : Uint252) (y : Uint256) :
    prf a b c d x y = .ok (blockHash (prfBlob a b c d x.contents y)) := by
  have size := length_prfBlob a b c d x.contents y
  have hashed := finalizeNoPadding_writes .null [prfBlob a b c d x.contents y] (by simp [size])
  rw [List.flatten_singleton, if_pos size] at hashed
  exact hashed

/-- The `a_pk` of a key. -/
def addressOf (aSk : Uint252) : Uint256 :=
  blockHash (prfBlob true true false false aSk.contents (firstByte 0))

def nullifierOf (aSk : Uint252) (rho : Uint256) : Uint256 :=
  blockHash (prfBlob true true true false aSk.contents rho)

def macOf (aSk : Uint252) (nonce : Bool) (hSig : Uint256) : Uint256 :=
  blockHash (prfBlob false nonce false false aSk.contents hSig)

/-- The `rho` of an output note. -/
def rhoOf (phi : Uint252) (nonce : Bool) (hSig : Uint256) : Uint256 :=
  blockHash (prfBlob false nonce true false phi.contents hSig)

theorem prfAddrAPk_eq (aSk : Uint252) : prfAddrAPk aSk = .ok (addressOf aSk) := prf_eq _ _ _ _ _ _

theorem prfNf_eq (aSk : Uint252) (rho : Uint256) : prfNf aSk rho = .ok (nullifierOf aSk rho) :=
  prf_eq _ _ _ _ _ _

theorem prfPk_eq (aSk : Uint252) {i0 : Nat} (index : i0 < 2) (hSig : Uint256) :
    prfPk aSk i0 hSig = .ok (macOf aSk (i0 != 0) hSig) := by
  rw [prfPk, if_neg (by omega), prf_eq, macOf]

theorem prfRho_eq (phi : Uint252) {i0 : Nat} (index : i0 < 2) (hSig : Uint256) :
    prfRho phi i0 hSig = .ok (rhoOf phi (i0 != 0) hSig) := by
  rw [prfRho, if_neg (by omega), prf_eq, rhoOf]

/-- The hash of an inner node is one compression of both children. -/
theorem combine_eq (a b : Uint256) : combine a b = .ok (blockHash (a.data ++ b.data)) := by
  have size : [a.data, b.data].flatten.length = 64 := by
    rw [List.flatten_cons, List.flatten_singleton, List.length_append, a.length_eq, b.length_eq]
  have hashed := finalizeNoPadding_writes .null [a.data, b.data] (by omega)
  rw [if_pos size, List.flatten_cons, List.flatten_singleton] at hashed
  exact hashed

def noteBytes (note : Note Uint256) : List UInt8 :=
  0xb0 :: (note.aPk.data ++ convertIntToVectorLE note.value ++ note.rho.data ++ note.r.data)

theorem length_noteBytes (note : Note Uint256) : (noteBytes note).length = 105 := by
  simp [noteBytes, convertIntToVectorLE, Blob.length_eq]

def commitmentOf (note : Note Uint256) : Uint256 := sha256 (noteBytes note)

theorem cm_eq (note : Note Uint256) : cm note = .ok (commitmentOf note) := by
  have hashed := finalize_writes .null
    [[0xb0], note.aPk.data, convertIntToVectorLE note.value, note.rho.data, note.r.data]
  have bytes : [[0xb0], note.aPk.data, convertIntToVectorLE note.value, note.rho.data,
      note.r.data].flatten = noteBytes note := by
    simp [noteBytes]
  rw [bytes] at hashed
  exact hashed

private theorem convertIntToVectorLE_inj {x y : UInt64}
    (same : convertIntToVectorLE x = convertIntToVectorLE y) : x = y := by
  have digit : ∀ (z : UInt64) i, i < 8 →
      (z >>> UInt64.ofNat (i * 8)).toUInt8.toNat = z.toNat / 256 ^ i % 256 := by
    intro z i within
    have shift : (UInt64.ofNat (i * 8)).toNat = i * 8 :=
      UInt64.toNat_ofNat_of_lt' (by change i * 8 < 2 ^ 64; omega)
    have small : i * 8 % 64 = 8 * i := by omega
    rw [UInt64.toNat_toUInt8, UInt64.toNat_shiftRight, shift, small, Nat.shiftRight_eq_div_pow, pow_mul]
    norm_num
  have each : ∀ i < 8, x.toNat / 256 ^ i % 256 = y.toNat / 256 ^ i % 256 := by
    intro i within
    have place := congrArg (·[i]?) same
    simp only [convertIntToVectorLE, List.getElem?_map, List.getElem?_range within, Option.map_some,
      Option.some.injEq] at place
    rw [← digit x i within, ← digit y i within, place]
  have digits := And.intro (each 0 (by omega)) (And.intro (each 1 (by omega)) (And.intro
    (each 2 (by omega)) (And.intro (each 3 (by omega)) (And.intro (each 4 (by omega))
    (And.intro (each 5 (by omega)) (And.intro (each 6 (by omega)) (each 7 (by omega))))))))
  have below := x.toNat_lt
  have below' := y.toNat_lt
  rw [← UInt64.toNat_inj]
  omega

theorem noteBytes_inj {note note' : Note Uint256} (same : noteBytes note = noteBytes note') :
    note = note' := by
  have size : ∀ (a b : Uint256), a.data.length = b.data.length := fun a b => by
    rw [a.length_eq, b.length_eq]
  obtain ⟨front, last⟩ := List.append_inj' (List.cons.inj same).2 (size _ _)
  obtain ⟨front, middle⟩ := List.append_inj' front (size _ _)
  obtain ⟨first, number⟩ := List.append_inj front (size _ _)
  cases note
  cases note'
  simp only at first number middle last
  rw [Blob.ext first, convertIntToVectorLE_inj number, Blob.ext middle, Blob.ext last]

/-! No two uses of the compression function share an input. -/

/-- A call of one of the functions. -/
inductive Query where
  | aPk (aSk : Uint252)
  | skEnc (aSk : Uint252)
  | nf (aSk : Uint252) (rho : Uint256)
  | pk (aSk : Uint252) (i0 : Fin 2) (hSig : Uint256)
  | rho (phi : Uint252) (i0 : Fin 2) (hSig : Uint256)

def Query.ask : Query → Except String Uint256
  | .aPk aSk => prfAddrAPk aSk
  | .skEnc aSk => prfAddrSkEnc aSk
  | .nf aSk r => prfNf aSk r
  | .pk aSk i0 hSig => prfPk aSk i0 hSig
  | .rho phi i0 hSig => prfRho phi i0 hSig

def Query.tag : Query → Bool × Bool × Bool × Bool
  | .aPk _ => (true, true, false, false)
  | .skEnc _ => (true, true, false, false)
  | .nf _ _ => (true, true, true, false)
  | .pk _ i0 _ => (false, i0.val != 0, false, false)
  | .rho _ i0 _ => (false, i0.val != 0, true, false)

def Query.key : Query → Uint252
  | .aPk aSk => aSk
  | .skEnc aSk => aSk
  | .nf aSk _ => aSk
  | .pk aSk _ _ => aSk
  | .rho phi _ _ => phi

def Query.argument : Query → Uint256
  | .aPk _ => firstByte 0
  | .skEnc _ => firstByte 1
  | .nf _ r => r
  | .pk _ _ hSig => hSig
  | .rho _ _ hSig => hSig

def Query.block (q : Query) : List UInt8 :=
  prfBlob q.tag.1 q.tag.2.1 q.tag.2.2.1 q.tag.2.2.2 q.key.contents q.argument

private theorem or_and_byte (x y z : UInt8) : (x ||| y) &&& z = x &&& z ||| y &&& z := by
  rw [← UInt8.toBitVec_inj]
  ext i
  simp [Bool.and_or_distrib_right]

def prfTag (a b c d : Bool) : UInt8 := prfLead a b c d 0

def tagBits (tag : UInt8) : Bool × Bool × Bool × Bool :=
  (tag &&& 0x80 != 0, tag &&& 0x40 != 0, tag &&& 0x20 != 0, tag &&& 0x10 != 0)

private theorem tagBits_prfTag (a b c d : Bool) : tagBits (prfTag a b c d) = (a, b, c, d) := by
  cases a <;> cases b <;> cases c <;> cases d <;> rfl

private theorem prfTag_and (a b c d : Bool) :
    prfTag a b c d &&& 0xF0 = prfTag a b c d ∧ prfTag a b c d &&& 0x0F = 0 := by
  cases a <;> cases b <;> cases c <;> cases d <;> exact ⟨rfl, rfl⟩

private theorem prfLead_split (a b c d : Bool) {lead : UInt8} (clear : lead &&& 0xF0 = 0) :
    prfLead a b c d lead &&& 0xF0 = prfTag a b c d ∧ prfLead a b c d lead &&& 0x0F = lead := by
  -- the four bits of the call and the four of the key do not overlap
  have tag : prfLead a b c d lead = lead &&& 0x0F ||| prfTag a b c d := by
    simp only [prfTag, prfLead, UInt8.zero_and, UInt8.zero_or]
  have low : lead &&& 0x0F = lead := by
    have whole : lead &&& (0xF0 ||| 0x0F) = lead := UInt8.and_neg_one
    rw [UInt8.and_comm, or_and_byte, UInt8.and_comm 0xF0, clear, UInt8.zero_or] at whole
    rwa [UInt8.and_comm]
  obtain ⟨kept, cleared⟩ := prfTag_and a b c d
  rw [tag, low, or_and_byte, or_and_byte, clear, low, kept, cleared, UInt8.zero_or, UInt8.or_zero]
  exact ⟨rfl, rfl⟩

theorem prfBlob_inj {a b c d a' b' c' d' : Bool} {x x' : Uint252} {y y' : Uint256}
    (same : prfBlob a b c d x.contents y = prfBlob a' b' c' d' x'.contents y') :
    (a, b, c, d) = (a', b', c', d') ∧ x = x' ∧ y = y' := by
  obtain ⟨lead, rest⟩ := List.cons.inj same
  obtain ⟨tag, key⟩ := prfLead_split a b c d x.leadingBits
  obtain ⟨tag', key'⟩ := prfLead_split a' b' c' d' x'.leadingBits
  rw [lead, tag'] at tag
  have call : (a, b, c, d) = (a', b', c', d') := by
    rw [← tagBits_prfTag a b c d, ← tag, tagBits_prfTag]
  rw [lead, key'] at key
  have lengths : x.contents.data.tail.length = x'.contents.data.tail.length := by
    rw [List.length_tail, List.length_tail, x.contents.length_eq, x'.contents.length_eq]
  obtain ⟨tails, others⟩ := List.append_inj rest lengths
  have keys : x.contents = x'.contents := by
    apply Blob.ext
    rw [blob_ne_nil x.contents, blob_ne_nil x'.contents, key, tails]
  refine ⟨call, ?_, Blob.ext others⟩
  cases x
  cases x'
  cases keys
  rfl

private theorem fin_two_eq {i j : Fin 2} (same : (i.val != 0) = (j.val != 0)) : i = j := by
  apply Fin.ext
  have first := i.isLt
  have second := j.isLt
  rw [Bool.eq_iff_iff, bne_iff_ne, bne_iff_ne] at same
  omega

private theorem Query.eq_of_parts {q q' : Query} (tags : q.tag = q'.tag) (keys : q.key = q'.key)
    (arguments : q.argument = q'.argument) : q = q' := by
  have apart : firstByte 0 ≠ firstByte 1 := by decide
  cases q <;> cases q' <;> simp only [tag, key, argument, Prod.mk.injEq] at tags keys arguments
  case pk.pk => rw [keys, fin_two_eq tags.2.1, arguments]
  case rho.rho => rw [keys, fin_two_eq tags.2.1, arguments]
  all_goals simp_all

/-- Every call with an index in range is one compression of its block, and no two such calls
share a block: neither two functions, nor one with different arguments. Any other index is
refused. -/
theorem queries_separated :
    (∀ q : Query, q.ask = .ok (blockHash q.block)) ∧ Function.Injective Query.block ∧
      ∀ (x : Uint252) (i0 : Nat) (hSig : Uint256), 2 ≤ i0 →
        prfPk x i0 hSig = .error "PRF_pk invoked with index out of bounds" ∧
        prfRho x i0 hSig = .error "PRF_rho invoked with index out of bounds" := by
  refine ⟨fun q => ?_, fun q q' same => ?_, fun x i0 hSig beyond => ?_⟩
  · cases q with
    | aPk aSk => exact prf_eq _ _ _ _ _ _
    | skEnc aSk => exact prf_eq _ _ _ _ _ _
    | nf aSk r => exact prf_eq _ _ _ _ _ _
    | pk aSk i0 hSig => exact prfPk_eq aSk i0.isLt hSig
    | rho phi i0 hSig => exact prfRho_eq phi i0.isLt hSig
  · obtain ⟨tags, keys, arguments⟩ := prfBlob_inj same
    exact Query.eq_of_parts tags keys arguments
  · have other : i0 ≠ 0 ∧ i0 ≠ 1 := by omega
    exact ⟨if_pos other, if_pos other⟩

end CbDaemon.Crypto.Prf
