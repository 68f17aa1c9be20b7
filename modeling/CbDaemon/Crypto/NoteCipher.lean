/- module: CbDaemon/Crypto/NoteCipher
   source: zcash/NoteEncryption.hpp, zcash/NoteEncryption.cpp, zcash/Note.hpp, zcash/Note.cpp, streams.h
   digest: Encrypted notes: every recipient gets back what was sent, and no cipher key is used twice. -/

import CbDaemon.Codec.Serialize
import CbDaemon.Crypto.Prf
import CbDaemon.Wallet.Notes

set_option autoImplicit false
set_option relaxedAutoImplicit false

namespace CbDaemon.Crypto.NoteCipher

open Base.Machine
open Prf
open Codec.Keypair (Uint252)
open Codec.Serialize (numberBytes littleEndian)
open JoinSplit.Prove (Note PaymentAddress JSOutput Primitives encryptNotes)
open Wallet.Notes (NotePlaintext WalletKeys zcCLen zcMemoSize)

/-- The functions of libsodium, `none` where they do not return zero. A scalar multiple of
an honest point always exists, two parties agree on theirs, and a message is recovered
under the key that it was encrypted with. -/
structure Sodium where
  scalarmult : Uint256 → Uint256 → Option Uint256
  scalarmultBase : Uint256 → Option Uint256
  blake2b : List UInt8 → List UInt8 → Option Uint256
  encrypt : ∀ {n}, Uint256 → Blob n → Blob (n + 16)
  decrypt : ∀ {n}, Uint256 → Blob (n + 16) → Option (Blob n)
  scalarmult_base : ∀ {sk pk}, scalarmultBase sk = some pk → ∀ other, (scalarmult other pk).isSome
  scalarmult_comm : ∀ {a b pa pb}, scalarmultBase a = some pa → scalarmultBase b = some pb →
    scalarmult a pb = scalarmult b pa
  blake2b_isSome : ∀ personal block, personal.length = 16 → (blake2b personal block).isSome
  decrypt_encrypt : ∀ {n} key (message : Blob n), decrypt key (encrypt key message) = some message

variable (lib : Sodium) {MLEN : Nat}

def clampCurve25519 (key : Uint256) : Uint256 where
  data := (key.data.set 0 (key.data.getD 0 0 &&& 248)).set 31 (key.data.getD 31 0 &&& 127 ||| 64)
  length_eq := by rw [List.length_set, List.length_set, key.length_eq]

/-- The `block` of `KDF`. -/
def kdfBlock (dhsecret epk pkEnc hSig : Uint256) : List UInt8 :=
  hSig.data ++ dhsecret.data ++ epk.data ++ pkEnc.data

/-- The `personalization` of `KDF`: `ZcashKDF`, the nonce, and zeros. -/
def kdfPersonalization (nonce : UInt8) : List UInt8 :=
  [0x5A, 0x63, 0x61, 0x73, 0x68, 0x4B, 0x44, 0x46, nonce] ++ List.replicate 7 0

def kdf (dhsecret epk pkEnc hSig : Uint256) (nonce : UInt8) : Except String Uint256 :=
  if nonce = 0xff then .error "no additional nonce space for KDF"
  else match lib.blake2b (kdfPersonalization nonce) (kdfBlock dhsecret epk pkEnc hSig) with
    | none => .error "hash function failure"
    | some K => .ok K

def generatePrivkey (aSk : Uint252) : Except String Uint256 := (prfAddrSkEnc aSk).map clampCurve25519

def generatePubkey (skEnc : Uint256) : Except String Uint256 :=
  match lib.scalarmultBase skEnc with
  | none => .error "Could not create public key"
  | some pk => .ok pk

structure NoteEncryption where
  epk : Uint256
  esk : Uint256
  nonce : UInt8
  hSig : Uint256

/-- The constructor, with the random `esk`. -/
def NoteEncryption.new (hSig esk : Uint256) : Except String NoteEncryption :=
  (generatePubkey lib esk).map fun epk => ⟨epk, esk, 0, hSig⟩

/-- `NoteEncryption::encrypt`, with the encryptor that is left. -/
def NoteEncryption.encrypt (e : NoteEncryption) (pkEnc : Uint256) (message : Blob MLEN) :
    Except String (Blob (MLEN + 16)) × NoteEncryption :=
  match lib.scalarmult e.esk pkEnc with
  | none => (.error "Could not create DH secret", e)
  | some dhsecret =>
    match kdf lib dhsecret e.epk pkEnc e.hSig e.nonce with
    | .error what => (.error what, e)
    | .ok K => (.ok (lib.encrypt K message), { e with nonce := e.nonce + 1 })

structure NoteDecryption where
  skEnc : Uint256
  pkEnc : Uint256

def NoteDecryption.new (skEnc : Uint256) : Except String NoteDecryption :=
  (generatePubkey lib skEnc).map fun pkEnc => ⟨skEnc, pkEnc⟩

/-- What is left of both functions of decryption when the secret is there. -/
def decryptWith (dhsecret epk pkEnc hSig : Uint256) (nonce : UInt8)
    (ciphertext : Blob (MLEN + 16)) : Except String (Blob MLEN) := do
  let K ← kdf lib dhsecret epk pkEnc hSig nonce
  match lib.decrypt K ciphertext with
  | none => .error "Could not decrypt message"
  | some message => .ok message

/-- `NoteDecryption::decrypt`. -/
def NoteDecryption.decrypt (d : NoteDecryption) (ciphertext : Blob (MLEN + 16))
    (epk hSig : Uint256) (nonce : UInt8) : Except String (Blob MLEN) :=
  match lib.scalarmult d.skEnc epk with
  | none => .error "Could not create DH secret"
  | some dhsecret => decryptWith lib dhsecret epk d.pkEnc hSig nonce ciphertext

def decryptWithEsk (ciphertext : Blob (MLEN + 16)) (pkEnc esk hSig : Uint256) (nonce : UInt8) :
    Except String (Blob MLEN) :=
  match lib.scalarmult esk pkEnc with
  | none => .error "Could not create DH secret"
  | some dhsecret => do
    let epk ← generatePubkey lib esk
    decryptWith lib dhsecret epk pkEnc hSig nonce ciphertext

/-! Note plaintexts. -/

abbrev zcNotePlaintextSize : Nat := 585

/-- The bytes that `NotePlaintext` serializes to. -/
def plaintextBytes (pt : NotePlaintext Uint256) : List UInt8 :=
  0x00 :: (numberBytes 8 pt.value.toNat ++ pt.rho.data ++ pt.r.data ++ pt.memo.data)

/-- `CBaseDataStream::read` of some bytes, with what is left. -/
def readBlob (n : Nat) (stream : List UInt8) : Except String (Blob n × List UInt8) :=
  if size : n ≤ stream.length then .ok (⟨stream.take n, List.length_take_of_le size⟩, stream.drop n)
  else .error "CBaseDataStream::read(): end of data"

/-- `SerializationOp` of `NotePlaintext` when reading. -/
def readPlaintext (stream : List UInt8) : Except String (NotePlaintext Uint256 × List UInt8) := do
  let (leadingByte, stream) ← readBlob 1 stream
  if leadingByte.lead ≠ 0x00 then .error "lead byte of NotePlaintext is not recognized"
  else do
    let (value, stream) ← readBlob 8 stream
    let (rho, stream) ← readBlob 32 stream
    let (r, stream) ← readBlob 32 stream
    let (memo, stream) ← readBlob zcMemoSize stream
    return (⟨UInt64.ofNat (littleEndian value.data), rho, r, memo⟩, stream)

/-- `NotePlaintext::decrypt`, with `none` for the failed assertion that nothing is left. -/
def decryptPlaintext (d : NoteDecryption) (ciphertext : Blob (zcNotePlaintextSize + 16))
    (ephemeralKey hSig : Uint256) (nonce : UInt8) :
    Except String (Option (NotePlaintext Uint256)) := do
  let plaintext ← d.decrypt lib ciphertext ephemeralKey hSig nonce
  let (ret, stream) ← readPlaintext plaintext.data
  return if stream = [] then some ret else none

private theorem length_numberBytes (size n : Nat) : (numberBytes size n).length = size := by
  induction size generalizing n with
  | zero => rfl
  | succ size ih => rw [numberBytes, List.length_cons, ih]

theorem length_plaintextBytes (pt : NotePlaintext Uint256) :
    (plaintextBytes pt).length = zcNotePlaintextSize := by
  simp [plaintextBytes, length_numberBytes, Blob.length_eq, zcMemoSize]

def plaintextBlob (pt : NotePlaintext Uint256) : Blob zcNotePlaintextSize :=
  ⟨plaintextBytes pt, length_plaintextBytes pt⟩

/-- `NotePlaintext::encrypt`. -/
def encryptPlaintext (e : NoteEncryption) (pt : NotePlaintext Uint256) (pkEnc : Uint256) :
    Except String (Blob (zcNotePlaintextSize + 16)) × NoteEncryption :=
  e.encrypt lib pkEnc (plaintextBlob pt)

/-- `NotePlaintext(note, memo)`. -/
def plaintextOf (note : Note Uint256) (memo : Blob zcMemoSize) : NotePlaintext Uint256 :=
  ⟨note.value, note.rho, note.r, memo⟩

/-- `NotePlaintext::note`. -/
def plaintextNote (pt : NotePlaintext Uint256) (aPk : Uint256) : Note Uint256 :=
  ⟨aPk, pt.value, pt.rho, pt.r⟩

/-! What was written is read, and only that. -/

private theorem littleEndian_numberBytes (size n : Nat) :
    littleEndian (numberBytes size n) = n % 256 ^ size := by
  induction size generalizing n with
  | zero => exact (Nat.mod_one n).symm
  | succ size ih =>
    have low : (UInt8.ofNat (n % 256)).toNat = n % 256 :=
      UInt8.toNat_ofNat_of_lt' (Nat.mod_lt n (by decide))
    have cons : ∀ (b : UInt8) (bytes : List UInt8),
        littleEndian (b :: bytes) = b.toNat + 256 * littleEndian bytes := fun _ _ => rfl
    rw [numberBytes, cons, ih, low, Nat.pow_succ', Nat.mod_mul]

private theorem numberBytes_littleEndian {size : Nat} {bytes : List UInt8}
    (length : bytes.length = size) :
    numberBytes size (littleEndian bytes) = bytes := by
  induction size generalizing bytes with
  | zero => rw [List.length_eq_zero_iff.mp length, numberBytes]
  | succ size ih =>
    obtain ⟨b, rest, rfl⟩ := List.exists_cons_of_length_eq_add_one length
    have cons : littleEndian (b :: rest) = b.toNat + 256 * littleEndian rest := rfl
    have bound := b.toNat_lt
    have low : (b.toNat + 256 * littleEndian rest) % 256 = b.toNat := by omega
    have high : (b.toNat + 256 * littleEndian rest) / 256 = littleEndian rest := by omega
    rw [numberBytes, cons, low, high, UInt8.ofNat_toNat, ih (Nat.succ.inj length)]

private theorem readBlob_eq_ok {n : Nat} {stream rest : List UInt8} {blob : Blob n} :
    readBlob n stream = .ok (blob, rest) ↔ stream = blob.data ++ rest := by
  unfold readBlob
  constructor
  · intro read
    split at read
    · cases read
      exact (List.take_append_drop n stream).symm
    · cases read
  · rintro rfl
    rw [dif_pos (by rw [List.length_append, blob.length_eq]; omega)]
    congr
    · exact List.take_left' blob.length_eq
    · exact List.drop_left' blob.length_eq

private theorem bind_eq_ok {α β : Type} {x : Except String α} {f : α → Except String β} {b : β} :
    x >>= f = .ok b ↔ ∃ a, x = .ok a ∧ f a = .ok b := by
  cases x with
  | error what => simp [bind, Except.bind]
  | ok a => simp [bind, Except.bind]

private theorem readPlaintext_eq_ok {stream rest : List UInt8} {pt : NotePlaintext Uint256} :
    readPlaintext stream = .ok (pt, rest) ↔ stream = plaintextBytes pt ++ rest := by
  simp only [readPlaintext, bind_eq_ok, Prod.exists, readBlob_eq_ok]
  constructor
  · rintro ⟨leading, stream, rfl, read⟩
    split at read
    · cases read
    · rename_i zero
      simp only [bind_eq_ok, Prod.exists, readBlob_eq_ok] at read
      obtain ⟨value, stream, rfl, rho, stream, rfl, r, stream, rfl, memo, stream, rfl, result⟩ := read
      cases result
      have bound : littleEndian value.data < 2 ^ 64 := by
        have again := littleEndian_numberBytes 8 (littleEndian value.data)
        rw [numberBytes_littleEndian value.length_eq] at again
        rw [again]
        exact Nat.mod_lt _ (by decide)
      have lead : leading.data = [0x00] := by
        obtain ⟨data, length⟩ := leading
        obtain ⟨b, rfl⟩ := List.length_eq_one_iff.mp length
        rw [not_not] at zero
        exact congrArg (fun b => [b]) zero
      rw [plaintextBytes, UInt64.toNat_ofNat_of_lt' bound, numberBytes_littleEndian value.length_eq,
        lead]
      simp only [List.append_assoc, List.cons_append, List.nil_append]
  · rintro rfl
    refine ⟨⟨[0x00], rfl⟩, numberBytes 8 pt.value.toNat ++ pt.rho.data ++ pt.r.data ++ pt.memo.data ++
      rest, rfl, ?_⟩
    rw [if_neg (by decide)]
    simp only [bind_eq_ok, Prod.exists, readBlob_eq_ok]
    refine ⟨⟨numberBytes 8 pt.value.toNat, length_numberBytes 8 _⟩, pt.rho.data ++ pt.r.data ++
      pt.memo.data ++ rest, by simp only [List.append_assoc], pt.rho, pt.r.data ++ pt.memo.data ++ rest,
      by simp only [List.append_assoc], pt.r, pt.memo.data ++ rest, by rw [List.append_assoc], pt.memo,
      rest, rfl, ?_⟩
    have range : pt.value.toNat < 256 ^ 8 := pt.value.toNat_lt
    rw [littleEndian_numberBytes, Nat.mod_eq_of_lt range, UInt64.ofNat_toNat]
    rfl

/-! Runs of one encryptor. -/

/-- The results of one encryption after another, and the encryptor that is left. -/
def encryptAll (e : NoteEncryption) :
    List (Uint256 × Blob MLEN) → List (Except String (Blob (MLEN + 16))) × NoteEncryption
  | [] => ([], e)
  | (pkEnc, message) :: rest =>
    let first := e.encrypt lib pkEnc message
    let others := encryptAll first.2 rest
    (first.1 :: others.1, others.2)

def keyInputs (e : NoteEncryption) : List (Uint256 × Blob MLEN) → List (List UInt8 × List UInt8)
  | [] => []
  | (pkEnc, message) :: rest =>
    match lib.scalarmult e.esk pkEnc, e.encrypt lib pkEnc message with
    | some dhsecret, (.ok _, left) =>
      (kdfPersonalization e.nonce, kdfBlock dhsecret e.epk pkEnc e.hSig) :: keyInputs left rest
    | _, (_, left) => keyInputs left rest

private theorem generatePubkey_eq_ok {sk pk : Uint256} :
    generatePubkey lib sk = .ok pk ↔ lib.scalarmultBase sk = some pk := by
  unfold generatePubkey
  cases lib.scalarmultBase sk <;> simp

private theorem kdf_eq_ok (dhsecret epk pkEnc hSig : Uint256) {nonce : UInt8}
    (room : nonce ≠ 0xff) :
    ∃ K, kdf lib dhsecret epk pkEnc hSig nonce = .ok K := by
  have size : (kdfPersonalization nonce).length = 16 := rfl
  obtain ⟨K, hashed⟩ := Option.isSome_iff_exists.mp
    (lib.blake2b_isSome _ (kdfBlock dhsecret epk pkEnc hSig) size)
  exact ⟨K, by rw [kdf, if_neg room, hashed]⟩

/-- All that an encryption can do: nothing, or to use the key of its nonce and to move on to
the next one. -/
private theorem encrypt_cases (e : NoteEncryption) (pkEnc : Uint256) (message : Blob MLEN) :
    (∃ what, e.encrypt lib pkEnc message = (.error what, e)) ∨
      (e.nonce ≠ 0xff ∧ ∃ dhsecret K, lib.scalarmult e.esk pkEnc = some dhsecret ∧
        kdf lib dhsecret e.epk pkEnc e.hSig e.nonce = .ok K ∧
        e.encrypt lib pkEnc message = (.ok (lib.encrypt K message), { e with nonce := e.nonce + 1 })) := by
  unfold NoteEncryption.encrypt
  cases shared : lib.scalarmult e.esk pkEnc with
  | none => exact .inl ⟨_, rfl⟩
  | some dhsecret =>
    by_cases room : e.nonce = 0xff
    · exact .inl ⟨"no additional nonce space for KDF", by simp [kdf, room]⟩
    · obtain ⟨K, derived⟩ := kdf_eq_ok lib dhsecret e.epk pkEnc e.hSig room
      refine .inr ⟨room, dhsecret, K, rfl, derived, ?_⟩
      simp only [derived]

private theorem encrypt_eq_ok {e left : NoteEncryption} {pkEnc : Uint256} {message : Blob MLEN} :
    (∃ c, e.encrypt lib pkEnc message = (.ok c, left)) ↔ left = { e with nonce := e.nonce + 1 } ∧
      e.nonce ≠ 0xff ∧ (lib.scalarmult e.esk pkEnc).isSome = true := by
  constructor
  · rintro ⟨c, made⟩
    rcases encrypt_cases lib e pkEnc message with ⟨what, failed⟩ | ⟨room, dh, K, shared, -, done⟩
    · rw [failed] at made
      cases made
    · rw [done] at made
      cases made
      exact ⟨rfl, room, Option.isSome_iff_exists.mpr ⟨dh, shared⟩⟩
  · rintro ⟨rfl, room, some⟩
    obtain ⟨dh, shared⟩ := Option.isSome_iff_exists.mp some
    obtain ⟨K, derived⟩ := kdf_eq_ok lib dh e.epk pkEnc e.hSig room
    exact ⟨lib.encrypt K message, by simp only [NoteEncryption.encrypt, shared, derived]⟩

private theorem nonce_lt {nonce : UInt8} (room : nonce ≠ 0xff) : nonce < nonce + 1 := by
  have bound := nonce.toNat_lt
  have below : nonce.toNat ≠ 255 := fun same => room (UInt8.toNat_inj.mp same)
  rw [UInt8.lt_iff_toNat_lt, UInt8.toNat_add]
  change nonce.toNat < (nonce.toNat + 1) % 2 ^ 8
  omega

private theorem nonce_free {nonce : UInt8} {n : Nat} (count : nonce = UInt8.ofNat n)
    (room : n < 255) : nonce ≠ 0xff := by
  have value : (UInt8.ofNat n).toNat = n := UInt8.toNat_ofNat_of_lt' (by change n < 256; omega)
  intro full
  rw [count, ← UInt8.toNat_inj, value] at full
  change n = 255 at full
  omega

private theorem nonce_next {nonce : UInt8} {n : Nat} (count : nonce = UInt8.ofNat n) :
    nonce + 1 = UInt8.ofNat (n + 1) := by
  rw [UInt8.ofNat_add, count]
  rfl

private theorem nonce_le_of_mem_keyInputs (requests : List (Uint256 × Blob MLEN))
    (e : NoteEncryption)
    {input : List UInt8 × List UInt8} (listed : input ∈ keyInputs lib e requests) :
    ∃ nonce, e.nonce ≤ nonce ∧ input.1 = kdfPersonalization nonce := by
  -- later keys come from later nonces
  induction requests generalizing e with
  | nil => cases listed
  | cons request requests ih =>
    obtain ⟨pkEnc, message⟩ := request
    rcases encrypt_cases lib e pkEnc message with ⟨what, failed⟩ | ⟨room, dh, K, shared, -, made⟩
    · have skipped : keyInputs lib e ((pkEnc, message) :: requests) = keyInputs lib e requests := by
        rw [keyInputs, failed]
        cases lib.scalarmult e.esk pkEnc <;> rfl
      rw [skipped] at listed
      exact ih e listed
    · rw [keyInputs, shared, made] at listed
      rcases List.mem_cons.mp listed with rfl | later
      · exact ⟨e.nonce, UInt8.le_refl _, rfl⟩
      · obtain ⟨nonce, above, same⟩ := ih _ later
        exact ⟨nonce, UInt8.le_trans (UInt8.le_of_lt (nonce_lt room)) above, same⟩

/-- No cipher key is derived twice from the same input, however often the encryptor is used
and whatever it is given: the cipher's own nonce may stay zero. -/
theorem keyInputs_nodup (requests : List (Uint256 × Blob MLEN)) (e : NoteEncryption) :
    (keyInputs lib e requests).Nodup := by
  induction requests generalizing e with
  | nil => exact List.nodup_nil
  | cons request requests ih =>
    obtain ⟨pkEnc, message⟩ := request
    rcases encrypt_cases lib e pkEnc message with ⟨what, failed⟩ | ⟨room, dh, K, shared, -, made⟩
    · have skipped : keyInputs lib e ((pkEnc, message) :: requests) = keyInputs lib e requests := by
        rw [keyInputs, failed]
        cases lib.scalarmult e.esk pkEnc <;> rfl
      rw [skipped]
      exact ih e
    · rw [keyInputs, shared, made]
      refine List.nodup_cons.mpr ⟨fun later => ?_, ih _⟩
      obtain ⟨nonce, above, same⟩ := nonce_le_of_mem_keyInputs lib requests _ later
      obtain rfl : e.nonce = nonce := by simpa [kdfPersonalization] using same
      exact absurd (nonce_lt room) (UInt8.not_lt.mpr above)

/-! Recipients. -/

def NoteDecryption.Honest (d : NoteDecryption) : Prop := lib.scalarmultBase d.skEnc = some d.pkEnc

def NoteEncryption.Honest (e : NoteEncryption) : Prop := lib.scalarmultBase e.esk = some e.epk

private theorem honest_of_new {skEnc : Uint256} {d : NoteDecryption}
    (made : NoteDecryption.new lib skEnc = .ok d) : d.Honest lib ∧ d.skEnc = skEnc := by
  unfold NoteDecryption.new at made
  cases generated : generatePubkey lib skEnc with
  | error what =>
    rw [generated] at made
    cases made
  | ok pk =>
    rw [generated] at made
    cases made
    exact ⟨(generatePubkey_eq_ok lib).mp generated, rfl⟩

private theorem encryption_of_new {hSig esk : Uint256} {e : NoteEncryption}
    (made : NoteEncryption.new lib hSig esk = .ok e) :
    e.Honest lib ∧ e.esk = esk ∧ e.hSig = hSig ∧ e.nonce = 0 := by
  unfold NoteEncryption.new at made
  cases generated : generatePubkey lib esk with
  | error what =>
    rw [generated] at made
    cases made
  | ok pk =>
    rw [generated] at made
    cases made
    exact ⟨(generatePubkey_eq_ok lib).mp generated, rfl, rfl, rfl⟩

private theorem encrypt_honest {e : NoteEncryption} {d : NoteDecryption} (sender : e.Honest lib)
    (recipient : d.Honest lib) (room : e.nonce ≠ 0xff) (message : Blob MLEN) :
    ∃ c, e.encrypt lib d.pkEnc message = (.ok c, { e with nonce := e.nonce + 1 }) ∧
      d.decrypt lib c e.epk e.hSig e.nonce = .ok message := by
  -- while there are nonces left, an honest recipient decrypts what was encrypted
  obtain ⟨dhsecret, shared⟩ := Option.isSome_iff_exists.mp (lib.scalarmult_base recipient e.esk)
  obtain ⟨K, derived⟩ := kdf_eq_ok lib dhsecret e.epk d.pkEnc e.hSig room
  have agreed : lib.scalarmult d.skEnc e.epk = some dhsecret := by
    rw [← lib.scalarmult_comm sender recipient, shared]
  refine ⟨lib.encrypt K message, ?_, ?_⟩
  · simp only [NoteEncryption.encrypt, shared, derived]
  · simp only [NoteDecryption.decrypt, agreed, decryptWith, derived]
    change (match lib.decrypt K (lib.encrypt K message) with
      | none => Except.error "Could not decrypt message"
      | some message => .ok message) = _
    rw [lib.decrypt_encrypt]

private theorem encrypt_exhausted {e : NoteEncryption} {d : NoteDecryption}
    (recipient : d.Honest lib)
    (full : e.nonce = 0xff) (message : Blob MLEN) :
    e.encrypt lib d.pkEnc message = (.error "no additional nonce space for KDF", e) := by
  obtain ⟨dhsecret, shared⟩ := Option.isSome_iff_exists.mp (lib.scalarmult_base recipient e.esk)
  simp only [NoteEncryption.encrypt, shared, kdf, full, if_true]

/-- What becomes of the `i`-th of a run of encryptions to honest recipients. -/
def Received (d : NoteDecryption) (message : Blob MLEN) (epk hSig : Uint256) (i : Nat)
    (result : Except String (Blob (MLEN + 16))) : Prop :=
  if i < 255 then ∃ c, result = .ok c ∧ d.decrypt lib c epk hSig (UInt8.ofNat i) = .ok message
  else result = .error "no additional nonce space for KDF"

private theorem received_encryptAll {requests : List (NoteDecryption × Blob MLEN)}
    (honest : ∀ q ∈ requests, q.1.Honest lib) {e : NoteEncryption} (sender : e.Honest lib) {n : Nat}
    (count : e.nonce = UInt8.ofNat (min n 255)) {i : Nat} {q : NoteDecryption × Blob MLEN}
    (asked : requests[i]? = some q) :
    ∃ result, (encryptAll lib e (requests.map fun q => (q.1.pkEnc, q.2))).1[i]? = some result ∧
      Received lib q.1 q.2 e.epk e.hSig (n + i) result := by
  induction requests generalizing e n i with
  | nil => cases asked
  | cons request requests ih =>
    obtain ⟨recipient, others⟩ := List.forall_mem_cons.mp honest
    by_cases room : n < 255
    · rw [Nat.min_eq_left (by omega)] at count
      obtain ⟨c, made, read⟩ := encrypt_honest lib sender recipient (nonce_free count room) request.2
      cases i with
      | zero =>
        cases asked
        refine ⟨.ok c, ?_, ?_⟩
        · rw [List.map_cons, encryptAll, made]
          rfl
        · rw [Received, Nat.add_zero, if_pos room]
          exact ⟨c, rfl, count ▸ read⟩
      | succ i =>
        have next : ({ e with nonce := e.nonce + 1 } : NoteEncryption).nonce =
            UInt8.ofNat (min (n + 1) 255) := by
          rw [Nat.min_eq_left (by omega)]
          exact nonce_next count
        obtain ⟨result, found, received⟩ := ih others
          (e := ⟨e.epk, e.esk, e.nonce + 1, e.hSig⟩) sender next asked
        refine ⟨result, ?_, ?_⟩
        · rw [List.map_cons, encryptAll, made]
          exact found
        · rw [Nat.add_right_comm] at received
          exact received
    · rw [Nat.min_eq_right (by omega)] at count
      have refused := encrypt_exhausted lib recipient count request.2
      cases i with
      | zero =>
        cases asked
        refine ⟨.error "no additional nonce space for KDF", ?_, ?_⟩
        · rw [List.map_cons, encryptAll, refused]
          rfl
        · rw [Received, Nat.add_zero, if_neg room]
      | succ i =>
        have still : e.nonce = UInt8.ofNat (min (n + 1) 255) := by
          rw [Nat.min_eq_right (by omega), count]
        obtain ⟨result, found, received⟩ := ih others sender still asked
        refine ⟨result, ?_, ?_⟩
        · rw [List.map_cons, encryptAll, refused]
          exact found
        · rw [Nat.add_right_comm] at received
          exact received

/-- A new encryptor serves 255 messages, each of which its recipient decrypts under its place
in the run, and refuses all later ones. -/
theorem decrypt_encryptAll {hSig esk : Uint256} {e : NoteEncryption}
    (made : NoteEncryption.new lib hSig esk = .ok e) {requests : List (NoteDecryption × Blob MLEN)}
    (honest : ∀ q ∈ requests, NoteDecryption.new lib q.1.skEnc = .ok q.1) {i : Nat}
    {q : NoteDecryption × Blob MLEN} (asked : requests[i]? = some q) :
    ∃ result, (encryptAll lib e (requests.map fun q => (q.1.pkEnc, q.2))).1[i]? = some result ∧
      Received lib q.1 q.2 e.epk hSig i result := by
  obtain ⟨sender, -, rfl, fresh⟩ := encryption_of_new lib made
  have found := received_encryptAll lib (fun q listed => (honest_of_new lib (honest q listed)).1)
    sender (n := 0) fresh asked
  rwa [Nat.zero_add] at found

def mask (key : Uint256) (bytes : List UInt8) : List UInt8 :=
  bytes.mapIdx fun i b => b ^^^ key.data.getD (i % 32) 0

private theorem length_mask (key : Uint256) (bytes : List UInt8) :
    (mask key bytes).length = bytes.length := List.length_mapIdx

private theorem mask_mask (key : Uint256) (bytes : List UInt8) :
    mask key (mask key bytes) = bytes := by
  unfold mask
  apply List.ext_getElem
  · rw [List.length_mapIdx, List.length_mapIdx]
  · intro i _ _
    rw [List.getElem_mapIdx, List.getElem_mapIdx, UInt8.xor_assoc, UInt8.xor_self, UInt8.xor_zero]

private theorem length_zipWith_data (a b : Uint256) :
    (List.zipWith (· ^^^ ·) a.data b.data).length = 32 := by
  rw [List.length_zipWith, a.length_eq, b.length_eq, Nat.min_self]

private theorem length_masked {n : Nat} (key : Uint256) (message : Blob n) :
    (mask key message.data ++ key.data.take 16).length = n + 16 := by
  rw [List.length_append, length_mask, message.length_eq, List.length_take, key.length_eq]
  rfl

private theorem length_unmasked {n : Nat} (key : Uint256) (ciphertext : Blob (n + 16)) :
    (mask key (ciphertext.data.take n)).length = n := by
  rw [length_mask, List.length_take, ciphertext.length_eq, Nat.min_eq_left (Nat.le_add_right n 16)]

/-- A library that refuses the point of zeros and masks a message with its key, of which it
appends the first bytes. -/
def maskingSodium : Sodium where
  scalarmult a b :=
    if b = .null then none
    else some ⟨List.zipWith (· ^^^ ·) a.data b.data, length_zipWith_data a b⟩
  scalarmultBase sk := if sk = .null then none else some sk
  blake2b personal block := some ⟨List.ofFn fun i : Fin 32 =>
    personal.getD 8 0 + block.getD i 0 + block.getD (i + 32) 0 + block.getD (i + 64) 0 +
      block.getD (i + 96) 0, List.length_ofFn⟩
  encrypt key message := ⟨mask key message.data ++ key.data.take 16, length_masked key message⟩
  decrypt {n} key ciphertext :=
    if ciphertext.data.drop n = key.data.take 16 then
      some ⟨mask key (ciphertext.data.take n), length_unmasked key ciphertext⟩
    else none
  scalarmult_base := by
    intro sk pk made other
    split at made
    · cases made
    · rename_i nonzero
      cases made
      rw [if_neg nonzero]
      rfl
  scalarmult_comm := by
    intro a b pa pb first second
    split at first
    · cases first
    · split at second
      · cases second
      · rename_i nonzero nonzero'
        cases first
        cases second
        rw [if_neg nonzero, if_neg nonzero']
        congr 2
        exact List.zipWith_comm_of_comm UInt8.xor_comm
  blake2b_isSome _ _ _ := rfl
  decrypt_encrypt := by
    intro n key message
    have size : (mask key message.data).length = n := by rw [length_mask, message.length_eq]
    simp only [List.drop_left' size, List.take_left' size, if_true, mask_mask]

def repeatedDecryption (b : UInt8) : NoteDecryption :=
  ⟨uniform b, uniform b⟩

def sampleRequests : List (NoteDecryption × Blob 3) :=
  [(repeatedDecryption 5, ⟨[1, 2, 3], rfl⟩), (repeatedDecryption 6, ⟨[4, 5, 6], rfl⟩),
    (repeatedDecryption 5, ⟨[7, 8, 9], rfl⟩)]

def repeatedEncryption (b : UInt8) : NoteEncryption :=
  ⟨(repeatedDecryption b).pkEnc, (repeatedDecryption b).skEnc, 0, .null⟩

private theorem scalarmultBase_masking {sk : Uint256} (nonzero : sk ≠ .null) :
    maskingSodium.scalarmultBase sk = some sk := if_neg nonzero

private theorem new_repeatedDecryption {b : UInt8}
    (nonzero : (repeatedDecryption b).skEnc ≠ .null) :
    NoteDecryption.new maskingSodium (repeatedDecryption b).skEnc = .ok (repeatedDecryption b) := by
  rw [NoteDecryption.new, (generatePubkey_eq_ok maskingSodium).mpr (scalarmultBase_masking nonzero)]
  rfl

private theorem new_repeatedEncryption {b : UInt8}
    (nonzero : (repeatedDecryption b).skEnc ≠ .null) :
    NoteEncryption.new maskingSodium .null (repeatedDecryption b).skEnc =
      .ok (repeatedEncryption b) := by
  rw [NoteEncryption.new, (generatePubkey_eq_ok maskingSodium).mpr (scalarmultBase_masking nonzero)]
  rfl

theorem decrypt_encryptAll_third :
    ∃ result, (encryptAll maskingSodium (repeatedEncryption 7)
        (sampleRequests.map fun q => (q.1.pkEnc, q.2))).1[2]? = some result ∧
      Received maskingSodium (repeatedDecryption 5) ⟨[7, 8, 9], rfl⟩ (repeatedEncryption 7).epk .null
        2 result := by
  have honest : ∀ q ∈ sampleRequests,
      NoteDecryption.new maskingSodium q.1.skEnc = .ok q.1 := by
    intro q listed
    simp only [sampleRequests, List.mem_cons, List.not_mem_nil, or_false] at listed
    rcases listed with rfl | rfl | rfl
    · exact new_repeatedDecryption (by decide)
    · exact new_repeatedDecryption (by decide)
    · exact new_repeatedDecryption (by decide)
  have asked : sampleRequests[2]? = some (repeatedDecryption 5, ⟨[7, 8, 9], rfl⟩) := rfl
  have made := new_repeatedEncryption (b := 7) (by decide)
  have received := decrypt_encryptAll maskingSodium made honest asked
  exact received

/-! Notes from sender to recipient. -/

/-- Decryption succeeds exactly on the encryption of a plaintext's own bytes, so the assertion
that nothing is left never fails. -/
private theorem decryptPlaintext_eq_ok {d : NoteDecryption} {c : Blob (zcNotePlaintextSize + 16)}
    {epk hSig : Uint256} {nonce : UInt8} {result : Option (NotePlaintext Uint256)} :
    decryptPlaintext lib d c epk hSig nonce = .ok result ↔ ∃ pt, result = some pt ∧
      d.decrypt lib c epk hSig nonce = .ok (plaintextBlob pt) := by
  unfold decryptPlaintext
  simp only [bind_eq_ok, Prod.exists, readPlaintext_eq_ok]
  constructor
  · rintro ⟨plaintext, decrypted, pt, rest, bytes, made⟩
    have nothing : rest = [] := by
      have size := congrArg List.length bytes
      rw [List.length_append, length_plaintextBytes, plaintext.length_eq] at size
      exact List.length_eq_zero_iff.mp (by omega)
    rw [nothing, List.append_nil] at bytes
    rw [nothing, if_pos rfl] at made
    refine ⟨pt, (Except.ok.inj made).symm, ?_⟩
    rw [decrypted]
    exact congrArg Except.ok (Blob.ext bytes)
  · rintro ⟨pt, rfl, decrypted⟩
    exact ⟨plaintextBlob pt, decrypted, pt, [], (List.append_nil _).symm, rfl⟩

/-- `SpendingKey::address`. -/
def address (aSk : Uint252) : Except String (PaymentAddress Uint256) := do
  let aPk ← prfAddrAPk aSk
  let skEnc ← generatePrivkey aSk
  let pkEnc ← generatePubkey lib skEnc
  return ⟨aPk, pkEnc⟩

/-- What a wallet does with its key, as `add_user_note` calls it. The index of a note is
narrowed to an `unsigned char`. -/
def walletKeys (aSk : Uint252) : WalletKeys Uint256 where
  decrypt text ephemeralKey hSig ith :=
    match generatePrivkey aSk >>= NoteDecryption.new lib with
    | .error _ => none
    | .ok d =>
      match decryptPlaintext lib d text ephemeralKey hSig (UInt8.ofInt ith) with
      | .error _ => none
      | .ok result => result
  nullifier := nullifierOf aSk

/-- The loop of `prove` that encrypts the output notes: an exception ends it. -/
def encryptOutputs (e : NoteEncryption) :
    List (Note Uint256 × Blob zcMemoSize × Uint256) → Except String (List (Blob zcCLen))
  | [] => .ok []
  | (note, memo, pkEnc) :: rest => do
    let c ← (encryptPlaintext lib e (plaintextOf note memo) pkEnc).1
    let cs ← encryptOutputs (encryptPlaintext lib e (plaintextOf note memo) pkEnc).2 rest
    return c :: cs

/-! What the sender can disclose. -/

/-- What was encrypted is found again with the ephemeral secret, whoever has the key that it
was encrypted to. -/
private theorem decryptWithEsk_encrypt {e left : NoteEncryption} (sender : e.Honest lib)
    {pkEnc : Uint256}
    {message : Blob MLEN} {c : Blob (MLEN + 16)}
    (made : e.encrypt lib pkEnc message = (.ok c, left)) :
    left = { e with nonce := e.nonce + 1 } ∧ e.nonce ≠ 0xff ∧
      decryptWithEsk lib c pkEnc e.esk e.hSig e.nonce = .ok message := by
  rcases encrypt_cases lib e pkEnc message with ⟨what, failed⟩ | ⟨room, dh, K, shared, derived, done⟩
  · rw [failed] at made
    cases made
  · rw [done] at made
    cases made
    refine ⟨rfl, room, ?_⟩
    have epk : generatePubkey lib e.esk = .ok e.epk := (generatePubkey_eq_ok lib).mpr sender
    simp only [decryptWithEsk, shared, epk, bind, Except.bind, decryptWith, derived]
    rw [lib.decrypt_encrypt]

private theorem encryptOutputs_cons {e : NoteEncryption} {note : Note Uint256}
    {memo : Blob zcMemoSize}
    {pkEnc : Uint256} {rest : List (Note Uint256 × Blob zcMemoSize × Uint256)}
    {cs : List (Blob zcCLen)} (encrypted : encryptOutputs lib e ((note, memo, pkEnc) :: rest) = .ok cs) :
    ∃ c left others, e.encrypt lib pkEnc (plaintextBlob (plaintextOf note memo)) = (.ok c, left) ∧
      encryptOutputs lib left rest = .ok others ∧ cs = c :: others := by
  simp only [encryptOutputs, encryptPlaintext, bind_eq_ok] at encrypted
  obtain ⟨c, first, others, remaining, result⟩ := encrypted
  exact ⟨c, _, others, Prod.ext first rfl, remaining, (Except.ok.inj result).symm⟩

private theorem disclosed_encryptOutputs {outputs : List (Note Uint256 × Blob zcMemoSize × Uint256)}
    {e : NoteEncryption} (sender : e.Honest lib) {n : Nat} (count : e.nonce = UInt8.ofNat n)
    {cs : List (Blob zcCLen)} (encrypted : encryptOutputs lib e outputs = .ok cs) :
    cs.length = outputs.length ∧ ∀ i note memo pkEnc, outputs[i]? = some (note, memo, pkEnc) →
      ∃ c, cs[i]? = some c ∧ decryptWithEsk lib c pkEnc e.esk e.hSig (UInt8.ofNat (n + i)) =
        .ok (plaintextBlob (plaintextOf note memo)) := by
  induction outputs generalizing e n cs with
  | nil =>
    cases encrypted
    refine ⟨rfl, fun i note memo pkEnc asked => ?_⟩
    cases asked
  | cons output outputs ih =>
    obtain ⟨c, left, others, made, remaining, rfl⟩ := encryptOutputs_cons lib encrypted
    obtain ⟨rfl, -, opened⟩ := decryptWithEsk_encrypt lib sender made
    obtain ⟨size, disclosed⟩ := ih (e := ⟨e.epk, e.esk, e.nonce + 1, e.hSig⟩) sender
      (nonce_next count) remaining
    refine ⟨congrArg Nat.succ size, fun i note memo pkEnc asked => ?_⟩
    cases i with
    | zero =>
      cases asked
      exact ⟨c, rfl, count ▸ opened⟩
    | succ i =>
      obtain ⟨d, found, read⟩ := disclosed i note memo pkEnc asked
      rw [Nat.add_right_comm] at read
      exact ⟨d, found, read⟩

/-- A run that starts after `n` encryptions returns if there are nonces for its outputs and
each key is one that a secret can be shared with. -/
private theorem encryptOutputs_returns_iff
    {outputs : List (Note Uint256 × Blob zcMemoSize × Uint256)}
    {e : NoteEncryption} {n : Nat} (count : e.nonce = UInt8.ofNat n) (within : n ≤ 255) :
    (∃ cs, encryptOutputs lib e outputs = .ok cs) ↔ n + outputs.length ≤ 255 ∧
      ∀ o ∈ outputs, (lib.scalarmult e.esk o.2.2).isSome = true := by
  induction outputs generalizing e n with
  | nil => exact iff_of_true ⟨[], rfl⟩ ⟨within, List.forall_mem_nil _⟩
  | cons output outputs ih =>
    obtain ⟨note, memo, pkEnc⟩ := output
    have step : (∃ cs, encryptOutputs lib e ((note, memo, pkEnc) :: outputs) = .ok cs) ↔
        ∃ c left, e.encrypt lib pkEnc (plaintextBlob (plaintextOf note memo)) = (.ok c, left) ∧
          ∃ cs, encryptOutputs lib left outputs = .ok cs := by
      constructor
      · rintro ⟨cs, encrypted⟩
        obtain ⟨c, left, others, made, remaining, -⟩ := encryptOutputs_cons lib encrypted
        exact ⟨c, left, made, others, remaining⟩
      · rintro ⟨c, left, made, others, remaining⟩
        refine ⟨c :: others, ?_⟩
        rw [encryptOutputs, encryptPlaintext, made]
        exact bind_eq_ok.mpr ⟨c, rfl, bind_eq_ok.mpr ⟨others, remaining, rfl⟩⟩
    rw [step, List.length_cons, List.forall_mem_cons]
    constructor
    · rintro ⟨c, left, made, rest⟩
      obtain ⟨rfl, room, shared⟩ := (encrypt_eq_ok lib).mp ⟨c, made⟩
      have below : n < 255 := by
        rcases Nat.lt_or_ge n 255 with less | most
        · exact less
        · exact absurd (count.trans (congrArg UInt8.ofNat (Nat.le_antisymm within most))) room
      obtain ⟨few, others⟩ := (ih (nonce_next count) below).mp rest
      exact ⟨by omega, shared, others⟩
    · rintro ⟨few, shared, others⟩
      obtain ⟨c, made⟩ := (encrypt_eq_ok lib).mpr ⟨rfl, nonce_free count (by omega), shared⟩
      exact ⟨c, _, made, (ih (nonce_next count) (by omega)).mpr ⟨by omega, others⟩⟩

/-- On the keys of its outputs the loop of `prove` ends as the model of its checks says, with
a library that accepts what a secret can be shared with. -/
theorem encryptNotes_eq {outputs : List (Note Uint256 × Blob zcMemoSize × Uint256)}
    {e : NoteEncryption} {n : Nat} (count : e.nonce = UInt8.ofNat n) (few : n + outputs.length ≤ 255)
    {prims : Primitives Uint256}
    (accepts : ∀ pkEnc, prims.accepted pkEnc = (lib.scalarmult e.esk pkEnc).isSome)
    {addressed : List (JSOutput Uint256)}
    (same : addressed.map (·.addr.pkEnc) = outputs.map (·.2.2)) :
    encryptNotes prims addressed = (encryptOutputs lib e outputs).map fun _ => () := by
  induction outputs generalizing e n addressed with
  | nil =>
    rw [List.map_nil, List.map_eq_nil_iff] at same
    rw [same]
    rfl
  | cons output outputs ih =>
    obtain ⟨note, memo, pkEnc⟩ := output
    obtain ⟨first, rest, rfl, key, others⟩ := List.map_eq_cons_iff.mp same
    rw [List.length_cons] at few
    rw [encryptNotes, key, accepts, encryptOutputs, encryptPlaintext]
    cases shared : lib.scalarmult e.esk pkEnc with
    | none =>
      rw [NoteEncryption.encrypt, shared]
      rfl
    | some dhsecret =>
      have accepted : (lib.scalarmult e.esk pkEnc).isSome = true :=
        Option.isSome_iff_exists.mpr ⟨dhsecret, shared⟩
      obtain ⟨c, made⟩ : ∃ c, e.encrypt lib pkEnc (plaintextBlob (plaintextOf note memo)) =
          (.ok c, { e with nonce := e.nonce + 1 }) :=
        (encrypt_eq_ok lib).mpr ⟨rfl, nonce_free count (by omega), accepted⟩
      have remaining := ih (e := ⟨e.epk, e.esk, e.nonce + 1, e.hSig⟩) (nonce_next count) (by omega)
        accepts others
      rw [made, Option.isSome_some, if_pos rfl, remaining]
      show _ = Except.map _ (encryptOutputs lib _ outputs >>= fun cs => pure (c :: cs))
      cases encryptOutputs lib ⟨e.epk, e.esk, e.nonce + 1, e.hSig⟩ outputs <;> rfl

/-- The sender can disclose what `prove` encrypted: the ciphertexts are made exactly if there
are nonces for them and every key is accepted, and then the ephemeral secret opens each one
under its index to the note and the memo that were sent, whoever holds the key. -/
theorem outputs_disclosed {hSig esk : Uint256} {e : NoteEncryption}
    (made : NoteEncryption.new lib hSig esk = .ok e)
    (outputs : List (Note Uint256 × Blob zcMemoSize × Uint256)) :
    ((∃ cs, encryptOutputs lib e outputs = .ok cs) ↔ outputs.length ≤ 255 ∧
        ∀ o ∈ outputs, (lib.scalarmult esk o.2.2).isSome = true) ∧
      ∀ cs, encryptOutputs lib e outputs = .ok cs → cs.length = outputs.length ∧
        ∀ (i : Nat) note memo pkEnc, outputs[i]? = some (note, memo, pkEnc) →
          ∃ c plaintext, cs[i]? = some c ∧
            decryptWithEsk lib c pkEnc esk hSig (UInt8.ofNat i) = .ok plaintext ∧
            readPlaintext plaintext.data = .ok (plaintextOf note memo, []) := by
  obtain ⟨sender, rfl, rfl, fresh⟩ := encryption_of_new lib made
  refine ⟨?_, fun cs encrypted => ?_⟩
  · rw [encryptOutputs_returns_iff lib (n := 0) fresh (Nat.zero_le _), Nat.zero_add]
  · obtain ⟨size, disclosed⟩ := disclosed_encryptOutputs lib sender (n := 0) fresh encrypted
    refine ⟨size, fun i note memo pkEnc asked => ?_⟩
    obtain ⟨c, found, opened⟩ := disclosed i note memo pkEnc asked
    rw [Nat.zero_add] at opened
    exact ⟨c, _, found, opened, readPlaintext_eq_ok.mpr (List.append_nil _).symm⟩

/-- Notes of three and four units to two recipients, with different memos. -/
def sampleSent : List (Note Uint256 × Blob zcMemoSize × Uint256) :=
  [(⟨.null, 3, (repeatedDecryption 1).skEnc, (repeatedDecryption 2).skEnc⟩,
      uniform 8, (repeatedDecryption 5).pkEnc),
    (⟨.null, 4, (repeatedDecryption 3).skEnc, (repeatedDecryption 4).skEnc⟩,
      uniform 9, (repeatedDecryption 6).pkEnc)]

/-- Both are disclosed; a note to the point of zeros ends the loop. -/
theorem outputs_disclosed_two :
    (∃ cs, encryptOutputs maskingSodium (repeatedEncryption 7) sampleSent = .ok cs ∧
      ∀ (i : Nat) note memo pkEnc, sampleSent[i]? = some (note, memo, pkEnc) →
        ∃ c plaintext, cs[i]? = some c ∧
          decryptWithEsk maskingSodium c pkEnc (repeatedDecryption 7).skEnc .null (UInt8.ofNat i) =
            .ok plaintext ∧
          readPlaintext plaintext.data = .ok (plaintextOf note memo, [])) ∧
      ¬ ∃ cs, encryptOutputs maskingSodium (repeatedEncryption 7)
        (sampleSent.map fun o => (o.1, o.2.1, .null)) = .ok cs := by
  have made := new_repeatedEncryption (b := 7) (by decide)
  constructor
  · obtain ⟨returns, disclosed⟩ := outputs_disclosed maskingSodium made sampleSent
    have accepted : ∀ o ∈ sampleSent,
        (maskingSodium.scalarmult (repeatedDecryption 7).skEnc o.2.2).isSome = true := by decide
    obtain ⟨cs, encrypted⟩ := returns.mpr ⟨by decide, accepted⟩
    exact ⟨cs, encrypted, (disclosed cs encrypted).2⟩
  · obtain ⟨returns, -⟩ := outputs_disclosed maskingSodium made
      (sampleSent.map fun o => (o.1, o.2.1, .null))
    intro encrypted
    exact absurd (returns.mp encrypted).2 (by decide)

/-- An output: the note, its memo, and the key of who receives it. -/
structure Output where
  note : Note Uint256
  memo : Blob zcMemoSize
  aSk : Uint252
  addr : PaymentAddress Uint256

def Output.Addressed (o : Output) : Prop := address lib o.aSk = .ok o.addr ∧ o.note.aPk = o.addr.aPk

private theorem exists_decryption {o : Output} (addressed : o.Addressed lib) :
    ∃ d : NoteDecryption, generatePrivkey o.aSk >>= NoteDecryption.new lib = .ok d ∧ d.Honest lib ∧
      d.pkEnc = o.addr.pkEnc := by
  have made := addressed.1
  simp only [address, bind_eq_ok] at made
  obtain ⟨aPk, -, skEnc, secret, pkEnc, generated, result⟩ := made
  rw [← Except.ok.inj result]
  refine ⟨⟨skEnc, pkEnc⟩, bind_eq_ok.mpr ⟨skEnc, secret, ?_⟩, (generatePubkey_eq_ok lib).mp generated,
    rfl⟩
  rw [NoteDecryption.new, generated]
  rfl

private theorem walletKeys_decrypt {o : Output} {d : NoteDecryption}
    (derived : generatePrivkey o.aSk >>= NoteDecryption.new lib = .ok d) {c : Blob zcCLen}
    {epk hSig : Uint256} {n : Nat} {pt : NotePlaintext Uint256}
    (decrypted : d.decrypt lib c epk hSig (UInt8.ofNat n) = .ok (plaintextBlob pt)) :
    (walletKeys lib o.aSk).decrypt c epk hSig n = some pt := by
  have nonce : UInt8.ofInt (n : Int) = UInt8.ofNat n := by
    have reduced : ((n : Int) % 2 ^ 8).toNat = n % UInt8.size := by
      change _ = n % 256
      omega
    rw [UInt8.ofInt, reduced, UInt8.ofNat_mod_size]
  have read := (decryptPlaintext_eq_ok lib).mpr ⟨pt, rfl, decrypted⟩
  simp only [walletKeys, derived, nonce]
  rw [read]

private theorem received_encryptOutputs {outputs : List Output}
    (addressed : ∀ o ∈ outputs, o.Addressed lib)
    {e : NoteEncryption} (sender : e.Honest lib) {n : Nat} (count : e.nonce = UInt8.ofNat n)
    (few : n + outputs.length ≤ 255) :
    ∃ cs, encryptOutputs lib e (outputs.map fun o => (o.note, o.memo, o.addr.pkEnc)) = .ok cs ∧
      ∀ i o, outputs[i]? = some o → ∃ c, cs[i]? = some c ∧
        (walletKeys lib o.aSk).decrypt c e.epk e.hSig (n + i : Nat) =
          some (plaintextOf o.note o.memo) := by
  induction outputs generalizing e n with
  | nil => exact ⟨[], rfl, fun i o asked => by cases asked⟩
  | cons o outputs ih =>
    obtain ⟨first, others⟩ := List.forall_mem_cons.mp addressed
    rw [List.length_cons] at few
    obtain ⟨d, derived, recipient, same⟩ := exists_decryption lib first
    obtain ⟨c, made, decrypted⟩ := encrypt_honest lib sender recipient
      (nonce_free count (by omega)) (plaintextBlob (plaintextOf o.note o.memo))
    rw [same] at made
    obtain ⟨cs, rest, received⟩ := ih others (e := ⟨e.epk, e.esk, e.nonce + 1, e.hSig⟩) sender
      (nonce_next count) (by omega)
    refine ⟨c :: cs, ?_, ?_⟩
    · rw [List.map_cons, encryptOutputs, encryptPlaintext, made]
      exact bind_eq_ok.mpr ⟨c, rfl, bind_eq_ok.mpr ⟨cs, rest, rfl⟩⟩
    · intro i other asked
      cases i with
      | zero =>
        cases asked
        refine ⟨c, rfl, ?_⟩
        rw [count] at decrypted
        exact walletKeys_decrypt lib derived decrypted
      | succ i =>
        obtain ⟨c, found, read⟩ := received i other asked
        rw [Nat.add_right_comm] at read
        exact ⟨c, found, read⟩

/-- The ciphertexts that `prove` makes of its outputs reach their recipients: the wallet that
holds the key of an output finds, under the output's index, the very note and its memo. -/
theorem outputs_received {hSig esk : Uint256} {e : NoteEncryption}
    (made : NoteEncryption.new lib hSig esk = .ok e) {outputs : List Output}
    (addressed : ∀ o ∈ outputs, o.Addressed lib) (few : outputs.length ≤ 255) :
    ∃ cs, encryptOutputs lib e (outputs.map fun o => (o.note, o.memo, o.addr.pkEnc)) = .ok cs ∧
      ∀ (i : Nat) o, outputs[i]? = some o → ∃ c pt, cs[i]? = some c ∧
        (walletKeys lib o.aSk).decrypt c e.epk hSig i = some pt ∧
          plaintextNote pt o.addr.aPk = o.note ∧ pt.memo = o.memo := by
  obtain ⟨sender, -, rfl, fresh⟩ := encryption_of_new lib made
  obtain ⟨cs, encrypted, received⟩ := received_encryptOutputs lib addressed sender (n := 0) fresh
    (by omega)
  refine ⟨cs, encrypted, fun i o asked => ?_⟩
  obtain ⟨c, found, read⟩ := received i o asked
  rw [Nat.zero_add] at read
  refine ⟨c, plaintextOf o.note o.memo, found, read, ?_, rfl⟩
  rw [← (addressed o (List.mem_of_getElem? asked)).2]
  rfl

def skEncOf (aSk : Uint252) : Uint256 :=
  clampCurve25519 (blockHash (prfBlob true true false false aSk.contents (firstByte 1)))

def outputTo (aSk : Uint252) (value : UInt64) (b : UInt8) : Output :=
  ⟨⟨addressOf aSk, value, (repeatedDecryption b).skEnc, .null⟩,
    uniform b, aSk, ⟨addressOf aSk, skEncOf aSk⟩⟩

private theorem clampCurve25519_ne (key : Uint256) : clampCurve25519 key ≠ .null := by
  have size : 31 < (key.data.set 0 (key.data.getD 0 0 &&& 248)).length := by
    rw [List.length_set, key.length_eq]
    decide
  have last : (clampCurve25519 key).data.getD 31 0 = key.data.getD 31 0 &&& 127 ||| 64 := by
    rw [clampCurve25519, List.getD_eq_getElem?_getD, List.getElem?_set_self size]
    rfl
  intro same
  rw [same] at last
  exact absurd (UInt8.or_eq_zero_iff.mp last.symm).2 (by decide)

private theorem outputTo_addressed (aSk : Uint252) (value : UInt64) (b : UInt8) :
    (outputTo aSk value b).Addressed maskingSodium := by
  have secret : generatePrivkey aSk = .ok (skEncOf aSk) := by
    rw [generatePrivkey, prfAddrSkEnc, prfAddr, prf_eq]
    rfl
  have pubkey : generatePubkey maskingSodium (skEncOf aSk) = .ok (skEncOf aSk) :=
    (generatePubkey_eq_ok maskingSodium).mpr (scalarmultBase_masking (clampCurve25519_ne _))
  refine ⟨?_, rfl⟩
  simp only [address, bind_eq_ok]
  exact ⟨_, prfAddrAPk_eq aSk, _, secret, _, pubkey, rfl⟩

def firstKey : Uint252 := ⟨(repeatedDecryption 1).skEnc, rfl⟩

def secondKey : Uint252 := ⟨(repeatedDecryption 2).skEnc, rfl⟩

def sampleOutputs : List Output := [outputTo firstKey 7 3, outputTo secondKey 8 4]

theorem sampleOutputs_received :
    ∃ cs, encryptOutputs maskingSodium (repeatedEncryption 7)
        (sampleOutputs.map fun o => (o.note, o.memo, o.addr.pkEnc)) = .ok cs ∧
      ∀ (i : Nat) o, sampleOutputs[i]? = some o → ∃ c pt, cs[i]? = some c ∧
        (walletKeys maskingSodium o.aSk).decrypt c (repeatedEncryption 7).epk .null i = some pt ∧
          plaintextNote pt o.addr.aPk = o.note ∧ pt.memo = o.memo := by
  have made := new_repeatedEncryption (b := 7) (by decide)
  have addressed : ∀ o ∈ sampleOutputs, o.Addressed maskingSodium := by
    intro o listed
    simp only [sampleOutputs, List.mem_cons, List.not_mem_nil, or_false] at listed
    rcases listed with rfl | rfl
    · exact outputTo_addressed firstKey 7 3
    · exact outputTo_addressed secondKey 8 4
  exact outputs_received maskingSodium made addressed (by decide)

end CbDaemon.Crypto.NoteCipher
