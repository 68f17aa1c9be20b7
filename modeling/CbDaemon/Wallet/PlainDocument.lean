/- module: CbDaemon/Wallet/PlainDocument
   source: src/cblib/note.h, src/cblib/note.cpp
   digest: The two written forms of a user note and what is read back from them. -/

import CbDaemon.Wallet.CipherDocument

set_option autoImplicit false
set_option relaxedAutoImplicit false

namespace CbDaemon.Wallet.PlainDocument
open Base.Machine Notes CipherDocument
open Codec.Integer Codec.Hex Codec.Json Codec.Utf8

/-- What `NotePlaintextDB(std::string)` sets. -/
@[ext]
structure Stored where
  value : UInt64
  r : Uint256
  rho : Uint256
  stringMemo : Text
  noteHeight : Nat
  status : Bool
  deriving DecidableEq

/-- `string_memo` of a decrypted note: the bytes up to the first NUL. -/
def stringMemo (plain : NotePlaintext Uint256) : Text := plain.memo.data.takeWhile (· ≠ 0)

def document (memo : Value) (plain : NotePlaintext Uint256) (isSpent : Bool) (height : Nat) :
    Value :=
  .object
    [("memo", memo),
      ("r", .string (getHex plain.r)),
      ("rho", .string (getHex plain.rho)),
      ("value", .int (toInt plain.value).toInt),
      ("status", .bool isSpent),
      ("note_height", .int height)]

/-- `NotePlaintextDB(note).serialize(is_spent, correspondent_cipher)`. The memo
is given as an `unsigned char*`, for which only the truth value fits. -/
def serializeCipher (plain : NotePlaintext Uint256) (isSpent : Bool)
    (correspondentCipher : NoteCiphertext Uint256) : Value :=
  document (.bool true) plain isSpent correspondentCipher.noteHeight

/-- `NotePlaintextDB(note).serialize(is_spent, height)`. -/
def serializeHeight (plain : NotePlaintext Uint256) (isSpent : Bool) (height : Nat) : Value :=
  document (.string (stringMemo plain)) plain isSpent height

/-- `NotePlaintextDB(std::string)` on the parsed text. -/
def ofJson (temp : Value) : Except String Stored := do
  let value ← temp.get "value" >>= Value.asUInt
  let r ← textField temp "r"
  let rho ← textField temp "rho"
  let stringMemo ← textField temp "memo"
  let noteHeight ← temp.get "note_height" >>= Value.asUInt
  let status ← temp.get "status" >>= Value.asBool
  return {
    value := UInt64.ofInt value, r := uint256S r, rho := uint256S rho, stringMemo,
    noteHeight := noteHeight.toNat, status }

def MemoText (memo : Blob zcMemoSize) (text : Text) : Prop :=
  ValidUtf8 text ∧ 0 ∉ text ∧ ∃ rest, memo.data = text ++ 0 :: rest

private theorem MemoText.stringMemo {plain : NotePlaintext Uint256} {text : Text}
    (memo : MemoText plain.memo text) : stringMemo plain = text := by
  obtain ⟨_, noNul, rest, data⟩ := memo
  have kept : ∀ b ∈ text, decide (b ≠ 0) = true := by
    intro b mem
    exact decide_eq_true fun zero => noNul (zero ▸ mem)
  rw [PlainDocument.stringMemo, data, List.takeWhile_append_of_pos kept,
    List.takeWhile_cons_of_neg (by simp), List.append_nil]

private theorem transfer_document (layer : Transfer) {memo : Value} (carried : memo.Carried)
    (plain : NotePlaintext Uint256) (isSpent : Bool) {height : Nat} (small : height < 2 ^ 32) :
    layer.transfer (document memo plain isSpent height) = document memo plain isSpent height := by
  have lower := (toInt plain.value).le_toInt
  have upper := (toInt plain.value).toInt_lt
  apply layer.transfer_object
  intro field mem
  simp only [List.mem_cons, List.not_mem_nil, or_false] at mem
  rcases mem with rfl | rfl | rfl | rfl | rfl | rfl
  · exact carried
  · exact validUtf8_of_ascii (getHex_ascii plain.r)
  · exact validUtf8_of_ascii (getHex_ascii plain.rho)
  · exact ⟨by omega, by omega⟩
  · trivial
  · exact ⟨by omega, by omega⟩

private theorem ofJson_document {memo : Value} {text : Text}
    (convertible : memo.asString = .ok text)
    (plain : NotePlaintext Uint256) (isSpent : Bool) {height : Nat} (small : height < 2 ^ 32) :
    ofJson (document memo plain isSpent height) =
      if 0 ≤ (toInt plain.value).toInt then
        .ok ⟨UInt64.ofInt (toInt plain.value).toInt, plain.r, plain.rho, text, height, isSpent⟩
      else .error "LargestInt out of UInt range" := by
  have upper := (toInt plain.value).toInt_lt
  have readValue : (document memo plain isSpent height).get "value" >>= Value.asUInt =
      if 0 ≤ (toInt plain.value).toInt then .ok (toInt plain.value).toInt
      else .error "LargestInt out of UInt range" := by
    change Value.asUInt (.int (toInt plain.value).toInt) = _
    by_cases nonneg : 0 ≤ (toInt plain.value).toInt
    · rw [if_pos nonneg]
      exact Value.asUInt_int nonneg (by omega)
    · rw [if_neg nonneg]
      exact if_neg fun range => nonneg range.1
  have readR : textField (document memo plain isSpent height) "r" = .ok (getHex plain.r) := rfl
  have readRho : textField (document memo plain isSpent height) "rho" = .ok (getHex plain.rho) := rfl
  have readMemo : textField (document memo plain isSpent height) "memo" = .ok text := convertible
  have readHeight : (document memo plain isSpent height).get "note_height" >>= Value.asUInt =
      .ok (height : Int) := Value.asUInt_int (by omega) (by omega)
  have readStatus : (document memo plain isSpent height).get "status" >>= Value.asBool =
      .ok isSpent := rfl
  unfold ofJson
  rw [readValue, readR, readRho, readMemo, readHeight, readStatus]
  by_cases nonneg : 0 ≤ (toInt plain.value).toInt
  · rw [if_pos nonneg, if_pos nonneg]
    simp only [bind, Except.bind, pure, Except.pure, uint256S, setHex_getHex, Int.toNat_natCast]
  · rw [if_neg nonneg, if_neg nonneg]
    rfl

private theorem value_restored_iff (value : UInt64) :
    0 ≤ (toInt value).toInt ∧ UInt64.ofInt (toInt value).toInt = value ↔ value.toNat < 2 ^ 31 := by
  -- the value survives its way through `int` exactly when it is below `2 ^ 31`
  constructor
  · rintro ⟨nonneg, same⟩
    have upper := (toInt value).toInt_lt
    have back : (UInt64.ofNat ((toInt value).toInt % 2 ^ 64).toNat).toNat = value.toNat :=
      congrArg UInt64.toNat same
    rw [UInt64.toNat_ofNat'] at back
    omega
  · intro small
    rw [toInt_eq_of_lt small]
    refine ⟨by omega, ?_⟩
    apply UInt64.toNat.inj
    change (UInt64.ofNat (((value.toNat : Int) % 2 ^ 64).toNat)).toNat = value.toNat
    rw [UInt64.toNat_ofNat']
    omega

/-- A document is read as the note with this memo text, height and status. -/
def Restores (layer : Transfer) (doc : Value) (plain : NotePlaintext Uint256) (text : Text)
    (height : Nat) (status : Bool) : Prop :=
  ofJson (layer.transfer doc) = .ok ⟨plain.value, plain.r, plain.rho, text, height, status⟩

private theorem restores_document_iff (layer : Transfer) {memo : Value} (carried : memo.Carried)
    {found text : Text} (convertible : memo.asString = .ok found)
    (plain : NotePlaintext Uint256) (status : Bool) {height : Nat} (small : height < 2 ^ 32) :
    Restores layer (document memo plain status height) plain text height status ↔
      plain.value.toNat < 2 ^ 31 ∧ found = text := by
  rw [Restores, transfer_document layer carried plain status small,
    ofJson_document convertible plain status small, ← value_restored_iff]
  by_cases nonneg : 0 ≤ (toInt plain.value).toInt
  · simp [nonneg]
  · simp [nonneg]

/-- Both documents of a note restore it exactly when its value is below `2 ^ 31`
and its memo happens to read `true`. -/
theorem documents_restore_iff (layer : Transfer) {plain : NotePlaintext Uint256} {text : Text}
    (memo : MemoText plain.memo text) (cipher : NoteCiphertext Uint256)
    (small : cipher.noteHeight < 2 ^ 32) :
    (Restores layer (serializeCipher plain false cipher) plain text cipher.noteHeight false ∧
        ∀ status, Restores layer (serializeHeight plain status cipher.noteHeight) plain text
          cipher.noteHeight status) ↔
      plain.value.toNat < 2 ^ 31 ∧ text = ascii "true" := by
  have carried : (Value.string (stringMemo plain)).Carried := by
    rw [memo.stringMemo]
    exact memo.1
  have truth : (Value.bool true).Carried := trivial
  have first : Restores layer (serializeCipher plain false cipher) plain text cipher.noteHeight
      false ↔ plain.value.toNat < 2 ^ 31 ∧ ascii "true" = text :=
    restores_document_iff layer truth rfl plain false small
  have second : ∀ status, Restores layer (serializeHeight plain status cipher.noteHeight) plain text
      cipher.noteHeight status ↔ plain.value.toNat < 2 ^ 31 ∧ stringMemo plain = text :=
    fun status => restores_document_iff layer carried rfl plain status small
  rw [first]
  constructor
  · rintro ⟨⟨below, same⟩, _⟩
    exact ⟨below, same.symm⟩
  · rintro ⟨below, same⟩
    exact ⟨⟨below, same.symm⟩, fun status => (second status).mpr ⟨below, memo.stringMemo⟩⟩

def memoNote (value : UInt64) (text : Text) (short : text.length ≤ zcMemoSize) :
    NotePlaintext Uint256 where
  value
  rho := .null
  r := .null
  memo := ⟨text ++ List.replicate (zcMemoSize - text.length) 0, by
    rw [List.length_append, List.length_replicate]
    omega⟩

private theorem memoText_memoNote (value : UInt64) {text : Text} (short : text.length < zcMemoSize)
    (ascii : text.all (· < 0x80) = true) (noNul : 0 ∉ text) :
    MemoText (memoNote value text (Nat.le_of_lt short)).memo text := by
  have small : ∀ b ∈ text, b < 0x80 := by
    intro b mem
    exact of_decide_eq_true (List.all_eq_true.mp ascii b mem)
  refine ⟨validUtf8_of_ascii small, noNul, List.replicate (zcMemoSize - text.length - 1) 0, ?_⟩
  change text ++ List.replicate (zcMemoSize - text.length) 0 = _
  rw [← List.replicate_succ, Nat.sub_add_cancel (by omega)]

/-- A note of value 5 with the memo `true` survives both ways. -/
theorem true_memo_restored :
    Restores .exact (serializeCipher (memoNote 5 (ascii "true") (by decide)) false highNote)
        (memoNote 5 (ascii "true") (by decide)) (ascii "true") 0 false ∧
      ∀ status, Restores .exact (serializeHeight (memoNote 5 (ascii "true") (by decide)) status 0)
        (memoNote 5 (ascii "true") (by decide)) (ascii "true") 0 status := by
  have memo : MemoText (memoNote 5 (ascii "true") (by decide)).memo (ascii "true") :=
    memoText_memoNote 5 (by decide) (by decide) (by decide)
  exact (documents_restore_iff .exact memo highNote (by decide)).mpr ⟨by decide, rfl⟩

/-- The memo that a pour puts into its notes is read back as `true`. -/
theorem pour_memo_lost :
    MemoText (memoNote 5 (ascii "TEST TRANSACTION") (by decide)).memo (ascii "TEST TRANSACTION") ∧
      ¬ Restores .exact
        (serializeCipher (memoNote 5 (ascii "TEST TRANSACTION") (by decide)) false highNote)
        (memoNote 5 (ascii "TEST TRANSACTION") (by decide)) (ascii "TEST TRANSACTION") 0 false := by
  constructor
  · exact memoText_memoNote 5 (by decide) (by decide) (by decide)
  · have truth : (Value.bool true).Carried := trivial
    intro restored
    have same := (restores_document_iff .exact truth rfl _ false (by decide)).mp restored
    exact absurd same.2 (by decide)

/-! The documents are those of the wallet's collection of user notes. -/

def scalarValue : Scalar → Value
  | .bool b => .bool b
  | .int n => .int n.toInt

def userNoteValue (doc : UserNote Uint256) : Value :=
  .object
    [("memo", scalarValue doc.memo),
      ("r", .string (getHex doc.r)),
      ("rho", .string (getHex doc.rho)),
      ("value", .int doc.value),
      ("status", scalarValue doc.status),
      ("note_height", .int doc.noteHeight)]

/-- What `add_user_note` writes is the document of the collection model. -/
theorem serializeCipher_eq (plain : NotePlaintext Uint256) (isSpent : Bool)
    (cipher : NoteCiphertext Uint256) :
    serializeCipher plain isSpent cipher = userNoteValue (plain.serialize isSpent cipher) := rfl

def Stored.content (note : NotePlaintextDB Uint256) : Stored :=
  ⟨note.value, note.r, note.rho, ascii note.stringMemo, note.noteHeight, note.status⟩

/-- Reading the document `add_user_note` wrote, in the collection model and in
its JSON form. -/
theorem ofJson_serializeCipher (plain : NotePlaintext Uint256) (isSpent : Bool)
    {cipher : NoteCiphertext Uint256} (small : cipher.noteHeight < 2 ^ 32) :
    ofJson (serializeCipher plain isSpent cipher) =
      match (plain.serialize isSpent cipher).read with
      | some note => .ok (Stored.content note)
      | none => .error "LargestInt out of UInt range" := by
  have upper := (toInt plain.value).toInt_lt
  rw [serializeCipher, ofJson_document rfl plain isSpent small, UserNote.read]
  by_cases nonneg : 0 ≤ (toInt plain.value).toInt
  · have value : (plain.serialize isSpent cipher).value = (toInt plain.value).toInt := rfl
    have readable : (plain.serialize isSpent cipher).Readable := ⟨nonneg, by omega⟩
    rw [if_pos nonneg, if_pos readable]
    rfl
  · rw [if_neg nonneg, if_neg fun readable => nonneg readable.1]

end CbDaemon.Wallet.PlainDocument
