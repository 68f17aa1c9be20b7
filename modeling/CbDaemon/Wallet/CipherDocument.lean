/- module: CbDaemon/Wallet/CipherDocument
   source: src/cblib/note.cpp
   digest: The stored form of a note ciphertext, and which received forms are let through. -/

import CbDaemon.Codec.Hex
import CbDaemon.Codec.Json
import CbDaemon.Codec.Utf8Decode
import CbDaemon.Wallet.Notes

set_option autoImplicit false
set_option relaxedAutoImplicit false

namespace CbDaemon.Wallet.CipherDocument
open Base.Machine Notes
open Codec.Integer Codec.Hex Codec.Json Codec.Utf8 Codec.Utf8Decode

abbrev Uint256 := Blob 32

/-- The ends of a constructor that makes no object. -/
inductive Failure where
  | threw (message : String)
  | running
  deriving DecidableEq

/-- A field read with `asString`. -/
def textField (temp : Value) (key : String) : Except String Text := temp.get key >>= Value.asString

/-- `NoteCiphertext::serialize`, up to the text the writer makes of it. -/
def serialize (note : NoteCiphertext Uint256) (commitment nullifier root : Uint256)
    (height : Nat) : Value :=
  .object
    [("encrypted_note", .string (encodeBytes note.text.data)),
      ("commitment", .string (getHex commitment)),
      ("root", .string (getHex root)),
      ("note_height", .int height),
      ("ephemeral_key", .string (getHex note.ephemeralKey)),
      ("h_sig", .string (getHex note.hSig)),
      ("nullifier", .string (getHex nullifier)),
      ("ith", .int note.ith)]

/-- The copy of the code points into the `text` array, if there are as many as
it has bytes. Otherwise an exception object is made but not thrown, and the
array stays as it was. -/
def cipherText (uninitialised : Blob zcCLen) (destCipher : List Nat) : Blob zcCLen :=
  if size : destCipher.length = zcCLen then
    ⟨destCipher.map UInt8.ofNat, by rw [List.length_map, size]⟩
  else uninitialised

/-- The fields that the constructor reads after the ciphertext; `text` is set in
the end. -/
def readFields (temp : Value) : Except String (NoteCiphertext Uint256) := do
  let noteHeight ← temp.get "note_height" >>= Value.asUInt
  let ith ← temp.get "ith" >>= Value.asInt
  let noteCommitment ← textField temp "commitment"
  let noteRoot ← textField temp "root"
  let ephemeralKey ← textField temp "ephemeral_key"
  let hSig ← textField temp "h_sig"
  let correspondentNullifier ← textField temp "nullifier"
  return {
    text := .null, noteHeight := noteHeight.toNat, ith, noteCommitment := uint256S noteCommitment,
    noteRoot := uint256S noteRoot, ephemeralKey := uint256S ephemeralKey, hSig := uint256S hSig,
    correspondentNullifier := uint256S correspondentNullifier }

/-- `NoteCiphertext(std::string)` on the parsed text. -/
def ofJson (uninitialised : Blob zcCLen) (beyond : Nat → UInt8) (temp : Value) :
    Except Failure (NoteCiphertext Uint256) :=
  match textField temp "encrypted_note" with
  | .error message => .error (.threw message)
  | .ok ciphertext =>
    match utf8toUnicode beyond ciphertext with
    | none => .error .running
    | some destCipher =>
      match readFields temp with
      | .error message => .error (.threw message)
      | .ok note => .ok { note with text := cipherText uninitialised destCipher }

private theorem cipherText_of_bytes (uninitialised text : Blob zcCLen) :
    cipherText uninitialised (text.data.map (·.toNat)) = text := by
  have size : (text.data.map (·.toNat)).length = zcCLen := by rw [List.length_map, text.length_eq]
  rw [cipherText, dif_pos size]
  apply Blob.ext
  change (text.data.map (·.toNat)).map UInt8.ofNat = text.data
  rw [List.map_map]
  exact (List.map_congr_left fun b _ => UInt8.ofNat_toNat).trans (List.map_id _)

private theorem serialize_carried {note : NoteCiphertext Uint256} (fits : FitsInt note.ith)
    (commitment nullifier root : Uint256) {height : Nat} (small : height < 2 ^ 32) :
    ∀ layer : Transfer, layer.transfer (serialize note commitment nullifier root height) =
      serialize note commitment nullifier root height := by
  intro layer
  have hex : ∀ blob : Uint256, ValidUtf8 (getHex blob) := fun blob =>
    validUtf8_of_ascii (getHex_ascii blob)
  have ith : -2 ^ 63 ≤ note.ith ∧ note.ith < 2 ^ 64 := by
    unfold FitsInt at fits
    omega
  apply layer.transfer_object
  intro field mem
  simp only [List.mem_cons, List.not_mem_nil, or_false] at mem
  rcases mem with rfl | rfl | rfl | rfl | rfl | rfl | rfl | rfl
  · exact validUtf8_encodeBytes _
  · exact hex commitment
  · exact hex root
  · exact ⟨by omega, by omega⟩
  · exact hex note.ephemeralKey
  · exact hex note.hSig
  · exact hex nullifier
  · exact ith

private theorem readFields_serialize {note : NoteCiphertext Uint256} (fits : FitsInt note.ith)
    (commitment nullifier root : Uint256) {height : Nat} (small : height < 2 ^ 32) :
    readFields (serialize note commitment nullifier root height) =
      .ok { note with
        text := .null, noteHeight := height, noteCommitment := commitment, noteRoot := root,
        correspondentNullifier := nullifier } := by
  have readHeight : (serialize note commitment nullifier root height).get "note_height" >>=
      Value.asUInt = .ok (height : Int) := Value.asUInt_int (by omega) (by omega)
  have readIth : (serialize note commitment nullifier root height).get "ith" >>= Value.asInt =
      .ok note.ith := Value.asInt_int fits
  have readCommitment : textField (serialize note commitment nullifier root height) "commitment" =
      .ok (getHex commitment) := rfl
  have readRoot : textField (serialize note commitment nullifier root height) "root" =
      .ok (getHex root) := rfl
  have readKey : textField (serialize note commitment nullifier root height) "ephemeral_key" =
      .ok (getHex note.ephemeralKey) := rfl
  have readSig : textField (serialize note commitment nullifier root height) "h_sig" =
      .ok (getHex note.hSig) := rfl
  have readNullifier : textField (serialize note commitment nullifier root height) "nullifier" =
      .ok (getHex nullifier) := rfl
  unfold readFields
  rw [readHeight, readIth, readCommitment, readRoot, readKey, readSig, readNullifier]
  simp only [bind, Except.bind, pure, Except.pure, uint256S, setHex_getHex, Int.toNat_natCast]

/-- A serialized note is read back with the same ciphertext and the same values
of all fields. -/
theorem ofJson_serialize (layer : Transfer) (uninitialised : Blob zcCLen) (beyond : Nat → UInt8)
    (note : NoteCiphertext Uint256) (fits : FitsInt note.ith)
    (commitment nullifier root : Uint256) (height : Nat) (small : height < 2 ^ 32) :
    ofJson uninitialised beyond
        (layer.transfer (serialize note commitment nullifier root height)) =
      .ok { note with
        noteHeight := height, noteCommitment := commitment, noteRoot := root,
        correspondentNullifier := nullifier } := by
  have readText : textField (serialize note commitment nullifier root height) "encrypted_note" =
      .ok (encodeBytes note.text.data) := rfl
  rw [serialize_carried fits commitment nullifier root small layer, ofJson, readText]
  simp only [utf8toUnicode_encodeBytes, readFields_serialize fits commitment nullifier root small,
    cipherText_of_bytes]

/-- A note with every byte of its ciphertext above `0x7f`. -/
def highNote : NoteCiphertext Uint256 where
  text := ⟨List.replicate zcCLen 0xff, List.length_replicate⟩
  noteHeight := 0
  noteCommitment := .null
  noteRoot := .null
  ephemeralKey := ⟨List.replicate 32 0xa5, rfl⟩
  hSig := .null
  ith := -1
  correspondentNullifier := .null

theorem highNote_read_back :
    FitsInt highNote.ith ∧
      ofJson .null (fun _ => 0) (Transfer.exact.transfer (serialize highNote .null .null .null 7)) =
        .ok { highNote with noteHeight := 7 } :=
  ⟨by decide, ofJson_serialize .exact .null (fun _ => 0) highNote (by decide) .null .null .null 7
    (by decide)⟩

/-! The received forms of a note. -/

/-- The UTF-8 text of as many code points as a ciphertext has bytes, each at
most `0xFF`. -/
def WellFormed (s : Text) : Prop :=
  ∃ codes : List Nat, codes.length = zcCLen ∧ (∀ code ∈ codes, code ≤ 0xFF) ∧
    s = (codes.map Char.ofNat).flatMap String.utf8EncodeChar

/-- The constructor fails, or the ciphertext is well-formed and the note is
stored again with the same one. -/
def Faithful (temp : Value) : Except Failure (NoteCiphertext Uint256) → Prop
  | .ok note => ∃ s, textField temp "encrypted_note" = .ok s ∧ WellFormed s ∧
      textField (serialize note note.noteCommitment note.correspondentNullifier note.noteRoot
        note.noteHeight) "encrypted_note" = .ok s
  | .error (.threw _) => True
  | .error .running => False

/-- The ciphertext is well-formed, or it is no text at all, or it is one the
decoder gets through and another field cannot be converted. -/
def Safe (beyond : Nat → UInt8) (temp : Value) : Prop :=
  match textField temp "encrypted_note" with
  | .error _ => True
  | .ok s => WellFormed s ∨ ((utf8toUnicode beyond s).isSome ∧ ∃ message, readFields temp = .error message)

private theorem wellFormed_iff (s : Text) :
    WellFormed s ↔ ∃ text : Blob zcCLen, s = encodeBytes text.data := by
  constructor
  · rintro ⟨codes, size, small, rfl⟩
    refine ⟨⟨codes.map UInt8.ofNat, by rw [List.length_map, size]⟩, ?_⟩
    rw [encodeBytes_eq, List.map_map]
    congr 1
    apply List.map_congr_left
    intro code mem
    have bound := small code mem
    change Char.ofNat code = Char.ofNat (UInt8.ofNat code).toNat
    rw [UInt8.toNat_ofNat', Nat.mod_eq_of_lt (by omega)]
  · rintro ⟨text, rfl⟩
    refine ⟨text.data.map (·.toNat), by rw [List.length_map, text.length_eq], ?_, ?_⟩
    · intro code mem
      obtain ⟨b, _, rfl⟩ := List.mem_map.mp mem
      have bound := b.toNat_lt
      omega
    · rw [encodeBytes_eq, List.map_map]
      rfl

private theorem Faithful.same_text {temp temp' : Value} {note note' : NoteCiphertext Uint256}
    (faithful : Faithful temp (.ok note)) (faithful' : Faithful temp' (.ok note'))
    (same : note.text = note'.text) :
    textField temp "encrypted_note" = textField temp' "encrypted_note" := by
  obtain ⟨s, received, _, stored⟩ := faithful
  obtain ⟨s', received', _, stored'⟩ := faithful'
  have text : Except.ok (encodeBytes note.text.data) = Except.ok s := stored
  have text' : Except.ok (encodeBytes note'.text.data) = Except.ok s' := stored'
  rw [received, received', ← text, ← text', same]

/-- A note that is received with a well-formed ciphertext is made of it, unless
another field throws. -/
private theorem faithful_of_wellFormed (uninitialised : Blob zcCLen) (beyond : Nat → UInt8)
    {temp : Value} {s : Text} (received : textField temp "encrypted_note" = .ok s)
    (wellFormed : WellFormed s) : Faithful temp (ofJson uninitialised beyond temp) := by
  obtain ⟨text, rfl⟩ := (wellFormed_iff s).mp wellFormed
  rw [ofJson, received]
  simp only [utf8toUnicode_encodeBytes, cipherText_of_bytes]
  cases fields : readFields temp with
  | error message => trivial
  | ok note =>
    exact ⟨_, received, wellFormed, rfl⟩

private theorem faithful_iff_safe (uninitialised : Blob zcCLen) (beyond : Nat → UInt8)
    (temp : Value) :
    Faithful temp (ofJson uninitialised beyond temp) ↔ Safe beyond temp := by
  unfold Safe
  cases received : textField temp "encrypted_note" with
  | error message =>
    rw [ofJson, received]
    exact Iff.rfl
  | ok s =>
    by_cases wellFormed : WellFormed s
    · exact iff_of_true (faithful_of_wellFormed uninitialised beyond received wellFormed)
        (.inl wellFormed)
    · rw [ofJson, received]
      cases decoded : utf8toUnicode beyond s with
      | none => simp [Faithful, wellFormed, decoded]
      | some codes =>
        cases fields : readFields temp with
        | error message => simp [Faithful, decoded]
        | ok note => simp [Faithful, decoded, wellFormed, received]

/-- The constructor is faithful exactly on the safe notes, and of two such notes
with the same ciphertext both were received with the same text. -/
theorem malformed_rejected_iff (uninitialised uninitialised' : Blob zcCLen)
    (beyond : Nat → UInt8) (temp temp' : Value) :
    (Faithful temp (ofJson uninitialised beyond temp) ↔ Safe beyond temp) ∧
      ∀ note note', Safe beyond temp → Safe beyond temp' →
        ofJson uninitialised beyond temp = .ok note →
        ofJson uninitialised' beyond temp' = .ok note' → note.text = note'.text →
        textField temp "encrypted_note" = textField temp' "encrypted_note" := by
  refine ⟨faithful_iff_safe uninitialised beyond temp, ?_⟩
  intro note note' safe safe' made made' same
  have faithful := (faithful_iff_safe uninitialised beyond temp).mpr safe
  have faithful' := (faithful_iff_safe uninitialised' beyond temp').mpr safe'
  rw [made] at faithful
  rw [made'] at faithful'
  exact faithful.same_text faithful' same

/-- The stored forms of one note at two heights are safe. -/
theorem highNote_accepted :
    Faithful (serialize highNote .null .null .null 7)
        (ofJson .null (fun _ => 0) (serialize highNote .null .null .null 7)) ∧
      textField (serialize highNote .null .null .null 7) "encrypted_note" =
        textField (serialize highNote .null .null .null 8) "encrypted_note" := by
  have safe : ∀ height, Safe (fun _ => 0) (serialize highNote .null .null .null height) :=
    fun _ => .inl ((wellFormed_iff _).mpr ⟨highNote.text, rfl⟩)
  obtain ⟨faithful, texts⟩ := malformed_rejected_iff .null .null (fun _ => 0)
    (serialize highNote .null .null .null 7) (serialize highNote .null .null .null 8)
  have made : ofJson .null (fun _ => 0) (serialize highNote .null .null .null 7) =
      .ok { highNote with noteHeight := 7 } := by
    decide +kernel
  have made' : ofJson .null (fun _ => 0) (serialize highNote .null .null .null 8) =
      .ok { highNote with noteHeight := 8 } := by
    decide +kernel
  constructor
  · rw [faithful]
    exact safe 7
  · exact texts _ _ (safe 7) (safe 8) made made' rfl

/-- A note without a ciphertext is accepted, with whatever the array held. -/
theorem empty_ciphertext_accepted :
    ofJson (.null : Blob zcCLen) (fun _ => 0) (.object [("encrypted_note", .string [])]) =
        .ok ⟨.null, 0, .null, .null, .null, .null, 0, .null⟩ ∧
      ¬ WellFormed [] ∧
      ¬ Faithful (.object [("encrypted_note", .string [])])
        (ofJson (.null : Blob zcCLen) (fun _ => 0) (.object [("encrypted_note", .string [])])) := by
  have malformed : ¬ WellFormed [] := by
    intro wellFormed
    obtain ⟨text, empty⟩ := (wellFormed_iff []).mp wellFormed
    have decoded := utf8toUnicode_encodeBytes (fun _ => 0) text.data
    rw [← empty] at decoded
    have size := congrArg List.length (Option.some.inj decoded)
    rw [List.length_map, text.length_eq] at size
    exact absurd size (by decide)
  refine ⟨rfl, malformed, ?_⟩
  rintro ⟨s, received, wellFormed, _⟩
  have empty : s = [] := (Except.ok.inj received).symm
  exact malformed (empty ▸ wellFormed)

end CbDaemon.Wallet.CipherDocument
