/- module: CbDaemon/Wallet/StatusUpdate
   source: src/cblib/note.cpp, db/db.h, db/db.cpp
   digest: The update of the spent status, on the documents as they are stored. -/

import CbDaemon.Base.Fallible
import CbDaemon.Wallet.PlainDocument
import Mathlib.Data.List.Forall2

set_option autoImplicit false
set_option relaxedAutoImplicit false

namespace CbDaemon.Wallet.StatusUpdate
open Base.Fallible Base.Machine Notes CipherDocument PlainDocument
open Codec.Integer Codec.Hex Codec.Json

/-- The two collections of a wallet as JSON documents. -/
structure Documents where
  notes : List Value
  userNotes : List Value

def isText (text : Text) : Value → Bool
  | .string s => s == text
  | _ => false

/-- An equality filter on a text field: the field is the text, or a list with it. -/
def textIs (key : String) (text : Text) : Value → Bool
  | .object members =>
    match Value.member members key with
    | .array items => items.any (isText text)
    | value => isText text value
  | _ => false

def setMember (key : String) (value : Value) : List (String × Value) → List (String × Value)
  | [] => [(key, value)]
  | (name, old) :: rest =>
    if name = key then (key, value) :: rest else (name, old) :: setMember key value rest

/-- `{"$set": {"status": true}}` on a document. -/
def setSpent : Value → Value
  | .object members => .object (setMember "status" (.bool true) members)
  | doc => doc

/-- `database::update` for a note of the update phase. -/
def updateMany (rho r : Uint256) (docs : List Value) : List Value :=
  docs.map fun doc =>
    if textIs "rho" (getHex rho) doc ∧ textIs "r" (getHex r) doc then setSpent doc else doc

section update

/-! The parameters are the layer between a collection and its reader, and what the
constructor of a note leaves uninitialised or reads behind a text. -/

variable (layer : Transfer) (uninitialised : Blob zcCLen) (beyond : Nat → UInt8)

/-- `query<NotePlaintextDB>` on all documents: the notes before the first one that does
not parse, and whether all of them parsed. -/
def readDocuments : List Value → List Stored × Bool
  | [] => ([], true)
  | doc :: docs =>
    match PlainDocument.ofJson (layer.transfer doc) with
    | .error _ => ([], false)
    | .ok note => (note :: (readDocuments docs).1, (readDocuments docs).2)

/-- `query_nullifier`, of which only the result is used. -/
def hasNullifier (nullifier : Uint256) (notes : List Value) : Except Failure Bool := do
  let found ← (notes.filter (textIs "nullifier" (getHex nullifier))).mapM fun doc =>
    CipherDocument.ofJson uninitialised beyond (layer.transfer doc)
  return !found.isEmpty

/-- The notes collected in `need_for_update_vector`. -/
def needForUpdate (nullifier : Uint256 → Uint256) (notes : List Value) :
    List Stored → Except Failure (List Stored)
  | [] => .ok []
  | note :: rest => do
    let spent ← hasNullifier layer uninitialised beyond (nullifier note.rho) notes
    let others ← needForUpdate nullifier notes rest
    return if spent then { note with status := true } :: others else others

/-- `update_user_notes_status` with every update taking effect. -/
def updateDocuments (nullifier : Uint256 → Uint256) (docs : Documents) :
    Except Failure (Bool × Documents) := do
  let (found, complete) := readDocuments layer docs.userNotes
  let spent ← needForUpdate layer uninitialised beyond nullifier docs.notes found
  return (complete, { docs with
    userNotes := spent.foldl (fun docs note => updateMany note.rho note.r docs) docs.userNotes })

def isSpent (doc : Value) : Bool :=
  match doc.get "status" >>= Value.asBool with
  | .ok status => status
  | .error _ => false

/-- A user-note document that is read as this note and holds the texts that `ToString`
prints for its `rho` and `r`. -/
structure Canonical (doc : Value) (note : Stored) : Prop where
  read : PlainDocument.ofJson (layer.transfer doc) = .ok note
  rho : doc.get "rho" = .ok (.string (getHex note.rho))
  r : doc.get "r" = .ok (.string (getHex note.r))

/-- A note document that can be read where a nullifier query finds it, and that holds the
text that `ToString` prints for its nullifier. -/
structure CanonicalNote (doc : Value) : Prop where
  readable : ∀ nullifier : Uint256, textIs "nullifier" (getHex nullifier) doc = true →
    ∃ note, CipherDocument.ofJson uninitialised beyond (layer.transfer doc) = .ok note
  nullifier : ∀ note, CipherDocument.ofJson uninitialised beyond (layer.transfer doc) = .ok note →
    doc.get "nullifier" = .ok (.string (getHex note.correspondentNullifier))

def Occurs (nullifier : Uint256) (notes : List Value) : Prop :=
  ∃ doc ∈ notes, ∃ note,
    CipherDocument.ofJson uninitialised beyond (layer.transfer doc) = .ok note ∧
      note.correspondentNullifier = nullifier

/-- A document before and after the update: spent if it was or if the nullifier of its
note is stored, and otherwise the same. -/
def Updated (nullifier : Uint256 → Uint256) (notes : List Value) (before after : Value) : Prop :=
  (isSpent after = true ↔ isSpent before = true ∨
      ∃ note, PlainDocument.ofJson (layer.transfer before) = .ok note ∧
        Occurs layer uninitialised beyond (nullifier note.rho) notes) ∧
    ∀ key ≠ "status", after.get key = before.get key

private theorem object_of_get {doc : Value} {key : String} {text : Text}
    (found : doc.get key = .ok (.string text)) :
    ∃ members, doc = .object members ∧ Value.member members key = .string text := by
  cases doc with
  | object members => exact ⟨members, rfl, Except.ok.inj found⟩
  | null | bool | int | real | string | array => cases found

private theorem textIs_of_get {doc : Value} {key : String} {a : Uint256}
    (found : doc.get key = .ok (.string (getHex a))) (b : Uint256) :
    textIs key (getHex b) doc = true ↔ a = b := by
  obtain ⟨members, rfl, field⟩ := object_of_get found
  rw [textIs, field]
  exact getHex_beq a b

private theorem member_cons (key other : String) (value : Value) (rest : List (String × Value)) :
    Value.member ((other, value) :: rest) key =
      if key = other then value else Value.member rest key := by
  unfold Value.member
  rw [List.lookup_cons]
  by_cases same : key = other
  · rw [if_pos same, beq_iff_eq.mpr same]
    rfl
  · rw [if_neg same, beq_false_of_ne same]

private theorem member_setMember (key name : String) (value : Value)
    (members : List (String × Value)) :
    Value.member (setMember name value members) key =
      if key = name then value else Value.member members key := by
  induction members with
  | nil => exact member_cons key name value []
  | cons first rest ih =>
    obtain ⟨other, old⟩ := first
    rw [setMember]
    by_cases here : other = name
    · rw [if_pos here, member_cons, member_cons, here]
      grind
    · rw [if_neg here, member_cons, member_cons, ih]
      grind

private theorem get_setSpent {key : String} (other : key ≠ "status") (doc : Value) :
    (setSpent doc).get key = doc.get key := by
  cases doc with
  | object members =>
    show Except.ok (Value.member (setMember _ _ members) key) = .ok (Value.member members key)
    rw [member_setMember, if_neg other]
  | null | bool | int | real | string | array => rfl

private theorem textIs_setSpent {key : String} (other : key ≠ "status") (text : Text)
    (doc : Value) : textIs key text (setSpent doc) = textIs key text doc := by
  cases doc with
  | object members => rw [setSpent, textIs, textIs, member_setMember, if_neg other]
  | null | bool | int | real | string | array => rfl

private theorem setSpent_setSpent (doc : Value) : setSpent (setSpent doc) = setSpent doc := by
  have twice : ∀ members : List (String × Value),
      setMember "status" (.bool true) (setMember "status" (.bool true) members) =
        setMember "status" (.bool true) members := by
    intro members
    induction members with
    | nil => simp [setMember]
    | cons first rest ih =>
      obtain ⟨other, old⟩ := first
      by_cases here : other = "status"
      · simp [setMember, here]
      · simp [setMember, here, ih]
  cases doc with
  | object members => exact congrArg Value.object (twice members)
  | null | bool | int | real | string | array => rfl

private theorem isSpent_setSpent {doc : Value} {key : String} {text : Text}
    (found : doc.get key = .ok (.string text)) : isSpent (setSpent doc) = true := by
  obtain ⟨members, rfl, -⟩ := object_of_get found
  have status : (setSpent (.object members)).get "status" = .ok (.bool true) := by
    show Except.ok (Value.member (setMember _ _ members) "status") = _
    rw [member_setMember, if_pos rfl]
  rw [isSpent, status]
  rfl

def Hits (note : Stored) (doc : Value) : Prop :=
  textIs "rho" (getHex note.rho) doc = true ∧ textIs "r" (getHex note.r) doc = true

instance (note : Stored) (doc : Value) : Decidable (Hits note doc) :=
  inferInstanceAs (Decidable (_ ∧ _))

/-- One update after the other is one pass with all their filters, since no update changes
what a filter looks at. -/
private theorem foldl_updateMany (spent : List Stored) (docs : List Value) :
    spent.foldl (fun docs note => updateMany note.rho note.r docs) docs =
      docs.map fun doc => if ∃ note ∈ spent, Hits note doc then setSpent doc else doc := by
  induction spent generalizing docs with
  | nil => simp
  | cons note spent ih =>
    have kept : ∀ other doc, Hits other (setSpent doc) ↔ Hits other doc := by
      intro other doc
      rw [Hits, Hits, textIs_setSpent (by decide), textIs_setSpent (by decide)]
    rw [List.foldl_cons, ih, updateMany, List.map_map]
    apply List.map_congr_left
    intro doc _
    rw [Function.comp_apply]
    change (if ∃ other ∈ spent, Hits other (if Hits note doc then setSpent doc else doc) then
      setSpent (if Hits note doc then setSpent doc else doc)
      else if Hits note doc then setSpent doc else doc) = _
    by_cases hit : Hits note doc
    · simp only [hit, if_true, kept, setSpent_setSpent, ite_self, List.exists_mem_cons_iff, true_or]
    · simp only [hit, if_false, List.exists_mem_cons_iff, false_or]

private theorem hasNullifier_eq {notes : List Value}
    (canonical : ∀ doc ∈ notes, CanonicalNote layer uninitialised beyond doc)
    (nullifier : Uint256) :
    hasNullifier layer uninitialised beyond nullifier notes =
      .ok (notes.any (textIs "nullifier" (getHex nullifier))) := by
  have reads : Returns ((notes.filter (textIs "nullifier" (getHex nullifier))).mapM fun doc =>
      CipherDocument.ofJson uninitialised beyond (layer.transfer doc)) fun _ => True := by
    apply returns_mapM.mpr
    intro doc among
    obtain ⟨stored, matched⟩ := List.mem_filter.mp among
    obtain ⟨note, read⟩ := (canonical doc stored).readable nullifier matched
    exact ⟨note, read, trivial⟩
  obtain ⟨found, result, -⟩ := reads
  rw [hasNullifier, result]
  show Except.ok (!found.isEmpty) = _
  rw [isEmpty_of_mapM result, Except.ok.injEq, Bool.eq_iff_iff]
  simp

private theorem any_nullifier_iff {notes : List Value}
    (canonical : ∀ doc ∈ notes, CanonicalNote layer uninitialised beyond doc)
    (nullifier : Uint256) :
    notes.any (textIs "nullifier" (getHex nullifier)) = true ↔
      Occurs layer uninitialised beyond nullifier notes := by
  rw [List.any_eq_true]
  constructor
  · rintro ⟨doc, stored, matched⟩
    obtain ⟨note, read⟩ := (canonical doc stored).readable nullifier matched
    exact ⟨doc, stored, note, read,
      (textIs_of_get ((canonical doc stored).nullifier note read) nullifier).mp matched⟩
  · rintro ⟨doc, stored, note, read, same⟩
    exact ⟨doc, stored, (textIs_of_get ((canonical doc stored).nullifier note read) nullifier).mpr same⟩

private theorem needForUpdate_eq (nullifier : Uint256 → Uint256) {notes : List Value}
    (canonical : ∀ doc ∈ notes, CanonicalNote layer uninitialised beyond doc)
    (found : List Stored) :
    needForUpdate layer uninitialised beyond nullifier notes found =
      .ok ((found.filter fun note =>
        notes.any (textIs "nullifier" (getHex (nullifier note.rho)))).map
          fun note => { note with status := true }) := by
  induction found with
  | nil => rfl
  | cons note found ih =>
    rw [needForUpdate, hasNullifier_eq layer uninitialised beyond canonical, ih, List.filter_cons]
    generalize notes.any (textIs "nullifier" (getHex (nullifier note.rho))) = spent
    cases spent with
    | true => rfl
    | false => rfl

private theorem readDocuments_eq {docs : List Value}
    (readable : ∀ doc ∈ docs, ∃ note, Canonical layer doc note) :
    readDocuments layer docs =
      (docs.filterMap fun doc => (PlainDocument.ofJson (layer.transfer doc)).toOption, true) := by
  induction docs with
  | nil => rfl
  | cons doc docs ih =>
    obtain ⟨⟨note, canonical⟩, others⟩ := List.forall_mem_cons.mp readable
    rw [readDocuments, canonical.read, ih others, List.filterMap_cons, canonical.read]
    rfl

/-- The nullifier of the note that is read from a document is found by its query. -/
def storedNullifier (nullifier : Uint256 → Uint256) (notes : List Value) (doc : Value) : Bool :=
  match PlainDocument.ofJson (layer.transfer doc) with
  | .ok note => notes.any (textIs "nullifier" (getHex (nullifier note.rho)))
  | .error _ => false

/-- The update on canonical documents: every document is decided by its own nullifier,
although the update for another one may have written it. -/
private theorem updateDocuments_eq (nullifier : Uint256 → Uint256) {docs : Documents}
    (userNotes : ∀ doc ∈ docs.userNotes, ∃ note, Canonical layer doc note)
    (notes : ∀ doc ∈ docs.notes, CanonicalNote layer uninitialised beyond doc) :
    updateDocuments layer uninitialised beyond nullifier docs =
      .ok (true, ⟨docs.notes, docs.userNotes.map fun doc =>
        if storedNullifier layer nullifier docs.notes doc then setSpent doc else doc⟩) := by
  rw [updateDocuments, readDocuments_eq layer userNotes]
  show (needForUpdate layer uninitialised beyond nullifier docs.notes _ >>= fun spent => _) = _
  rw [needForUpdate_eq layer uninitialised beyond nullifier notes]
  show Except.ok _ = _
  rw [Except.ok.injEq, Prod.mk.injEq, Documents.mk.injEq, foldl_updateMany]
  refine ⟨rfl, rfl, List.map_congr_left fun doc among => ?_⟩
  obtain ⟨note, canonical⟩ := userNotes doc among
  congr 1
  rw [eq_iff_iff, storedNullifier, canonical.read]
  simp only [List.mem_map, List.mem_filter, List.mem_filterMap]
  constructor
  · rintro ⟨_, ⟨other, ⟨_, spent⟩, rfl⟩, sameRho, _⟩
    rw [(textIs_of_get canonical.rho other.rho).mp sameRho]
    exact spent
  · intro spent
    refine ⟨_, ⟨note, ⟨⟨doc, among, ?_⟩, spent⟩, rfl⟩, ?_, ?_⟩
    · rw [canonical.read]
      rfl
    · exact (textIs_of_get canonical.rho note.rho).mpr rfl
    · exact (textIs_of_get canonical.r note.r).mpr rfl

/-! The documents that the daemon itself writes are of this kind, and on them the update is
that of the collection model. -/

def noteValue (note : NoteCiphertext Uint256) : Value :=
  CipherDocument.serialize note note.noteCommitment note.correspondentNullifier note.noteRoot
    note.noteHeight

def NoteFits (note : NoteCiphertext Uint256) : Prop := FitsInt note.ith ∧ note.noteHeight < 2 ^ 32

/-- A user-note document that `NotePlaintextDB(std::string)` reads. -/
def DocumentFits (doc : UserNote Uint256) : Prop := doc.Readable ∧ doc.noteHeight < 2 ^ 32

instance (note : NoteCiphertext Uint256) : Decidable (NoteFits note) :=
  inferInstanceAs (Decidable (_ ∧ _))

instance (doc : UserNote Uint256) : Decidable (DocumentFits doc) :=
  inferInstanceAs (Decidable (_ ∧ _))

def storedOf (doc : UserNote Uint256) : Stored where
  value := UInt64.ofInt doc.value
  r := doc.r
  rho := doc.rho
  stringMemo :=
    match doc.memo with
    | .bool b => ascii (if b then "true" else "false")
    | .int n => Value.intText n.toInt
  noteHeight := doc.noteHeight
  status := doc.status.asBool

private theorem carried_scalarValue (scalar : Scalar) : (scalarValue scalar).Carried := by
  cases scalar with
  | bool b => trivial
  | int n =>
    have lower := n.le_toInt
    have upper := n.toInt_lt
    exact ⟨by omega, by omega⟩

private theorem transfer_userNoteValue {doc : UserNote Uint256} (fits : DocumentFits doc) :
    layer.transfer (userNoteValue doc) = userNoteValue doc := by
  obtain ⟨⟨lower, upper⟩, small⟩ := fits
  apply layer.transfer_object
  intro field among
  simp only [List.mem_cons, List.not_mem_nil, or_false] at among
  rcases among with rfl | rfl | rfl | rfl | rfl | rfl
  · exact carried_scalarValue doc.memo
  · exact Codec.Utf8.validUtf8_of_ascii (getHex_ascii doc.r)
  · exact Codec.Utf8.validUtf8_of_ascii (getHex_ascii doc.rho)
  · exact ⟨by omega, by omega⟩
  · exact carried_scalarValue doc.status
  · exact ⟨by omega, by omega⟩

private theorem ofJson_userNoteValue {doc : UserNote Uint256} (fits : DocumentFits doc) :
    PlainDocument.ofJson (layer.transfer (userNoteValue doc)) = .ok (storedOf doc) := by
  rw [transfer_userNoteValue layer fits]
  obtain ⟨⟨lower, upper⟩, small⟩ := fits
  have readValue : (userNoteValue doc).get "value" >>= Value.asUInt = .ok doc.value :=
    Value.asUInt_int lower upper
  have readR : textField (userNoteValue doc) "r" = .ok (getHex doc.r) := rfl
  have readRho : textField (userNoteValue doc) "rho" = .ok (getHex doc.rho) := rfl
  have readMemo : textField (userNoteValue doc) "memo" = .ok (storedOf doc).stringMemo := by
    show (scalarValue doc.memo).asString = _
    unfold storedOf
    cases doc.memo <;> rfl
  have readHeight : (userNoteValue doc).get "note_height" >>= Value.asUInt =
      .ok (doc.noteHeight : Int) := Value.asUInt_int (by omega) (by omega)
  have readStatus : (userNoteValue doc).get "status" >>= Value.asBool = .ok doc.status.asBool := by
    show (scalarValue doc.status).asBool = _
    cases doc.status with
    | bool b => rfl
    | int n =>
      have zero : n.toInt = 0 ↔ n = 0 := Int32.toInt_inj (y := 0)
      show Except.ok (n.toInt != 0) = Except.ok (n != 0)
      rw [Except.ok.injEq, Bool.eq_iff_iff, bne_iff_ne, bne_iff_ne, Ne, Ne, zero]
  unfold PlainDocument.ofJson
  rw [readValue, readR, readRho, readMemo, readHeight, readStatus]
  simp only [bind, Except.bind, pure, Except.pure, uint256S, setHex_getHex, Int.toNat_natCast]
  rfl

private theorem canonical_userNoteValue {doc : UserNote Uint256} (fits : DocumentFits doc) :
    Canonical layer (userNoteValue doc) (storedOf doc) :=
  ⟨ofJson_userNoteValue layer fits, rfl, rfl⟩

private theorem canonicalNote_noteValue {note : NoteCiphertext Uint256} (fits : NoteFits note) :
    CanonicalNote layer uninitialised beyond (noteValue note) := by
  have read : CipherDocument.ofJson uninitialised beyond (layer.transfer (noteValue note)) =
      .ok note :=
    ofJson_serialize layer uninitialised beyond note fits.1 _ _ _ _ fits.2
  refine ⟨fun _ _ => ⟨note, read⟩, fun other found => ?_⟩
  obtain rfl : note = other := Except.ok.inj (read.symm.trans found)
  rfl

private theorem storedNullifier_userNoteValue (keys : WalletKeys Uint256)
    (notes : List (NoteCiphertext Uint256)) {doc : UserNote Uint256} (fits : DocumentFits doc) :
    storedNullifier layer keys.nullifier (notes.map noteValue) (userNoteValue doc) =
      spentIn keys notes doc.rho := by
  rw [storedNullifier, ofJson_userNoteValue layer fits, Bool.eq_iff_iff, spentIn,
    List.contains_iff_mem, List.mem_map]
  show (notes.map noteValue).any _ = true ↔ _
  rw [List.any_map, List.any_eq_true]
  apply exists_congr
  intro note
  apply and_congr_right
  intro _
  exact getHex_beq note.correspondentNullifier (keys.nullifier doc.rho)

/-- On the documents of the two collections the update is that of the collection
model. -/
theorem updateDocuments_map (keys : WalletKeys Uint256) {store : Store Uint256}
    (notesFit : ∀ note ∈ store.notes, NoteFits note)
    (docsFit : ∀ doc ∈ store.userNotes, DocumentFits doc) :
    updateDocuments layer uninitialised beyond keys.nullifier
        ⟨store.notes.map noteValue, store.userNotes.map userNoteValue⟩ =
      .ok (true, ⟨store.notes.map noteValue,
        (updateUserNotesStatus keys (fun _ => true) store).2.userNotes.map userNoteValue⟩) := by
  rw [updateDocuments_eq layer uninitialised beyond keys.nullifier,
    updateUserNotesStatus_userNotes keys fun doc among => (docsFit doc among).1]
  · rw [List.map_map, List.map_map]
    congr 3
    apply List.map_congr_left
    intro doc among
    rw [Function.comp_apply, Function.comp_apply,
      storedNullifier_userNoteValue layer keys store.notes (docsFit doc among)]
    split
    · rfl
    · rfl
  · intro value among
    obtain ⟨doc, stored, rfl⟩ := List.mem_map.mp among
    exact ⟨_, canonical_userNoteValue layer (docsFit doc stored)⟩
  · intro value among
    obtain ⟨note, stored, rfl⟩ := List.mem_map.mp among
    exact canonicalNote_noteValue layer uninitialised beyond (notesFit note stored)

/-- On documents that can be read and spell `rho`, `r` and the nullifiers as `ToString`
does, the status update succeeds, leaves the notes as they were, and marks exactly the user
notes whose nullifier is stored. -/
theorem updateDocuments_exact (nullifier : Uint256 → Uint256) (docs : Documents)
    (userNotes : ∀ doc ∈ docs.userNotes, ∃ note, Canonical layer doc note)
    (notes : ∀ doc ∈ docs.notes, CanonicalNote layer uninitialised beyond doc) :
    ∃ after : List Value,
      updateDocuments layer uninitialised beyond nullifier docs = .ok (true, ⟨docs.notes, after⟩) ∧
      List.Forall₂ (Updated layer uninitialised beyond nullifier docs.notes) docs.userNotes
        after := by
  refine ⟨_, updateDocuments_eq layer uninitialised beyond nullifier userNotes notes, ?_⟩
  rw [List.forall₂_map_right_iff, List.forall₂_same]
  intro doc among
  obtain ⟨note, canonical⟩ := userNotes doc among
  have stored : storedNullifier layer nullifier docs.notes doc = true ↔
      ∃ note, PlainDocument.ofJson (layer.transfer doc) = .ok note ∧
        Occurs layer uninitialised beyond (nullifier note.rho) docs.notes := by
    rw [storedNullifier, canonical.read]
    simp only [Except.ok.injEq, exists_eq_left']
    exact any_nullifier_iff layer uninitialised beyond notes _
  unfold Updated
  rw [← stored]
  by_cases spent : storedNullifier layer nullifier docs.notes doc = true
  · rw [if_pos spent]
    exact ⟨iff_of_true (isSpent_setSpent canonical.rho) (Or.inr spent),
      fun key other => get_setSpent other doc⟩
  · rw [if_neg spent]
    exact ⟨⟨Or.inl, fun either => either.resolve_right spent⟩, fun _ _ => rfl⟩

end update

def repeated (b : UInt8) : Uint256 := uniform b

/-- A document with these texts of `rho` and `r` that carries an `_id` and has neither memo
nor status. -/
def spelledDocument (rho r : Text) : Value :=
  .object [("_id", .object []), ("rho", .string rho), ("r", .string r), ("value", .int 5),
    ("note_height", .int 1)]

private theorem ofJson_spelledDocument (rho r : Text) :
    PlainDocument.ofJson (spelledDocument rho r) =
      .ok ⟨5, uint256S r, uint256S rho, [], 1, false⟩ := rfl

private theorem canonical_spelledDocument (rho r : Uint256) :
    Canonical .exact (spelledDocument (getHex rho) (getHex r)) ⟨5, r, rho, [], 1, false⟩ := by
  refine ⟨(ofJson_spelledDocument _ _).trans ?_, rfl, rfl⟩
  rw [uint256S, uint256S, setHex_getHex, setHex_getHex]

def spender (nullifier : UInt8) : NoteCiphertext Uint256 :=
  { highNote with correspondentNullifier := repeated nullifier }

private theorem canonicalNote_spender (nullifier : UInt8) :
    CanonicalNote .exact .null (fun _ => 0) (noteValue (spender nullifier)) := by
  have fits : NoteFits highNote := by decide
  exact canonicalNote_noteValue .exact .null (fun _ => 0) ⟨fits.1, fits.2⟩

/-- Two documents of one note, one with its `rho` only, one of another note and one that was
spent before, with a stored nullifier of the first. -/
def sharedDocuments : Documents where
  notes := [noteValue (spender 0xab)]
  userNotes := [spelledDocument (getHex (repeated 0xab)) (getHex (repeated 3)),
    spelledDocument (getHex (repeated 0xab)) (getHex (repeated 3)),
    spelledDocument (getHex (repeated 0xab)) (getHex (repeated 4)),
    spelledDocument (getHex (repeated 2)) (getHex (repeated 3)),
    userNoteValue ⟨.bool true, repeated 3, repeated 5, 5, .bool true, 1⟩]

/-- Keys whose nullifier of a note is its `rho`. -/
def plainKeys : WalletKeys Uint256 where
  decrypt _ _ _ _ := none
  nullifier rho := rho

theorem updateDocuments_sharedDocuments :
    ∃ after : List Value,
      updateDocuments .exact .null (fun _ => 0) plainKeys.nullifier sharedDocuments =
        .ok (true, ⟨sharedDocuments.notes, after⟩) ∧
      List.Forall₂ (Updated .exact .null (fun _ => 0) plainKeys.nullifier sharedDocuments.notes)
        sharedDocuments.userNotes after := by
  apply updateDocuments_exact .exact .null (fun _ => 0) plainKeys.nullifier sharedDocuments
  · intro doc among
    simp only [sharedDocuments, List.mem_cons, List.not_mem_nil, or_false] at among
    rcases among with rfl | rfl | rfl | rfl | rfl
    · exact ⟨_, canonical_spelledDocument _ _⟩
    · exact ⟨_, canonical_spelledDocument _ _⟩
    · exact ⟨_, canonical_spelledDocument _ _⟩
    · exact ⟨_, canonical_spelledDocument _ _⟩
    · exact ⟨_, canonical_userNoteValue .exact (by decide)⟩
  · intro doc among
    rw [List.mem_singleton.mp among]
    exact canonicalNote_spender 0xab

/-- The letters of a text of digits and lower-case letters in upper case. -/
def upperCase (text : Text) : Text := text.map fun b => if b < 97 then b else b - 32

/-- A document is read and the nullifier of its note is stored, but the update does not
mark it. -/
def LeftUnspent (doc : Value) : Prop :=
  (∃ note, PlainDocument.ofJson (Transfer.exact.transfer doc) = .ok note ∧
      Occurs .exact .null (fun _ => 0) (plainKeys.nullifier note.rho)
        [noteValue (spender 0xab)]) ∧
    updateDocuments .exact .null (fun _ => 0) plainKeys.nullifier
        ⟨[noteValue (spender 0xab)], [doc]⟩ =
      .ok (true, ⟨[noteValue (spender 0xab)], [doc]⟩) ∧
    ¬ Updated .exact .null (fun _ => 0) plainKeys.nullifier [noteValue (spender 0xab)] doc doc

private theorem leftUnspent_of_missed {rho r : Text} (same : uint256S rho = repeated 0xab)
    (missed : rho ≠ getHex (repeated 0xab) ∨ r ≠ getHex (uint256S r : Uint256)) :
    LeftUnspent (spelledDocument rho r) := by
  have notes : ∀ doc ∈ [noteValue (spender 0xab)],
      CanonicalNote .exact .null (fun _ => 0) doc := by
    intro doc among
    rw [List.mem_singleton.mp among]
    exact canonicalNote_spender 0xab
  have read : PlainDocument.ofJson (Transfer.exact.transfer (spelledDocument rho r)) =
      .ok ⟨5, uint256S r, repeated 0xab, [], 1, false⟩ := by
    rw [← same]
    exact ofJson_spelledDocument rho r
  have occurs : Occurs .exact .null (fun _ => 0) (repeated 0xab) [noteValue (spender 0xab)] :=
    (any_nullifier_iff .exact .null (fun _ => 0) notes _).mp (by decide)
  refine ⟨⟨_, read, occurs⟩, ?_, ?_⟩
  · have found : readDocuments .exact [spelledDocument rho r] =
        ([⟨5, uint256S r, repeated 0xab, [], 1, false⟩], true) := by
      rw [readDocuments, read]
      rfl
    rw [updateDocuments, found]
    show (needForUpdate .exact .null (fun _ => 0) plainKeys.nullifier _ _ >>= fun spent => _) = _
    rw [needForUpdate_eq .exact .null (fun _ => 0) plainKeys.nullifier notes]
    show Except.ok _ = _
    rw [Except.ok.injEq, Prod.mk.injEq, Documents.mk.injEq, foldl_updateMany]
    refine ⟨rfl, rfl, ?_⟩
    rw [List.map_singleton, if_neg]
    rintro ⟨note, among, sameRho, sameR⟩
    obtain ⟨_, kept, rfl⟩ := List.mem_map.mp among
    obtain rfl := List.mem_singleton.mp (List.mem_filter.mp kept).1
    rcases missed with missed | missed
    · exact missed (beq_iff_eq.mp sameRho)
    · exact missed (beq_iff_eq.mp sameR)
  · rintro ⟨marked, _⟩
    have spent := marked.mpr (Or.inr ⟨_, read, occurs⟩)
    cases spent

theorem upper_case_left_unspent :
    LeftUnspent (spelledDocument (upperCase (getHex (repeated 0xab))) (getHex (repeated 3))) ∧
      LeftUnspent (spelledDocument (getHex (repeated 0xab))
        (upperCase (getHex (repeated 0xcd)))) := by
  constructor
  · exact leftUnspent_of_missed (by decide +kernel) (Or.inl (by decide +kernel))
  · exact leftUnspent_of_missed (by decide +kernel) (Or.inr (by decide +kernel))

end CbDaemon.Wallet.StatusUpdate
