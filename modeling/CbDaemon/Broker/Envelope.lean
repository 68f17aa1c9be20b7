/- module: CbDaemon/Broker/Envelope
   source: src/zmq/zmsg.hpp, src/zmq/messaging_server.cpp (worker_routine)
   digest: The frames of a request through `zmsg`, and which envelopes come back unchanged. -/

import CbDaemon.Codec.Hex

set_option autoImplicit false
set_option relaxedAutoImplicit false

namespace CbDaemon.Broker.Envelope
open Codec.Integer Codec.Hex

/-! The two forms of an address. -/

/-- `encode_uuid`: a `@` and the digits of the sixteen bytes behind the first one. -/
def encodeUuid (data : Text) : Text := 64 :: (data.tail.take 16).flatMap upperByte

/-- An entry of `hex_to_bin`. -/
def hexToBin (c : UInt8) : Int := (hexDigit (c &&& 127)).elim (-1) fun n => (n : Int)

def decodePairs : Text → Text
  | high :: low :: rest => UInt8.ofInt (hexToBin high * 16 + hexToBin low) :: decodePairs rest
  | _ => []

/-- `decode_uuid`, with `none` for a failed assertion. -/
def decodeUuid (uuidstr : Text) : Option Text :=
  if (cString uuidstr).length = 33 ∧ uuidstr.head? = some 64 then
    some (0 :: decodePairs (uuidstr.tail.take 32))
  else none

/-! The message class. -/

/-- A part as `recv` stores it. -/
def recvPart (frame : Text) : Text :=
  if frame.length = 17 ∧ frame.head? = some 0 then cString (encodeUuid frame) else frame

/-- A frame that `send` takes for a written address. -/
def Disguised (frame : Text) : Prop := frame.length = 33 ∧ frame.head? = some 64

instance (frame : Text) : Decidable (Disguised frame) := inferInstanceAs (Decidable (_ ∧ _))

/-- A part as `send` puts it on the wire. -/
def sendPart (data : Text) : Option Text :=
  if Disguised data then decodeUuid data else some data

def recv (frames : List Text) : List Text := frames.map recvPart

/-- `send`, with `none` if the process aborts on the way. -/
def send (parts : List Text) : Option (List Text) := parts.mapM sendPart

/-- `body()`, as a C string. -/
def body (parts : List Text) : Text := cString (parts.getLastD [])

def bodySet (text : Text) (parts : List Text) : List Text := parts.dropLast ++ [cString text]

/-! The worker. -/

/-- A text that `FastWriter` writes of an object: it starts with a brace, and every
control character is escaped. -/
structure ObjectText where
  text : Text
  opens : text.head? = some 123
  clean : 0 ∉ text

/-- What a worker does with a message. -/
inductive Outcome where
  | silent
  | aborted
  | replied (frames : List Text)
  deriving DecidableEq

/-- `worker_routine` for one message: one of three parts is answered. -/
def workerRoutine (processRequest : Text → ObjectText) (frames : List Text) : Outcome :=
  let msg := recv frames
  if msg.length = 3 then
    match send (bodySet (processRequest (body msg)).text msg) with
    | some frames => .replied frames
    | none => .aborted
  else .silent

/-! Written addresses read back. -/

private theorem hexToBin_upperChar {n : Nat} (small : n < 16) : hexToBin (upperChar n) = n := by
  have all : ∀ n < 16, hexToBin (upperChar n) = n := by decide
  exact all n small

private theorem upperChar_ne_nul {n : Nat} (small : n < 16) : upperChar n ≠ 0 := by
  have all : ∀ n < 16, upperChar n ≠ 0 := by decide
  exact all n small

private theorem decodePairs_upperByte (data : Text) :
    decodePairs (data.flatMap upperByte) = data := by
  induction data with
  | nil => rfl
  | cons c data ih =>
    have joined : ((c.toNat >>> 4 : Nat) : Int) * 16 + ((c.toNat &&& 15 : Nat) : Int) = c.toNat := by
      have halves := join_halves c
      rw [Nat.shiftLeft_eq, Nat.mul_comm, ← Nat.two_pow_add_eq_or_of_lt (and_lt c)] at halves
      omega
    rw [List.flatMap_cons, upperByte, List.cons_append, List.cons_append, List.nil_append,
      decodePairs, hexToBin_upperChar (shiftRight_lt c), hexToBin_upperChar (and_lt c), joined, ih]
    have byte : UInt8.ofInt (c.toNat : Int) = c := by
      have bound := c.toNat_lt
      have reduced : ((c.toNat : Int) % 2 ^ 8).toNat = c.toNat := by omega
      rw [UInt8.ofInt, reduced, UInt8.ofNat_toNat]
    rw [byte]

private theorem not_mem_upperByte (data : Text) : 0 ∉ data.flatMap upperByte := by
  intro mem
  obtain ⟨c, -, inside⟩ := List.mem_flatMap.mp mem
  rcases List.mem_pair.mp inside with nul | nul
  · exact upperChar_ne_nul (shiftRight_lt c) nul.symm
  · exact upperChar_ne_nul (and_lt c) nul.symm

private theorem sendPart_encodeUuid {frame : Text} (length : frame.length = 17)
    (first : frame.head? = some 0) : sendPart (cString (encodeUuid frame)) = some frame := by
  obtain ⟨data, rfl⟩ := List.head?_eq_some_iff.mp first
  have short : data.length = 16 := by simpa using length
  have whole : data.take 16 = data := List.take_of_length_le (Nat.le_of_eq short)
  have written : encodeUuid (0 :: data) = 64 :: data.flatMap upperByte := by
    rw [encodeUuid, List.tail_cons, whole]
  have size : (data.flatMap upperByte).length = 32 := by
    rw [length_flatMap_upperByte, short]
  have clean : 0 ∉ encodeUuid (0 :: data) := by
    rw [written]
    intro mem
    rcases List.mem_cons.mp mem with nul | inside
    · exact absurd nul (by decide)
    · exact not_mem_upperByte data inside
  have text : cString (encodeUuid (0 :: data)) = encodeUuid (0 :: data) := cString_of_clean clean
  have disguised : Disguised (encodeUuid (0 :: data)) := by
    rw [written]
    exact ⟨by rw [List.length_cons, size], rfl⟩
  have decoded : decodeUuid (encodeUuid (0 :: data)) = some (0 :: data) := by
    rw [decodeUuid, text, if_pos ⟨disguised.1, disguised.2⟩, written, List.tail_cons,
      List.take_of_length_le (Nat.le_of_eq size), decodePairs_upperByte]
  rw [text, sendPart, if_pos disguised, decoded]

private theorem length_decodePairs : ∀ s : Text, (decodePairs s).length = s.length / 2
  | [] => rfl
  | [_] => by simp [decodePairs]
  | high :: low :: rest => by
    rw [decodePairs, List.length_cons, length_decodePairs rest]
    simp only [List.length_cons]
    omega

private theorem sendPart_recvPart (frame : Text) :
    sendPart (recvPart frame) = some frame ↔ ¬ Disguised frame := by
  by_cases binary : frame.length = 17 ∧ frame.head? = some 0
  · have other : ¬ Disguised frame := by
      rintro ⟨length, -⟩
      omega
    rw [recvPart, if_pos binary, sendPart_encodeUuid binary.1 binary.2]
    exact iff_of_true rfl other
  · rw [recvPart, if_neg binary, sendPart]
    by_cases disguised : Disguised frame
    · rw [if_pos disguised]
      refine iff_of_false ?_ (not_not.mpr disguised)
      intro same
      -- what is sent in its place has seventeen bytes
      rw [decodeUuid, Option.ite_none_right_eq_some] at same
      have lengths := congrArg List.length (Option.some.inj same.2)
      rw [List.length_cons, length_decodePairs, List.length_take, List.length_tail,
        disguised.1] at lengths
      omega
    · rw [if_neg disguised]
      exact iff_of_true rfl disguised

private theorem sendPart_text (result : ObjectText) :
    sendPart (cString result.text) = some result.text := by
  have other : ¬ Disguised result.text := by
    rintro ⟨-, at64⟩
    rw [result.opens] at at64
    cases at64
  rw [cString_of_clean result.clean, sendPart, if_neg other]

private theorem send_cons {part frame : Text} {parts frames : List Text} :
    send (part :: parts) = some (frame :: frames) ↔
      sendPart part = some frame ∧ send parts = some frames := by
  simp only [send, List.mapM_cons, Option.bind_eq_bind, Option.pure_def, Option.bind_eq_some_iff,
    Option.some.injEq, List.cons.injEq]
  constructor
  · rintro ⟨a, first, l, rest, rfl, rfl⟩
    exact ⟨first, rest⟩
  · rintro ⟨first, rest⟩
    exact ⟨frame, first, frames, rest, rfl, rfl⟩

private theorem workerRoutine_three (processRequest : Text → ObjectText)
    (identity delimiter content : Text) (frames : List Text) :
    workerRoutine processRequest [identity, delimiter, content] = .replied frames ↔
      send [recvPart identity, recvPart delimiter,
        cString (processRequest (cString (recvPart content))).text] = some frames := by
  show (match send [recvPart identity, recvPart delimiter,
      cString (processRequest (cString (recvPart content))).text] with
    | some frames => Outcome.replied frames
    | none => .aborted) = .replied frames ↔ _
  generalize send _ = sent
  cases sent with
  | none => simp
  | some others => simp

/-- A request of three parts is answered with its first two frames and the result,
exactly if neither of the two looks like a written address. -/
theorem reply_returns_iff (processRequest : Text → ObjectText) (identity delimiter content : Text) :
    workerRoutine processRequest [identity, delimiter, content] =
        .replied [identity, delimiter, (processRequest (cString (recvPart content))).text] ↔
      ¬ Disguised identity ∧ ¬ Disguised delimiter := by
  have last : send [cString (processRequest (cString (recvPart content))).text] =
      some [(processRequest (cString (recvPart content))).text] :=
    send_cons.mpr ⟨sendPart_text _, rfl⟩
  rw [workerRoutine_three, send_cons, send_cons, sendPart_recvPart, sendPart_recvPart]
  exact ⟨fun sent => ⟨sent.1, sent.2.1⟩, fun others => ⟨others.1, others.2, last⟩⟩

/-- The identities of clients: those they may set, and those that are made up. -/
def ClientIdentity (identity : Text) : Prop :=
  (1 ≤ identity.length ∧ identity.length ≤ 255 ∧ identity.head? ≠ some 0) ∨
    (identity.length = 5 ∧ identity.head? = some 0)

/-- A client that calls itself `@` and 32 zeros is not answered: seventeen zero bytes
stand in the place of its identity. -/
theorem reply_returns_fails :
    ¬ ∀ (processRequest : Text → ObjectText) (identity delimiter content : Text),
      ClientIdentity identity →
      workerRoutine processRequest [identity, delimiter, content] =
        .replied [identity, delimiter, (processRequest (cString (recvPart content))).text] := by
  intro returns
  have result := returns (fun _ => ⟨[123, 125, 10], rfl, by decide⟩)
    (64 :: List.replicate 32 48) [] [] (.inl ⟨by decide, by decide, by decide⟩)
  have sent : workerRoutine (fun _ => ⟨[123, 125, 10], rfl, by decide⟩)
      [64 :: List.replicate 32 48, [], []] =
        .replied [List.replicate 17 0, [], [123, 125, 10]] := by decide
  rw [sent] at result
  exact absurd result (by decide)

end CbDaemon.Broker.Envelope
