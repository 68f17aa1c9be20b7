/- module: CbDaemon/Codec/Json
   source: json/value.h as the daemon uses it
   digest: JSON values, the conversions of their fields and the layer that carries them. -/

import CbDaemon.Base.Machine
import CbDaemon.Codec.Integer
import CbDaemon.Codec.Utf8

set_option autoImplicit false
set_option relaxedAutoImplicit false

namespace CbDaemon.Codec.Json
open Base.Machine Integer Utf8

/-- `Json::Value`. A number with a fraction or an exponent is a `double`, kept
with the text that is written for it. -/
inductive Value where
  | null
  | bool (b : Bool)
  | int (n : Int)
  | real (value : Dyadic) (text : Text)
  | string (s : Text)
  | array (items : List Value)
  | object (members : List (String × Value))

namespace Value

def member (members : List (String × Value)) (key : String) : Value :=
  (members.lookup key).getD .null

/-- `operator[]` with a key, which only an object and null have. -/
def get (value : Value) (key : String) : Except String Value :=
  match value with
  | .null => .ok .null
  | .object members => .ok (member members key)
  | _ => .error "in Json::Value::resolveReference(key, end): requires objectValue"

def intText (n : Int) : Text := if n < 0 then 45 :: decimal n.natAbs else decimal n.natAbs

def asString : Value → Except String Text
  | .null => .ok []
  | .bool b => .ok (ascii (if b then "true" else "false"))
  | .int n => .ok (intText n)
  | .real _ text => .ok text
  | .string s => .ok s
  | _ => .error "Type is not convertible to string"

def asRange (name : String) (low high : Int) : Value → Except String Int
  | .null => .ok 0
  | .bool b => .ok (if b then 1 else 0)
  | .int n =>
    if low ≤ n ∧ n ≤ high then .ok n else .error ("LargestInt out of " ++ name ++ " range")
  | .real x _ =>
    if Dyadic.ofInt low ≤ x ∧ x ≤ Dyadic.ofInt high then .ok (truncate x)
    else .error ("double out of " ++ name ++ " range")
  | _ => .error ("Value is not convertible to " ++ name ++ ".")

def asUInt : Value → Except String Int := asRange "UInt" 0 (2 ^ 32 - 1)

def asInt : Value → Except String Int := asRange "Int" (-2 ^ 31) (2 ^ 31 - 1)

def asBool : Value → Except String Bool
  | .null => .ok false
  | .bool b => .ok b
  | .int n => .ok (n != 0)
  | .real x _ => .ok (x != 0)
  | _ => .error "Value is not convertible to bool."

def size : Value → Nat
  | .array items => items.length
  | .object members => members.length
  | _ => 0

/-- What a range-based `for` over a value visits. -/
def elements : Value → List Value
  | .array items => items
  | .object members => members.map (·.2)
  | _ => []

/-- The lookup of a key, which only an object and null allow. -/
def find (value : Value) (key : String) : Except String (Option Value) :=
  match value with
  | .null => .ok none
  | .object members => .ok (members.lookup key)
  | _ => .error "in Json::Value::find(key, end, found): requires objectValue or nullValue"

/-- `get(key, defaultValue)`. -/
def getOr (value : Value) (key : String) (defaultValue : Value) : Except String Value :=
  (value.find key).map (·.getD defaultValue)

def isMember (value : Value) (key : String) : Except String Bool := (value.find key).map (·.isSome)

/-- `==` with a text. -/
def isText (value : Value) (text : String) : Bool :=
  match value with
  | .string s => s == ascii text
  | _ => false

/-- An integer as a `double` holds it: 53 significant bits, the nearest, and of two
nearest the even one. -/
def toDouble (n : Int) : Dyadic :=
  let unit := 2 ^ (n.natAbs.log2 - 52)
  let up := unit < 2 * (n.natAbs % unit) ∨
    (2 * (n.natAbs % unit) = unit ∧ n.natAbs / unit % 2 = 1)
  Dyadic.ofInt (n.sign * ((if up then n.natAbs / unit + 1 else n.natAbs / unit) * unit : Nat))

def asDouble : Value → Except String Dyadic
  | .null => .ok 0
  | .bool b => .ok (if b then 1 else 0)
  | .int n => .ok (toDouble n)
  | .real x _ => .ok x
  | _ => .error "Value is not convertible to double."

/-- A value that every layer keeps: a truth value, an integer of 64 bits or a
text of well-formed UTF-8. -/
def Carried : Value → Prop
  | .null => True
  | .bool _ => True
  | .int n => -2 ^ 63 ≤ n ∧ n < 2 ^ 64
  | .string s => ValidUtf8 s
  | _ => False

end Value

/-- What becomes of a value that is written as text and parsed again. -/
structure Transfer where
  transfer : Value → Value
  transfer_object : ∀ members : List (String × Value), (∀ field ∈ members, field.2.Carried) →
    transfer (.object members) = .object members

def Transfer.exact : Transfer := ⟨id, fun _ _ => rfl⟩

namespace Value

@[simp] theorem get_object (members : List (String × Value)) (key : String) :
    (Value.object members).get key = .ok (member members key) := rfl

@[simp] theorem asString_string (s : Text) : (Value.string s).asString = .ok s := rfl

theorem asUInt_int {n : Int} (low : 0 ≤ n) (high : n < 2 ^ 32) : (Value.int n).asUInt = .ok n :=
  if_pos ⟨low, by omega⟩

theorem asInt_int {n : Int} (fits : FitsInt n) : (Value.int n).asInt = .ok n :=
  if_pos ⟨fits.1, by have := fits.2; omega⟩

end Value

end CbDaemon.Codec.Json
