import OpenKeyV.Time
import OpenKeyV.Value.Codec

/-!
# Typed byte values

A protocol value is a kind and a payload.  `Value.new` checks the payload
against its kind as `value/mod.rs` does; `newUnchecked` is the constructor
that the typed constructors use.
-/

namespace OpenKeyV

inductive ValueKind where
  | binary
  | utf8
  | integer
  | unsignedInteger
  | float
  | bool
  | null
  | structured
  deriving DecidableEq, Repr

namespace ValueKind

def tag : ValueKind → UInt8
  | .binary => 0
  | .utf8 => 1
  | .integer => 2
  | .float => 3
  | .bool => 4
  | .null => 5
  | .structured => 6
  | .unsignedInteger => 7

def fromTag (tag : UInt8) : Option ValueKind :=
  if tag = 0 then some .binary
  else if tag = 1 then some .utf8
  else if tag = 2 then some .integer
  else if tag = 3 then some .float
  else if tag = 4 then some .bool
  else if tag = 5 then some .null
  else if tag = 6 then some .structured
  else if tag = 7 then some .unsignedInteger
  else none

def debug : ValueKind → String
  | .binary => "Binary"
  | .utf8 => "Utf8"
  | .integer => "Integer"
  | .unsignedInteger => "UnsignedInteger"
  | .float => "Float"
  | .bool => "Bool"
  | .null => "Null"
  | .structured => "Structured"

@[simp] theorem fromTag_tag (kind : ValueKind) :
    fromTag kind.tag = some kind := by
  cases kind <;> decide

end ValueKind

structure Value where
  kind : ValueKind
  bytes : Bytes
  deriving DecidableEq, Repr

namespace Value

def validateFixedWidth (bytes : Bytes) (expected : Nat) (label : String) :
    Except Error Unit :=
  if bytes.length = expected then .ok ()
  else .error (.invalidValue
    s!"invalid {label} payload length: expected {expected} bytes, got {bytes.length}")

def validatePayload (kind : ValueKind) (bytes : Bytes) : Except Error Unit :=
  match kind with
  | .binary => .ok ()
  | .utf8 =>
      match fromUtf8 bytes with
      | some _ => .ok ()
      | none => .error (.invalidValue "invalid UTF-8 payload")
  | .integer => validateFixedWidth bytes 8 "integer"
  | .unsignedInteger => validateFixedWidth bytes 8 "unsigned integer"
  | .float => validateFixedWidth bytes 8 "float"
  | .bool =>
      if bytes = [0] ∨ bytes = [1] then .ok ()
      else .error (.invalidValue
        "bool payload must be exactly one byte containing 0 or 1")
  | .null =>
      if bytes.isEmpty then .ok ()
      else .error (.invalidValue "null payload must be empty")
  | .structured =>
      match StructuredValue.decode bytes with
      | .ok _ => .ok ()
      | .error _ => .error (.invalidValue "invalid structured payload")

def newUnchecked (kind : ValueKind) (bytes : Bytes) : Value := ⟨kind, bytes⟩

def new (kind : ValueKind) (bytes : Bytes) : Except Error Value := do
  validatePayload kind bytes
  return newUnchecked kind bytes

def binary (bytes : Bytes) : Value := newUnchecked .binary bytes

def utf8 (value : String) : Value := newUnchecked .utf8 (Library.utf8 value)

def integer (value : Int64) : Value :=
  newUnchecked .integer (Library.toLeBytes 8 value.toUInt64.toNat)

def unsignedInteger (value : UInt64) : Value :=
  newUnchecked .unsignedInteger (Library.toLeBytes 8 value.toNat)

def float (bits : UInt64) : Value :=
  newUnchecked .float (Library.toLeBytes 8 bits.toNat)

def bool (value : Bool) : Value := newUnchecked .bool [value.toUInt8]

def null : Value := newUnchecked .null []

def fromStructured (value : StructuredValue) : Except Error Value := do
  let bytes ← value.encode
  return newUnchecked .structured bytes

def decodeStructured (value : Value) : Except Error StructuredValue :=
  if value.kind ≠ .structured then
    .error (.invalidValue
      s!"expected Structured kind, got {value.kind.debug}")
  else StructuredValue.decode value.bytes

/-- What the constructors of `Value` guarantee, for a payload that fits in
memory together with the header of its entry. -/
def Storable (value : Value) : Prop :=
  validatePayload value.kind value.bytes = .ok () ∧
    value.bytes.length + 31 < 2 ^ 64

end Value

end OpenKeyV
