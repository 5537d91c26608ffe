import OpenKeyV.Error
import OpenKeyV.Library.LittleEndian
import OpenKeyV.Library.SortBy
import OpenKeyV.Library.Utf8

/-!
# Structured values and their wire format

`encode` and `decode` follow `value/codec.rs`: a four-byte magic, then one
tagged value that must use up the payload.  Strings, byte strings, lists and
dictionaries carry a four-byte little-endian length.  Floats are kept as bit
patterns.
-/

namespace OpenKeyV

open Library

abbrev Bytes := List UInt8

inductive StructuredValue where
  | null
  | bool (value : Bool)
  | integer (value : Int64)
  | unsignedInteger (value : UInt64)
  | float (bits : UInt64)
  | string (value : String)
  | bytes (value : Bytes)
  | list (values : List StructuredValue)
  | dict (entries : List (String × StructuredValue))
  deriving Repr

def fromUtf8 (bytes : Bytes) : Option String :=
  String.fromUTF8? ⟨bytes.toArray⟩

namespace StructuredValue

def magic : Bytes := [0x4f, 0x4b, 0x56, 0x31]

def tagNull : UInt8 := 0
def tagFalse : UInt8 := 1
def tagTrue : UInt8 := 2
def tagInt : UInt8 := 3
def tagFloat : UInt8 := 4
def tagStr : UInt8 := 5
def tagBytes : UInt8 := 6
def tagList : UInt8 := 7
def tagDict : UInt8 := 8
def tagUint : UInt8 := 9

def writeLen (len : Nat) : Except Error Bytes :=
  if len < 2 ^ 32 then .ok (toLeBytes 4 len)
  else .error (.serialization "structured value is too large")

def keyBytes (key : String) : List Nat := (utf8 key).map UInt8.toNat

def sortEntries {α : Type} (entries : List (String × α)) :
    List (String × α) :=
  sortBy (fun entry => keyBytes entry.1) entries

def writeEntries : Option String → List (String × Except Error Bytes) →
    Except Error Bytes
  | _, [] => .ok []
  | previous, (key, value) :: entries =>
      if previous = some key then
        .error (.serialization s!"duplicate structured dict key: {key}")
      else do
        let len ← writeLen key.utf8ByteSize
        let value ← value
        let rest ← writeEntries (some key) entries
        return len ++ utf8 key ++ value ++ rest

mutual

/-- `encode_value`, as the bytes it appends. -/
def encodeValue : StructuredValue → Except Error Bytes
  | .null => .ok [tagNull]
  | .bool false => .ok [tagFalse]
  | .bool true => .ok [tagTrue]
  | .integer value => .ok (tagInt :: toLeBytes 8 value.toUInt64.toNat)
  | .unsignedInteger value => .ok (tagUint :: toLeBytes 8 value.toNat)
  | .float bits => .ok (tagFloat :: toLeBytes 8 bits.toNat)
  | .string value => do
      let len ← writeLen value.utf8ByteSize
      return tagStr :: (len ++ utf8 value)
  | .bytes value => do
      let len ← writeLen value.length
      return tagBytes :: (len ++ value)
  | .list values => do
      let len ← writeLen values.length
      let items ← encodeValues values
      return tagList :: (len ++ items)
  | .dict entries => do
      let len ← writeLen entries.length
      let items ← writeEntries none (sortEntries (encodeEntries entries))
      return tagDict :: (len ++ items)

def encodeValues : List StructuredValue → Except Error Bytes
  | [] => .ok []
  | value :: values => do
      let item ← encodeValue value
      let items ← encodeValues values
      return item ++ items

def encodeEntries :
    List (String × StructuredValue) → List (String × Except Error Bytes)
  | [] => []
  | (key, value) :: entries =>
      (key, encodeValue value) :: encodeEntries entries

end

def encode (value : StructuredValue) : Except Error Bytes := do
  let out ← encodeValue value
  return magic ++ out

structure Cursor where
  bytes : Bytes
  pos : Nat
  deriving DecidableEq, Repr

namespace Cursor

def new (bytes : Bytes) : Cursor := ⟨bytes, 0⟩

def remaining (cursor : Cursor) : Nat := cursor.bytes.length - cursor.pos

def readBytes (cursor : Cursor) (len : Nat) :
    Except Error (Bytes × Cursor) :=
  let finish := cursor.pos + len
  if 2 ^ 64 ≤ finish then
    .error (.deserialization "structured value length overflow")
  else if cursor.bytes.length < finish then
    .error (.deserialization "truncated structured value")
  else
    .ok ((cursor.bytes.drop cursor.pos).take len, { cursor with pos := finish })

def readU8 (cursor : Cursor) : Except Error (UInt8 × Cursor) := do
  let (bytes, cursor) ← cursor.readBytes 1
  return (bytes.headD 0, cursor)

def readLen (cursor : Cursor) : Except Error (Nat × Cursor) := do
  let (bytes, cursor) ← cursor.readBytes 4
  return (fromLeBytes bytes, cursor)

end Cursor

def decodeValues
    (decodeValue : Cursor → Except Error (StructuredValue × Cursor)) :
    Nat → Cursor → Except Error (List StructuredValue × Cursor)
  | 0, cursor => .ok ([], cursor)
  | len + 1, cursor => do
      let (value, cursor) ← decodeValue cursor
      let (values, cursor) ← decodeValues decodeValue len cursor
      return (value :: values, cursor)

def decodeEntries
    (decodeValue : Cursor → Except Error (StructuredValue × Cursor)) :
    Nat → List String → Cursor →
      Except Error (List (String × StructuredValue) × Cursor)
  | 0, _, cursor => .ok ([], cursor)
  | len + 1, keys, cursor => do
      let (keyLen, cursor) ← cursor.readLen
      let (keyBytes, cursor) ← cursor.readBytes keyLen
      match fromUtf8 keyBytes with
      | none => .error (.deserialization "invalid structured dict key")
      | some key =>
          if key ∈ keys then
            .error (.deserialization s!"duplicate structured dict key: {key}")
          else do
            let (value, cursor) ← decodeValue cursor
            let (entries, cursor) ←
              decodeEntries decodeValue len (key :: keys) cursor
            return ((key, value) :: entries, cursor)

/-- `decode_value`; the fuel bounds the nesting depth.  Every nested value
uses up at least one byte, so `decode` starts it with enough. -/
def decodeValue : Nat → Cursor → Except Error (StructuredValue × Cursor)
  | 0, _ => .error (.deserialization "structured value nesting too deep")
  | fuel + 1, cursor => do
      let (tag, cursor) ← cursor.readU8
      if tag = tagNull then return (.null, cursor)
      else if tag = tagFalse then return (.bool false, cursor)
      else if tag = tagTrue then return (.bool true, cursor)
      else if tag = tagInt then do
        let (payload, cursor) ← cursor.readBytes 8
        return (.integer (UInt64.ofNat (fromLeBytes payload)).toInt64, cursor)
      else if tag = tagUint then do
        let (payload, cursor) ← cursor.readBytes 8
        return (.unsignedInteger (UInt64.ofNat (fromLeBytes payload)), cursor)
      else if tag = tagFloat then do
        let (payload, cursor) ← cursor.readBytes 8
        return (.float (UInt64.ofNat (fromLeBytes payload)), cursor)
      else if tag = tagStr then do
        let (len, cursor) ← cursor.readLen
        let (payload, cursor) ← cursor.readBytes len
        match fromUtf8 payload with
        | none => .error (.deserialization "invalid structured UTF-8")
        | some text => return (.string text, cursor)
      else if tag = tagBytes then do
        let (len, cursor) ← cursor.readLen
        let (payload, cursor) ← cursor.readBytes len
        return (.bytes payload, cursor)
      else if tag = tagList then do
        let (len, cursor) ← cursor.readLen
        let (values, cursor) ← decodeValues (decodeValue fuel) len cursor
        return (.list values, cursor)
      else if tag = tagDict then do
        let (len, cursor) ← cursor.readLen
        let (entries, cursor) ← decodeEntries (decodeValue fuel) len [] cursor
        return (.dict entries, cursor)
      else
        .error (.deserialization s!"unknown structured value tag: {tag}")

def decode (wire : Bytes) : Except Error StructuredValue :=
  if magic.isPrefixOf wire then do
    let payload := wire.drop magic.length
    let (value, cursor) ← decodeValue (payload.length + 1) (.new payload)
    if cursor.remaining ≠ 0 then
      .error (.deserialization "trailing bytes in structured value")
    else return value
  else .error (.deserialization "invalid structured value header")

end StructuredValue

end OpenKeyV
