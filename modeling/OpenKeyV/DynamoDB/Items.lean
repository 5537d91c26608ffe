import OpenKeyV.Entry.Exact
import OpenKeyV.Library.Decimal
import OpenKeyV.Library.Hex
import OpenKeyV.Library.KeyedMap
import OpenKeyV.Library.SortBy
import OpenKeyV.Library.Text
import OpenKeyV.Library.Utf8

/-!
# The items of `DynamoDBStore`

An item holds the physical names of its collection and its key, the encoded
entry, and the second at which DynamoDB may drop it.
-/

namespace OpenKeyV.DynamoDB

open Library

def collectionAttr : String := "collection"

def keyAttr : String := "key"

def entryAttr : String := "entry"

def ttlAttr : String := "ttl"

def physicalPrefix : String := "okv1-"

def maxPhysicalCollectionBytes : Nat := 2048

def maxPhysicalKeyBytes : Nat := 1024

inductive AttributeValue where
  | s (value : String)
  | n (value : String)
  | b (value : Bytes)
  | other
  deriving DecidableEq, Repr

abbrev Item := KeyedMap String AttributeValue

structure DecodedItem where
  collection : String
  key : String
  entry : ManagedEntry
  encoded : Bytes
  ttl : Option Int
  deriving DecidableEq, Repr

def encodePhysicalIdentity (value kind : String) (maxBytes : Nat) :
    Except Error String :=
  let physical := physicalPrefix ++ Hex.encode (utf8 value)
  if maxBytes < physical.utf8ByteSize then
    .error (.invalidKey (s!"DynamoDB physical {kind} exceeds {maxBytes} " ++
      s!"bytes: {physical.utf8ByteSize}"))
  else .ok physical

def decodePhysicalIdentity (value kind : String) (maxBytes : Nat) :
    Except Error String :=
  if maxBytes < value.utf8ByteSize then
    .error (.invalidKey (s!"DynamoDB physical {kind} exceeds {maxBytes} " ++
      s!"bytes: {value.utf8ByteSize}"))
  else
    match stripPrefix physicalPrefix value with
    | none => .error (.invalidKey (s!"DynamoDB physical {kind} is missing " ++
        "the \"okv1-\" prefix"))
    | some encoded =>
        if encoded.utf8ByteSize % 2 ≠ 0 then
          .error (.invalidKey (s!"DynamoDB physical {kind} has an " ++
            "odd-length hexadecimal payload"))
        else
          match Hex.decode encoded with
          | none => .error (.invalidKey (s!"DynamoDB physical {kind} must " ++
              "use lowercase hexadecimal"))
          | some bytes =>
              match ofUtf8 bytes with
              | none => .error (.invalidKey (s!"DynamoDB physical {kind} " ++
                  "is not valid UTF-8: "))
              | some logical => do
                  let canonical ← encodePhysicalIdentity logical kind maxBytes
                  if canonical ≠ value then
                    .error (.invalidKey
                      s!"DynamoDB physical {kind} is not canonical")
                  else return logical

def tryPrimaryKey (collection key : String) :
    Except Error (String × String) := do
  let collection ← encodePhysicalIdentity collection "collection"
    maxPhysicalCollectionBytes
  let key ← encodePhysicalIdentity key "key" maxPhysicalKeyBytes
  return (collection, key)

/-- `div_euclid` and `rem_euclid` are the division of `Int`. -/
def nativeTtlSeconds (expiresAtMillis : Int) : Int :=
  expiresAtMillis / 1000 + if expiresAtMillis % 1000 ≠ 0 then 1 else 0

def nativeTtl (entry : ManagedEntry) : Option Int :=
  entry.expiresAt.map fun expires => nativeTtlSeconds expires.timestampMillis

def tryEncodeItem (collection key : String) (entry : ManagedEntry) :
    Except Error Item := do
  let (physicalCollection, physicalKey) ← tryPrimaryKey collection key
  let item : Item := (((∅ : Item).insert collectionAttr (.s physicalCollection)
    ).insert keyAttr (.s physicalKey)).insert entryAttr (.b entry.encode)
  match nativeTtl entry with
  | some seconds => return item.insert ttlAttr (.n (toString seconds))
  | none => return item

def attributeNames (item : Item) : List String :=
  sortBy (fun name => (utf8 name).map UInt8.toNat) item.keys

def validShape (item : Item) : Bool :=
  (item.keys.length == 3 || item.keys.length == 4) &&
    item.keys.all (fun name => [collectionAttr, keyAttr, entryAttr,
      ttlAttr].contains name) &&
    item.keys.contains collectionAttr && item.keys.contains keyAttr &&
    item.keys.contains entryAttr

def stringAttribute (item : Item) (name : String) : Except Error String :=
  match item.lookup name with
  | some (.s value) => .ok value
  | some _ => .error (.deserialization
      s!"DynamoDB item {name} must be a string")
  | none => .error (.deserialization s!"DynamoDB item is missing {name}")

def entryAttribute (item : Item) : Except Error Bytes :=
  match item.lookup entryAttr with
  | some (.b value) => .ok value
  | some _ => .error (.deserialization "DynamoDB item entry must be binary")
  | none => .error (.deserialization "DynamoDB item is missing entry")

def ttlAttribute (item : Item) : Except Error (Option Int) :=
  match item.lookup ttlAttr with
  | some (.n value) =>
      match parseSigned 64 value with
      | some seconds => .ok (some seconds)
      | none => .error (.deserialization
          s!"DynamoDB item ttl must be an integer, found {value}")
  | some _ => .error (.deserialization "DynamoDB item ttl must be a number")
  | none => .ok none

def debugTtl : Option Int → String
  | some seconds => s!"Some({seconds})"
  | none => "None"

def decodeItem (item : Item) : Except Error DecodedItem :=
  if validShape item = false then
    .error (.deserialization ("DynamoDB item must contain exactly " ++
      "collection, key, entry, and optional ttl; found [" ++
      ", ".intercalate (attributeNames item) ++ "]"))
  else do
    let collection ← decodePhysicalIdentity
      (← stringAttribute item collectionAttr) "collection"
      maxPhysicalCollectionBytes
    let key ← decodePhysicalIdentity (← stringAttribute item keyAttr) "key"
      maxPhysicalKeyBytes
    let encoded ← entryAttribute item
    let ttl ← ttlAttribute item
    match ManagedEntry.decode encoded with
    | .error error => .error (.deserialization ("failed to decode OpenKeyV " ++
        s!"entry in DynamoDB item {collection}/{key}: {error.text}"))
    | .ok entry =>
        if ttl ≠ nativeTtl entry then
          .error (.deserialization (s!"DynamoDB item {collection}/{key} " ++
            s!"ttl {debugTtl ttl} does not match embedded expiration " ++
            s!"{debugTtl (nativeTtl entry)}"))
        else return ⟨collection, key, entry, encoded, ttl⟩

section NativeTtl

variable (millis : Int)

theorem nativeTtlSeconds_bounds :
    millis ≤ nativeTtlSeconds millis * 1000 ∧
      nativeTtlSeconds millis * 1000 < millis + 1000 := by
  unfold nativeTtlSeconds
  split <;> omega

theorem nativeTtlSeconds_range (hlow : -2 ^ 63 ≤ millis)
    (hhigh : millis < 2 ^ 63) :
    -2 ^ 63 ≤ nativeTtlSeconds millis ∧ nativeTtlSeconds millis < 2 ^ 63 := by
  obtain ⟨hlower, hupper⟩ := nativeTtlSeconds_bounds millis
  omega

end NativeTtl

theorem decodeItem_eq_ok {item : Item} {decoded : DecodedItem}
    (h : decodeItem item = .ok decoded) :
    item.lookup entryAttr = some (.b decoded.encoded) ∧
      ManagedEntry.decode decoded.encoded = .ok decoded.entry ∧
      decoded.ttl = nativeTtl decoded.entry := by
  unfold decodeItem at h
  split at h
  · cases h
  · obtain ⟨_, -, h⟩ := bind_eq_ok.mp h
    obtain ⟨collection, -, h⟩ := bind_eq_ok.mp h
    obtain ⟨_, -, h⟩ := bind_eq_ok.mp h
    obtain ⟨key, -, h⟩ := bind_eq_ok.mp h
    obtain ⟨encoded, hencoded, h⟩ := bind_eq_ok.mp h
    obtain ⟨ttl, -, h⟩ := bind_eq_ok.mp h
    split at h
    · cases h
    · rename_i entry hentry
      split at h
      · cases h
      · rename_i httl
        cases h
        refine ⟨?_, hentry, not_ne_iff.mp httl⟩
        unfold entryAttribute at hencoded
        split at hencoded
        · rename_i value hvalue
          cases hencoded
          exact hvalue
        · cases hencoded
        · cases hencoded

end OpenKeyV.DynamoDB
