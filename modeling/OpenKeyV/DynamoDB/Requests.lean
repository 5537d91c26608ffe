import OpenKeyV.DynamoDB.Items
import OpenKeyV.Library.Interaction
import OpenKeyV.Library.LastWrite
import OpenKeyV.Library.Segments

/-!
# The requests of `DynamoDBStore`

Each operation as the requests that it sends, one after the other, with its
readings of the clock in between.  A request is answered by the service, whose
answers the operation checks.
-/

namespace OpenKeyV.DynamoDB

open Library Library.Interaction

def maxBatchGet : Nat := 100

def maxBatchWrite : Nat := 25

def maxEnumeration : Nat := 10000

structure DynamoDBConfig where
  tableName : String
  defaultCollection : String
  deriving DecidableEq, Repr

abbrev PrimaryKey := String × String

inductive WriteRequest where
  | put (item : Item)
  | delete (key : PrimaryKey)
  deriving DecidableEq

inductive ServiceError where
  | conditionalCheckFailed
  | other (text : String)
  deriving DecidableEq, Repr

def ServiceError.text : ServiceError → String
  | .conditionalCheckFailed => "The conditional request failed"
  | .other text => text

structure BatchGetOutput where
  responses : List (String × List Item)
  unprocessed : Bool

structure Page where
  items : List Item
  lastEvaluatedKey : Option PrimaryKey

inductive Access where
  | getItem (key : PrimaryKey)
  | putItem (item : Item)
  | deleteItem (key : PrimaryKey)
  | deleteObserved (key : PrimaryKey) (entry : Bytes) (ttl : String)
  | batchGet (keys : List PrimaryKey)
  | batchGetKeys (keys : List PrimaryKey)
  | batchWrite (writes : List WriteRequest)
  | query (collection : String) (limit : Nat) (start : Option PrimaryKey)
  | scan (start : Option PrimaryKey)
  | now
  deriving DecidableEq

@[reducible] def Access.Answer : Access → Type
  | .getItem _ | .deleteItem _ => Except ServiceError (Option Item)
  | .putItem _ | .deleteObserved _ _ _ => Except ServiceError Unit
  | .batchGet _ | .batchGetKeys _ => Except ServiceError BatchGetOutput
  | .batchWrite _ => Except ServiceError Bool
  | .query _ _ _ | .scan _ => Except ServiceError Page
  | .now => DateTime

abbrev Requests := Calls Error Access.Answer

def sent {α : Type} (message : String) : Except ServiceError α → Except Error α
  | .ok a => .ok a
  | .error error => .error (.storeConnection (message ++ error.text))

def fail {α : Type} (error : Error) : Requests α := attempt (.error error)

def utcNow : Requests DateTime := access Access.now

def decodePhysicalKey (item : Item) : Except Error (String × String) :=
  if attributeNames item ≠ [collectionAttr, keyAttr] then
    .error (.deserialization ("DynamoDB key projection must contain exactly " ++
      "collection and key; found [" ++
      ", ".intercalate (attributeNames item) ++ "]"))
  else do
    let collection ← decodePhysicalIdentity
      (← projected "DynamoDB projected collection must be a string"
        collectionAttr) "collection" maxPhysicalCollectionBytes
    let key ← decodePhysicalIdentity
      (← projected "DynamoDB projected key must be a string" keyAttr) "key"
      maxPhysicalKeyBytes
    return (collection, key)
where
  projected (message name : String) : Except Error String :=
    match item.lookup name with
    | some (.s value) => .ok value
    | some _ => .error (.deserialization message)
    | none => .error (.deserialization
        s!"DynamoDB key projection is missing {name}")

namespace DynamoDBStore

section Reads

def deleteObservedExpired (item : DecodedItem) : Requests Unit := do
  match item.ttl with
  | none => fail (.deserialization (s!"expired DynamoDB item " ++
      s!"{item.collection}/{item.key} has no native ttl"))
  | some ttl => do
      let key ← attempt (tryPrimaryKey item.collection item.key)
      let answer ← access
        (Access.deleteObserved key item.encoded (toString ttl))
      match (answer : Except ServiceError Unit) with
      | .ok () | .error .conditionalCheckFailed => return ()
      | .error (.other text) => fail (.storeConnection
          (s!"failed to conditionally delete expired DynamoDB item " ++
            s!"{item.collection}/{item.key}: {text}"))

def readEntry (collection key : String) : Requests (Option ManagedEntry) := do
  let address ← attempt (tryPrimaryKey collection key)
  let output ← access (Access.getItem address)
  match ← attempt (sent s!"failed to read DynamoDB item {collection}/{key}: "
      output) with
  | none => return none
  | some item => do
      let decoded ← attempt (decodeItem item)
      if decoded.collection ≠ collection ∨ decoded.key ≠ key then
        fail (.deserialization (s!"DynamoDB get_item for {collection}/{key} " ++
          s!"returned {decoded.collection}/{decoded.key}"))
      else do
        let time ← utcNow
        if decoded.entry.isExpired time then do
          deleteObservedExpired decoded
          return none
        else return some decoded.entry

def uniqueKeys (keys : List String) : List String := distinctFrom id [] keys

def checkKeys (collection : String) : List String → Except Error Unit
  | [] => .ok ()
  | key :: keys => do
      let _ ← tryPrimaryKey collection key
      checkKeys collection keys

def requestKeys (collection : String) :
    List String → Except Error (List PrimaryKey)
  | [] => .ok []
  | key :: keys => do
      let address ← tryPrimaryKey collection key
      let addresses ← requestKeys collection keys
      return address :: addresses

def collectItems (collection : String) (requested : List String) :
    List Item → KeyedMap String DecodedItem →
      Except Error (KeyedMap String DecodedItem)
  | [], decoded => .ok decoded
  | item :: items, decoded => do
      let entry ← decodeItem item
      if entry.collection ≠ collection ∨ entry.key ∉ requested then
        .error (.deserialization (s!"DynamoDB batch read in {collection} " ++
          s!"returned unrelated item {entry.collection}/{entry.key}"))
      else if (decoded.lookup entry.key).isSome then
        .error (.deserialization (s!"DynamoDB batch read returned " ++
          s!"{collection}/{entry.key} more than once"))
      else
        collectItems collection requested items
          (decoded.insert entry.key entry)

def collectResponses (config : DynamoDBConfig) (collection : String)
    (requested : List String) :
    List (String × List Item) → KeyedMap String DecodedItem →
      Except Error (KeyedMap String DecodedItem)
  | [], decoded => .ok decoded
  | (table, items) :: responses, decoded => do
      if table ≠ config.tableName then
        .error (.storeConnection (s!"DynamoDB batch read for " ++
          s!"{config.tableName} returned unrelated table {table}"))
      else do
        let decoded ← collectItems collection requested items decoded
        collectResponses config collection requested responses decoded

def readChunks (config : DynamoDBConfig) (collection : String) :
    List (List String) → KeyedMap String DecodedItem →
      Requests (KeyedMap String DecodedItem)
  | [], decoded => return decoded
  | chunk :: chunks, decoded => do
      let addresses ← attempt (requestKeys collection chunk)
      let answer ← access (Access.batchGet addresses)
      let output ← attempt (sent
        s!"failed to batch read DynamoDB items in {collection}: " answer)
      if output.unprocessed then
        fail (.storeConnection (s!"DynamoDB batch read in {collection} " ++
          "returned unprocessed keys"))
      else do
        let decoded ← attempt (collectResponses config collection chunk
          output.responses decoded)
        readChunks config collection chunks decoded

structure MapOrder where
  arrange : List (String × DecodedItem) → List (String × DecodedItem)
  perm : ∀ items, (arrange items).Perm items

def expiredItems :
    List (String × DecodedItem) → Requests (List (String × DecodedItem))
  | [] => return []
  | (key, item) :: items => do
      let time ← utcNow
      let expired ← expiredItems items
      return if item.entry.isExpired time then (key, item) :: expired
        else expired

def removeExpired :
    List (String × DecodedItem) → KeyedMap String DecodedItem →
      Requests (KeyedMap String DecodedItem)
  | [], decoded => return decoded
  | (key, item) :: expired, decoded => do
      deleteObservedExpired item
      removeExpired expired (decoded.erase key)

def readEntries (config : DynamoDBConfig) (order : MapOrder)
    (collection : String) (keys : List String) :
    Requests (KeyedMap String ManagedEntry) := do
  let unique := uniqueKeys keys
  attempt (checkKeys collection unique)
  let decoded ← readChunks config collection (chunks maxBatchGet unique) ∅
  let expired ← expiredItems
    (order.arrange (decoded.entries.map fun item => (item.1, item.2)))
  let decoded ← removeExpired expired decoded
  return decoded.mapValues DecodedItem.entry

end Reads

section Writes

def newEntry (value : Value) (ttl : Option F64) : Requests ManagedEntry := do
  let time ← utcNow
  attempt (ManagedEntry.ofTtl time value ttl)

def selectLast (keys : List String) (values : List Value) :
    List (String × Value) :=
  (distinctFrom Prod.fst [] (keys.zip values).reverse).reverse

def prepareItems (collection : String) (ttl : Option F64) :
    List (String × Value) → Requests (List Item)
  | [] => return []
  | (key, value) :: selected => do
      let entry ← newEntry value ttl
      let item ← attempt (tryEncodeItem collection key entry)
      let items ← prepareItems collection ttl selected
      return item :: items

def writeChunk (failed unprocessed : String) (writes : List WriteRequest) :
    Requests Unit := do
  let answer ← access (Access.batchWrite writes)
  let left ← attempt (sent failed answer)
  if left then fail (.storeConnection unprocessed)
  else return ()

def putChunks (collection : String) : List (List Item) → Requests Unit
  | [] => return ()
  | chunk :: chunks => do
      writeChunk s!"failed to batch write DynamoDB items in {collection}: "
        s!"DynamoDB batch write in {collection} returned unprocessed items"
        (chunk.map .put)
      putChunks collection chunks

def deleteChunks (collection : String) : List (List String) → Requests Unit
  | [] => return ()
  | chunk :: chunks => do
      let addresses ← attempt (requestKeys collection chunk)
      writeChunk s!"failed to batch delete DynamoDB items in {collection}: "
        s!"DynamoDB batch delete in {collection} returned unprocessed items"
        (addresses.map .delete)
      deleteChunks collection chunks

def collectKeys (collection : String) (requested : List String) :
    List Item → List String → Except Error (List String)
  | [], existing => .ok existing
  | item :: items, existing => do
      let (found, key) ← decodePhysicalKey item
      if found ≠ collection ∨ key ∉ requested then
        .error (.deserialization (s!"DynamoDB delete existence read in " ++
          s!"{collection} returned unrelated item {found}/{key}"))
      else if key ∈ existing then
        .error (.deserialization (s!"DynamoDB delete existence read " ++
          s!"returned {collection}/{key} more than once"))
      else collectKeys collection requested items (key :: existing)

def collectKeyResponses (config : DynamoDBConfig) (collection : String)
    (requested : List String) :
    List (String × List Item) → List String → Except Error (List String)
  | [], existing => .ok existing
  | (table, items) :: responses, existing => do
      if table ≠ config.tableName then
        .error (.storeConnection (s!"DynamoDB delete existence read for " ++
          s!"{config.tableName} returned unrelated table {table}"))
      else do
        let existing ← collectKeys collection requested items existing
        collectKeyResponses config collection requested responses existing

def existingChunks (config : DynamoDBConfig) (collection : String) :
    List (List String) → List String → Requests (List String)
  | [], existing => return existing
  | chunk :: chunks, existing => do
      let addresses ← attempt (requestKeys collection chunk)
      let answer ← access (Access.batchGetKeys addresses)
      let output ← attempt (sent
        s!"failed to read DynamoDB delete candidates in {collection}: " answer)
      if output.unprocessed then
        fail (.storeConnection (s!"DynamoDB delete existence read in " ++
          s!"{collection} returned unprocessed keys"))
      else do
        let existing ← attempt (collectKeyResponses config collection chunk
          output.responses existing)
        existingChunks config collection chunks existing

end Writes

section Operations

variable (config : DynamoDBConfig) (order : MapOrder)

def collectionName (collection : Option String) : String :=
  collection.getD config.defaultCollection

def get (key : String) (collection : Option String) :
    Requests (Option Value) := do
  let entry ← readEntry (collectionName config collection) key
  return entry.map ManagedEntry.value

def ttl (key : String) (collection : Option String) :
    Requests (Option (Value × Option F64)) := do
  match ← readEntry (collectionName config collection) key with
  | none => return none
  | some entry => do
      let time ← utcNow
      return some (entry.value, entry.ttl time)

def put (key : String) (value : Value) (collection : Option String)
    (ttl : Option F64) : Requests Unit := do
  let cname := collectionName config collection
  let entry ← newEntry value ttl
  let item ← attempt (tryEncodeItem cname key entry)
  let answer ← access (Access.putItem item)
  attempt (sent s!"failed to write DynamoDB item {cname}/{key}: " answer)

def delete (key : String) (collection : Option String) : Requests Bool := do
  let cname := collectionName config collection
  let address ← attempt (tryPrimaryKey cname key)
  let answer ← access (Access.deleteItem address)
  let attributes ← attempt (sent
    s!"failed to delete DynamoDB item {cname}/{key}: " answer)
  return attributes.isSome

def getMany (keys : List String) (collection : Option String) :
    Requests (List (Option Value)) := do
  let entries ← readEntries config order (collectionName config collection)
    keys
  return keys.map fun key => (entries.lookup key).map ManagedEntry.value

def ttlEach (entries : KeyedMap String ManagedEntry) :
    List String → Requests (List (Option (Value × Option F64)))
  | [] => return []
  | key :: keys => do
      match entries.lookup key with
      | none => do
          let rest ← ttlEach entries keys
          return none :: rest
      | some entry => do
          let time ← utcNow
          let rest ← ttlEach entries keys
          return some (entry.value, entry.ttl time) :: rest

def ttlMany (keys : List String) (collection : Option String) :
    Requests (List (Option (Value × Option F64))) := do
  let entries ← readEntries config order (collectionName config collection)
    keys
  ttlEach entries keys

def validateOptionalTtl : Option F64 → Requests Unit
  | none => return ()
  | some seconds => do
      let time ← utcNow
      attempt (ManagedEntry.validateTtl time seconds)

def putMany (keys : List String) (values : List Value)
    (collection : Option String) (ttl : Option F64) : Requests Unit := do
  if keys.length ≠ values.length then
    fail (.batchSizeMismatch keys.length values.length)
  else do
    validateOptionalTtl ttl
    let cname := collectionName config collection
    let items ← prepareItems cname ttl (selectLast keys values)
    putChunks cname (chunks maxBatchWrite items)

def deleteMany (keys : List String) (collection : Option String) :
    Requests Nat := do
  let cname := collectionName config collection
  let unique := uniqueKeys keys
  attempt (checkKeys cname unique)
  let existing ← existingChunks config cname (chunks maxBatchGet unique) []
  deleteChunks cname (chunks maxBatchWrite
    (unique.filter fun key => existing.contains key))
  return existing.length

end Operations

end DynamoDBStore

end OpenKeyV.DynamoDB
