import OpenKeyV.Library.Hex
import OpenKeyV.Library.Interaction
import OpenKeyV.Library.Text
import OpenKeyV.Library.Utf8
import OpenKeyV.Mongo.Database
import OpenKeyV.Postgres.Store
import Mathlib.Data.Finset.Erase
import Mathlib.Data.Finset.Insert

/-!
# `MongoDBStore`, one request at a time

The calls of `store/mongodb/store.rs`.  A call sets its collection up first:
it holds the lock of `initialized_collections` while it looks at the indexes
and makes those that are missing, and a name that the set holds is set up
already.
-/

namespace OpenKeyV.Mongo

open Library Library.Interaction

def keyIndexName : String := "openkeyv_key_unique"

def ttlIndexName : String := "openkeyv_expires_ttl"

def collectionPrefix : String := "okv1-"

def maxNamespaceBytes : Nat := 235

def encodeCollectionName (databaseName collection : String) :
    Except Error String :=
  let namespaceLen := databaseName.utf8ByteSize + 1 +
    (collectionPrefix.utf8ByteSize + collection.utf8ByteSize * 2)
  if maxNamespaceBytes < namespaceLen then
    .error (.invalidKey (s!"MongoDB collection namespace exceeds " ++
      s!"{maxNamespaceBytes} bytes: {namespaceLen}"))
  else .ok (collectionPrefix ++ Hex.encode (utf8 collection))

def decodeCollectionName (databaseName physical : String) :
    Except Error (Option (String × String)) :=
  match stripPrefix collectionPrefix physical with
  | none => .ok none
  | some encoded =>
      let namespaceLen := databaseName.utf8ByteSize + 1 +
        physical.utf8ByteSize
      if maxNamespaceBytes < namespaceLen then
        .error (.invalidKey (s!"MongoDB physical collection namespace " ++
          s!"exceeds {maxNamespaceBytes} bytes: {namespaceLen}"))
      else if encoded.utf8ByteSize % 2 ≠ 0 then
        .error (.invalidKey
          "MongoDB physical collection has an odd hexadecimal length")
      else
        match Hex.decode encoded with
        | none => .error (.invalidKey
            "MongoDB physical collection must use lowercase hexadecimal")
        | some bytes =>
            match ofUtf8 bytes with
            | none => .error (.invalidKey
                "MongoDB physical collection is not valid UTF-8")
            | some logical => do
                let canonical ← encodeCollectionName databaseName logical
                if canonical ≠ physical then
                  .error (.invalidKey
                    "MongoDB physical collection is not canonical")
                else return some (physical, logical)

def keyIndex : IndexModel :=
  ⟨[("key", 1)], { name := some keyIndexName, unique := some true }⟩

def ttlIndex : IndexModel :=
  ⟨[("expires_at", 1)], { name := some ttlIndexName, expireAfter := some 0 }⟩

def IndexOptions.plain (options : IndexOptions) : Bool :=
  decide (options.sparse ≠ some true) &&
    options.partialFilterExpression.isNone && options.collation.isNone &&
    decide (options.hidden ≠ some true)

def validKeyIndex (index : IndexModel) : Bool :=
  decide (index.keys = keyIndex.keys) &&
    decide (index.options.name = some keyIndexName) &&
    decide (index.options.unique = some true) &&
    index.options.expireAfter.isNone && index.options.plain

def validTtlIndex (index : IndexModel) : Bool :=
  decide (index.keys = ttlIndex.keys) &&
    decide (index.options.name = some ttlIndexName) &&
    decide (index.options.expireAfter = some 0) &&
    decide (index.options.unique ≠ some true) && index.options.plain

def inspectIndexes (collection : String) :
    List IndexModel → Bool × Bool → Except Error (Bool × Bool)
  | [], found => .ok found
  | index :: indexes, (keyIndexFound, ttlIndexFound) =>
      if index.keys = keyIndex.keys ∨
          index.options.name = some keyIndexName then
        if validKeyIndex index = false ∨ keyIndexFound = true then
          .error (.storeSetup (s!"MongoDB collection {collection} has an " ++
            "invalid or duplicate key index"))
        else inspectIndexes collection indexes (true, ttlIndexFound)
      else if index.keys = ttlIndex.keys ∨
          index.options.name = some ttlIndexName then
        if validTtlIndex index = false ∨ ttlIndexFound = true then
          .error (.storeSetup (s!"MongoDB collection {collection} has an " ++
            "invalid or duplicate TTL index"))
        else inspectIndexes collection indexes (keyIndexFound, true)
      else inspectIndexes collection indexes (keyIndexFound, ttlIndexFound)

structure StoredDocument where
  document : Document
  entry : ManagedEntry
  deriving DecidableEq, Repr

def entryDocument (key : String) (entry : ManagedEntry) : EntryDocument :=
  ⟨key, entry.encode, entry.expiresAt.map DateTime.timestampMillis⟩

def decodeDocument (document : Document) (expectedKey : Option String) :
    Except Error StoredDocument :=
  match expectedKey.filter (· != document.key) with
  | some expected => .error (.deserialization
      s!"MongoDB query for key {expected} returned key {document.key}")
  | none =>
      match ManagedEntry.decode document.entry with
      | .error error => .error (.deserialization
          ("failed to decode MongoDB OKVE1 entry for key " ++
            s!"{document.key}: {error.text}"))
      | .ok entry =>
          if document.expiresAt ≠
              entry.expiresAt.map DateTime.timestampMillis then
            .error (.deserialization ("MongoDB expires_at does not match " ++
              s!"OKVE1 metadata for key {document.key}"))
          else .ok ⟨document, entry⟩

inductive Access where
  | now
  /-- `initialized_collections().lock()` of a store: its guard. -/
  | lock (store : Nat)
  | unlock (store : Nat) (initialized : Finset String)
  | send (message : Request)

@[reducible] def Access.Answer : Access → Type
  | .now => DateTime
  | .lock _ => Finset String
  | .unlock _ _ => Unit
  | .send message => message.Reply

abbrev Requests := Calls Error Access.Answer

def utcNow : Requests DateTime := access Access.now

def send (message : Request) : Requests message.Reply :=
  access (Access.send message)

structure MongoDBConfig where
  defaultCollection : String
  deriving DecidableEq, Repr

structure MongoDBStore where
  number : Nat
  databaseName : String
  config : MongoDBConfig
  deriving DecidableEq, Repr

structure MapOrder where
  arrange : List ((String × Value) × Nat) → List ((String × Value) × Nat)
  perm : ∀ items, (arrange items).Perm items

namespace MongoDBStore

section Collections

variable (store : MongoDBStore)

def collectionName (collection : Option String) : String :=
  collection.getD store.config.defaultCollection

def ownedNames :
    List String → Except Error (List (String × String))
  | [] => .ok []
  | name :: names => do
      let decoded ← decodeCollectionName store.databaseName name
      let owned ← ownedNames names
      return match decoded with
        | some identity => identity :: owned
        | none => owned

def ownedCollectionNames : Requests (List (String × String)) := do
  let names ← send (.listCollectionNames none)
  attempt (store.ownedNames names)

def inspectCollectionIndexes (name : String) : Requests (Bool × Bool) := do
  match ← send (.listIndexes name) with
  | none => attempt (.error (.storeSetup
      s!"failed to inspect MongoDB indexes for {name}: "))
  | some indexes => attempt (inspectIndexes name indexes (false, false))

def inspectExisting (name : String) (exists? : Bool) :
    Requests (Bool × Bool) :=
  if exists? then inspectCollectionIndexes name else return (false, false)

def createMissing (name : String) (missingIndexes : List IndexModel) :
    Requests Unit := do
  if missingIndexes.isEmpty then return ()
  else
    match ← send (.createIndexes name missingIndexes) with
    | none => attempt (.error (.storeSetup
        s!"failed to create MongoDB indexes for collection {name}: "))
    | some () => return ()

def setUp (name : String) : Requests Unit := do
  let names ← send (.listCollectionNames (some name))
  let (keyIndexFound, ttlIndexFound) ← inspectExisting name (!names.isEmpty)
  createMissing name ((if keyIndexFound then [] else [keyIndex]) ++
    (if ttlIndexFound then [] else [ttlIndex]))
  let (keyIndexFound, ttlIndexFound) ← inspectCollectionIndexes name
  if keyIndexFound = false ∨ ttlIndexFound = false then
    attempt (.error (.storeSetup (s!"MongoDB collection {name} is " ++
      "missing required OpenKeyV indexes")))
  else return ()

def collection (logicalName : String) : Requests String := do
  let name ← attempt (encodeCollectionName store.databaseName logicalName)
  let initialized ← access (Access.lock store.number)
  if name ∈ initialized then do
    access (Access.unlock store.number initialized)
    return name
  else
    match ← observe (setUp name) with
    | .error error => do
        access (Access.unlock store.number initialized)
        attempt (.error error)
    | .ok () => do
        access (Access.unlock store.number (insert name initialized))
        return name

def changeInitialized (change : Finset String → Finset String) :
    Requests Unit := do
  let initialized ← access (Access.lock store.number)
  access (Access.unlock store.number (change initialized))

end Collections

section Writes

def replaceOne (name : String) (document : EntryDocument) :
    Requests (Option Bool) := do
  if ← send (.replace name document) then return some false
  else send (.insert name document)

/-- The unordered `bulk_write` of the replacements, which goes on after a
failed one: the numbers of those that matched and of those that inserted. -/
def bulkWrite (name : String) :
    List EntryDocument → Requests (Option (Nat × Nat))
  | [] => return some (0, 0)
  | document :: documents => do
      let first ← replaceOne name document
      let rest ← bulkWrite name documents
      return match first, rest with
        | some true, some (matched, upserted) => some (matched, upserted + 1)
        | some false, some (matched, upserted) => some (matched + 1, upserted)
        | _, _ => none

def deleteObservedExpired (name : String) (document : StoredDocument) :
    Requests Unit := do
  let _ ← send (.deleteOne name (.observed document.document))
  return ()

def deleteObservedExpiredMany (name : String) :
    List StoredDocument → Requests Unit
  | [] => return ()
  | document :: documents => do
      deleteObservedExpired name document
      deleteObservedExpiredMany name documents

def batchEntries (ttl : Option F64) :
    List ((String × Value) × Nat) → Requests (List EntryDocument)
  | [] => return []
  | ((key, value), _) :: items => do
      let now ← utcNow
      let entry ← attempt (ManagedEntry.ofTtl now value ttl)
      let documents ← batchEntries ttl items
      return entryDocument key entry :: documents

end Writes

section Reads

variable {α : Type} (view : ManagedEntry → Requests α)

def readCursor (text : String) (requested : List String) :
    List Document → List (String × α) → List StoredDocument →
      Requests (List (String × α) × List StoredDocument)
  | [], values, expired => return (values, expired)
  | document :: documents, values, expired => do
      let document ← attempt (decodeDocument document none)
      let key := document.document.key
      if key ∉ requested then
        attempt (.error (.deserialization
          (text ++ " returned unrequested key " ++ key)))
      else
        let now ← utcNow
        if document.entry.isExpired now then
          readCursor text requested documents values (expired ++ [document])
        else
          let value ← view document.entry
          if (values.lookup key).isSome then
            attempt (.error (.deserialization
              (text ++ " returned duplicate key " ++ key)))
          else
            readCursor text requested documents ((key, value) :: values)
              expired

end Reads

section Operations

variable (store : MongoDBStore)

def readOne {α : Type} (view : ManagedEntry → Requests α) (key : String)
    (collection : Option String) : Requests (Option α) := do
  let name ← store.collection (store.collectionName collection)
  match ← send (.findOne name key) with
  | none => return none
  | some document => do
      let document ← attempt (decodeDocument document (some key))
      let now ← utcNow
      if document.entry.isExpired now then do
        deleteObservedExpired name document
        return none
      else
        let value ← view document.entry
        return some value

def viewValue (entry : ManagedEntry) : Requests Value := return entry.value

def viewTtl (entry : ManagedEntry) : Requests (Value × Option F64) := do
  let now ← utcNow
  return (entry.value, entry.ttl now)

def get (key : String) (collection : Option String) :
    Requests (Option Value) :=
  store.readOne viewValue key collection

def ttl (key : String) (collection : Option String) :
    Requests (Option (Value × Option F64)) :=
  store.readOne viewTtl key collection

def put (key : String) (value : Value) (collection : Option String)
    (ttl : Option F64) : Requests Unit := do
  let now ← utcNow
  let entry ← attempt (ManagedEntry.ofTtl now value ttl)
  let name ← store.collection (store.collectionName collection)
  match ← replaceOne name (entryDocument key entry) with
  | some _ => return ()
  | none => attempt (.error (.storeConnection
      s!"failed to put MongoDB key {key} into {name}: "))

def delete (key : String) (collection : Option String) : Requests Bool := do
  let name ← store.collection (store.collectionName collection)
  let deletedCount ← send (.deleteOne name (.key key))
  return deletedCount == 1

def readMany {α : Type} (text : String) (view : ManagedEntry → Requests α)
    (keys : List String) (collection : Option String) :
    Requests (List (Option α)) := do
  if keys.isEmpty then return []
  else
    let name ← store.collection (store.collectionName collection)
    let documents ← send (.find name keys.eraseDups)
    let (values, expired) ← readCursor view text keys documents [] []
    deleteObservedExpiredMany name expired
    return keys.map fun key => values.lookup key

def getMany (keys : List String) (collection : Option String) :
    Requests (List (Option Value)) :=
  store.readMany "MongoDB batch query" viewValue keys collection

def ttlMany (keys : List String) (collection : Option String) :
    Requests (List (Option (Value × Option F64))) :=
  store.readMany "MongoDB TTL batch" viewTtl keys collection

def putMany (keys : List String) (values : List Value)
    (collection : Option String) (ttl : Option F64) (order : MapOrder) :
    Requests Unit := do
  if keys.length ≠ values.length then
    attempt (.error (.batchSizeMismatch keys.length values.length))
  else
    let now ← utcNow
    attempt (Postgres.PostgresStore.validateOptionalTtl now ttl)
    if keys.isEmpty then return ()
    else
      let documents ← batchEntries ttl (order.arrange
        (Postgres.PostgresStore.finalItems keys values))
      let name ← store.collection (store.collectionName collection)
      match ← bulkWrite name documents with
      | none => attempt (.error (.storeConnection
          s!"failed to put MongoDB batch into {name}: "))
      | some (matched, upserted) =>
          if matched + upserted ≠ documents.length then
            attempt (.error (.storeConnection
              (s!"MongoDB batch write for {name} acknowledged " ++
                s!"{matched + upserted} of {documents.length} replacements")))
          else return ()

def deleteMany (keys : List String) (collection : Option String) :
    Requests Nat := do
  if keys.isEmpty then return 0
  else
    let name ← store.collection (store.collectionName collection)
    send (.deleteMany name keys.eraseDups)

def destroyCollection (collection : String) : Requests Bool := do
  let physicalName ← attempt
    (encodeCollectionName store.databaseName collection)
  let names ← send (.listCollectionNames (some physicalName))
  if names.isEmpty then do
    store.changeInitialized fun initialized => initialized.erase physicalName
    return false
  else do
    send (.drop physicalName)
    store.changeInitialized fun initialized => initialized.erase physicalName
    return true

def dropAll : List (String × String) → Requests Unit
  | [] => return ()
  | (physicalName, _) :: owned => do
      send (.drop physicalName)
      store.changeInitialized fun initialized => initialized.erase physicalName
      dropAll owned

def destroy : Requests Bool := do
  let owned ← store.ownedCollectionNames
  if owned.isEmpty then do
    store.changeInitialized fun _ => ∅
    return false
  else do
    store.dropAll owned
    return true

end Operations

end MongoDBStore

end OpenKeyV.Mongo
