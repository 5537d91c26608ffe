import OpenKeyV.Library.Interaction
import OpenKeyV.Postgres.Enumeration

/-!
# `PostgresStore`, one statement at a time

The calls of `store/postgres/store.rs` as the statements that they execute,
with the readings of the clock in between.  A transaction that writes is its
one statement on the data table.
-/

namespace OpenKeyV.Postgres

open Library Library.Interaction

inductive SqlError where
  | failed
  deriving DecidableEq, Repr

/-- One statement, one reading of the clock or one use of the random
source. -/
inductive Access where
  | select (identity : String × String)
  | selectMany (collection : String) (keys : List String)
  | selectExpired
  | selectLive (collection : String) (limit : Nat)
  | selectAllLive
  | deleteObserved (rows : List Sql.StoredRow)
  | upsert (identity : String × String) (row : Row)
  | upsertMany (collection : String) (rows : List (String × Row))
  | delete (identity : String × String)
  | deleteMany (collection : String) (keys : List String)
  | swap (identity : String × String) (expected : Option Revision) (row : Row)
  | now
  | fresh
  deriving DecidableEq

@[reducible] def Access.Answer : Access → Type
  | .select _ => Except SqlError (Option Row)
  | .selectMany _ _ | .selectExpired | .selectLive _ _ | .selectAllLive =>
      Except SqlError (List Sql.StoredRow)
  | .deleteObserved _ | .upsert _ _ | .upsertMany _ _ => Except SqlError Unit
  | .delete _ | .swap _ _ _ => Except SqlError Bool
  | .deleteMany _ _ => Except SqlError (List String)
  | .now => DateTime
  | .fresh => Option Revision

abbrev Requests := Calls Error Access.Answer

def sent {α : Type} (message : String) : Except SqlError α → Except Error α
  | .ok a => .ok a
  | .error _ => .error (.storeConnection message)

def fail {α : Type} (error : Error) : Requests α := attempt (.error error)

def utcNow : Requests DateTime := access Access.now

def deserialization {α : Type} (message : String) : Requests α :=
  fail (.deserialization message)

namespace Statements

def deleteObserved (message : String) (rows : List Sql.StoredRow) :
    Requests Unit := do
  let answer ← access (Access.deleteObserved rows)
  attempt (sent message answer)

def liveEntry (key : String) (rawEntry : Bytes)
    (expiresAt : Option DateTime) : Requests (Option ManagedEntry) := do
  let entry ← attempt (decodeEntry key rawEntry expiresAt)
  let time ← utcNow
  if entry.isExpired time then return none else return some entry

def withTtl (entry : ManagedEntry) : Requests (Value × Option F64) := do
  let time ← utcNow
  return (entry.value, entry.ttl time)

section Operations

variable (config : PostgresConfig)

def readOne {α : Type} (failed cleanup : String)
    (view : ManagedEntry → Requests α) (key : String)
    (collection : Option String) : Requests (Option α) := do
  let identity ← attempt (config.identity key collection)
  let answer ← access (Access.select identity)
  match ← attempt (sent failed answer) with
  | none => return none
  | some row => do
      match ← liveEntry key row.entry row.expiresAt with
      | none => do
          deleteObserved cleanup
            [⟨identity.1, identity.2, row.entry, row.expiresAt⟩]
          return none
      | some entry => do
          let result ← view entry
          return some result

def get (key : String) (collection : Option String) :
    Requests (Option Value) :=
  readOne config s!"failed to get Postgres key {key}: "
    s!"failed to conditionally delete expired Postgres key {key}: "
    (fun entry => return entry.value) key collection

def ttl (key : String) (collection : Option String) :
    Requests (Option (Value × Option F64)) :=
  readOne config s!"failed to get Postgres TTL for key {key}: "
    s!"failed to conditionally delete expired Postgres TTL key {key}: "
    withTtl key collection

def splitRows {α : Type} (unrequested duplicate : String)
    (view : ManagedEntry → Requests α) (collection : String)
    (requested : List String) (values : List (String × α))
    (expired : List Sql.StoredRow) : List Sql.StoredRow →
      Requests (List (String × α) × List Sql.StoredRow)
  | [] => return (values, expired)
  | row :: rows => do
      if requested.contains row.key = false then
        deserialization (unrequested ++ row.key)
      else do
        match ← liveEntry row.key row.rawEntry row.expiresAt with
        | none =>
            splitRows unrequested duplicate view collection requested values
              (expired ++ [{ row with collection := collection }]) rows
        | some entry => do
            let result ← view entry
            if (values.lookup row.key).isSome then
              deserialization (duplicate ++ row.key)
            else
              splitRows unrequested duplicate view collection requested
                (values ++ [(row.key, result)]) expired rows

structure BatchTexts where
  failed : String
  unrequested : String
  duplicate : String
  cleanup : String

def readMany {α : Type} (texts : BatchTexts)
    (view : ManagedEntry → Requests α) (keys : List String)
    (collection : Option String) : Requests (List (Option α)) := do
  let name ← attempt (config.batchCollection keys collection)
  if keys.isEmpty then return []
  else do
    let answer ← access (Access.selectMany name keys)
    let rows ← attempt (sent texts.failed answer)
    let (values, expired) ← splitRows texts.unrequested texts.duplicate view
      name keys [] [] rows
    if expired.isEmpty then return keys.map fun key => values.lookup key
    else do
      deleteObserved texts.cleanup expired
      return keys.map fun key => values.lookup key

def getMany : List String → Option String →
    Requests (List (Option Value)) :=
  readMany config ⟨"failed to get Postgres batch: ",
    "Postgres batch query returned unrequested key ",
    "Postgres batch query returned duplicate key ",
    "failed to clean expired Postgres batch rows: "⟩
    fun entry => return entry.value

def ttlMany : List String → Option String →
    Requests (List (Option (Value × Option F64))) :=
  readMany config ⟨"failed to get Postgres TTL batch: ",
    "Postgres TTL batch returned unrequested key ",
    "Postgres TTL batch returned duplicate key ",
    "failed to clean expired Postgres TTL batch rows: "⟩ withTtl

def cullRows (expired : List Sql.StoredRow) :
    List Sql.StoredRow → Requests (List Sql.StoredRow)
  | [] => return expired
  | row :: rows => do
      match ← liveEntry row.key row.rawEntry row.expiresAt with
      | some _ => deserialization ("Postgres expiration query returned " ++
          s!"live key {row.key}")
      | none => cullRows (expired ++ [row]) rows

def cull : Requests Unit := do
  let answer ← access Access.selectExpired
  let rows ← attempt (sent "failed to query Postgres cull rows: " answer)
  let expired ← cullRows [] rows
  if expired.isEmpty then return ()
  else
    deleteObserved "failed to conditionally delete Postgres cull rows: " expired

def keysLoop : List Sql.StoredRow → Requests (List String)
  | [] => return []
  | row :: rows => do
      match ← liveEntry row.key row.rawEntry row.expiresAt with
      | none => deserialization ("Postgres key enumeration returned " ++
          s!"expired key {row.key}")
      | some _ => do
          let keys ← keysLoop rows
          return row.key :: keys

def keys (collection : Option String) (limit : Option Nat) :
    Requests (List String) := do
  let name ← attempt (config.collectionName collection)
  if Sql.pageLimit limit = 0 then return []
  else do
    let answer ← access (Access.selectLive name (Sql.pageLimit limit))
    let rows ← attempt
      (sent "failed to enumerate Postgres keys: " answer)
    keysLoop rows

def collectionsLoop (limit : Nat) (found : List String) :
    List Sql.StoredRow → Requests (List String)
  | [] => return found
  | row :: rows => do
      match ← liveEntry row.key row.rawEntry row.expiresAt with
      | none => deserialization ("Postgres collection enumeration " ++
          s!"returned expired key {row.key}")
      | some _ =>
          if found.contains row.collection then
            collectionsLoop limit found rows
          else if found.length + 1 = limit then
            return found ++ [row.collection]
          else collectionsLoop limit (found ++ [row.collection]) rows

def collections (limit : Option Nat) : Requests (List String) := do
  if Sql.pageLimit limit = 0 then return []
  else do
    let answer ← access Access.selectAllLive
    let rows ← attempt
      (sent "failed to enumerate Postgres collections: " answer)
    collectionsLoop (Sql.pageLimit limit) [] rows

def newRow (value : Value) (ttl : Option F64) :
    Requests (Row × Revision) := do
  let time ← utcNow
  let entry ← attempt (ManagedEntry.ofTtl time value ttl)
  match ← access Access.fresh with
  | some revision =>
      return (⟨entry.encode, entry.expiresAt.map DateTime.truncMicros,
        revision.asBytes⟩, revision)
  | none => fail (.revisionGeneration "random source failed")

def put (key : String) (value : Value) (collection : Option String)
    (ttl : Option F64) : Requests Unit := do
  let identity ← attempt (config.identity key collection)
  let (row, _) ← newRow value ttl
  let answer ← access (Access.upsert identity row)
  attempt (sent s!"failed to put Postgres key {key}: " answer)

def delete (key : String) (collection : Option String) : Requests Bool := do
  let identity ← attempt (config.identity key collection)
  let answer ← access (Access.delete identity)
  attempt (sent s!"failed to delete Postgres key {key}: " answer)

def validateOptionalTtl : Option F64 → Requests Unit
  | some seconds => do
      let time ← utcNow
      attempt (ManagedEntry.validateTtl time seconds)
  | none => return ()

def newRows (ttl : Option F64) :
    List ((String × Value) × Nat) → Requests (List (String × Row))
  | [] => return []
  | ((key, value), _) :: items => do
      let (row, _) ← newRow value ttl
      let rows ← newRows ttl items
      return (key, row) :: rows

def putMany (keys : List String) (values : List Value)
    (collection : Option String) (ttl : Option F64) : Requests Unit := do
  if keys.length ≠ values.length then
    fail (.batchSizeMismatch keys.length values.length)
  else do
    validateOptionalTtl ttl
    let name ← attempt (config.batchCollection keys collection)
    if keys.isEmpty then return ()
    else do
      let rows ← newRows ttl (PostgresStore.finalItems keys values)
      let answer ← access (Access.upsertMany name rows)
      attempt (sent "failed to put Postgres batch: " answer)

def deleteMany (keys : List String) (collection : Option String) :
    Requests Nat := do
  let name ← attempt (config.batchCollection keys collection)
  if keys.isEmpty then return 0
  else do
    let answer ← access (Access.deleteMany name keys)
    let deleted ← attempt (sent "failed to delete Postgres batch: " answer)
    return deleted.length

def currentRevisionedValue (identity : String × String) :
    Requests (Option RevisionedValue) := do
  let answer ← access (Access.select identity)
  match ← attempt (sent ("failed to read current Postgres entry for key " ++
      s!"{identity.2}: ") answer) with
  | none => return none
  | some row => do
      let revision ← attempt (decodeRevision row.revision)
      match ← liveEntry identity.2 row.entry row.expiresAt with
      | none => return none
      | some entry => do
          let (value, ttl) ← withTtl entry
          return some ⟨value, revision, ttl⟩

def compareAndSwap (key : String) (expected : Option Revision)
    (value : Value) (collection : Option String) (ttl : Option F64) :
    Requests CompareAndSwapResult := do
  validateOptionalTtl ttl
  let identity ← attempt (config.identity key collection)
  let (row, newRevision) ← newRow value ttl
  let answer ← access (Access.swap identity expected row)
  if ← attempt (sent s!"failed to compare-and-swap Postgres key {key}: "
      answer) then
    return .applied newRevision
  else do
    let current ← currentRevisionedValue identity
    return .conflict current

end Operations

end Statements

end OpenKeyV.Postgres
