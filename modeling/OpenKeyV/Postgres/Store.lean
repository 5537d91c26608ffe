import OpenKeyV.Entry.Codec
import OpenKeyV.Library.KeyedMap
import OpenKeyV.Library.Machine
import OpenKeyV.Protocol

/-!
# `PostgresStore` on its data table

The operations of `store/postgres/store.rs` as functions of the table they run
on.  Each is one statement, or one transaction, so it finds the table that the
committed calls left.  The change log, which the same transactions append to,
is modelled apart.
-/

namespace OpenKeyV.Postgres

open OpenKeyV.Library

structure PostgresConfig where
  defaultCollection : String
  deriving DecidableEq, Repr

structure Row where
  entry : Bytes
  /-- `TIMESTAMPTZ`, a whole number of microseconds. -/
  expiresAt : Option DateTime
  revision : Bytes
  deriving DecidableEq, Repr

abbrev Table := KeyedMap (String × String) Row

structure Readings where
  validated : DateTime
  created : Nat → DateTime
  fresh : Nat → Option Revision
  database : DateTime
  decoded : DateTime

def Readings.at (now : DateTime) (fresh : Nat → Option Revision) : Readings :=
  ⟨now, fun _ => now, fresh, now, now⟩

def validateTextIdentity (kind identity : String) : Except Error Unit :=
  if identity.toList.contains '\x00' then
    .error (.invalidKey s!"Postgres {kind} cannot contain NUL")
  else .ok ()

def PostgresConfig.collectionName (config : PostgresConfig)
    (collection : Option String) : Except Error String := do
  let collection := collection.getD config.defaultCollection
  validateTextIdentity "collection" collection
  return collection

def PostgresConfig.identity (config : PostgresConfig) (key : String)
    (collection : Option String) : Except Error (String × String) := do
  let collection ← config.collectionName collection
  validateTextIdentity "key" key
  return (collection, key)

def PostgresConfig.batchCollection (config : PostgresConfig)
    (keys : List String) (collection : Option String) :
    Except Error String := do
  let collection ← config.collectionName collection
  keys.forM (validateTextIdentity "key")
  return collection

def decodeRevision (bytes : Bytes) : Except Error Revision :=
  if bytes.length = Revision.byteLen then .ok (Revision.fromBytes bytes)
  else .error (.deserialization
    s!"Postgres revision must be exactly {Revision.byteLen} bytes")

def decodeEntry (key : String) (rawEntry : Bytes)
    (expiresAt : Option DateTime) : Except Error ManagedEntry :=
  match ManagedEntry.decode rawEntry with
  | .error error =>
      .error (.deserialization
        s!"failed to decode Postgres OKVE1 entry for key {key}: {error.text}")
  | .ok entry =>
      if entry.expiresAt.map DateTime.timestampMillis ≠
          expiresAt.map DateTime.timestampMillis then
        .error (.deserialization
          s!"Postgres expires_at does not match OKVE1 metadata for key {key}")
      else .ok entry

namespace PostgresStore

section Rows

variable (readings : Readings)

def newRow (index : Nat) (value : Value) (ttl : Option F64) :
    Except Error (Row × Revision) := do
  let entry ← ManagedEntry.ofTtl (readings.created index) value ttl
  match readings.fresh index with
  | some revision =>
      return (⟨entry.encode, entry.expiresAt.map DateTime.truncMicros,
        revision.asBytes⟩, revision)
  | none => .error (.revisionGeneration "random source failed")

/-- The items at the last index of each key, in the order of the indices. -/
def finalItems (keys : List String) (values : List Value) :
    List ((String × Value) × Nat) :=
  (keys.zip values).zipIdx.filter fun item =>
    !(keys.drop (item.2 + 1)).contains item.1.1

def newRows (ttl : Option F64) :
    List ((String × Value) × Nat) → Except Error (List (String × Row))
  | [] => .ok []
  | ((key, value), index) :: items => do
      let (row, _) ← newRow readings index value ttl
      let rows ← newRows ttl items
      return (key, row) :: rows

end Rows

/-- `DELETE … WHERE entry = $3 AND expires_at IS NOT DISTINCT FROM $4`. -/
def deleteObserved (identity : String × String) (observed : Row)
    (table : Table) : Table :=
  match table.lookup identity with
  | some row =>
      if row.entry = observed.entry ∧ row.expiresAt = observed.expiresAt then
        table.erase identity
      else table
  | none => table

def liveEntry (now : DateTime) (key : String) (row : Row) :
    Except Error (Option ManagedEntry) := do
  let entry ← decodeEntry key row.entry row.expiresAt
  return if entry.isExpired now then none else some entry

def splitRows (now : DateTime) :
    List (String × Row) →
      Except Error (List (String × ManagedEntry) × List (String × Row))
  | [] => .ok ([], [])
  | (key, row) :: rows => do
      let entry? ← liveEntry now key row
      let (live, expired) ← splitRows now rows
      return match entry? with
        | some entry => ((key, entry) :: live, expired)
        | none => (live, (key, row) :: expired)

def selectMany (collection : String) (keys : List String) (table : Table) :
    List (String × Row) :=
  keys.eraseDups.filterMap fun key =>
    (table.lookup (collection, key)).map fun row => (key, row)

def revisioned (now : DateTime) (key : String) (row : Row) :
    Except Error (Option RevisionedValue) := do
  let revision ← decodeRevision row.revision
  let entry? ← liveEntry now key row
  return entry?.map fun entry => ⟨entry.value, revision, entry.ttl now⟩

def currentRevisionedValue (now : DateTime) (identity : String × String)
    (table : Table) : Except Error (Option RevisionedValue) :=
  match table.lookup identity with
  | none => .ok none
  | some row => revisioned now identity.2 row

/-- `expires_at IS NULL OR expires_at > now()`. -/
def Row.unexpired (row : Row) (now : DateTime) : Bool :=
  match row.expiresAt with
  | none => true
  | some expires => decide (now < expires)

/-- The rows that the statement of `compare_and_swap` returns: whether it
inserts or updates. -/
def swaps (now : DateTime) (expected : Option Revision) :
    Option Row → Bool
  | none => expected.isNone
  | some row =>
      match expected with
      | none => !Row.unexpired row now
      | some revision =>
          decide (row.revision = revision.asBytes) && Row.unexpired row now

def removes (now : DateTime) (expected : Revision) : Option Row → Bool
  | none => false
  | some row =>
      decide (row.revision = expected.asBytes) && Row.unexpired row now

section Operations

variable (config : PostgresConfig) (readings : Readings)

def readOne {α : Type} (view : ManagedEntry → α) (key : String)
    (collection : Option String) (table : Table) :
    Except Error (Option α) × Table :=
  match config.identity key collection with
  | .error error => (.error error, table)
  | .ok identity =>
      match table.lookup identity with
      | none => (.ok none, table)
      | some row =>
          match liveEntry readings.decoded key row with
          | .error error => (.error error, table)
          | .ok none => (.ok none, deleteObserved identity row table)
          | .ok (some entry) => (.ok (some (view entry)), table)

def get (key : String) (collection : Option String) (table : Table) :
    Except Error (Option Value) × Table :=
  readOne config readings ManagedEntry.value key collection table

def ttl (key : String) (collection : Option String) (table : Table) :
    Except Error (Option (Value × Option F64)) × Table :=
  readOne config readings
    (fun entry => (entry.value, entry.ttl readings.decoded)) key collection
    table

def readMany {α : Type} (view : ManagedEntry → α) (keys : List String)
    (collection : Option String) (table : Table) :
    Except Error (List (Option α)) × Table :=
  match config.batchCollection keys collection with
  | .error error => (.error error, table)
  | .ok name =>
      match splitRows readings.decoded (selectMany name keys table) with
      | .error error => (.error error, table)
      | .ok (live, expired) =>
          (.ok (keys.map fun key => (live.lookup key).map view),
            expired.foldl
              (fun table item => deleteObserved (name, item.1) item.2 table)
              table)

def getMany (keys : List String) (collection : Option String)
    (table : Table) : Except Error (List (Option Value)) × Table :=
  readMany config readings ManagedEntry.value keys collection table

def ttlMany (keys : List String) (collection : Option String)
    (table : Table) :
    Except Error (List (Option (Value × Option F64))) × Table :=
  readMany config readings
    (fun entry => (entry.value, entry.ttl readings.decoded)) keys collection
    table

def put (key : String) (value : Value) (collection : Option String)
    (ttl : Option F64) (table : Table) : Except Error Unit × Table :=
  match config.identity key collection with
  | .error error => (.error error, table)
  | .ok identity =>
      match newRow readings 0 value ttl with
      | .error error => (.error error, table)
      | .ok (row, _) => (.ok (), table.insert identity row)

def delete (key : String) (collection : Option String) (table : Table) :
    Except Error Bool × Table :=
  match config.identity key collection with
  | .error error => (.error error, table)
  | .ok identity =>
      (.ok (table.lookup identity).isSome, table.erase identity)

def validateOptionalTtl (now : DateTime) : Option F64 → Except Error Unit
  | some seconds => ManagedEntry.validateTtl now seconds
  | none => .ok ()

def batchRows (keys : List String) (values : List Value)
    (collection : Option String) (ttl : Option F64) :
    Except Error (String × List (String × Row)) := do
  if keys.length ≠ values.length then
    .error (.batchSizeMismatch keys.length values.length)
  else do
    validateOptionalTtl readings.validated ttl
    let name ← config.batchCollection keys collection
    let rows ← newRows readings ttl (finalItems keys values)
    return (name, rows)

def putMany (keys : List String) (values : List Value)
    (collection : Option String) (ttl : Option F64) (table : Table) :
    Except Error Unit × Table :=
  match batchRows config readings keys values collection ttl with
  | .error error => (.error error, table)
  | .ok (name, rows) =>
      (.ok (), rows.foldl
        (fun table item => table.insert (name, item.1) item.2) table)

def deleteMany (keys : List String) (collection : Option String)
    (table : Table) : Except Error Nat × Table :=
  match config.batchCollection keys collection with
  | .error error => (.error error, table)
  | .ok name =>
      (.ok (selectMany name keys table).length,
        keys.foldl (fun table key => table.erase (name, key)) table)

def getWithRevision (key : String) (collection : Option String)
    (table : Table) : Except Error (Option RevisionedValue) := do
  let identity ← config.identity key collection
  currentRevisionedValue readings.decoded identity table

def swapRow (key : String) (value : Value) (collection : Option String)
    (ttl : Option F64) :
    Except Error ((String × String) × Row × Revision) := do
  validateOptionalTtl readings.validated ttl
  let identity ← config.identity key collection
  let row ← newRow readings 0 value ttl
  return (identity, row)

def compareAndSwap (key : String) (expected : Option Revision)
    (value : Value) (collection : Option String) (ttl : Option F64)
    (table : Table) : Except Error CompareAndSwapResult × Table :=
  match swapRow config readings key value collection ttl with
  | .error error => (.error error, table)
  | .ok (identity, row, newRevision) =>
      if swaps readings.database expected (table.lookup identity) then
        (.ok (.applied newRevision), table.insert identity row)
      else
        ((currentRevisionedValue readings.decoded identity table).map
          .conflict, table)

def compareAndDelete (key : String) (expected : Revision)
    (collection : Option String) (table : Table) :
    Except Error CompareAndDeleteResult × Table :=
  match config.identity key collection with
  | .error error => (.error error, table)
  | .ok identity =>
      if removes readings.database expected (table.lookup identity) then
        (.ok .deleted, table.erase identity)
      else
        ((currentRevisionedValue readings.decoded identity table).map
          .conflict, table)

end Operations

end PostgresStore

end OpenKeyV.Postgres
