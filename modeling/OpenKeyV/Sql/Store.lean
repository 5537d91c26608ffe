import OpenKeyV.Postgres.Store
import OpenKeyV.Sql.Rows

/-!
# `SqliteStore` and `DuckDBStore` on their table

The operations of `store/sqlite/store.rs` and `store/duckdb/store.rs`, which
have the same text up to the dialect.  Each holds the lock of the connection
to its end.  `Sqlite` keeps the milliseconds of the expiration, from which a
read builds the truncated instant again.
-/

namespace OpenKeyV.Sql

open Library

structure SqlConfig where
  defaultCollection : String
  deriving DecidableEq, Repr

structure Row where
  entry : Bytes
  expiresAt : Option DateTime
  deriving DecidableEq, Repr

abbrev Table := KeyedMap (String × String) Row

def Table.rows (table : Table) : List StoredRow :=
  table.entries.map fun item =>
    ⟨item.1.1, item.1.2, item.2.entry, item.2.expiresAt⟩

structure Readings where
  validated : DateTime
  /-- `Utc::now()` when the entry at an index of the batch is built. -/
  created : Nat → DateTime
  decoded : DateTime

def SqlConfig.collectionName (config : SqlConfig)
    (collection : Option String) : String :=
  collection.getD config.defaultCollection

namespace SqlStore

section Rows

variable (dialect : Dialect) (readings : Readings)

def newRow (index : Nat) (value : Value) (ttl : Option F64) :
    Except Error Row := do
  let entry ← ManagedEntry.ofTtl (readings.created index) value ttl
  return ⟨entry.encode, entry.expiresAt.map dialect.truncate⟩

def newRows (ttl : Option F64) :
    List ((String × Value) × Nat) → Except Error (List (String × Row))
  | [] => .ok []
  | ((key, value), index) :: items => do
      let row ← newRow dialect readings index value ttl
      let rows ← newRows ttl items
      return (key, row) :: rows

/-- `DELETE … WHERE … AND entry = ?3 AND expires_at = ?4`. -/
def deleteObserved (identity : String × String) (observed : Row)
    (table : Table) : Table :=
  match table.lookup identity with
  | some row =>
      if row.entry = observed.entry ∧ row.expiresAt = observed.expiresAt ∧
          (dialect.nullSafe || row.expiresAt.isSome) = true then
        table.erase identity
      else table
  | none => table

def liveEntry (key : String) (row : Row) :
    Except Error (Option ManagedEntry) := do
  let entry ← decodeEntry dialect key row.entry row.expiresAt
  return if entry.isExpired readings.decoded then none else some entry

def splitRows : List (String × Row) →
    Except Error (List (String × ManagedEntry) × List (String × Row))
  | [] => .ok ([], [])
  | (key, row) :: rows => do
      let entry? ← liveEntry dialect readings key row
      let (live, expired) ← splitRows rows
      return match entry? with
        | some entry => ((key, entry) :: live, expired)
        | none => (live, (key, row) :: expired)

def selectMany (collection : String) (keys : List String) (table : Table) :
    List (String × Row) :=
  keys.eraseDups.filterMap fun key =>
    (table.lookup (collection, key)).map fun row => (key, row)

end Rows

section Operations

variable (dialect : Dialect) (config : SqlConfig) (readings : Readings)

def readOne {α : Type} (view : ManagedEntry → α) (key : String)
    (collection : Option String) (table : Table) :
    Except Error (Option α) × Table :=
  let identity := (config.collectionName collection, key)
  match table.lookup identity with
  | none => (.ok none, table)
  | some row =>
      match liveEntry dialect readings key row with
      | .error error => (.error error, table)
      | .ok none => (.ok none, deleteObserved dialect identity row table)
      | .ok (some entry) => (.ok (some (view entry)), table)

def get (key : String) (collection : Option String) (table : Table) :
    Except Error (Option Value) × Table :=
  readOne dialect config readings ManagedEntry.value key collection table

def ttl (key : String) (collection : Option String) (table : Table) :
    Except Error (Option (Value × Option F64)) × Table :=
  readOne dialect config readings
    (fun entry => (entry.value, entry.ttl readings.decoded)) key collection
    table

def deleteExpired (expired : List ((String × String) × Row))
    (table : Table) : Table :=
  expired.foldl
    (fun table item => deleteObserved dialect item.1 item.2 table) table

def readMany {α : Type} (view : ManagedEntry → α) (keys : List String)
    (collection : Option String) (table : Table) :
    Except Error (List (Option α)) × Table :=
  let name := config.collectionName collection
  match splitRows dialect readings (selectMany name keys table) with
  | .error error => (.error error, table)
  | .ok (live, expired) =>
      (.ok (keys.map fun key => (live.lookup key).map view),
        deleteExpired dialect
          (expired.map fun item => ((name, item.1), item.2)) table)

def getMany (keys : List String) (collection : Option String)
    (table : Table) : Except Error (List (Option Value)) × Table :=
  readMany dialect config readings ManagedEntry.value keys collection table

def ttlMany (keys : List String) (collection : Option String)
    (table : Table) :
    Except Error (List (Option (Value × Option F64))) × Table :=
  readMany dialect config readings
    (fun entry => (entry.value, entry.ttl readings.decoded)) keys collection
    table

def put (key : String) (value : Value) (collection : Option String)
    (ttl : Option F64) (table : Table) : Except Error Unit × Table :=
  match newRow dialect readings 0 value ttl with
  | .error error => (.error error, table)
  | .ok row =>
      (.ok (), table.insert (config.collectionName collection, key) row)

def delete (key : String) (collection : Option String) (table : Table) :
    Except Error Bool × Table :=
  let identity := (config.collectionName collection, key)
  (.ok (table.lookup identity).isSome, table.erase identity)

def batchRows (keys : List String) (values : List Value)
    (ttl : Option F64) : Except Error (List (String × Row)) :=
  if keys.length ≠ values.length then
    .error (.batchSizeMismatch keys.length values.length)
  else do
    Postgres.PostgresStore.validateOptionalTtl readings.validated ttl
    newRows dialect readings ttl
      (Postgres.PostgresStore.finalItems keys values)

def putMany (keys : List String) (values : List Value)
    (collection : Option String) (ttl : Option F64) (table : Table) :
    Except Error Unit × Table :=
  match batchRows dialect readings keys values ttl with
  | .error error => (.error error, table)
  | .ok rows =>
      (.ok (), rows.foldl (fun table item =>
        table.insert (config.collectionName collection, item.1) item.2) table)

def deleteMany (keys : List String) (collection : Option String)
    (table : Table) : Except Error Nat × Table :=
  let name := config.collectionName collection
  (.ok (selectMany name keys table).length,
    keys.foldl (fun table key => table.erase (name, key)) table)

def cull (clock : Clock) (table : Table) : Except Error Unit × Table :=
  match cullRows dialect clock table.rows with
  | .error error => (.error error, table)
  | .ok expired =>
      (.ok (), deleteExpired dialect
        (expired.map fun row =>
          ((row.collection, row.key), ⟨row.rawEntry, row.expiresAt⟩)) table)

def keys (clock : Clock) (order : RowOrder) (collection : Option String)
    (limit : Option Nat) (table : Table) : Except Error (List String) :=
  if pageLimit limit = 0 then .ok []
  else enumerateKeys dialect clock order table.rows
    (config.collectionName collection) (pageLimit limit)

def collections (clock : Clock) (order : RowOrder) (limit : Option Nat)
    (table : Table) : Except Error (List String) :=
  if pageLimit limit = 0 then .ok []
  else enumerateCollections dialect clock order table.rows (pageLimit limit)

def destroyCollection (collection : String) (table : Table) :
    Except Error Bool × Table :=
  (.ok (table.rows.any fun row => row.collection == collection),
    table.retain fun identity _ => identity.1 != collection)

end Operations

end SqlStore

def SqliteStore.dialect : Dialect where
  name := "Sqlite"
  nullSafe := false
  truncate := DateTime.truncMillis
  timestampMillis := DateTime.timestampMillis_truncMillis
  truncate_le := ManagedEntry.truncMillis_le

def DuckDBStore.dialect : Dialect where
  name := "DuckDB"
  nullSafe := true
  truncate := DateTime.truncMicros
  timestampMillis := DateTime.timestampMillis_truncMicros
  truncate_le := truncMicros_le

end OpenKeyV.Sql
