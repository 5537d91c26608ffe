import OpenKeyV.Cas
import OpenKeyV.Redis.Server
import OpenKeyV.Utils.Compound
import OpenKeyV.Change

/-!
# The Lua scripts

One definition for each script of `store/redis/store.rs`; those of
`store/valkey/store.rs` have the same text.  Arguments that the callers print
in decimal (`change_retention`, milliseconds, the prefix length) are numbers.
-/

namespace OpenKeyV.Redis

open Library Program

def changeStreamKey : String := "__openkeyv_changefeed_stream"

def changeRevisionKey : String := "__openkeyv_changefeed_revision"

def collectionRegistryKey : String := "__openkeyv_collections"

/-- `tostring(revision) .. '-0'`. -/
structure ChangeId where
  revision : Nat
  deriving DecidableEq, Repr

/-- Lua prints numbers with fourteen digits: from there on the text has an
exponent and is no stream identifier. -/
def ChangeId.streamId? (id : ChangeId) : Option StreamId :=
  if id.revision < 10 ^ 14 then some ⟨id.revision, 0⟩ else none

def changeFields (revision : Nat) (collection key : String)
    (operation : ChangeOperation) (occurredAt : String) :
    List (String × String) :=
  [("revision", toString revision), ("collection", collection), ("key", key),
    ("operation", operation.text), ("occurred_at", occurredAt)]

def changeEntry (revision : Nat) (collection key : String)
    (operation : ChangeOperation) (occurredAt : String) : StreamEntry :=
  ⟨⟨revision, 0⟩, changeFields revision collection key operation occurredAt⟩

def writeEnvelope (key : String) (envelope : Bytes) (milliseconds : Nat) :
    Script Unit :=
  if milliseconds = 0 then set key envelope
  else psetex key milliseconds envelope

def appendChange (streamKey : String) (retention revision : Nat)
    (collection key : String) (operation : ChangeOperation)
    (occurredAt : String) : Script Unit :=
  if 0 < retention then
    xadd streamKey retention (ChangeId.streamId? ⟨revision⟩)
      (changeFields revision collection key operation occurredAt)
  else pure ()

def putChangeScript (ck revisionKey streamKey registryKey : String)
    (envelope : Bytes) (milliseconds : Nat) (collection key : String)
    (occurredAt : String) (retention : Nat) : Script ChangeId := do
  let revision ← incr revisionKey
  writeEnvelope ck envelope milliseconds
  sadd registryKey collection
  appendChange streamKey retention revision collection key .put occurredAt
  return ⟨revision⟩

def deleteChangeScript (ck revisionKey streamKey : String)
    (collection key : String) (retention : Nat) (occurredAt : String) :
    Script (Option ChangeId) := do
  let present ← existsKey ck
  if present then do
    del ck
    let revision ← incr revisionKey
    appendChange streamKey retention revision collection key .delete occurredAt
    return some ⟨revision⟩
  else return none

/-- The body of the loop for a key that exists: here the counter moves only
when changes are recorded. -/
def bulkRemove (identity revisionKey streamKey : String)
    (retention : Nat) (collection occurredAt key : String) : Script Unit := do
  del identity
  if 0 < retention then do
    let revision ← incr revisionKey
    xadd streamKey retention (ChangeId.streamId? ⟨revision⟩)
      (changeFields revision collection key .delete occurredAt)
  else return ()

/-- `identities` pairs each physical key with its logical name; `removed` is
the running count. -/
def bulkDeleteChangeScript (revisionKey streamKey : String) (retention : Nat)
    (collection occurredAt : String) :
    List (String × String) → Nat → Script Nat
  | [], removed => return removed
  | (identity, key) :: rest, removed => do
      let present ← existsKey identity
      if present then do
        bulkRemove identity revisionKey streamKey retention collection
          occurredAt key
        bulkDeleteChangeScript revisionKey streamKey retention collection
          occurredAt rest (removed + 1)
      else
        bulkDeleteChangeScript revisionKey streamKey retention collection
          occurredAt rest removed

inductive RedisValue where
  | nil
  | int (value : Int)
  | boolean (value : Bool)
  | bulkString (bytes : Bytes)
  deriving DecidableEq, Repr

/-- `string.sub(value, first, last)`, counted from one. -/
def luaSub (value : Bytes) (first last : Nat) : Bytes :=
  (value.take last).drop (first - 1)

def compareAndSwapScript (ck registryKey : String) (expected envelope : Bytes)
    (milliseconds prefixLen : Nat) (collection : String) :
    Script (List RedisValue) := do
  let value ← get ck
  match value with
  | none =>
      if expected = [] then do
        writeEnvelope ck envelope milliseconds
        sadd registryKey collection
        return [.int 1, .bulkString []]
      else return [.int 0, .nil]
  | some value =>
      if value.length < prefixLen then return [.int 0, .nil]
      else if expected ≠ luaSub value 6 prefixLen then
        return [.int 0, .bulkString value]
      else do
        writeEnvelope ck envelope milliseconds
        sadd registryKey collection
        return [.int 1, .bulkString []]

def compareAndDeleteScript (ck : String) (expected : Bytes)
    (prefixLen : Nat) : Script (List RedisValue) := do
  let value ← get ck
  match value with
  | none => return [.int 0, .nil]
  | some value =>
      if value.length < prefixLen then return [.int 0, .nil]
      else if expected ≠ luaSub value 6 prefixLen then
        return [.int 0, .bulkString value]
      else do
        del ck
        return [.int 1, .bulkString []]

end OpenKeyV.Redis
