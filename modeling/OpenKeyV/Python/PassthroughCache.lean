import OpenKeyV.Library.Dict
import OpenKeyV.Library.Interaction
import OpenKeyV.Python.StoreContract
import OpenKeyV.Python.TtlClamp
import OpenKeyV.Wrapper.PassthroughCache

/-!
# The Python passthrough cache

`PassthroughCacheWrapper` of the Python package reads its cache store first.
What it reads from its primary store goes into the cache with the TTL that is
left, through a `TTLClampWrapper`.
-/

namespace OpenKeyV.Python

open Library Library.Interaction
open Wrapper (Tier)

namespace PassthroughCacheWrapper

def defaultMaxTtl : F64 := .finite (30 * 60)

def defaultMissingTtl : F64 := .finite (30 * 60)

def init (maximumTtl missingTtl : Option SupportsFloat) :
    Except PyError TTLClampWrapper :=
  TTLClampWrapper.init (.ofF64 (.finite 0))
    (maximumTtl.getD (.ofF64 defaultMaxTtl))
    (some (missingTtl.getD (.ofF64 defaultMissingTtl)))

inductive Access where
  | now
  | store (tier : Tier) (op : StoreOp)

@[reducible] def Access.Answer : Access → Type
  | .now => DateTime
  | .store _ op => Except PyError op.Result

abbrev Requests := Calls PyError Access.Answer

def send (tier : Tier) (op : StoreOp) : Requests op.Result :=
  access (Access.store tier op) >>= attempt

variable (w : TTLClampWrapper)

def cachePut (key : String) (value : Value) (collection : Option String)
    (ttl : Option F64) : Requests Unit := do
  let time ← access Access.now
  let clamped ← attempt (w.ttlClamp time (ttl.map .ofF64))
  send .cache (.put key value collection (clamped.map .ofF64))

def get (key : String) (collection : Option String) : Requests Value := do
  let cachedEntry ← send .cache (.get key collection)
  if cachedEntry ≠ .null then return cachedEntry
  else do
    let (uncachedEntry, ttl) ← send .primary (.ttl key collection)
    if uncachedEntry = .null then return .null
    else do
      cachePut w key uncachedEntry collection ttl
      return uncachedEntry

def ttl (key : String) (collection : Option String) :
    Requests (Value × Option F64) := do
  let (cachedEntry, ttl) ← send .cache (.ttl key collection)
  if cachedEntry ≠ .null then return (cachedEntry, ttl)
  else do
    let (uncachedEntry, ttl) ← send .primary (.ttl key collection)
    if uncachedEntry = .null then return (.null, none)
    else do
      cachePut w key uncachedEntry collection ttl
      return (uncachedEntry, ttl)

section Batches

variable {α : Type} (make : Value × Option F64 → α)

def populate (collection : Option String) :
    List (String × (Value × Option F64)) → Dict String α →
      Requests (Dict String α)
  | [], keyToValue => return keyToValue
  | (key, entry) :: rest, keyToValue => do
      if entry.1 ≠ .null then cachePut w key entry.1 collection entry.2
      populate collection rest (keyToValue.set key (make entry))

def keysWhere (missing : α → Bool) (keyToValue : Dict String α) :
    List String :=
  (keyToValue.filter fun item => missing item.2).map Prod.fst

def valuesOf (keyToValue : Dict String α) (keys : List String) (absent : α) :
    List α :=
  keys.map fun key => (keyToValue.get? key).getD absent

end Batches

def getMany (keys : List String) (collection : Option String) :
    Requests (List Value) := do
  let cachedEntries ← send .cache (.getMany keys collection)
  let keyToValue := (Dict.fromKeys keys .null).update (keys.zip cachedEntries)
  let uncachedKeys := keysWhere (· = .null) keyToValue
  let uncachedEntries ← send .primary (.ttlMany uncachedKeys collection)
  let keyToValue ← populate w Prod.fst collection
    (uncachedKeys.zip uncachedEntries) keyToValue
  return valuesOf keyToValue keys .null

def ttlMany (keys : List String) (collection : Option String) :
    Requests (List (Value × Option F64)) := do
  let cachedEntries ← send .cache (.ttlMany keys collection)
  let keyToValue :=
    (Dict.fromKeys keys (.null, none)).update (keys.zip cachedEntries)
  let uncachedKeys := keysWhere (· = (.null, none)) keyToValue
  let uncachedEntries ← send .primary (.ttlMany uncachedKeys collection)
  let keyToValue ← populate w id collection
    (uncachedKeys.zip uncachedEntries) keyToValue
  return valuesOf keyToValue keys (.null, none)

def put (key : String) (value : Value) (collection : Option String)
    (ttl : Option SupportsFloat) : Requests Unit := do
  let _ ← send .cache (.delete key collection)
  send .primary (.put key value collection ttl)

def putMany (keys : List String) (values : List Value)
    (collection : Option String) (ttl : Option SupportsFloat) :
    Requests Unit := do
  let _ ← send .cache (.deleteMany keys collection)
  send .primary (.putMany keys values collection ttl)

def delete (key : String) (collection : Option String) : Requests Bool := do
  let _ ← send .cache (.delete key collection)
  send .primary (.delete key collection)

def deleteMany (keys : List String) (collection : Option String) :
    Requests Nat := do
  let _ ← send .cache (.deleteMany keys collection)
  send .primary (.deleteMany keys collection)

def perform : StoreOp → Requests Unit
  | .get key collection => do
      let _ ← get w key collection
  | .getMany keys collection => do
      let _ ← getMany w keys collection
  | .ttl key collection => do
      let _ ← ttl w key collection
  | .ttlMany keys collection => do
      let _ ← ttlMany w keys collection
  | .put key value collection ttl => put key value collection ttl
  | .putMany keys values collection ttl => putMany keys values collection ttl
  | .delete key collection => do
      let _ ← delete key collection
  | .deleteMany keys collection => do
      let _ ← deleteMany keys collection

structure Stores where
  cache : AsyncKeyValue
  primary : AsyncKeyValue

structure Tiers where
  clock : DateTime
  cache : Entries
  primary : Entries

def serve (stores : Stores) : (a : Access) → Tiers → a.Answer × Tiers
  | .now, s => (s.clock, s)
  | .store .cache op, s =>
      let (answer, entries) := stores.cache.apply s.clock op s.cache
      (answer, { s with cache := entries })
  | .store .primary op, s =>
      let (answer, entries) := stores.primary.apply s.clock op s.primary
      (answer, { s with primary := entries })

def Stores.Alike (stores : Stores) (collection : Option String) : Prop :=
  collection.getD stores.cache.defaultCollection =
    collection.getD stores.primary.defaultCollection

section Serve

variable {stores : Stores} {op : StoreOp} {s : Tiers} {α : Type}
  {f : op.Result → Requests α}

end Serve

end PassthroughCacheWrapper

end OpenKeyV.Python
