import OpenKeyV.Redis.Store
import OpenKeyV.Library.Glob

/-!
# Batches, enumeration and destruction

The operations of `store/redis/store.rs` that issue several commands.  The
identities that the pages of a `SCAN` hold are an argument; the server drops
those that do not match the pattern.
-/

namespace OpenKeyV.Redis

open Library Program

def mget (keys : List String) : Script (List (Option Bytes)) :=
  .ofFn fun s =>
    (.ok (keys.map fun key =>
      match s.find key with
      | some ⟨.string bytes, _⟩ => some bytes
      | some ⟨.integer value, _⟩ => some (toString value).toUTF8.toList
      | _ => none), s)

def smembers (key : String) : Script (List String) :=
  .ofFn fun s =>
    match s.find key with
    | none => (.ok [], s)
    | some ⟨.set members, _⟩ => (.ok members, s)
    | some _ => (.error .wrongType, s)

def delAll (keys : List String) : Script Unit :=
  .ofFn fun s => (.ok (), keys.foldl Server.remove s)

def flushdb : Script Unit :=
  .ofFn fun s => (.ok (), { s with objects := ∅ })

def scanPattern (literal : String) : String :=
  String.ofList (Glob.escape literal.toList ++ ['*'])

def collectionScanPattern (keyspace : Subspace) (collection : String) :
    String :=
  scanPattern (keyspace.frame ++ collectionFrame collection)

def scanMatch (pattern : String) (page : List String) : List String :=
  page.filter (Glob.globMatch pattern)

def isInternalKey (keyspace : Subspace) (key : String) : Bool :=
  key == keyspace.scope changeStreamKey ||
    key == keyspace.scope changeRevisionKey ||
    key == keyspace.scope collectionRegistryKey

def pageLimit (limit : Option Nat) : Nat := min (limit.getD 10000) 10000

namespace RedisStore

section Operations

variable (config : RedisConfig)

def liveValue (now : DateTime) (stored : Option Cas.CasEntry) :
    Option Value :=
  (stored.filter fun cas => !cas.entry.isExpired now).map (·.entry.value)

def liveTtl (now : DateTime) (stored : Option Cas.CasEntry) :
    Option (Value × Option F64) :=
  (stored.filter fun cas => !cas.entry.isExpired now).map fun cas =>
    (cas.entry.value, cas.entry.ttl now)

/-- `get_many` and `ttl_many`, which differ in what they show of an entry. -/
def fetchMany {α : Type} (view : Option Cas.CasEntry → α)
    (keys : List String) (collection : Option String) (s : Server) :
    Except Error (List α) × Server :=
  let (r, s') := invoke (mget (keys.map
    (subspaceCompoundKey config.keyspace (config.collectionName collection))))
    s
  (r.bind fun values => values.mapM fun value => (Cas.decode value).map view,
    s')

def getMany (now : DateTime) (keys : List String)
    (collection : Option String) (s : Server) :
    Except Error (List (Option Value)) × Server :=
  fetchMany config (liveValue now) keys collection s

def ttlMany (now : DateTime) (keys : List String)
    (collection : Option String) (s : Server) :
    Except Error (List (Option (Value × Option F64))) × Server :=
  fetchMany config (liveTtl now) keys collection s

def putLoop (readings : Nat → Readings) (collection : String)
    (ttl : Option F64) :
    Nat → List (String × Value) → Server → Except Error Unit × Server
  | _, [], s => (.ok (), s)
  | i, (key, value) :: items, s =>
      match put config (readings i) key value (some collection) ttl s with
      | (.error error, s') => (.error error, s')
      | (.ok _, s') => putLoop readings collection ttl (i + 1) items s'

def putMany (readings : Nat → Readings) (validated : DateTime)
    (keys : List String) (values : List Value) (collection : Option String)
    (ttl : Option F64) (s : Server) : Except Error Unit × Server :=
  if keys.length ≠ values.length then
    (.error (.batchSizeMismatch keys.length values.length), s)
  else
    match (match ttl with
      | some seconds => ManagedEntry.validateTtl validated seconds
      | none => .ok ()) with
    | .error error => (.error error, s)
    | .ok _ =>
        putLoop config readings (config.collectionName collection) ttl 0
          (keys.zip values) s

def deleteLoop (readings : Nat → Readings) (collection : String) :
    Nat → List String → Nat → Server → Except Error Nat × Server
  | _, [], count, s => (.ok count, s)
  | i, key :: keys, count, s =>
      match delete config (readings i) key (some collection) s with
      | (.error error, s') => (.error error, s')
      | (.ok deleted, s') =>
          deleteLoop readings collection (i + 1) keys
            (if deleted then count + 1 else count) s'

def deleteMany (readings : Nat → Readings) (keys : List String)
    (collection : Option String) (s : Server) : Except Error Nat × Server :=
  deleteLoop config readings (config.collectionName collection) 0 keys 0 s

def collectKeys (collection : String) (limit : Nat) :
    List String → List String → Except Error (List String × Bool)
  | [], keys => .ok (keys, false)
  | identity :: identities, keys =>
      match stripPrefix config.keyspace.frame identity with
      | none => .error (.invalidKey
          "Redis SCAN returned an identity outside keyspace")
      | some logicalIdentity => do
          let (keyCollection, key) ← decompoundKey logicalIdentity
          if keyCollection ≠ collection then
            .error (.invalidKey
              s!"Redis SCAN returned an identity outside collection {repr collection}")
          else
            let keys := keys.insert key
            if keys.length = limit then return (keys, true)
            else collectKeys collection limit identities keys

def keysLoop (collection : String) (limit : Nat) :
    List (List String) → List String → Except Error (List String)
  | [], keys => .ok keys
  | page :: pages, keys => do
      let (keys, full) ← collectKeys config collection limit
        (scanMatch (collectionScanPattern config.keyspace collection) page) keys
      if full then return keys else keysLoop collection limit pages keys

def keys (collection : Option String) (limit : Option Nat)
    (pages : List (List String)) : Except Error (List String) :=
  let limit := pageLimit limit
  if limit = 0 then .ok []
  else keysLoop config (config.collectionName collection) limit pages []

def collectCollections : List String → List String →
    Except Error (List String)
  | [], names => .ok names
  | identity :: identities, names =>
      if isInternalKey config.keyspace identity then
        collectCollections identities names
      else do
        let (collection, _) ← decompoundKey identity
        collectCollections identities (names.insert collection)

def registerAll (registry : String) : List String → Script Unit
  | [] => pure ()
  | name :: names => do
      sadd registry name
      registerAll registry names

def collections (limit : Option Nat) (pages : List (List String))
    (s : Server) : Except Error (List String) × Server :=
  let limit := pageLimit limit
  if limit = 0 then (.ok [], s)
  else
    let registry := registryKey config.keyspace
    match invoke (existsKey registry) s with
    | (.error error, s) => (.error error, s)
    | (.ok true, s) =>
        let (r, s') := invoke (smembers registry) s
        (r.map (List.take limit), s')
    | (.ok false, s) =>
        if !config.keyspace.isEmpty then (.ok [], s)
        else
          match collectCollections config (scanMatch "*" pages.flatten) [] with
          | .error error => (.error error, s)
          | .ok names =>
              let (r, s') := invoke (registerAll registry names) s
              (r.map fun _ => names.take limit, s')

/-- `destroy_collection` on the pages of its `SCAN`, each with the reading of
the clock for it. -/
def destroyPages (collection : String)
    (pages : List (DateTime × List String)) (s : Server) :
    Except Error Bool × Server :=
  destroyLoop config collection
    (pages.map fun page =>
      (page.1, scanMatch (collectionScanPattern config.keyspace collection)
        page.2)) false s

def deletePages (pattern : String) : List (List String) → Script Unit
  | [] => pure ()
  | page :: pages => do
      if (scanMatch pattern page).isEmpty then deletePages pattern pages
      else do
        delAll (scanMatch pattern page)
        deletePages pattern pages

def destroy (pages : List (List String)) (s : Server) :
    Except Error Bool × Server :=
  let script :=
    if config.keyspace.isEmpty then flushdb
    else deletePages (scanPattern config.keyspace.frame) pages
  let (r, s') := invoke script s
  (r.map fun _ => true, s')

end Operations

end RedisStore

/-- An operation of a store, with its arguments, its readings and the pages
of its `SCAN`. -/
inductive Operation where
  | call (single : Call) (readings : Readings)
  | get (now : DateTime) (key : String) (collection : Option String)
  | ttl (now : DateTime) (key : String) (collection : Option String)
  | getWithRevision (now : DateTime) (key : String)
      (collection : Option String)
  | getMany (now : DateTime) (keys : List String)
      (collection : Option String)
  | ttlMany (now : DateTime) (keys : List String)
      (collection : Option String)
  | putMany (readings : Nat → Readings) (validated : DateTime)
      (keys : List String) (values : List Value) (collection : Option String)
      (seconds : Option F64)
  | deleteMany (readings : Nat → Readings) (keys : List String)
      (collection : Option String)
  | collections (limit : Option Nat) (pages : List (List String))
  | destroyCollection (collection : String)
      (pages : List (DateTime × List String))
  | destroy (pages : List (List String))

/-- The server after an operation.  `keys`, `cull`, `subscribe` and `recv`
only read. -/
def Operation.after (config : RedisConfig) (s : Server) : Operation → Server
  | .call single readings => (single.run config readings s).2
  | .get now key collection =>
      (RedisStore.get config now key collection s).2
  | .ttl now key collection =>
      (RedisStore.ttl config now key collection s).2
  | .getWithRevision now key collection =>
      (RedisStore.getWithRevision config now key collection s).2
  | .getMany now keys collection =>
      (RedisStore.getMany config now keys collection s).2
  | .ttlMany now keys collection =>
      (RedisStore.ttlMany config now keys collection s).2
  | .putMany readings validated keys values collection seconds =>
      (RedisStore.putMany config readings validated keys values collection
        seconds s).2
  | .deleteMany readings keys collection =>
      (RedisStore.deleteMany config readings keys collection s).2
  | .collections limit pages =>
      (RedisStore.collections config limit pages s).2
  | .destroyCollection collection pages =>
      (RedisStore.destroyPages config collection pages s).2
  | .destroy pages => (RedisStore.destroy config pages s).2

end OpenKeyV.Redis
