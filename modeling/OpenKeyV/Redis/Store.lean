import OpenKeyV.Redis.Keyspace

/-!
# `RedisStore`

The operations of `store/redis/store.rs` that change the keyspace, as
functions of the server they run on.  `ValkeyStore` has the same text.  The
readings of the clock and of the random source that an operation makes are its
`Readings`; the batches that `SCAN` returns are an argument.
-/

namespace OpenKeyV.Redis

open Library Program

structure RedisConfig where
  defaultCollection : String
  keyspace : Subspace
  changeRetention : Nat
  deriving DecidableEq, Repr

structure Readings where
  created : DateTime
  fresh : Option Revision
  occurred : DateTime
  decoded : DateTime
  deriving DecidableEq, Repr

def ServerError.text : ServerError → String
  | .wrongType =>
      "WRONGTYPE Operation against a key holding the wrong kind of value"
  | .notAnInteger => "ERR value is not an integer or out of range"
  | .overflow => "ERR increment or decrement would overflow"
  | .invalidStreamId =>
      "ERR Invalid stream ID specified as stream command argument"
  | .idTooSmall =>
      "ERR The ID specified in XADD is equal or smaller than the target " ++
        "stream top item"

def mapRedisErr (error : ServerError) : Error := .storeConnection error.text

def invoke {α : Type} (script : Script α) (s : Server) :
    Except Error α × Server :=
  ((eval script s).1.mapError mapRedisErr, (eval script s).2)

def RedisConfig.collectionName (config : RedisConfig)
    (collection : Option String) : String :=
  collection.getD config.defaultCollection

def ttlMilliseconds : Option F64 → Nat
  | some (.finite seconds) => (seconds * 1000).ceil.toNat
  | _ => 0

def timestampText (t : DateTime) : String := toString t.timestampMillis

def decodeCurrent (now : DateTime) :
    Option RedisValue → Except Error (Option RevisionedValue)
  | some (.bulkString bytes) => do
      match ← Cas.decode (some bytes) with
      | some cas => return Cas.toRevisionedValue now cas
      | none => return none
  | some .nil | some (.boolean false) | none => .ok none
  | some other =>
      .error (.storeConnection s!"unexpected CAS current value: {repr other}")

def decodeCasOutcome (now : DateTime) (reply : List RedisValue)
    (newRevision : Revision) : Except Error CompareAndSwapResult :=
  match reply.head? with
  | some (.int 1) => .ok (.applied newRevision)
  | some (.int 0) => do
      let current ← decodeCurrent now reply[1]?
      return .conflict current
  | some other =>
      .error (.storeConnection s!"unexpected CAS status: {repr other}")
  | none => .error (.storeConnection "CAS reply missing status")

def decodeCadOutcome (now : DateTime) (reply : List RedisValue) :
    Except Error CompareAndDeleteResult :=
  match reply.head? with
  | some (.int 1) => .ok .deleted
  | some (.int 0) => do
      let current ← decodeCurrent now reply[1]?
      return .conflict current
  | some other =>
      .error (.storeConnection s!"unexpected CAD status: {repr other}")
  | none => .error (.storeConnection "CAD reply missing status")

theorem decodeCasOutcome_swapReply (now : DateTime) (expected : Bytes)
    (value : Option Bytes) (newRevision : Revision) :
    decodeCasOutcome now (swapReply expected value) newRevision =
      if swaps expected value then .ok (.applied newRevision)
      else (decodeCurrent now (some (conflictSlot value))).map .conflict := by
  unfold swapReply
  split
  · rfl
  · simp only [decodeCasOutcome, List.head?_cons]
    cases hcurrent : decodeCurrent now (some (conflictSlot value)) <;>
      simp [hcurrent, bind, Except.bind, Except.map, pure, Except.pure]

theorem decodeCadOutcome_removeReply (now : DateTime) (expected : Bytes)
    (value : Option Bytes) :
    decodeCadOutcome now (removeReply expected value) =
      if removes expected value then .ok .deleted
      else (decodeCurrent now (some (conflictSlot value))).map .conflict := by
  unfold removeReply
  split
  · rfl
  · simp only [decodeCadOutcome, List.head?_cons]
    cases hcurrent : decodeCurrent now (some (conflictSlot value)) <;>
      simp [hcurrent, bind, Except.bind, Except.map, pure, Except.pure]

namespace RedisStore

section Operations

variable (config : RedisConfig) (readings : Readings)

def newEnvelope (value : Value) (ttl : Option F64) :
    Except Error (Bytes × Revision) := do
  let entry ← ManagedEntry.ofTtl readings.created value ttl
  match readings.fresh with
  | some revision => return (Cas.encode entry revision, revision)
  | none => .error (.revisionGeneration "random source failed")

def put (key : String) (value : Value) (collection : Option String)
    (ttl : Option F64) (s : Server) : Except Error Unit × Server :=
  let name := config.collectionName collection
  match newEnvelope readings value ttl with
  | .error error => (.error error, s)
  | .ok (envelope, _) =>
      let (r, s') := invoke (putChangeScript
        (subspaceCompoundKey config.keyspace name key)
        (revisionKey config.keyspace) (streamKey config.keyspace)
        (registryKey config.keyspace) envelope (ttlMilliseconds ttl) name key
        (timestampText readings.occurred) config.changeRetention) s
      (r.map fun _ => (), s')

def delete (key : String) (collection : Option String) (s : Server) :
    Except Error Bool × Server :=
  let name := config.collectionName collection
  let (r, s') := invoke (deleteChangeScript
    (subspaceCompoundKey config.keyspace name key)
    (revisionKey config.keyspace) (streamKey config.keyspace) name key
    config.changeRetention (timestampText readings.occurred)) s
  (r.map Option.isSome, s')

def compareAndSwap (key : String) (expected : Option Revision) (value : Value)
    (collection : Option String) (ttl : Option F64) (s : Server) :
    Except Error CompareAndSwapResult × Server :=
  let name := config.collectionName collection
  match newEnvelope readings value ttl with
  | .error error => (.error error, s)
  | .ok (envelope, newRevision) =>
      let expectedBytes := (expected.map Revision.asBytes).getD []
      let (r, s') := invoke (compareAndSwapScript
        (subspaceCompoundKey config.keyspace name key)
        (registryKey config.keyspace) expectedBytes envelope
        (ttlMilliseconds ttl) (Cas.magicLen + Revision.byteLen) name) s
      (r.bind fun reply => decodeCasOutcome readings.decoded reply newRevision,
        s')

def compareAndDelete (key : String) (expected : Revision)
    (collection : Option String) (s : Server) :
    Except Error CompareAndDeleteResult × Server :=
  let name := config.collectionName collection
  let (r, s') := invoke (compareAndDeleteScript
    (subspaceCompoundKey config.keyspace name key) expected.asBytes
    (Cas.magicLen + Revision.byteLen)) s
  (r.bind fun reply => decodeCadOutcome readings.decoded reply, s')

def scannedKeys (collection : String) :
    List String → Except Error (List (String × String))
  | [] => .ok []
  | identity :: identities =>
      match stripPrefix config.keyspace.frame identity with
      | none => .error (.invalidKey
          "Redis SCAN returned an identity outside keyspace")
      | some logicalIdentity => do
          let (keyCollection, key) ← decompoundKey logicalIdentity
          if keyCollection ≠ collection then
            .error (.invalidKey
              s!"Redis SCAN returned an identity outside collection {repr collection}")
          else do
            let rest ← scannedKeys collection identities
            return (identity, key) :: rest

def destroyLoop (collection : String) :
    List (DateTime × List String) → Bool → Server → Except Error Bool × Server
  | [], destroyed, s => (.ok destroyed, s)
  | (occurred, identities) :: batches, destroyed, s =>
      match scannedKeys config collection identities with
      | .error error => (.error error, s)
      | .ok [] => destroyLoop collection batches destroyed s
      | .ok pairs =>
          match invoke (bulkDeleteChangeScript (revisionKey config.keyspace)
              (streamKey config.keyspace) config.changeRetention collection
              (timestampText occurred) pairs 0) s with
          | (.error error, s') => (.error error, s')
          | (.ok removed, s') =>
              destroyLoop collection batches (destroyed || decide (0 < removed))
                s'

/-- `MATCH` returns identities that start with the frame of the collection;
`scanned` lists what follows it. -/
def destroyCollection (collection : String)
    (scanned : List (DateTime × List String)) (s : Server) :
    Except Error Bool × Server :=
  destroyLoop config collection
    (scanned.map fun batch =>
      (batch.1, batch.2.map (subspaceCompoundKey config.keyspace collection)))
    false s

def fetch (key : String) (collection : Option String) (s : Server) :
    Except Error (Option Cas.CasEntry) × Server :=
  let (r, s') := invoke (Redis.get (subspaceCompoundKey config.keyspace
    (config.collectionName collection) key)) s
  (r.bind Cas.decode, s')

def get (now : DateTime) (key : String) (collection : Option String)
    (s : Server) : Except Error (Option Value) × Server :=
  let (r, s') := fetch config key collection s
  (r.map fun stored =>
    (stored.filter fun cas => !cas.entry.isExpired now).map (·.entry.value), s')

def ttl (now : DateTime) (key : String) (collection : Option String)
    (s : Server) : Except Error (Option (Value × Option F64)) × Server :=
  let (r, s') := fetch config key collection s
  (r.map fun stored => (stored.filter fun cas => !cas.entry.isExpired now).map
    fun cas => (cas.entry.value, cas.entry.ttl now), s')

def getWithRevision (now : DateTime) (key : String)
    (collection : Option String) (s : Server) :
    Except Error (Option RevisionedValue) × Server :=
  let (r, s') := fetch config key collection s
  (r.map fun stored => stored.bind (Cas.toRevisionedValue now), s')

end Operations

end RedisStore

inductive Call where
  | put (key : String) (value : Value) (collection : Option String)
      (ttl : Option F64)
  | delete (key : String) (collection : Option String)
  | compareAndSwap (key : String) (expected : Option Revision) (value : Value)
      (collection : Option String) (ttl : Option F64)
  | compareAndDelete (key : String) (expected : Revision)
      (collection : Option String)
  | destroyCollection (collection : String)
      (scanned : List (DateTime × List String))
  deriving DecidableEq, Repr

inductive Outcome where
  | done
  | flag (value : Bool)
  | swap (result : CompareAndSwapResult)
  | remove (result : CompareAndDeleteResult)
  deriving DecidableEq, Repr

def Call.run (config : RedisConfig) (readings : Readings) (call : Call)
    (s : Server) : Except Error Outcome × Server :=
  match call with
  | .put key value collection ttl =>
      let (r, s') := RedisStore.put config readings key value collection ttl s
      (r.map fun _ => .done, s')
  | .delete key collection =>
      let (r, s') := RedisStore.delete config readings key collection s
      (r.map .flag, s')
  | .compareAndSwap key expected value collection ttl =>
      let (r, s') :=
        RedisStore.compareAndSwap config readings key expected value collection
          ttl s
      (r.map .swap, s')
  | .compareAndDelete key expected collection =>
      let (r, s') :=
        RedisStore.compareAndDelete config readings key expected collection s
      (r.map .remove, s')
  | .destroyCollection collection scanned =>
      let (r, s') := RedisStore.destroyCollection config collection scanned s
      (r.map .flag, s')

end OpenKeyV.Redis
