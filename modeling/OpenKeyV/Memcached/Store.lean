import OpenKeyV.Entry.Lifetime
import OpenKeyV.Library.Base64Url
import OpenKeyV.Library.KeyedMap
import OpenKeyV.Utils.Compound

/-!
# `MemcachedStore`

Reads and writes of `store/memcached/store.rs`, over a server that keeps a
deadline for each item.  The instants at which an operation reads the clock,
and at which a request reaches the server, are arguments.
-/

namespace OpenKeyV.Memcached

open Library

def nanosPerSecond : Int := 1000000000

def relativeLimit : Nat := 2592000

structure CachedItem where
  bytes : Bytes
  deadline : Option Int
  deriving DecidableEq, Repr

abbrev Server := KeyedMap String CachedItem

def nativeDeadline (exptime : Nat) (sent : DateTime) : Option Int :=
  if exptime = 0 then none
  else if exptime ≤ relativeLimit then
    some (sent.nanos + exptime * nanosPerSecond)
  else some (exptime * nanosPerSecond)

namespace Server

variable (s : Server)

def set (ck : String) (bytes : Bytes) (exptime : Nat) (sent : DateTime) :
    Server :=
  s.insert ck ⟨bytes, nativeDeadline exptime sent⟩

def get (ck : String) (asked : DateTime) : Option Bytes :=
  ((s.lookup ck).filter fun item =>
    item.deadline.all fun deadline => decide (asked.nanos < deadline)).map
      CachedItem.bytes

def delete (ck : String) : Server := s.erase ck

end Server

def memcachedKeyMaxBytes : Nat := 250

def memcachedKey (collection key : String) : Except Error String :=
  let encoded := Base64Url.encode (utf8 (compoundKey collection key))
  if memcachedKeyMaxBytes < encoded.utf8ByteSize then
    .error (.invalidKey (s!"encoded memcached key is " ++
      s!"{encoded.utf8ByteSize} bytes (max {memcachedKeyMaxBytes})"))
  else .ok encoded

namespace MemcachedStore

structure ReadReadings where
  asked : DateTime
  checked : DateTime
  measured : DateTime

structure PutReadings where
  created : DateTime
  measured : DateTime
  sent : DateTime

section Operations

variable (defaultCollection : String)

def collectionName (collection : Option String) : String :=
  collection.getD defaultCollection

def readEntry (r : ReadReadings) (key : String) (collection : Option String)
    (s : Server) : Except Error (Option ManagedEntry) × Server :=
  match memcachedKey (collectionName defaultCollection collection) key with
  | .error error => (.error error, s)
  | .ok ck =>
      match s.get ck r.asked with
      | none => (.ok none, s)
      | some raw =>
          match ManagedEntry.decode raw with
          | .error error => (.error error, s)
          | .ok entry =>
              if entry.isExpired r.checked then (.ok none, s.delete ck)
              else (.ok (some entry), s)

def get (r : ReadReadings) (key : String) (collection : Option String)
    (s : Server) : Except Error (Option Value) × Server :=
  let (result, s) := readEntry defaultCollection r key collection s
  (result.map fun entry => entry.map ManagedEntry.value, s)

def ttl (r : ReadReadings) (key : String) (collection : Option String)
    (s : Server) : Except Error (Option (Value × Option F64)) × Server :=
  let (result, s) := readEntry defaultCollection r key collection s
  (result.map fun entry => entry.map fun entry =>
    (entry.value, entry.ttl r.measured), s)

def exptime (ttl : Option F64) : Nat :=
  (ttl.map fun seconds => (seconds.max 1).toUnsigned 32).getD 0

def put (r : PutReadings) (key : String) (value : Value)
    (collection : Option String) (ttl : Option F64) (s : Server) :
    Except Error Unit × Server :=
  match memcachedKey (collectionName defaultCollection collection) key with
  | .error error => (.error error, s)
  | .ok ck =>
      match ManagedEntry.ofTtl r.created value ttl with
      | .error error => (.error error, s)
      | .ok entry => (.ok (),
          s.set ck entry.encode (exptime (entry.ttl r.measured)) r.sent)

def prepare (created : Nat → DateTime) (cname : String) (ttl : Option F64) :
    Nat → List (String × Value) → Except Error (List (String × Bytes))
  | _, [] => .ok []
  | i, (key, value) :: items => do
      let entry ← ManagedEntry.ofTtl (created i) value ttl
      let ck ← memcachedKey cname key
      let rest ← prepare created cname ttl (i + 1) items
      return (ck, entry.encode) :: rest

def sendAll (sent : Nat → DateTime) (exptime : Nat) :
    Nat → List (String × Bytes) → Server → Server
  | _, [], s => s
  | i, (ck, encoded) :: entries, s =>
      sendAll sent exptime (i + 1) entries (s.set ck encoded exptime (sent i))

def putMany (validated : DateTime) (readings : Nat → PutReadings)
    (keys : List String) (values : List Value) (collection : Option String)
    (ttl : Option F64) (s : Server) : Except Error Unit × Server :=
  if keys.length ≠ values.length then
    (.error (.batchSizeMismatch keys.length values.length), s)
  else
    match (match ttl with
      | some seconds => ManagedEntry.validateTtl validated seconds
      | none => .ok ()) with
    | .error error => (.error error, s)
    | .ok _ =>
        match prepare (fun i => (readings i).created)
            (collectionName defaultCollection collection) ttl 0
            (keys.zip values) with
        | .error error => (.error error, s)
        | .ok entries => (.ok (),
            sendAll (fun i => (readings i).sent) (exptime ttl) 0 entries s)

end Operations

end MemcachedStore

end OpenKeyV.Memcached
