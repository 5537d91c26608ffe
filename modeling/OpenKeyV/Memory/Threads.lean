import OpenKeyV.Library.Interaction
import OpenKeyV.Memory.Cancellation

/-!
# Threads on one `MemoryStore`

The calls of `store/memory/store.rs` on several threads, where other calls
come between any two accesses of the shared maps and locks.  A reference into
the map of collections keeps its collection there.  References into one
collection are not modelled: no call waits for them here.
-/

namespace OpenKeyV.Memory

open OpenKeyV.Library OpenKeyV.Library.Interaction

inductive Access where
  | lockSetup
  | seed (name : String) (items : KeyedMap String Value)
  | unlockSetup (complete : Bool)
  | create (name : String)
  | validateTtl (seconds : F64)
  | stamp (value : Value) (ttl : Option F64)
  | stampMany (values : List Value) (ttl : Option F64)
  | lockMutation
  | unlockMutation
  | find (name : String)
  | leave (name : String)
  | peek (name key : String)
  | listKeys (name : String) (limit : Option Nat)
  | perform (action : Action)
  | record (mutation : Mutation)
  | clear
  | resetSetup

@[reducible] def Access.Answer : Access → Type
  | .lockSetup | .find _ => Bool
  | .seed .. | .validateTtl _ => Except Error Unit
  | .stamp .. => Except Error RevisionedEntry
  | .stampMany .. => Except Error (List RevisionedEntry)
  | .peek .. => Option RevisionedValue
  | .listKeys .. => List String
  | .perform _ => Except Error Response × List Mutation
  | _ => Unit

abbrev Requests := Calls Error Access.Answer

namespace Threads

def send (a : Access) : Requests a.Answer := access a

section Calls

variable (config : MemoryConfig)

def seedAll : List (Sigma fun _ : String => KeyedMap String Value) →
    Requests Unit
  | [] => return ()
  | ⟨name, items⟩ :: seed => do
      attempt (← send (.seed name items))
      seedAll seed

def setup : Requests Unit := do
  if ← send .lockSetup then send (.unlockSetup false)
  else
    match config.seed with
    | none => send (.unlockSetup true)
    | some seed => do
        let result ← observe (seedAll seed.entries)
        send (.unlockSetup result.toBool)
        attempt result

def setupCollection (name : String) : Requests Unit := do
  setup config
  send (.create name)

def getCollection (name : String) : Requests Unit := do
  if ← send (.find name) then return ()
  else attempt (.error (collectionNotFound name))

def borrowing {α : Type} (name : String) (body : Requests α) : Requests α := do
  getCollection name
  let result ← observe body
  send (.leave name)
  attempt result

def locked {α : Type} (body : Requests α) : Requests α := do
  send .lockMutation
  let result ← observe body
  send .unlockMutation
  attempt result

def recordAll : List Mutation → Requests Unit
  | [] => return ()
  | mutation :: mutations => do
      send (.record mutation)
      recordAll mutations

def performRecorded (action : Action) : Requests Response := do
  let (result, pending) ← send (.perform action)
  recordAll pending
  attempt result

def peekAll (name : String) : List String →
    Requests (List (Option RevisionedValue))
  | [] => return []
  | key :: keys => do
      let found ← send (.peek name key)
      let rest ← peekAll name keys
      return found :: rest

def removeAll (name : String) : List String → Requests (List Mutation)
  | [] => return []
  | key :: keys => do
      let (result, pending) ← send (.perform (.delete name key))
      let _ ← attempt result
      let rest ← removeAll name keys
      return pending ++ rest

def reading {α : Type} (collection : Option String)
    (read : String → Requests α) (answer : α → Response) :
    Requests Response := do
  let name := config.collectionName collection
  setupCollection config name
  let found ← borrowing name (read name)
  return answer found

def get (key : String) (collection : Option String) : Requests Response :=
  reading config collection (fun name => send (.peek name key))
    fun found => .value (found.map (·.value))

def ttl (key : String) (collection : Option String) : Requests Response :=
  reading config collection (fun name => send (.peek name key))
    fun found => .ttl (found.map fun current => (current.value, current.ttl))

def getMany (keys : List String) (collection : Option String) :
    Requests Response :=
  reading config collection (fun name => peekAll name keys)
    fun found => .values (found.map fun current => current.map (·.value))

def ttlMany (keys : List String) (collection : Option String) :
    Requests Response :=
  reading config collection (fun name => peekAll name keys)
    fun found => .ttls (found.map fun current =>
      current.map fun current => (current.value, current.ttl))

def getWithRevision (key : String) (collection : Option String) :
    Requests Response :=
  reading config collection (fun name => send (.peek name key)) .revisioned

def keys (collection : Option String) (limit : Option Nat) :
    Requests Response :=
  reading config collection (fun name => send (.listKeys name limit)) .names

def put (key : String) (value : Value) (collection : Option String)
    (ttl : Option F64) : Requests Response := do
  let name := config.collectionName collection
  setupCollection config name
  let stored ← send (.stamp value ttl) >>= attempt
  locked (performRecorded (.put name key stored))

def putMany (keys : List String) (values : List Value)
    (collection : Option String) (ttl : Option F64) : Requests Response :=
  if keys.length ≠ values.length then
    attempt (.error (.batchSizeMismatch keys.length values.length))
  else do
    if let some seconds := ttl then
      send (.validateTtl seconds) >>= attempt
    let name := config.collectionName collection
    setupCollection config name
    let entries ← send (.stampMany values ttl) >>= attempt
    locked (performRecorded (.putMany name keys entries))

def delete (key : String) (collection : Option String) :
    Requests Response := do
  let name := config.collectionName collection
  setupCollection config name
  locked (borrowing name (performRecorded (.delete name key)))

def deleteMany (keys : List String) (collection : Option String) :
    Requests Response := do
  let name := config.collectionName collection
  setupCollection config name
  locked (borrowing name do
    let deleted ← removeAll name keys
    recordAll deleted
    return .count deleted.length)

def compareAndSwap (key : String) (expected : Option Revision) (value : Value)
    (collection : Option String) (ttl : Option F64) : Requests Response := do
  if let some seconds := ttl then
    send (.validateTtl seconds) >>= attempt
  let name := config.collectionName collection
  setupCollection config name
  let stored ← send (.stamp value ttl) >>= attempt
  locked (borrowing name
    (performRecorded (.compareAndSwap name key expected stored)))

def compareAndDelete (key : String) (expected : Revision)
    (collection : Option String) : Requests Response := do
  let name := config.collectionName collection
  setupCollection config name
  locked (borrowing name
    (performRecorded (.compareAndDelete name key expected)))

def destroyCollection (name : String) : Requests Response := do
  setup config
  locked (performRecorded (.destroyCollection name))

def destroy : Requests Response :=
  locked do
    send .clear
    send .resetSetup
    return .flag true

end Calls

inductive ThreadCall where
  | get (key : String) (collection : Option String)
  | ttl (key : String) (collection : Option String)
  | getMany (keys : List String) (collection : Option String)
  | ttlMany (keys : List String) (collection : Option String)
  | getWithRevision (key : String) (collection : Option String)
  | keys (collection : Option String) (limit : Option Nat)
  | put (key : String) (value : Value) (collection : Option String)
      (ttl : Option F64)
  | putMany (keys : List String) (values : List Value)
      (collection : Option String) (ttl : Option F64)
  | delete (key : String) (collection : Option String)
  | deleteMany (keys : List String) (collection : Option String)
  | compareAndSwap (key : String) (expected : Option Revision) (value : Value)
      (collection : Option String) (ttl : Option F64)
  | compareAndDelete (key : String) (expected : Revision)
      (collection : Option String)
  | destroyCollection (name : String)
  | destroy

def requests (config : MemoryConfig) : ThreadCall → Requests Response
  | .get key collection => get config key collection
  | .ttl key collection => ttl config key collection
  | .getMany keys collection => getMany config keys collection
  | .ttlMany keys collection => ttlMany config keys collection
  | .getWithRevision key collection => getWithRevision config key collection
  | .keys collection limit => keys config collection limit
  | .put key value collection seconds => put config key value collection seconds
  | .putMany keys values collection seconds =>
      putMany config keys values collection seconds
  | .delete key collection => delete config key collection
  | .deleteMany keys collection => deleteMany config keys collection
  | .compareAndSwap key expected value collection seconds =>
      compareAndSwap config key expected value collection seconds
  | .compareAndDelete key expected collection =>
      compareAndDelete config key expected collection
  | .destroyCollection name => destroyCollection config name
  | .destroy => destroy

def program (config : MemoryConfig) (call : ThreadCall) :
    Interaction Access.Answer (Except Error Response) :=
  (requests config call).run

/-- `lost` is a history variable. -/
structure Heap where
  state : MemoryState
  clock : DateTime
  setupLocked : Bool
  mutationLocked : Bool
  readers : List (Nat × String)
  /-- The collection has been removed, and not been created since. -/
  lost : String → Bool

/-- The collection of which the action needs a reference for itself. -/
def exclusive : Action → Option String
  | .put name _ _ | .putMany name _ _ | .destroyCollection name => some name
  | _ => none

def losing (lost : String → Bool) : Action → String → Bool
  | .destroyCollection name => Function.update lost name true
  | _ => lost

namespace Heap

def start (state : MemoryState) (clock : DateTime) : Heap :=
  ⟨state, clock, false, false, [], fun _ => false⟩

def referenced (s : Heap) (name : String) : Bool :=
  s.readers.any fun reader => reader.2 == name

def created (s : Heap) (name : String) (state : MemoryState) : Heap :=
  { s with state, lost := Function.update s.lost name false }

section Handle

variable (config : MemoryConfig) (rng : Nat → Option Revision)

def stampMany (now : DateTime) (values : List Value) (ttl : Option F64)
    (s : MemoryState) : Except Error (List RevisionedEntry) × MemoryState :=
  match values.mapM fun value => ManagedEntry.ofTtl now value ttl with
  | .error error => (.error error, s)
  | .ok entries =>
      match freshMany rng entries.length s with
      | (.error error, s) => (.error error, s)
      | (.ok revisions, s) =>
          (.ok (entries.zipWith RevisionedEntry.mk revisions), s)

def stamp (now : DateTime) (value : Value) (ttl : Option F64)
    (s : MemoryState) : Except Error RevisionedEntry × MemoryState :=
  match ManagedEntry.ofTtl now value ttl with
  | .error error => (.error error, s)
  | .ok entry =>
      match s.fresh rng with
      | (.error error, s) => (.error error, s)
      | (.ok revision, s) => (.ok ⟨entry, revision⟩, s)

def seed (now : DateTime) (order : Order) (name : String)
    (items : KeyedMap String Value) (s : MemoryState) :
    Except Error Unit × MemoryState :=
  match loadItems rng now name items.entries (s.ensureCollection name) with
  | (.error error, s) => (.error error, s)
  | (.ok (), s) => (.ok (), (enforceCapacity config now order name s).1)

def handle (task : Nat) (order : Order) :
    (access : Access) → Heap → Option (access.Answer × Heap)
  | .lockSetup, s =>
      if s.setupLocked then none
      else some (s.state.setupComplete, { s with setupLocked := true })
  | .seed name items, s =>
      if s.referenced name then none
      else
        let (result, state) := seed config rng s.clock order name items s.state
        some (result, s.created name state)
  | .unlockSetup complete, s => some ((), { s with
      state := if complete then { s.state with setupComplete := true }
        else s.state
      setupLocked := false })
  | .create name, s =>
      if s.referenced name then none
      else some ((), s.created name (s.state.ensureCollection name))
  | .validateTtl seconds, s =>
      some (ManagedEntry.validateTtl s.clock seconds, s)
  | .stamp value ttl, s =>
      let (result, state) := stamp rng s.clock value ttl s.state
      some (result, { s with state })
  | .stampMany values ttl, s =>
      let (result, state) := stampMany rng s.clock values ttl s.state
      some (result, { s with state })
  | .lockMutation, s =>
      if s.mutationLocked then none
      else some ((), { s with mutationLocked := true })
  | .unlockMutation, s => some ((), { s with mutationLocked := false })
  | .find name, s =>
      if (s.state.collection name).isSome then
        some (true, { s with readers := (task, name) :: s.readers })
      else some (false, s)
  | .leave name, s =>
      some ((), { s with readers := s.readers.erase (task, name) })
  | .peek name key, s =>
      some ((s.state.live s.clock name key).map (·.snapshot s.clock), s)
  | .listKeys name limit, s =>
      some ((order.keys name ((s.state.collection name).getD ∅).keys).take
        (pageLen limit), s)
  | .perform action, s =>
      if (exclusive action).any s.referenced then none
      else
        let done := Memory.perform config s.clock order s.state action
        some ((done.result, done.pending), { s with
          state := done.state
          lost := losing s.lost action })
  | .record mutation, s =>
      some ((), { s with state := s.state.recordChange s.clock mutation })
  | .clear, s =>
      if s.readers.isEmpty then
        some ((), { s with state := s.state.clear, lost := fun _ => true })
      else none
  | .resetSetup, s =>
      if s.setupLocked then none
      else some ((), { s with
        state := { s.state with setupComplete := false } })

/-- A store in which a collection that is not there counts as an empty one. -/
def handleEmpty (task : Nat) (order : Order) (access : Access) (s : Heap) :
    Option (access.Answer × Heap) :=
  match access with
  | .find name => some (true, { s with
      state := s.state.ensureCollection name
      readers := (task, name) :: s.readers })
  | access => handle config rng task order access s

end Handle

def happen (later : DateTime) (s : Heap) : Option Heap :=
  if s.clock ≤ later then some { s with clock := later } else none

end Heap

abbrev ThreadPool :=
  Pool Heap ThreadCall Access.Answer (Except Error Response)

def step (config : MemoryConfig) (rng : Nat → Option Revision) :=
  Pool.step (program config) (Heap.handle config rng) Heap.happen

def stepEmpty (config : MemoryConfig) (rng : Nat → Option Revision) :=
  Pool.step (program config) (Heap.handleEmpty config rng) Heap.happen

end Threads

end OpenKeyV.Memory
