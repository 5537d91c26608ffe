import OpenKeyV.Change
import OpenKeyV.Entry
import OpenKeyV.Library.Decimal
import OpenKeyV.Library.Journal
import OpenKeyV.Library.KeyedMap
import OpenKeyV.Protocol

/-!
# `MemoryClient`

What one in-memory store holds: the nested maps, the setup flag and the change
state.  The source's random tokens are the readings of an oracle, counted by
`draws`; `events` is a journal of every insertion and removal that no
operation reads.
-/

namespace OpenKeyV.Memory

open OpenKeyV.Library

structure RevisionedEntry where
  entry : ManagedEntry
  revision : Revision
  deriving DecidableEq, Repr

def RevisionedEntry.isExpired (stored : RevisionedEntry) (now : DateTime) :
    Bool :=
  stored.entry.isExpired now

def RevisionedEntry.snapshot (stored : RevisionedEntry) (now : DateTime) :
    RevisionedValue :=
  ⟨stored.entry.value, stored.revision, stored.entry.ttl now⟩

abbrev Collection := KeyedMap String RevisionedEntry

abbrev MemoryCollections := KeyedMap String Collection

def changeRetention : Nat := 10000

structure Mutation where
  collection : String
  key : String
  operation : ChangeOperation
  deriving DecidableEq, Repr

def Mutation.cell (mutation : Mutation) : String × String :=
  (mutation.collection, mutation.key)

structure MemoryChangeState where
  revision : Nat
  entries : List StoreChange
  sent : List StoreChange
  deriving DecidableEq, Repr

namespace MemoryChangeState

def empty : MemoryChangeState := ⟨0, [], []⟩

def recordChange (now : DateTime) (mutation : Mutation)
    (state : MemoryChangeState) : MemoryChangeState :=
  let revision := state.revision + 1
  let change : StoreChange :=
    ⟨⟨toString revision⟩, revision, mutation.collection, mutation.key,
      mutation.operation, now⟩
  let entries :=
    if state.entries.length = changeRetention then state.entries.tail
    else state.entries
  ⟨revision, entries ++ [change], state.sent ++ [change]⟩

end MemoryChangeState

def changeMutation (change : StoreChange) : Mutation :=
  ⟨change.collection, change.key, change.operation⟩

/-- A subscription: what it replays, and how many changes had been sent when
its receiver was created. -/
structure MemoryChangeStream where
  replay : List StoreChange
  receiver : Nat
  filter : ChangeFilter
  deriving DecidableEq, Repr

def MemoryChangeState.subscribe (state : MemoryChangeState)
    (request : ChangeFeedRequest) : Except Error MemoryChangeStream :=
  let stream replay : MemoryChangeStream :=
    ⟨replay, state.sent.length, request.filter⟩
  match request.start with
  | .beginning => .ok (stream state.entries)
  | .latest => .ok (stream [])
  | .after cursor =>
      match parseUnsigned 64 cursor.text with
      | none => .error (.invalidChangeCursor cursor.text)
      | some requested =>
          if state.revision < requested then
            .error (.invalidChangeCursor cursor.text)
          else
            match state.entries.head?.map (·.revision) with
            | some oldest =>
                if requested < oldest - 1 then
                  .error (.changeCursorExpired cursor.text (toString oldest))
                else .ok (stream (state.entries.filter fun change =>
                  decide (requested < change.revision)))
            | none => .ok (stream [])

inductive Cause where
  | plain
  /-- By a `compare_and_swap` that expects no entry; whether it replaces an
  expired one. -/
  | created (overExpired : Bool)
  | swapped (expected : Revision)
  deriving DecidableEq, Repr

inductive Event where
  | wrote (collection key : String) (stored : RevisionedEntry) (cause : Cause)
  /-- Removed, by a `compare_and_delete` if a revision is given. -/
  | removed (collection key : String) (expected : Option Revision)
  deriving DecidableEq, Repr

namespace Event

def cell : Event → String × String
  | .wrote collection key _ _ | .removed collection key _ => (collection, key)

def stored : Event → Option RevisionedEntry
  | .wrote _ _ stored _ => some stored
  | .removed .. => none

def written (event : Event) : Option Revision :=
  event.stored.map (·.revision)

def consumed : Event → Option Revision
  | .wrote _ _ _ (.swapped expected) => some expected
  | .removed _ _ expected => expected
  | .wrote .. => none

end Event

structure MemoryState where
  collections : MemoryCollections
  setupComplete : Bool
  changes : MemoryChangeState
  draws : Nat
  events : List Event

namespace MemoryState

def empty : MemoryState := ⟨∅, false, .empty, 0, []⟩

def collection (s : MemoryState) (name : String) : Option Collection :=
  s.collections.lookup name

def entry (s : MemoryState) (name key : String) : Option RevisionedEntry :=
  (s.collection name).bind fun col => col.lookup key

def live (s : MemoryState) (now : DateTime) (name key : String) :
    Option RevisionedEntry :=
  (s.entry name key).filter fun stored => !stored.isExpired now

def ensureCollection (s : MemoryState) (name : String) : MemoryState :=
  match s.collection name with
  | some _ => s
  | none => { s with collections := s.collections.insert name ∅ }

def insertEntry (s : MemoryState) (name key : String)
    (stored : RevisionedEntry) (cause : Cause) : MemoryState :=
  match s.collection name with
  | none => s
  | some col =>
      { s with
        collections := s.collections.insert name (col.insert key stored)
        events := s.events ++ [.wrote name key stored cause] }

def removeEntry (s : MemoryState) (name key : String)
    (expected : Option Revision) : MemoryState :=
  match s.collection name with
  | none => s
  | some col =>
      { s with
        collections := s.collections.insert name (col.erase key)
        events := s.events ++ [.removed name key expected] }

def removeKeys (s : MemoryState) (name : String) (keys : List String) :
    MemoryState :=
  keys.foldl (fun s key => s.removeEntry name key none) s

def removeCollection (s : MemoryState) (name : String) (keys : List String) :
    MemoryState :=
  { s with
    collections := s.collections.erase name
    events := s.events ++ keys.map fun key => .removed name key none }

def clear (s : MemoryState) : MemoryState :=
  s.collections.entries.foldl
    (fun s entry => s.removeCollection entry.1 entry.2.keys) s

def recordChange (s : MemoryState) (now : DateTime) (mutation : Mutation) :
    MemoryState :=
  { s with changes := s.changes.recordChange now mutation }

def fresh (rng : Nat → Option Revision) (s : MemoryState) :
    Except Error Revision × MemoryState :=
  (match rng s.draws with
    | some revision => .ok revision
    | none => .error (.revisionGeneration "random source failed"),
    { s with draws := s.draws + 1 })

section Lemmas

variable (s : MemoryState) (name key : String)

theorem entry_eq {col : Collection} (h : s.collection name = some col) :
    s.entry name key = col.lookup key := by
  simp [entry, h]

@[simp] theorem collection_ensureCollection (name' : String) :
    (s.ensureCollection name).collection name' =
      if name' = name then some ((s.collection name).getD ∅)
      else s.collection name' := by
  unfold ensureCollection
  cases h : s.collection name with
  | some col =>
      by_cases hname : name' = name
      · subst hname
        simp [h]
      · simp [hname]
  | none => simp [collection, KeyedMap.lookup_insert_eq]

@[simp] theorem entry_ensureCollection (name' key' : String) :
    (s.ensureCollection name).entry name' key' = s.entry name' key' := by
  simp only [entry, collection_ensureCollection]
  split
  · rename_i h
    subst h
    cases s.collection name' <;> simp
  · rfl

theorem collection_insertEntry (stored : RevisionedEntry) (cause : Cause)
    (name' : String) :
    (s.insertEntry name key stored cause).collection name' =
      if name' = name then (s.collection name).map (·.insert key stored)
      else s.collection name' := by
  unfold insertEntry
  cases h : s.collection name with
  | some col => simp [collection, KeyedMap.lookup_insert_eq]
  | none =>
      by_cases hname : name' = name
      · simp [hname, h]
      · simp [hname]

theorem collection_removeEntry (expected : Option Revision) (name' : String) :
    (s.removeEntry name key expected).collection name' =
      if name' = name then (s.collection name).map (·.erase key)
      else s.collection name' := by
  unfold removeEntry
  cases h : s.collection name with
  | some col => simp [collection, KeyedMap.lookup_insert_eq]
  | none =>
      by_cases hname : name' = name
      · simp [hname, h]
      · simp [hname]

@[simp] theorem collection_removeCollection (keys : List String)
    (name' : String) :
    (s.removeCollection name keys).collection name' =
      if name' = name then none else s.collection name' :=
  KeyedMap.lookup_erase_eq _ _ _

end Lemmas

end MemoryState

end OpenKeyV.Memory
