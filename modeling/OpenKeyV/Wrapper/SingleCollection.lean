import OpenKeyV.Memory.Store
import OpenKeyV.Utils.Compound
import OpenKeyV.Wrapper.StoreContract

/-!
# The single-collection wrapper

`SingleCollectionWrapper` keeps every logical collection in one backing
collection, under compound identities.  Its store enumerates the keys of a
collection a page at a time.
-/

namespace OpenKeyV.Wrapper

open Library Memory

structure Table where
  entries : Entries
  names : List Identity
  nodup : names.Nodup
  mem_names : ∀ id, id ∈ names ↔ (entries id).isSome = true

namespace Table

def empty : Table := ⟨fun _ => none, [], .nil, fun _ => by simp⟩

def changed (t : Table) (touched : List Identity) (entries : Entries)
    (h : ∀ id, id ∉ touched → entries id = t.entries id) : Table where
  entries
  names := (t.names ++ touched).dedup.filter fun id => (entries id).isSome
  nodup := (List.nodup_dedup _).filter _
  mem_names id := by
    simp only [List.mem_filter, List.mem_dedup, List.mem_append,
      and_iff_right_iff_imp]
    intro hsome
    by_cases hid : id ∈ touched
    · exact .inr hid
    · rw [h id hid] at hsome
      exact .inl ((t.mem_names id).mpr hsome)

end Table

namespace StoreCall

def touched (defaultCollection : String) : StoreCall → List Identity
  | .one op => op.writes.map fun key =>
      (op.collection.getD defaultCollection, key)
  | .getMany .. | .ttlMany .. => []

theorem apply_other {now : DateTime} {revisions : Nat → Revision}
    {defaultCollection : String} {entries : Entries} (call : StoreCall)
    (id : Identity) (h : id ∉ call.touched defaultCollection) :
    (call.apply now revisions defaultCollection entries).2 id = entries id := by
  cases call with
  | getMany | ttlMany => rfl
  | one op =>
      refine op.apply_other fun key hkey heq => h ?_
      exact heq ▸ List.mem_map_of_mem hkey

end StoreCall

abbrev TableProgram := Program Table Error

section Inner

variable (shown : DateTime → Slot → Bool) (now : DateTime)
  (revisions : Nat → Revision) (defaultCollection : String)

def Table.apply (call : StoreCall) (t : Table) :
    Except Error call.Result × Table :=
  let outcome := call.apply now revisions defaultCollection t.entries
  (outcome.1, t.changed (call.touched defaultCollection) outcome.2
    fun id => call.apply_other id)

def Table.call (call : StoreCall) : TableProgram call.Result :=
  Program.ofFn (Table.apply now revisions defaultCollection call)

def Table.shownNames (t : Table) : List Identity :=
  t.names.filter fun id => (t.entries id).any (shown now)

def Table.keysOf (t : Table) (collection : String) : List String :=
  ((t.shownNames shown now).filter fun id => id.1 = collection).map Prod.snd

def Table.keys (order : Order) (collection : Option String)
    (limit : Option Nat) : TableProgram (List String) :=
  Program.ofFn fun t =>
    let name := collection.getD defaultCollection
    (.ok ((order.keys name (t.keysOf shown now name)).take (pageLen limit)), t)

end Inner

structure SingleCollectionWrapper where
  backingCollection : String

namespace SingleCollectionWrapper

def usizeMax : Nat := 2 ^ 64 - 1

variable (w : SingleCollectionWrapper)

def collectionOf (collection : Option String) : String :=
  collection.getD "default_collection"

def compoundKey (collection : Option String) (key : String) : String :=
  OpenKeyV.compoundKey (collectionOf collection) key

section Calls

variable (inner : (call : StoreCall) → TableProgram call.Result)

def get (key : String) (collection : Option String) :
    TableProgram (Option Value) :=
  inner (.one (.get (compoundKey collection key) (some w.backingCollection)))

def ttl (key : String) (collection : Option String) :
    TableProgram (Option (Value × Option F64)) :=
  inner (.one (.ttl (compoundKey collection key) (some w.backingCollection)))

def put (key : String) (value : Value) (collection : Option String)
    (seconds : Option F64) : TableProgram Unit :=
  inner (.one (.put (compoundKey collection key) value
    (some w.backingCollection) seconds))

def delete (key : String) (collection : Option String) : TableProgram Bool :=
  inner (.one (.delete (compoundKey collection key)
    (some w.backingCollection)))

def getMany (keys : List String) (collection : Option String) :
    TableProgram (List (Option Value)) :=
  let compounds := keys.map (compoundKey collection)
  inner (.getMany compounds (some w.backingCollection))

def ttlMany (keys : List String) (collection : Option String) :
    TableProgram (List (Option (Value × Option F64))) :=
  let compounds := keys.map (compoundKey collection)
  inner (.ttlMany compounds (some w.backingCollection))

def putMany (keys : List String) (values : List Value)
    (collection : Option String) (seconds : Option F64) : TableProgram Unit :=
  let compounds := keys.map (compoundKey collection)
  inner (.one (.putMany compounds values (some w.backingCollection) seconds))

def deleteMany (keys : List String) (collection : Option String) :
    TableProgram Nat :=
  let compounds := keys.map (compoundKey collection)
  inner (.one (.deleteMany compounds (some w.backingCollection)))

def getWithRevision (key : String) (collection : Option String) :
    TableProgram (Option RevisionedValue) :=
  inner (.one (.getWithRevision (compoundKey collection key)
    (some w.backingCollection)))

def compareAndSwap (key : String) (expected : Option Revision)
    (value : Value) (collection : Option String) (seconds : Option F64) :
    TableProgram CompareAndSwapResult :=
  inner (.one (.compareAndSwap (compoundKey collection key) expected value
    (some w.backingCollection) seconds))

def compareAndDelete (key : String) (expected : Revision)
    (collection : Option String) : TableProgram CompareAndDeleteResult :=
  inner (.one (.compareAndDelete (compoundKey collection key) expected
    (some w.backingCollection)))

def call : (call : StoreCall) → TableProgram call.Result
  | .one (.get key c) => w.get inner key c
  | .one (.ttl key c) => w.ttl inner key c
  | .one (.put key value c seconds) => w.put inner key value c seconds
  | .one (.putMany keys values c seconds) =>
      w.putMany inner keys values c seconds
  | .one (.delete key c) => w.delete inner key c
  | .one (.deleteMany keys c) => w.deleteMany inner keys c
  | .one (.getWithRevision key c) => w.getWithRevision inner key c
  | .one (.compareAndSwap key expected value c seconds) =>
      w.compareAndSwap inner key expected value c seconds
  | .one (.compareAndDelete key expected c) =>
      w.compareAndDelete inner key expected c
  | .getMany keys c => w.getMany inner keys c
  | .ttlMany keys c => w.ttlMany inner keys c

end Calls

section Enumeration

variable (innerKeys : Option String → Option Nat → TableProgram (List String))

def keysIn (collection : String) :
    List String → Except Error (List String)
  | [] => .ok []
  | identity :: identities => do
      let (keyCollection, key) ← decompoundKey identity
      let result ← keysIn collection identities
      return if keyCollection = collection then key :: result else result

def keys (collection : Option String) (limit : Option Nat) :
    TableProgram (List String) := do
  let collection := collectionOf collection
  let identities ← innerKeys (some w.backingCollection) none
  let result ← Program.ofFn fun t => (keysIn collection identities, t)
  match limit with
  | some limit => return result.take limit
  | none => return result

def collectionsIn (limit : Nat) (collections : List String) :
    List String → Except Error (List String)
  | [] => .ok collections
  | identity :: identities => do
      let (collection, _) ← decompoundKey identity
      let collections :=
        if collection ∈ collections then collections
        else collections ++ [collection]
      if collections.length = limit then return collections
      else collectionsIn limit collections identities

def collections (limit : Option Nat) : TableProgram (List String) :=
  let limit := limit.getD usizeMax
  if limit = 0 then return []
  else do
    let identities ← innerKeys (some w.backingCollection) none
    Program.ofFn fun t => (collectionsIn limit [] identities, t)

end Enumeration

end SingleCollectionWrapper

end OpenKeyV.Wrapper
