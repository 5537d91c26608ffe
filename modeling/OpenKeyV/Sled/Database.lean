import OpenKeyV.Library.KeyedMap
import OpenKeyV.Library.SortBy
import OpenKeyV.Sled.Store

/-!
# The database under `DiskStore`

A sled database is a map from names to trees, and a tree a map from keys to
values.  A request may fail, before or after it has taken effect.
-/

namespace OpenKeyV.Sled

open Library Library.Interaction

abbrev Tree := KeyedMap Bytes Bytes

abbrev Database := KeyedMap Bytes Tree

structure State where
  db : Database
  clock : DateTime

namespace Database

variable (db : Database)

def openTree (name : Bytes) : Database :=
  match db.lookup name with
  | some _ => db
  | none => db.insert name ∅

def tree (name : Bytes) : Tree := (db.lookup name).getD ∅

def items (name : Bytes) : List (Bytes × Bytes) :=
  (sortBy (fun item : Bytes × Bytes => item.1.map UInt8.toNat)
    ((db.tree name).entries.map fun entry => (entry.1, entry.2)))

end Database

/-- The request when nothing fails but those to a tree that has been dropped;
the order in which trees are listed is that of the database. -/
def serve (order : List Bytes → List Bytes) :
    (access : Access) → State → access.Answer × State
  | .treeNames, s => (order s.db.keys, s)
  | .openTree name, s => (.ok (), { s with db := s.db.openTree name })
  | .get tree key, s =>
      (match s.db.lookup tree with
        | some found => .ok (found.lookup key)
        | none => .error (), s)
  | .insert tree key value, s =>
      match s.db.lookup tree with
      | some found => (.ok (found.lookup key),
          { s with db := s.db.insert tree (found.insert key value) })
      | none => (.error (), s)
  | .remove tree key, s =>
      match s.db.lookup tree with
      | some found => (.ok (found.lookup key),
          { s with db := s.db.insert tree (found.erase key) })
      | none => (.error (), s)
  | .iter tree, s => ((s.db.items tree).map .ok, s)
  | .flush _, s => (.ok (), s)
  | .dropTree name, s =>
      (.ok (s.db.lookup name).isSome, { s with db := s.db.erase name })
  | .now, s => (s.clock, s)

/-- What a request depends on besides the database: whether it fails, and
then whether it has taken effect, which items of an iteration cannot be read,
how the trees are listed, and the time. -/
structure Choice where
  fault : Option Bool
  faulty : Nat → Bool
  order : List Bytes
  time : DateTime

def settle {α : Type} (fault : Option Bool) (outcome : Answer α × State)
    (s : State) : Answer α × State :=
  match fault with
  | none => outcome
  | some true => (.error (), outcome.2)
  | some false => (.error (), s)

def spoil (faulty : Nat → Bool) (items : List (Bytes × Bytes)) :
    List (Answer (Bytes × Bytes)) :=
  items.mapIdx fun n item => if faulty n then .error () else .ok item

def handle (choice : Choice) :
    (access : Access) → State → Option (access.Answer × State)
  | .treeNames, s =>
      if choice.order.Perm s.db.keys then some (choice.order, s) else none
  | .openTree name, s =>
      some (settle choice.fault (serve id (.openTree name) s) s)
  | .get tree key, s =>
      some (settle choice.fault (serve id (.get tree key) s) s)
  | .insert tree key value, s =>
      some (settle choice.fault (serve id (.insert tree key value) s) s)
  | .remove tree key, s =>
      some (settle choice.fault (serve id (.remove tree key) s) s)
  | .iter tree, s => some (spoil choice.faulty (s.db.items tree), s)
  | .flush tree, s =>
      some (settle choice.fault (serve id (.flush tree) s) s)
  | .dropTree name, s =>
      some (settle choice.fault (serve id (.dropTree name) s) s)
  | .now, s =>
      if s.clock ≤ choice.time then
        some (choice.time, { s with clock := choice.time })
      else none

section Database

variable {db : Database} {name name' key value : Bytes} {s s' : State}

theorem settle_cases {α : Type} {fault : Option Bool}
    {outcome result : Answer α × State}
    (h : settle fault outcome s = result) :
    result = outcome ∨
      result.1 = .error () ∧ (result.2 = outcome.2 ∨ result.2 = s) := by
  subst h
  unfold settle
  split
  · exact .inl rfl
  · exact .inr ⟨rfl, .inl rfl⟩
  · exact .inr ⟨rfl, .inr rfl⟩

theorem mem_items {item : Bytes × Bytes} :
    item ∈ db.items name ↔ (db.tree name).lookup item.1 = some item.2 := by
  obtain ⟨key, value⟩ := item
  rw [Database.items, mem_sortBy, List.mem_map]
  constructor
  · rintro ⟨⟨key', value'⟩, hmem, heq⟩
    cases heq
    exact AList.mem_lookup_iff.mpr hmem
  · intro h
    exact ⟨⟨key, value⟩, AList.mem_lookup_iff.mp h, rfl⟩

theorem mem_of_mem_spoil {faulty : Nat → Bool} {items : List (Bytes × Bytes)}
    {item : Bytes × Bytes} (h : Except.ok item ∈ spoil faulty items) :
    item ∈ items := by
  obtain ⟨n, hn, heq⟩ := List.mem_mapIdx.mp h
  split at heq
  · cases heq
  · cases heq
    exact List.getElem_mem hn

theorem length_spoil (faulty : Nat → Bool) (items : List (Bytes × Bytes)) :
    (spoil faulty items).length = items.length :=
  List.length_mapIdx

theorem openTree_of_some {tree : Tree} (h : db.lookup name = some tree) :
    db.openTree name = db := by
  rw [Database.openTree, h]

end Database

end OpenKeyV.Sled
