import OpenKeyV.Entry.Exact
import OpenKeyV.Library.Hex
import OpenKeyV.Library.Interaction
import OpenKeyV.Library.Utf8

/-!
# `DiskStore`, one request to sled at a time

The calls of `store/disk/store.rs`.  A collection is a tree of the database,
named by `okv1-` and the hexadecimal digits of its name; trees with other
names belong to somebody else.
-/

namespace OpenKeyV.Sled

open Library Library.Interaction

def treePrefix : String := "okv1-"

def encodeTreeName (collection : String) : String :=
  treePrefix ++ Hex.encode (utf8 collection)

def treeName (collection : String) : Bytes := utf8 (encodeTreeName collection)

/-- The name starts with `TREE_PREFIX`. -/
def Own (name : Bytes) : Prop := utf8 treePrefix <+: name

instance (name : Bytes) : Decidable (Own name) :=
  inferInstanceAs (Decidable (_ <+: _))

def decodeTreeName (name : Bytes) : Except Error (Option (Bytes × String)) :=
  if Own name then
    match ofUtf8 name with
    | none => .error (.invalidKey
        "Disk physical tree name is not valid UTF-8")
    | some physical =>
        let encoded := String.ofList (physical.toList.drop treePrefix.length)
        if encoded.utf8ByteSize % 2 ≠ 0 then
          .error (.invalidKey
            "Disk physical tree name has an odd hexadecimal length")
        else
          match Hex.decode encoded with
          | none => .error (.invalidKey ("Disk physical tree name is not " ++
              "canonical lowercase hexadecimal"))
          | some bytes =>
              match ofUtf8 bytes with
              | none => .error (.invalidKey
                  "Disk physical tree name is not valid UTF-8")
              | some collection =>
                  if encodeTreeName collection ≠ physical then
                    .error (.invalidKey
                      "Disk physical tree name is not canonical")
                  else .ok (some (name, collection))
  else .ok none

section Names

variable {name name' : Bytes} {collection collection' : String}

theorem own_treeName (collection : String) : Own (treeName collection) := by
  rw [Own, treeName, encodeTreeName, utf8_append]
  exact List.prefix_append ..

theorem treeName_inj :
    treeName collection = treeName collection' ↔ collection = collection' := by
  constructor
  · intro h
    have htext : treePrefix ++ Hex.encode (utf8 collection) =
        treePrefix ++ Hex.encode (utf8 collection') := utf8_injective h
    have hhex := congrArg String.toList htext
    rw [String.toList_append, String.toList_append] at hhex
    exact utf8_injective (Hex.encode_injective
      (String.toList_injective (List.append_cancel_left hhex)))
  · rintro rfl
    rfl

theorem decodeTreeName_foreign (h : ¬ Own name) :
    decodeTreeName name = .ok none :=
  if_neg h

theorem decodeTreeName_treeName (collection : String) :
    decodeTreeName (treeName collection) =
      .ok (some (treeName collection, collection)) := by
  have hdrop : String.ofList
      ((encodeTreeName collection).toList.drop treePrefix.length) =
        Hex.encode (utf8 collection) := by
    rw [encodeTreeName, String.toList_append, ← String.length_toList,
      List.drop_left, String.ofList_toList]
  have heven : (Hex.encode (utf8 collection)).utf8ByteSize % 2 = 0 := by
    rw [Hex.utf8ByteSize_encode]
    omega
  rw [decodeTreeName, if_pos (own_treeName collection)]
  simp only [treeName, ofUtf8_utf8, hdrop, heven, Hex.decode_encode, ne_eq,
    not_true_eq_false, if_false]

theorem decodeTreeName_eq_ok {tree : Option (Bytes × String)} :
    decodeTreeName name = .ok tree ↔
      (tree = none ∧ ¬ Own name) ∨
        ∃ collection, tree = some (name, collection) ∧
          name = treeName collection := by
  constructor
  · intro h
    by_cases hown : Own name
    · rw [decodeTreeName, if_pos hown] at h
      split at h
      · cases h
      · rename_i physical hphysical
        simp only at h
        split at h
        · cases h
        · split at h
          · cases h
          · split at h
            · cases h
            · split at h
              · cases h
              · rename_i collection _ hsame
                cases h
                refine .inr ⟨collection, rfl, ?_⟩
                rw [treeName, not_ne_iff.mp hsame]
                exact (ofUtf8_eq_some.mp hphysical).symm
    · rw [decodeTreeName_foreign hown] at h
      cases h
      exact .inl ⟨rfl, hown⟩
  · rintro (⟨rfl, hown⟩ | ⟨collection, rfl, rfl⟩)
    · exact decodeTreeName_foreign hown
    · exact decodeTreeName_treeName collection

end Names

/-- One request to the database, or one reading of the clock.  `iter` is a
whole iteration over a tree. -/
inductive Access where
  | treeNames
  | openTree (name : Bytes)
  | get (tree key : Bytes)
  | insert (tree key value : Bytes)
  | remove (tree key : Bytes)
  | iter (tree : Bytes)
  | flush (tree : Bytes)
  | dropTree (name : Bytes)
  | now

abbrev Answer (α : Type) := Except Unit α

@[reducible] def Access.Answer : Access → Type
  | .treeNames => List Bytes
  | .openTree _ | .flush _ => Sled.Answer Unit
  | .get .. | .insert .. | .remove .. => Sled.Answer (Option Bytes)
  | .iter _ => List (Sled.Answer (Bytes × Bytes))
  | .dropTree _ => Sled.Answer Bool
  | .now => DateTime

abbrev Requests := Calls Error Access.Answer

def utcNow : Requests DateTime := access Access.now

def connected {α : Type} (message : String) : Answer α → Except Error α
  | .ok a => .ok a
  | .error _ => .error (.storeConnection message)

def openTree (name : Bytes) : Requests Unit := do
  let answer ← access (Access.openTree name)
  attempt (connected "failed to open tree: " answer)

def getBytes (tree key : Bytes) : Requests (Option Bytes) := do
  let answer ← access (Access.get tree key)
  attempt (connected "failed to get: " answer)

def insertBytes (tree key value : Bytes) : Requests (Option Bytes) := do
  let answer ← access (Access.insert tree key value)
  attempt (connected "failed to insert: " answer)

def removeBytes (message : String) (tree key : Bytes) :
    Requests (Option Bytes) := do
  let answer ← access (Access.remove tree key)
  attempt (connected message answer)

def flushTree (tree : Bytes) : Requests Unit := do
  let answer ← access (Access.flush tree)
  attempt (connected "failed to flush: " answer)

def dropTree (name : Bytes) : Requests Bool := do
  let answer ← access (Access.dropTree name)
  attempt (connected "failed to drop tree: " answer)

structure DiskStore where
  defaultCollection : String

namespace DiskStore

variable (store : DiskStore)

def collectionName (collection : Option String) : String :=
  collection.getD store.defaultCollection

def getTree (collection : String) : Requests Bytes := do
  openTree (treeName collection)
  return treeName collection

def ownedTrees : List Bytes → Except Error (List (Bytes × String))
  | [] => .ok []
  | name :: names => do
      let tree ← decodeTreeName name
      let trees ← ownedTrees names
      return tree.toList ++ trees

def ownedTreeNames : Requests (List (Bytes × String)) := do
  let names ← access Access.treeNames
  attempt (ownedTrees names)

def liveEntry (tree : Bytes) (key : String) :
    Requests (Option ManagedEntry) := do
  match ← getBytes tree (utf8 key) with
  | none => return none
  | some iv => do
      let entry ← attempt (ManagedEntry.decode iv)
      let time ← utcNow
      if entry.isExpired time then return none else return some entry

def withTtl : Option ManagedEntry → Requests (Option (Value × Option F64))
  | none => return none
  | some entry => do
      let time ← utcNow
      return some (entry.value, entry.ttl time)

def get (key : String) (collection : Option String) :
    Requests (Option Value) := do
  let tree ← getTree (store.collectionName collection)
  let entry ← liveEntry tree key
  return entry.map ManagedEntry.value

def ttl (key : String) (collection : Option String) :
    Requests (Option (Value × Option F64)) := do
  let tree ← getTree (store.collectionName collection)
  let entry ← liveEntry tree key
  withTtl entry

def newEntry (value : Value) (ttl : Option F64) : Requests ManagedEntry := do
  let time ← utcNow
  attempt (ManagedEntry.ofTtl time value ttl)

def put (key : String) (value : Value) (collection : Option String)
    (ttl : Option F64) : Requests Unit := do
  let entry ← newEntry value ttl
  let tree ← getTree (store.collectionName collection)
  let _ ← insertBytes tree (utf8 key) entry.encode
  flushTree tree

def delete (key : String) (collection : Option String) : Requests Bool := do
  let tree ← getTree (store.collectionName collection)
  let res ← removeBytes "failed to remove: " tree (utf8 key)
  return res.isSome

def getEach (tree : Bytes) : List String → Requests (List (Option Value))
  | [] => return []
  | key :: keys => do
      let entry ← liveEntry tree key
      let results ← getEach tree keys
      return entry.map ManagedEntry.value :: results

def getMany (keys : List String) (collection : Option String) :
    Requests (List (Option Value)) := do
  let tree ← getTree (store.collectionName collection)
  getEach tree keys

def ttlEach (tree : Bytes) :
    List String → Requests (List (Option (Value × Option F64)))
  | [] => return []
  | key :: keys => do
      let entry ← liveEntry tree key
      let result ← withTtl entry
      let results ← ttlEach tree keys
      return result :: results

def ttlMany (keys : List String) (collection : Option String) :
    Requests (List (Option (Value × Option F64))) := do
  let tree ← getTree (store.collectionName collection)
  ttlEach tree keys

def newEntries (ttl : Option F64) :
    List (String × Value) → Requests (List (String × ManagedEntry))
  | [] => return []
  | (key, value) :: items => do
      let entry ← newEntry value ttl
      let entries ← newEntries ttl items
      return (key, entry) :: entries

def insertEach (tree : Bytes) : List (String × ManagedEntry) → Requests Unit
  | [] => return ()
  | (key, entry) :: entries => do
      let _ ← insertBytes tree (utf8 key) entry.encode
      insertEach tree entries

def validateTtl : Option F64 → Requests Unit
  | none => return ()
  | some seconds => do
      let time ← utcNow
      attempt (ManagedEntry.validateTtl time seconds)

def putMany (keys : List String) (values : List Value)
    (collection : Option String) (ttl : Option F64) : Requests Unit := do
  if keys.length ≠ values.length then
    attempt (.error (.batchSizeMismatch keys.length values.length))
  validateTtl ttl
  let entries ← newEntries ttl (keys.zip values)
  let tree ← getTree (store.collectionName collection)
  insertEach tree entries
  flushTree tree

def deleteEach (tree : Bytes) : List String → Requests Nat
  | [] => return 0
  | key :: keys => do
      let res ← removeBytes "failed to remove: " tree (utf8 key)
      let count ← deleteEach tree keys
      return res.isSome.toNat + count

def deleteMany (keys : List String) (collection : Option String) :
    Requests Nat := do
  let tree ← getTree (store.collectionName collection)
  deleteEach tree keys

def readKey (key : Bytes) : Except Error String :=
  match ofUtf8 key with
  | some text => .ok text
  | none => .error (.invalidKey "Disk physical key is not valid UTF-8")

def readKeys : List (Answer (Bytes × Bytes)) → Except Error (List String)
  | [] => .ok []
  | item :: items => do
      let (key, _) ← connected "failed to iterate: " item
      let key ← readKey key
      let keys ← readKeys items
      return key :: keys

def pageSize (limit : Option Nat) : Nat := min (limit.getD 10000) 10000

def keys (collection : Option String) (limit : Option Nat) :
    Requests (List String) := do
  let tree ← getTree (store.collectionName collection)
  let items ← access (Access.iter tree)
  let names ← attempt (readKeys items)
  return names.take (pageSize limit)

def collections (limit : Option Nat) : Requests (List String) := do
  let trees ← ownedTreeNames
  return (trees.take (pageSize limit)).map Prod.snd

def validateItems :
    List (Answer (Bytes × Bytes)) → Requests (List Bytes)
  | [] => return []
  | item :: items => do
      let (key, value) ← attempt (connected "failed to iterate: " item)
      let _ ← attempt (readKey key)
      let entry ← attempt (ManagedEntry.decode value)
      let time ← utcNow
      let expired ← validateItems items
      return if entry.isExpired time then key :: expired else expired

def validateTreeEntries (tree : Bytes) : Requests (List Bytes) := do
  let items ← access (Access.iter tree)
  validateItems items

def collectExpired :
    List (Bytes × String) → Requests (List (Bytes × List Bytes))
  | [] => return []
  | (name, _) :: trees => do
      openTree name
      let keys ← validateTreeEntries name
      let expired ← collectExpired trees
      return (name, keys) :: expired

def removeKeys (tree : Bytes) : List Bytes → Requests Unit
  | [] => return ()
  | key :: keys => do
      let _ ← removeBytes "failed to remove expired entry: " tree key
      removeKeys tree keys

def removeExpired : List (Bytes × List Bytes) → Requests Unit
  | [] => return ()
  | (tree, keys) :: expired => do
      removeKeys tree keys
      removeExpired expired

def cull : Requests Unit := do
  let trees ← ownedTreeNames
  let expired ← collectExpired trees
  removeExpired expired

def destroyCollection (collection : String) : Requests Bool := do
  let names ← access Access.treeNames
  if treeName collection ∈ (names : List Bytes) then do
    openTree (treeName collection)
    let _ ← validateTreeEntries (treeName collection)
    dropTree (treeName collection)
  else return false

def validateTrees : List (Bytes × String) → Requests Unit
  | [] => return ()
  | (name, _) :: trees => do
      openTree name
      let _ ← validateTreeEntries name
      validateTrees trees

def dropTrees : List (Bytes × String) → Requests Unit
  | [] => return ()
  | (name, _) :: trees => do
      let _ ← dropTree name
      dropTrees trees

def destroy : Requests Bool := do
  let trees ← ownedTreeNames
  validateTrees trees
  dropTrees trees
  return true

end DiskStore

end OpenKeyV.Sled
