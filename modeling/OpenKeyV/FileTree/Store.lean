import OpenKeyV.Entry.Exact
import OpenKeyV.FileTree.Components
import OpenKeyV.Library.Interaction

/-!
# `FileTreeStore`, one file operation at a time

The calls of `store/filetree/store.rs`.  A collection is a directory under
the base path, a key is a file in it.
-/

namespace OpenKeyV.FileTree

open Library Library.Interaction

/-- What a directory lists: `DirEntry::file_name`. -/
abbrev Name := List UInt8

inductive Path where
  | base
  | collection (name : Name)
  | entry (collection name : Name)
  deriving DecidableEq, Repr

inductive FileType where
  | directory
  | file
  | symlink
  | other
  deriving DecidableEq, Repr

inductive IoError where
  | notFound
  | other
  deriving DecidableEq, Repr

structure DirEntry where
  fileName : Name
  fileType : FileType
  deriving DecidableEq, Repr

/-- One operation on the file system, or one reading of the clock. -/
inductive Access where
  | symlinkMetadata (path : Path)
  | createDirAll (path : Path)
  | read (path : Path)
  | write (path : Path) (contents : Bytes)
  | removeFile (path : Path)
  | removeDirAll (path : Path)
  | readDir (path : Path)
  | now

@[reducible] def Access.Answer : Access → Type
  | .symlinkMetadata _ => Except IoError FileType
  | .createDirAll _ | .write _ _ | .removeFile _ | .removeDirAll _ =>
      Except IoError Unit
  | .read _ => Except IoError Bytes
  | .readDir _ => Except IoError (List DirEntry)
  | .now => DateTime

abbrev Requests := Calls Error Access.Answer

def fail {α : Type} (error : Error) : Requests α := attempt (.error error)

def utcNow : Requests DateTime := access Access.now

def connected {α : Type} (message : String) : Except IoError α → Except Error α
  | .ok a => .ok a
  | .error _ => .error (.storeConnection message)

/-- `base_units` are the units of the base path with a separator behind it,
`maxPathUnits` is the limit of the platform, and `display` the text of a
path. -/
structure FileTreeStore where
  defaultCollection : String
  baseUnits : Nat
  maxPathUnits : Nat
  display : Path → String

namespace FileTreeStore

variable (store : FileTreeStore)

def collectionName (collection : Option String) : String :=
  collection.getD store.defaultCollection

def validatePathLength (units : Nat) : Except Error Unit :=
  if store.maxPathUnits < units then
    .error (.invalidKey (s!"FileTree path is {units} platform path units " ++
      s!"(max {store.maxPathUnits})"))
  else .ok ()

/-! A component is a plain name, so that a path never leaves the path that it
was joined to. -/

def collectionUnits (component : String) : Nat :=
  store.baseUnits + component.utf8ByteSize

def collectionPath (collection : String) : Except Error String := do
  let component ← encodeComponent collection "collection"
  store.validatePathLength (store.collectionUnits component)
  return component

def entryPath (collection key : String) : Except Error Path := do
  let component ← encodeComponent key "key"
  store.validatePathLength
    (store.collectionUnits collection + 1 + component.utf8ByteSize)
  return .entry (utf8 collection) (utf8 component)

def entryPaths (collection : String) : List String → Except Error (List Path)
  | [] => .ok []
  | key :: keys => do
      let path ← store.entryPath collection key
      let paths ← entryPaths collection keys
      return path :: paths

def decodePhysicalEntry (parent : Path) (entry : DirEntry) (kind : String)
    (expectedDirectory : Bool) : Except Error String :=
  let path := match parent with
    | .base => .collection entry.fileName
    | .collection name | .entry name _ => .entry name entry.fileName
  if entry.fileType = .symlink then
    .error (.pathSecurity
      s!"{kind} path '{store.display path}' is a symbolic link")
  else if expectedDirectory = true ∧ entry.fileType ≠ .directory then
    .error (.invalidKey (s!"FileTree physical {kind} " ++
      s!"'{store.display path}' is not a directory"))
  else if expectedDirectory = false ∧ entry.fileType ≠ .file then
    .error (.invalidKey (s!"FileTree physical {kind} " ++
      s!"'{store.display path}' is not a regular file"))
  else decodeComponent entry.fileName kind

def collectionDirExists (path : Path) : Requests Bool := do
  let answer ← access (Access.symlinkMetadata path)
  match (answer : Except IoError FileType) with
  | .ok .symlink => fail (.pathSecurity
      s!"collection path '{store.display path}' is a symbolic link")
  | .ok .directory => return true
  | .ok _ => fail (.invalidKey (s!"FileTree collection path " ++
      s!"'{store.display path}' is not a directory"))
  | .error .notFound => return false
  | .error .other => fail (.storeConnection
      "failed to inspect collection directory: ")

def ensureCollectionDir (path : Path) : Requests Unit := do
  let answer ← access (Access.createDirAll path)
  match (answer : Except IoError Unit) with
  | .error _ => fail (.storeSetup "failed to create collection directory: ")
  | .ok () => do
      if ← store.collectionDirExists path then return ()
      else fail (.storeSetup
        "collection directory disappeared after creation")

def entryFileExists (path : Path) : Requests Bool := do
  let answer ← access (Access.symlinkMetadata path)
  match (answer : Except IoError FileType) with
  | .ok .symlink => fail (.pathSecurity
      s!"key path '{store.display path}' is a symbolic link")
  | .ok .file => return true
  | .ok _ => fail (.invalidKey (s!"FileTree key path " ++
      s!"'{store.display path}' is not a regular file"))
  | .error .notFound => return false
  | .error .other => fail (.storeConnection "failed to inspect key file: ")

def readEntry (path : Path) : Requests (Option ManagedEntry) := do
  if ← store.entryFileExists path then do
    let answer ← access (Access.read path)
    match (answer : Except IoError Bytes) with
    | .ok bytes => do
        let entry ← attempt (ManagedEntry.decode bytes)
        return some entry
    | .error .notFound => return none
    | .error .other => fail (.storeConnection "failed to read file: ")
  else return none

def writeEntry (path : Path) (entry : ManagedEntry) : Requests Unit := do
  let _ ← store.entryFileExists path
  let answer ← access (Access.write path entry.encode)
  attempt (connected "failed to write file: " answer)

def removeEntry (path : Path) : Requests Bool := do
  if ← store.entryFileExists path then do
    let answer ← access (Access.removeFile path)
    match (answer : Except IoError Unit) with
    | .ok () => return true
    | .error .notFound => return false
    | .error .other => fail (.storeConnection "failed to delete file: ")
  else return false

def liveEntry (path : Path) : Requests (Option ManagedEntry) := do
  match ← store.readEntry path with
  | none => return none
  | some entry => do
      let time ← utcNow
      if entry.isExpired time then return none else return some entry

def withTtl : Option ManagedEntry → Requests (Option (Value × Option F64))
  | none => return none
  | some entry => do
      let time ← utcNow
      return some (entry.value, entry.ttl time)

def get (key : String) (collection : Option String) :
    Requests (Option Value) := do
  let collection ← attempt
    (store.collectionPath (store.collectionName collection))
  let path ← attempt (store.entryPath collection key)
  store.ensureCollectionDir (.collection (utf8 collection))
  let entry ← store.liveEntry path
  return entry.map ManagedEntry.value

def ttl (key : String) (collection : Option String) :
    Requests (Option (Value × Option F64)) := do
  let collection ← attempt
    (store.collectionPath (store.collectionName collection))
  let path ← attempt (store.entryPath collection key)
  store.ensureCollectionDir (.collection (utf8 collection))
  let entry ← store.liveEntry path
  withTtl entry

def newEntry (value : Value) (ttl : Option F64) : Requests ManagedEntry := do
  let time ← utcNow
  attempt (ManagedEntry.ofTtl time value ttl)

def put (key : String) (value : Value) (collection : Option String)
    (ttl : Option F64) : Requests Unit := do
  let collection ← attempt
    (store.collectionPath (store.collectionName collection))
  let path ← attempt (store.entryPath collection key)
  let entry ← newEntry value ttl
  store.ensureCollectionDir (.collection (utf8 collection))
  store.writeEntry path entry

def delete (key : String) (collection : Option String) : Requests Bool := do
  let collection ← attempt
    (store.collectionPath (store.collectionName collection))
  let path ← attempt (store.entryPath collection key)
  if ← store.collectionDirExists (.collection (utf8 collection)) then
    store.removeEntry path
  else return false

def getEach : List Path → Requests (List (Option Value))
  | [] => return []
  | path :: paths => do
      let entry ← store.liveEntry path
      let results ← getEach paths
      return entry.map ManagedEntry.value :: results

def getMany (keys : List String) (collection : Option String) :
    Requests (List (Option Value)) := do
  let collection ← attempt
    (store.collectionPath (store.collectionName collection))
  let paths ← attempt (store.entryPaths collection keys)
  store.ensureCollectionDir (.collection (utf8 collection))
  store.getEach paths

def ttlEach : List Path → Requests (List (Option (Value × Option F64)))
  | [] => return []
  | path :: paths => do
      let entry ← store.liveEntry path
      let result ← withTtl entry
      let results ← ttlEach paths
      return result :: results

def ttlMany (keys : List String) (collection : Option String) :
    Requests (List (Option (Value × Option F64))) := do
  let collection ← attempt
    (store.collectionPath (store.collectionName collection))
  let paths ← attempt (store.entryPaths collection keys)
  store.ensureCollectionDir (.collection (utf8 collection))
  store.ttlEach paths

def validateOptionalTtl : Option F64 → Requests Unit
  | some seconds => do
      let time ← utcNow
      attempt (ManagedEntry.validateTtl time seconds)
  | none => return ()

def newEntries (ttl : Option F64) : List Value → Requests (List ManagedEntry)
  | [] => return []
  | value :: values => do
      let entry ← newEntry value ttl
      let entries ← newEntries ttl values
      return entry :: entries

def writeEach : List (Path × ManagedEntry) → Requests Unit
  | [] => return ()
  | (path, entry) :: rest => do
      store.writeEntry path entry
      writeEach rest

def putMany (keys : List String) (values : List Value)
    (collection : Option String) (ttl : Option F64) : Requests Unit := do
  if keys.length ≠ values.length then
    fail (.batchSizeMismatch keys.length values.length)
  else do
    validateOptionalTtl ttl
    let collection ← attempt
      (store.collectionPath (store.collectionName collection))
    let paths ← attempt (store.entryPaths collection keys)
    let entries ← newEntries ttl values
    store.ensureCollectionDir (.collection (utf8 collection))
    store.writeEach (paths.zip entries)

def deleteEach (count : Nat) : List Path → Requests Nat
  | [] => return count
  | path :: paths => do
      if ← store.removeEntry path then deleteEach (count + 1) paths
      else deleteEach count paths

def deleteMany (keys : List String) (collection : Option String) :
    Requests Nat := do
  let collection ← attempt
    (store.collectionPath (store.collectionName collection))
  let paths ← attempt (store.entryPaths collection keys)
  if ← store.collectionDirExists (.collection (utf8 collection)) then
    store.deleteEach 0 paths
  else return 0

def cullFiles (collection : Name) : List DirEntry → Requests Unit
  | [] => return ()
  | file :: files => do
      let _ ← attempt (store.decodePhysicalEntry (.collection collection)
        file "key" false)
      let path := Path.entry collection file.fileName
      match ← store.readEntry path with
      | none => cullFiles collection files
      | some entry => do
          let time ← utcNow
          if entry.isExpired time then do
            let _ ← store.removeEntry path
            cullFiles collection files
          else cullFiles collection files

def cullCollections : List DirEntry → Requests Unit
  | [] => return ()
  | collection :: collections => do
      let _ ← attempt
        (store.decodePhysicalEntry .base collection "collection" true)
      let answer ← access
        (Access.readDir (.collection collection.fileName))
      let files ← attempt
        (connected "failed to read collection directory: " answer)
      store.cullFiles collection.fileName files
      cullCollections collections

def cull : Requests Unit := do
  let answer ← access (Access.readDir .base)
  let collections ← attempt
    (connected "failed to read base directory: " answer)
  store.cullCollections collections

def maxEnumeration : Nat := 10000

def decodeListing (parent : Path) (kind : String) (expectedDirectory : Bool) :
    Nat → List DirEntry → Except Error (List String)
  | _, [] => .ok []
  | limit, entry :: entries => do
      let name ← store.decodePhysicalEntry parent entry kind expectedDirectory
      let names ← decodeListing parent kind expectedDirectory (limit - 1)
        entries
      return if limit = 0 then names else name :: names

def keys (collection : Option String) (limit : Option Nat) :
    Requests (List String) := do
  let collection ← attempt
    (store.collectionPath (store.collectionName collection))
  let path := Path.collection (utf8 collection)
  store.ensureCollectionDir path
  let answer ← access (Access.readDir path)
  let entries ← attempt
    (connected "failed to read collection directory: " answer)
  attempt (store.decodeListing path "key" false
    (min (limit.getD maxEnumeration) maxEnumeration) entries)

def collections (limit : Option Nat) : Requests (List String) := do
  let answer ← access (Access.readDir .base)
  let entries ← attempt (connected "failed to read base directory: " answer)
  attempt (store.decodeListing .base "collection" true
    (min (limit.getD maxEnumeration) maxEnumeration) entries)

def destroyCollection (collection : String) : Requests Bool := do
  let collection ← attempt (store.collectionPath collection)
  let path := Path.collection (utf8 collection)
  if ← store.collectionDirExists path then do
    let answer ← access (Access.readDir path)
    let entries ← attempt
      (connected "failed to read collection directory: " answer)
    let _ ← attempt (store.decodeListing path "key" false 0 entries)
    let answer ← access (Access.removeDirAll path)
    match (answer : Except IoError Unit) with
    | .ok () => return true
    | .error .notFound => return false
    | .error .other => fail (.storeConnection
        "failed to remove collection directory: ")
  else return false

def destroy : Requests Bool := do
  let answer ← access (Access.removeDirAll .base)
  match (answer : Except IoError Unit) with
  | .ok () | .error .notFound => return true
  | .error .other => fail (.storeConnection
      "failed to remove store directory: ")

end FileTreeStore

end OpenKeyV.FileTree
