import OpenKeyV.FileTree.Store
import OpenKeyV.Library.KeyedMap

/-!
# The file system under `FileTreeStore`

Below the base path stands only what the store has made: directories with
files.  Each call is followed through the operations that it makes.
-/

namespace OpenKeyV.FileTree

open Library Library.Interaction

/-- The base directory, when it exists, and the readings of the clock that
are still to come. -/
structure Disk where
  base : Option (KeyedMap Name (KeyedMap Name Bytes))
  clock : Nat → DateTime

namespace Disk

variable (d : Disk)

def collections : KeyedMap Name (KeyedMap Name Bytes) := d.base.getD ∅

def directory? (name : Name) : Option (KeyedMap Name Bytes) :=
  d.collections.lookup name

def file? (collection name : Name) : Option Bytes :=
  (d.directory? collection).bind fun files => files.lookup name

def createDir (name : Name) : Disk :=
  match d.directory? name with
  | some _ => d
  | none => { d with base := some (d.collections.insert name ∅) }

def setFiles (name : Name) (files : KeyedMap Name Bytes) : Disk :=
  { d with base := some (d.collections.insert name files) }

def writeFile (collection name : Name) (contents : Bytes) : Disk :=
  match d.directory? collection with
  | some files => d.setFiles collection (files.insert name contents)
  | none => d

def removeFile (collection name : Name) : Disk :=
  match d.directory? collection with
  | some files => d.setFiles collection (files.erase name)
  | none => d

def removeDir (name : Name) : Disk :=
  { d with base := d.base.map fun dirs => dirs.erase name }

def removeBase : Disk := { d with base := none }

def tick : Disk := { d with clock := fun n => d.clock (n + 1) }

end Disk

/-- The order in which a directory is listed is that of the system. -/
structure FileSystem where
  arrange : List Name → List Name
  perm : ∀ names, (arrange names).Perm names

def found {α : Type} : Option α → Except IoError α
  | some a => .ok a
  | none => .error .notFound

/-- An operation that the store does not make on such a path fails. -/
def serve (fs : FileSystem) : (access : Access) → Disk → access.Answer × Disk
  | .symlinkMetadata .base, d =>
      (found (d.base.map fun _ => .directory), d)
  | .symlinkMetadata (.collection name), d =>
      (found ((d.directory? name).map fun _ => .directory), d)
  | .symlinkMetadata (.entry collection name), d =>
      (found ((d.file? collection name).map fun _ => .file), d)
  | .createDirAll (.collection name), d => (.ok (), d.createDir name)
  | .createDirAll _, d => (.error .other, d)
  | .read (.entry collection name), d =>
      (found (d.file? collection name), d)
  | .read _, d => (.error .other, d)
  | .write (.entry collection name) contents, d =>
      match d.directory? collection with
      | some _ => (.ok (), d.writeFile collection name contents)
      | none => (.error .notFound, d)
  | .write _ _, d => (.error .other, d)
  | .removeFile (.entry collection name), d =>
      match d.file? collection name with
      | some _ => (.ok (), d.removeFile collection name)
      | none => (.error .notFound, d)
  | .removeFile _, d => (.error .other, d)
  | .removeDirAll .base, d =>
      match d.base with
      | some _ => (.ok (), d.removeBase)
      | none => (.error .notFound, d)
  | .removeDirAll (.collection name), d =>
      match d.directory? name with
      | some _ => (.ok (), d.removeDir name)
      | none => (.error .notFound, d)
  | .removeDirAll _, d => (.error .other, d)
  | .readDir .base, d =>
      (found (d.base.map fun dirs =>
        (fs.arrange dirs.keys).map fun name => ⟨name, .directory⟩), d)
  | .readDir (.collection name), d =>
      (found ((d.directory? name).map fun files =>
        (fs.arrange files.keys).map fun name => ⟨name, .file⟩), d)
  | .readDir _, d => (.error .other, d)
  | .now, d => (d.clock 0, d.tick)

theorem serve_read {fs : FileSystem} {d : Disk} {collection name : Name}
    {contents : Bytes} (h : d.file? collection name = some contents) :
    serve fs (.read (.entry collection name)) d = (.ok contents, d) := by
  rw [serve, h]
  rfl

namespace Disk

variable {d : Disk} {name name' collection collection' : Name}
  {contents : Bytes}

theorem directory?_createDir :
    (d.createDir name).directory? name' =
      if name' = name then some ((d.directory? name).getD ∅)
      else d.directory? name' := by
  unfold createDir
  split
  · rename_i files hfiles
    split
    · rename_i heq
      rw [heq, hfiles, Option.getD_some]
    · rfl
  · rename_i hnone
    rw [hnone, Option.getD_none]
    exact KeyedMap.lookup_insert_eq ..

theorem file?_createDir :
    (d.createDir name).file? collection name' =
      d.file? collection name' := by
  rw [file?, directory?_createDir]
  split
  · rename_i heq
    rw [file?, heq]
    cases d.directory? name <;> rfl
  · rfl

theorem directory?_setFiles {files : KeyedMap Name Bytes} :
    (d.setFiles name files).directory? name' =
      if name' = name then some files else d.directory? name' :=
  KeyedMap.lookup_insert_eq ..

theorem isSome_directory?_writeFile :
    ((d.writeFile collection name contents).directory? name').isSome =
      (d.directory? name').isSome := by
  unfold writeFile
  split
  · rename_i files hfiles
    rw [directory?_setFiles]
    split
    · rename_i heq
      rw [heq, hfiles]
      rfl
    · rfl
  · rfl

theorem file?_writeFile (h : (d.directory? collection).isSome = true) :
    (d.writeFile collection name contents).file? collection' name' =
      if collection' = collection ∧ name' = name then some contents
      else d.file? collection' name' := by
  obtain ⟨files, hfiles⟩ := Option.isSome_iff_exists.mp h
  simp only [writeFile, hfiles, file?, directory?_setFiles]
  by_cases hcollection : collection' = collection
  · subst hcollection
    simp only [if_true, true_and, hfiles, Option.bind_some,
      KeyedMap.lookup_insert_eq]
  · simp only [hcollection, if_false, false_and]

theorem isSome_directory?_removeFile :
    ((d.removeFile collection name).directory? name').isSome =
      (d.directory? name').isSome := by
  unfold removeFile
  split
  · rename_i files hfiles
    rw [directory?_setFiles]
    split
    · rename_i heq
      rw [heq, hfiles]
      rfl
    · rfl
  · rfl

theorem file?_removeFile :
    (d.removeFile collection name).file? collection' name' =
      if collection' = collection ∧ name' = name then none
      else d.file? collection' name' := by
  unfold removeFile
  split
  · rename_i files hfiles
    rw [file?, directory?_setFiles]
    by_cases hcollection : collection' = collection
    · subst hcollection
      simp only [if_true, true_and, file?, hfiles, Option.bind_some,
        KeyedMap.lookup_erase_eq]
    · simp only [hcollection, if_false, false_and, file?]
  · rename_i hnone
    split
    · rename_i heq
      rw [file?, heq.1, hnone, Option.bind_none]
    · rfl

theorem directory?_removeDir :
    (d.removeDir name).directory? name' =
      if name' = name then none else d.directory? name' := by
  obtain ⟨base, clock⟩ := d
  cases base with
  | none => simp [removeDir, directory?, collections]
  | some dirs => exact KeyedMap.lookup_erase_eq ..

theorem file?_removeDir :
    (d.removeDir name).file? collection name' =
      if collection = name then none else d.file? collection name' := by
  rw [file?, directory?_removeDir]
  split <;> rfl

theorem isSome_base_of_directory? (h : (d.directory? name).isSome = true) :
    d.base.isSome = true := by
  obtain ⟨base, clock⟩ := d
  cases base with
  | none => simp [directory?, collections] at h
  | some dirs => rfl

theorem isSome_base_createDir : (d.createDir name).base.isSome = true := by
  refine @isSome_base_of_directory? _ name ?_
  rw [directory?_createDir, if_pos rfl, Option.isSome_some]

theorem isSome_base_writeFile :
    (d.writeFile collection name contents).base.isSome = d.base.isSome := by
  unfold writeFile
  split
  · rename_i files hfiles
    rw [@isSome_base_of_directory? d collection (by rw [hfiles]; rfl)]
    rfl
  · rfl

theorem isSome_base_removeFile :
    (d.removeFile collection name).base.isSome = d.base.isSome := by
  unfold removeFile
  split
  · rename_i files hfiles
    rw [@isSome_base_of_directory? d collection (by rw [hfiles]; rfl)]
    rfl
  · rfl

end Disk

def componentOf (value : String) : String :=
  componentPrefix ++ Hex.encode (utf8 value)

def nameOf (value : String) : Name := utf8 (componentOf value)

def Short (value : String) : Prop := value.utf8ByteSize ≤ 125

instance : DecidablePred Short := fun _ => inferInstanceAs (Decidable (_ ≤ _))

theorem nameOf_inj {first second : String} :
    nameOf first = nameOf second ↔ first = second := by
  constructor
  · intro h
    exact utf8_injective (Hex.encode_injective
      (String.append_right_inj _ |>.mp (utf8_injective h)))
  · rintro rfl
    rfl

theorem utf8ByteSize_componentOf (value : String) :
    (componentOf value).utf8ByteSize = 5 + value.utf8ByteSize * 2 := by
  rw [componentOf, String.utf8ByteSize_append, Hex.utf8ByteSize_encode,
    length_utf8]
  rfl

theorem encodeComponent_of_short {value : String} (h : Short value)
    (kind : String) :
    encodeComponent value kind = .ok (componentOf value) := by
  refine encodeComponent_eq_ok.mpr ⟨rfl, ?_⟩
  rw [utf8ByteSize_componentOf]
  unfold Short at h
  unfold maxComponentBytes
  omega

theorem decodeComponent_nameOf {value : String} (h : Short value)
    (kind : String) : decodeComponent (nameOf value) kind = .ok value :=
  decodeComponent_eq_ok.mpr ⟨_, encodeComponent_of_short h kind, rfl⟩

/-- Every name and every file is one that the store has written. -/
structure Own (d : Disk) : Prop where
  directory : ∀ name files, d.directory? name = some files →
    ∃ collection, Short collection ∧ name = nameOf collection
  file : ∀ collection name contents, d.file? collection name = some contents →
    (∃ key, Short key ∧ name = nameOf key) ∧
      ∃ entry : ManagedEntry, entry.value.Storable ∧ contents = entry.encode

def entryAt (d : Disk) (collection name : Name) : Option ManagedEntry :=
  (d.file? collection name).bind fun contents =>
    (ManagedEntry.decode contents).toOption

def Later (clock clock' : Nat → DateTime) : Prop :=
  ∃ n, ∀ i, clock' i = clock (n + i)

theorem Later.refl (clock : Nat → DateTime) : Later clock clock :=
  ⟨0, fun i => by rw [Nat.zero_add]⟩

theorem Later.trans {first second third : Nat → DateTime}
    (h : Later first second) (h' : Later second third) :
    Later first third := by
  obtain ⟨n, hn⟩ := h
  obtain ⟨m, hm⟩ := h'
  exact ⟨n + m, fun i => by rw [hm, hn, Nat.add_assoc]⟩

theorem later_tick (d : Disk) : Later d.clock d.tick.clock :=
  ⟨1, fun i => by rw [Disk.tick, Nat.add_comm 1]⟩

section Plays

variable {store : FileTreeStore} {fs : FileSystem} {d : Disk}
  {collection name : Name}

open FileTreeStore

theorem playCall_utcNow_bind {α : Type} (f : DateTime → Requests α) :
    playCall (serve fs) (utcNow >>= f) d =
      playCall (serve fs) (f (d.clock 0)) d.tick := by
  rw [playCall_bind]
  rfl

theorem playCall_collectionDirExists :
    playCall (serve fs) (store.collectionDirExists (.collection name)) d =
      (.ok (d.directory? name).isSome, d) := by
  rw [collectionDirExists, playCall_bind, playCall_access]
  simp only [serve]
  cases d.directory? name <;> rfl

theorem playCall_ensureCollectionDir :
    playCall (serve fs) (store.ensureCollectionDir (.collection name)) d =
      (.ok (), d.createDir name) := by
  have hmade : ((d.createDir name).directory? name).isSome = true := by
    rw [Disk.directory?_createDir, if_pos rfl, Option.isSome_some]
  rw [ensureCollectionDir, playCall_bind, playCall_access]
  simp only [serve]
  rw [playCall_bind, playCall_collectionDirExists, hmade]
  rfl

theorem playCall_entryFileExists :
    playCall (serve fs) (store.entryFileExists (.entry collection name)) d =
      (.ok (d.file? collection name).isSome, d) := by
  rw [entryFileExists, playCall_bind, playCall_access]
  simp only [serve]
  cases d.file? collection name <;> rfl

theorem playCall_readEntry (hown : Own d) :
    playCall (serve fs) (store.readEntry (.entry collection name)) d =
      (.ok (entryAt d collection name), d) := by
  rw [readEntry, playCall_bind, playCall_entryFileExists]
  cases hfile : d.file? collection name with
  | none =>
      rw [entryAt, hfile]
      rfl
  | some contents =>
      obtain ⟨-, entry, hstorable, rfl⟩ := hown.file _ _ _ hfile
      have hdecode := ManagedEntry.decode_encode entry hstorable.1 hstorable.2
      simp only [Option.isSome_some, if_true]
      rw [playCall_bind, playCall_access, serve_read hfile, entryAt, hfile]
      simp only [Option.bind_some, hdecode, Except.toOption]
      rw [playCall_bind, playCall_attempt]
      rfl

theorem playCall_writeEntry {entry : ManagedEntry}
    (h : (d.directory? collection).isSome = true) :
    playCall (serve fs) (store.writeEntry (.entry collection name) entry) d =
      (.ok (), d.writeFile collection name entry.encode) := by
  obtain ⟨files, hfiles⟩ := Option.isSome_iff_exists.mp h
  rw [writeEntry, playCall_bind, playCall_entryFileExists]
  simp only
  rw [playCall_bind, playCall_access]
  simp only [serve, hfiles, playCall_attempt, connected]

theorem playCall_removeEntry :
    playCall (serve fs) (store.removeEntry (.entry collection name)) d =
      (.ok (d.file? collection name).isSome,
        if (d.file? collection name).isSome then
          d.removeFile collection name
        else d) := by
  rw [removeEntry, playCall_bind, playCall_entryFileExists]
  cases hfile : d.file? collection name with
  | none => rfl
  | some contents =>
      simp only [Option.isSome_some, if_true]
      rw [playCall_bind, playCall_access]
      simp only [serve, hfile]
      rfl

theorem playCall_liveEntry (hown : Own d) :
    playCall (serve fs) (store.liveEntry (.entry collection name)) d =
      (.ok ((entryAt d collection name).filter fun entry =>
          !entry.isExpired (d.clock 0)),
        if (entryAt d collection name).isSome then d.tick else d) := by
  rw [liveEntry, playCall_bind, playCall_readEntry hown]
  cases entryAt d collection name with
  | none => rfl
  | some entry =>
      simp only [Option.isSome_some, if_true]
      rw [playCall_utcNow_bind, Option.filter]
      by_cases hexpired : entry.isExpired (d.clock 0) = true
      · rw [if_pos hexpired, hexpired]
        rfl
      · rw [if_neg hexpired, Bool.not_eq_true _ |>.mp hexpired]
        rfl

end Plays

end OpenKeyV.FileTree
