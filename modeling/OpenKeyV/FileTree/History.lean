import OpenKeyV.FileTree.Disk

/-!
# Calls of `FileTreeStore` and what they leave

A history of calls says which collections have been opened and which entries
were written last.  The disk agrees with it, but for files that `cull` has
removed behind an expired entry.
-/

namespace OpenKeyV.FileTree

open Library Library.Interaction FileTreeStore

inductive Call where
  | get (key : String) (collection : Option String)
  | ttl (key : String) (collection : Option String)
  | put (key : String) (value : Value) (collection : Option String)
      (ttl : Option F64)
  | delete (key : String) (collection : Option String)
  | getMany (keys : List String) (collection : Option String)
  | ttlMany (keys : List String) (collection : Option String)
  | putMany (keys : List String) (values : List Value)
      (collection : Option String) (ttl : Option F64)
  | deleteMany (keys : List String) (collection : Option String)
  | cull
  | keys (collection : Option String) (limit : Option Nat)
  | collections (limit : Option Nat)
  | destroyCollection (collection : String)
  | destroy

inductive Reply where
  | value (result : Option Value)
  | timed (result : Option (Value × Option F64))
  | values (results : List (Option Value))
  | timeds (results : List (Option (Value × Option F64)))
  | names (results : List String)
  | flag (result : Bool)
  | count (result : Nat)
  | unit
  deriving DecidableEq

section Calls

variable (store : FileTreeStore)

def perform : Call → Requests Reply
  | .get key collection => do return .value (← store.get key collection)
  | .ttl key collection => do return .timed (← store.ttl key collection)
  | .put key value collection ttl => do
      store.put key value collection ttl
      return .unit
  | .delete key collection => do return .flag (← store.delete key collection)
  | .getMany keys collection => do
      return .values (← store.getMany keys collection)
  | .ttlMany keys collection => do
      return .timeds (← store.ttlMany keys collection)
  | .putMany keys values collection ttl => do
      store.putMany keys values collection ttl
      return .unit
  | .deleteMany keys collection => do
      return .count (← store.deleteMany keys collection)
  | .cull => do
      store.cull
      return .unit
  | .keys collection limit => do return .names (← store.keys collection limit)
  | .collections limit => do return .names (← store.collections limit)
  | .destroyCollection collection => do
      return .flag (← store.destroyCollection collection)
  | .destroy => do return .flag (← FileTreeStore.destroy)

def Call.target : Call → Option (String × List String)
  | .get key collection | .ttl key collection | .put key _ collection _
  | .delete key collection => some (store.collectionName collection, [key])
  | .getMany batch collection | .ttlMany batch collection
  | .putMany batch _ collection _ | .deleteMany batch collection =>
      some (store.collectionName collection, batch)
  | .keys collection _ => some (store.collectionName collection, [])
  | .destroyCollection collection => some (collection, [])
  | .cull | .collections _ | .destroy => none

def Call.values : Call → List Value
  | .put _ value _ _ => [value]
  | .putMany _ batch _ _ => batch
  | _ => []

def Call.writeTtl : Call → Option F64
  | .put _ _ _ seconds | .putMany _ _ _ seconds => seconds
  | _ => none

structure Call.Accepted (clock : Nat → DateTime) (call : Call) : Prop where
  names : ∀ collection keys, call.target store = some (collection, keys) →
    Short collection ∧ ∀ key ∈ keys, Short key
  values : ∀ value ∈ call.values, value.Storable
  ttl : ∀ seconds, call.writeTtl = some seconds →
    ∀ n, ∃ expires, ManagedEntry.expirationAt (clock n) seconds = .ok expires

def Room (collection : String) (keys : List String) : Prop :=
  store.collectionUnits (componentOf collection) ≤ store.maxPathUnits ∧
    ∀ key ∈ keys, store.collectionUnits (componentOf collection) + 1 +
      (componentOf key).utf8ByteSize ≤ store.maxPathUnits

instance (collection : String) (keys : List String) :
    Decidable (Room store collection keys) :=
  inferInstanceAs (Decidable (_ ∧ _))

/-- The paths of a call are within the limit, and a batch has a value for
each key. -/
def Call.Possible (call : Call) : Prop :=
  (∀ target ∈ call.target store, Room store target.1 target.2) ∧
    match call with
    | .putMany batch contents _ _ => batch.length = contents.length
    | _ => True

instance (call : Call) : Decidable (call.Possible store) := by
  unfold Call.Possible
  cases call <;> infer_instance

end Calls

/-- Whether the base directory exists, the collections opened since the start
or the last `destroy` and not destroyed since, and whether a key has been
written since. -/
structure Opening where
  base : Bool
  opened : List String
  written : Bool
  deriving DecidableEq, Repr

namespace Opening

def start : Opening := ⟨false, [], false⟩

def enter (o : Opening) (collection : String) : Opening :=
  { o with base := true, opened := collection :: o.opened }

def step (store : FileTreeStore) (o : Opening) (call : Call) : Opening :=
  if call.Possible store then
    match call with
    | .get _ collection | .ttl _ collection | .getMany _ collection
    | .ttlMany _ collection | .keys collection _ =>
        o.enter (store.collectionName collection)
    | .put _ _ collection _ =>
        { o.enter (store.collectionName collection) with written := true }
    | .putMany keys _ collection _ =>
        { o.enter (store.collectionName collection) with
          written := o.written || !keys.isEmpty }
    | .destroyCollection collection =>
        { o with opened := o.opened.filter (· ≠ collection) }
    | .destroy => start
    | .delete _ _ | .deleteMany _ _ | .cull | .collections _ => o
  else o

end Opening

/-- The last entry of each collection and key that has not been deleted or
destroyed since, with its instants as they are stored. -/
abbrev Ledger := String → String → Option ManagedEntry

namespace Ledger

def record (l : Ledger) (collection key : String)
    (entry : Option ManagedEntry) : Ledger :=
  fun c k => if c = collection ∧ k = key then entry else l c k

def entries (clock : Nat → DateTime) (ttl : Option F64) :
    List Value → List ManagedEntry
  | [] => []
  | value :: values =>
      ((ManagedEntry.ofTtl (clock 0) value ttl).toOption.map
        ManagedEntry.truncMillis).toList ++
        entries (fun n => clock (n + 1)) ttl values

def recordAll (l : Ledger) (collection : String) :
    List (String × ManagedEntry) → Ledger
  | [] => l
  | (key, entry) :: rest =>
      (l.record collection key (some entry)).recordAll collection rest

def forget (l : Ledger) (collection : String) (keys : List String) : Ledger :=
  keys.foldl (fun l key => l.record collection key none) l

/-- The check of the TTL of a batch reads the clock first. -/
def step (store : FileTreeStore) (clock : Nat → DateTime) (l : Ledger)
    (call : Call) : Ledger :=
  if call.Possible store then
    match call with
    | .put key value collection ttl =>
        l.recordAll (store.collectionName collection)
          ([key].zip (entries clock ttl [value]))
    | .putMany keys values collection ttl =>
        l.recordAll (store.collectionName collection)
          (keys.zip (entries
            (fun n => clock (if ttl.isSome then n + 1 else n)) ttl values))
    | .delete key collection =>
        l.forget (store.collectionName collection) [key]
    | .deleteMany keys collection =>
        l.forget (store.collectionName collection) keys
    | .destroyCollection collection =>
        fun c k => if c = collection then none else l c k
    | .destroy => fun _ _ => none
    | _ => l
  else l

end Ledger

def Steady (clock : Nat → DateTime) : Prop :=
  ∀ m n, m ≤ n → clock m ≤ clock n

theorem Steady.later {clock clock' : Nat → DateTime} (h : Steady clock)
    (hlater : Later clock clock') : Steady clock' := by
  obtain ⟨k, hk⟩ := hlater
  intro m n hle
  rw [hk, hk]
  exact h _ _ (Nat.add_le_add_left hle k)

/-- The file of a key holds what was written last, or is gone and what was
written last has expired. -/
def Holds (now : DateTime) (file last : Option ManagedEntry) : Prop :=
  file = last ∨
    file = none ∧ ∃ entry, last = some entry ∧ entry.isExpired now = true

structure Agrees (d : Disk) (o : Opening) (l : Ledger) : Prop where
  own : Own d
  steady : Steady d.clock
  base : d.base.isSome = o.base
  opened : ∀ collection, Short collection →
    ((d.directory? (nameOf collection)).isSome = true ↔
      collection ∈ o.opened)
  short : ∀ collection ∈ o.opened, Short collection
  held : ∀ collection key, Holds (d.clock 0)
    (entryAt d (nameOf collection) (nameOf key)) (l collection key)

theorem Holds.later {now later : DateTime} {file last : Option ManagedEntry}
    (hle : now ≤ later) (h : Holds now file last) : Holds later file last := by
  rcases h with h | ⟨hfile, entry, hlast, hexpired⟩
  · exact .inl h
  · exact .inr ⟨hfile, entry, hlast, ManagedEntry.isExpired_mono hle hexpired⟩

theorem Holds.live {now : DateTime} {file last : Option ManagedEntry}
    (h : Holds now file last) :
    file.filter (fun entry => !entry.isExpired now) =
      last.filter fun entry => !entry.isExpired now := by
  rcases h with rfl | ⟨rfl, entry, rfl, hexpired⟩
  · rfl
  · simp [Option.filter, hexpired]

section Steps

variable {d : Disk} {o : Opening} {l : Ledger} {collection key : String}

theorem agrees_start {clock : Nat → DateTime} (h : Steady clock) :
    Agrees ⟨none, clock⟩ .start fun _ _ => none where
  own := ⟨fun _ _ h => by simp [Disk.directory?, Disk.collections] at h,
    fun _ _ _ h => by
      simp [Disk.file?, Disk.directory?, Disk.collections] at h⟩
  steady := h
  base := rfl
  opened := fun _ _ => by
    simp [Disk.directory?, Disk.collections, Opening.start]
  short := fun _ h => absurd h List.not_mem_nil
  held := fun _ _ => .inl (by
    simp [entryAt, Disk.file?, Disk.directory?, Disk.collections])

theorem Agrees.later (h : Agrees d o l) {clock : Nat → DateTime}
    (hlater : Later d.clock clock) : Agrees { d with clock := clock } o l where
  own := ⟨h.own.directory, h.own.file⟩
  steady := h.steady.later hlater
  base := h.base
  opened := h.opened
  short := h.short
  held := fun collection key => (h.held collection key).later (by
    obtain ⟨n, hn⟩ := hlater
    change d.clock 0 ≤ clock 0
    rw [hn]
    exact h.steady _ _ (Nat.zero_le _))

theorem Agrees.tick (h : Agrees d o l) : Agrees d.tick o l :=
  h.later (later_tick d)

theorem entryAt_createDir {name collection' name' : Name} :
    entryAt (d.createDir name) collection' name' =
      entryAt d collection' name' := by
  rw [entryAt, Disk.file?_createDir, entryAt]

theorem clock_createDir {name : Name} :
    (d.createDir name).clock = d.clock := by
  unfold Disk.createDir
  split <;> rfl

theorem Agrees.createDir (h : Agrees d o l) (hshort : Short collection) :
    Agrees (d.createDir (nameOf collection)) (o.enter collection) l where
  own := by
    constructor
    case directory =>
      intro name files hfiles
      rw [Disk.directory?_createDir] at hfiles
      split at hfiles
      · rename_i heq
        exact ⟨collection, hshort, heq⟩
      · exact h.own.directory name files hfiles
    case file =>
      intro name file contents hcontents
      rw [Disk.file?_createDir] at hcontents
      exact h.own.file name file contents hcontents
  steady := by
    rw [clock_createDir]
    exact h.steady
  base := Disk.isSome_base_createDir
  opened := by
    intro other hother
    rw [Disk.directory?_createDir, Opening.enter, List.mem_cons]
    split
    · rename_i heq
      simp [nameOf_inj.mp heq]
    · rename_i hne
      rw [h.opened other hother]
      constructor
      · exact .inr
      · rintro (rfl | hmem)
        · exact absurd rfl hne
        · exact hmem
  short := by
    intro other hother
    rcases List.mem_cons.mp hother with rfl | hmem
    · exact hshort
    · exact h.short other hmem
  held := by
    intro other key
    rw [entryAt_createDir, clock_createDir]
    exact h.held other key

theorem clock_writeFile {name file : Name} {contents : Bytes} :
    (d.writeFile name file contents).clock = d.clock := by
  unfold Disk.writeFile
  split <;> rfl

theorem clock_removeFile {name file : Name} :
    (d.removeFile name file).clock = d.clock := by
  unfold Disk.removeFile
  split <;> rfl

theorem Agrees.isSome_directory? (h : Agrees d o l)
    (hmem : collection ∈ o.opened) :
    (d.directory? (nameOf collection)).isSome = true :=
  (h.opened collection (h.short collection hmem)).mpr hmem

theorem Agrees.writeFile (h : Agrees d o l) {entry : ManagedEntry}
    (hmem : collection ∈ o.opened) (hkey : Short key)
    (hentry : entry.value.Storable) :
    Agrees (d.writeFile (nameOf collection) (nameOf key) entry.encode) o
      (l.record collection key (some entry.truncMillis)) where
  own := by
    constructor
    case directory =>
      intro name files hfiles
      have hsome : (d.directory? name).isSome = true := by
        rw [← Disk.isSome_directory?_writeFile, hfiles]
        rfl
      obtain ⟨files', hfiles'⟩ := Option.isSome_iff_exists.mp hsome
      exact h.own.directory name files' hfiles'
    case file =>
      intro name file contents hcontents
      rw [Disk.file?_writeFile (h.isSome_directory? hmem)] at hcontents
      split at hcontents
      · rename_i heq
        exact ⟨⟨key, hkey, heq.2⟩, entry, hentry,
          (Option.some.inj hcontents).symm⟩
      · exact h.own.file name file contents hcontents
  steady := by
    rw [clock_writeFile]
    exact h.steady
  base := by
    rw [Disk.isSome_base_writeFile, h.base]
  opened := by
    intro other hother
    rw [Disk.isSome_directory?_writeFile, h.opened other hother]
  short := h.short
  held := by
    intro other key'
    rw [entryAt, Disk.file?_writeFile (h.isSome_directory? hmem),
      clock_writeFile, Ledger.record]
    simp only [nameOf_inj]
    split
    · left
      simp only [Option.bind_some,
        ManagedEntry.decode_encode entry hentry.1 hentry.2, Except.toOption]
    · exact h.held other key'

theorem Agrees.removed (h : Agrees d o l) {last : Ledger}
    (hlast : ∀ other key', ¬ (other = collection ∧ key' = key) →
      last other key' = l other key')
    (hgone : Holds (d.clock 0) none (last collection key)) :
    Agrees (d.removeFile (nameOf collection) (nameOf key)) o last where
  own := by
    constructor
    case directory =>
      intro name files hfiles
      have hsome : (d.directory? name).isSome = true := by
        rw [← Disk.isSome_directory?_removeFile, hfiles]
        rfl
      obtain ⟨files', hfiles'⟩ := Option.isSome_iff_exists.mp hsome
      exact h.own.directory name files' hfiles'
    case file =>
      intro name file contents hcontents
      rw [Disk.file?_removeFile] at hcontents
      split at hcontents
      · cases hcontents
      · exact h.own.file name file contents hcontents
  steady := by
    rw [clock_removeFile]
    exact h.steady
  base := by
    rw [Disk.isSome_base_removeFile, h.base]
  opened := by
    intro other hother
    rw [Disk.isSome_directory?_removeFile, h.opened other hother]
  short := h.short
  held := by
    intro other key'
    rw [entryAt, Disk.file?_removeFile, clock_removeFile]
    simp only [nameOf_inj]
    split
    · rename_i heq
      obtain ⟨rfl, rfl⟩ := heq
      exact hgone
    · rename_i hne
      rw [hlast other key' hne]
      exact h.held other key'

theorem Agrees.removeFile (h : Agrees d o l) :
    Agrees (d.removeFile (nameOf collection) (nameOf key)) o
      (l.record collection key none) := by
  refine h.removed (fun other key' hne => ?_) (.inl ?_)
  · rw [Ledger.record, if_neg hne]
  · rw [Ledger.record, if_pos ⟨rfl, rfl⟩]

theorem Agrees.absent (h : Agrees d o l)
    (hnone : d.file? (nameOf collection) (nameOf key) = none) :
    Agrees d o (l.record collection key none) where
  own := h.own
  steady := h.steady
  base := h.base
  opened := h.opened
  short := h.short
  held := by
    intro other key'
    rw [Ledger.record]
    split
    · rename_i heq
      obtain ⟨rfl, rfl⟩ := heq
      left
      rw [entryAt, hnone, Option.bind_none]
    · exact h.held other key'

theorem Agrees.removeExpired (h : Agrees d o l) {entry : ManagedEntry}
    (hentry : entryAt d (nameOf collection) (nameOf key) = some entry)
    (hexpired : entry.isExpired (d.clock 0) = true) :
    Agrees (d.removeFile (nameOf collection) (nameOf key)) o l := by
  refine h.removed (fun _ _ _ => rfl) (.inr ⟨rfl, entry, ?_, hexpired⟩)
  rcases h.held collection key with hheld | ⟨hnone, -⟩
  · rw [← hheld, hentry]
  · rw [hentry] at hnone
    cases hnone

theorem Agrees.removeDir (h : Agrees d o l) :
    Agrees (d.removeDir (nameOf collection))
      { o with opened := o.opened.filter (· ≠ collection) }
      (fun c k => if c = collection then none else l c k) where
  own := by
    constructor
    case directory =>
      intro name files hfiles
      rw [Disk.directory?_removeDir] at hfiles
      split at hfiles
      · cases hfiles
      · exact h.own.directory name files hfiles
    case file =>
      intro name file contents hcontents
      rw [Disk.file?_removeDir] at hcontents
      split at hcontents
      · cases hcontents
      · exact h.own.file name file contents hcontents
  steady := h.steady
  base := by
    rw [Disk.removeDir, Option.isSome_map, h.base]
  opened := by
    intro other hother
    rw [Disk.directory?_removeDir, List.mem_filter]
    simp only [nameOf_inj]
    split
    · rename_i heq
      simp [heq]
    · rename_i hne
      simp [h.opened other hother, hne]
  short := fun other hmem => h.short other (List.mem_filter.mp hmem).1
  held := by
    intro other key'
    rw [entryAt, Disk.file?_removeDir]
    simp only [nameOf_inj]
    split
    · left
      rfl
    · exact h.held other key'

theorem Agrees.removeBase (h : Agrees d o l) :
    Agrees d.removeBase .start fun _ _ => none :=
  agrees_start h.steady

end Steps

end OpenKeyV.FileTree
