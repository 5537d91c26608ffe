import OpenKeyV.FileTree.Totality
import Mathlib.Data.List.Induction

/-!
# Runs of `FileTreeStore`

Calls made one after the other, from a base path that does not exist.  A call
fails where the code has a check for it, and `cull` and `collections` fail
besides when the base directory is missing.
-/

namespace OpenKeyV.FileTree

open Library Library.Interaction FileTreeStore

/-! ## Calls that fail -/

def Fails {α : Type} (fs : FileSystem) (call : Requests α) (d : Disk)
    (o : Opening) (l : Ledger) : Prop :=
  ∃ error d', playCall (serve fs) call d = (.error error, d') ∧ Agrees d' o l

section Fails

variable {α β : Type} {store : FileTreeStore} {fs : FileSystem} {d : Disk}
  {o : Opening} {l : Ledger} {collection key : String} {keys : List String}

theorem Fails.bind {call : Requests α} (h : Fails fs call d o l)
    (f : α → Requests β) : Fails fs (call >>= f) d o l := by
  obtain ⟨error, d', hcall, hagrees⟩ := h
  exact ⟨error, d', playCall_bind_error _ hcall, hagrees⟩

theorem fails_of_eq {call : Requests α} {f : α → Requests β} {r : α}
    {d' : Disk} (h : playCall (serve fs) call d = (.ok r, d'))
    (hf : Fails fs (f r) d' o l) : Fails fs (call >>= f) d o l := by
  obtain ⟨error, d'', hnext, hagrees⟩ := hf
  exact ⟨error, d'', by rw [playCall_bind_ok _ h, hnext], hagrees⟩

theorem fails_attempt {result : Except Error α}
    (h : ∃ error, result = .error error) (hagrees : Agrees d o l) :
    Fails fs (attempt result : Requests α) d o l := by
  obtain ⟨error, rfl⟩ := h
  exact ⟨error, d, rfl, hagrees⟩

theorem fails_attempt_ok {result : Except Error α} {f : α → Requests β} {a : α}
    (h : result = .ok a) (hf : Fails fs (f a) d o l) :
    Fails fs (attempt result >>= f) d o l :=
  fails_of_eq (by rw [playCall_attempt, h]) hf

theorem fails_paths (h : Agrees d o l) (hshort : Short collection)
    (hkeys : ∀ key ∈ keys, Short key) (hroom : ¬ Room store collection keys)
    {f : String → List Path → Requests α} :
    Fails fs (do
      let component ← attempt (store.collectionPath collection)
      let paths ← attempt (store.entryPaths component keys)
      f component paths) d o l := by
  rcases paths_error hshort hkeys hroom with herror | ⟨hok, herror⟩
  · exact (fails_attempt herror h).bind _
  · exact fails_attempt_ok hok ((fails_attempt herror h).bind _)

theorem fails_path (h : Agrees d o l) (hshort : Short collection)
    (hkey : Short key) (hroom : ¬ Room store collection [key])
    {f : String → Path → Requests α} :
    Fails fs (do
      let component ← attempt (store.collectionPath collection)
      let path ← attempt (store.entryPath component key)
      f component path) d o l := by
  have hkeys : ∀ other ∈ [key], Short other := by
    intro other hother
    rw [List.mem_singleton.mp hother]
    exact hkey
  rcases paths_error hshort hkeys hroom with herror | ⟨hok, error, herror⟩
  · exact (fails_attempt herror h).bind _
  · refine fails_attempt_ok hok ((fails_attempt ?_ h).bind _)
    cases hpath : store.entryPath (componentOf collection) key with
    | error error => exact ⟨error, rfl⟩
    | ok path =>
        simp only [entryPaths, hpath, bind, Except.bind, pure,
          Except.pure] at herror
        cases herror

theorem fails_collection (h : Agrees d o l) (hshort : Short collection)
    (hroom : ¬ Room store collection []) {f : String → Requests α} :
    Fails fs (attempt (store.collectionPath collection) >>= f) d o l := by
  refine (fails_attempt (collectionPath_error hshort fun hunits => ?_) h).bind _
  exact hroom ⟨hunits, fun _ hmem => absurd hmem List.not_mem_nil⟩

theorem readDir_missing (h : Agrees d o l) (hbase : o.base = false) :
    serve fs (.readDir .base) d = (.error .notFound, d) := by
  have hsome := h.base
  rw [hbase, Option.isSome_eq_false_iff, Option.isNone_iff_eq_none] at hsome
  rw [serve, hsome]
  rfl

theorem fails_access {a : Access} {f : a.Answer → Requests β}
    {answer : a.Answer} {d' : Disk} (h : serve fs a d = (answer, d'))
    (hf : Fails fs (f answer) d' o l) : Fails fs (access a >>= f) d o l :=
  fails_of_eq (by rw [playCall_access, h]) hf

theorem fails_cull (h : Agrees d o l) (hbase : o.base = false) :
    Fails fs store.cull d o l := by
  refine fails_access (readDir_missing h hbase) ?_
  exact (fails_attempt ⟨_, rfl⟩ h).bind _

theorem fails_collections (h : Agrees d o l) (hbase : o.base = false)
    (limit : Option Nat) : Fails fs (store.collections limit) d o l := by
  refine fails_access (readDir_missing h hbase) ?_
  exact (fails_attempt ⟨_, rfl⟩ h).bind _

theorem possible_of_room {call : Call}
    (htarget : call.target store = some (collection, keys))
    (hroom : Room store collection keys)
    (hlength : ∀ batch values name ttl,
      call = .putMany batch values name ttl → batch.length = values.length) :
    call.Possible store := by
  constructor
  · rw [htarget]
    rintro _ ⟨⟩
    exact hroom
  · split
    · exact hlength _ _ _ _ rfl
    · trivial

theorem perform_impossible {call : Call} (h : Agrees d o l)
    (haccepted : call.Accepted store d.clock)
    (himpossible : ¬ call.Possible store) :
    Fails fs (perform store call) d o l := by
  have hnames := haccepted.names
  cases call with
  | get key collection =>
      obtain ⟨hc, hk⟩ := hnames _ _ rfl
      refine (fails_path h hc (hk key List.mem_cons_self) ?_).bind _
      exact fun hroom => himpossible (possible_of_room rfl hroom nofun)
  | ttl key collection =>
      obtain ⟨hc, hk⟩ := hnames _ _ rfl
      refine (fails_path h hc (hk key List.mem_cons_self) ?_).bind _
      exact fun hroom => himpossible (possible_of_room rfl hroom nofun)
  | put key value collection ttl =>
      obtain ⟨hc, hk⟩ := hnames _ _ rfl
      refine (fails_path h hc (hk key List.mem_cons_self) ?_).bind _
      exact fun hroom => himpossible (possible_of_room rfl hroom nofun)
  | delete key collection =>
      obtain ⟨hc, hk⟩ := hnames _ _ rfl
      refine (fails_path h hc (hk key List.mem_cons_self) ?_).bind _
      exact fun hroom => himpossible (possible_of_room rfl hroom nofun)
  | getMany keys collection =>
      obtain ⟨hc, hk⟩ := hnames _ _ rfl
      refine (fails_paths h hc hk ?_).bind _
      exact fun hroom => himpossible (possible_of_room rfl hroom nofun)
  | ttlMany keys collection =>
      obtain ⟨hc, hk⟩ := hnames _ _ rfl
      refine (fails_paths h hc hk ?_).bind _
      exact fun hroom => himpossible (possible_of_room rfl hroom nofun)
  | deleteMany keys collection =>
      obtain ⟨hc, hk⟩ := hnames _ _ rfl
      refine (fails_paths h hc hk ?_).bind _
      exact fun hroom => himpossible (possible_of_room rfl hroom nofun)
  | putMany keys values collection ttl =>
      obtain ⟨hc, hk⟩ := hnames _ _ rfl
      refine Fails.bind ?_ _
      rw [putMany]
      by_cases hlength : keys.length = values.length
      · rw [if_neg (not_not.mpr hlength)]
        refine fails_of_eq (playCall_validateOptionalTtl haccepted.ttl) ?_
        refine fails_paths ?_ hc hk ?_
        · split
          · exact h.tick
          · exact h
        · refine fun hroom => himpossible (possible_of_room rfl hroom ?_)
          rintro _ _ _ _ ⟨⟩
          exact hlength
      · rw [if_pos hlength]
        exact ⟨_, d, rfl, h⟩
  | keys collection limit =>
      obtain ⟨hc, -⟩ := hnames _ _ rfl
      refine (fails_collection h hc ?_).bind _
      exact fun hroom => himpossible (possible_of_room rfl hroom nofun)
  | destroyCollection collection =>
      obtain ⟨hc, -⟩ := hnames _ _ rfl
      refine (fails_collection h hc ?_).bind _
      exact fun hroom => himpossible (possible_of_room rfl hroom nofun)
  | cull | collections | destroy =>
      exact absurd ⟨by rintro _ ⟨⟩, trivial⟩ himpossible

end Fails

/-! ## Calls that succeed -/

section Performs

variable {store : FileTreeStore} {fs : FileSystem} {d : Disk} {o : Opening}
  {l : Ledger}

def Call.listsBase : Call → Bool
  | .cull | .collections _ => true
  | _ => false

theorem perform_get {key : String} {collection : Option String}
    (h : Agrees d o l)
    (haccepted : (Call.get key collection).Accepted store d.clock)
    (hpossible : (Call.get key collection).Possible store) :
    ∃ d', playCall (serve fs) (perform store (.get key collection)) d =
        (.ok (.value (((l (store.collectionName collection) key).filter
          fun entry => !entry.isExpired (d.clock 0)).map
            ManagedEntry.value)), d') ∧
      Agrees d' (o.enter (store.collectionName collection)) l := by
  obtain ⟨hc, hk⟩ := haccepted.names _ _ rfl
  have hroom := hpossible.1 _ rfl
  have hpath := entryPath_of_units (hk key List.mem_cons_self)
    (hroom.2 key List.mem_cons_self)
  obtain ⟨d', hlive, hagrees⟩ := @playCall_liveEntry_agrees store fs _ _ _
    (h.createDir hc) (store.collectionName collection) key
  rw [clock_createDir] at hlive
  refine ⟨d', ?_, hagrees⟩
  have hget : playCall (serve fs) (store.get key collection) d =
      (.ok (((l (store.collectionName collection) key).filter
        fun entry => !entry.isExpired (d.clock 0)).map ManagedEntry.value),
        d') := by
    rw [FileTreeStore.get, playCall_bind, playCall_attempt,
      collectionPath_of_room hc hroom]
    simp only
    rw [playCall_bind, playCall_attempt, hpath]
    simp only
    rw [playCall_bind_ok _ playCall_ensureCollectionDir]
    change playCall (serve fs) (store.liveEntry (.entry (nameOf _) (nameOf _))
      >>= _) (d.createDir (nameOf _)) = _
    rw [playCall_bind_ok _ hlive]
    rfl
  rw [perform, playCall_bind_ok _ hget]
  rfl

theorem Agrees.written (h : Agrees d o l) (written : Bool) :
    Agrees d { o with written := written } l :=
  ⟨h.own, h.steady, h.base, h.opened, h.short, h.held⟩

theorem file?_of_directory? {collection name : Name}
    (h : ¬ (d.directory? collection).isSome = true) :
    d.file? collection name = none := by
  rw [Disk.file?, Option.not_isSome_iff_eq_none.mp h, Option.bind_none]

theorem Agrees.absentAll {collection : String} {keys : List String}
    (h : Agrees d o l)
    (hnone : ¬ (d.directory? (nameOf collection)).isSome = true) :
    Agrees d o (l.forget collection keys) := by
  induction keys generalizing l with
  | nil => exact h
  | cons key keys ih => exact ih (h.absent (file?_of_directory? hnone))

theorem Agrees.checked (h : Agrees d o l) (ttl : Option F64) :
    Agrees (if ttl.isSome then d.tick else d) o l ∧
      (if ttl.isSome then d.tick else d).clock =
        fun n => d.clock (if ttl.isSome then n + 1 else n) := by
  cases ttl with
  | none => exact ⟨h, rfl⟩
  | some seconds => exact ⟨h.tick, rfl⟩

theorem Grants.checked {ttl : Option F64} (h : Grants d.clock ttl) :
    Grants (fun n => d.clock (if ttl.isSome then n + 1 else n)) ttl :=
  fun seconds httl _ => h seconds httl _

theorem goes_result {α : Type} {result : Except Error α} {a : α}
    (hresult : result = .ok a) (h : Agrees d o l) :
    Goes fs (attempt result : Requests α) d o l :=
  ⟨a, d, by rw [playCall_attempt, hresult], h⟩

theorem serve_removeDir {name : Name}
    (h : (d.directory? name).isSome = true) :
    serve fs (.removeDirAll (.collection name)) d =
      (.ok (), d.removeDir name) := by
  obtain ⟨files, hfiles⟩ := Option.isSome_iff_exists.mp h
  simp only [serve, hfiles]

theorem serve_removeBase {dirs : KeyedMap Name (KeyedMap Name Bytes)}
    (h : d.base = some dirs) :
    serve fs (.removeDirAll .base) d = (.ok (), d.removeBase) := by
  simp only [serve, h]

theorem serve_removeBase_none (h : d.base = none) :
    serve fs (.removeDirAll .base) d = (.error .notFound, d) := by
  simp only [serve, h]

theorem removeDir_absent {name : Name} (h : d.directory? name = none) :
    d.removeDir name = d := by
  obtain ⟨base, clock⟩ := d
  cases base with
  | none => rfl
  | some dirs =>
      have hkeys : name ∉ dirs.entries.keys := by
        rw [← List.dlookup_eq_none]
        exact h
      have herase : dirs.erase name = dirs := by
        apply AList.ext
        exact List.kerase_of_notMem_keys hkeys
      simp only [Disk.removeDir, Option.map_some, herase]

theorem perform_collections (h : Agrees d o l) (hbase : o.base = true)
    (limit : Option Nat) :
    ∃ names, playCall (serve fs) (perform store (.collections limit)) d =
        (.ok (.names names), d) ∧
      (names = [] ↔ limit = some 0 ∨ o.opened = []) := by
  obtain ⟨listed, hread, hopened, hempty⟩ := @readDir_base fs _ _ _ h hbase
  have hdecodes : ∀ entry ∈ listed.map fun name =>
      (⟨name, .directory⟩ : DirEntry), ∃ name,
        store.decodePhysicalEntry .base entry "collection" true =
          .ok name := by
    intro entry hentry
    obtain ⟨name, hname, rfl⟩ := List.mem_map.mp hentry
    obtain ⟨collection, hmem, rfl⟩ := hopened name hname
    exact ⟨_, decodePhysicalEntry_directory (h.short collection hmem) _⟩
  obtain ⟨names, hnames, hnil⟩ := decodeListing_ok hdecodes
    (min (limit.getD maxEnumeration) maxEnumeration)
  refine ⟨names, ?_, ?_⟩
  · have hplay : playCall (serve fs) (store.collections limit) d =
        (.ok names, d) := by
      rw [FileTreeStore.collections, playCall_bind, playCall_access, hread]
      simp only [connected]
      rw [playCall_bind_ok _ (playCall_attempt _ _ _), playCall_attempt]
      exact congrArg (·, d) hnames
    rw [perform, playCall_bind_ok _ hplay]
    rfl
  · rw [hnil, List.map_eq_nil_iff, hempty]
    refine or_congr_left ?_
    cases limit with
    | none => simp [maxEnumeration]
    | some n => simp [maxEnumeration]

theorem perform_ttl {key : String} {collection : Option String}
    (h : Agrees d o l)
    (haccepted : (Call.ttl key collection).Accepted store d.clock)
    (hpossible : (Call.ttl key collection).Possible store) :
    Goes fs (perform store (.ttl key collection)) d
      (o.enter (store.collectionName collection)) l := by
  obtain ⟨hc, hk⟩ := haccepted.names _ _ rfl
  have hr := hpossible.1 _ rfl
  refine Goes.bind ?_ fun r d' h' => goes_pure h' _
  refine goes_attempt (collectionPath_of_room hc hr) ?_
  refine goes_attempt (entryPath_of_units (hk key List.mem_cons_self)
    (hr.2 key List.mem_cons_self)) ?_
  refine (goes_ensureCollectionDir h hc).bind fun _ d' h' => ?_
  exact (goes_liveEntry h').bind fun entry d'' h'' =>
    goes_withTtl h'' entry

theorem perform_put {key : String} {value : Value}
    {collection : Option String} {ttl : Option F64}
    (h : Agrees d o l)
    (haccepted : (Call.put key value collection ttl).Accepted store d.clock)
    (hpossible : (Call.put key value collection ttl).Possible store) :
    Goes fs (perform store (.put key value collection ttl)) d
      { o.enter (store.collectionName collection) with written := true }
      (l.recordAll (store.collectionName collection)
        ([key].zip (Ledger.entries d.clock ttl [value]))) := by
  obtain ⟨hc, hk⟩ := haccepted.names _ _ rfl
  have hr := hpossible.1 _ rfl
  have hkey := hk key List.mem_cons_self
  have hgrants : Grants d.clock ttl := haccepted.ttl
  obtain ⟨entry, hentry⟩ := hgrants.ofTtl value
  have hstorable : entry.value.Storable := by
    rw [ManagedEntry.value_of_ofTtl hentry]
    exact haccepted.values value List.mem_cons_self
  have hmade : Ledger.entries d.clock ttl [value] =
      [entry.truncMillis] := by
    simp only [Ledger.entries, hentry]
    rfl
  rw [hmade]
  refine Goes.bind ?_ fun r d' h' => goes_pure h' _
  refine goes_attempt (collectionPath_of_room hc hr) ?_
  refine goes_attempt (entryPath_of_units hkey
    (hr.2 key List.mem_cons_self)) ?_
  refine goes_of_eq (playCall_newEntry.trans (by rw [hentry])) ?_
  refine (goes_ensureCollectionDir h.tick hc).bind fun _ d' h' => ?_
  exact goes_writeEntry (h'.written true) List.mem_cons_self hkey hstorable

theorem perform_delete {key : String} {collection : Option String}
    (h : Agrees d o l)
    (haccepted : (Call.delete key collection).Accepted store d.clock)
    (hpossible : (Call.delete key collection).Possible store) :
    Goes fs (perform store (.delete key collection)) d
      o
      (l.forget (store.collectionName collection) [key]) := by
  obtain ⟨hc, hk⟩ := haccepted.names _ _ rfl
  have hr := hpossible.1 _ rfl
  refine Goes.bind ?_ fun r d' h' => goes_pure h' _
  refine goes_attempt (collectionPath_of_room hc hr) ?_
  refine goes_attempt (entryPath_of_units (hk key List.mem_cons_self)
    (hr.2 key List.mem_cons_self)) ?_
  refine goes_of_eq playCall_collectionDirExists ?_
  split
  · exact goes_removeEntry h
  · rename_i hnone
    exact goes_pure (h.absent (file?_of_directory? hnone)) false

theorem perform_getMany {keys : List String} {collection : Option String}
    (h : Agrees d o l)
    (haccepted : (Call.getMany keys collection).Accepted store d.clock)
    (hpossible : (Call.getMany keys collection).Possible store) :
    Goes fs (perform store (.getMany keys collection)) d
      (o.enter (store.collectionName collection)) l := by
  obtain ⟨hc, hk⟩ := haccepted.names _ _ rfl
  have hr := hpossible.1 _ rfl
  refine Goes.bind ?_ fun r d' h' => goes_pure h' _
  refine goes_attempt (collectionPath_of_room hc hr) ?_
  refine goes_attempt (entryPaths_of_room hk hr) ?_
  refine (goes_ensureCollectionDir h hc).bind fun _ d' h' => ?_
  exact goes_getEach h'

theorem perform_ttlMany {keys : List String} {collection : Option String}
    (h : Agrees d o l)
    (haccepted : (Call.ttlMany keys collection).Accepted store d.clock)
    (hpossible : (Call.ttlMany keys collection).Possible store) :
    Goes fs (perform store (.ttlMany keys collection)) d
      (o.enter (store.collectionName collection)) l := by
  obtain ⟨hc, hk⟩ := haccepted.names _ _ rfl
  have hr := hpossible.1 _ rfl
  refine Goes.bind ?_ fun r d' h' => goes_pure h' _
  refine goes_attempt (collectionPath_of_room hc hr) ?_
  refine goes_attempt (entryPaths_of_room hk hr) ?_
  refine (goes_ensureCollectionDir h hc).bind fun _ d' h' => ?_
  exact goes_ttlEach h'

theorem perform_deleteMany {keys : List String} {collection : Option String}
    (h : Agrees d o l)
    (haccepted : (Call.deleteMany keys collection).Accepted store d.clock)
    (hpossible : (Call.deleteMany keys collection).Possible store) :
    Goes fs (perform store (.deleteMany keys collection)) d
      o
      (l.forget (store.collectionName collection) keys) := by
  obtain ⟨hc, hk⟩ := haccepted.names _ _ rfl
  have hr := hpossible.1 _ rfl
  refine Goes.bind ?_ fun r d' h' => goes_pure h' _
  refine goes_attempt (collectionPath_of_room hc hr) ?_
  refine goes_attempt (entryPaths_of_room hk hr) ?_
  refine goes_of_eq playCall_collectionDirExists ?_
  split
  · exact goes_deleteEach h 0
  · rename_i hnone
    exact goes_pure (h.absentAll hnone) 0

theorem perform_putMany {keys : List String} {values : List Value}
    {collection : Option String} {ttl : Option F64}
    (h : Agrees d o l)
    (haccepted : (Call.putMany keys values collection ttl).Accepted store d.clock)
    (hpossible : (Call.putMany keys values collection ttl).Possible store) :
    Goes fs (perform store (.putMany keys values collection ttl)) d
      { o.enter (store.collectionName collection) with
        written := o.written || !keys.isEmpty }
      (l.recordAll (store.collectionName collection)
        (keys.zip (Ledger.entries
          (fun n => d.clock (if ttl.isSome then n + 1 else n)) ttl values))) := by
  obtain ⟨hc, hk⟩ := haccepted.names _ _ rfl
  have hr := hpossible.1 _ rfl
  have hlength : keys.length = values.length := hpossible.2
  have hgrants : Grants d.clock ttl := haccepted.ttl
  refine Goes.bind ?_ fun r d' h' => goes_pure h' _
  rw [putMany, if_neg (not_not.mpr hlength)]
  refine goes_of_eq (playCall_validateOptionalTtl hgrants) ?_
  refine goes_attempt (collectionPath_of_room hc hr) ?_
  refine goes_attempt (entryPaths_of_room hk hr) ?_
  obtain ⟨hchecked, hclock⟩ := h.checked ttl
  obtain ⟨entries, d', hplay, hagrees, hmade, hvalues⟩ :=
    @playCall_newEntries fs _ _ _ values ttl hchecked (by
      rw [hclock]
      exact hgrants.checked)
  rw [hclock] at hmade
  refine goes_of_eq hplay ?_
  refine (goes_ensureCollectionDir hagrees hc).bind fun _ d'' h'' => ?_
  rw [← hmade]
  refine goes_writeEach (h''.written _) List.mem_cons_self hk ?_
  intro entry hentry
  refine haccepted.values _ ?_
  change _ ∈ values
  rw [← hvalues]
  exact List.mem_map_of_mem hentry

theorem perform_keys {collection : Option String} {limit : Option Nat}
    (h : Agrees d o l)
    (haccepted : (Call.keys collection limit).Accepted store d.clock)
    (hpossible : (Call.keys collection limit).Possible store) :
    Goes fs (perform store (.keys collection limit)) d
      (o.enter (store.collectionName collection)) l := by
  obtain ⟨hc, -⟩ := haccepted.names _ _ rfl
  have hr := hpossible.1 _ rfl
  refine Goes.bind ?_ fun r d' h' => goes_pure h' _
  refine goes_attempt (collectionPath_of_room hc hr) ?_
  refine (goes_ensureCollectionDir h hc).bind fun _ d' h' => ?_
  obtain ⟨names, hread, hshort⟩ := @readDir_collection fs _ _ _ _ h'
    List.mem_cons_self
  refine goes_access hread ?_
  refine goes_attempt rfl ?_
  obtain ⟨listed, hlisted⟩ := decodeListing_files hshort
    (min (limit.getD maxEnumeration) maxEnumeration)
  exact goes_result hlisted h'

theorem perform_destroyCollection {collection : String}
    (h : Agrees d o l)
    (haccepted : (Call.destroyCollection collection).Accepted store d.clock)
    (hpossible : (Call.destroyCollection collection).Possible store) :
    Goes fs (perform store (.destroyCollection collection)) d
      { o with opened := o.opened.filter (· ≠ collection) }
      (fun c k => if c = collection then none else l c k) := by
  obtain ⟨hc, -⟩ := haccepted.names _ _ rfl
  have hr := hpossible.1 _ rfl
  refine Goes.bind ?_ fun r d' h' => goes_pure h' _
  refine goes_attempt (collectionPath_of_room hc hr) ?_
  refine goes_of_eq playCall_collectionDirExists ?_
  split
  · rename_i hsome
    obtain ⟨names, hread, hshort⟩ := @readDir_collection fs _ _ _ _ h
      ((h.opened collection hc).mp hsome)
    refine goes_access hread ?_
    refine goes_attempt rfl ?_
    obtain ⟨listed, hlisted⟩ := decodeListing_files hshort 0
    refine goes_attempt hlisted ?_
    refine goes_access (serve_removeDir hsome) ?_
    exact goes_pure h.removeDir true
  · rename_i hnone
    have hremoved := @Agrees.removeDir _ _ _ collection h
    have hsame : d.removeDir (nameOf collection) = d :=
      removeDir_absent (Option.not_isSome_iff_eq_none.mp hnone)
    rw [hsame] at hremoved
    exact goes_pure hremoved false

theorem perform_cull (h : Agrees d o l) (hbase : o.base = true) :
    Goes fs (perform store .cull) d o l := by
  obtain ⟨names, hread, hopened, -⟩ := @readDir_base fs _ _ _ h
    hbase
  refine Goes.bind ?_ fun r d' h' => goes_pure h' _
  refine goes_access hread ?_
  refine goes_attempt rfl ?_
  exact goes_cullCollections h hopened

theorem perform_destroy (h : Agrees d o l) :
    Goes fs (perform store .destroy) d .start fun _ _ => none := by
  refine Goes.bind ?_ fun r d' h' => goes_pure h' _
  have hremoved := h.removeBase
  cases hdirs : d.base with
  | some dirs =>
      refine goes_access (serve_removeBase hdirs) ?_
      exact goes_pure hremoved true
  | none =>
      have hsame : d.removeBase = d := by
        rw [Disk.removeBase, ← hdirs]
      rw [hsame] at hremoved
      refine goes_access (serve_removeBase_none hdirs) ?_
      exact goes_pure hremoved true

theorem perform_possible {call : Call} (h : Agrees d o l)
    (haccepted : call.Accepted store d.clock)
    (hpossible : call.Possible store)
    (hbase : call.listsBase = true → o.base = true) :
    Goes fs (perform store call) d (o.step store call)
      (l.step store d.clock call) := by
  unfold Opening.step Ledger.step
  rw [if_pos hpossible, if_pos hpossible]
  cases call with
  | get key collection =>
      obtain ⟨d', hplay, hagrees⟩ := @perform_get store fs _ _ _ _ _ h
        haccepted hpossible
      exact ⟨_, d', hplay, hagrees⟩
  | ttl => exact perform_ttl h haccepted hpossible
  | put => exact perform_put h haccepted hpossible
  | delete => exact perform_delete h haccepted hpossible
  | getMany => exact perform_getMany h haccepted hpossible
  | ttlMany => exact perform_ttlMany h haccepted hpossible
  | deleteMany => exact perform_deleteMany h haccepted hpossible
  | putMany => exact perform_putMany h haccepted hpossible
  | keys => exact perform_keys h haccepted hpossible
  | destroyCollection => exact perform_destroyCollection h haccepted hpossible
  | cull => exact perform_cull h (hbase rfl)
  | collections limit =>
      obtain ⟨names, hplay, -⟩ := @perform_collections store fs _ _ _ h
        (hbase rfl) limit
      exact ⟨_, d, hplay, h⟩
  | destroy => exact perform_destroy h

end Performs

/-! ## Runs -/

section Runs

variable (store : FileTreeStore) (fs : FileSystem)

def advance (s : Disk × Ledger) (call : Call) : Disk × Ledger :=
  ((playCall (serve fs) (perform store call) s.1).2,
    s.2.step store s.1.clock call)

def after (clock : Nat → DateTime) (calls : List Call) : Disk × Ledger :=
  calls.foldl (advance store fs) (⟨none, clock⟩, fun _ _ => none)

def opening (calls : List Call) : Opening :=
  calls.foldl (Opening.step store) .start

def answer (d : Disk) (call : Call) : Except Error Reply :=
  (playCall (serve fs) (perform store call) d).1

end Runs

section Preserved

variable {store : FileTreeStore} {fs : FileSystem} {d : Disk} {o : Opening}
  {l : Ledger} {call : Call}

theorem later_serve (a : Access) (d : Disk) :
    Later d.clock (serve fs a d).2.clock := by
  have hsame : ∀ d' : Disk, d'.clock = d.clock → Later d.clock d'.clock := by
    intro d' h
    rw [h]
    exact .refl _
  cases a with
  | now => exact later_tick d
  | symlinkMetadata path => cases path <;> exact .refl _
  | read path => cases path <;> exact .refl _
  | readDir path => cases path <;> exact .refl _
  | createDirAll path =>
      cases path with
      | collection name => exact hsame _ clock_createDir
      | base | entry => exact .refl _
  | write path contents =>
      cases path with
      | entry collection name =>
          simp only [serve]
          split
          · exact hsame _ clock_writeFile
          · exact .refl _
      | base | collection => exact .refl _
  | removeFile path =>
      cases path with
      | entry collection name =>
          simp only [serve]
          split
          · exact hsame _ clock_removeFile
          · exact .refl _
      | base | collection => exact .refl _
  | removeDirAll path =>
      cases path with
      | entry => exact .refl _
      | base | collection =>
          simp only [serve]
          split <;> exact .refl _

theorem later_play {α : Type} (tree : Interaction Access.Answer α) (d : Disk) :
    Later d.clock (play (serve fs) tree d).2.clock := by
  induction tree generalizing d with
  | done a => exact .refl _
  | request access next ih =>
      exact (later_serve access d).trans (ih _ _)

theorem Call.Accepted.later {clock clock' : Nat → DateTime}
    (h : call.Accepted store clock) (hlater : Later clock clock') :
    call.Accepted store clock' := by
  obtain ⟨k, hk⟩ := hlater
  refine ⟨h.names, h.values, fun seconds httl n => ?_⟩
  rw [hk]
  exact h.ttl seconds httl _

theorem perform_fails (h : Agrees d o l)
    (haccepted : call.Accepted store d.clock)
    (hfails : ¬ call.Possible store ∨
      call.listsBase = true ∧ o.base = false) :
    Fails fs (perform store call) d o l := by
  rcases hfails with himpossible | ⟨hlists, hbase⟩
  · exact perform_impossible h haccepted himpossible
  · cases call with
    | cull => exact (fails_cull h hbase).bind _
    | collections limit => exact (fails_collections h hbase limit).bind _
    | _ => cases hlists

theorem agrees_advance (h : Agrees d o l)
    (haccepted : call.Accepted store d.clock) :
    Agrees (advance store fs (d, l) call).1 (o.step store call)
      (advance store fs (d, l) call).2 := by
  by_cases hpossible : call.Possible store
  · by_cases hbase : call.listsBase = true ∧ o.base = false
    · obtain ⟨error, d', hplay, hagrees⟩ := @perform_fails store fs _ _ _ _ h
        haccepted (.inr hbase)
      have hsame : o.step store call = o ∧ l.step store d.clock call = l := by
        unfold Opening.step Ledger.step
        rw [if_pos hpossible, if_pos hpossible]
        obtain ⟨hlists, -⟩ := hbase
        cases call with
        | cull | collections => exact ⟨rfl, rfl⟩
        | _ => cases hlists
      rw [advance, hsame.1, hsame.2, hplay]
      exact hagrees
    · obtain ⟨r, d', hplay, hagrees⟩ := @perform_possible store fs _ _ _ _ h
        haccepted hpossible (by
          intro hlists
          by_contra hmissing
          exact hbase ⟨hlists, Bool.not_eq_true _ |>.mp hmissing⟩)
      rw [advance, hplay]
      exact hagrees
  · obtain ⟨error, d', hplay, hagrees⟩ := @perform_fails store fs _ _ _ _ h
      haccepted (.inl hpossible)
    unfold advance Opening.step Ledger.step
    rw [hplay, if_neg hpossible, if_neg hpossible]
    exact hagrees

theorem agrees_after {clock : Nat → DateTime} (hsteady : Steady clock)
    (calls : List Call)
    (haccepted : ∀ call ∈ calls, call.Accepted store clock) :
    Agrees (after store fs clock calls).1 (opening store calls)
        (after store fs clock calls).2 ∧
      Later clock (after store fs clock calls).1.clock := by
  induction calls using List.reverseRecOn with
  | nil => exact ⟨agrees_start hsteady, .refl _⟩
  | append_singleton calls call ih =>
      obtain ⟨hagrees, hlater⟩ := ih fun call h =>
        haccepted call (List.mem_append_left _ h)
      have hcall := (haccepted call (List.mem_append_right _
        List.mem_cons_self)).later hlater
      rw [after, opening, List.foldl_append, List.foldl_append]
      exact ⟨agrees_advance hagrees hcall, hlater.trans (later_play _ _)⟩

end Preserved

/-! ## What is promised of a run -/

section Promise

variable (store : FileTreeStore) (fs : FileSystem) (clock : Nat → DateTime)

/-- No call of the run fails, nothing is listed before anything is written,
and every `get` returns what was written last and has not expired. -/
structure Sound (calls : List Call) : Prop where
  total : ∀ before call rest, calls = before ++ call :: rest →
    ∃ reply, answer store fs (after store fs clock before).1 call = .ok reply
  unwritten : ∀ before limit rest,
    calls = before ++ .collections limit :: rest →
      (opening store before).written = false →
        answer store fs (after store fs clock before).1
          (.collections limit) = .ok (.names [])
  last : ∀ before key collection rest,
    calls = before ++ .get key collection :: rest →
      answer store fs (after store fs clock before).1 (.get key collection) =
        .ok (.value ((((after store fs clock before).2
          (store.collectionName collection) key).filter fun entry =>
            !entry.isExpired ((after store fs clock before).1.clock 0)).map
              ManagedEntry.value))

/-- The paths fit and a batch has a value for each key; `cull` and
`collections` find a base directory; and while nothing has been written,
`collections` comes when nothing stands open, or returns nothing at all. -/
def Call.Met (before : List Call) (call : Call) : Prop :=
  call.Possible store ∧
    (call.listsBase = true → (opening store before).base = true) ∧
    ∀ limit, call = .collections limit →
      (opening store before).written = false →
        limit = some 0 ∨ (opening store before).opened = []

variable {store fs clock}

theorem met_of_sound {calls : List Call} (hsteady : Steady clock)
    (haccepted : ∀ call ∈ calls, call.Accepted store clock)
    (h : Sound store fs clock calls) {before rest : List Call} {call : Call}
    (hcalls : calls = before ++ call :: rest) : call.Met store before := by
  have hbefore : ∀ call ∈ before, call.Accepted store clock := by
    intro other hother
    rw [hcalls] at haccepted
    exact haccepted other (List.mem_append_left _ hother)
  obtain ⟨hagrees, hlater⟩ := @agrees_after store fs _ hsteady before hbefore
  have hcall : call.Accepted store (after store fs clock before).1.clock := by
    refine Call.Accepted.later (haccepted call ?_) hlater
    rw [hcalls]
    exact List.mem_append_right _ List.mem_cons_self
  obtain ⟨reply, hreply⟩ := h.total before call rest hcalls
  have hgoes : ¬ (¬ call.Possible store ∨
      call.listsBase = true ∧ (opening store before).base = false) := by
    intro hfails
    obtain ⟨error, d', hplay, -⟩ := @perform_fails store fs _ _ _ _ hagrees
      hcall hfails
    rw [answer, hplay] at hreply
    cases hreply
  push Not at hgoes
  have hbase : call.listsBase = true → (opening store before).base = true :=
    fun hlists => Bool.not_eq_false _ |>.mp (hgoes.2 hlists)
  refine ⟨hgoes.1, hbase, ?_⟩
  rintro limit rfl hwritten
  obtain ⟨names, hplay, hempty⟩ := @perform_collections store fs _ _ _ hagrees
    (hbase rfl) limit
  have hnames := h.unwritten before limit rest hcalls hwritten
  rw [answer, hplay] at hnames
  cases hnames
  exact hempty.mp rfl

theorem sound_of_met {calls : List Call} (hsteady : Steady clock)
    (haccepted : ∀ call ∈ calls, call.Accepted store clock)
    (h : ∀ before call rest, calls = before ++ call :: rest →
      call.Met store before) : Sound store fs clock calls := by
  have hstate : ∀ before call rest, calls = before ++ call :: rest →
      Agrees (after store fs clock before).1 (opening store before)
          (after store fs clock before).2 ∧
        call.Accepted store (after store fs clock before).1.clock := by
    intro before call rest hcalls
    rw [hcalls] at haccepted
    obtain ⟨hagrees, hlater⟩ := @agrees_after store fs _ hsteady before
      fun other hother => haccepted other (List.mem_append_left _ hother)
    exact ⟨hagrees, (haccepted call (List.mem_append_right _
      List.mem_cons_self)).later hlater⟩
  constructor
  case total =>
    intro before call rest hcalls
    obtain ⟨hagrees, hcall⟩ := hstate before call rest hcalls
    obtain ⟨hpossible, hbase, -⟩ := h before call rest hcalls
    obtain ⟨reply, d', hplay, -⟩ := @perform_possible store fs _ _ _ _ hagrees
      hcall hpossible hbase
    exact ⟨reply, by rw [answer, hplay]⟩
  case unwritten =>
    intro before limit rest hcalls hwritten
    obtain ⟨hagrees, -⟩ := hstate before _ rest hcalls
    obtain ⟨-, hbase, hopened⟩ := h before _ rest hcalls
    obtain ⟨names, hplay, hempty⟩ := @perform_collections store fs _ _ _
      hagrees (hbase rfl) limit
    rw [answer, hplay, hempty.mpr (hopened limit rfl hwritten)]
  case last =>
    intro before key collection rest hcalls
    obtain ⟨hagrees, hcall⟩ := hstate before _ rest hcalls
    obtain ⟨d', hplay, -⟩ := @perform_get store fs _ _ _ _ _ hagrees hcall
      (h before _ rest hcalls).1
    rw [answer, hplay]

theorem filetree_sound_iff {calls : List Call} (hsteady : Steady clock)
    (haccepted : ∀ call ∈ calls, call.Accepted store clock) :
    Sound store fs clock calls ↔
      ∀ before call rest, calls = before ++ call :: rest →
        call.Met store before := by
  constructor
  · intro h before call rest hcalls
    exact met_of_sound hsteady haccepted h hcalls
  · exact sound_of_met hsteady haccepted

end Promise

def sampleStore : FileTreeStore := ⟨"default_collection", 6, 4095, fun _ => ""⟩

def sampleSystem : FileSystem := ⟨id, fun _ => .refl _⟩

def sampleClock : Nat → DateTime := fun _ => .epoch

theorem steady_sampleClock : Steady sampleClock :=
  fun _ _ _ => DateTime.le_def.mpr (Int.le_refl _)

def sampleRun : List Call :=
  [.put "key" .null none (some (.finite 1)), .collections none,
    .get "key" none, .destroy]

theorem accepted_sample {call : Call} (h : call ∈ sampleRun) :
    call.Accepted sampleStore sampleClock := by
  have htarget : ∀ call ∈ sampleRun,
      ∀ target ∈ call.target sampleStore,
        Short target.1 ∧ ∀ key ∈ target.2, Short key := by decide
  have hstorable : Value.null.Storable := ⟨rfl, by decide⟩
  have hvalues : ∀ call ∈ sampleRun, ∀ value ∈ call.values,
      value = .null := by decide
  have hinstant : (ManagedEntry.expirationAt .epoch (.finite 1)).isOk =
      true := by decide +kernel
  have httls : ∀ call ∈ sampleRun, ∀ seconds ∈ call.writeTtl,
      seconds = .finite 1 := by decide
  refine ⟨fun collection keys hnames => htarget call h _ hnames, ?_, ?_⟩
  · intro value hvalue
    rw [hvalues call h value hvalue]
    exact hstorable
  · intro seconds hseconds n
    rw [httls call h seconds hseconds]
    cases hexpires : ManagedEntry.expirationAt .epoch (.finite 1) with
    | ok expires => exact ⟨expires, hexpires⟩
    | error error =>
        rw [hexpires] at hinstant
        cases hinstant

theorem sound_sampleRun :
    Sound sampleStore sampleSystem sampleClock sampleRun := by
  refine (filetree_sound_iff steady_sampleClock
    fun _ => accepted_sample).mpr ?_
  have hpossible : ∀ call ∈ sampleRun, call.Possible sampleStore := by decide
  have hlists : ∀ n < 4, ∀ call ∈ sampleRun[n]?, call.listsBase = true →
      (opening sampleStore (sampleRun.take n)).base = true ∧
        (opening sampleStore (sampleRun.take n)).written = true := by
    decide +kernel
  intro before call rest hcalls
  have hcall : sampleRun[before.length]? = some call := by simp [hcalls]
  have hbefore : sampleRun.take before.length = before := by simp [hcalls]
  have hlength : before.length < 4 := by
    have h := congrArg List.length hcalls
    simp only [sampleRun, List.length_append, List.length_cons,
      List.length_nil] at h
    omega
  have hopening := hlists _ hlength call hcall
  rw [hbefore] at hopening
  refine ⟨hpossible call (List.mem_of_getElem? hcall),
    fun h => (hopening h).1, ?_⟩
  rintro limit rfl hwritten
  rw [(hopening rfl).2] at hwritten
  cases hwritten

/-- A new store cannot be listed, and a read is enough to list a collection
that nobody has written to. -/
theorem new_store_unsound :
    ¬ Sound sampleStore sampleSystem sampleClock [.collections none] ∧
      ¬ Sound sampleStore sampleSystem sampleClock
        [.get "key" none, .collections none] := by
  constructor
  · intro h
    obtain ⟨reply, hreply⟩ := h.total [] _ [] rfl
    cases hreply
  · intro h
    have hnames := h.unwritten [.get "key" none] none [] rfl rfl
    revert hnames
    decide +kernel

end OpenKeyV.FileTree
