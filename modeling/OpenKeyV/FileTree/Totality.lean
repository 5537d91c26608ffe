import OpenKeyV.FileTree.History

/-!
# Calls of `FileTreeStore` that succeed

Each call is followed on a disk that agrees with its history.  A call returns
what the history has, and leaves a disk that agrees with the longer history.
-/

namespace OpenKeyV.FileTree

open Library Library.Interaction FileTreeStore

section Paths

variable {store : FileTreeStore} {collection key : String}
  {keys : List String}

def pathsOf (collection : String) (keys : List String) : List Path :=
  keys.map fun key => .entry (nameOf collection) (nameOf key)

theorem collectionPath_of_room (hshort : Short collection)
    (hroom : Room store collection keys) :
    store.collectionPath collection = .ok (componentOf collection) := by
  simp only [collectionPath, encodeComponent_of_short hshort, bind, Except.bind,
    validatePathLength, if_neg (Nat.not_lt.mpr hroom.1), pure, Except.pure]

theorem entryPath_of_units (hkey : Short key)
    (hunits : store.collectionUnits (componentOf collection) + 1 +
      (componentOf key).utf8ByteSize ≤ store.maxPathUnits) :
    store.entryPath (componentOf collection) key =
      .ok (.entry (nameOf collection) (nameOf key)) := by
  simp only [entryPath, encodeComponent_of_short hkey, bind, Except.bind,
    validatePathLength, if_neg (Nat.not_lt.mpr hunits), pure, Except.pure,
    nameOf]

theorem entryPaths_of_room (hkeys : ∀ key ∈ keys, Short key)
    (hroom : Room store collection keys) :
    store.entryPaths (componentOf collection) keys =
      .ok (pathsOf collection keys) := by
  induction keys with
  | nil => rfl
  | cons key keys ih =>
      have hrest := ih (fun key h => hkeys key (List.mem_cons_of_mem _ h))
        ⟨hroom.1, fun key h => hroom.2 key (List.mem_cons_of_mem _ h)⟩
      have hfirst := entryPath_of_units (hkeys key List.mem_cons_self)
        (hroom.2 key List.mem_cons_self)
      simp only [entryPaths, hfirst, hrest, bind, Except.bind, pure,
        Except.pure]
      rfl

theorem collectionPath_error (hshort : Short collection)
    (hlong : ¬ store.collectionUnits (componentOf collection) ≤
      store.maxPathUnits) :
    ∃ error, store.collectionPath collection = .error error := by
  simp only [collectionPath, encodeComponent_of_short hshort, bind, Except.bind,
    validatePathLength, if_pos (Nat.not_le.mp hlong)]
  exact ⟨_, rfl⟩

theorem entryPath_error (hkey : Short key)
    (hlong : ¬ store.collectionUnits (componentOf collection) + 1 +
      (componentOf key).utf8ByteSize ≤ store.maxPathUnits) :
    ∃ error, store.entryPath (componentOf collection) key = .error error := by
  simp only [entryPath, encodeComponent_of_short hkey, bind, Except.bind,
    validatePathLength, if_pos (Nat.not_le.mp hlong)]
  exact ⟨_, rfl⟩

theorem entryPaths_error (hkeys : ∀ key ∈ keys, Short key)
    (hlong : ∃ key ∈ keys, ¬ store.collectionUnits (componentOf collection) +
      1 + (componentOf key).utf8ByteSize ≤ store.maxPathUnits) :
    ∃ error, store.entryPaths (componentOf collection) keys =
      .error error := by
  induction keys with
  | nil =>
      obtain ⟨key, hmem, -⟩ := hlong
      cases hmem
  | cons first keys ih =>
      by_cases hfirst : store.collectionUnits (componentOf collection) + 1 +
          (componentOf first).utf8ByteSize ≤ store.maxPathUnits
      · have hpath := entryPath_of_units (hkeys first List.mem_cons_self)
          hfirst
        obtain ⟨key, hmem, hkey⟩ := hlong
        obtain ⟨error, herror⟩ := ih
          (fun key h => hkeys key (List.mem_cons_of_mem _ h)) ⟨key, by
            rcases List.mem_cons.mp hmem with rfl | hmem
            · exact absurd hfirst hkey
            · exact hmem, hkey⟩
        exact ⟨error, by
          simp only [entryPaths, hpath, herror, bind, Except.bind]⟩
      · obtain ⟨error, herror⟩ := entryPath_error
          (hkeys first List.mem_cons_self) hfirst
        exact ⟨error, by simp only [entryPaths, herror, bind, Except.bind]⟩

theorem paths_error (hshort : Short collection)
    (hkeys : ∀ key ∈ keys, Short key) (hroom : ¬ Room store collection keys) :
    (∃ error, store.collectionPath collection = .error error) ∨
      store.collectionPath collection = .ok (componentOf collection) ∧
        ∃ error, store.entryPaths (componentOf collection) keys =
          .error error := by
  by_cases hunits : store.collectionUnits (componentOf collection) ≤
      store.maxPathUnits
  · have hempty : Room store collection [] :=
      ⟨hunits, fun _ h => absurd h List.not_mem_nil⟩
    refine .inr ⟨collectionPath_of_room hshort hempty,
      entryPaths_error hkeys ?_⟩
    by_contra hall
    push Not at hall
    exact hroom ⟨hunits, hall⟩
  · exact .inl (collectionPath_error hshort hunits)

end Paths

def Goes {α : Type} (fs : FileSystem) (call : Requests α) (d : Disk)
    (o : Opening) (l : Ledger) : Prop :=
  ∃ r d', playCall (serve fs) call d = (.ok r, d') ∧ Agrees d' o l

section Goes

variable {α β : Type} {store : FileTreeStore} {fs : FileSystem} {d : Disk}
  {o o' : Opening} {l l' : Ledger} {collection key : String}
  {keys : List String}

theorem goes_pure (h : Agrees d o l) (a : α) :
    Goes fs (pure a : Requests α) d o l :=
  ⟨a, d, rfl, h⟩

theorem Goes.bind {call : Requests α} {f : α → Requests β}
    (h : Goes fs call d o l)
    (hf : ∀ r d', Agrees d' o l → Goes fs (f r) d' o' l') :
    Goes fs (call >>= f) d o' l' := by
  obtain ⟨r, d', hcall, hagrees⟩ := h
  obtain ⟨r', d'', hnext, hagrees'⟩ := hf r d' hagrees
  exact ⟨r', d'', by rw [playCall_bind_ok _ hcall, hnext], hagrees'⟩

theorem goes_of_eq {call : Requests α} {f : α → Requests β} {r : α} {d' : Disk}
    (h : playCall (serve fs) call d = (.ok r, d'))
    (hf : Goes fs (f r) d' o l) : Goes fs (call >>= f) d o l := by
  obtain ⟨r', d'', hnext, hagrees⟩ := hf
  exact ⟨r', d'', by rw [playCall_bind_ok _ h, hnext], hagrees⟩

theorem goes_attempt {result : Except Error α} {f : α → Requests β} {a : α}
    (h : result = .ok a) (hf : Goes fs (f a) d o l) :
    Goes fs (attempt result >>= f) d o l :=
  goes_of_eq (by rw [playCall_attempt, h]) hf

theorem goes_access {a : Access} {f : a.Answer → Requests β} {answer : a.Answer}
    {d' : Disk} (h : serve fs a d = (answer, d'))
    (hf : Goes fs (f answer) d' o l) : Goes fs (access a >>= f) d o l :=
  goes_of_eq (by rw [playCall_access, h]) hf

theorem playCall_liveEntry_agrees (h : Agrees d o l)
    (collection key : String) :
    ∃ d', playCall (serve fs)
        (store.liveEntry (.entry (nameOf collection) (nameOf key))) d =
          (.ok ((l collection key).filter fun entry =>
            !entry.isExpired (d.clock 0)), d') ∧ Agrees d' o l := by
  refine ⟨if (entryAt d (nameOf collection) (nameOf key)).isSome then d.tick
    else d, ?_, ?_⟩
  · rw [playCall_liveEntry h.own, (h.held collection key).live]
  · split
    · exact h.tick
    · exact h

theorem goes_liveEntry (h : Agrees d o l) :
    Goes fs (store.liveEntry (.entry (nameOf collection) (nameOf key))) d o
      l := by
  obtain ⟨d', hplay, hagrees⟩ := playCall_liveEntry_agrees h collection key
  exact ⟨_, d', hplay, hagrees⟩

theorem goes_withTtl (h : Agrees d o l) (entry : Option ManagedEntry) :
    Goes fs (withTtl entry) d o l := by
  cases entry with
  | none => exact goes_pure h none
  | some entry => exact ⟨_, d.tick, playCall_utcNow_bind _, h.tick⟩

theorem goes_ensureCollectionDir (h : Agrees d o l)
    (hshort : Short collection) :
    Goes fs (store.ensureCollectionDir
        (.collection (utf8 (componentOf collection)))) d
      (o.enter collection) l :=
  ⟨(), _, playCall_ensureCollectionDir, h.createDir hshort⟩

theorem goes_removeEntry (h : Agrees d o l) :
    Goes fs (store.removeEntry (.entry (nameOf collection) (nameOf key))) d o
      (l.record collection key none) := by
  refine ⟨_, _, playCall_removeEntry, ?_⟩
  split
  · exact h.removeFile
  · rename_i hnone
    exact h.absent (Option.not_isSome_iff_eq_none.mp hnone)

theorem goes_writeEntry (h : Agrees d o l) {entry : ManagedEntry}
    (hmem : collection ∈ o.opened) (hkey : Short key)
    (hentry : entry.value.Storable) :
    Goes fs (store.writeEntry (.entry (nameOf collection) (nameOf key)) entry)
      d o (l.record collection key (some entry.truncMillis)) :=
  ⟨(), _, playCall_writeEntry (h.isSome_directory? hmem),
    h.writeFile hmem hkey hentry⟩

theorem goes_getEach (h : Agrees d o l) :
    Goes fs (store.getEach (pathsOf collection keys)) d o l := by
  induction keys generalizing d with
  | nil => exact goes_pure h []
  | cons key keys ih =>
      refine (goes_liveEntry h).bind fun entry d' h' => ?_
      exact (ih h').bind fun results d'' h'' => goes_pure h'' _

theorem goes_ttlEach (h : Agrees d o l) :
    Goes fs (store.ttlEach (pathsOf collection keys)) d o l := by
  induction keys generalizing d with
  | nil => exact goes_pure h []
  | cons key keys ih =>
      refine (goes_liveEntry h).bind fun entry d' h' => ?_
      refine (goes_withTtl h' entry).bind fun result d'' h'' => ?_
      exact (ih h'').bind fun results d''' h''' => goes_pure h''' _

theorem goes_deleteEach (h : Agrees d o l) (count : Nat) :
    Goes fs (store.deleteEach count (pathsOf collection keys)) d o
      (l.forget collection keys) := by
  induction keys generalizing d l count with
  | nil => exact goes_pure h count
  | cons key keys ih =>
      refine (goes_removeEntry h).bind fun removed d' h' => ?_
      cases removed with
      | true => exact ih h' (count + 1)
      | false => exact ih h' count

theorem goes_writeEach {entries : List ManagedEntry} (h : Agrees d o l)
    (hmem : collection ∈ o.opened) (hkeys : ∀ key ∈ keys, Short key)
    (hentries : ∀ entry ∈ entries, entry.value.Storable) :
    Goes fs (store.writeEach ((pathsOf collection keys).zip entries)) d o
      (l.recordAll collection
        (keys.zip (entries.map ManagedEntry.truncMillis))) := by
  induction keys generalizing d l entries with
  | nil => exact goes_pure h ()
  | cons key keys ih =>
      cases entries with
      | nil => exact goes_pure h ()
      | cons entry entries =>
          refine (goes_writeEntry h hmem (hkeys key List.mem_cons_self)
            (hentries entry List.mem_cons_self)).bind fun _ d' h' => ?_
          exact ih h' (fun key hkey => hkeys key (List.mem_cons_of_mem _ hkey))
            fun entry hentry => hentries entry (List.mem_cons_of_mem _ hentry)

def Grants (clock : Nat → DateTime) (ttl : Option F64) : Prop :=
  ∀ seconds, ttl = some seconds →
    ∀ n, ∃ expires, ManagedEntry.expirationAt (clock n) seconds = .ok expires

theorem Grants.tick {ttl : Option F64} (h : Grants d.clock ttl) :
    Grants d.tick.clock ttl :=
  fun seconds httl n => h seconds httl (n + 1)

theorem Grants.ofTtl {ttl : Option F64} (h : Grants d.clock ttl)
    (value : Value) :
    ∃ entry, ManagedEntry.ofTtl (d.clock 0) value ttl = .ok entry := by
  cases ttl with
  | none => exact ⟨_, rfl⟩
  | some seconds =>
      obtain ⟨expires, hexpires⟩ := h seconds rfl 0
      simp only [ManagedEntry.ofTtl, ManagedEntry.withTtl, hexpires, bind,
        Except.bind, pure, Except.pure]
      exact ⟨_, rfl⟩

theorem playCall_newEntry {value : Value} {ttl : Option F64} :
    playCall (serve fs) (newEntry value ttl) d =
      (ManagedEntry.ofTtl (d.clock 0) value ttl, d.tick) := by
  rw [newEntry, playCall_utcNow_bind, playCall_attempt]

theorem playCall_newEntries {values : List Value} {ttl : Option F64}
    (h : Agrees d o l) (hgrants : Grants d.clock ttl) :
    ∃ entries d', playCall (serve fs) (newEntries ttl values) d =
        (.ok entries, d') ∧ Agrees d' o l ∧
      entries.map ManagedEntry.truncMillis =
        Ledger.entries d.clock ttl values ∧
      entries.map ManagedEntry.value = values := by
  induction values generalizing d with
  | nil => exact ⟨[], d, rfl, h, rfl, rfl⟩
  | cons value values ih =>
      obtain ⟨entry, hentry⟩ := hgrants.ofTtl value
      obtain ⟨entries, d', hplay, hagrees, hentries, hvalues⟩ :=
        ih h.tick hgrants.tick
      refine ⟨entry :: entries, d', ?_, hagrees, ?_, ?_⟩
      · have hfirst : playCall (serve fs) (newEntry value ttl) d =
            (.ok entry, d.tick) := by
          rw [playCall_newEntry, hentry]
        rw [newEntries, playCall_bind_ok _ hfirst, playCall_bind_ok _ hplay]
        rfl
      · rw [List.map_cons, hentries, Ledger.entries, hentry]
        rfl
      · rw [List.map_cons, hvalues, ManagedEntry.value_of_ofTtl hentry]

theorem playCall_validateOptionalTtl {ttl : Option F64}
    (hgrants : Grants d.clock ttl) :
    playCall (serve fs) (validateOptionalTtl ttl) d =
      (.ok (), if ttl.isSome then d.tick else d) := by
  cases ttl with
  | none => rfl
  | some seconds =>
      obtain ⟨expires, hexpires⟩ := hgrants seconds rfl 0
      rw [validateOptionalTtl, playCall_utcNow_bind, playCall_attempt,
        ManagedEntry.validateTtl, hexpires]
      rfl

end Goes

section Listings

variable {store : FileTreeStore} {fs : FileSystem} {d : Disk} {o : Opening}
  {l : Ledger} {collection : String}

theorem readDir_base (h : Agrees d o l) (hbase : o.base = true) :
    ∃ names : List Name, serve fs (.readDir .base) d =
        (.ok (names.map fun name => ⟨name, .directory⟩), d) ∧
      (∀ name ∈ names, ∃ collection ∈ o.opened, name = nameOf collection) ∧
      (names = [] ↔ o.opened = []) := by
  have hsome := h.base
  rw [hbase] at hsome
  obtain ⟨dirs, hdirs⟩ := Option.isSome_iff_exists.mp hsome
  have hcollections : d.collections = dirs := by
    rw [Disk.collections, hdirs, Option.getD_some]
  have hlisted : ∀ name, name ∈ fs.arrange dirs.keys ↔
      (d.directory? name).isSome = true := by
    intro name
    rw [(fs.perm _).mem_iff, KeyedMap.mem_keys_iff, Disk.directory?,
      hcollections, Option.isSome_iff_exists]
  have hopened : ∀ name ∈ fs.arrange dirs.keys,
      ∃ collection ∈ o.opened, name = nameOf collection := by
    intro name hname
    have hdir := (hlisted name).mp hname
    obtain ⟨files, hfiles⟩ := Option.isSome_iff_exists.mp hdir
    obtain ⟨collection, hshort, rfl⟩ := h.own.directory name files hfiles
    exact ⟨collection, (h.opened collection hshort).mp hdir, rfl⟩
  refine ⟨fs.arrange dirs.keys, ?_, hopened, ?_⟩
  · rw [serve, hdirs]
    rfl
  · constructor
    · intro hnil
      rw [List.eq_nil_iff_forall_not_mem]
      intro collection hmem
      have hlist := (hlisted _).mpr (h.isSome_directory? hmem)
      rw [hnil] at hlist
      cases hlist
    · intro hnil
      rw [List.eq_nil_iff_forall_not_mem]
      intro name hname
      obtain ⟨collection, hmem, -⟩ := hopened name hname
      rw [hnil] at hmem
      cases hmem

theorem readDir_collection (h : Agrees d o l)
    (hmem : collection ∈ o.opened) :
    ∃ names : List Name, serve fs (.readDir (.collection (nameOf collection)))
        d = (.ok (names.map fun name => ⟨name, .file⟩), d) ∧
      ∀ name ∈ names, ∃ key, Short key ∧ name = nameOf key := by
  obtain ⟨files, hfiles⟩ := Option.isSome_iff_exists.mp
    (h.isSome_directory? hmem)
  refine ⟨fs.arrange files.keys, ?_, ?_⟩
  · rw [serve, hfiles]
    rfl
  · intro name hname
    rw [(fs.perm _).mem_iff, KeyedMap.mem_keys_iff] at hname
    obtain ⟨contents, hcontents⟩ := hname
    refine (h.own.file (nameOf collection) name contents ?_).1
    rw [Disk.file?, hfiles, Option.bind_some, hcontents]

theorem decodePhysicalEntry_directory (hshort : Short collection)
    (kind : String) :
    store.decodePhysicalEntry .base ⟨nameOf collection, .directory⟩ kind
      true = .ok collection := by
  simp only [decodePhysicalEntry]
  exact decodeComponent_nameOf hshort kind

theorem decodePhysicalEntry_file {key : String} (hshort : Short key)
    (name : Name) (kind : String) :
    store.decodePhysicalEntry (.collection name) ⟨nameOf key, .file⟩ kind
      false = .ok key := by
  simp only [decodePhysicalEntry]
  exact decodeComponent_nameOf hshort kind

theorem decodeListing_ok {parent : Path} {kind : String}
    {expectedDirectory : Bool} {entries : List DirEntry}
    (h : ∀ entry ∈ entries, ∃ name,
      store.decodePhysicalEntry parent entry kind expectedDirectory =
        .ok name) (limit : Nat) :
    ∃ names, store.decodeListing parent kind expectedDirectory limit entries =
        .ok names ∧ (names = [] ↔ limit = 0 ∨ entries = []) := by
  induction entries generalizing limit with
  | nil => exact ⟨[], by rw [decodeListing], by simp⟩
  | cons entry entries ih =>
      obtain ⟨name, hname⟩ := h entry List.mem_cons_self
      obtain ⟨names, hnames, hempty⟩ := ih
        (fun entry hentry => h entry (List.mem_cons_of_mem _ hentry))
        (limit - 1)
      refine ⟨if limit = 0 then names else name :: names, ?_, ?_⟩
      · simp only [decodeListing, hname, hnames, bind, Except.bind, pure,
          Except.pure]
      · by_cases hlimit : limit = 0
        · subst hlimit
          simp only [if_true, hempty, true_or]
        · simp [hlimit]

theorem decodeListing_files {name : Name} {names : List Name}
    (h : ∀ name ∈ names, ∃ key, Short key ∧ name = nameOf key)
    (limit : Nat) :
    ∃ keys, store.decodeListing (.collection name) "key" false limit
      (names.map fun name => ⟨name, .file⟩) = .ok keys := by
  have hdecodes : ∀ entry ∈ names.map fun name => (⟨name, .file⟩ : DirEntry),
      ∃ key, store.decodePhysicalEntry (.collection name) entry "key" false =
        .ok key := by
    intro entry hentry
    obtain ⟨file, hfile, rfl⟩ := List.mem_map.mp hentry
    obtain ⟨key, hshort, rfl⟩ := h file hfile
    exact ⟨key, decodePhysicalEntry_file hshort name "key"⟩
  obtain ⟨keys, hkeys, -⟩ := decodeListing_ok hdecodes limit
  exact ⟨keys, hkeys⟩

theorem goes_cullFiles (h : Agrees d o l) {names : List Name}
    (hnames : ∀ name ∈ names, ∃ key, Short key ∧ name = nameOf key) :
    Goes fs (store.cullFiles (nameOf collection)
      (names.map fun name => ⟨name, .file⟩)) d o l := by
  induction names generalizing d with
  | nil => exact goes_pure h ()
  | cons name names ih =>
      have hrest := fun (d : Disk) (h : Agrees d o l) => ih h
        fun name hname => hnames name (List.mem_cons_of_mem _ hname)
      obtain ⟨key, hshort, rfl⟩ := hnames name List.mem_cons_self
      rw [List.map_cons, cullFiles]
      refine goes_attempt (decodePhysicalEntry_file hshort _ _) ?_
      refine goes_of_eq (playCall_readEntry h.own) ?_
      cases hentry : entryAt d (nameOf collection) (nameOf key) with
      | none => exact hrest d h
      | some entry =>
          refine goes_of_eq (playCall_utcNow_bind pure) ?_
          by_cases hexpired : entry.isExpired (d.clock 0) = true
          · -- The entry is as much expired at the next reading.
            have hstill : entry.isExpired (d.tick.clock 0) = true :=
              ManagedEntry.isExpired_mono (h.steady 0 1 (Nat.zero_le 1))
                hexpired
            have hfile : (d.tick.file? (nameOf collection)
                (nameOf key)).isSome = true := by
              obtain ⟨contents, hcontents, -⟩ :=
                Option.bind_eq_some_iff.mp hentry
              exact Option.isSome_iff_exists.mpr ⟨contents, hcontents⟩
            simp only [hexpired, if_true]
            refine goes_of_eq playCall_removeEntry ?_
            rw [if_pos hfile]
            exact hrest _ (h.tick.removeExpired hentry hstill)
          · simp only [Bool.not_eq_true _ |>.mp hexpired, Bool.false_eq_true,
              if_false]
            exact hrest _ h.tick

theorem goes_cullCollections (h : Agrees d o l) {names : List Name}
    (hnames : ∀ name ∈ names, ∃ collection ∈ o.opened,
      name = nameOf collection) :
    Goes fs (store.cullCollections
      (names.map fun name => ⟨name, .directory⟩)) d o l := by
  induction names generalizing d with
  | nil => exact goes_pure h ()
  | cons name names ih =>
      obtain ⟨collection, hmem, rfl⟩ := hnames name List.mem_cons_self
      obtain ⟨files, hfiles, hshort⟩ := @readDir_collection fs _ _ _ _ h hmem
      rw [List.map_cons, cullCollections]
      refine goes_attempt (decodePhysicalEntry_directory
        (h.short collection hmem) _) ?_
      refine goes_access hfiles ?_
      refine goes_attempt rfl ?_
      refine (goes_cullFiles h hshort).bind fun _ d' h' => ?_
      exact ih h' fun name hname =>
        hnames name (List.mem_cons_of_mem _ hname)

end Listings

end OpenKeyV.FileTree
