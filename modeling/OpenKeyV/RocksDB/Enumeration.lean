import OpenKeyV.Library.Scan
import OpenKeyV.Library.SortBy
import OpenKeyV.RocksDB.Store
import OpenKeyV.Wrapper.MergedNames

/-!
# Enumerations of a `RocksDBStore`

Keys are met in the order of their bytes: those of a collection follow its
prefix, a scan of all keys meets the collections one by one.  Both loops push a
name first and look at the limit afterwards.
-/

namespace OpenKeyV.RocksDB

open Library Memory Wrapper

def byteKey (key : Bytes) : List Nat := key.map UInt8.toNat

def iterate (db : Database) : List Bytes := sortBy byteKey db.keys

/-- `db.prefix_iterator(lead)`: from the first key that is not below it. -/
def iterateFrom (lead : Bytes) (db : Database) : List Bytes :=
  (iterate db).filter fun key => ¬ byteKey key < byteKey lead

section Loops

variable (utf8Error : Bytes → String)

def identity (physical : Bytes) : Except Error (String × String) :=
  match ofUtf8 physical with
  | none => .error (.invalidKey
      ("RocksDB physical key is not UTF-8: " ++ utf8Error physical))
  | some text => decompoundKey text

def keysLoop (cname : String) (limit : Nat) :
    List String → List Bytes → Answer
  | keys, [] => .ok keys
  | keys, physical :: rest => do
      let (keyCollection, key) ← identity utf8Error physical
      if keyCollection ≠ cname then .ok keys
      else
        let keys := keys ++ [key]
        if keys.length ≥ limit then .ok keys
        else keysLoop cname limit keys rest

def keys (config : RocksDBConfig) (collection : Option String)
    (limit : Option Nat) (db : Database) : Answer :=
  let cname := config.collectionName collection
  keysLoop utf8Error cname (pageLen limit) []
    (iterateFrom (utf8 (collectionFrame cname)) db)

def collectionsLoop (limit : Nat) :
    List String → List Bytes → Answer
  | collections, [] => .ok collections
  | collections, physical :: rest => do
      let (collection, _) ← identity utf8Error physical
      let collections :=
        if collection ∈ collections then collections
        else collections ++ [collection]
      if collections.length ≥ limit then .ok collections
      else collectionsLoop limit collections rest

structure SetOrder where
  toFun : List String → List String
  perm : ∀ names, (toFun names).Perm names

def collections (order : SetOrder) (limit : Option Nat) (db : Database) :
    Answer := do
  let collections ← collectionsLoop utf8Error (pageLen limit) [] (iterate db)
  return order.toFun collections

end Loops

/-- Every key is that of an entry in a collection. -/
def Written (db : Database) : Prop :=
  ∀ physical ∈ db.keys, ∃ cname key, physical = physicalKey cname key ∧
    cname.utf8ByteSize < 2 ^ 64

theorem written_empty : Written ∅ := fun _ h => by cases h

theorem Written.put {db : Database} (h : Written db) (key : String)
    {cname : String} (hsize : cname.utf8ByteSize < 2 ^ 64)
    (entry : ManagedEntry) : Written (putEntry key cname entry db) := by
  intro physical hphysical
  obtain ⟨bytes, hbytes⟩ := KeyedMap.mem_keys_iff.mp hphysical
  rw [putEntry, KeyedMap.lookup_insert_eq] at hbytes
  split at hbytes
  · rename_i heq
    exact ⟨cname, key, heq, hsize⟩
  · exact h physical (KeyedMap.mem_keys_iff.mpr ⟨bytes, hbytes⟩)

theorem Written.write_deletes {db : Database} (h : Written db)
    (filter : Filter) (cname : String) (n : Nat) (keys : List String) :
    Written (write (collectDeletes filter cname n keys).2 db) := by
  intro physical hphysical
  obtain ⟨bytes, hbytes⟩ := KeyedMap.mem_keys_iff.mp hphysical
  rw [lookup_write_deletes] at hbytes
  split at hbytes
  · cases hbytes
  · exact h physical (KeyedMap.mem_keys_iff.mpr ⟨bytes, hbytes⟩)

/-- What a `RocksDBStore` has written. -/
structure StoreDatabase where
  db : Database
  written : Written db

section Scans

variable {utf8Error : Bytes → String} {cname : String}

theorem identity_physicalKey (utf8Error : Bytes → String) {cname : String}
    (hsize : cname.utf8ByteSize < 2 ^ 64) (key : String) :
    identity utf8Error (physicalKey cname key) = .ok (cname, key) := by
  rw [identity, physicalKey, ofUtf8_utf8]
  exact decompoundKey_eq_ok.mpr ⟨rfl, hsize⟩

def physicalKeys (ids : List (String × String)) : List Bytes :=
  ids.map fun id => physicalKey id.1 id.2

def Sized (ids : List (String × String)) : Prop :=
  ∀ id ∈ ids, id.1.utf8ByteSize < 2 ^ 64

theorem exists_ids {physicals : List Bytes}
    (h : ∀ physical ∈ physicals, ∃ cname key,
      physical = physicalKey cname key ∧ cname.utf8ByteSize < 2 ^ 64) :
    ∃ ids, physicals = physicalKeys ids ∧ Sized ids := by
  induction physicals with
  | nil => exact ⟨[], rfl, by simp [Sized]⟩
  | cons physical physicals ih =>
      obtain ⟨⟨cname, key, rfl, hsize⟩, hrest⟩ := List.forall_mem_cons.mp h
      obtain ⟨ids, rfl, hsized⟩ := ih hrest
      exact ⟨(cname, key) :: ids, rfl, List.forall_mem_cons.mpr ⟨hsize, hsized⟩⟩

theorem keysLoop_eq (utf8Error : Bytes → String) (cname : String)
    (limit : Nat) {ids : List (String × String)} (hsized : Sized ids)
    {keys : List String} (hbelow : keys.length < max limit 1) :
    keysLoop utf8Error cname limit keys (physicalKeys ids) =
      .ok (pushed (some limit) (keys ++
        (ids.takeWhile fun id => id.1 = cname).map Prod.snd)) := by
  induction ids generalizing keys with
  | nil =>
      rw [List.takeWhile_nil, List.map_nil, List.append_nil]
      exact congrArg Except.ok
        (List.take_of_length_le (Nat.le_of_lt hbelow)).symm
  | cons id ids ih =>
      obtain ⟨hsize, hrest⟩ := List.forall_mem_cons.mp hsized
      simp only [physicalKeys, List.map_cons, keysLoop, bind, Except.bind,
        identity_physicalKey utf8Error hsize]
      by_cases hcname : id.1 = cname
      · have hlength : (keys ++ [id.2]).length = keys.length + 1 := by simp
        rw [if_neg (not_not_intro hcname),
          List.takeWhile_cons_of_pos (by simpa using hcname), List.map_cons,
          List.append_cons keys id.2 (List.map _ _)]
        split
        · have hfull : (keys ++ [id.2]).length = max limit 1 := by omega
          rw [pushed, Option.elim_some, ← hfull, List.take_left]
        · exact ih hrest (by omega)
      · rw [if_pos hcname, List.takeWhile_cons_of_neg (by simpa using hcname),
          List.map_nil, List.append_nil]
        exact congrArg Except.ok
          (List.take_of_length_le (Nat.le_of_lt hbelow)).symm

theorem collectionsLoop_eq (utf8Error : Bytes → String) (limit : Nat)
    {ids : List (String × String)} (hsized : Sized ids)
    {collections : List String} (hbelow : collections.length < max limit 1) :
    collectionsLoop utf8Error limit collections (physicalKeys ids) =
      .ok (RoutingWrapper.mergeNames (some limit) collections
        (ids.map Prod.fst)).1 := by
  induction ids generalizing collections with
  | nil => rfl
  | cons id ids ih =>
      obtain ⟨hsize, hrest⟩ := List.forall_mem_cons.mp hsized
      simp only [physicalKeys, List.map_cons, collectionsLoop, bind,
        Except.bind, identity_physicalKey utf8Error hsize,
        RoutingWrapper.mergeNames]
      by_cases hseen : id.1 ∈ collections
      · -- There is a name already, so the limit is at least two.
        have hsome := List.length_pos_of_mem hseen
        rw [if_pos hseen, if_pos hseen, if_neg (by omega)]
        exact ih hrest hbelow
      · rw [if_neg hseen, if_neg hseen]
        split
        · rfl
        · have hlength : (collections ++ [id.1]).length =
              collections.length + 1 := by simp
          exact ih hrest (by omega)

def identities (db : Database) : List (String × String) :=
  db.keys.filterMap fun physical =>
    (ofUtf8 physical).bind fun text => (decompoundKey text).toOption

def keySet (db : Database) (cname : String) : Finset String :=
  (((identities db).filter fun id => id.1 = cname).map Prod.snd).toFinset

def collectionSet (db : Database) : Finset String :=
  ((identities db).map Prod.fst).toFinset

theorem identities_eq {db : Database} {ids : List (String × String)}
    (hkeys : db.keys = physicalKeys ids) (hsized : Sized ids) :
    identities db = ids := by
  rw [identities, hkeys]
  clear hkeys
  induction ids with
  | nil => rfl
  | cons id ids ih =>
      obtain ⟨hsize, hrest⟩ := List.forall_mem_cons.mp hsized
      have hid : ((ofUtf8 (physicalKey id.1 id.2)).bind fun text =>
          (decompoundKey text).toOption) = some id := by
        rw [physicalKey, ofUtf8_utf8, Option.bind_some,
          decompoundKey_eq_ok.mpr ⟨rfl, hsize⟩]
        rfl
      rw [physicalKeys, List.map_cons, List.filterMap_cons, hid,
        ← physicalKeys, ih hrest]

theorem nodup_ids {ids : List (String × String)}
    (h : (physicalKeys ids).Nodup) : ids.Nodup :=
  h.of_map _

theorem lead_isPrefix_iff {id : String × String} :
    byteKey (utf8 (collectionFrame cname)) <+:
        byteKey (physicalKey id.1 id.2) ↔ id.1 = cname := by
  have hinj : Function.Injective UInt8.toNat := fun _ _ h =>
    UInt8.toNat_inj.mp h
  rw [byteKey, byteKey, List.prefix_map_iff_of_injective hinj]
  constructor
  · intro h
    obtain ⟨rest, hrest⟩ := exists_append_of_utf8_prefix h
    exact (collectionFrame_append_inj hrest).1
  · rintro rfl
    rw [physicalKey, compoundKey, utf8_append]
    exact List.prefix_append _ _

theorem mem_physicalKeys {ids : List (String × String)} {id : String × String} :
    physicalKey id.1 id.2 ∈ physicalKeys ids ↔ id ∈ ids := by
  rw [physicalKeys, List.mem_map]
  constructor
  · rintro ⟨other, hother, heq⟩
    obtain ⟨hcname, hkey⟩ := physicalKey_inj.mp heq
    rwa [← Prod.ext hcname hkey]
  · exact fun h => ⟨id, h, rfl⟩

theorem iterate_sorted (db : Database) : SortedBy byteKey (iterate db) :=
  sortBy_sorted byteKey _

theorem nodup_iterate (db : Database) : (iterate db).Nodup :=
  (sortBy_perm byteKey db.keys).nodup_iff.mpr db.keys_nodup

theorem exists_keys (store : StoreDatabase) (cname : String) :
    ∃ ids, iterateFrom (utf8 (collectionFrame cname)) store.db =
        physicalKeys ids ∧ Sized ids ∧
      let names := (ids.takeWhile fun id => id.1 = cname).map Prod.snd
      names.Nodup ∧ names.toFinset = keySet store.db cname := by
  obtain ⟨all, hall, hsizedAll⟩ := exists_ids store.written
  have hmemFrom : ∀ physical,
      physical ∈ iterateFrom (utf8 (collectionFrame cname)) store.db ↔
        physical ∈ store.db.keys ∧
          ¬ byteKey physical < byteKey (utf8 (collectionFrame cname)) := by
    intro physical
    rw [iterateFrom, List.mem_filter, iterate, mem_sortBy, decide_eq_true_eq]
  obtain ⟨ids, hids, hsized⟩ := @exists_ids
    (iterateFrom (utf8 (collectionFrame cname)) store.db)
    fun physical hphysical =>
      store.written physical ((hmemFrom physical).mp hphysical).1
  have hmem : ∀ id, id.1 = cname → (id ∈ ids ↔ id ∈ all) := by
    intro id hcname
    rw [← mem_physicalKeys, ← hids, hmemFrom, hall, mem_physicalKeys]
    exact and_iff_left (not_lt_of_isPrefix (lead_isPrefix_iff.mpr hcname))
  -- From the prefix on, the keys that begin with it come first.
  have hfirst : ids.takeWhile (fun id => id.1 = cname) =
      ids.filter fun id => id.1 = cname := by
    apply takeWhile_eq_filter
    have hsorted := (iterate_sorted store.db).filter fun physical =>
      ¬ byteKey physical < byteKey (utf8 (collectionFrame cname))
    rw [← iterateFrom, hids, physicalKeys, List.pairwise_map] at hsorted
    refine hsorted.imp_of_mem fun {id other} hid hother hle hpass => ?_
    rw [decide_eq_true_eq] at hpass ⊢
    by_contra hne
    have hfrom := ((hmemFrom _).mp (hids ▸ mem_physicalKeys.mpr hid)).2
    exact not_le.mpr (lt_of_not_isPrefix hfrom
      (mt lead_isPrefix_iff.mp hne) (lead_isPrefix_iff.mpr hpass)) hle
  have hnodup : ids.Nodup := by
    apply nodup_ids
    rw [← hids]
    exact (nodup_iterate store.db).filter _
  refine ⟨ids, hids, hsized, ?_, ?_⟩
  · rw [hfirst]
    refine (hnodup.filter _).map_on fun id hid other hother heq => ?_
    have hcname := of_decide_eq_true (List.mem_filter.mp hid).2
    have hcname' := of_decide_eq_true (List.mem_filter.mp hother).2
    exact Prod.ext (hcname.trans hcname'.symm) heq
  · ext key
    rw [keySet, identities_eq hall hsizedAll, hfirst, List.mem_toFinset,
      List.mem_toFinset]
    simp only [List.mem_map, List.mem_filter, decide_eq_true_eq]
    refine exists_congr fun id => and_congr_left fun _ => ?_
    exact and_congr_left fun hcname => hmem id hcname

theorem exists_collections (store : StoreDatabase) :
    ∃ ids, iterate store.db = physicalKeys ids ∧ Sized ids ∧
      (ids.map Prod.fst).toFinset = collectionSet store.db := by
  obtain ⟨all, hall, hsizedAll⟩ := exists_ids store.written
  obtain ⟨ids, hids, hsized⟩ := @exists_ids (iterate store.db)
    fun physical hphysical =>
      store.written physical ((mem_sortBy byteKey).mp hphysical)
  refine ⟨ids, hids, hsized, ?_⟩
  have hmem : ∀ id, id ∈ ids ↔ id ∈ all := fun id => by
    rw [← mem_physicalKeys, ← hids, iterate, mem_sortBy, hall, mem_physicalKeys]
  ext name
  rw [collectionSet, identities_eq hall hsizedAll, List.mem_toFinset,
    List.mem_toFinset]
  simp only [List.mem_map, hmem]

theorem keys_honours_iff (utf8Error : Bytes → String) (config : RocksDBConfig)
    (store : StoreDatabase) (collection : Option String) (limit : Option Nat) :
    Honours limit (keySet store.db (config.collectionName collection))
        ((keySet store.db (config.collectionName collection)).card ≤ pageLimit)
        (keys utf8Error config collection limit store.db) ↔
      (limit = some 0 →
        keySet store.db (config.collectionName collection) = ∅) := by
  obtain ⟨ids, hids, hsized, hnodup, hwhole⟩ :=
    exists_keys store (config.collectionName collection)
  rw [keys, hids, keysLoop_eq utf8Error _ _ hsized (by simp), List.nil_append]
  exact honours_pushedPage_iff hnodup hwhole

theorem collections_honours_iff (utf8Error : Bytes → String) (order : SetOrder)
    (store : StoreDatabase) (limit : Option Nat) :
    Honours limit (collectionSet store.db)
        ((collectionSet store.db).card ≤ pageLimit)
        (collections utf8Error order limit store.db) ↔
      (limit = some 0 → collectionSet store.db = ∅) := by
  obtain ⟨ids, hids, hsized, hwhole⟩ := exists_collections store
  rw [collections, hids,
    collectionsLoop_eq utf8Error (pageLen limit) hsized (by simp),
    mergeNames_nil]
  have hfirsts : (firsts [] (ids.map Prod.fst)).toFinset =
      collectionSet store.db := by
    rw [← hwhole]
    ext name
    rw [List.mem_toFinset, List.mem_toFinset, mem_firsts]
    simp
  have hperm := order.perm
    (pushed (some (pageLen limit)) (firsts [] (ids.map Prod.fst)))
  rw [← honours_pushedPage_iff (nodup_firsts [] _) hfirsts]
  constructor
  · exact fun h => Honours.perm h hperm
  · exact fun h => Honours.perm h hperm.symm

end Scans

end OpenKeyV.RocksDB
