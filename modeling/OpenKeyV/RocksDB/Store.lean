import OpenKeyV.Entry.Codec
import OpenKeyV.Library.KeyedMap
import OpenKeyV.Library.Utf8
import OpenKeyV.Utils.Compound
import Mathlib.Data.Finset.Card
import Mathlib.Data.Finset.Dedup
import Mathlib.Data.Finset.Filter

/-!
# `RocksDBStore`

The database maps bytes to bytes; a collection is a prefix of its keys.
`key_may_exist` is a question to the database's filters: it is never answered
no for a key that is there, and anything for one that is not.
-/

namespace OpenKeyV.RocksDB

open Library

abbrev Database := KeyedMap Bytes Bytes

inductive BatchOperation where
  | put (key value : Bytes)
  | delete (key : Bytes)
  deriving DecidableEq, Repr

abbrev WriteBatch := List BatchOperation

def BatchOperation.apply (db : Database) : BatchOperation → Database
  | .put key value => db.insert key value
  | .delete key => db.erase key

def write (batch : WriteBatch) (db : Database) : Database :=
  batch.foldl BatchOperation.apply db

/-- What `key_may_exist` answers to the `n`th question of a call. -/
abbrev Filter := Nat → Bytes → Bool

def Filter.Sound (filter : Filter) (db : Database) : Prop :=
  ∀ n key, (db.lookup key).isSome = true → filter n key = true

structure RocksDBConfig where
  defaultCollection : String

def RocksDBConfig.collectionName (config : RocksDBConfig)
    (collection : Option String) : String :=
  collection.getD config.defaultCollection

def physicalKey (collection key : String) : Bytes :=
  utf8 (compoundKey collection key)

theorem physicalKey_inj {collection key collection' key' : String} :
    physicalKey collection key = physicalKey collection' key' ↔
      collection = collection' ∧ key = key' := by
  rw [physicalKey, physicalKey, utf8_injective.eq_iff, compoundKey_inj]

section Store

variable (config : RocksDBConfig) (now : DateTime) (filter : Filter)

def getEntry (key collection : String) (db : Database) :
    Except Error (Option ManagedEntry) :=
  match db.lookup (physicalKey collection key) with
  | some bytes => do
      let entry ← ManagedEntry.decode bytes
      return if entry.isExpired now then none else some entry
  | none => .ok none

def putEntry (key collection : String) (entry : ManagedEntry)
    (db : Database) : Database :=
  db.insert (physicalKey collection key) entry.encode

def get (key : String) (collection : Option String) (db : Database) :
    Except Error (Option Value) := do
  let entry ← getEntry now key (config.collectionName collection) db
  return entry.map (·.value)

def put (key : String) (value : Value) (collection : Option String)
    (ttl : Option F64) (db : Database) : Except Error Database := do
  let entry ← ManagedEntry.ofTtl now value ttl
  return putEntry key (config.collectionName collection) entry db

def delete (key : String) (collection : Option String) (db : Database) :
    Bool × Database :=
  let ck := physicalKey (config.collectionName collection) key
  let existed := filter 0 ck
  (existed, db.erase ck)

def collectDeletes (cname : String) :
    Nat → List String → Nat × WriteBatch
  | _, [] => (0, [])
  | n, key :: keys =>
      let ck := physicalKey cname key
      let (count, batch) := collectDeletes cname (n + 1) keys
      (if filter n ck then count + 1 else count, .delete ck :: batch)

def deleteMany (keys : List String) (collection : Option String)
    (db : Database) : Nat × Database :=
  let (count, batch) :=
    collectDeletes filter (config.collectionName collection) 0 keys
  (count, write batch db)

end Store

section Deletes

variable {config : RocksDBConfig} {filter : Filter} {cname : String}
  {collection : Option String}

def Present (db : Database) (cname key : String) : Prop :=
  (db.lookup (physicalKey cname key)).isSome = true

instance (db : Database) (cname key : String) :
    Decidable (Present db cname key) :=
  inferInstanceAs (Decidable (_ = true))

/-- Deleting the keys one after the other, each counted if it is there. -/
def deleteEach (cname : String) : List String → Database → Nat × Database
  | [], db => (0, db)
  | key :: keys, db =>
      let (count, after) :=
        deleteEach cname keys (db.erase (physicalKey cname key))
      (if Present db cname key then count + 1 else count, after)

theorem present_erase {db : Database} {key other : String} :
    Present (db.erase (physicalKey cname key)) cname other ↔
      other ≠ key ∧ Present db cname other := by
  rw [Present, Present, KeyedMap.lookup_erase_eq]
  by_cases h : other = key
  · simp [h]
  · rw [if_neg fun heq => h (physicalKey_inj.mp heq).2]
    simp [h]

def presentKeys (db : Database) (cname : String) (keys : List String) :
    Finset String :=
  keys.toFinset.filter fun key => Present db cname key

theorem deleteEach_count (keys : List String) (db : Database) :
    (deleteEach cname keys db).1 = (presentKeys db cname keys).card := by
  induction keys generalizing db with
  | nil => rfl
  | cons key keys ih =>
      have hrest : presentKeys (db.erase (physicalKey cname key)) cname keys =
          (presentKeys db cname keys).erase key := by
        ext other
        simp only [presentKeys, Finset.mem_filter, Finset.mem_erase,
          present_erase]
        tauto
      simp only [deleteEach, ih, hrest]
      by_cases hpresent : Present db cname key
      · have hinsert : presentKeys db cname (key :: keys) =
            insert key ((presentKeys db cname keys).erase key) := by
          ext other
          by_cases hother : other = key
          · simp [presentKeys, hother, hpresent]
          · simp [presentKeys, hother]
        rw [if_pos hpresent, hinsert,
          Finset.card_insert_of_notMem (Finset.notMem_erase _ _)]
      · have hsame : presentKeys db cname (key :: keys) =
            presentKeys db cname keys := by
          rw [presentKeys, List.toFinset_cons, Finset.filter_insert,
            if_neg hpresent, presentKeys]
        rw [if_neg hpresent, hsame, Finset.erase_eq_of_notMem]
        simp [presentKeys, hpresent]

/-- The filters answer yes for no key that is not there. -/
def Exact (filter : Filter) (db : Database) (cname : String) (n : Nat)
    (keys : List String) : Prop :=
  ∀ i key, keys[i]? = some key → filter (n + i) (physicalKey cname key) = true →
    Present db cname key

def presentCount (db : Database) (cname : String) (keys : List String) : Nat :=
  keys.countP fun key => Present db cname key

/-- The count takes each occurrence of a key that is there, and whatever else
the filters let pass. -/
theorem collectDeletes_count {db : Database} (hsound : filter.Sound db)
    (n : Nat) (keys : List String) :
    presentCount db cname keys ≤ (collectDeletes filter cname n keys).1 ∧
      ((collectDeletes filter cname n keys).1 = presentCount db cname keys ↔
        Exact filter db cname n keys) := by
  induction keys generalizing n with
  | nil => exact ⟨Nat.le_refl _, iff_of_true rfl fun i key h => by cases h⟩
  | cons key keys ih =>
      obtain ⟨hle, heq⟩ := ih (n + 1)
      have hexact : Exact filter db cname n (key :: keys) ↔
          (filter n (physicalKey cname key) = true → Present db cname key) ∧
            Exact filter db cname (n + 1) keys := by
        constructor
        · intro h
          refine ⟨h 0 key rfl, fun i other hother => ?_⟩
          rw [Nat.add_right_comm, Nat.add_assoc]
          exact h (i + 1) other hother
        · rintro ⟨hfirst, hrest⟩ (_ | i) other hother
          · cases hother
            exact hfirst
          · rw [← Nat.add_assoc, Nat.add_right_comm]
            exact hrest i other hother
      have hfilter := hsound n (physicalKey cname key)
      rw [hexact, ← heq, presentCount, List.countP_cons, ← presentCount,
        collectDeletes]
      simp only
      by_cases hpresent : Present db cname key
      · simp only [hfilter hpresent, hpresent, decide_true, if_true,
          imp_self, true_and, Nat.add_right_cancel_iff, and_true]
        exact Nat.succ_le_succ hle
      · cases hanswer : filter n (physicalKey cname key) with
        | false =>
            simp only [hpresent, decide_false, Bool.false_eq_true, if_false,
              Nat.add_zero, imp_self, true_and, and_true]
            exact hle
        | true =>
            simp only [hpresent, decide_false, Bool.false_eq_true, if_false,
              if_true, true_implies, false_and, iff_false]
            exact ⟨by omega, by omega⟩

theorem card_presentKeys_le (db : Database) (cname : String)
    (keys : List String) :
    (presentKeys db cname keys).card ≤ presentCount db cname keys ∧
      (presentCount db cname keys = (presentKeys db cname keys).card ↔
        (keys.filter fun key => Present db cname key).Nodup) := by
  have hset : presentKeys db cname keys =
      (keys.filter fun key => Present db cname key).toFinset := by
    simp only [presentKeys, List.toFinset_filter, decide_eq_true_eq]
  rw [hset, presentCount, List.countP_eq_length_filter]
  refine ⟨List.toFinset_card_le _, ?_⟩
  rw [eq_comm]
  exact Multiset.toFinset_card_eq_card_iff_nodup

theorem lookup_write_deletes (n : Nat) (keys : List String) (db : Database)
    (physical : Bytes) :
    (write (collectDeletes filter cname n keys).2 db).lookup physical =
      if physical ∈ keys.map (physicalKey cname) then none
      else db.lookup physical := by
  induction keys generalizing n db with
  | nil => rfl
  | cons key keys ih =>
      have hstep := ih (n + 1) (db.erase (physicalKey cname key))
      simp only [collectDeletes, write, List.foldl_cons,
        BatchOperation.apply] at hstep ⊢
      rw [hstep, List.map_cons, KeyedMap.lookup_erase_eq]
      by_cases hlater : physical ∈ keys.map (physicalKey cname)
      · rw [if_pos hlater, if_pos (List.mem_cons_of_mem _ hlater)]
      · rw [if_neg hlater]
        simp only [List.mem_cons, hlater, or_false]

end Deletes

section Theorem

variable (config : RocksDBConfig) (filter : Filter) (collection : Option String)
  (db : Database)

/-- `delete` answers whether the key was there, and it no longer is. -/
def DeleteReports (key : String) : Prop :=
  let cname := config.collectionName collection
  let r := delete config filter key collection db
  (r.1 = true ↔ Present db cname key) ∧ ¬ Present r.2 cname key

/-- `delete_many` counts the distinct keys that were there, as deleting them
one after the other does, and none of them is there any more. -/
def DeleteManyReports (keys : List String) : Prop :=
  let cname := config.collectionName collection
  let r := deleteMany config filter keys collection db
  r.1 = (presentKeys db cname keys).card ∧
    r.1 = (deleteEach cname keys db).1 ∧
    ∀ key ∈ keys, ¬ Present r.2 cname key

/-- Deletes report what they removed exactly if the filters pass no absent key,
and no key that is there is listed twice. -/
theorem deletes_report_removed_iff (hsound : filter.Sound db) :
    (∀ key, DeleteReports config filter collection db key ↔
      (filter 0 (physicalKey (config.collectionName collection) key) = true →
        Present db (config.collectionName collection) key)) ∧
    ∀ keys, DeleteManyReports config filter collection db keys ↔
      Exact filter db (config.collectionName collection) 0 keys ∧
        (keys.filter fun key =>
          Present db (config.collectionName collection) key).Nodup := by
  let cname := config.collectionName collection
  refine ⟨fun key => ?_, fun keys => ?_⟩
  · have hgone : ¬ Present (db.erase (physicalKey cname key)) cname key := by
      rw [present_erase]
      exact fun h => h.1 rfl
    refine (and_iff_left hgone).trans ⟨Iff.mp, fun h => ⟨h, ?_⟩⟩
    exact hsound 0 (physicalKey cname key)
  · have hgone : ∀ key ∈ keys, ¬ Present
        (deleteMany config filter keys collection db).2 cname key := by
      intro key hkey
      rw [Present, deleteMany, lookup_write_deletes,
        if_pos (List.mem_map_of_mem hkey)]
      exact Bool.false_ne_true
    obtain ⟨hmore, hexact⟩ :=
      @collectDeletes_count filter cname db hsound 0 keys
    obtain ⟨hfewer, hnodup⟩ := card_presentKeys_le db cname keys
    have hcount : (deleteMany config filter keys collection db).1 =
        (collectDeletes filter cname 0 keys).1 := rfl
    simp only [DeleteManyReports]
    rw [deleteEach_count, hcount, ← hexact, ← hnodup]
    constructor
    · rintro ⟨hreport, -, -⟩
      change (collectDeletes filter cname 0 keys).1 =
        (presentKeys db cname keys).card at hreport
      omega
    · rintro ⟨hall, hdistinct⟩
      exact ⟨hall.trans hdistinct, hall.trans hdistinct, hgone⟩

end Theorem

def plainConfig : RocksDBConfig := ⟨"default_collection"⟩

def oneKey : Database :=
  putEntry "k" "default_collection" (.new .epoch .null) ∅

def precise (db : Database) : Filter := fun _ key => (db.lookup key).isSome

theorem deletes_report_one_key :
    DeleteReports plainConfig (precise oneKey) none oneKey "k" ∧
      DeleteManyReports plainConfig (precise oneKey) none oneKey
        ["k", "j"] := by
  have hsound : (precise oneKey).Sound oneKey := fun _ _ h => h
  obtain ⟨hdelete, hmany⟩ :=
    deletes_report_removed_iff plainConfig (precise oneKey) none oneKey hsound
  refine ⟨(hdelete "k").mpr id, (hmany ["k", "j"]).mpr ⟨?_, by decide +kernel⟩⟩
  intro i key _ h
  exact h

theorem absent_and_repeated_keys_are_counted :
    (Filter.Sound (fun _ _ => true) ∅ ∧
        ¬ DeleteReports plainConfig (fun _ _ => true) none ∅ "k") ∧
      (precise oneKey).Sound oneKey ∧
        ¬ DeleteManyReports plainConfig (precise oneKey) none oneKey
          ["k", "k"] := by
  refine ⟨⟨fun _ _ _ => rfl, fun h => ?_⟩, fun _ _ h => h, fun h => ?_⟩
  · have hreport := h.1
    revert hreport
    decide +kernel
  · have hreport := h.2.1
    revert hreport
    decide +kernel

end OpenKeyV.RocksDB
