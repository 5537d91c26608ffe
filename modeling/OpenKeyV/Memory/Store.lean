import OpenKeyV.Memory.Client
import Mathlib.Data.String.Basic
import Mathlib.Order.MinMax

/-!
# `MemoryStore`

The operations of `store/memory/store.rs`, cut at their awaits: what runs when
the setup lock is obtained, and what runs under the mutation lock up to the
first change that is recorded.  Every `Utc::now()` of one stretch is one
reading `now`; the order in which a map is iterated is an `Order`.
-/

namespace OpenKeyV.Memory

open OpenKeyV.Library

abbrev SeedData := KeyedMap String (KeyedMap String Value)

structure MemoryConfig where
  maxEntriesPerCollection : Option Nat
  defaultCollection : String
  seed : Option SeedData

def MemoryConfig.collectionName (config : MemoryConfig)
    (collection : Option String) : String :=
  collection.getD config.defaultCollection

structure Order where
  toFun : List (String × String) → List (String × String)
  perm : ∀ entries, (toFun entries).Perm entries

def Order.stored : Order := ⟨id, fun _ => .refl _⟩

def Order.keys (order : Order) (name : String) (keys : List String) :
    List String :=
  (order.toFun (keys.map fun key => (name, key))).map Prod.snd

theorem Order.keys_perm (order : Order) (name : String) (keys : List String) :
    (order.keys name keys).Perm keys := by
  have h := (order.perm (keys.map fun key => (name, key))).map Prod.snd
  simpa [Order.keys, Function.comp_def] using h

theorem exists_order {entries target : List (String × String)}
    (h : target.Perm entries) :
    ∃ order : Order, order.toFun entries = target := by
  refine ⟨⟨fun l => if l = entries then target else l, fun l => ?_⟩, ?_⟩
  · split
    · rename_i hl
      rw [hl]
      exact h
    · exact .refl l
  · exact if_pos rfl

theorem exists_order_keys {keys target : List String}
    (h : target.Perm keys) (name : String) :
    ∃ order : Order, order.keys name keys = target := by
  obtain ⟨order, horder⟩ := exists_order (h.map fun key => (name, key))
  refine ⟨order, ?_⟩
  rw [Order.keys, horder, List.map_map]
  exact List.map_id _

inductive Response where
  | unit
  | value (value : Option Value)
  | ttl (value : Option (Value × Option F64))
  | values (values : List (Option Value))
  | ttls (values : List (Option (Value × Option F64)))
  | revisioned (value : Option RevisionedValue)
  | flag (value : Bool)
  | count (value : Nat)
  | swap (result : CompareAndSwapResult)
  | remove (result : CompareAndDeleteResult)
  | names (names : List String)
  | stream (stream : MemoryChangeStream)
  deriving DecidableEq, Repr

def collectionNotFound (name : String) : Error :=
  .invalidOperation s!"collection '{name}' not found"

/-! ## Capacity -/

def smallestKey (col : Collection) : Option String := col.keys.min?

/-- The keys that the loop removes while there are more than `max`. -/
def overflowing (max : Nat) : Nat → Collection → List String
  | 0, _ => []
  | fuel + 1, col =>
      if max < col.size then
        match smallestKey col with
        | some key => key :: overflowing max fuel (col.erase key)
        | none => []
      else []

def expiredKeys (now : DateTime) (col : Collection) : List String :=
  col.keys.filter fun key =>
    (col.lookup key).any fun stored => stored.isExpired now

/-- The keys that `enforce_capacity` deletes from a collection. -/
def excessKeys (config : MemoryConfig) (now : DateTime) (order : Order)
    (name : String) (col : Collection) : List String :=
  match config.maxEntriesPerCollection with
  | none => []
  | some max =>
      let kept := col.retain fun _ stored => !stored.isExpired now
      order.keys name (expiredKeys now col) ++
        overflowing max kept.size kept

def enforceCapacity (config : MemoryConfig) (now : DateTime) (order : Order)
    (name : String) (s : MemoryState) : MemoryState × List String :=
  match s.collection name with
  | none => (s, [])
  | some col =>
      let deleted := excessKeys config now order name col
      (s.removeKeys name deleted, deleted)

/-! ## Setup -/

section Setup

variable (config : MemoryConfig) (rng : Nat → Option Revision)
  (now : DateTime) (order : Order)

def loadItems (name : String) :
    List (Sigma fun _ : String => Value) → MemoryState →
      Except Error Unit × MemoryState
  | [], s => (.ok (), s)
  | ⟨key, value⟩ :: items, s =>
      match s.fresh rng with
      | (.error error, s) => (.error error, s)
      | (.ok revision, s) =>
          loadItems name items
            (s.insertEntry name key ⟨.new now value, revision⟩ .plain)

def loadSeed :
    List (Sigma fun _ : String => KeyedMap String Value) → MemoryState →
      Except Error Unit × MemoryState
  | [], s => (.ok (), s)
  | ⟨name, items⟩ :: seed, s =>
      match loadItems rng now name items.entries (s.ensureCollection name) with
      | (.error error, s) => (.error error, s)
      | (.ok (), s) =>
          loadSeed seed (enforceCapacity config now order name s).1

def setup (s : MemoryState) : Except Error Unit × MemoryState :=
  if s.setupComplete then (.ok (), s)
  else
    match config.seed with
    | none => (.ok (), { s with setupComplete := true })
    | some seed =>
        match loadSeed config rng now order seed.entries s with
        | (.error error, s) => (.error error, s)
        | (.ok (), s) => (.ok (), { s with setupComplete := true })

variable {config rng now order}

theorem setup_complete {s : MemoryState} (h : s.setupComplete = true)
    (now : DateTime) (order : Order) :
    setup config rng now order s = (.ok (), s) := by
  simp [setup, h]

theorem setup_setupComplete {s s' : MemoryState}
    (h : setup config rng now order s = (.ok (), s')) :
    s'.setupComplete = true := by
  unfold setup at h
  split at h
  · cases h
    assumption
  · split at h
    · cases h
      rfl
    · split at h
      · cases h
      · cases h
        rfl

end Setup

/-! ## Reads -/

section Reads

variable (now : DateTime) (name : String) (s : MemoryState)

def getCollection : Except Error Collection :=
  match s.collection name with
  | some col => .ok col
  | none => .error (collectionNotFound name)

def liveIn (col : Collection) (key : String) : Option RevisionedEntry :=
  (col.lookup key).filter fun stored => !stored.isExpired now

def get (key : String) : Except Error Response := do
  let col ← getCollection name s
  return .value ((liveIn now col key).map (·.entry.value))

def ttl (key : String) : Except Error Response := do
  let col ← getCollection name s
  return .ttl ((liveIn now col key).map fun stored =>
    (stored.entry.value, stored.entry.ttl now))

def getMany (keys : List String) : Except Error Response := do
  let col ← getCollection name s
  return .values (keys.map fun key => (liveIn now col key).map (·.entry.value))

def ttlMany (keys : List String) : Except Error Response := do
  let col ← getCollection name s
  return .ttls (keys.map fun key => (liveIn now col key).map fun stored =>
    (stored.entry.value, stored.entry.ttl now))

def getWithRevision (key : String) : Except Error Response := do
  let col ← getCollection name s
  return .revisioned ((liveIn now col key).map (·.snapshot now))

def defaultPageSize : Nat := 10000

def pageLimit : Nat := 10000

def pageLen (limit : Option Nat) : Nat :=
  min (limit.getD defaultPageSize) pageLimit

def keys (order : Order) (limit : Option Nat) : Except Error Response := do
  let col ← getCollection name s
  return .names ((order.keys name col.keys).take (pageLen limit))

def collections (order : Order) (limit : Option Nat) : Response :=
  .names ((order.keys "" s.collections.keys).take (pageLen limit))

end Reads

/-! ## Under the mutation lock -/

inductive LockMode where
  | read
  | write
  deriving DecidableEq, Repr

/-- A reference into a `DashMap` that keeps a shard locked: into the map of
collections, or into one collection. -/
inductive Guard where
  | outer (name : String) (mode : LockMode)
  | inner (name key : String) (mode : LockMode)
  deriving DecidableEq, Repr

/-- What an operation has done when it reaches its first change to record:
the changes to come, the references it still holds, and its result. -/
structure Locked where
  state : MemoryState
  pending : List Mutation
  guards : List Guard
  result : Except Error Response

section UnderLock

variable (config : MemoryConfig) (now : DateTime) (order : Order)
  (name : String) (s : MemoryState)

def deletions (keys : List String) : List Mutation :=
  keys.map fun key => ⟨name, key, .delete⟩

def put (key : String) (stored : RevisionedEntry) : Locked :=
  match s.collection name with
  | some _ =>
      let (s, deleted) := enforceCapacity config now order name
        (s.insertEntry name key stored .plain)
      ⟨s, ⟨name, key, .put⟩ :: deletions name deleted, [], .ok .unit⟩
  | none => ⟨s, [⟨name, key, .put⟩], [], .ok .unit⟩

def insertMany (s : MemoryState) (items : List (String × RevisionedEntry)) :
    MemoryState :=
  items.foldl (fun s item => s.insertEntry name item.1 item.2 .plain) s

def putMany (keys : List String) (entries : List RevisionedEntry) : Locked :=
  let puts : List Mutation := keys.map fun key => ⟨name, key, .put⟩
  match s.collection name with
  | some _ =>
      let (s, deleted) := enforceCapacity config now order name
        (insertMany name s (keys.zip entries))
      ⟨s, puts ++ deletions name deleted, [], .ok .unit⟩
  | none => ⟨s, puts, [], .ok .unit⟩

def delete (key : String) : Locked :=
  match s.collection name with
  | none => ⟨s, [], [], .error (collectionNotFound name)⟩
  | some col =>
      match col.lookup key with
      | some _ =>
          ⟨s.removeEntry name key none, [⟨name, key, .delete⟩],
            [.outer name .read], .ok (.flag true)⟩
      | none => ⟨s, [], [], .ok (.flag false)⟩

def removeMany : List String → MemoryState → MemoryState × List String
  | [], s => (s, [])
  | key :: keys, s =>
      match s.entry name key with
      | some _ =>
          let (s, deleted) := removeMany keys (s.removeEntry name key none)
          (s, key :: deleted)
      | none => removeMany keys s

def deleteMany (keys : List String) : Locked :=
  match s.collection name with
  | none => ⟨s, [], [], .error (collectionNotFound name)⟩
  | some _ =>
      let (s, deleted) := removeMany name keys s
      ⟨s, deletions name deleted, [.outer name .read],
        .ok (.count deleted.length)⟩

def compareAndSwap (key : String) (expected : Option Revision)
    (stored : RevisionedEntry) : Locked :=
  let conflict (s : MemoryState) (current : Option RevisionedValue) : Locked :=
    ⟨s, [], [], .ok (.swap (.conflict current))⟩
  let applied (cause : Cause) (guards : List Guard) : Locked :=
    ⟨s.insertEntry name key stored cause, [⟨name, key, .put⟩],
      .outer name .read :: guards, .ok (.swap (.applied stored.revision))⟩
  match s.collection name with
  | none => ⟨s, [], [], .error (collectionNotFound name)⟩
  | some col =>
      match col.lookup key with
      | none =>
          match expected with
          | none => applied (.created false) []
          | some _ => conflict s none
      | some current =>
          if current.isExpired now then
            match expected with
            | none => applied (.created true) [.inner name key .write]
            | some _ => conflict (s.removeEntry name key none) none
          else
            match expected with
            | none => conflict s (some (current.snapshot now))
            | some revision =>
                if revision = current.revision then
                  applied (.swapped revision) [.inner name key .write]
                else conflict s (some (current.snapshot now))

def compareAndDelete (key : String) (expected : Revision) : Locked :=
  let conflict (s : MemoryState) (current : Option RevisionedValue) : Locked :=
    ⟨s, [], [], .ok (.remove (.conflict current))⟩
  match s.collection name with
  | none => ⟨s, [], [], .error (collectionNotFound name)⟩
  | some col =>
      match col.lookup key with
      | none => conflict s none
      | some current =>
          if current.isExpired now then
            conflict (s.removeEntry name key none) none
          else if expected = current.revision then
            ⟨s.removeEntry name key (some expected), [⟨name, key, .delete⟩],
              [.outer name .read], .ok (.remove .deleted)⟩
          else conflict s (some (current.snapshot now))

def expiredEntries : List (String × String) :=
  s.collections.entries.flatMap fun entry =>
    (expiredKeys now entry.2).map fun key => (entry.1, key)

def cull : Locked :=
  let deleted := order.toFun (expiredEntries now s)
  ⟨deleted.foldl (fun s entry => s.removeEntry entry.1 entry.2 none) s,
    deleted.map fun entry => ⟨entry.1, entry.2, .delete⟩, [], .ok .unit⟩

def destroyCollection : Locked :=
  match s.collection name with
  | some col =>
      let keys := order.keys name col.keys
      ⟨s.removeCollection name keys, deletions name keys, [],
        .ok (.flag true)⟩
  | none => ⟨s, [], [], .ok (.flag false)⟩

end UnderLock

/-! ## Conditional operations -/

section Conditional

variable (now : DateTime) (s : MemoryState) (name key : String)

inductive Swapped (expected : Option Revision) (stored : RevisionedEntry) :
    Locked → Prop where
  | missing (hcol : s.collection name = none) :
      Swapped expected stored ⟨s, [], [], .error (collectionNotFound name)⟩
  | rejected (hfresh : ∀ current, s.entry name key = some current →
        current.isExpired now = false)
      (hexpected : expected ≠ (s.live now name key).map (·.revision)) :
      Swapped expected stored ⟨s, [], [],
        .ok (.swap (.conflict ((s.live now name key).map (·.snapshot now))))⟩
  | swept {current : RevisionedEntry} {revision : Revision}
      (hcurrent : s.entry name key = some current)
      (hexpired : current.isExpired now = true)
      (hexpected : expected = some revision) :
      Swapped expected stored ⟨s.removeEntry name key none, [], [],
        .ok (.swap (.conflict none))⟩
  | created {col : Collection} (hcol : s.collection name = some col)
      (hlive : s.live now name key = none) (hexpected : expected = none) :
      Swapped expected stored
        ⟨s.insertEntry name key stored
            (.created (s.entry name key).isSome),
          [⟨name, key, .put⟩],
          .outer name .read ::
            if (s.entry name key).isSome then [.inner name key .write] else [],
          .ok (.swap (.applied stored.revision))⟩
  | swapped {col : Collection} {current : RevisionedEntry}
      (hcol : s.collection name = some col)
      (hcurrent : s.entry name key = some current)
      (hlive : current.isExpired now = false)
      (hexpected : expected = some current.revision) :
      Swapped expected stored
        ⟨s.insertEntry name key stored (.swapped current.revision),
          [⟨name, key, .put⟩],
          [.outer name .read, .inner name key .write],
          .ok (.swap (.applied stored.revision))⟩

inductive Removed (expected : Revision) : Locked → Prop where
  | missing (hcol : s.collection name = none) :
      Removed expected ⟨s, [], [], .error (collectionNotFound name)⟩
  | rejected (hfresh : ∀ current, s.entry name key = some current →
        current.isExpired now = false)
      (hexpected : some expected ≠ (s.live now name key).map (·.revision)) :
      Removed expected ⟨s, [], [],
        .ok (.remove (.conflict ((s.live now name key).map (·.snapshot now))))⟩
  | swept {current : RevisionedEntry}
      (hcurrent : s.entry name key = some current)
      (hexpired : current.isExpired now = true) :
      Removed expected ⟨s.removeEntry name key none, [], [],
        .ok (.remove (.conflict none))⟩
  | deleted {col : Collection} {current : RevisionedEntry}
      (hcol : s.collection name = some col)
      (hcurrent : s.entry name key = some current)
      (hlive : current.isExpired now = false)
      (hexpected : expected = current.revision) :
      Removed expected
        ⟨s.removeEntry name key (some expected), [⟨name, key, .delete⟩],
          [.outer name .read], .ok (.remove .deleted)⟩

variable {now s name key}

theorem live_of_entry {stored : RevisionedEntry}
    (h : s.entry name key = some stored)
    (hlive : stored.isExpired now = false) :
    s.live now name key = some stored := by
  simp [MemoryState.live, h, hlive]

theorem live_none_of_expired {stored : RevisionedEntry}
    (h : s.entry name key = some stored)
    (hexpired : stored.isExpired now = true) : s.live now name key = none := by
  simp [MemoryState.live, h, hexpired]

variable (now) in
theorem live_none_of_absent (h : s.entry name key = none) :
    s.live now name key = none := by
  simp [MemoryState.live, h]

variable (now s name key) in
theorem compareAndSwap_cases (expected : Option Revision)
    (stored : RevisionedEntry) :
    Swapped now s name key expected stored
      (compareAndSwap now name s key expected stored) := by
  unfold compareAndSwap
  cases hcol : s.collection name with
  | none => exact .missing hcol
  | some col =>
      have hentry := MemoryState.entry_eq s name key hcol
      simp only
      cases hlookup : col.lookup key with
      | none =>
          rw [hlookup] at hentry
          have hlive := live_none_of_absent now hentry
          cases expected with
          | none =>
              have h : Swapped now s name key none stored _ :=
                .created hcol hlive rfl
              rwa [hentry] at h
          | some revision =>
              have h : Swapped now s name key (some revision) stored _ :=
                .rejected (by simp [hentry]) (by simp [hlive])
              rwa [hlive] at h
      | some current =>
          rw [hlookup] at hentry
          simp only
          cases hexpired : current.isExpired now with
          | true =>
              cases expected with
              | none =>
                  have h : Swapped now s name key none stored _ :=
                    .created hcol (live_none_of_expired hentry hexpired) rfl
                  rwa [hentry] at h
              | some revision => exact .swept hentry hexpired rfl
          | false =>
              have hlive := live_of_entry hentry hexpired
              have hreject : expected ≠ some current.revision →
                  Swapped now s name key expected stored ⟨s, [], [],
                    .ok (.swap (.conflict (some (current.snapshot now))))⟩ := by
                intro hexpected
                have h : Swapped now s name key expected stored _ :=
                  .rejected (by simp [hentry, hexpired])
                    (by simpa [hlive] using hexpected)
                rwa [hlive] at h
              cases expected with
              | none => exact hreject (by simp)
              | some revision =>
                  simp only [Bool.false_eq_true, if_false]
                  split
                  · rename_i hrevision
                    subst hrevision
                    exact .swapped hcol hentry hexpired rfl
                  · rename_i hrevision
                    exact hreject (by simpa using hrevision)

variable (now s name key) in
theorem compareAndDelete_cases (expected : Revision) :
    Removed now s name key expected
      (compareAndDelete now name s key expected) := by
  unfold compareAndDelete
  cases hcol : s.collection name with
  | none => exact .missing hcol
  | some col =>
      have hentry := MemoryState.entry_eq s name key hcol
      simp only
      cases hlookup : col.lookup key with
      | none =>
          rw [hlookup] at hentry
          have hlive := live_none_of_absent now hentry
          have h : Removed now s name key expected _ :=
            .rejected (by simp [hentry]) (by simp [hlive])
          rwa [hlive] at h
      | some current =>
          rw [hlookup] at hentry
          simp only
          cases hexpired : current.isExpired now with
          | true => exact .swept hentry hexpired
          | false =>
              have hlive := live_of_entry hentry hexpired
              simp only [Bool.false_eq_true, if_false]
              split
              · rename_i hexpected
                exact .deleted hcol hentry hexpired hexpected
              · rename_i hexpected
                have h : Removed now s name key expected _ :=
                  .rejected (by simp [hentry, hexpired])
                    (by simpa [hlive] using hexpected)
                rwa [hlive] at h

end Conditional

end OpenKeyV.Memory
