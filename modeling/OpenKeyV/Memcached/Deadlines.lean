import OpenKeyV.Memcached.Store

/-!
# The deadlines of memcached

`put` and `put_many` send whole seconds: a fraction is dropped, and more than
thirty days are an instant near the epoch for the server.
-/

namespace OpenKeyV.Memcached

open Library ManagedEntry

theorem floor_mul_ediv (secs : Rat) :
    (secs * 1000).floor / 1000 = secs.floor := by
  refine eq_of_forall_le_iff fun n => ?_
  rw [Int.le_ediv_iff_mul_le (by decide), Rat.le_floor_iff, Rat.le_floor_iff]
  push_cast
  constructor <;> intro h <;> linarith

theorem floor_max_one (secs : Rat) :
    (max secs 1).floor = max secs.floor 1 := by
  have hmono : Monotone Rat.floor := fun _ _ => Rat.floor_monotone
  rw [hmono.map_max]
  rfl

theorem exptime_finite (secs : Rat) :
    MemcachedStore.exptime (some (.finite secs)) =
      min (max ((secs * 1000).floor / 1000) 1).toNat (2 ^ 32 - 1) := by
  rw [floor_mul_ediv, ← floor_max_one]
  rfl

section Covered

variable {start sent expires : DateTime}

/-- Counted in whole seconds from an instant on, what is left until the
deadline reaches it. -/
def Covered (start sent expires : DateTime) : Prop :=
  expires.nanos - start.nanos < nanosPerSecond ∨
    (expires.nanos - start.nanos < (relativeLimit + 1) * nanosPerSecond ∧
      (expires.nanos - start.nanos) % nanosPerSecond ≤
        sent.nanos - start.nanos) ∨
    (relativeLimit + 1) * nanosPerSecond ≤ expires.nanos - start.nanos ∧
      expires.nanos ≤
        min ((expires.nanos - start.nanos) / nanosPerSecond) (2 ^ 32 - 1) *
          nanosPerSecond

def wholeSeconds (left : Int) : Nat :=
  min (max (left / nanosPerSecond) 1).toNat (2 ^ 32 - 1)

theorem nativeDeadline_covers (hsent : start ≤ sent) :
    ∃ deadline, nativeDeadline (wholeSeconds (expires.nanos - start.nanos))
        sent = some deadline ∧
      (expires.nanos ≤ deadline ↔ Covered start sent expires) := by
  rw [DateTime.le_def] at hsent
  unfold nativeDeadline
  split
  · rename_i hzero
    simp only [wholeSeconds] at hzero
    omega
  · split
    · rename_i hrelative
      refine ⟨_, rfl, ?_⟩
      simp only [wholeSeconds, relativeLimit, nanosPerSecond, Covered]
        at hrelative ⊢
      omega
    · rename_i hrelative
      refine ⟨_, rfl, ?_⟩
      simp only [wholeSeconds, relativeLimit, nanosPerSecond, Covered]
        at hrelative ⊢
      omega

theorem exptime_remaining {value : Value} {created : Option DateTime} :
    MemcachedStore.exptime
        ((⟨value, created, some expires⟩ : ManagedEntry).ttl start) =
      wholeSeconds (expires.nanos - start.nanos) := by
  simp only [ManagedEntry.ttl]
  split
  · rename_i hle
    rw [DateTime.le_def] at hle
    simp only [exptime_finite, wholeSeconds, nanosPerSecond, zero_mul,
      show (0 : Rat).floor = 0 from rfl]
    omega
  · rw [exptime_finite, div_mul_cancel₀ _ (by norm_num), Rat.floor_intCast]
    simp only [wholeSeconds, nanosPerSecond, nanosPerMilli]
    omega

theorem exptime_lifetime {secs : Rat}
    (h : expires.nanos = start.nanos + lifetimeMillis secs * nanosPerMilli) :
    MemcachedStore.exptime (some (.finite secs)) =
      wholeSeconds (expires.nanos - start.nanos) := by
  rw [exptime_finite, h]
  simp only [wholeSeconds, nanosPerSecond, nanosPerMilli, lifetimeMillis]
  omega

end Covered

structure Kept (defaultCollection : String) (s : Server) (key : String)
    (value : Value) (collection : Option String) (expires : DateTime) :
    Prop where
  native : ∃ ck item deadline, memcachedKey
      (MemcachedStore.collectionName defaultCollection collection) key =
        .ok ck ∧ s.lookup ck = some item ∧ item.deadline = some deadline ∧
      expires.nanos ≤ deadline
  read : ∀ r : MemcachedStore.ReadReadings, r.asked < expires.truncMillis →
    r.checked < expires.truncMillis →
    (MemcachedStore.get defaultCollection r key collection s).1 =
      .ok (some value)

section Stored

variable {defaultCollection key ck : String} {collection : Option String}
  {value : Value} {start sent created expires : DateTime} {s : Server}

theorem get_eq_some {deadline : Int} (hstorable : value.Storable)
    (hck : memcachedKey
      (MemcachedStore.collectionName defaultCollection collection) key =
        .ok ck)
    (hitem : s.lookup ck = some
      ⟨encode ⟨value, some created, some expires⟩, some deadline⟩)
    {r : MemcachedStore.ReadReadings} (hasked : r.asked.nanos < deadline)
    (hchecked : r.checked < expires.truncMillis) :
    (MemcachedStore.get defaultCollection r key collection s).1 =
      .ok (some value) := by
  have hraw : s.get ck r.asked =
      some (encode ⟨value, some created, some expires⟩) := by
    simp [Server.get, hitem, Option.filter, hasked]
  have hdecode := decode_encode ⟨value, some created, some expires⟩
    hstorable.1 hstorable.2
  have hlive : ¬ expires.truncMillis ≤ r.checked := by
    rw [DateTime.le_def]
    rw [DateTime.lt_def] at hchecked
    omega
  simp only [MemcachedStore.get, MemcachedStore.readEntry, hck, hraw, hdecode,
    ManagedEntry.truncMillis, ManagedEntry.isExpired, Option.map_some, hlive,
    decide_false, Bool.false_eq_true, if_false]
  rfl

theorem kept_iff (hstorable : value.Storable) (hsent : start ≤ sent)
    (hck : memcachedKey
      (MemcachedStore.collectionName defaultCollection collection) key =
        .ok ck)
    (hitem : s.lookup ck = some
      ⟨encode ⟨value, some created, some expires⟩,
        nativeDeadline (wholeSeconds (expires.nanos - start.nanos)) sent⟩) :
    (∃ item, s.lookup ck = some item ∧ item.deadline ≠ none) ∧
      (Kept defaultCollection s key value collection expires ↔
        Covered start sent expires) := by
  obtain ⟨deadline, hdeadline, hcovers⟩ :=
    @nativeDeadline_covers start sent expires hsent
  rw [hdeadline] at hitem
  refine ⟨⟨_, hitem, by simp⟩, ?_⟩
  rw [← hcovers]
  constructor
  · rintro ⟨⟨ck', item, deadline', hck', hitem', hdeadline', hle⟩, -⟩
    cases hck.symm.trans hck'
    cases hitem.symm.trans hitem'
    cases hdeadline'
    exact hle
  · intro hle
    refine ⟨⟨ck, _, deadline, hck, hitem, rfl, hle⟩, ?_⟩
    intro r hasked hchecked
    refine get_eq_some hstorable hck hitem ?_ hchecked
    have htrunc := truncMillis_le expires
    rw [DateTime.le_def] at htrunc
    rw [DateTime.lt_def] at hasked
    omega

end Stored

section Batches

variable {cname ck key : String} {created sent : Nat → DateTime}
  {ttl : Option F64} {e i n : Nat}

theorem prepare_getElem {items : List (String × Value)}
    {entries : List (String × Bytes)} {value : Value}
    (h : MemcachedStore.prepare created cname ttl i items = .ok entries)
    (hitem : items[n]? = some (key, value)) :
    ∃ entry ck, ofTtl (created (i + n)) value ttl = .ok entry ∧
      memcachedKey cname key = .ok ck ∧
      entries[n]? = some (ck, entry.encode) := by
  induction items generalizing i n entries with
  | nil => cases hitem
  | cons item items ih =>
      obtain ⟨key', value'⟩ := item
      obtain ⟨entry, hentry, h⟩ := bind_eq_ok.mp h
      obtain ⟨ck, hck, h⟩ := bind_eq_ok.mp h
      obtain ⟨rest, hrest, h⟩ := bind_eq_ok.mp h
      cases h
      cases n with
      | zero =>
          cases hitem
          exact ⟨entry, ck, hentry, hck, rfl⟩
      | succ n =>
          obtain ⟨entry', ck', hentry', hck', hget⟩ := ih hrest hitem
          rw [Nat.add_right_comm, Nat.add_assoc] at hentry'
          exact ⟨entry', ck', hentry', hck', hget⟩

theorem prepare_length {items : List (String × Value)}
    {entries : List (String × Bytes)}
    (h : MemcachedStore.prepare created cname ttl i items = .ok entries) :
    entries.length = items.length := by
  induction items generalizing i entries with
  | nil =>
      cases h
      rfl
  | cons item items ih =>
      obtain ⟨_, _, h⟩ := bind_eq_ok.mp h
      obtain ⟨_, _, h⟩ := bind_eq_ok.mp h
      obtain ⟨rest, hrest, h⟩ := bind_eq_ok.mp h
      cases h
      rw [List.length_cons, List.length_cons, ih hrest]

theorem sendAll_other {entries : List (String × Bytes)} {s : Server}
    (h : ∀ (m : Nat) bytes, entries[m]? ≠ some (ck, bytes)) :
    (MemcachedStore.sendAll sent e i entries s).lookup ck = s.lookup ck := by
  induction entries generalizing i s with
  | nil => rfl
  | cons entry entries ih =>
      obtain ⟨ck', bytes⟩ := entry
      have hne : ck ≠ ck' := fun heq => h 0 bytes (by rw [heq]; rfl)
      rw [MemcachedStore.sendAll, ih fun m => h (m + 1), Server.set,
        KeyedMap.lookup_insert_eq, if_neg hne]

theorem sendAll_last {entries : List (String × Bytes)} {s : Server}
    {bytes : Bytes} (hentry : entries[n]? = some (ck, bytes))
    (hlast : ∀ (m : Nat) other, n < m → entries[m]? ≠ some (ck, other)) :
    (MemcachedStore.sendAll sent e i entries s).lookup ck =
      some ⟨bytes, nativeDeadline e (sent (i + n))⟩ := by
  induction entries generalizing i n s with
  | nil => cases hentry
  | cons entry entries ih =>
      cases n with
      | zero =>
          cases hentry
          rw [MemcachedStore.sendAll,
            sendAll_other fun m other => hlast (m + 1) other (Nat.succ_pos m),
            Server.set, KeyedMap.lookup_insert_eq, if_pos rfl]
          rfl
      | succ n =>
          obtain ⟨ck', bytes'⟩ := entry
          rw [MemcachedStore.sendAll, ih hentry fun m other hm =>
            hlast (m + 1) other (Nat.succ_lt_succ hm), Nat.add_right_comm,
            Nat.add_assoc]

theorem eq_of_memcachedKey (h : memcachedKey cname key = .ok ck) :
    ck = Base64Url.encode (utf8 (compoundKey cname key)) := by
  simp only [memcachedKey] at h
  split at h
  · cases h
  · cases h
    rfl

theorem memcachedKey_inj {key' : String}
    (h : memcachedKey cname key = .ok ck)
    (h' : memcachedKey cname key' = .ok ck) : key = key' := by
  have heq := Base64Url.encode_injective
    ((eq_of_memcachedKey h).symm.trans (eq_of_memcachedKey h'))
  exact (compoundKey_inj.mp (utf8_injective heq)).2

end Batches

section Paths

variable {defaultCollection : String} {collection : Option String}
  {ttl : F64} {s s' : Server}

theorem put_stores {r : MemcachedStore.PutReadings} {key : String}
    {value : Value}
    (h : MemcachedStore.put defaultCollection r key value collection
      (some ttl) s = (.ok (), s')) :
    ∃ ck expires, memcachedKey
        (MemcachedStore.collectionName defaultCollection collection) key =
          .ok ck ∧
      expirationAt r.created ttl = .ok expires ∧
      s'.lookup ck = some ⟨encode ⟨value, some r.created, some expires⟩,
        nativeDeadline (wholeSeconds (expires.nanos - r.measured.nanos))
          r.sent⟩ := by
  unfold MemcachedStore.put at h
  split at h
  · cases h
  · rename_i ck hck
    split at h
    · cases h
    · rename_i entry hentry
      obtain ⟨expires, hexpires, rfl⟩ := withTtl_eq_ok.mp hentry
      cases h
      refine ⟨ck, expires, hck, hexpires, ?_⟩
      rw [Server.set, KeyedMap.lookup_insert_eq, if_pos rfl,
        exptime_remaining]

theorem putMany_stores {validated : DateTime}
    {readings : Nat → MemcachedStore.PutReadings} {keys : List String}
    {values : List Value} {n : Nat} {key : String} {value : Value}
    (h : MemcachedStore.putMany defaultCollection validated readings keys
      values collection (some ttl) s = (.ok (), s'))
    (hkey : keys[n]? = some key) (hvalue : values[n]? = some value)
    (hlast : ∀ m, n < m → keys[m]? ≠ some key) :
    ∃ ck expires, memcachedKey
        (MemcachedStore.collectionName defaultCollection collection) key =
          .ok ck ∧
      expirationAt (readings n).created ttl = .ok expires ∧
      s'.lookup ck =
        some ⟨encode ⟨value, some (readings n).created, some expires⟩,
          nativeDeadline (wholeSeconds
            (expires.nanos - (readings n).created.nanos))
            (readings n).sent⟩ := by
  unfold MemcachedStore.putMany at h
  split at h
  · cases h
  · split at h
    · cases h
    · split at h
      · cases h
      · rename_i entries hprepare
        cases h
        have hitem : (keys.zip values)[n]? = some (key, value) := by
          rw [List.getElem?_zip_eq_some]
          exact ⟨hkey, hvalue⟩
        obtain ⟨entry, ck, hentry, hck, hget⟩ :=
          prepare_getElem hprepare hitem
        rw [Nat.zero_add] at hentry
        obtain ⟨expires, hexpires, rfl⟩ := withTtl_eq_ok.mp hentry
        obtain ⟨secs, rfl, -, -, hnanos⟩ := expirationAt_eq_ok.mp hexpires
        refine ⟨ck, expires, hck, hexpires, ?_⟩
        rw [sendAll_last hget, exptime_lifetime hnanos, Nat.zero_add]
        -- A later entry under the same name would repeat the key.
        intro m other hm hother
        have hlt := (List.getElem?_eq_some_iff.mp hother).1
        rw [prepare_length hprepare] at hlt
        obtain ⟨item, hlater⟩ : ∃ item, (keys.zip values)[m]? = some item :=
          ⟨_, List.getElem?_eq_getElem hlt⟩
        obtain ⟨key', value'⟩ := item
        obtain ⟨_, ck', -, hck', hget'⟩ := prepare_getElem hprepare hlater
        cases hother.symm.trans hget'
        have hsame := memcachedKey_inj hck hck'
        subst hsame
        exact hlast m hm ((List.getElem?_zip_eq_some.mp hlater).1)

end Paths

/-- The whole seconds that reach the server cover the deadline exactly if the
fraction that they drop has passed; a count above thirty days is an instant
near the epoch. -/
theorem native_deadline_kept_iff (defaultCollection : String)
    (collection : Option String) (ttl : F64) :
    (∀ (r : MemcachedStore.PutReadings) key value s s', value.Storable →
      r.created ≤ r.measured → r.measured ≤ r.sent →
      MemcachedStore.put defaultCollection r key value collection (some ttl)
        s = (.ok (), s') →
      ∃ ck expires, memcachedKey (MemcachedStore.collectionName
          defaultCollection collection) key = .ok ck ∧
        expirationAt r.created ttl = .ok expires ∧
        (∃ item, s'.lookup ck = some item ∧ item.deadline ≠ none) ∧
        (Kept defaultCollection s' key value collection expires ↔
          Covered r.measured r.sent expires)) ∧
    ∀ (validated : DateTime) (readings : Nat → MemcachedStore.PutReadings)
      keys values s s', MemcachedStore.putMany defaultCollection validated
        readings keys values collection (some ttl) s = (.ok (), s') →
      ∀ (n : Nat) key value, keys[n]? = some key → values[n]? = some value →
        (∀ m, n < m → keys[m]? ≠ some key) → value.Storable →
        (readings n).created ≤ (readings n).sent →
        ∃ ck expires, memcachedKey (MemcachedStore.collectionName
            defaultCollection collection) key = .ok ck ∧
          expirationAt (readings n).created ttl = .ok expires ∧
          (∃ item, s'.lookup ck = some item ∧ item.deadline ≠ none) ∧
          (Kept defaultCollection s' key value collection expires ↔
            Covered (readings n).created (readings n).sent expires) := by
  constructor
  · intro r key value s s' hstorable _ hsent h
    obtain ⟨ck, expires, hck, hexpires, hitem⟩ := put_stores h
    exact ⟨ck, expires, hck, hexpires, kept_iff hstorable hsent hck hitem⟩
  · intro validated readings keys values s s' h n key value hkey hvalue hlast
      hstorable hsent
    obtain ⟨ck, expires, hck, hexpires, hitem⟩ :=
      putMany_stores h hkey hvalue hlast
    exact ⟨ck, expires, hck, hexpires, kept_iff hstorable hsent hck hitem⟩

section Instances

abbrev allAt (t : DateTime) : MemcachedStore.PutReadings := ⟨t, t, t⟩

/-- A batch of one key at the epoch, with a TTL of one second. -/
theorem native_deadline_kept_second :
    ∃ s', MemcachedStore.putMany "c" .epoch (fun _ => allAt .epoch) ["k"]
        [.null] none (some (.finite 1)) ∅ = (.ok (), s') ∧
      ∃ ck expires, memcachedKey "c" "k" = .ok ck ∧
        expirationAt .epoch (.finite 1) = .ok expires ∧
        (∃ item, s'.lookup ck = some item ∧ item.deadline ≠ none) ∧
        (Kept "c" s' "k" .null none expires ↔
          Covered .epoch .epoch expires) := by
  have hstored : ∃ s', MemcachedStore.putMany "c" .epoch
      (fun _ => allAt .epoch) ["k"] [.null] none (some (.finite 1)) ∅ =
        (.ok (), s') :=
    ⟨_, Prod.ext (by decide +kernel) rfl⟩
  obtain ⟨s', h⟩ := hstored
  refine ⟨s', h, ?_⟩
  refine (native_deadline_kept_iff "c" none (.finite 1)).2 .epoch
    (fun _ => allAt .epoch) ["k"] [.null] ∅ s' h 0 "k" .null rfl rfl ?_
    ⟨rfl, by decide⟩ (by decide)
  intro m hm hmem
  have hlt := (List.getElem?_eq_some_iff.mp hmem).1
  simp only [List.length_singleton] at hlt
  omega

theorem put_cuts_short {t expires : DateTime} {ttl : F64}
    (h : expirationAt t ttl = .ok expires) (hshort : ¬ Covered t t expires) :
    ∃ s', MemcachedStore.put "c" (allAt t) "k" .null none (some ttl) ∅ =
        (.ok (), s') ∧ ¬ Kept "c" s' "k" .null none expires := by
  have hck : memcachedKey (MemcachedStore.collectionName "c" none) "k" =
      .ok (Base64Url.encode (utf8 (compoundKey "c" "k"))) := by
    decide +kernel
  have hentry : ofTtl t .null (some ttl) =
      .ok ⟨.null, some t, some expires⟩ :=
    withTtl_eq_ok.mpr ⟨expires, h, rfl⟩
  have hput : ∃ s', MemcachedStore.put "c" (allAt t) "k" .null none
      (some ttl) ∅ = (.ok (), s') := by
    simp only [MemcachedStore.put, hck, hentry]
    exact ⟨_, rfl⟩
  obtain ⟨s', hput⟩ := hput
  refine ⟨s', hput, fun hkept => hshort ?_⟩
  obtain ⟨ck, expires', hck', hexpires, hitem⟩ := put_stores hput
  cases h.symm.trans hexpires
  exact (kept_iff ⟨rfl, by decide⟩ (le_refl t.nanos) hck' hitem).2.mp hkept

/-- A second and a half at the epoch is kept for one second, and thirty-one
days in 2023 are not kept at all. -/
theorem native_deadline_cuts_short :
    (∃ s' expires, expirationAt .epoch (.finite (3 / 2)) = .ok expires ∧
      MemcachedStore.put "c" (allAt .epoch) "k" .null none
        (some (.finite (3 / 2))) ∅ = (.ok (), s') ∧
      ¬ Kept "c" s' "k" .null none expires) ∧
    ∃ t s' expires, expirationAt t (.finite 2678400) = .ok expires ∧
      MemcachedStore.put "c" (allAt t) "k" .null none
        (some (.finite 2678400)) ∅ = (.ok (), s') ∧
      ¬ Kept "c" s' "k" .null none expires := by
  constructor
  · have h : expirationAt .epoch (.finite (3 / 2)) =
        .ok ⟨1500000000, by decide, by decide⟩ := by decide +kernel
    obtain ⟨s', hput, hkept⟩ := put_cuts_short h (by
      simp only [Covered, DateTime.epoch, nanosPerSecond, relativeLimit]
      omega)
    exact ⟨s', _, h, hput, hkept⟩
  · have h : expirationAt ⟨1700000000000000000, by decide, by decide⟩
        (.finite 2678400) =
          .ok ⟨1702678400000000000, by decide, by decide⟩ := by decide +kernel
    obtain ⟨s', hput, hkept⟩ := put_cuts_short h (by
      simp only [Covered, nanosPerSecond, relativeLimit]
      omega)
    exact ⟨_, s', _, h, hput, hkept⟩

end Instances

end OpenKeyV.Memcached
