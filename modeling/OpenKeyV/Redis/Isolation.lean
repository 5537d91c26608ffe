import OpenKeyV.Redis.Operations

/-!
# Keyspaces in one database

Every key that a store on a non-empty keyspace touches starts with the frame
of the keyspace, and the frames are a prefix-free code.  `Confined` says that a
server differs from another only at the keys of a set; the commands are
confined to their keys, and a script to the keys of its commands.
-/

namespace OpenKeyV.Redis

open Library Program

/-- The keys that a store on the keyspace can have in the database. -/
inductive PhysicalKey (keyspace : Subspace) : String → Prop where
  | entry (collection key : String) :
      PhysicalKey keyspace (subspaceCompoundKey keyspace collection key)
  | revision : PhysicalKey keyspace (revisionKey keyspace)
  | stream : PhysicalKey keyspace (streamKey keyspace)
  | registry : PhysicalKey keyspace (registryKey keyspace)

def Within (keyspace : Subspace) (key : String) : Prop :=
  ∃ rest, key = keyspace.scope rest

theorem PhysicalKey.within {keyspace : Subspace} {key : String}
    (h : PhysicalKey keyspace key) : Within keyspace key := by
  cases h with
  | entry collection key => exact ⟨compoundKey collection key, rfl⟩
  | revision => exact ⟨changeRevisionKey, rfl⟩
  | stream => exact ⟨changeStreamKey, rfl⟩
  | registry => exact ⟨collectionRegistryKey, rfl⟩

theorem not_within_of_ne {a b : Subspace} (ha : a.isEmpty = false)
    (hb : b.isEmpty = false) (hne : a ≠ b) {key : String}
    (h : Within b key) : ¬ Within a key := by
  rintro ⟨rest, rfl⟩
  obtain ⟨rest', heq⟩ := h
  exact Subspace.scope_ne_scope ha hb hne rest rest' heq

theorem within_of_scanPattern {keyspace : Subspace} {key : String}
    (h : Glob.globMatch (scanPattern keyspace.frame) key = true) :
    Within keyspace key :=
  (Glob.globMatch_escape keyspace.frame key).mp h

theorem matches_collection_iff {keyspace : Subspace}
    {collection identity : String} :
    Glob.globMatch (collectionScanPattern keyspace collection) identity =
        true ↔
      ∃ key, identity = subspaceCompoundKey keyspace collection key := by
  rw [collectionScanPattern, scanPattern, Glob.globMatch_escape]
  simp only [subspaceCompoundKey, Subspace.scope, compoundKey,
    String.append_assoc]

/-! ## Frames -/

def Confined (p : String → Prop) (s s' : Server) : Prop :=
  s'.clock = s.clock ∧
    ∀ key, ¬ p key → s'.objects.lookup key = s.objects.lookup key

section Confined

variable {p : String → Prop} {key : String}

theorem Confined.refl (s : Server) : Confined p s s := ⟨rfl, fun _ _ => rfl⟩

theorem Confined.trans (a b c : Server) (hab : Confined p a b)
    (hbc : Confined p b c) : Confined p a c := by
  constructor
  · rw [hbc.1, hab.1]
  · intro key hkey
    rw [hbc.2 key hkey, hab.2 key hkey]

theorem Confined.find {s s' : Server} (h : Confined p s s')
    (hkey : ¬ p key) : s'.find key = s.find key := by
  simp only [Server.find, h.1, h.2 key hkey]

theorem Confined.store (hkey : p key) (s : Server) (slot : Slot) :
    Confined p s (s.store key slot) := by
  constructor
  · rfl
  · intro key' hkey'
    rw [Server.store, KeyedMap.lookup_insert_eq, if_neg]
    rintro rfl
    exact hkey' hkey

theorem Confined.remove (hkey : p key) (s : Server) :
    Confined p s (s.remove key) := by
  constructor
  · rfl
  · intro key' hkey'
    rw [Server.remove, KeyedMap.lookup_erase_eq, if_neg]
    rintro rfl
    exact hkey' hkey

theorem keeps_existsKey (key : String) :
    Keeps (Confined p) (existsKey key) := Confined.refl

theorem keeps_mget (keys : List String) :
    Keeps (Confined p) (mget keys) := Confined.refl

theorem keeps_get (key : String) : Keeps (Confined p) (get key) := by
  intro s
  simp only [get, eval_ofFn]
  split <;> exact Confined.refl s

theorem keeps_smembers (key : String) :
    Keeps (Confined p) (smembers key) := by
  intro s
  simp only [smembers, eval_ofFn]
  split <;> exact Confined.refl s

theorem keeps_del (hkey : p key) : Keeps (Confined p) (del key) :=
  Confined.remove hkey

theorem keeps_set (hkey : p key) (bytes : Bytes) :
    Keeps (Confined p) (set key bytes) :=
  fun s => Confined.store hkey s _

theorem keeps_psetex (hkey : p key) (milliseconds : Nat) (bytes : Bytes) :
    Keeps (Confined p) (psetex key milliseconds bytes) :=
  fun s => Confined.store hkey s _

theorem keeps_incr (hkey : p key) : Keeps (Confined p) (incr key) := by
  intro s
  simp only [incr, eval_ofFn]
  split
  · exact Confined.store hkey s _
  · split
    · exact Confined.refl s
    · exact Confined.store hkey s _
  · exact Confined.refl s
  · exact Confined.refl s

theorem keeps_sadd (hkey : p key) (member : String) :
    Keeps (Confined p) (sadd key member) := by
  intro s
  simp only [sadd, eval_ofFn]
  split
  · exact Confined.store hkey s _
  · exact Confined.store hkey s _
  · exact Confined.refl s

theorem keeps_xadd (hkey : p key) (maxlen : Nat) (id : Option StreamId)
    (fields : List (String × String)) :
    Keeps (Confined p) (xadd key maxlen id fields) := by
  intro s
  simp only [xadd, eval_ofFn]
  cases id with
  | none => split <;> exact Confined.refl s
  | some id =>
      -- a refused append leaves the server, an accepted one stores at `key`
      repeat' split
      all_goals first
        | exact Confined.refl s
        | exact Confined.store hkey s _

theorem keeps_delAll {keys : List String} (hkeys : ∀ key ∈ keys, p key) :
    Keeps (Confined p) (delAll keys) := by
  intro s
  simp only [delAll, eval_ofFn]
  induction keys generalizing s with
  | nil => exact Confined.refl s
  | cons key keys ih =>
      have hfirst := Confined.remove (hkeys key List.mem_cons_self) s
      have hrest := ih (fun key hkey => hkeys key (List.mem_cons_of_mem _ hkey))
        (s.remove key)
      exact Confined.trans _ _ _ hfirst hrest

end Confined

section Scripts

variable {p : String → Prop} {ck revisionKey streamKey registryKey : String}

theorem keeps_writeEnvelope (hck : p ck) (envelope : Bytes)
    (milliseconds : Nat) :
    Keeps (Confined p) (writeEnvelope ck envelope milliseconds) := by
  unfold writeEnvelope
  split
  · exact keeps_set hck envelope
  · exact keeps_psetex hck milliseconds envelope

theorem keeps_appendChange (hstream : p streamKey) (retention revision : Nat)
    (collection key : String) (operation : ChangeOperation)
    (occurredAt : String) :
    Keeps (Confined p) (appendChange streamKey retention revision collection
      key operation occurredAt) := by
  unfold appendChange
  split
  · exact keeps_xadd hstream _ _ _
  · exact keeps_pure Confined.refl ()

theorem keeps_putChangeScript (hck : p ck) (hrevision : p revisionKey)
    (hstream : p streamKey) (hregistry : p registryKey) (envelope : Bytes)
    (milliseconds : Nat) (collection key occurredAt : String)
    (retention : Nat) :
    Keeps (Confined p) (putChangeScript ck revisionKey streamKey registryKey
      envelope milliseconds collection key occurredAt retention) := by
  apply Keeps.bind Confined.trans (keeps_incr hrevision)
  intro revision
  apply Keeps.bind Confined.trans (keeps_writeEnvelope hck _ _)
  intro _
  apply Keeps.bind Confined.trans (keeps_sadd hregistry _)
  intro _
  apply Keeps.bind Confined.trans (keeps_appendChange hstream _ _ _ _ _ _)
  intro _
  exact keeps_pure Confined.refl _

theorem keeps_deleteChangeScript (hck : p ck) (hrevision : p revisionKey)
    (hstream : p streamKey) (collection key : String) (retention : Nat)
    (occurredAt : String) :
    Keeps (Confined p) (deleteChangeScript ck revisionKey streamKey collection
      key retention occurredAt) := by
  apply Keeps.bind Confined.trans (keeps_existsKey ck)
  intro present
  cases present with
  | false => exact keeps_pure Confined.refl _
  | true =>
      apply Keeps.bind Confined.trans (keeps_del hck)
      intro _
      apply Keeps.bind Confined.trans (keeps_incr hrevision)
      intro revision
      apply Keeps.bind Confined.trans (keeps_appendChange hstream _ _ _ _ _ _)
      intro _
      exact keeps_pure Confined.refl _

theorem keeps_bulkRemove (hck : p ck) (hrevision : p revisionKey)
    (hstream : p streamKey) (retention : Nat)
    (collection occurredAt key : String) :
    Keeps (Confined p) (bulkRemove ck revisionKey streamKey retention
      collection occurredAt key) := by
  apply Keeps.bind Confined.trans (keeps_del hck)
  intro _
  split
  · apply Keeps.bind Confined.trans (keeps_incr hrevision)
    intro revision
    exact keeps_xadd hstream _ _ _
  · exact keeps_pure Confined.refl _

theorem keeps_bulkDelete (hrevision : p revisionKey) (hstream : p streamKey)
    (retention : Nat) (collection occurredAt : String)
    {pairs : List (String × String)} (hpairs : ∀ pair ∈ pairs, p pair.1)
    (removed : Nat) :
    Keeps (Confined p) (bulkDeleteChangeScript revisionKey streamKey retention
      collection occurredAt pairs removed) := by
  induction pairs generalizing removed with
  | nil => exact keeps_pure Confined.refl _
  | cons pair pairs ih =>
      have hrest := ih fun pair hpair =>
        hpairs pair (List.mem_cons_of_mem _ hpair)
      apply Keeps.bind Confined.trans (keeps_existsKey pair.1)
      intro present
      cases present with
      | false => exact hrest removed
      | true =>
          apply Keeps.bind Confined.trans (keeps_bulkRemove
            (hpairs pair List.mem_cons_self) hrevision hstream _ _ _ _)
          intro _
          exact hrest (removed + 1)

theorem keeps_compareAndSwapScript (hck : p ck) (hregistry : p registryKey)
    (expected envelope : Bytes) (milliseconds prefixLen : Nat)
    (collection : String) :
    Keeps (Confined p) (compareAndSwapScript ck registryKey expected envelope
      milliseconds prefixLen collection) := by
  have hwrite : Keeps (Confined p) (do
      writeEnvelope ck envelope milliseconds
      sadd registryKey collection
      return [RedisValue.int 1, .bulkString []]) := by
    apply Keeps.bind Confined.trans (keeps_writeEnvelope hck _ _)
    intro _
    apply Keeps.bind Confined.trans (keeps_sadd hregistry _)
    intro _
    exact keeps_pure Confined.refl _
  apply Keeps.bind Confined.trans (keeps_get ck)
  intro value
  cases value with
  | none =>
      dsimp only
      split
      · exact hwrite
      · exact keeps_pure Confined.refl _
  | some value =>
      dsimp only
      split
      · exact keeps_pure Confined.refl _
      · split
        · exact keeps_pure Confined.refl _
        · exact hwrite

theorem keeps_compareAndDeleteScript (hck : p ck) (expected : Bytes)
    (prefixLen : Nat) :
    Keeps (Confined p) (compareAndDeleteScript ck expected prefixLen) := by
  apply Keeps.bind Confined.trans (keeps_get ck)
  intro value
  cases value with
  | none => exact keeps_pure Confined.refl _
  | some value =>
      dsimp only
      split
      · exact keeps_pure Confined.refl _
      · split
        · exact keeps_pure Confined.refl _
        · apply Keeps.bind Confined.trans (keeps_del hck)
          intro _
          exact keeps_pure Confined.refl _

theorem keeps_registerAll (hregistry : p registryKey) (names : List String) :
    Keeps (Confined p) (RedisStore.registerAll registryKey names) := by
  induction names with
  | nil => exact keeps_pure Confined.refl _
  | cons name names ih =>
      apply Keeps.bind Confined.trans (keeps_sadd hregistry name)
      intro _
      exact ih

theorem keeps_deletePages {pattern : String}
    (hpattern : ∀ key, Glob.globMatch pattern key = true → p key)
    (pages : List (List String)) :
    Keeps (Confined p) (RedisStore.deletePages pattern pages) := by
  induction pages with
  | nil => exact keeps_pure Confined.refl _
  | cons page pages ih =>
      unfold RedisStore.deletePages
      split
      · exact ih
      · apply Keeps.bind Confined.trans (keeps_delAll ?_)
        · intro _
          exact ih
        · intro key hkey
          exact hpattern key (List.mem_filter.mp hkey).2

end Scripts

/-! ## Operations -/

section Operations

variable {config : RedisConfig} (s : Server)

theorem within_scope (keyspace : Subspace) (key : String) :
    Within keyspace (keyspace.scope key) := ⟨key, rfl⟩

theorem confined_invoke {p : String → Prop} {α : Type} {script : Script α}
    (h : Keeps (Confined p) script) : Confined p s (invoke script s).2 := h s

theorem confined_put (readings : Readings) (key : String) (value : Value)
    (collection : Option String) (ttl : Option F64) :
    Confined (Within config.keyspace) s
      (RedisStore.put config readings key value collection ttl s).2 := by
  unfold RedisStore.put
  dsimp only
  split
  · exact Confined.refl s
  · exact confined_invoke s (keeps_putChangeScript (within_scope _ _)
      (within_scope _ _) (within_scope _ _) (within_scope _ _) _ _ _ _ _ _)

theorem confined_delete (readings : Readings) (key : String)
    (collection : Option String) :
    Confined (Within config.keyspace) s
      (RedisStore.delete config readings key collection s).2 :=
  confined_invoke s (keeps_deleteChangeScript (within_scope _ _)
    (within_scope _ _) (within_scope _ _) _ _ _ _)

theorem within_of_scannedKeys {collection : String}
    {identities : List String} {pairs : List (String × String)}
    (h : RedisStore.scannedKeys config collection identities = .ok pairs) :
    ∀ pair ∈ pairs, Within config.keyspace pair.1 := by
  induction identities generalizing pairs with
  | nil =>
      cases h
      simp
  | cons identity identities ih =>
      unfold RedisStore.scannedKeys at h
      cases hstrip : stripPrefix config.keyspace.frame identity with
      | none => simp [hstrip] at h
      | some logical =>
          have hwithin : Within config.keyspace identity :=
            ⟨logical, stripPrefix_eq_some.mp hstrip⟩
          cases hcut : decompoundKey logical with
          | error error => simp [hstrip, hcut, bind, Except.bind] at h
          | ok cut =>
              simp only [hstrip, hcut, bind, Except.bind] at h
              split at h
              · cases h
              · cases hrest : RedisStore.scannedKeys config collection
                    identities with
                | error error => simp [hrest] at h
                | ok rest =>
                    simp only [hrest, pure, Except.pure,
                      Except.ok.injEq] at h
                    subst h
                    intro pair hpair
                    rcases List.mem_cons.mp hpair with rfl | hpair
                    · exact hwithin
                    · exact ih hrest pair hpair

theorem confined_destroyLoop (collection : String)
    (pages : List (DateTime × List String)) (destroyed : Bool) :
    Confined (Within config.keyspace) s
      (RedisStore.destroyLoop config collection pages destroyed s).2 := by
  induction pages generalizing s destroyed with
  | nil => exact Confined.refl s
  | cons page pages ih =>
      obtain ⟨occurred, identities⟩ := page
      unfold RedisStore.destroyLoop
      split
      · exact Confined.refl s
      · exact ih s destroyed
      · rename_i pairs _ hpairs
        have hscript := confined_invoke s (keeps_bulkDelete
          (@PhysicalKey.revision config.keyspace).within
          PhysicalKey.stream.within config.changeRetention collection
          (timestampText occurred) (within_of_scannedKeys hpairs) 0)
        split
        · rename_i heval
          rw [heval] at hscript
          exact hscript
        · rename_i heval
          rw [heval] at hscript
          exact Confined.trans _ _ _ hscript (ih _ _)

theorem confined_putLoop (readings : Nat → Readings) (collection : String)
    (ttl : Option F64) (i : Nat) (items : List (String × Value)) :
    Confined (Within config.keyspace) s
      (RedisStore.putLoop config readings collection ttl i items s).2 := by
  induction items generalizing s i with
  | nil => exact Confined.refl s
  | cons item items ih =>
      obtain ⟨key, value⟩ := item
      have hput := @confined_put config s (readings i) key value
        (some collection) ttl
      unfold RedisStore.putLoop
      split
      · rename_i heval
        rw [heval] at hput
        exact hput
      · rename_i heval
        rw [heval] at hput
        exact Confined.trans _ _ _ hput (ih _ _)

theorem confined_deleteLoop (readings : Nat → Readings) (collection : String)
    (i : Nat) (keys : List String) (count : Nat) :
    Confined (Within config.keyspace) s
      (RedisStore.deleteLoop config readings collection i keys count s).2 := by
  induction keys generalizing s i count with
  | nil => exact Confined.refl s
  | cons key keys ih =>
      have hdelete := @confined_delete config s (readings i) key
        (some collection)
      unfold RedisStore.deleteLoop
      split
      · rename_i heval
        rw [heval] at hdelete
        exact hdelete
      · rename_i heval
        rw [heval] at hdelete
        exact Confined.trans _ _ _ hdelete (ih _ _ _)

theorem confined_collections (limit : Option Nat)
    (pages : List (List String)) :
    Confined (Within config.keyspace) s
      (RedisStore.collections config limit pages s).2 := by
  unfold RedisStore.collections
  dsimp only
  split
  · exact Confined.refl s
  · have hexists : (invoke (existsKey (registryKey config.keyspace)) s).2 =
        s := rfl
    split
    · rename_i heval
      exact congrArg Prod.snd heval ▸ hexists ▸ Confined.refl _
    · rename_i heval
      obtain rfl := (congrArg Prod.snd heval).symm.trans hexists
      exact confined_invoke _ (keeps_smembers _)
    · rename_i heval
      obtain rfl := (congrArg Prod.snd heval).symm.trans hexists
      split
      · exact Confined.refl _
      · split
        · exact Confined.refl _
        · exact confined_invoke _
            (keeps_registerAll (within_scope _ collectionRegistryKey) _)

theorem confined_call (readings : Readings) (single : Call) :
    Confined (Within config.keyspace) s (single.run config readings s).2 := by
  cases single with
  | put key value collection ttl => exact confined_put s readings _ _ _ _
  | delete key collection => exact confined_delete s readings _ _
  | compareAndSwap key expected value collection ttl =>
      simp only [Call.run, RedisStore.compareAndSwap]
      split
      · exact Confined.refl s
      · exact confined_invoke s (keeps_compareAndSwapScript
          (within_scope _ _) (within_scope _ collectionRegistryKey) _ _ _ _ _)
  | compareAndDelete key expected collection =>
      exact confined_invoke s
        (keeps_compareAndDeleteScript (within_scope _ _) _ _)
  | destroyCollection collection scanned =>
      exact confined_destroyLoop s _ _ _

/-- Every operation of a store on a non-empty keyspace touches only keys of
the keyspace. -/
theorem confined_after (h : config.keyspace.isEmpty = false)
    (operation : Operation) :
    Confined (Within config.keyspace) s (operation.after config s) := by
  cases operation with
  | call single readings => exact confined_call s readings single
  | get now key collection => exact confined_invoke s (keeps_get _)
  | ttl now key collection => exact confined_invoke s (keeps_get _)
  | getWithRevision now key collection =>
      exact confined_invoke s (keeps_get _)
  | getMany now keys collection => exact confined_invoke s (keeps_mget _)
  | ttlMany now keys collection => exact confined_invoke s (keeps_mget _)
  | putMany readings validated keys values collection seconds =>
      simp only [Operation.after, RedisStore.putMany]
      split
      · exact Confined.refl s
      · split
        · exact Confined.refl s
        · exact confined_putLoop s _ _ _ _ _
  | deleteMany readings keys collection =>
      exact confined_deleteLoop s _ _ _ _ _
  | collections limit pages => exact confined_collections s limit pages
  | destroyCollection collection pages =>
      exact confined_destroyLoop s _ _ _
  | destroy pages =>
      simp only [Operation.after, RedisStore.destroy, h]
      exact confined_invoke s
        (keeps_deletePages (fun _ => within_of_scanPattern) pages)

end Operations

/-- For any two non-empty keyspaces, no key of one is a key of the other or
matches a pattern of it, and no operation of a store on one changes a key of
the other; within a keyspace no entry has the key of the counter, the stream
or the registry. -/
theorem keyspaces_isolated (a b : Subspace) (ha : a.isEmpty = false)
    (hb : b.isEmpty = false) (hne : a ≠ b) :
    (∀ key, PhysicalKey a key →
      ¬ PhysicalKey b key ∧
        Glob.globMatch (scanPattern b.frame) key = false ∧
        ∀ collection, Glob.globMatch (collectionScanPattern b collection)
          key = false) ∧
    (∀ (config : RedisConfig) (operation : Operation) (s : Server),
      config.keyspace = a → ∀ key, PhysicalKey b key →
        (operation.after config s).find key = s.find key ∧
          (operation.after config s).objects.lookup key =
            s.objects.lookup key) ∧
    (∀ collection key,
      isInternalKey a (subspaceCompoundKey a collection key) = false) := by
  refine ⟨?_, ?_, ?_⟩
  · intro key hkey
    have houtside : ¬ Within b key :=
      not_within_of_ne hb ha hne.symm hkey.within
    refine ⟨fun hb => houtside hb.within, ?_, fun collection => ?_⟩
    · apply Bool.eq_false_iff.mpr
      exact fun hmatch => houtside (within_of_scanPattern hmatch)
    · apply Bool.eq_false_iff.mpr
      intro hmatch
      obtain ⟨suffix, rfl⟩ := matches_collection_iff.mp hmatch
      exact houtside (PhysicalKey.entry collection suffix).within
  · rintro config operation s rfl key hkey
    have hconfined := confined_after s ha operation
    have houtside := not_within_of_ne ha hb hne hkey.within
    exact ⟨hconfined.find houtside, hconfined.2 key houtside⟩
  · intro collection key
    have hstream := entryKey_ne_streamKey a collection key
    have hrevision := entryKey_ne_revisionKey a collection key
    have hregistry := entryKey_ne_registryKey a collection key
    rw [streamKey] at hstream
    rw [revisionKey] at hrevision
    rw [registryKey] at hregistry
    simp [isInternalKey, hstream, hrevision, hregistry]

def neighbour : Server :=
  (Server.empty 0).store (subspaceCompoundKey ⟨"1"⟩ "c" "k")
    ⟨.string [7], none⟩

theorem neighbour_survives_destroy :
    ((Operation.destroy [[subspaceCompoundKey ⟨"1"⟩ "c" "k"]]).after
        ⟨"default_collection", ⟨"*"⟩, 10000⟩ neighbour).find
          (subspaceCompoundKey ⟨"1"⟩ "c" "k") =
      some ⟨.string [7], none⟩ := by
  have hisolated := keyspaces_isolated ⟨"*"⟩ ⟨"1"⟩ (by decide) (by decide)
    (by decide)
  have hkept := hisolated.2.1 ⟨"default_collection", ⟨"*"⟩, 10000⟩
    (.destroy [[subspaceCompoundKey ⟨"1"⟩ "c" "k"]]) neighbour rfl _
    (.entry "c" "k")
  rw [hkept.1]
  simp [neighbour]

end OpenKeyV.Redis
