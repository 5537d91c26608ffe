import OpenKeyV.Redis.Destruction

/-!
# The registry of collections

The scripts that write an entry add its collection to a set; no script takes a
name out of it.  `collections` returns the members of the set.
-/

namespace OpenKeyV.Redis

open Library Program

def Server.registered (s : Server) (keyspace : Subspace) : List String :=
  match s.find (registryKey keyspace) with
  | some ⟨.set members, _⟩ => members
  | _ => []

def Server.Occupied (s : Server) (keyspace : Subspace) (name : String) :
    Prop :=
  ∃ key, (s.entry keyspace name key).isSome = true

structure Kept (keyspace : Subspace) (s s' : Server) : Prop where
  registered : s'.registered keyspace = s.registered keyspace
  entry : ∀ name key, (s'.entry keyspace name key).isSome = true →
    (s.entry keyspace name key).isSome = true

/-- An entry of a collection is written, and the collection registered. -/
structure Wrote (keyspace : Subspace) (name : String) (s s' : Server) :
    Prop where
  registered : s'.registered keyspace = (s.registered keyspace).insert name
  occupied : s'.Occupied keyspace name
  entry : ∀ other, other ≠ name → ∀ key,
    s'.entry keyspace other key = s.entry keyspace other key

inductive Effect (keyspace : Subspace) (s s' : Server) : Prop where
  | kept : Kept keyspace s s' → Effect keyspace s s'
  | wrote (name : String) : Wrote keyspace name s s' → Effect keyspace s s'

section Kept

variable {keyspace : Subspace} {s s' : Server}

theorem Kept.refl (s : Server) : Kept keyspace s s := ⟨rfl, fun _ _ h => h⟩

theorem Kept.trans (a b c : Server) (hab : Kept keyspace a b)
    (hbc : Kept keyspace b c) : Kept keyspace a c :=
  ⟨hbc.registered.trans hab.registered,
    fun name key h => hab.entry name key (hbc.entry name key h)⟩

def Recording (keyspace : Subspace) (key : String) : Prop :=
  key = revisionKey keyspace ∨ key = streamKey keyspace

theorem registered_confined {p : String → Prop} (h : Confined p s s')
    (hp : ¬ p (registryKey keyspace)) :
    s'.registered keyspace = s.registered keyspace := by
  rw [Server.registered, h.find hp, Server.registered]

theorem Recording.entry (h : Confined (Recording keyspace) s s')
    (name key : String) :
    s'.entry keyspace name key = s.entry keyspace name key :=
  h.find (by rintro (h | h) <;> simp at h)

theorem Recording.registered (h : Confined (Recording keyspace) s s') :
    s'.registered keyspace = s.registered keyspace :=
  registered_confined h (by rintro (h | h) <;> simp at h)

theorem kept_recording (s s' : Server)
    (h : Confined (Recording keyspace) s s') : Kept keyspace s s' :=
  ⟨Recording.registered h, fun name key hsome => by
    rwa [Recording.entry h] at hsome⟩

theorem keeps_kept_del {key : String} (h : registryKey keyspace ≠ key) :
    Keeps (Kept keyspace) (del key) := by
  intro s
  simp only [del, eval_ofFn]
  constructor
  · rw [Server.registered, Server.find_remove, if_neg h, Server.registered]
  · intro name other hsome
    rw [Server.entry, Server.find_remove] at hsome
    split at hsome
    · cases hsome
    · exact hsome

theorem Wrote.congr {name : String} {s₀ s₁ s₂ s₃ : Server}
    (h : Wrote keyspace name s₁ s₂)
    (hbefore : Confined (Recording keyspace) s₀ s₁)
    (hbehind : Confined (Recording keyspace) s₂ s₃) :
    Wrote keyspace name s₀ s₃ := by
  constructor
  · rw [Recording.registered hbehind, h.registered,
      Recording.registered hbefore]
  · obtain ⟨key, hsome⟩ := h.occupied
    exact ⟨key, by rwa [Recording.entry hbehind]⟩
  · intro other hother key
    rw [Recording.entry hbehind, h.entry other hother key,
      Recording.entry hbefore]

end Kept

/-! ## Writing an entry -/

section Writing

variable {keyspace : Subspace} {s : Server}

theorem registered_store (members : List String) :
    (s.store (registryKey keyspace) ⟨.set members, none⟩).registered
      keyspace = members := by
  simp [Server.registered]

theorem eval_sadd_registered (h : s.HoldsSet (registryKey keyspace))
    (name : String) :
    eval (sadd (registryKey keyspace) name) s =
      (.ok (), s.store (registryKey keyspace)
        ⟨.set ((s.registered keyspace).insert name), none⟩) := by
  rcases h with h | ⟨members, h⟩ <;> simp [sadd, Server.registered, h]

theorem wrote_entry (h : Typed keyspace s) (name key : String)
    (envelope : Bytes) (milliseconds : Nat) :
    ∃ s₁ s₂, eval (writeEnvelope (subspaceCompoundKey keyspace name key)
          envelope milliseconds) s = (.ok (), s₁) ∧
      eval (sadd (registryKey keyspace) name) s₁ = (.ok (), s₂) ∧
      Wrote keyspace name s s₂ := by
  obtain ⟨deadline, hlive, heval⟩ : ∃ deadline,
      Slot.live s.clock ⟨.string envelope, deadline⟩ = true ∧
        eval (writeEnvelope (subspaceCompoundKey keyspace name key) envelope
          milliseconds) s =
        (.ok (), s.store (subspaceCompoundKey keyspace name key)
          ⟨.string envelope, deadline⟩) := by
    unfold writeEnvelope
    split
    · exact ⟨none, rfl, rfl⟩
    · refine ⟨some (s.clock + milliseconds), ?_, rfl⟩
      simp only [Slot.live, decide_eq_true_eq]
      omega
  have htyped := h.store (fitting_entry keyspace name key envelope deadline)
  have hregistered : (s.store (subspaceCompoundKey keyspace name key)
      ⟨.string envelope, deadline⟩).registered keyspace =
        s.registered keyspace := by
    simp [Server.registered]
  refine ⟨_, _, heval, eval_sadd_registered htyped.registry name, ?_⟩
  rw [hregistered]
  refine ⟨registered_store _, ⟨key, ?_⟩, fun other hother key' => ?_⟩
  · rw [entry_store_registry, Server.entry, Server.find_store, if_pos rfl,
      Option.filter_some, if_pos hlive]
    rfl
  · have hne : subspaceCompoundKey keyspace other key' ≠
        subspaceCompoundKey keyspace name key :=
      fun hsame => hother (subspaceCompoundKey_inj.mp hsame).1
    rw [entry_store_registry, Server.entry, Server.find_store, if_neg hne,
      Server.entry]

end Writing

/-! ## Scripts -/

section Scripts

variable {keyspace : Subspace} {s : Server}

theorem recording_incr :
    Keeps (Confined (Recording keyspace)) (incr (revisionKey keyspace)) :=
  keeps_incr (.inl rfl)

theorem recording_appendChange (retention revision : Nat)
    (collection key : String) (operation : ChangeOperation)
    (occurredAt : String) :
    Keeps (Confined (Recording keyspace)) (appendChange (streamKey keyspace)
      retention revision collection key operation occurredAt) :=
  keeps_appendChange (.inr rfl) _ _ _ _ _ _

theorem effect_put (h : Typed keyspace s) (collection key : String)
    (envelope : Bytes) (milliseconds : Nat) (occurredAt : String)
    (retention : Nat) :
    Effect keyspace s (eval (putChangeScript
      (subspaceCompoundKey keyspace collection key) (revisionKey keyspace)
      (streamKey keyspace) (registryKey keyspace) envelope milliseconds
      collection key occurredAt retention) s).2 := by
  have hincr := @recording_incr keyspace s
  have htyped := @keepsTyped_incr keyspace s h
  simp only [putChangeScript, eval_bind]
  rcases heval : eval (incr (revisionKey keyspace)) s with ⟨r, s₁⟩
  rw [heval] at hincr htyped
  cases r with
  | error error => exact .kept (kept_recording _ _ hincr)
  | ok revision =>
      obtain ⟨s₂, s₃, hset, hsadd, hwrote⟩ :=
        wrote_entry htyped collection key envelope milliseconds
      have happend := @recording_appendChange keyspace retention revision
        collection key .put occurredAt s₃
      simp only [resume_ok, eval_bind, hset, hsadd]
      rcases heval : eval (appendChange (streamKey keyspace) retention
        revision collection key .put occurredAt) s₃ with ⟨r, s₄⟩
      rw [heval] at happend
      cases r <;> exact .wrote collection (hwrote.congr hincr happend)

theorem kept_delete (identity collection key : String) (retention : Nat)
    (occurredAt : String) (hidentity : registryKey keyspace ≠ identity) :
    Keeps (Kept keyspace) (deleteChangeScript identity (revisionKey keyspace)
      (streamKey keyspace) collection key retention occurredAt) := by
  apply Keeps.bind Kept.trans (fun s => Kept.refl s)
  intro present
  cases present with
  | false => exact keeps_pure Kept.refl _
  | true =>
      apply Keeps.bind Kept.trans (keeps_kept_del hidentity)
      intro _
      apply Keeps.bind Kept.trans (recording_incr.mono kept_recording)
      intro revision
      apply Keeps.bind Kept.trans
        ((recording_appendChange _ _ _ _ _ _).mono kept_recording)
      intro _
      exact keeps_pure Kept.refl _

theorem effect_compareAndSwap (h : Typed keyspace s) (collection key : String)
    (expected envelope : Bytes) (milliseconds prefixLen : Nat) :
    Effect keyspace s (eval (compareAndSwapScript
      (subspaceCompoundKey keyspace collection key) (registryKey keyspace)
      expected envelope milliseconds prefixLen collection) s).2 := by
  obtain ⟨s₁, s₂, hset, hsadd, hwrote⟩ :=
    wrote_entry h collection key envelope milliseconds
  have hwrite : Effect keyspace s (eval (do
      writeEnvelope (subspaceCompoundKey keyspace collection key) envelope
        milliseconds
      sadd (registryKey keyspace) collection
      return [RedisValue.int 1, .bulkString []]) s).2 := by
    simp only [eval_bind, hset, resume_ok, hsadd]
    exact .wrote collection hwrote
  have hkept : Effect keyspace s s := .kept (.refl s)
  have hget : (eval (get (subspaceCompoundKey keyspace collection key)) s).2 =
      s := by
    simp only [get, eval_ofFn]
    split <;> rfl
  simp only [compareAndSwapScript, eval_bind]
  rcases heval : eval (get (subspaceCompoundKey keyspace collection key)) s
    with ⟨r, s'⟩
  rw [heval] at hget
  obtain rfl : s' = s := hget
  rcases r with error | _ | value
  · exact hkept
  · rw [resume_ok]
    dsimp only
    split
    · exact hwrite
    · exact hkept
  · rw [resume_ok]
    dsimp only
    split
    · exact hkept
    · split
      · exact hkept
      · exact hwrite

theorem kept_compareAndDelete (identity : String) (expected : Bytes)
    (prefixLen : Nat) (hidentity : registryKey keyspace ≠ identity) :
    Keeps (Kept keyspace)
      (compareAndDeleteScript identity expected prefixLen) := by
  have hget : Keeps (Kept keyspace) (get identity) := by
    intro s
    simp only [get, eval_ofFn]
    split <;> exact Kept.refl s
  apply Keeps.bind Kept.trans hget
  intro value
  cases value with
  | none => exact keeps_pure Kept.refl _
  | some value =>
      dsimp only
      split
      · exact keeps_pure Kept.refl _
      · split
        · exact keeps_pure Kept.refl _
        · apply Keeps.bind Kept.trans (keeps_kept_del hidentity)
          intro _
          exact keeps_pure Kept.refl _

theorem kept_destroyCollection {config : RedisConfig}
    (h : Typed config.keyspace s) (collection : String)
    (scanned : List (DateTime × List String)) :
    Kept config.keyspace s
      (RedisStore.destroyCollection config collection scanned s).2 := by
  unfold RedisStore.destroyCollection
  by_cases hsize : collection.utf8ByteSize < 2 ^ 64
  · have hconfined := @confined_sweep config collection hsize scanned false s
    obtain ⟨r, s', dropped, heval, hsweep, -⟩ :=
      @sweep_loop config collection hsize scanned false s h
    rw [heval] at hconfined ⊢
    constructor
    · refine registered_confined hconfined ?_
      rintro (⟨key, h⟩ | h | h) <;> simp at h
    · intro name key hsome
      by_cases hname : name = collection
      · rw [hname] at hsome ⊢
        rw [hsweep.entry] at hsome
        split at hsome
        · cases hsome
        · exact hsome
      · have houtside : ¬ Touched config.keyspace collection
            (subspaceCompoundKey config.keyspace name key) := by
          rintro (⟨key', h⟩ | h | h)
          · exact hname (subspaceCompoundKey_inj.mp h).1
          · simp at h
          · simp at h
        rwa [Server.entry, hconfined.find houtside] at hsome
  · rw [destroyLoop_long hsize]
    exact .refl s

theorem effect_call (config : RedisConfig) (readings : Readings) (call : Call)
    (h : Typed config.keyspace s) :
    Effect config.keyspace s (call.run config readings s).2 := by
  cases call with
  | put key value collection ttl =>
      simp only [Call.run, RedisStore.put]
      split
      · exact .kept (.refl s)
      · exact effect_put h _ _ _ _ _ _
  | delete key collection =>
      exact .kept (kept_delete _ _ _ _ _ (by simp) s)
  | compareAndSwap key expected value collection ttl =>
      simp only [Call.run, RedisStore.compareAndSwap]
      split
      · exact .kept (.refl s)
      · exact effect_compareAndSwap h _ _ _ _ _ _
  | compareAndDelete key expected collection =>
      exact .kept (kept_compareAndDelete _ _ _ (by simp) s)
  | destroyCollection collection scanned =>
      exact .kept (kept_destroyCollection h collection scanned)

theorem effect_step {s' : Server} {label : Label} (h : Typed keyspace s)
    (hstep : step keyspace s label = some s') : Effect keyspace s s' := by
  cases label with
  | call defaultCollection changeRetention readings call =>
      cases hstep
      exact effect_call ⟨defaultCollection, keyspace, changeRetention⟩ readings
        call h
  | tick milliseconds =>
      cases hstep
      have hle : s.clock ≤ s.clock + (milliseconds : Int) := by omega
      refine .kept ⟨?_, fun name key hsome => ?_⟩
      · rw [Server.registered, Server.find_tick s _ hle, Server.registered]
        rcases h.registry with hfind | ⟨members, hfind⟩ <;> simp [hfind]
      · rw [Server.entry, Server.find_tick s _ hle] at hsome
        obtain ⟨slot, hslot⟩ := Option.isSome_iff_exists.mp hsome
        exact Option.isSome_iff_exists.mpr
          ⟨slot, (Option.filter_eq_some_iff.mp hslot).1⟩

end Scripts

/-! ## Stores on one keyspace -/

/-- A call of some store on the keyspace or passing time, or a `collections`
call with the pages of its `SCAN`. -/
inductive Request where
  | call (label : Label)
  | collections (config : RedisConfig) (limit : Option Nat)
      (pages : List (List String))

def request (keyspace : Subspace) (s : Server) : Request → Option Server
  | .call label => step keyspace s label
  | .collections config limit pages =>
      if config.keyspace = keyspace ∧
          ∀ page ∈ pages, ∀ identity ∈ page, (s.find identity).isSome = true
      then some (RedisStore.collections config limit pages s).2
      else none

/-- What every state of the keyspace satisfies. -/
structure RegistryInvariant (keyspace : Subspace) (s : Server) : Prop where
  typed : Typed keyspace s
  nodup : (s.registered keyspace).Nodup
  occupied : ∀ name, s.Occupied keyspace name → name ∈ s.registered keyspace
  physical : ∀ key, (s.find key).isSome = true → PhysicalKey keyspace key

/-- `SMEMBERS` returns the members in any order. -/
def Reordered (keyspace : Subspace) (s s' : Server) : Prop :=
  s' = s ∨ ∃ members order,
    s.find (registryKey keyspace) = some ⟨.set members, none⟩ ∧
      order.Perm members ∧
      s' = s.store (registryKey keyspace) ⟨.set order, none⟩

/-- `collections` returns the names of the collections that have a key, or
10,000 of them. -/
def ListsCollections (keyspace : Subspace) (s : Server) : Prop :=
  ∀ config s' pages, config.keyspace = keyspace → Reordered keyspace s s' →
    Scans s' "*" pages →
    ∃ names, (RedisStore.collections config none pages s').1 = .ok names ∧
      names.Nodup ∧ names.length ≤ 10000 ∧
      (∀ name ∈ names, s.Occupied keyspace name) ∧
      (names.length < 10000 → ∀ name, s.Occupied keyspace name → name ∈ names)

section RegistryInvariant

variable {keyspace : Subspace} {s s' : Server}

theorem Effect.registered_subset (h : Effect keyspace s s') :
    s.registered keyspace ⊆ s'.registered keyspace := by
  intro name hname
  cases h with
  | kept h => rwa [h.registered]
  | wrote other h =>
      rw [h.registered]
      exact List.mem_insert_of_mem hname

theorem Effect.of_registered (h : Effect keyspace s s') {name : String}
    (hname : name ∈ s'.registered keyspace) :
    name ∈ s.registered keyspace ∨ s'.Occupied keyspace name := by
  cases h with
  | kept h => exact .inl (h.registered ▸ hname)
  | wrote other h =>
      rw [h.registered] at hname
      rcases List.mem_insert_iff.mp hname with rfl | hname
      · exact .inr h.occupied
      · exact .inl hname

theorem Effect.nodup (h : Effect keyspace s s')
    (hnodup : (s.registered keyspace).Nodup) :
    (s'.registered keyspace).Nodup := by
  cases h with
  | kept h => rwa [h.registered]
  | wrote other h =>
      rw [h.registered]
      exact hnodup.insert

theorem Effect.occupied (h : Effect keyspace s s')
    (hoccupied : ∀ name, s.Occupied keyspace name →
      name ∈ s.registered keyspace) (name : String)
    (hname : s'.Occupied keyspace name) : name ∈ s'.registered keyspace := by
  cases h with
  | kept h =>
      obtain ⟨key, hsome⟩ := hname
      rw [h.registered]
      exact hoccupied name ⟨key, h.entry name key hsome⟩
  | wrote other h =>
      rw [h.registered]
      by_cases hother : name = other
      · exact List.mem_insert_iff.mpr (.inl hother)
      · obtain ⟨key, hsome⟩ := hname
        rw [h.entry name hother] at hsome
        exact List.mem_insert_of_mem (hoccupied name ⟨key, hsome⟩)

theorem registryInvariant_empty (keyspace : Subspace) (clock : Int) :
    RegistryInvariant keyspace (.empty clock) :=
  ⟨typed_empty clock, List.nodup_nil,
    fun name ⟨key, h⟩ => by simp [Server.entry] at h,
    fun key h => by simp at h⟩

theorem physical_confined (h : Confined (PhysicalKey keyspace) s s')
    (hphysical : ∀ key, (s.find key).isSome = true →
      PhysicalKey keyspace key) (key : String)
    (hsome : (s'.find key).isSome = true) : PhysicalKey keyspace key := by
  by_contra hkey
  rw [h.find hkey] at hsome
  exact hkey (hphysical key hsome)

theorem physical_call (config : RedisConfig) (readings : Readings)
    (call : Call) (s : Server) :
    Confined (PhysicalKey config.keyspace) s
      (call.run config readings s).2 := by
  cases call with
  | put key value collection ttl =>
      simp only [Call.run, RedisStore.put]
      split
      · exact Confined.refl s
      · exact confined_invoke s (keeps_putChangeScript (.entry _ _) .revision
          .stream .registry _ _ _ _ _ _)
  | delete key collection =>
      exact confined_invoke s (keeps_deleteChangeScript (.entry _ _) .revision
        .stream _ _ _ _)
  | compareAndSwap key expected value collection ttl =>
      simp only [Call.run, RedisStore.compareAndSwap]
      split
      · exact Confined.refl s
      · exact confined_invoke s (keeps_compareAndSwapScript (.entry _ _)
          .registry _ _ _ _ _)
  | compareAndDelete key expected collection =>
      exact confined_invoke s (keeps_compareAndDeleteScript (.entry _ _) _ _)
  | destroyCollection collection scanned =>
      simp only [Call.run, RedisStore.destroyCollection]
      by_cases hsize : collection.utf8ByteSize < 2 ^ 64
      · refine (confined_sweep hsize scanned false s).imp id fun h key hkey =>
          h key fun htouched => hkey ?_
        rcases htouched with ⟨name, rfl⟩ | rfl | rfl
        · exact .entry collection name
        · exact .revision
        · exact .stream
      · rw [destroyLoop_long hsize]
        exact Confined.refl s

theorem collectCollections_physical {config : RedisConfig}
    (hempty : ∀ name key, s.entry config.keyspace name key = none)
    (hphysical : ∀ key, (s.find key).isSome = true →
      PhysicalKey config.keyspace key) (identities : List String)
    (hscanned : ∀ identity ∈ identities, (s.find identity).isSome = true) :
    RedisStore.collectCollections config identities [] = .ok [] := by
  induction identities with
  | nil => rfl
  | cons identity identities ih =>
      have hsome := hscanned identity (List.mem_cons_self ..)
      have hinternal : isInternalKey config.keyspace identity = true := by
        cases hphysical identity hsome with
        | entry name key =>
            have hnone := hempty name key
            rw [Server.entry] at hnone
            rw [hnone] at hsome
            cases hsome
        | revision => simp [isInternalKey, revisionKey]
        | stream => simp [isInternalKey, streamKey]
        | registry => simp [isInternalKey, registryKey]
      rw [RedisStore.collectCollections, if_pos hinternal]
      exact ih fun identity h => hscanned identity (List.mem_cons_of_mem _ h)

theorem collections_eq {config : RedisConfig}
    (h : RegistryInvariant config.keyspace s) (pages : List (List String))
    (hscanned : ∀ page ∈ pages, ∀ identity ∈ page,
      (s.find identity).isSome = true) (limit : Option Nat) :
    RedisStore.collections config limit pages s =
      (.ok ((s.registered config.keyspace).take (pageLimit limit)), s) := by
  unfold RedisStore.collections
  by_cases hlimit : pageLimit limit = 0
  · simp [hlimit]
  simp only [hlimit, if_false, invoke, existsKey, eval_ofFn, smembers,
    Except.mapError]
  rcases h.typed.registry with hfind | ⟨members, hfind⟩
  · have hregistered : s.registered config.keyspace = [] := by
      rw [Server.registered, hfind]
    have hempty : ∀ name key, s.entry config.keyspace name key = none := by
      intro name key
      by_contra hsome
      have hname := h.occupied name ⟨key, Option.isSome_iff_ne_none.mpr hsome⟩
      rw [hregistered] at hname
      cases hname
    have hcollected := collectCollections_physical hempty h.physical
      (scanMatch "*" pages.flatten) fun identity hmem => by
        obtain ⟨page, hpage, hmem⟩ :=
          List.mem_flatten.mp (List.mem_filter.mp hmem).1
        exact hscanned page hpage identity hmem
    simp only [hfind, Option.isSome_none, hcollected, hregistered,
      List.take_nil, RedisStore.registerAll, eval_pure, Except.map]
    split <;> rfl
  · have hregistered : s.registered config.keyspace = members := by
      rw [Server.registered, hfind]
    simp only [hfind, Option.isSome_some, hregistered, Except.map]

theorem RegistryInvariant.request {q : Request} (h : RegistryInvariant keyspace s)
    (hstep : request keyspace s q = some s') :
    RegistryInvariant keyspace s' ∧ Effect keyspace s s' := by
  cases q with
  | call label =>
      have heffect := effect_step h.typed hstep
      refine ⟨⟨typed_command (c := .call label) h.typed hstep,
        heffect.nodup h.nodup, heffect.occupied h.occupied, ?_⟩, heffect⟩
      cases label with
      | call defaultCollection changeRetention readings call =>
          cases hstep
          exact physical_confined (physical_call ⟨defaultCollection, keyspace,
            changeRetention⟩ readings call s) h.physical
      | tick milliseconds =>
          cases hstep
          intro key hsome
          rw [Server.find_tick s key (by omega)] at hsome
          obtain ⟨slot, hslot⟩ := Option.isSome_iff_exists.mp hsome
          exact h.physical key (Option.isSome_iff_exists.mpr
            ⟨slot, (Option.filter_eq_some_iff.mp hslot).1⟩)
  | collections config limit pages =>
      simp only [Redis.request] at hstep
      split at hstep
      · rename_i hvalid
        obtain ⟨rfl, hscanned⟩ := hvalid
        rw [collections_eq h pages hscanned] at hstep
        cases hstep
        exact ⟨h, .kept (.refl s)⟩
      · cases hstep

theorem RegistryInvariant.reordered (h : RegistryInvariant keyspace s)
    (hreordered : Reordered keyspace s s') :
    RegistryInvariant keyspace s' ∧
      (s'.registered keyspace).Perm (s.registered keyspace) ∧
      ∀ name key, s'.entry keyspace name key = s.entry keyspace name key := by
  rcases hreordered with rfl | ⟨members, order, hfind, hperm, rfl⟩
  · exact ⟨h, .refl _, fun _ _ => rfl⟩
  · have hregistered : s.registered keyspace = members := by
      rw [Server.registered, hfind]
    have hentry : ∀ name key,
        (s.store (registryKey keyspace) ⟨.set order, none⟩).entry keyspace
          name key = s.entry keyspace name key := by simp
    refine ⟨⟨h.typed.store (fitting_registry keyspace order), ?_, ?_, ?_⟩, ?_,
      hentry⟩
    · rw [registered_store]
      exact hperm.nodup_iff.mpr (hregistered ▸ h.nodup)
    · rintro name ⟨key, hsome⟩
      rw [hentry] at hsome
      rw [registered_store, hperm.mem_iff, ← hregistered]
      exact h.occupied name ⟨key, hsome⟩
    · exact physical_confined (Confined.store .registry s _) h.physical
    · rw [registered_store, hregistered]
      exact hperm

theorem scans_keys (s : Server) (pattern : String) :
    Scans s pattern
      [s.objects.keys.filter fun identity => (s.find identity).isSome] := by
  constructor
  · intro page hpage identity hmem
    rw [List.mem_singleton] at hpage
    rw [hpage] at hmem
    exact (List.mem_filter.mp hmem).2
  · intro identity hsome _
    refine ⟨_, List.mem_singleton_self _, List.mem_filter.mpr ⟨?_, hsome⟩⟩
    obtain ⟨slot, hslot⟩ := Option.isSome_iff_exists.mp hsome
    exact KeyedMap.mem_keys_iff.mpr
      ⟨slot, (Option.filter_eq_some_iff.mp hslot).1⟩

theorem listsCollections_iff (h : RegistryInvariant keyspace s) :
    ListsCollections keyspace s ↔
      ∀ name ∈ s.registered keyspace, s.Occupied keyspace name := by
  constructor
  · intro hlists name hname
    obtain ⟨members, hfind⟩ : ∃ members,
        s.find (registryKey keyspace) = some ⟨.set members, none⟩ := by
      refine h.typed.registry.resolve_left fun hnone => ?_
      rw [Server.registered, hnone] at hname
      cases hname
    have hregistered : s.registered keyspace = members := by
      rw [Server.registered, hfind]
    rw [hregistered] at hname
    have hreordered : Reordered keyspace s (s.store (registryKey keyspace)
        ⟨.set (name :: members.erase name), none⟩) :=
      .inr ⟨members, _, hfind, (List.perm_cons_erase hname).symm, rfl⟩
    have hscans := scans_keys (s.store (registryKey keyspace)
      ⟨.set (name :: members.erase name), none⟩) "*"
    obtain ⟨names, heval, -, -, honly, -⟩ :=
      hlists ⟨"", keyspace, 0⟩ _ _ rfl hreordered hscans
    rw [collections_eq (h.reordered hreordered).1 _ hscans.1] at heval
    refine honly name ?_
    rw [← Except.ok.inj heval]
    dsimp only
    rw [registered_store]
    exact List.mem_cons_self
  · rintro hoccupied config s' pages rfl hreordered hscans
    obtain ⟨hinvariant, hperm, hentry⟩ := h.reordered hreordered
    refine ⟨(s'.registered config.keyspace).take 10000, ?_, ?_, ?_, ?_, ?_⟩
    · rw [collections_eq hinvariant pages hscans.1]
      rfl
    · exact hinvariant.nodup.sublist (List.take_sublist _ _)
    · exact List.length_take_le _ _
    · intro name hname
      exact hoccupied name (hperm.mem_iff.mp (List.mem_of_mem_take hname))
    · intro hlength name hname
      rw [List.length_take] at hlength
      rw [List.take_of_length_le (by omega)]
      exact hperm.mem_iff.mpr (h.occupied name hname)

/-- Where the list is right, a step leaves it right exactly if it takes no
collection its last key. -/
theorem request_keeps_iff (q : Request) (h : RegistryInvariant keyspace s)
    (hlists : ListsCollections keyspace s) :
    (∀ s', request keyspace s q = some s' →
        RegistryInvariant keyspace s' ∧ ListsCollections keyspace s') ↔
      ∀ s', request keyspace s q = some s' → ∀ name,
        s.Occupied keyspace name → s'.Occupied keyspace name := by
  refine forall₂_congr fun s' hstep => ?_
  obtain ⟨hinvariant, heffect⟩ := h.request hstep
  rw [and_iff_right hinvariant, listsCollections_iff hinvariant]
  rw [listsCollections_iff h] at hlists
  constructor
  · intro hoccupied name hname
    exact hoccupied name (heffect.registered_subset (h.occupied name hname))
  · intro hkeeps name hname
    rcases heffect.of_registered hname with hbefore | hafter
    · exact hkeeps name (hlists name hbefore)
    · exact hafter

end RegistryInvariant

/-- Over any run of calls of stores on one keyspace, `collections` is exact in
every state exactly if no step takes a collection its last key. -/
theorem collections_exact_iff_none_emptied (keyspace : Subspace) (clock : Int)
    (requests : List Request) :
    Along (request keyspace) (fun s q => ∀ s', request keyspace s q = some s' →
        ListsCollections keyspace s') (.empty clock) requests ↔
      Along (request keyspace) (fun s q => ∀ s',
        request keyspace s q = some s' → ∀ name,
          s.Occupied keyspace name → s'.Occupied keyspace name)
        (.empty clock) requests := by
  have hstart := registryInvariant_empty keyspace clock
  have hlists : ListsCollections keyspace (.empty clock) :=
    (listsCollections_iff hstart).mpr fun name h => by
      simp [Server.registered] at h
  rw [← along_keeps_iff
    (P := fun s => RegistryInvariant keyspace s ∧ ListsCollections keyspace s)
    (fun s q h => request_keeps_iff q h.1 h.2) ⟨hstart, hlists⟩]
  refine @along_congr _ _ (request keyspace) (RegistryInvariant keyspace)
    (fun _ => True) _ _ (fun s q s' h _ hstep => (h.request hstep).1) ?_ _ _
    hstart fun _ _ => trivial
  intro s q h _
  refine forall₂_congr fun s' hstep => ?_
  exact (and_iff_right (h.request hstep).1).symm

def putOne : Request :=
  .call (.call "default" 10 sampleReadings
    (.put "k" (.binary [1]) (some "c") none))

def destroyOne : Request :=
  .call (.call "default" 10 sampleReadings
    (.destroyCollection "c" [(.epoch, ["k"])]))

def emptied : Server :=
  ((Call.destroyCollection "c" [(.epoch, ["k"])]).run sampleConfig
    sampleReadings oneKey).2

theorem destroyed_collection_is_listed :
    ¬ ∀ (keyspace : Subspace) (clock : Int) (requests : List Request)
      (s : Server), run (request keyspace) (.empty clock) requests = some s →
      ListsCollections keyspace s := by
  intro h
  have hlists := h sampleConfig.keyspace 0 [putOne, destroyOne] emptied rfl
  have hone : RegistryInvariant sampleConfig.keyspace oneKey :=
    (@RegistryInvariant.request _ _ _ putOne
      (registryInvariant_empty sampleConfig.keyspace 0) rfl).1
  have hinvariant : RegistryInvariant sampleConfig.keyspace emptied :=
    (@RegistryInvariant.request _ _ _ destroyOne hone rfl).1
  have hregistered : emptied.registered sampleConfig.keyspace = ["c"] := by
    decide +kernel
  have hkeys : logicalKeys emptied sampleConfig.keyspace "c" = [] := by
    decide +kernel
  obtain ⟨key, hsome⟩ := (listsCollections_iff hinvariant).mp hlists "c"
    (hregistered ▸ List.mem_cons_self)
  have hkey := mem_logicalKeys.mpr hsome
  rw [hkeys] at hkey
  cases hkey

end OpenKeyV.Redis
