import OpenKeyV.Redis.Store
import OpenKeyV.Library.Machine
import Mathlib.Data.List.Dedup
import Mathlib.Data.List.Perm.Subperm

/-!
# Which calls the Redis change stream records

The unconditional scripts append one record for each entry that they write or
remove.  The conditional scripts touch neither the counter nor the stream, so
a successful `compare_and_swap` or `compare_and_delete` leaves no record.
-/

namespace OpenKeyV.Redis

open Library Program RedisStore

def StreamEntry.summary (entry : StreamEntry) :
    Option String × Option String × Option String :=
  (entry.get "operation", entry.get "collection", entry.get "key")

def mutation (operation : ChangeOperation) (collection key : String) :
    Option String × Option String × Option String :=
  (some operation.text, some collection, some key)

@[simp] theorem summary_changeEntry (revision : Nat) (collection key : String)
    (operation : ChangeOperation) (occurredAt : String) :
    (changeEntry revision collection key operation occurredAt).summary =
      mutation operation collection key := rfl

/-! ## Bulk removal -/

/-- What a bulk removal of `keys` did: `dropped` are gone, `done` of them
recorded.  It stops at the first record that `XADD` refuses. -/
structure Removal (keyspace : Subspace) (retention : Nat) (collection : String)
    (s s' : Server) (keys : List String) (ok : Bool)
    (done dropped : List String) : Prop where
  wellTyped : WellTyped keyspace s'
  nodup : dropped.Nodup
  present : ∀ key ∈ dropped,
    key ∈ keys ∧ (s.entry keyspace collection key).isSome
  all : ok = true → ∀ key ∈ keys, (s.entry keyspace collection key).isSome →
    key ∈ dropped
  entry : ∀ key, s'.entry keyspace collection key =
    if key ∈ dropped then none else s.entry keyspace collection key
  recorded : ∃ entries, (s'.feed keyspace).added =
      (s.feed keyspace).added ++ entries ∧
    entries.map StreamEntry.summary = done.map (mutation .delete collection)
  complete : ok = true → done = dropped ∧
    s'.revision keyspace = s.revision keyspace + dropped.length ∧
    (dropped = [] ∨
      Accepts retention (s.revision keyspace + dropped.length))
  stopped : ok = false → ∃ last, dropped = done ++ [last] ∧
    ¬ Accepts retention (s.revision keyspace + dropped.length)

section Removal

variable {keyspace : Subspace} {retention : Nat} {collection : String}
  {s s₁ s₂ : Server}

theorem Removal.append {keys₁ keys₂ done₁ done₂ dropped₁ dropped₂ : List String}
    {ok : Bool}
    (h₁ : Removal keyspace retention collection s s₁ keys₁ true done₁ dropped₁)
    (h₂ : Removal keyspace retention collection s₁ s₂ keys₂ ok done₂ dropped₂) :
    Removal keyspace retention collection s s₂ (keys₁ ++ keys₂) ok
      (done₁ ++ done₂) (dropped₁ ++ dropped₂) := by
  obtain ⟨hdone, hrevision, haccepts⟩ := h₁.complete rfl
  have hstill : ∀ key, (s₁.entry keyspace collection key).isSome →
      key ∉ dropped₁ ∧ (s.entry keyspace collection key).isSome := by
    intro key hsome
    rw [h₁.entry] at hsome
    split at hsome
    · cases hsome
    · exact ⟨by assumption, hsome⟩
  constructor
  · exact h₂.wellTyped
  · refine List.nodup_append.mpr ⟨h₁.nodup, h₂.nodup, ?_⟩
    rintro key hkey _ hkey' rfl
    exact (hstill key (h₂.present key hkey').2).1 hkey
  · intro key hkey
    rcases List.mem_append.mp hkey with hkey | hkey
    · obtain ⟨hmem, hsome⟩ := h₁.present key hkey
      exact ⟨List.mem_append_left _ hmem, hsome⟩
    · obtain ⟨hmem, hsome⟩ := h₂.present key hkey
      exact ⟨List.mem_append_right _ hmem, (hstill key hsome).2⟩
  · intro hok key hkey hsome
    by_cases hgone : key ∈ dropped₁
    · exact List.mem_append_left _ hgone
    · rcases List.mem_append.mp hkey with hkey | hkey
      · exact absurd (h₁.all rfl key hkey hsome) hgone
      · refine List.mem_append_right _ (h₂.all hok key hkey ?_)
        rwa [h₁.entry, if_neg hgone]
  · intro key
    rw [h₂.entry, h₁.entry]
    by_cases h : key ∈ dropped₁ <;> by_cases h' : key ∈ dropped₂ <;> simp [h, h']
  · obtain ⟨entries₁, hadded₁, hmap₁⟩ := h₁.recorded
    obtain ⟨entries₂, hadded₂, hmap₂⟩ := h₂.recorded
    refine ⟨entries₁ ++ entries₂, ?_, ?_⟩
    · rw [hadded₂, hadded₁, List.append_assoc]
    · rw [List.map_append, hmap₁, hmap₂, List.map_append]
  · intro hok
    obtain ⟨hdone₂, hrevision₂, haccepts₂⟩ := h₂.complete hok
    refine ⟨by rw [hdone, hdone₂], ?_, ?_⟩
    · rw [hrevision₂, hrevision, List.length_append, Nat.add_assoc]
    · rw [hrevision, Nat.add_assoc, ← List.length_append] at haccepts₂
      rcases haccepts₂ with rfl | haccepts₂
      · simpa using haccepts
      · exact .inr haccepts₂
  · intro hok
    obtain ⟨last, hdropped, hrefused⟩ := h₂.stopped hok
    refine ⟨last, by rw [hdropped, hdone, List.append_assoc], ?_⟩
    rwa [hrevision, Nat.add_assoc, ← List.length_append] at hrefused

end Removal

/-! ## Destroying a collection -/

theorem scannedKeys_eq (config : RedisConfig) {collection : String}
    (hsize : collection.utf8ByteSize < 2 ^ 64) (keys : List String) :
    scannedKeys config collection
        (keys.map (subspaceCompoundKey config.keyspace collection)) =
      .ok (keys.map fun key =>
        (subspaceCompoundKey config.keyspace collection key, key)) := by
  induction keys with
  | nil => rfl
  | cons key keys ih =>
      simp only [List.map_cons, scannedKeys, ih]
      rw [subspaceCompoundKey, Subspace.scope, stripPrefix_append]
      simp only [decompoundKey_compoundKey, if_pos hsize, bind, Except.bind]
      simp [pure, Except.pure]

example : scannedKeys ⟨"default", ⟨"app"⟩, 10⟩ "c"
    [subspaceCompoundKey ⟨"app"⟩ "c" "k"] =
      .ok [(subspaceCompoundKey ⟨"app"⟩ "c" "k", "k")] := by
  decide +kernel

theorem scannedKeys_long (config : RedisConfig) {collection : String}
    (hsize : ¬ collection.utf8ByteSize < 2 ^ 64) {keys : List String}
    (hkeys : keys ≠ []) :
    ∃ error, scannedKeys config collection
        (keys.map (subspaceCompoundKey config.keyspace collection)) =
      .error error := by
  cases keys with
  | nil => exact absurd rfl hkeys
  | cons key keys =>
      refine ⟨.invalidKey "compound identity collection length is too large",
        ?_⟩
      simp only [List.map_cons, scannedKeys]
      rw [subspaceCompoundKey, Subspace.scope, stripPrefix_append]
      simp only [decompoundKey_compoundKey, if_neg hsize, bind, Except.bind]

section Destroy

variable {config : RedisConfig} {collection : String}

theorem destroyLoop_long (hsize : ¬ collection.utf8ByteSize < 2 ^ 64) :
    ∀ (scanned : List (DateTime × List String)) (destroyed : Bool)
      (s : Server), (destroyLoop config collection
        (scanned.map fun batch => (batch.1,
          batch.2.map (subspaceCompoundKey config.keyspace collection)))
        destroyed s).2 = s
  | [], destroyed, s => rfl
  | (occurred, []) :: scanned, destroyed, s => by
      simpa [destroyLoop, scannedKeys] using
        destroyLoop_long hsize scanned destroyed s
  | (occurred, key :: keys) :: scanned, destroyed, s => by
      obtain ⟨error, herror⟩ := scannedKeys_long config hsize
        (List.cons_ne_nil key keys)
      simp only [List.map_cons, destroyLoop] at herror ⊢
      rw [herror]

theorem destroyLoop_wellTyped :
    ∀ (scanned : List (DateTime × List String)) (destroyed : Bool)
      (s : Server), WellTyped config.keyspace s →
      WellTyped config.keyspace (destroyLoop config collection
        (scanned.map fun batch => (batch.1,
          batch.2.map (subspaceCompoundKey config.keyspace collection)))
        destroyed s).2 := by
  intro scanned destroyed s h
  by_cases hsize : collection.utf8ByteSize < 2 ^ 64
  · induction scanned generalizing destroyed s with
    | nil => exact h
    | cons batch scanned ih =>
        obtain ⟨occurred, keys⟩ := batch
        simp only [List.map_cons, destroyLoop, scannedKeys_eq config hsize]
        cases keys with
        | nil => exact ih destroyed s h
        | cons key keys =>
            have hscript := (bulkDelete_invariant collection
              config.changeRetention (timestampText occurred)
              (P := fun _ => True) (fun _ _ _ _ _ _ => trivial) (key :: keys) 0
              s h trivial).1
            rw [List.map_cons] at hscript
            simp only [List.map_cons, invoke]
            generalize eval _ s = outcome at hscript ⊢
            obtain ⟨r, s'⟩ := outcome
            cases r with
            | error error => exact hscript
            | ok removed => exact ih _ s' hscript
  · rw [destroyLoop_long hsize]
    exact h

end Destroy

/-! ## Records and mutations -/

/-- The records that running a call appends to the change stream. -/
def appended (keyspace : Subspace) (s s' : Server) : List StreamEntry :=
  (s'.feed keyspace).added.drop (s.feed keyspace).added.length

def removedKeys (keyspace : Subspace) (collection : String)
    (keys : List String) (s s' : Server) : List String :=
  keys.dedup.filter fun key =>
    (s.entry keyspace collection key).isSome &&
      (s'.entry keyspace collection key).isNone

def reportsWrite : Except Error Outcome → Bool
  | .ok .done | .ok (.swap (.applied _)) => true
  | _ => false

/-- The key, if the call reports that it wrote it, or if its entry is another
one afterwards: an error can come when the entry has been written. -/
def writtenKeys (keyspace : Subspace) (collection key : String)
    (result : Except Error Outcome) (s s' : Server) : List String :=
  if reportsWrite result = true ∨
      s'.entry keyspace collection key ≠ s.entry keyspace collection key then
    [key]
  else []

/-- The mutations that a call has made, whatever it returns: one for each key
that it wrote or removed. -/
def Call.mutations (config : RedisConfig) (call : Call)
    (result : Except Error Outcome) (s s' : Server) :
    List (Option String × Option String × Option String) :=
  match call with
  | .put key _ collection _ | .compareAndSwap key _ _ collection _ =>
      (writtenKeys config.keyspace (config.collectionName collection) key
        result s s').map
          (mutation .put (config.collectionName collection))
  | .delete key collection | .compareAndDelete key _ collection =>
      (removedKeys config.keyspace (config.collectionName collection) [key]
        s s').map
          (mutation .delete (config.collectionName collection))
  | .destroyCollection collection scanned =>
      (removedKeys config.keyspace collection (scanned.flatMap Prod.snd)
        s s').map (mutation .delete collection)

def presentKeys (keyspace : Subspace) (collection : String)
    (keys : List String) (s : Server) : List String :=
  keys.dedup.filter fun key => (s.entry keyspace collection key).isSome

section Calls

variable {config : RedisConfig} {readings : Readings} {s : Server}

private theorem appended_of_feed {keyspace : Subspace} {s s' : Server}
    {entries : List StreamEntry}
    (h : (s'.feed keyspace).added = (s.feed keyspace).added ++ entries) :
    appended keyspace s s' = entries := by
  simp [appended, h]

private theorem appended_same {keyspace : Subspace} {s s' : Server}
    (h : s'.feed keyspace = s.feed keyspace) : appended keyspace s s' = [] :=
  appended_of_feed (by simp [h])

/-- An allocating script records one change exactly when it returns, which it
does exactly when `XADD` takes the record. -/
private theorem Allocates.appended {keyspace : Subspace} {retention : Nat}
    {entry : Nat → StreamEntry} {s s' : Server} {ok : Bool}
    (h : Allocates keyspace retention entry s s' ok)
    (hretention : 0 < retention) :
    (Redis.appended keyspace s s' =
      if ok then [entry (s.revision keyspace + 1)] else []) ∧
    (ok = true ↔ Accepts retention (s.revision keyspace + 1)) := by
  cases h with
  | overflow hmax _ hfeed =>
      refine ⟨appended_same hfeed, iff_of_false (by simp) ?_⟩
      unfold Accepts
      omega
  | disabled hzero => omega
  | refused _ hrefused _ hfeed =>
      exact ⟨appended_same hfeed, iff_of_false (by simp) hrefused⟩
  | recorded _ haccepts _ hfeed =>
      exact ⟨appended_of_feed (by simp [hfeed]), iff_of_true rfl haccepts⟩

section Removed

variable {keyspace : Subspace} {retention : Nat} {collection : String}
  {s s' : Server} {keys done dropped : List String} {ok : Bool}

end Removed

private theorem Accepts.mono {retention n m : Nat} (h : Accepts retention m)
    (hle : n ≤ m) : Accepts retention n :=
  ⟨Nat.lt_of_le_of_lt hle h.1, h.2⟩

end Calls

/-! ## Reachable keyspaces -/

/-- A call of some store instance, with its own default collection and
retention, or passing time. -/
inductive Label where
  | call (defaultCollection : String) (changeRetention : Nat)
      (readings : Readings) (call : Call)
  | tick (milliseconds : Nat)
  deriving DecidableEq, Repr

def step (keyspace : Subspace) (s : Server) : Label → Option Server
  | .call defaultCollection changeRetention readings call =>
      some (call.run ⟨defaultCollection, keyspace, changeRetention⟩ readings
        s).2
  | .tick milliseconds => some { s with clock := s.clock + milliseconds }

theorem run_wellTyped (config : RedisConfig) (readings : Readings) (call : Call)
    {s : Server} (h : WellTyped config.keyspace s) :
    WellTyped config.keyspace (call.run config readings s).2 := by
  cases call with
  | put key value collection ttl =>
      simp only [Call.run, put]
      cases newEnvelope readings value ttl with
      | error error => exact h
      | ok built =>
          obtain ⟨r, s', heval, hwt, -⟩ := eval_putChangeScript h built.1
            (ttlMilliseconds ttl) (config.collectionName collection) key
            (timestampText readings.occurred) config.changeRetention
          simpa only [invoke, heval] using hwt
  | delete key collection =>
      obtain ⟨r, s', heval, hwt, -⟩ := eval_deleteChangeScript h
        (config.collectionName collection) key config.changeRetention
        (timestampText readings.occurred)
      simpa only [Call.run, delete, invoke, heval] using hwt
  | compareAndSwap key expected value collection ttl =>
      simp only [Call.run, compareAndSwap]
      cases newEnvelope readings value ttl with
      | error error => exact h
      | ok built =>
          obtain ⟨s', heval, hwt, -⟩ := eval_compareAndSwapScript h
            (config.collectionName collection) key
            ((expected.map Revision.asBytes).getD []) built.1
            (ttlMilliseconds ttl)
          rw [Cas.prefixLen] at heval
          simpa only [invoke, heval] using hwt
  | compareAndDelete key expected collection =>
      obtain ⟨s', heval, hwt, -⟩ := eval_compareAndDeleteScript h
        (config.collectionName collection) key expected.asBytes
      rw [Cas.prefixLen] at heval
      simpa only [Call.run, compareAndDelete, invoke, heval] using hwt
  | destroyCollection collection scanned =>
      exact destroyLoop_wellTyped scanned false s h

theorem step_wellTyped {keyspace : Subspace} {s s' : Server} {label : Label}
    (h : WellTyped keyspace s) (hstep : step keyspace s label = some s') :
    WellTyped keyspace s' := by
  cases label with
  | call defaultCollection changeRetention readings call =>
      cases hstep
      exact run_wellTyped ⟨defaultCollection, keyspace, changeRetention⟩
        readings call h
  | tick milliseconds =>
      cases hstep
      exact h.tick (by omega)

def sampleConfig : RedisConfig := ⟨"default", ⟨"app"⟩, 10⟩

def sampleReadings : Readings :=
  ⟨.epoch, some (.fill 7), .epoch, .epoch⟩

end OpenKeyV.Redis
