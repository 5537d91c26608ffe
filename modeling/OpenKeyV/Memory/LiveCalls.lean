import OpenKeyV.Memory.LiveMigration
import OpenKeyV.Memory.Reporting
import Mathlib.Algebra.Order.Field.Basic
import Mathlib.Algebra.Order.Field.Rat

/-!
# What the calls of a live migration read and write

A read of the source shows the live entries; a put into the target that
evicts nothing stores its entry, which is alive and as permanent as what was
read; a delete removes one.
-/

namespace OpenKeyV.Memory

open OpenKeyV.Library

theorem nanos_of_checkedAddMillis {now expires : DateTime} {millis : Int}
    (h : now.checkedAddMillis millis = some expires) :
    expires.nanos = now.nanos + millis * nanosPerMilli := by
  unfold DateTime.checkedAddMillis DateTime.ofNanos at h
  split at h
  · cases h
    rfl
  · cases h

theorem alive_of_ttl {entry stored : ManagedEntry} {now later : DateTime}
    {value : Value}
    (h : ManagedEntry.ofTtl now value (stored.ttl later) = .ok entry) :
    entry.isExpired now = false ∧
      entry.expiresAt.isNone = stored.expiresAt.isNone := by
  unfold ManagedEntry.ttl at h
  cases hexpires : stored.expiresAt with
  | none =>
      simp only [hexpires, ManagedEntry.ofTtl] at h
      cases h
      exact ⟨rfl, rfl⟩
  | some expires =>
      simp only [hexpires] at h
      split at h
      · simp [ManagedEntry.ofTtl, ManagedEntry.withTtl,
          ManagedEntry.expirationAt, bind, Except.bind] at h
      · generalize (expires.nanos - later.nanos) / nanosPerMilli = millis at h
        have hproduct : (millis : Rat) / 1000 * 1000 = millis :=
          div_mul_cancel₀ _ (by decide)
        simp only [ManagedEntry.ofTtl, ManagedEntry.withTtl,
          ManagedEntry.expirationAt, bind, Except.bind, pure, Except.pure,
          hproduct, Rat.floor_intCast] at h
        split at h
        · cases h
        · rename_i result heq
          cases h
          split at heq
          · cases heq
          · rename_i hpositive
            have hmillis : 0 < millis := by
              by_contra hle
              apply hpositive
              apply div_nonpos_of_nonpos_of_nonneg
              · exact_mod_cast not_lt.mp hle
              · decide
            split at heq
            · cases heq
            · split at heq
              · rename_i hadd
                cases heq
                have hnanos := nanos_of_checkedAddMillis hadd
                refine ⟨?_, rfl⟩
                simp only [ManagedEntry.isExpired, decide_eq_false_iff_not,
                  DateTime.le_def, hnanos, nanosPerMilli]
                omega
              · cases heq

section Target

variable {config : MemoryConfig} {rng : Nat → Option Revision}
  {now : DateTime} {order : Order} {t t' : MemoryState}

theorem entry_recordChanges (mutations : List Mutation) (t : MemoryState)
    (name key : String) :
    (mutations.foldl (fun t mutation => t.recordChange now mutation) t).entry
        name key = t.entry name key := by
  induction mutations generalizing t with
  | nil => rfl
  | cons mutation mutations ih => exact (ih _).trans rfl

def evictions (config : MemoryConfig) (rng : Nat → Option Revision)
    (now : DateTime) (order : Order) (call : Call) (t : MemoryState) :
    List Mutation :=
  match enter config rng now order t call with
  | (t, .lock action) =>
      (perform config now order t action).pending.filter erasure
  | _ => []

theorem runAlone_performs {call : Call} {result : Response}
    (hseed : config.seed = none) (hstart : start now call = .setup call)
    (hwaits : ∀ s, (prepare config rng now order s call).2 ≠
      .done (.ok result))
    (hrun : runAlone config rng now order call t = (.ok result, t')) :
    ∃ s action, prepare config rng now order { t with setupComplete := true }
        call = (s, .lock action) ∧
      (enter config rng now order t call) = (s, .lock action) ∧
      (∀ name key, s.entry name key = t.entry name key) ∧
      ∀ name key, t'.entry name key =
        (perform config now order s action).state.entry name key := by
  have henter : enter config rng now order t call =
      prepare config rng now order { t with setupComplete := true } call := by
    rw [enter, setup_unseeded rng now order hseed]
  have hedits := prepare_edits config rng now order
    { t with setupComplete := true } call
  have hdone := hwaits { t with setupComplete := true }
  unfold runAlone at hrun
  rw [hstart] at hrun
  simp only [henter] at hrun ⊢
  generalize prepare config rng now order { t with setupComplete := true }
    call = prepared at hrun hedits hdone ⊢
  obtain ⟨s, phase⟩ := prepared
  cases phase with
  | lock action =>
      simp only [finish, Prod.mk.injEq] at hrun
      obtain ⟨_, rfl⟩ := hrun
      refine ⟨s, action, rfl, rfl, fun name key => ?_, fun name key => ?_⟩
      · rw [hedits.entry]
        rfl
      · exact entry_recordChanges _ _ name key
  | done result =>
      cases hrun
      exact absurd rfl hdone
  | _ => cases hrun

theorem deletions_of_evictions (puts : List Mutation) {name : String}
    {evicted : List String} (hputs : puts.filter erasure = [])
    (h : (puts ++ deletions name evicted).filter erasure = []) :
    evicted = [] := by
  rw [List.filter_append, hputs, List.nil_append] at h
  cases evicted with
  | nil => rfl
  | cons key keys => simp [deletions, erasure] at h

theorem prepare_put {s s' : MemoryState} {key name : String} {value : Value}
    {ttl : Option F64} {action : Action}
    (h : prepare config rng now order s (.put key value (some name) ttl) =
      (s', .lock action)) :
    ∃ entry revision, ManagedEntry.ofTtl now value ttl = .ok entry ∧
      action = .put name key ⟨entry, revision⟩ ∧
      (s'.collection name).isSome = true := by
  have hcol : ((s.ensureCollection name).collection name).isSome = true := by
    simp
  simp only [prepare, MemoryConfig.collectionName, Option.getD_some] at h
  split at h
  · cases h
  · rename_i entry hentry
    have hfresh := collection_fresh rng (s.ensureCollection name) name
    split at h
    · cases h
    · rename_i revision s'' heq
      rw [heq] at hfresh
      cases h
      exact ⟨entry, revision, hentry, rfl, hfresh ▸ hcol⟩

theorem map_ok {α : Type} {result : Except Error α}
    (h : (result.map fun _ => ()) = .ok ()) : ∃ a, result = .ok a := by
  cases result with
  | error error => cases h
  | ok a => exact ⟨a, rfl⟩

theorem put_target {key : String} {value : Value} {name : String}
    {ttl : Option F64} (hseed : config.seed = none)
    (hroom : evictions config rng now order (.put key value (some name) ttl) t =
      [])
    (hput : (memoryTarget config rng now order).put key value name ttl t =
      (.ok (), t')) :
    ∃ entry revision, ManagedEntry.ofTtl now value ttl = .ok entry ∧
      ∀ name' key', t'.entry name' key' =
        if (name, key) = (name', key') then some ⟨entry, revision⟩
        else t.entry name' key' := by
  obtain ⟨hresult, rfl⟩ := Prod.mk.inj hput
  obtain ⟨result, hresult⟩ := map_ok hresult
  obtain ⟨s, action, hprepare, henter, hsame, hperform⟩ :=
    runAlone_performs hseed rfl (fun s => by
      simp only [prepare]
      split
      · simp
      · split <;> simp) (Prod.ext hresult rfl)
  obtain ⟨entry, revision, hentry, rfl, hcol⟩ := prepare_put hprepare
  obtain ⟨evicted, hedits, hpending⟩ :=
    edits_put config now order key hcol ⟨entry, revision⟩
  unfold evictions at hroom
  rw [henter] at hroom
  simp only [perform, hpending] at hroom
  obtain rfl := deletions_of_evictions [⟨name, key, .put⟩] rfl hroom
  refine ⟨entry, revision, hentry, fun name' key' => ?_⟩
  rw [hperform, perform, hedits.entry, ← hsame, removals, List.map_nil,
    latestOf_cons]
  by_cases hcell : (name, key) = (name', key') <;>
    simp [latestOf, Event.cell, Event.stored, hcell]

theorem mapM_ofTtl_none (now : DateTime) (values : List Value) :
    values.mapM (fun value => ManagedEntry.ofTtl now value none) =
      .ok (values.map (ManagedEntry.new now)) := by
  induction values with
  | nil => rfl
  | cons value values ih =>
      rw [List.mapM_cons, ih]
      rfl

variable (config now order) in
theorem edits_putMany {s : MemoryState} {name : String} (keys : List String)
    (entries : List RevisionedEntry)
    (hcol : (s.collection name).isSome = true) :
    ∃ evicted,
      Edits s (writes name (keys.zip entries) ++ removals name evicted)
          (putMany config now order name s keys entries).state ∧
        (putMany config now order name s keys entries).pending =
          (keys.map fun key => ⟨name, key, .put⟩) ++ deletions name evicted := by
  obtain ⟨col, hsome⟩ := Option.isSome_iff_exists.mp hcol
  unfold putMany
  rw [hsome]
  exact ⟨_, (edits_insertMany (keys.zip entries) s hcol).trans
    (edits_enforceCapacity config now order name _), rfl⟩

theorem latestOf_writes (name : String)
    (items : List (String × RevisionedEntry)) (name' key' : String) :
    (latestOf Event.cell (name', key') (writes name items) = none ∧
        ¬ (name' = name ∧ key' ∈ items.map Prod.fst)) ∨
      ∃ item ∈ items, (name, item.1) = (name', key') ∧
        latestOf Event.cell (name', key') (writes name items) =
          some (.wrote name item.1 item.2 .plain) := by
  cases hlast : latestOf Event.cell (name', key') (writes name items) with
  | none =>
      refine .inl ⟨rfl, ?_⟩
      rintro ⟨rfl, hkey⟩
      obtain ⟨item, hitem, rfl⟩ := List.mem_map.mp hkey
      have hcell := latest_eq_none.mp hlast _ (List.mem_map_of_mem hitem)
      simp [Event.cell] at hcell
  | some last =>
      obtain ⟨before, after, hsplit, hcell, _⟩ := latest_eq_some hlast
      have hmem : last ∈ writes name items := by
        rw [hsplit]
        simp
      obtain ⟨item, hitem, rfl⟩ := List.mem_map.mp hmem
      exact .inr ⟨item, hitem, by simpa [Event.cell] using hcell, rfl⟩

theorem filter_puts (name : String) (keys : List String) :
    (keys.map fun key => (⟨name, key, .put⟩ : Mutation)).filter erasure =
      [] := by
  refine List.filter_eq_nil_iff.mpr fun mutation hmem => ?_
  obtain ⟨key, _, rfl⟩ := List.mem_map.mp hmem
  simp [erasure]

def batchEntries (now : DateTime) (items : List (String × Value))
    (revisions : List Revision) : List RevisionedEntry :=
  ((items.map Prod.snd).map (ManagedEntry.new now)).zipWith RevisionedEntry.mk
    revisions

theorem prepare_batch {s s' : MemoryState} {items : List (String × Value)}
    {name : String} {action : Action}
    (h : prepare config rng now order s (.putMany (items.map Prod.fst)
      (items.map Prod.snd) (some name) none) = (s', .lock action)) :
    ∃ revisions, revisions.length = items.length ∧
      action = .putMany name (items.map Prod.fst)
        (batchEntries now items revisions) ∧
      (s'.collection name).isSome = true := by
  have hcol : ((s.ensureCollection name).collection name).isSome = true := by
    simp
  simp only [prepare, MemoryConfig.collectionName, Option.getD_some,
    mapM_ofTtl_none, List.length_map] at h
  have hfresh := collection_freshMany rng items.length
    (s.ensureCollection name) name
  split at h
  · cases h
  · rename_i revisions s'' heq
    rw [heq] at hfresh
    cases h
    exact ⟨revisions, length_of_freshMany heq, rfl, hfresh ▸ hcol⟩

theorem mem_batch (now : DateTime) {items : List (String × Value)}
    {revisions : List Revision} {named : String × RevisionedEntry}
    (h : named ∈ (items.map Prod.fst).zip (batchEntries now items revisions)) :
    ∃ item ∈ items, named.1 = item.1 ∧
      named.2.entry = .new now item.2 := by
  induction items generalizing revisions with
  | nil => cases h
  | cons item items ih =>
      cases revisions with
      | nil => cases h
      | cons revision revisions =>
          rcases List.mem_cons.mp h with rfl | h
          · exact ⟨item, List.mem_cons_self .., rfl, rfl⟩
          · obtain ⟨item', hitem', hnamed⟩ := ih h
            exact ⟨item', List.mem_cons_of_mem _ hitem', hnamed⟩

/-- A batch that evicts nothing stores its entries, and changes no other. -/
theorem putMany_target {items : List (String × Value)} {name : String}
    (hseed : config.seed = none)
    (hroom : evictions config rng now order (.putMany (items.map Prod.fst)
      (items.map Prod.snd) (some name) none) t = [])
    (hput : (memoryTarget config rng now order).putMany (items.map Prod.fst)
      (items.map Prod.snd) name none t = (.ok (), t')) (name' key' : String) :
    (¬ (name' = name ∧ key' ∈ items.map Prod.fst) ∧
        t'.entry name' key' = t.entry name' key') ∨
      ∃ item ∈ items, (name, item.1) = (name', key') ∧ ∃ revision,
        t'.entry name' key' = some ⟨.new now item.2, revision⟩ := by
  obtain ⟨hresult, rfl⟩ := Prod.mk.inj hput
  obtain ⟨result, hresult⟩ := map_ok hresult
  have hstart : start now (.putMany (items.map Prod.fst) (items.map Prod.snd)
      (some name) none) = .setup (.putMany (items.map Prod.fst)
        (items.map Prod.snd) (some name) none) := by
    simp [start]
  obtain ⟨s, action, hprepare, henter, hsame, hperform⟩ :=
    runAlone_performs hseed hstart (fun s => by
      simp only [prepare]
      split
      · simp
      · split <;> simp) (Prod.ext hresult rfl)
  obtain ⟨revisions, hlength, rfl, hcol⟩ := prepare_batch hprepare
  obtain ⟨evicted, hedits, hpending⟩ := edits_putMany config now order
    (items.map Prod.fst) (batchEntries now items revisions) hcol
  unfold evictions at hroom
  rw [henter] at hroom
  simp only [perform, hpending] at hroom
  obtain rfl := deletions_of_evictions _ (filter_puts name _) hroom
  have hentry := hedits.entry name' key'
  rw [removals, List.map_nil, List.append_nil, hsame] at hentry
  rw [hperform, perform, hentry]
  rcases latestOf_writes name ((items.map Prod.fst).zip
      (batchEntries now items revisions)) name' key' with
    ⟨hnone, hother⟩ | ⟨named, hnamed, hcell, hlast⟩
  · rw [List.map_fst_zip (by simp [batchEntries, hlength])] at hother
    exact .inl ⟨hother, by rw [hnone]⟩
  · obtain ⟨item, hitem, hkey, hvalue⟩ := mem_batch now hnamed
    refine .inr ⟨item, hitem, hkey ▸ hcell, named.2.revision, ?_⟩
    rw [hlast, ← hvalue]
    rfl

theorem entry_delete {s : MemoryState} {name : String} (key : String)
    (hcol : (s.collection name).isSome = true) (name' key' : String) :
    (delete name s key).state.entry name' key' =
      if (name, key) = (name', key') then none else s.entry name' key' := by
  obtain ⟨col, hcol⟩ := Option.isSome_iff_exists.mp hcol
  unfold delete
  simp only [hcol]
  cases hlookup : col.lookup key with
  | some stored => exact entry_removeEntry hcol key none name' key'
  | none =>
      simp only
      by_cases hcell : (name, key) = (name', key')
      · cases hcell
        rw [if_pos rfl]
        exact (s.entry_eq name key hcol).trans hlookup
      · rw [if_neg hcell]

theorem delete_target {key name : String} (hseed : config.seed = none)
    (hdelete : (memoryTarget config rng now order).delete key name t =
      (.ok (), t')) (name' key' : String) :
    t'.entry name' key' =
      if (name, key) = (name', key') then none else t.entry name' key' := by
  obtain ⟨hresult, rfl⟩ := Prod.mk.inj hdelete
  obtain ⟨result, hresult⟩ := map_ok hresult
  obtain ⟨s, action, hprepare, _, hsame, hperform⟩ :=
    runAlone_performs hseed rfl (fun s => by simp [prepare])
      (Prod.ext hresult rfl)
  cases hprepare
  rw [hperform, perform]
  simp only [MemoryConfig.collectionName, Option.getD_some] at hsame ⊢
  rw [entry_delete key (by simp), hsame]

end Target

section Source

variable {config : MemoryConfig} {rng : Nat → Option Revision}
  {s : MemoryState} (now : DateTime) (order : Order)

theorem readCall_ttl (h : s.setupComplete = true) (key name : String) :
    readCall config rng now order (.ttl key (some name)) s =
      (.ok (.ttl ((s.live now name key).map fun stored =>
          (stored.entry.value, stored.entry.ttl now))),
        s.ensureCollection name) := by
  simp [readCall, enter, setup_complete h, prepare, Memory.ttl,
    MemoryConfig.collectionName, getCollection_ensure, liveIn_ensure, bind,
    Except.bind, pure, Except.pure]

theorem readCall_get (h : s.setupComplete = true) (key name : String) :
    readCall config rng now order (.get key (some name)) s =
      (.ok (.value ((s.live now name key).map (·.entry.value))),
        s.ensureCollection name) := by
  simp [readCall, enter, setup_complete h, prepare, Memory.get,
    MemoryConfig.collectionName, getCollection_ensure, liveIn_ensure, bind,
    Except.bind, pure, Except.pure]

end Source

end OpenKeyV.Memory
