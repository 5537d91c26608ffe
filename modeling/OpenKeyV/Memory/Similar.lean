import OpenKeyV.Memory.LiveMigration
import OpenKeyV.Memory.Traces

/-!
# States with the same live entries

A call of an unbounded store takes states that differ in expired entries only
to such states again, and answers alike on them unless it counts or lists
what it finds.
-/

namespace OpenKeyV.Memory

open OpenKeyV.Library

structure Similar (now : DateTime) (s t : MemoryState) : Prop where
  names : ∀ name,
    (s.collection name).isSome = (t.collection name).isSome
  live : ∀ name key, s.live now name key = t.live now name key
  complete : s.setupComplete = t.setupComplete
  draws : s.draws = t.draws

def Alike {α : Type} (now : DateTime) (r r' : α × MemoryState) : Prop :=
  r.1 = r'.1 ∧ Similar now r.2 r'.2

section Similar

variable {now : DateTime} {s t u : MemoryState} {name key : String}

theorem Similar.refl (s : MemoryState) : Similar now s s :=
  ⟨fun _ => rfl, fun _ _ => rfl, rfl, rfl⟩

theorem Similar.symm (h : Similar now s t) : Similar now t s :=
  ⟨fun name => (h.names name).symm, fun name key => (h.live name key).symm,
    h.complete.symm, h.draws.symm⟩

theorem Similar.trans (h : Similar now s t) (h' : Similar now t u) :
    Similar now s u :=
  ⟨fun name => (h.names name).trans (h'.names name),
    fun name key => (h.live name key).trans (h'.live name key),
    h.complete.trans h'.complete, h.draws.trans h'.draws⟩

theorem Similar.ensureCollection (h : Similar now s t) (name : String) :
    Similar now (s.ensureCollection name) (t.ensureCollection name) := by
  refine ⟨fun name' => ?_, fun name' key => ?_, ?_, ?_⟩
  · simp only [MemoryState.collection_ensureCollection]
    split
    · rfl
    · exact h.names name'
  · simp only [MemoryState.live, MemoryState.entry_ensureCollection]
    exact h.live name' key
  · unfold MemoryState.ensureCollection
    split <;> split <;> exact h.complete
  · unfold MemoryState.ensureCollection
    split <;> split <;> exact h.draws

theorem live_insertEntry (s : MemoryState) (name key : String)
    (stored : RevisionedEntry) (cause : Cause) (name' key' : String) :
    (s.insertEntry name key stored cause).live now name' key' =
      if (name, key) = (name', key') ∧ (s.collection name).isSome then
        (some stored).filter fun stored => !stored.isExpired now
      else s.live now name' key' := by
  cases hcol : s.collection name with
  | none => simp [MemoryState.insertEntry, hcol]
  | some col =>
      rw [MemoryState.live, entry_insertEntry hcol]
      by_cases hcell : (name, key) = (name', key')
      · rw [if_pos hcell, if_pos ⟨hcell, rfl⟩]
      · rw [if_neg hcell, if_neg fun h => hcell h.1, MemoryState.live]

theorem live_removeEntry (s : MemoryState) (name key : String)
    (expected : Option Revision) (name' key' : String) :
    (s.removeEntry name key expected).live now name' key' =
      if (name, key) = (name', key') then none
      else s.live now name' key' := by
  cases hcol : s.collection name with
  | none =>
      have hsame : s.removeEntry name key expected = s := by
        simp [MemoryState.removeEntry, hcol]
      rw [hsame]
      split
      · rename_i hcell
        cases hcell
        exact live_none_of_absent now (by simp [MemoryState.entry, hcol])
      · rfl
  | some col =>
      rw [MemoryState.live, entry_removeEntry hcol]
      split
      · rfl
      · rfl

theorem named_insertEntry (s : MemoryState) (name key : String)
    (stored : RevisionedEntry) (cause : Cause) (name' : String) :
    ((s.insertEntry name key stored cause).collection name').isSome =
      (s.collection name').isSome := by
  rw [MemoryState.collection_insertEntry]
  split
  · rename_i hname
    rw [hname, Option.isSome_map]
  · rfl

theorem named_removeEntry (s : MemoryState) (name key : String)
    (expected : Option Revision) (name' : String) :
    ((s.removeEntry name key expected).collection name').isSome =
      (s.collection name').isSome := by
  rw [MemoryState.collection_removeEntry]
  split
  · rename_i hname
    rw [hname, Option.isSome_map]
  · rfl

theorem Similar.insertEntry (h : Similar now s t) (name key : String)
    (stored : RevisionedEntry) (cause cause' : Cause) :
    Similar now (s.insertEntry name key stored cause)
      (t.insertEntry name key stored cause') := by
  refine ⟨fun name' => ?_, fun name' key' => ?_, ?_, ?_⟩
  · rw [named_insertEntry, named_insertEntry, h.names]
  · rw [live_insertEntry, live_insertEntry, h.names, h.live]
  · unfold MemoryState.insertEntry
    split <;> split <;> exact h.complete
  · unfold MemoryState.insertEntry
    split <;> split <;> exact h.draws

theorem Similar.removeEntry (h : Similar now s t) (name key : String)
    (expected : Option Revision) :
    Similar now (s.removeEntry name key expected)
      (t.removeEntry name key expected) := by
  refine ⟨fun name' => ?_, fun name' key' => ?_, ?_, ?_⟩
  · rw [named_removeEntry, named_removeEntry, h.names]
  · rw [live_removeEntry, live_removeEntry, h.live]
  · unfold MemoryState.removeEntry
    split <;> split <;> exact h.complete
  · unfold MemoryState.removeEntry
    split <;> split <;> exact h.draws

theorem similar_removeEntry (hlive : s.live now name key = none)
    (expected : Option Revision) :
    Similar now s (s.removeEntry name key expected) := by
  refine ⟨fun name' => (named_removeEntry ..).symm, fun name' key' => ?_,
    ?_, ?_⟩
  · rw [live_removeEntry]
    split
    · rename_i hcell
      cases hcell
      exact hlive
    · rfl
  · unfold MemoryState.removeEntry
    split <;> rfl
  · unfold MemoryState.removeEntry
    split <;> rfl

theorem Similar.fresh (h : Similar now s t)
    (rng : Nat → Option Revision) :
    Alike now (s.fresh rng) (t.fresh rng) := by
  refine ⟨?_, ⟨h.names, h.live, h.complete, ?_⟩⟩
  · simp only [MemoryState.fresh, h.draws]
  · simp only [MemoryState.fresh, h.draws]

theorem similar_recordChanges (mutations : List Mutation) (s : MemoryState) :
    Similar now s
      (mutations.foldl (fun s mutation => s.recordChange now mutation) s) := by
  induction mutations generalizing s with
  | nil => exact .refl s
  | cons mutation mutations ih =>
      have hfirst : Similar now s (s.recordChange now mutation) :=
        ⟨fun _ => rfl, fun _ _ => rfl, rfl, rfl⟩
      exact hfirst.trans (ih _)

end Similar

section Alike

variable {config : MemoryConfig} {rng : Nat → Option Revision}
  {now : DateTime} {s t : MemoryState}

def andThen {α β : Type} (f : α → MemoryState → Except Error β × MemoryState) :
    Except Error α × MemoryState → Except Error β × MemoryState
  | (.error error, s) => (.error error, s)
  | (.ok a, s) => f a s

theorem Alike.andThen {α β : Type} {r r' : Except Error α × MemoryState}
    {f f' : α → MemoryState → Except Error β × MemoryState}
    (h : Alike now r r')
    (hf : ∀ a s t, Similar now s t → Alike now (f a s) (f' a t)) :
    Alike now (andThen f r) (andThen f' r') := by
  obtain ⟨result, s⟩ := r
  obtain ⟨result', t⟩ := r'
  obtain ⟨hresult, hstate⟩ := h
  cases hresult
  cases result with
  | error error => exact ⟨rfl, hstate⟩
  | ok a => exact hf a s t hstate

theorem alike_loadItems (name : String)
    (items : List (Sigma fun _ : String => Value)) (h : Similar now s t) :
    Alike now (loadItems rng now name items s)
      (loadItems rng now name items t) := by
  induction items generalizing s t with
  | nil => exact ⟨rfl, h⟩
  | cons item items ih =>
      have hcons : ∀ s, loadItems rng now name (item :: items) s =
          andThen (fun revision s => loadItems rng now name items
            (s.insertEntry name item.1 ⟨.new now item.2, revision⟩ .plain))
          (s.fresh rng) := by
        intro s
        rw [loadItems]
        rcases s.fresh rng with ⟨_ | _, _⟩ <;> rfl
      rw [hcons, hcons]
      exact (h.fresh rng).andThen fun _ _ _ hdrawn =>
        ih (hdrawn.insertEntry ..)

theorem enforceCapacity_unbounded
    (hmax : config.maxEntriesPerCollection = none) (order : Order)
    (name : String) (s : MemoryState) :
    enforceCapacity config now order name s = (s, []) := by
  unfold enforceCapacity
  split
  · rfl
  · simp [excessKeys, hmax, MemoryState.removeKeys]

theorem alike_loadSeed (hmax : config.maxEntriesPerCollection = none)
    (order order' : Order)
    (seed : List (Sigma fun _ : String => KeyedMap String Value))
    (h : Similar now s t) :
    Alike now (loadSeed config rng now order seed s)
      (loadSeed config rng now order' seed t) := by
  induction seed generalizing s t with
  | nil => exact ⟨rfl, h⟩
  | cons entry seed ih =>
      have hcons : ∀ order s, loadSeed config rng now order (entry :: seed) s =
          andThen (fun _ s => loadSeed config rng now order seed s)
          (loadItems rng now entry.1 entry.2.entries
            (s.ensureCollection entry.1)) := by
        intro order s
        rw [loadSeed]
        rcases loadItems rng now entry.1 entry.2.entries
          (s.ensureCollection entry.1) with ⟨_ | _, _⟩
        · rfl
        · simp only [enforceCapacity_unbounded hmax, andThen]
      rw [hcons, hcons]
      exact (alike_loadItems _ _ (h.ensureCollection _)).andThen
        fun _ _ _ hloaded => ih hloaded

variable (rng) in
theorem alike_setup (hmax : config.maxEntriesPerCollection = none)
    (order order' : Order) (h : Similar now s t) :
    Alike now (setup config rng now order s)
      (setup config rng now order' t) := by
  have hdone : ∀ {s t}, Similar now s t → Similar now
      { s with setupComplete := true } { t with setupComplete := true } :=
    fun h => ⟨h.names, h.live, rfl, h.draws⟩
  have hseeded : ∀ order s, setup config rng now order s =
      if s.setupComplete then (.ok (), s)
      else andThen (fun _ s => (.ok (), { s with setupComplete := true }))
        (config.seed.elim (.ok (), s) fun seed =>
          loadSeed config rng now order seed.entries s) := by
    intro order s
    rw [setup]
    split
    · rfl
    · cases config.seed with
      | none => rfl
      | some seed =>
          simp only [Option.elim_some]
          rcases loadSeed config rng now order seed.entries s with
            ⟨_ | _, _⟩ <;> rfl
  rw [hseeded, hseeded, h.complete]
  split
  · exact ⟨rfl, h⟩
  · refine Alike.andThen ?_ fun _ _ _ hloaded => ⟨rfl, hdone hloaded⟩
    cases config.seed with
    | none => exact ⟨rfl, h⟩
    | some seed => exact alike_loadSeed hmax order order' seed.entries h

variable (rng) in
theorem alike_freshMany (n : Nat) (h : Similar now s t) :
    Alike now (freshMany rng n s) (freshMany rng n t) := by
  induction n generalizing s t with
  | zero => exact ⟨rfl, h⟩
  | succ n ih =>
      have hsucc : ∀ s, freshMany rng (n + 1) s =
          andThen (fun revision s =>
            andThen (fun revisions s => (.ok (revision :: revisions), s))
              (freshMany rng n s)) (s.fresh rng) := by
        intro s
        rw [freshMany]
        rcases s.fresh rng with ⟨_ | revision, s⟩
        · rfl
        · simp only [andThen]
          rcases freshMany rng n s with ⟨_ | _, _⟩ <;> rfl
      rw [hsucc, hsucc]
      exact (h.fresh rng).andThen fun _ _ _ hdrawn =>
        (ih hdrawn).andThen fun _ _ _ hmore => ⟨rfl, hmore⟩

def Call.onEntries : Call → Bool
  | .subscribe _ | .cull | .collections _ | .destroyCollection _ | .destroy =>
      false
  | _ => true

def Call.lists : Call → Bool
  | .keys .. => true
  | _ => false

def Call.counts : Call → Bool
  | .delete .. | .deleteMany .. => true
  | _ => false

def Action.counts : Action → Bool
  | .delete .. | .deleteMany .. => true
  | _ => false

def Action.onEntries : Action → Bool
  | .cull | .destroyCollection _ => false
  | _ => true

def Poised (now : DateTime) (p p' : MemoryState × Phase) : Prop :=
  p.2 = p'.2 ∧ Similar now p.1 p'.1

variable (rng) in
theorem poised_prepare {call : Call} (hentries : call.onEntries = true)
    (hlists : call.lists = false) (order order' : Order)
    (h : Similar now s t) :
    Poised now (prepare config rng now order s call)
      (prepare config rng now order' t call) := by
  have hensure := h.ensureCollection
  cases call with
  | subscribe | cull | collections | destroyCollection | destroy =>
      cases hentries
  | keys => cases hlists
  | get key collection | ttl key collection | getMany keys collection
  | ttlMany keys collection | getWithRevision key collection =>
      refine ⟨?_, hensure _⟩
      simp only [prepare, Memory.get, Memory.ttl, Memory.getMany,
        Memory.ttlMany, Memory.getWithRevision, getCollection_ensure,
        liveIn_ensure, h.live, bind, Except.bind]
  | delete | deleteMany | compareAndDelete => exact ⟨rfl, hensure _⟩
  | put key value collection ttl | compareAndSwap key _ value collection ttl =>
      simp only [prepare]
      split
      · exact ⟨rfl, hensure _⟩
      · obtain ⟨hresult, hstate⟩ :=
          (hensure (config.collectionName collection)).fresh rng
        generalize (s.ensureCollection _).fresh rng = drawn at hresult hstate ⊢
        generalize (t.ensureCollection _).fresh rng = drawn'
          at hresult hstate ⊢
        obtain ⟨result, s'⟩ := drawn
        obtain ⟨result', t'⟩ := drawn'
        cases hresult
        cases result <;> exact ⟨rfl, hstate⟩
  | putMany keys values collection ttl =>
      simp only [prepare]
      split
      · exact ⟨rfl, hensure _⟩
      · rename_i entries _
        obtain ⟨hresult, hstate⟩ := alike_freshMany rng entries.length
          (hensure (config.collectionName collection))
        generalize freshMany rng entries.length (s.ensureCollection _) = drawn
          at hresult hstate ⊢
        generalize freshMany rng entries.length (t.ensureCollection _) = drawn'
          at hresult hstate ⊢
        obtain ⟨result, s'⟩ := drawn
        obtain ⟨result', t'⟩ := drawn'
        cases hresult
        cases result <;> exact ⟨rfl, hstate⟩

end Alike

section Actions

variable {config : MemoryConfig} {now : DateTime} {s t : MemoryState}
  {name key : String}

variable (now key) in
theorem swap_spec {col : Collection} (hcol : s.collection name = some col)
    (expected : Option Revision) (stored : RevisionedEntry) :
    let locked := compareAndSwap now name s key expected stored
    if expected = (s.live now name key).map (·.revision) then
      locked.result = .ok (.swap (.applied stored.revision)) ∧
        Similar now (s.insertEntry name key stored .plain) locked.state
    else
      locked.result = .ok (.swap (.conflict
          ((s.live now name key).map (·.snapshot now)))) ∧
        Similar now s locked.state := by
  have hcases := compareAndSwap_cases now s name key expected stored
  simp only
  generalize compareAndSwap now name s key expected stored = locked
    at hcases ⊢
  have hinsert := fun cause =>
    (@Similar.refl now s).insertEntry name key stored .plain cause
  cases hcases with
  | missing hnone => simp [hcol] at hnone
  | rejected _ hexpected =>
      rw [if_neg hexpected]
      exact ⟨rfl, .refl s⟩
  | swept hcurrent hexpired hexpected =>
      have hlive := live_none_of_expired hcurrent hexpired
      rw [hlive, hexpected, if_neg (by simp)]
      exact ⟨rfl, similar_removeEntry hlive none⟩
  | created _ hlive hexpected =>
      rw [hlive, hexpected, Option.map_none, if_pos rfl]
      exact ⟨rfl, hinsert _⟩
  | swapped _ hcurrent hfresh hexpected =>
      rw [live_of_entry hcurrent hfresh, hexpected, Option.map_some,
        if_pos rfl]
      exact ⟨rfl, hinsert _⟩

variable (now key) in
theorem remove_spec {col : Collection} (hcol : s.collection name = some col)
    (expected : Revision) :
    let locked := compareAndDelete now name s key expected
    if some expected = (s.live now name key).map (·.revision) then
      locked.result = .ok (.remove .deleted) ∧
        Similar now (s.removeEntry name key (some expected)) locked.state
    else
      locked.result = .ok (.remove (.conflict
          ((s.live now name key).map (·.snapshot now)))) ∧
        Similar now s locked.state := by
  have hcases := compareAndDelete_cases now s name key expected
  simp only
  generalize compareAndDelete now name s key expected = locked at hcases ⊢
  cases hcases with
  | missing hnone => simp [hcol] at hnone
  | rejected _ hexpected =>
      rw [if_neg hexpected]
      exact ⟨rfl, .refl s⟩
  | swept hcurrent hexpired =>
      have hlive := live_none_of_expired hcurrent hexpired
      rw [hlive, if_neg (by simp)]
      exact ⟨rfl, similar_removeEntry hlive none⟩
  | deleted _ hcurrent hfresh hexpected =>
      rw [live_of_entry hcurrent hfresh, hexpected, Option.map_some,
        if_pos rfl]
      exact ⟨rfl, .refl _⟩

theorem Similar.collection_cases (h : Similar now s t) (name : String) :
    s.collection name = none ∧ t.collection name = none ∨
      ∃ col col', s.collection name = some col ∧
        t.collection name = some col' := by
  have hnames := h.names name
  cases hs : s.collection name with
  | none =>
      rw [hs, Option.isSome_none] at hnames
      exact .inl ⟨rfl, Option.not_isSome_iff_eq_none.mp (by simp [← hnames])⟩
  | some col =>
      rw [hs, Option.isSome_some] at hnames
      obtain ⟨col', ht⟩ := Option.isSome_iff_exists.mp hnames.symm
      exact .inr ⟨col, col', rfl, ht⟩

theorem Similar.insertMany (h : Similar now s t)
    (items : List (String × RevisionedEntry)) :
    Similar now (insertMany name s items) (insertMany name t items) := by
  induction items generalizing s t with
  | nil => exact h
  | cons item items ih => exact ih (h.insertEntry ..)

theorem similar_removeEntry_absent (hentry : s.entry name key = none) :
    Similar now (s.removeEntry name key none) s :=
  (similar_removeEntry (live_none_of_absent now hentry) none).symm

theorem similar_delete (s : MemoryState) (name key : String) :
    Similar now (s.removeEntry name key none) (delete name s key).state := by
  unfold delete
  split
  · rename_i hcol
    exact similar_removeEntry_absent (by simp [MemoryState.entry, hcol])
  · rename_i col hcol
    split
    · exact .refl _
    · rename_i hlookup
      refine similar_removeEntry_absent ?_
      rw [s.entry_eq name key hcol, hlookup]

variable (now) in
theorem removeMany_cons (s : MemoryState) (name key : String)
    (keys : List String) :
    ∃ s', Similar now (s.removeEntry name key none) s' ∧
      (removeMany name (key :: keys) s).1 = (removeMany name keys s').1 := by
  rw [removeMany]
  cases hentry : s.entry name key with
  | none => exact ⟨s, similar_removeEntry_absent hentry, rfl⟩
  | some stored => exact ⟨_, .refl _, rfl⟩

theorem Similar.removeMany (h : Similar now s t) (keys : List String) :
    Similar now (removeMany name keys s).1 (removeMany name keys t).1 := by
  induction keys generalizing s t with
  | nil => exact h
  | cons key keys ih =>
      obtain ⟨s', hs', hcons⟩ := removeMany_cons now s name key keys
      obtain ⟨t', ht', hcons'⟩ := removeMany_cons now t name key keys
      rw [hcons, hcons']
      exact ih (hs'.symm.trans ((h.removeEntry ..).trans ht'))

theorem Similar.perform (hmax : config.maxEntriesPerCollection = none)
    (h : Similar now s t) (order order' : Order) {action : Action}
    (hentries : action.onEntries = true) :
    Similar now (perform config now order s action).state
        (perform config now order' t action).state ∧
      (action.counts = false →
        (perform config now order s action).result =
          (perform config now order' t action).result) := by
  cases action with
  | cull | destroyCollection => cases hentries
  | put name key stored =>
      rcases h.collection_cases name with ⟨hs, ht⟩ | ⟨col, col', hs, ht⟩
      · simp only [Memory.perform, put, hs, ht]
        exact ⟨h, fun _ => trivial⟩
      · simp only [Memory.perform, put, hs, ht, enforceCapacity_unbounded hmax]
        exact ⟨h.insertEntry .., fun _ => trivial⟩
  | putMany name keys entries =>
      rcases h.collection_cases name with ⟨hs, ht⟩ | ⟨col, col', hs, ht⟩
      · simp only [Memory.perform, putMany, hs, ht]
        exact ⟨h, fun _ => trivial⟩
      · simp only [Memory.perform, putMany, hs, ht,
          enforceCapacity_unbounded hmax]
        exact ⟨h.insertMany _, fun _ => trivial⟩
  | delete name key =>
      refine ⟨?_, fun hcounts => by cases hcounts⟩
      exact (similar_delete s name key).symm.trans
        ((h.removeEntry ..).trans (similar_delete t name key))
  | deleteMany name keys =>
      refine ⟨?_, fun hcounts => by cases hcounts⟩
      rcases h.collection_cases name with ⟨hs, ht⟩ | ⟨col, col', hs, ht⟩
      · simpa only [Memory.perform, deleteMany, hs, ht] using h
      · simpa only [Memory.perform, deleteMany, hs, ht] using h.removeMany keys
  | compareAndSwap name key expected stored =>
      rcases h.collection_cases name with ⟨hs, ht⟩ | ⟨col, col', hs, ht⟩
      · simp only [Memory.perform, compareAndSwap, hs, ht]
        exact ⟨h, fun _ => trivial⟩
      · have hspec := swap_spec now key hs expected stored
        have hspec' := swap_spec now key ht expected stored
        simp only [Memory.perform, ← h.live] at hspec hspec' ⊢
        split at hspec
        · rename_i hexpected
          rw [if_pos hexpected] at hspec'
          refine ⟨hspec.2.symm.trans ((h.insertEntry ..).trans hspec'.2), ?_⟩
          exact fun _ => hspec.1.trans hspec'.1.symm
        · rename_i hexpected
          rw [if_neg hexpected] at hspec'
          refine ⟨hspec.2.symm.trans (h.trans hspec'.2), ?_⟩
          exact fun _ => hspec.1.trans hspec'.1.symm
  | compareAndDelete name key expected =>
      rcases h.collection_cases name with ⟨hs, ht⟩ | ⟨col, col', hs, ht⟩
      · simp only [Memory.perform, compareAndDelete, hs, ht]
        exact ⟨h, fun _ => trivial⟩
      · have hspec := remove_spec now key hs expected
        have hspec' := remove_spec now key ht expected
        simp only [Memory.perform, ← h.live] at hspec hspec' ⊢
        split at hspec
        · rename_i hexpected
          rw [if_pos hexpected] at hspec'
          refine ⟨hspec.2.symm.trans ((h.removeEntry ..).trans hspec'.2), ?_⟩
          exact fun _ => hspec.1.trans hspec'.1.symm
        · rename_i hexpected
          rw [if_neg hexpected] at hspec'
          refine ⟨hspec.2.symm.trans (h.trans hspec'.2), ?_⟩
          exact fun _ => hspec.1.trans hspec'.1.symm

theorem prepare_lock {rng : Nat → Option Revision} {order : Order}
    {call : Call} {action : Action} (hentries : call.onEntries = true)
    (h : (prepare config rng now order s call).2 = .lock action) :
    action.onEntries = true ∧ action.counts = call.counts := by
  cases call with
  | subscribe | cull | collections | destroyCollection | destroy =>
      cases hentries
  | get | ttl | getMany | ttlMany | getWithRevision | keys => cases h
  | delete | deleteMany | compareAndDelete =>
      cases h
      exact ⟨rfl, rfl⟩
  | put | putMany | compareAndSwap =>
      simp only [prepare] at h
      split at h
      · cases h
      · split at h
        · cases h
        · cases h
          exact ⟨rfl, rfl⟩

theorem Poised.finish {rng : Nat → Option Revision}
    (hmax : config.maxEntriesPerCollection = none) {order order' : Order}
    {call : Call} (hentries : call.onEntries = true)
    (h : Poised now (prepare config rng now order s call)
      (prepare config rng now order' t call)) :
    Similar now
        (finish config now order (prepare config rng now order s call)).2
        (finish config now order' (prepare config rng now order' t call)).2 ∧
      (call.counts = false →
        (finish config now order (prepare config rng now order s call)).1 =
          (finish config now order'
            (prepare config rng now order' t call)).1) := by
  obtain ⟨hphase, hstate⟩ := h
  have hlock : ∀ action, (prepare config rng now order s call).2 =
      .lock action → action.onEntries = true ∧ action.counts = call.counts :=
    fun _ => prepare_lock hentries
  generalize prepare config rng now order s call = p at hphase hstate hlock ⊢
  generalize prepare config rng now order' t call = p' at hphase hstate ⊢
  obtain ⟨s', phase⟩ := p
  obtain ⟨t', phase'⟩ := p'
  cases hphase
  cases phase with
  | lock action =>
      obtain ⟨haction, hcounts⟩ := hlock action rfl
      obtain ⟨hsimilar, hresult⟩ :=
        Similar.perform hmax hstate order order' haction
      refine ⟨?_, fun hcall => hresult (hcounts.trans hcall)⟩
      exact (similar_recordChanges _ _).symm.trans
        (hsimilar.trans (similar_recordChanges _ _))
  | done result => exact ⟨hstate, fun _ => rfl⟩
  | idle | setup | lockSubscribe | lockDestroy | record | replay | reset =>
      exact ⟨hstate, fun _ => rfl⟩

end Actions

end OpenKeyV.Memory
