import OpenKeyV.Memory.Similar

/-!
# Expired entries

One call at one instant, on a state and on the same state without the entries
that have expired by then.  The store is unbounded, so that no write evicts.
-/

namespace OpenKeyV.Memory

open OpenKeyV.Library

def MemoryState.purge (s : MemoryState) (now : DateTime) : MemoryState :=
  { s with
    collections := KeyedMap.mapValues
      (KeyedMap.retain fun _ stored => !stored.isExpired now) s.collections }

/-- Nothing that the call returns or leaves tells whether the expired entries
are still there. -/
def Unobservable (config : MemoryConfig) (rng : Nat → Option Revision)
    (now : DateTime) (s : MemoryState) (call : Call) : Prop :=
  (∀ result,
    (∃ order, (runAlone config rng now order call s).1 = result) ↔
      ∃ order, (runAlone config rng now order call (s.purge now)).1 =
        result) ∧
  ∀ order order' name key,
    (runAlone config rng now order call s).2.live now name key =
      (runAlone config rng now order' call (s.purge now)).2.live now name key

def Unexpired (now : DateTime) (s : MemoryState) (name key : String) : Prop :=
  ∀ stored, s.entry name key = some stored → stored.isExpired now = false

section Purge

variable {now : DateTime} {s t : MemoryState} {name key : String}

theorem entry_purge (s : MemoryState) (name key : String) :
    (s.purge now).entry name key = s.live now name key := by
  unfold MemoryState.live MemoryState.entry MemoryState.purge
    MemoryState.collection
  cases hcol : s.collections.lookup name with
  | none => simp [hcol]
  | some col => simp [hcol]

theorem similar_purge (s : MemoryState) : Similar now s (s.purge now) := by
  refine ⟨fun name => ?_, fun name key => ?_, rfl, rfl⟩
  · simp [MemoryState.purge, MemoryState.collection]
  · rw [MemoryState.live, MemoryState.live, entry_purge, MemoryState.live,
      Option.filter_filter]
    simp

theorem unexpired_purge (s : MemoryState) (name key : String) :
    Unexpired now (s.purge now) name key := by
  intro stored hstored
  rw [entry_purge, MemoryState.live, Option.filter_eq_some_iff] at hstored
  simpa using hstored.2

theorem Unexpired.live (h : Unexpired now s name key) :
    s.live now name key = s.entry name key := by
  cases hentry : s.entry name key with
  | none => exact live_none_of_absent now hentry
  | some stored => exact live_of_entry hentry (h stored hentry)

end Purge

/-! ## What counts and lists -/

section Counts

variable {now : DateTime} {s t : MemoryState} {name : String}

theorem unexpired_removeEntry (h : ∀ key, Unexpired now s name key)
    (key : String) (expected : Option Revision) (key' : String) :
    Unexpired now (s.removeEntry name key expected) name key' := by
  intro stored hstored
  cases hcol : s.collection name with
  | none => simp [MemoryState.removeEntry, MemoryState.entry, hcol] at hstored
  | some col =>
      rw [entry_removeEntry hcol] at hstored
      split at hstored
      · cases hstored
      · exact h key' stored hstored

theorem entry_similar (h : Similar now s t)
    (ht : ∀ key, Unexpired now t name key) (key : String) :
    t.entry name key = s.live now name key := by
  rw [h.live, (ht key).live]

theorem result_delete {col : Collection} (hcol : s.collection name = some col)
    (key : String) :
    (delete name s key).result = .ok (.flag (s.entry name key).isSome) := by
  unfold delete
  rw [hcol, s.entry_eq name key hcol]
  simp only
  cases col.lookup key <;> rfl

theorem isSome_live_iff (key : String) :
    (s.entry name key).isSome = (s.live now name key).isSome ↔
      Unexpired now s name key := by
  cases hentry : s.entry name key with
  | none => simp [live_none_of_absent now hentry, Unexpired, hentry]
  | some stored =>
      cases hexpired : stored.isExpired now with
      | true =>
          simp [live_none_of_expired hentry hexpired, Unexpired, hentry,
            hexpired]
      | false =>
          simp [live_of_entry hentry hexpired, Unexpired, hentry, hexpired]

theorem count_removeMany (keys : List String) (h : Similar now s t)
    (ht : ∀ key, Unexpired now t name key) :
    (removeMany name keys t).2.length ≤ (removeMany name keys s).2.length ∧
      ((removeMany name keys s).2.length = (removeMany name keys t).2.length ↔
        ∀ key ∈ keys, Unexpired now s name key) := by
  induction keys generalizing s t with
  | nil => simp [removeMany]
  | cons key keys ih =>
      have hentry := entry_similar h ht key
      rw [List.forall_mem_cons]
      simp only [removeMany, hentry]
      cases hs : s.entry name key with
      | none =>
          rw [live_none_of_absent now hs]
          have hkey : Unexpired now s name key := by
            intro stored hstored
            rw [hs] at hstored
            cases hstored
          simpa [hkey] using ih h ht
      | some stored =>
          obtain ⟨col, hcol, _⟩ := Option.bind_eq_some_iff.mp hs
          cases hexpired : stored.isExpired now with
          | true =>
              have hlive := live_none_of_expired hs hexpired
              have hkey : ¬ Unexpired now s name key := by
                intro hkey
                rw [hkey stored hs] at hexpired
                cases hexpired
              have hrest := (ih ((similar_removeEntry hlive none).symm.trans h)
                ht).1
              rw [hlive]
              simp only [List.length_cons, hkey, false_and, iff_false]
              omega
          | false =>
              have hkey : Unexpired now s name key := by
                intro stored' hstored
                rw [hs] at hstored
                cases hstored
                exact hexpired
              have hrest := ih (h.removeEntry name key none)
                (unexpired_removeEntry ht key none)
              have hsame : (∀ key' ∈ keys,
                  Unexpired now (s.removeEntry name key none) name key') ↔
                  ∀ key' ∈ keys, Unexpired now s name key' := by
                refine forall₂_congr fun key' _ => ?_
                unfold Unexpired
                rw [entry_removeEntry hcol]
                split
                · rename_i hcell
                  cases hcell
                  simp [hs, hexpired]
                · rfl
              rw [live_of_entry hs hexpired]
              rw [hsame] at hrest
              simp only [List.length_cons, hkey, true_and]
              refine ⟨by omega, ?_⟩
              rw [← hrest.2]
              omega

def keysOf (s : MemoryState) (name : String) : List String :=
  ((s.collection name).getD ∅).keys

theorem mem_keysOf {key : String} :
    key ∈ keysOf s name ↔ ∃ stored, s.entry name key = some stored := by
  rw [keysOf, KeyedMap.mem_keys_iff, MemoryState.entry]
  cases s.collection name with
  | none => simp
  | some col => simp

theorem listed_iff {n : Nat} (h : Similar now s t)
    (ht : ∀ key, Unexpired now t name key) :
    (∀ names, (∃ order : Order, (order.keys name (keysOf s name)).take n =
        names) ↔
      ∃ order : Order, (order.keys name (keysOf t name)).take n = names) ↔
      n = 0 ∨ ∀ key, Unexpired now s name key := by
  constructor
  · intro hsame
    by_contra hnot
    obtain ⟨hn, hexpired⟩ := not_or.mp hnot
    obtain ⟨key, hkey⟩ := not_forall.mp hexpired
    obtain ⟨stored, hstored⟩ := not_forall.mp hkey
    obtain ⟨hentry, hfresh⟩ := Classical.not_imp.mp hstored
    have hmem : key ∈ keysOf s name := mem_keysOf.mpr ⟨stored, hentry⟩
    obtain ⟨order, horder⟩ := exists_order_keys
      (List.perm_cons_erase hmem).symm name
    obtain ⟨order', horder'⟩ := (hsame _).mp ⟨order, rfl⟩
    have hfirst : key ∈ (order'.keys name (keysOf t name)).take n := by
      rw [horder', horder, List.mem_take_iff_getElem]
      exact ⟨0, by simp; omega, rfl⟩
    have hlisted := (order'.keys_perm name _).mem_iff.mp
      (List.mem_of_mem_take hfirst)
    obtain ⟨stored', hstored'⟩ := mem_keysOf.mp hlisted
    rw [entry_similar h ht key,
      live_none_of_expired hentry (by simpa using hfresh)] at hstored'
    cases hstored'
  · rintro (rfl | hfresh) names
    · simp only [List.take_zero]
    · have hperm : (keysOf s name).Perm (keysOf t name) := by
        refine (List.perm_ext_iff_of_nodup (AList.keys_nodup _)
          (AList.keys_nodup _)).mpr fun key => ?_
        change key ∈ keysOf s name ↔ key ∈ keysOf t name
        rw [mem_keysOf, mem_keysOf, entry_similar h ht key, (hfresh key).live]
      constructor
      · rintro ⟨order, rfl⟩
        obtain ⟨order', horder'⟩ := exists_order_keys
          ((order.keys_perm name _).trans hperm) name
        exact ⟨order', by rw [horder']⟩
      · rintro ⟨order, rfl⟩
        obtain ⟨order', horder'⟩ := exists_order_keys
          ((order.keys_perm name _).trans hperm.symm) name
        exact ⟨order', by rw [horder']⟩

end Counts

/-! ## The setup -/

section Setup

variable {config : MemoryConfig} {rng : Nat → Option Revision}
  {now : DateTime} {s : MemoryState}

theorem loadSeed_order (hmax : config.maxEntriesPerCollection = none)
    (order order' : Order)
    (seed : List (Sigma fun _ : String => KeyedMap String Value))
    (s : MemoryState) :
    loadSeed config rng now order seed s =
      loadSeed config rng now order' seed s := by
  induction seed generalizing s with
  | nil => rfl
  | cons entry seed ih =>
      simp only [loadSeed, enforceCapacity_unbounded hmax, ih]

variable (rng now) in
theorem setup_order (hmax : config.maxEntriesPerCollection = none)
    (order order' : Order) (s : MemoryState) :
    setup config rng now order s = setup config rng now order' s := by
  simp only [setup, loadSeed_order hmax order order']

def AllUnexpired (now : DateTime) (s : MemoryState) : Prop :=
  ∀ name key, Unexpired now s name key

theorem AllUnexpired.loadItems {name : String}
    {items : List (Sigma fun _ : String => Value)} (h : AllUnexpired now s) :
    AllUnexpired now (loadItems rng now name items s).2 := by
  induction items generalizing s with
  | nil => exact h
  | cons item items ih =>
      rw [Memory.loadItems]
      have hdrawn : AllUnexpired now (s.fresh rng).2 := h
      generalize s.fresh rng = drawn at hdrawn ⊢
      rcases drawn with ⟨_ | revision, s'⟩
      · exact hdrawn
      · refine ih fun name' key' stored hstored => ?_
        cases hcol : s'.collection name with
        | none =>
            rw [MemoryState.insertEntry, hcol] at hstored
            exact hdrawn name' key' stored hstored
        | some col =>
            rw [entry_insertEntry hcol] at hstored
            split at hstored
            · cases hstored
              rfl
            · exact hdrawn name' key' stored hstored

theorem AllUnexpired.loadSeed (hmax : config.maxEntriesPerCollection = none)
    {order : Order}
    {seed : List (Sigma fun _ : String => KeyedMap String Value)}
    (h : AllUnexpired now s) :
    AllUnexpired now (loadSeed config rng now order seed s).2 := by
  induction seed generalizing s with
  | nil => exact h
  | cons entry seed ih =>
      have hcreated : AllUnexpired now (s.ensureCollection entry.1) := by
        intro name key stored hstored
        rw [MemoryState.entry_ensureCollection] at hstored
        exact h name key stored hstored
      have hloaded : AllUnexpired now (Memory.loadItems rng now entry.1
          entry.2.entries (s.ensureCollection entry.1)).2 :=
        hcreated.loadItems
      rw [Memory.loadSeed]
      generalize Memory.loadItems rng now entry.1 entry.2.entries
        (s.ensureCollection entry.1) = loaded at hloaded ⊢
      rcases loaded with ⟨_ | _, s'⟩
      · exact hloaded
      · simp only [enforceCapacity_unbounded hmax]
        exact ih hloaded

theorem AllUnexpired.setup (hmax : config.maxEntriesPerCollection = none)
    {order : Order} (h : AllUnexpired now s) :
    AllUnexpired now (setup config rng now order s).2 := by
  unfold Memory.setup
  split
  · exact h
  · split
    · exact h
    · rename_i seed _
      have hloaded : AllUnexpired now
          (Memory.loadSeed config rng now order seed.entries s).2 :=
        h.loadSeed hmax
      generalize Memory.loadSeed config rng now order seed.entries s = loaded
        at hloaded ⊢
      rcases loaded with ⟨_ | _, s'⟩ <;> exact hloaded

end Setup

/-! ## Every call -/

def Discreet (config : MemoryConfig) (now : DateTime) (s : MemoryState) :
    Call → Prop
  | .delete key collection =>
      Unexpired now s (config.collectionName collection) key
  | .deleteMany keys collection =>
      ∀ key ∈ keys, Unexpired now s (config.collectionName collection) key
  | .keys collection limit =>
      pageLen limit = 0 ∨
        ∀ key, Unexpired now s (config.collectionName collection) key
  | _ => True

section Calls

variable {config : MemoryConfig} {rng : Nat → Option Revision}
  {now : DateTime} {order : Order} {s t : MemoryState} {call : Call}

variable (now) in
theorem start_entries (hentries : call.onEntries = true) :
    start now call = .setup call ∨
      ∃ error, start now call = .done (.error error) := by
  cases call with
  | subscribe | cull | collections | destroyCollection | destroy =>
      cases hentries
  | get | ttl | getMany | ttlMany | getWithRevision | keys | put | delete
  | deleteMany | compareAndDelete => exact .inl rfl
  | putMany =>
      simp only [start]
      split
      · exact .inr ⟨_, rfl⟩
      · split
        · exact .inr ⟨_, rfl⟩
        · exact .inl rfl
  | compareAndSwap =>
      simp only [start]
      split
      · exact .inr ⟨_, rfl⟩
      · exact .inl rfl

theorem runAlone_eq (hstart : start now call = .setup call) :
    runAlone config rng now order call s =
      andThen (fun _ s => finish config now order
        (prepare config rng now order s call))
        (setup config rng now order s) := by
  simp only [runAlone, hstart, enter]
  rcases setup config rng now order s with ⟨_ | _, _⟩ <;> rfl

variable (rng) in
theorem similar_runAlone (hmax : config.maxEntriesPerCollection = none)
    (hentries : call.onEntries = true) (order order' : Order)
    (h : Similar now s t) :
    Similar now (runAlone config rng now order call s).2
        (runAlone config rng now order' call t).2 ∧
      (call.lists = false → call.counts = false →
        (runAlone config rng now order call s).1 =
          (runAlone config rng now order' call t).1) := by
  rcases start_entries now hentries with hstart | ⟨error, hstart⟩
  · rw [runAlone_eq hstart, runAlone_eq hstart]
    obtain ⟨hresult, hstate⟩ := alike_setup rng hmax order order' h
    generalize setup config rng now order s = ready at hresult hstate ⊢
    generalize setup config rng now order' t = ready' at hresult hstate ⊢
    obtain ⟨result, s'⟩ := ready
    obtain ⟨result', t'⟩ := ready'
    cases hresult
    cases result with
    | error error => exact ⟨hstate, fun _ _ => rfl⟩
    | ok _ =>
        cases hlists : call.lists with
        | false =>
            have hposed := Poised.finish hmax hentries
              (poised_prepare rng hentries hlists order order' hstate)
            exact ⟨hposed.1, fun _ => hposed.2⟩
        | true =>
            cases call <;> cases hlists
            exact ⟨hstate.ensureCollection _, fun hnot => by cases hnot⟩
  · rw [runAlone, runAlone, hstart]
    exact ⟨h, fun _ _ => rfl⟩

theorem answers_iff (hmax : config.maxEntriesPerCollection = none)
    (hstart : start now call = .setup call)
    (answer : Order → MemoryState → Except Error Response)
    (hanswer : ∀ order s, (finish config now order
      (prepare config rng now order s call)).1 = answer order s)
    (h : Similar now s t) :
    (∀ result,
      (∃ order, (runAlone config rng now order call s).1 = result) ↔
        ∃ order, (runAlone config rng now order call t).1 = result) ↔
    ∀ order s', setup config rng now order s = (.ok (), s') →
      ∀ result, (∃ order, answer order s' = result) ↔
        ∃ order, answer order (setup config rng now .stored t).2 = result := by
  have halike := alike_setup rng hmax .stored .stored h
  have hrun : ∀ order s, runAlone config rng now order call s =
      andThen (fun _ s => finish config now order
        (prepare config rng now order s call))
        (setup config rng now .stored s) := fun order s => by
    rw [runAlone_eq hstart, setup_order rng now hmax order .stored]
  have hsetup := fun order => setup_order rng now hmax order
    .stored s
  simp only [hrun, hsetup]
  generalize setup config rng now .stored s = ready at halike ⊢
  generalize setup config rng now .stored t = ready' at halike ⊢
  obtain ⟨result, s'⟩ := ready
  obtain ⟨result', t'⟩ := ready'
  obtain ⟨hresult, _⟩ := halike
  cases hresult
  cases result with
  | error error => simp [andThen]
  | ok _ =>
      simp only [andThen, hanswer, Prod.mk.injEq, true_and]
      exact ⟨fun hsame _ s'' hs'' => hs'' ▸ hsame, fun hsame =>
        hsame .stored s' rfl⟩

end Calls

/-- On an unbounded store the expired entries cannot be observed, but for
deletions that name one and listings of a collection that holds one. -/
theorem expired_unobservable_iff (config : MemoryConfig)
    (rng : Nat → Option Revision) (now : DateTime) (s : MemoryState)
    (call : Call) (hmax : config.maxEntriesPerCollection = none)
    (hentries : call.onEntries = true) :
    Unobservable config rng now s call ↔
      ∀ order s', setup config rng now order s = (.ok (), s') →
        Discreet config now s' call := by
  have hsimilar : Similar now s (s.purge now) := similar_purge s
  have hstates := fun order order' => (similar_runAlone rng hmax
    hentries order order' hsimilar).1
  have hlive : ∀ order order' name key,
      (runAlone config rng now order call s).2.live now name key =
        (runAlone config rng now order' call (s.purge now)).2.live now name
          key := fun order order' => (hstates order order').live
  have hunexpired : AllUnexpired now
      (setup config rng now .stored (s.purge now)).2 :=
    AllUnexpired.setup hmax fun name key => unexpired_purge s name key
  have hready : ∀ order s', setup config rng now order s = (.ok (), s') →
      Similar now s' (setup config rng now .stored (s.purge now)).2 := by
    intro order s' hs'
    have halike := (alike_setup rng hmax order .stored hsimilar).2
    rwa [hs'] at halike
  rw [Unobservable, and_iff_left hlive]
  cases call with
  | delete key collection =>
      rw [answers_iff hmax rfl (fun _ s => .ok (.flag
        (s.entry (config.collectionName collection) key).isSome)) ?_ hsimilar]
      · refine forall_congr' fun order => forall_congr' fun s' => ?_
        refine forall_congr' fun hs' => ?_
        have hsame := hready order s' hs'
        rw [Discreet, ← isSome_live_iff, hsame.live,
          (hunexpired _ _).live]
        constructor
        · intro hall
          obtain ⟨_, hflag⟩ := (hall _).mp ⟨order, rfl⟩
          simpa using hflag.symm
        · intro hflag result
          rw [hflag]
      · intro order s
        simp only [prepare, finish, perform]
        rw [result_delete (s.collection_ensureCollection _ _ ▸ if_pos rfl)]
        rw [MemoryState.entry_ensureCollection]
  | deleteMany keys collection =>
      let name := config.collectionName collection
      rw [answers_iff hmax rfl (fun _ s => .ok (.count (removeMany name keys
        (s.ensureCollection name)).2.length)) ?_ hsimilar]
      · refine forall_congr' fun order => forall_congr' fun s' => ?_
        refine forall_congr' fun hs' => ?_
        have hcount := (count_removeMany keys
          ((hready order s' hs').ensureCollection name) fun key => by
            simpa only [Unexpired, MemoryState.entry_ensureCollection]
              using hunexpired name key).2
        simp only [Unexpired, MemoryState.entry_ensureCollection] at hcount
        rw [Discreet]
        refine Iff.trans ?_ hcount
        constructor
        · intro hall
          obtain ⟨_, hlength⟩ := (hall _).mp ⟨order, rfl⟩
          simpa using hlength.symm
        · intro hlength result
          rw [hlength]
      · intro order s
        simp only [prepare, finish, perform, deleteMany,
          MemoryState.collection_ensureCollection, if_pos]
        rfl
  | keys collection limit =>
      let name := config.collectionName collection
      rw [answers_iff hmax rfl (fun order s => .ok (.names ((order.keys name
        (keysOf s name)).take (pageLen limit)))) ?_ hsimilar]
      · refine forall_congr' fun order => forall_congr' fun s' => ?_
        refine forall_congr' fun hs' => ?_
        rw [Discreet, ← listed_iff (hready order s' hs') (hunexpired name)]
        constructor
        · intro hall names
          simpa using hall (.ok (.names names))
        · intro hall result
          constructor
          · rintro ⟨order, rfl⟩
            obtain ⟨order', horder⟩ := (hall _).mp ⟨order, rfl⟩
            exact ⟨order', by rw [horder]⟩
          · rintro ⟨order, rfl⟩
            obtain ⟨order', horder⟩ := (hall _).mpr ⟨order, rfl⟩
            exact ⟨order', by rw [horder]⟩
      · intro order s
        simp only [prepare, finish, Memory.keys, getCollection_ensure]
        rfl
  | subscribe | cull | collections | destroyCollection | destroy =>
      cases hentries
  | get | ttl | getMany | ttlMany | getWithRevision | put | putMany
  | compareAndSwap | compareAndDelete =>
      refine iff_of_true (fun result => ?_) fun _ _ _ => trivial
      have hresults := fun order => (similar_runAlone rng hmax
        hentries order order hsimilar).2 rfl rfl
      simp only [hresults]

def secondEntry : RevisionedEntry :=
  ⟨⟨.null, some .epoch,
      some ⟨1000000000, DateTime.second_lower, DateTime.second_upper⟩⟩,
    .fill 0⟩

def secondLater : DateTime :=
  ⟨1000000000, DateTime.second_lower, DateTime.second_upper⟩

def afterShortPut : MemoryState :=
  (runAlone ⟨none, "c", none⟩ (fun _ => some (.fill 0)) .epoch .stored
    (.put "k" .null none (some (.finite 1))) .empty).2

theorem get_hides_expired :
    (∃ stored, afterShortPut.entry "c" "k" = some stored ∧
      stored.isExpired secondLater = true) ∧
    Unobservable ⟨none, "c", none⟩ (fun _ => some (.fill 0)) secondLater
      afterShortPut (.get "k" none) :=
  ⟨⟨secondEntry, by decide +kernel, by decide +kernel⟩,
    (expired_unobservable_iff _ _ _ _ _ rfl rfl).mpr fun _ _ _ => trivial⟩

/-- In no reachable state can expired entries be observed. -/
def NeverObservable (config : MemoryConfig) (rng : Nat → Option Revision) :
    Prop :=
  ∀ clock labels s now call,
    run (System.step config rng) (.init clock) labels = some s →
    call.onEntries = true → Unobservable config rng now s.state call

/-- A delete tells that an expired entry is still there. -/
theorem delete_reports_expired :
    ¬ NeverObservable ⟨none, "c", none⟩ (fun _ => some (.fill 0)) := by
  intro h
  let config : MemoryConfig := ⟨none, "c", none⟩
  let rng : Nat → Option Revision := fun _ => some (.fill 0)
  let late : DateTime := secondLater
  let labels : List Label := [.call 0 (.put "k" .null none (some (.finite 1))),
    .resume 0 .stored, .resume 0 .stored, .resume 0 .stored]
  have hstored : (run (System.step config rng) (.init .epoch) labels).map
      (fun s => (s.state.setupComplete, s.state.entry "c" "k")) =
      some (true, some secondEntry) := by decide +kernel
  obtain ⟨s, hrun, hs⟩ := Option.map_eq_some_iff.mp hstored
  obtain ⟨hcomplete, hentry⟩ := Prod.mk.inj hs
  have hdelete : ∀ order (t : MemoryState), t.setupComplete = true →
      (runAlone config rng late order (.delete "k" none) t).1 =
        .ok (.flag (t.entry "c" "k").isSome) := by
    intro order t ht
    have hcol : (t.ensureCollection "c").collection "c" =
        some ((t.collection "c").getD ∅) := by simp
    rw [runAlone_eq rfl, setup_complete ht]
    simp only [andThen, prepare, finish, perform]
    exact (result_delete hcol "k").trans
      (by rw [MemoryState.entry_ensureCollection])
  obtain ⟨order, hpurged⟩ := ((h _ _ _ late _ hrun rfl).1 (.ok (.flag true))).mp
    ⟨.stored, by rw [hdelete _ _ hcomplete, hentry]; rfl⟩
  have hgone := hdelete order (s.state.purge late) hcomplete
  rw [entry_purge, live_none_of_expired hentry (by decide)] at hgone
  cases hgone.symm.trans hpurged

end OpenKeyV.Memory
