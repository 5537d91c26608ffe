import OpenKeyV.Entry.Lifetime
import OpenKeyV.Memory.Eviction
import OpenKeyV.Wrapper.InvalidRoutes

/-!
# `put_many` and the `put`s it stands for

Both write the same entries, but the batch enforces the capacity once, at its
end, and also if there is nothing to write.
-/

namespace OpenKeyV.Memory

open OpenKeyV.Library

section Runs

variable (config : MemoryConfig) (rng : Nat → Option Revision)
  (now : DateTime) (order : Order)

def pendingOf : MemoryState × Phase → List Mutation
  | (s, .lock action) => (perform config now order s action).pending
  | _ => []

def changesOf (call : Call) (s : MemoryState) : List Mutation :=
  match start now call with
  | .setup call =>
      pendingOf config now order (enter config rng now order s call)
  | phase => pendingOf config now order (s, phase)

variable (orders : Nat → Order) (collection : Option String)
  (ttl : Option F64)

def putEach : Nat → List (String × Value) → MemoryState →
    MemoryState × List Mutation
  | _, [], s => (s, [])
  | n, (key, value) :: items, s =>
      let call := Call.put key value collection ttl
      let rest := putEach (n + 1) items
        (runAlone config rng now (orders n) call s).2
      (rest.1, changesOf config rng now (orders n) call s ++ rest.2)

def contents (s : MemoryState) : Collection :=
  ((setup config rng now order s).2.collection
    (config.collectionName collection)).getD ∅

/-- The batch leaves the same keys and values as the puts, and what either
records amounts to the same keys. -/
def LikePuts (keys : List String) (values : List Value) (s : MemoryState) :
    Prop :=
  let name := config.collectionName collection
  let call := Call.putMany keys values collection ttl
  let each := putEach config rng now orders collection ttl 0
    (keys.zip values) s
  SameValues
      (contents config rng now (orders 0) collection
        (runAlone config rng now (orders 0) call s).2)
      (contents config rng now (orders 0) collection each.1) ∧
    ∀ start, foldChanges name start
        (changesOf config rng now (orders 0) call s) =
      foldChanges name start each.2

def Ephemeral : Option F64 → Prop
  | some (.finite secs) => secs * 1000 < 1
  | _ => False

end Runs

section Calls

variable {config : MemoryConfig} {rng : Nat → Option Revision}
  {now : DateTime} {order : Order} {s t : MemoryState} {call : Call}

theorem changes_runAlone (call : Call) (s : MemoryState) :
    (runAlone config rng now order call s).2.changes =
      (changesOf config rng now order call s).foldl
        (fun changes mutation => changes.recordChange now mutation)
        s.changes := by
  have hfold : ∀ (mutations : List Mutation) (s : MemoryState),
      (mutations.foldl (fun s mutation => s.recordChange now mutation)
          s).changes =
        mutations.foldl
          (fun changes mutation => changes.recordChange now mutation)
          s.changes := by
    intro mutations
    induction mutations with
    | nil => exact fun _ => rfl
    | cons mutation mutations ih =>
        exact fun s => ih (s.recordChange now mutation)
  have hfinish : ∀ p : MemoryState × Phase,
      (finish config now order p).2.changes =
        (pendingOf config now order p).foldl
          (fun changes mutation => changes.recordChange now mutation)
          p.1.changes := by
    rintro ⟨t, phase⟩
    cases phase with
    | lock action =>
        obtain ⟨events, hperformed⟩ :=
          perform_performed config now order t action
        rw [finish, hfold, hperformed.edits.quiet.1]
        rfl
    | _ => rfl
  cases hphase : start now call with
  | setup call' =>
      simp only [runAlone, changesOf, hphase]
      rw [hfinish, enter_changes]
  | _ =>
      simp only [runAlone, changesOf, hphase]
      exact hfinish (s, _)

theorem collections_recordChanges (mutations : List Mutation)
    (s : MemoryState) :
    (mutations.foldl (fun s mutation => s.recordChange now mutation)
      s).collections = s.collections := by
  induction mutations generalizing s with
  | nil => rfl
  | cons mutation mutations ih => exact ih (s.recordChange now mutation)

/-- A call that loads the seed does so before everything else. -/
theorem runAlone_after_setup (hstart : start now call = .setup call)
    (hset : setup config rng now order s = (.ok (), t))
    (hsetup : t.setupComplete = true) :
    runAlone config rng now order call s =
        runAlone config rng now order call t ∧
      changesOf config rng now order call s =
        changesOf config rng now order call t := by
  have henter : enter config rng now order s call =
      enter config rng now order t call := by
    rw [enter, enter, hset, setup_complete hsetup]
  simp only [runAlone, changesOf, hstart, henter, and_self]

theorem contents_complete (hsetup : s.setupComplete = true)
    (collection : Option String) :
    contents config rng now order collection s =
      (s.collection (config.collectionName collection)).getD ∅ := by
  rw [contents, setup_complete hsetup]

theorem enforceCapacity_settles {name : String} {col : Collection}
    (hcol : s.collection name = some col) :
    (enforceCapacity config now order name s).1.collection name =
        some (settle config now order name col) ∧
      (enforceCapacity config now order name s).2 =
        excessKeys config now order name col := by
  simp only [enforceCapacity, hcol, collection_removeKeys, if_pos, settle,
    Option.map_some, and_self]

theorem runAlone_locked {u : MemoryState} {action : Action}
    (hstart : start now call = .setup call)
    (hsetup : s.setupComplete = true)
    (hprepare : prepare config rng now order s call = (u, .lock action)) :
    let r := runAlone config rng now order call s
    let locked := perform config now order u action
    r.2.setupComplete = true ∧ r.2.collections = locked.state.collections ∧
      changesOf config rng now order call s = locked.pending := by
  have hready := @setupComplete_prepare config rng now order s call
  rw [hprepare] at hready
  have henter : enter config rng now order s call = (u, .lock action) := by
    rw [enter, setup_complete hsetup]
    exact hprepare
  simp only [runAlone, changesOf, hstart, henter, finish, pendingOf]
  refine ⟨?_, collections_recordChanges _ _, trivial⟩
  rw [(Wrapper.events_recordChanges _ _).2, setupComplete_perform, hready,
    hsetup]

theorem collection_insertMany {name : String} {col : Collection}
    (hcol : s.collection name = some col)
    (items : List (String × RevisionedEntry)) :
    (insertMany name s items).collection name =
      some (insertItems items col) := by
  induction items generalizing s col with
  | nil => exact hcol
  | cons item items ih =>
      apply ih
      rw [MemoryState.collection_insertEntry, if_pos rfl, hcol]
      rfl

end Calls

section Written

variable {config : MemoryConfig} {rng : Nat → Option Revision}
  {now : DateTime} {order : Order} {s : MemoryState}
  {collection : Option String} {ttl : Option F64}

def Entered (now : DateTime) (ttl : Option F64)
    (pairs : List (String × Value))
    (items : List (String × RevisionedEntry)) : Prop :=
  List.Forall₂ (fun pair item => item.1 = pair.1 ∧
    ManagedEntry.ofTtl now pair.2 ttl = .ok item.2.entry) pairs items

theorem isExpired_iff_ephemeral {value : Value} {entry : ManagedEntry}
    (h : ManagedEntry.ofTtl now value ttl = .ok entry) :
    entry.isExpired now = true ↔ Ephemeral ttl := by
  cases ttl with
  | none =>
      cases h
      exact iff_of_false Bool.false_ne_true id
  | some seconds =>
      obtain ⟨expires, hexpires, rfl⟩ := ManagedEntry.withTtl_eq_ok.mp h
      obtain ⟨secs, rfl, hpos, -, hnanos⟩ :=
        ManagedEntry.expirationAt_eq_ok.mp hexpires
      have hlife := @ManagedEntry.lifetimeMillis_pos secs
      have hnonneg := ManagedEntry.lifetimeMillis_nonneg hpos
      rw [ManagedEntry.isExpired, decide_eq_true_eq, Ephemeral, ← not_le,
        ← hlife, DateTime.le_def, hnanos]
      simp only [nanosPerMilli]
      omega

theorem Entered.life {pairs : List (String × Value)}
    {items : List (String × RevisionedEntry)}
    (h : Entered now ttl pairs items) :
    ∀ item ∈ items, item.2.isExpired now = true ↔ Ephemeral ttl := by
  induction h with
  | nil => exact fun _ h => by cases h
  | cons hhead _ ih =>
      exact List.forall_mem_cons.mpr ⟨isExpired_iff_ephemeral hhead.2, ih⟩

theorem Entered.keys {pairs : List (String × Value)}
    {items : List (String × RevisionedEntry)}
    (h : Entered now ttl pairs items) :
    items.map Prod.fst = pairs.map Prod.fst := by
  induction h with
  | nil => rfl
  | cons hhead _ ih => rw [List.map_cons, List.map_cons, hhead.1, ih]

theorem Entered.sameEntries {pairs : List (String × Value)}
    {items items' : List (String × RevisionedEntry)}
    (h : Entered now ttl pairs items) (h' : Entered now ttl pairs items')
    {col col' : Collection} (hcol : SameEntries col col') :
    SameEntries (insertItems items col) (insertItems items' col') := by
  induction h generalizing items' col col' with
  | nil =>
      cases h'
      exact hcol
  | cons hhead _ ih =>
      cases h' with
      | cons hhead' htail' =>
          apply ih htail'
          intro key
          rw [KeyedMap.lookup_insert_eq, KeyedMap.lookup_insert_eq, hhead.1,
            hhead'.1]
          split
          · exact congrArg some
              (Except.ok.inj (hhead.2.symm.trans hhead'.2))
          · exact hcol key

theorem exists_entries
    (hvalid : ∀ seconds, ttl = some seconds → ValidTtl now seconds)
    (values : List Value) :
    ∃ entries, (values.mapM fun value => ManagedEntry.ofTtl now value ttl) =
        .ok entries ∧
      List.Forall₂ (fun value entry =>
        ManagedEntry.ofTtl now value ttl = .ok entry) values entries := by
  induction values with
  | nil => exact ⟨[], rfl, .nil⟩
  | cons value values ih =>
      obtain ⟨entry, hentry⟩ := (ofTtl_eq_ok value).mpr hvalid
      obtain ⟨entries, hentries, hall⟩ := ih
      refine ⟨entry :: entries, ?_, .cons hentry hall⟩
      rw [List.mapM_cons, hentry, hentries]
      rfl

theorem entered_zip {keys : List String} {values : List Value}
    {entries : List ManagedEntry} {revisions : List Revision}
    (hkeys : keys.length = values.length)
    (hentries : List.Forall₂ (fun value entry =>
      ManagedEntry.ofTtl now value ttl = .ok entry) values entries)
    (hrevisions : revisions.length = entries.length) :
    Entered now ttl (keys.zip values)
      (keys.zip (entries.zipWith RevisionedEntry.mk revisions)) := by
  induction hentries generalizing keys revisions with
  | nil =>
      rw [List.length_eq_zero_iff.mp hkeys]
      exact .nil
  | cons hhead _ ih =>
      obtain ⟨key, keys, rfl⟩ := List.exists_cons_of_length_eq_add_one hkeys
      obtain ⟨revision, revisions, rfl⟩ :=
        List.exists_cons_of_length_eq_add_one hrevisions
      exact .cons ⟨rfl, hhead⟩
        (ih (Nat.succ.inj hkeys) (Nat.succ.inj hrevisions))

variable (hrng : Supplied rng)
  (hvalid : ∀ seconds, ttl = some seconds → ValidTtl now seconds)
  (hsetup : s.setupComplete = true)

include hrng hvalid hsetup

theorem runAlone_put_settles (key : String) (value : Value) :
    let name := config.collectionName collection
    let col := (s.collection name).getD ∅
    let call := Call.put key value collection ttl
    let r := runAlone config rng now order call s
    ∃ stored, ManagedEntry.ofTtl now value ttl = .ok stored.entry ∧
      r.2.setupComplete = true ∧
      r.2.collection name =
        some (settle config now order name (col.insert key stored)) ∧
      changesOf config rng now order call s =
        puts name [key] ++ deletions name
          (excessKeys config now order name (col.insert key stored)) := by
  intro name col call r
  obtain ⟨entry, hentry⟩ := (ofTtl_eq_ok value).mpr hvalid
  obtain ⟨revision, u, hfresh, hdrawn⟩ :=
    fresh_supplied hrng (s.ensureCollection name)
  have hprepare : prepare config rng now order s call =
      (u, .lock (.put name key ⟨entry, revision⟩)) := by
    simp only [call, prepare, hentry]
    simp only [name] at hfresh
    rw [hfresh]
  have hcol := (drawn_ensured hdrawn).1
  have hinserted : (u.insertEntry name key ⟨entry, revision⟩
      .plain).collection name = some (col.insert key ⟨entry, revision⟩) := by
    rw [MemoryState.collection_insertEntry, if_pos rfl, hcol]
    rfl
  obtain ⟨hsettled, hdeleted⟩ :=
    @enforceCapacity_settles config now order _ name _ hinserted
  obtain ⟨hready, hcollections, hpending⟩ :=
    runAlone_locked rfl hsetup hprepare
  refine ⟨⟨entry, revision⟩, hentry, hready, ?_, ?_⟩
  · rw [MemoryState.collection, hcollections]
    simp only [perform, Memory.put, hcol]
    exact hsettled
  · rw [hpending]
    simp only [perform, Memory.put, hcol]
    rw [hdeleted]
    rfl

theorem runAlone_putMany_settles {keys : List String} {values : List Value}
    (hlength : keys.length = values.length) :
    let name := config.collectionName collection
    let col := (s.collection name).getD ∅
    let call := Call.putMany keys values collection ttl
    let r := runAlone config rng now order call s
    ∃ items, Entered now ttl (keys.zip values) items ∧
      r.2.setupComplete = true ∧
      r.2.collection name =
        some (settle config now order name (insertItems items col)) ∧
      changesOf config rng now order call s =
        puts name keys ++ deletions name
          (excessKeys config now order name (insertItems items col)) := by
  intro name col call r
  obtain ⟨entries, hentries, hall⟩ := exists_entries hvalid values
  obtain ⟨revisions, u, hfresh, hrevisions, hdrawn⟩ :=
    freshMany_supplied hrng entries.length (s.ensureCollection name)
  let items := keys.zip (entries.zipWith RevisionedEntry.mk revisions)
  have hstart : start now call = .setup call := by
    simp only [call, start, hlength, ne_eq, not_true, if_false]
    cases httl : ttl with
    | none => rfl
    | some seconds =>
        rw [Option.map_some, validateTtl_eq_ok.mpr (hvalid seconds httl)]
  have hprepare : prepare config rng now order s call =
      (u, .lock (.putMany name keys
        (entries.zipWith RevisionedEntry.mk revisions))) := by
    simp only [call, prepare, hentries]
    simp only [name] at hfresh
    rw [hfresh]
  have hcol := (drawn_ensured hdrawn).1
  obtain ⟨hsettled, hdeleted⟩ := @enforceCapacity_settles config now order _
    name _ (collection_insertMany hcol items)
  obtain ⟨hready, hcollections, hpending⟩ :=
    runAlone_locked hstart hsetup hprepare
  refine ⟨items, entered_zip hlength hall hrevisions, hready, ?_, ?_⟩
  · rw [MemoryState.collection, hcollections]
    simp only [perform, Memory.putMany, hcol]
    exact hsettled
  · rw [hpending]
    simp only [perform, Memory.putMany, hcol]
    rw [hdeleted]
    rfl

omit hsetup in
theorem putEach_settles (orders : Nat → Order) (pairs : List (String × Value))
    (n : Nat) (s : MemoryState) (hsetup : s.setupComplete = true) :
    let name := config.collectionName collection
    let col := (s.collection name).getD ∅
    let r := putEach config rng now orders collection ttl n pairs s
    ∃ items, Entered now ttl pairs items ∧ r.1.setupComplete = true ∧
      (r.1.collection name).getD ∅ =
        settleEach config now orders name n items col ∧
      r.2 = changesEach config now orders name n items col := by
  induction pairs generalizing n s with
  | nil => exact ⟨[], .nil, hsetup, rfl, rfl⟩
  | cons pair pairs ih =>
      obtain ⟨key, value⟩ := pair
      obtain ⟨stored, hstored, hready, hcol, hchanges⟩ :=
        @runAlone_put_settles config rng now (orders n) s collection ttl hrng
          hvalid hsetup key value
      obtain ⟨items, hentered, hdone, hsettled, hrest⟩ := ih (n + 1) _ hready
      rw [hcol, Option.getD_some] at hsettled hrest
      refine ⟨(key, stored) :: items, .cons ⟨rfl, hstored⟩ hentered, hdone,
        hsettled, ?_⟩
      rw [putEach, hchanges, hrest]
      rfl

end Written

section LikePuts

variable {config : MemoryConfig} {rng : Nat → Option Revision}
  {now : DateTime} {orders : Nat → Order} {s t : MemoryState}
  {collection : Option String} {ttl : Option F64} {keys : List String}
  {values : List Value}

theorem likePuts_after_setup
    (hvalid : ∀ seconds, ttl = some seconds → ValidTtl now seconds)
    (hlength : keys.length = values.length)
    (hset : setup config rng now (orders 0) s = (.ok (), t))
    (hsetup : t.setupComplete = true) :
    LikePuts config rng now orders collection ttl keys values s ↔
      LikePuts config rng now orders collection ttl keys values t := by
  have hstart : start now (.putMany keys values collection ttl) =
      .setup (.putMany keys values collection ttl) := by
    simp only [start, hlength, ne_eq, not_true, if_false]
    cases httl : ttl with
    | none => rfl
    | some seconds =>
        rw [Option.map_some, validateTtl_eq_ok.mpr (hvalid seconds httl)]
  obtain ⟨hbatch, hchanges⟩ := runAlone_after_setup hstart hset hsetup
  have heach : contents config rng now (orders 0) collection
        (putEach config rng now orders collection ttl 0 (keys.zip values) s).1 =
      contents config rng now (orders 0) collection
        (putEach config rng now orders collection ttl 0 (keys.zip values) t).1 ∧
      (putEach config rng now orders collection ttl 0 (keys.zip values) s).2 =
        (putEach config rng now orders collection ttl 0
          (keys.zip values) t).2 := by
    cases keys.zip values with
    | nil =>
        refine ⟨?_, rfl⟩
        rw [putEach, putEach, contents_complete hsetup, contents, hset]
    | cons pair pairs =>
        obtain ⟨key, value⟩ := pair
        obtain ⟨hput, hrecorded⟩ := @runAlone_after_setup config rng now
          (orders 0) s t (.put key value collection ttl) rfl hset hsetup
        simp only [putEach, hput, hrecorded, and_self]
  simp only [LikePuts, hbatch, hchanges, heach.1, heach.2]

/-- Once the seed is loaded, the batch leaves what its puts leave exactly if
evicting once commutes with the insertions. -/
theorem likePuts_iff (hrng : Supplied rng)
    (hvalid : ∀ seconds, ttl = some seconds → ValidTtl now seconds)
    (hlength : keys.length = values.length) (hsetup : s.setupComplete = true) :
    LikePuts config rng now orders collection ttl keys values s ↔
      Commutes config now (Ephemeral ttl) keys
        ((s.collection (config.collectionName collection)).getD ∅) := by
  let name := config.collectionName collection
  let col := (s.collection name).getD ∅
  obtain ⟨batch, hbatch, hready, hcol, hchanges⟩ :=
    @runAlone_putMany_settles config rng now (orders 0) s collection ttl hrng
      hvalid hsetup keys values hlength
  obtain ⟨items, hitems, hdone, hsettled, hrecorded⟩ :=
    @putEach_settles config rng now collection ttl hrng hvalid orders
      (keys.zip values) 0 s hsetup
  have hkeys : ∀ {items : List (String × RevisionedEntry)},
      Entered now ttl (keys.zip values) items → items.map Prod.fst = keys :=
    fun h => by rw [h.keys, List.map_fst_zip (Nat.le_of_eq hlength)]
  have hsame : SameEntries
      (settle config now (orders 0) name (insertItems batch col))
      (settle config now (orders 0) name (insertItems items col)) :=
    (hbatch.sameEntries hitems fun _ => rfl).settle _ _
  have hiff := @sameValues_settleEach_iff config now orders name items col
    (Ephemeral ttl) hitems.life (orders 0) 0
  rw [hkeys hitems] at hiff
  rw [← hiff]
  have hvalues : ∀ {other : Collection},
      SameValues (settle config now (orders 0) name (insertItems batch col))
          other ↔
        SameValues (settle config now (orders 0) name (insertItems items col))
          other := fun {other} =>
    ⟨fun h key => (hsame.values key).symm.trans (h key),
      fun h key => (hsame.values key).trans (h key)⟩
  simp only [LikePuts, contents_complete hready, contents_complete hdone, hcol,
    hsettled, hchanges, hrecorded, Option.getD_some]
  rw [hvalues]
  refine and_iff_left_of_imp ?_
  intro h start
  have hbatchAccounts := @accounts_settle config now name col.keys.toFinset
    (insertItems batch col) keys (orders 0) (by
      rw [keys_insertItems, itemKeys, hkeys hbatch])
  have heachAccounts := @accounts_changesEach config now orders name items col 0
  rw [itemKeys, hkeys hitems, ← h.keys, ← hsame.keys] at heachAccounts
  exact hbatchAccounts.foldChanges_eq heachAccounts start

/-- `put_many` is like its puts exactly if evicting once commutes with the
insertions into the collection as they find it. -/
theorem put_many_like_puts_iff (orders : Nat → Order)
    (collection : Option String) (s : MemoryState) (hrng : Supplied rng)
    (hvalid : ∀ seconds, ttl = some seconds → ValidTtl now seconds)
    (hlength : keys.length = values.length) :
    LikePuts config rng now orders collection ttl keys values s ↔
      Commutes config now (Ephemeral ttl) keys
        (contents config rng now (orders 0) collection s) := by
  obtain ⟨t, hset, hsetup, -⟩ :=
    @Wrapper.setup_supplied config rng now (orders 0) hrng s
  rw [likePuts_after_setup hvalid hlength hset hsetup,
    likePuts_iff hrng hvalid hlength hsetup, contents, hset]

end LikePuts

def oneRevision : Nat → Option Revision := fun _ => some (.fill 1)

theorem put_many_like_puts_one :
    LikePuts capacityOne oneRevision .epoch (fun _ => .stored) none none
      ["b", "a"] [.null, .null] .empty :=
  (put_many_like_puts_iff (fun _ => .stored) none .empty (fun _ => rfl)
    (fun _ h => by cases h) rfl).mpr fun h => h.elim

def crowdedStore : MemoryState :=
  ["a", "b"].foldl (fun s key =>
    (runAlone capacityOne oneRevision .epoch .stored
      (.compareAndSwap key none .null none none) s).2) .empty

/-- A batch without keys evicts, and one with a lifetime below a millisecond
makes room for a key that its puts evict. -/
theorem put_many_evicts_otherwise :
    ¬ LikePuts capacityOne oneRevision .epoch (fun _ => .stored) none none
        [] [] crowdedStore ∧
      ¬ LikePuts capacityOne oneRevision .epoch (fun _ => .stored) none
        (some (.finite (1 / 2000))) ["c", "b"] [.null, .null] crowdedStore := by
  constructor
  · intro h
    have hkey := h.1 "a"
    revert hkey
    decide +kernel
  · intro h
    have hkey := h.1 "a"
    revert hkey
    decide +kernel

end OpenKeyV.Memory
