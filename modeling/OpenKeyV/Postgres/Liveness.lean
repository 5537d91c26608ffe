import OpenKeyV.Postgres.Store

/-!
# Liveness of a Postgres row

A row keeps its expiration twice: in milliseconds inside the entry, which the
reads look at, and in microseconds in the indexed column, which the statements
of the conditional writes look at.  From the first copy to the second, a row
is absent for one side and present for the other.
-/

namespace OpenKeyV.Postgres

open Library PostgresStore

inductive Call where
  | get (key : String) (collection : Option String)
  | ttl (key : String) (collection : Option String)
  | getMany (keys : List String) (collection : Option String)
  | ttlMany (keys : List String) (collection : Option String)
  | put (key : String) (value : Value) (collection : Option String)
      (ttl : Option F64)
  | putMany (keys : List String) (values : List Value)
      (collection : Option String) (ttl : Option F64)
  | delete (key : String) (collection : Option String)
  | deleteMany (keys : List String) (collection : Option String)
  | compareAndSwap (key : String) (expected : Option Revision) (value : Value)
      (collection : Option String) (ttl : Option F64)
  | compareAndDelete (key : String) (expected : Revision)
      (collection : Option String)
  deriving DecidableEq, Repr

def Call.values : Call → List Value
  | .put _ value _ _ | .compareAndSwap _ _ value _ _ => [value]
  | .putMany _ values _ _ => values
  | _ => []

def Call.step (config : PostgresConfig) (table : Table)
    (call : Call × Readings) : Option Table :=
  let readings := call.2
  match call.1 with
  | .get key collection =>
      some (PostgresStore.get config readings key collection table).2
  | .ttl key collection =>
      some (PostgresStore.ttl config readings key collection table).2
  | .getMany keys collection =>
      some (PostgresStore.getMany config readings keys collection table).2
  | .ttlMany keys collection =>
      some (PostgresStore.ttlMany config readings keys collection table).2
  | .put key value collection seconds =>
      some (PostgresStore.put config readings key value collection seconds
        table).2
  | .putMany keys values collection seconds =>
      some (PostgresStore.putMany config readings keys values collection
        seconds table).2
  | .delete key collection =>
      some (PostgresStore.delete config key collection table).2
  | .deleteMany keys collection =>
      some (PostgresStore.deleteMany config keys collection table).2
  | .compareAndSwap key expected value collection seconds =>
      some (PostgresStore.compareAndSwap config readings key expected value
        collection seconds table).2
  | .compareAndDelete key expected collection =>
      some (PostgresStore.compareAndDelete config readings key expected
        collection table).2

/-! ## What the rows hold -/

def Row.of (entry : ManagedEntry) (revision : Revision) : Row :=
  ⟨entry.encode, entry.expiresAt.map DateTime.truncMicros, revision.asBytes⟩

def Row.Written (row : Row) : Prop :=
  ∃ entry revision, entry.value.Storable ∧ row = Row.of entry revision

def ValidIdentity (identity : String × String) : Prop :=
  validateTextIdentity "collection" identity.1 = .ok () ∧
    validateTextIdentity "key" identity.2 = .ok ()

def AllWritten (table : Table) : Prop :=
  ∀ identity row, table.lookup identity = some row →
    ValidIdentity identity ∧ row.Written

section AllWritten

variable {table table' : Table} {identity : String × String} {row : Row}

theorem AllWritten.of_subset (h : AllWritten table)
    (hsub : ∀ identity row, table'.lookup identity = some row →
      table.lookup identity = some row) : AllWritten table' :=
  fun identity row hrow => h identity row (hsub identity row hrow)

theorem AllWritten.erase (h : AllWritten table) :
    AllWritten (table.erase identity) := by
  apply h.of_subset
  intro identity' row hrow
  rw [KeyedMap.lookup_erase_eq] at hrow
  split at hrow
  · cases hrow
  · exact hrow

theorem AllWritten.insert (h : AllWritten table)
    (hidentity : ValidIdentity identity) (hrow : row.Written) :
    AllWritten (table.insert identity row) := by
  intro identity' row' hrow'
  rw [KeyedMap.lookup_insert_eq] at hrow'
  split at hrow'
  · rename_i heq
    cases hrow'
    exact ⟨heq ▸ hidentity, hrow⟩
  · exact h identity' row' hrow'

theorem AllWritten.deleteObserved (h : AllWritten table) :
    AllWritten (PostgresStore.deleteObserved identity row table) := by
  unfold PostgresStore.deleteObserved
  split
  · split
    · exact h.erase
    · exact h
  · exact h

end AllWritten

section Checks

variable {config : PostgresConfig} {key : String}
  {collection : Option String}

theorem validIdentity_of_identity {identity : String × String}
    (h : config.identity key collection = .ok identity) :
    identity = (collection.getD config.defaultCollection, key) ∧
      ValidIdentity identity := by
  simp only [PostgresConfig.identity, PostgresConfig.collectionName, bind,
    Except.bind, pure, Except.pure] at h
  cases hname : validateTextIdentity "collection"
      (collection.getD config.defaultCollection) with
  | error error => simp [hname] at h
  | ok _ =>
      cases hkey : validateTextIdentity "key" key with
      | error error => simp [hname, hkey] at h
      | ok _ =>
          simp only [hname, hkey, Except.ok.injEq] at h
          subst h
          exact ⟨rfl, hname, hkey⟩

theorem identity_of_validIdentity
    (h : ValidIdentity (collection.getD config.defaultCollection, key)) :
    config.identity key collection =
      .ok (collection.getD config.defaultCollection, key) := by
  simp only [PostgresConfig.identity, PostgresConfig.collectionName, h.1,
    h.2, bind, Except.bind, pure, Except.pure]

end Checks

section Writes

variable {config : PostgresConfig} {readings : Readings} {table : Table}

theorem written_of_newRow {index : Nat} {value : Value} {ttl : Option F64}
    {row : Row} {revision : Revision}
    (h : newRow readings index value ttl = .ok (row, revision))
    (hvalue : value.Storable) : row.Written := by
  simp only [newRow, bind, Except.bind, pure, Except.pure] at h
  cases hentry : ManagedEntry.ofTtl (readings.created index) value ttl with
  | error error => simp [hentry] at h
  | ok entry =>
      cases hfresh : readings.fresh index with
      | none => simp [hentry, hfresh] at h
      | some fresh =>
          simp only [hentry, hfresh, Except.ok.injEq, Prod.mk.injEq] at h
          refine ⟨entry, fresh, ?_, h.1.symm⟩
          rw [ManagedEntry.value_of_ofTtl hentry]
          exact hvalue

theorem written_of_newRows {ttl : Option F64}
    {items : List ((String × Value) × Nat)} {rows : List (String × Row)}
    (h : newRows readings ttl items = .ok rows)
    (hvalues : ∀ item ∈ items, item.1.2.Storable) :
    ∀ item ∈ rows, item.1 ∈ items.map (·.1.1) ∧ item.2.Written := by
  induction items generalizing rows with
  | nil =>
      cases h
      simp
  | cons item items ih =>
      obtain ⟨⟨key, value⟩, index⟩ := item
      simp only [newRows, bind, Except.bind, pure, Except.pure] at h
      cases hrow : newRow readings index value ttl with
      | error error => simp [hrow] at h
      | ok built =>
          cases hrows : newRows readings ttl items with
          | error error => simp [hrow, hrows] at h
          | ok rest =>
              simp only [hrow, hrows, Except.ok.injEq] at h
              subst h
              have hfirst := written_of_newRow hrow
                (hvalues _ List.mem_cons_self)
              have hrest := ih hrows fun item hitem =>
                hvalues item (List.mem_cons_of_mem _ hitem)
              intro item hitem
              rcases List.mem_cons.mp hitem with rfl | hitem
              · exact ⟨List.mem_cons_self, hfirst⟩
              · obtain ⟨hkey, hwritten⟩ := hrest item hitem
                exact ⟨List.mem_cons_of_mem _ hkey, hwritten⟩

theorem finalItems_subset {keys : List String} {values : List Value} :
    ∀ item ∈ finalItems keys values, item.1 ∈ keys.zip values := by
  intro item hitem
  have hzip := List.mem_of_mem_filter hitem
  exact List.fst_mem_of_mem_zipIdx hzip

theorem forM_validate {keys : List String}
    (h : keys.forM (validateTextIdentity "key") = .ok ()) :
    ∀ key ∈ keys, validateTextIdentity "key" key = .ok () := by
  induction keys with
  | nil => simp
  | cons key keys ih =>
      simp only [List.forM, bind, Except.bind] at h
      cases hkey : validateTextIdentity "key" key with
      | error error => simp [hkey] at h
      | ok _ =>
          simp only [hkey] at h
          intro key' hmem
          rcases List.mem_cons.mp hmem with rfl | hmem
          · exact hkey
          · exact ih h key' hmem

theorem valid_of_batchCollection {keys : List String}
    {collection : Option String} {name : String}
    (h : config.batchCollection keys collection = .ok name) :
    ∀ key ∈ keys, ValidIdentity (name, key) := by
  simp only [PostgresConfig.batchCollection, PostgresConfig.collectionName,
    bind, Except.bind, pure, Except.pure] at h
  cases hname : validateTextIdentity "collection"
      (collection.getD config.defaultCollection) with
  | error error => simp [hname] at h
  | ok _ =>
      cases hkeys : keys.forM (validateTextIdentity "key") with
      | error error => simp [hname, hkeys] at h
      | ok _ =>
          simp only [hname, hkeys, Except.ok.injEq] at h
          subst h
          exact fun key hkey => ⟨hname, forM_validate hkeys key hkey⟩

theorem batchRows_written {keys : List String} {values : List Value}
    {collection : Option String} {ttl : Option F64} {name : String}
    {rows : List (String × Row)}
    (h : batchRows config readings keys values collection ttl =
      .ok (name, rows)) (hvalues : ∀ value ∈ values, value.Storable) :
    ∀ item ∈ rows, ValidIdentity (name, item.1) ∧ item.2.Written := by
  simp only [batchRows, bind, Except.bind, pure, Except.pure] at h
  split at h
  · cases h
  · cases httl : validateOptionalTtl readings.validated ttl with
    | error error => simp [httl] at h
    | ok _ =>
        cases hname : config.batchCollection keys collection with
        | error error => simp [httl, hname] at h
        | ok name' =>
            cases hrows : newRows readings ttl (finalItems keys values) with
            | error error => simp [httl, hname, hrows] at h
            | ok rows' =>
                simp only [httl, hname, hrows, Except.ok.injEq,
                  Prod.mk.injEq] at h
                obtain ⟨rfl, rfl⟩ := h
                have hwritten := written_of_newRows hrows fun item hitem =>
                  hvalues item.1.2
                    (List.of_mem_zip (finalItems_subset item hitem)).2
                intro item hitem
                obtain ⟨hkey, hrow⟩ := hwritten item hitem
                refine ⟨valid_of_batchCollection hname item.1 ?_, hrow⟩
                obtain ⟨source, hsource, heq⟩ := List.mem_map.mp hkey
                rw [← heq]
                exact (List.of_mem_zip (finalItems_subset source hsource)).1

theorem swapRow_eq_ok {key : String} {value : Value}
    {collection : Option String} {ttl : Option F64}
    {identity : String × String} {row : Row} {revision : Revision}
    (h : swapRow config readings key value collection ttl =
      .ok (identity, row, revision)) :
    config.identity key collection = .ok identity ∧
      newRow readings 0 value ttl = .ok (row, revision) := by
  simp only [swapRow, bind, Except.bind, pure, Except.pure] at h
  cases httl : validateOptionalTtl readings.validated ttl with
  | error error => simp [httl] at h
  | ok _ =>
      cases hidentity : config.identity key collection with
      | error error => simp [httl, hidentity] at h
      | ok _ =>
          cases hrow : newRow readings 0 value ttl with
          | error error => simp [httl, hidentity, hrow] at h
          | ok built =>
              simp only [httl, hidentity, hrow, Except.ok.injEq,
                Prod.mk.injEq] at h
              obtain ⟨rfl, rfl⟩ := h
              exact ⟨rfl, rfl⟩

theorem AllWritten.putRows {name : String} {rows : List (String × Row)}
    (h : AllWritten table)
    (hrows : ∀ item ∈ rows, ValidIdentity (name, item.1) ∧ item.2.Written) :
    AllWritten (rows.foldl
      (fun table item => table.insert (name, item.1) item.2) table) := by
  induction rows generalizing table with
  | nil => exact h
  | cons item rows ih =>
      obtain ⟨hidentity, hwritten⟩ := hrows item List.mem_cons_self
      apply ih (h.insert hidentity hwritten)
      intro item hitem
      exact hrows item (List.mem_cons_of_mem _ hitem)

theorem AllWritten.eraseKeys {name : String} (keys : List String)
    (h : AllWritten table) :
    AllWritten (keys.foldl (fun table key => table.erase (name, key))
      table) := by
  induction keys generalizing table with
  | nil => exact h
  | cons key keys ih => exact ih h.erase

theorem AllWritten.cleanUp {name : String} (expired : List (String × Row))
    (h : AllWritten table) :
    AllWritten (expired.foldl
      (fun table item =>
        PostgresStore.deleteObserved (name, item.1) item.2 table) table) := by
  induction expired generalizing table with
  | nil => exact h
  | cons item expired ih => exact ih h.deleteObserved

theorem AllWritten.readOne {α : Type} (view : ManagedEntry → α)
    {key : String} {collection : Option String} (h : AllWritten table) :
    AllWritten
      (PostgresStore.readOne config readings view key collection table).2 := by
  unfold PostgresStore.readOne
  split
  · exact h
  · split
    · exact h
    · split
      · exact h
      · exact h.deleteObserved
      · exact h

theorem AllWritten.readMany {α : Type} (view : ManagedEntry → α)
    {keys : List String} {collection : Option String} (h : AllWritten table) :
    AllWritten
      (PostgresStore.readMany config readings view keys collection
        table).2 := by
  unfold PostgresStore.readMany
  split
  · exact h
  · split
    · exact h
    · exact h.cleanUp _

end Writes

theorem step_allWritten {config : PostgresConfig} {table table' : Table}
    {call : Call × Readings} (h : AllWritten table)
    (hvalues : ∀ value ∈ call.1.values, value.Storable)
    (hstep : Call.step config table call = some table') :
    AllWritten table' := by
  obtain ⟨call, readings⟩ := call
  cases call with
  | get key collection =>
      cases hstep
      exact h.readOne _
  | ttl key collection =>
      cases hstep
      exact h.readOne _
  | getMany keys collection =>
      cases hstep
      exact h.readMany _
  | ttlMany keys collection =>
      cases hstep
      exact h.readMany _
  | put key value collection ttl =>
      cases hstep
      simp only [PostgresStore.put]
      cases hidentity : config.identity key collection with
      | error error => exact h
      | ok identity =>
          cases hrow : newRow readings 0 value ttl with
          | error error => exact h
          | ok built =>
              apply h.insert (validIdentity_of_identity hidentity).2
              exact written_of_newRow hrow
                (hvalues value (by simp [Call.values]))
  | putMany keys values collection ttl =>
      cases hstep
      simp only [PostgresStore.putMany]
      cases hrows : batchRows config readings keys values collection ttl with
      | error error => exact h
      | ok built => exact h.putRows (batchRows_written hrows hvalues)
  | delete key collection =>
      cases hstep
      simp only [PostgresStore.delete]
      split
      · exact h
      · exact h.erase
  | deleteMany keys collection =>
      cases hstep
      simp only [PostgresStore.deleteMany]
      split
      · exact h
      · exact h.eraseKeys keys
  | compareAndSwap key expected value collection ttl =>
      cases hstep
      simp only [PostgresStore.compareAndSwap]
      cases hswap : swapRow config readings key value collection ttl with
      | error error => exact h
      | ok built =>
          obtain ⟨identity, row, revision⟩ := built
          obtain ⟨hidentity, hrow⟩ := swapRow_eq_ok hswap
          dsimp only
          split
          · apply h.insert (validIdentity_of_identity hidentity).2
            exact written_of_newRow hrow (hvalues value (by simp [Call.values]))
          · exact h
  | compareAndDelete key expected collection =>
      cases hstep
      simp only [PostgresStore.compareAndDelete]
      split
      · exact h
      · split
        · exact h.erase
        · exact h

theorem run_allWritten {config : PostgresConfig}
    {calls : List (Call × Readings)} {table : Table}
    (hvalues : ∀ call ∈ calls, ∀ value ∈ call.1.values, value.Storable)
    (hrun : run (Call.step config) ∅ calls = some table) :
    AllWritten table := by
  suffices h : ∀ start, AllWritten start →
      run (Call.step config) start calls = some table → AllWritten table by
    apply h ∅ _ hrun
    intro identity row hrow
    simp at hrow
  clear hrun
  intro start hstart hrun
  induction calls generalizing start with
  | nil =>
      cases hrun
      exact hstart
  | cons call calls ih =>
      obtain ⟨next, hstep, hrest⟩ := run_cons_eq_some.mp hrun
      have hnext := step_allWritten hstart
        (hvalues call List.mem_cons_self) hstep
      apply ih _ next hnext hrest
      intro call hcall
      exact hvalues call (List.mem_cons_of_mem _ hcall)

/-! ## The two copies of the expiration -/

/-- The copy inside the entry has passed, the copy in the column has not. -/
def Row.Torn (row : Row) (now : DateTime) : Prop :=
  ∃ expires ∈ row.expiresAt, expires.truncMillis ≤ now ∧ now < expires

instance (row : Row) (now : DateTime) : Decidable (row.Torn now) := by
  unfold Row.Torn
  infer_instance

def Applied (outcome : Except Error CompareAndSwapResult) : Prop :=
  ∃ revision, outcome = .ok (.applied revision)

def Shows (outcome : Except Error (Option RevisionedValue))
    (revision : Revision) : Prop :=
  ∃ current, outcome = .ok (some current) ∧ current.revision = revision

/-- At one instant, the reads and the conditional writes of one key agree on
whether it is present.  The written value is one that an entry can be built
from. -/
structure LivenessAgrees (config : PostgresConfig) (now : DateTime)
    (key : String) (collection : Option String) (table : Table) : Prop where
  get : ∀ fresh value ttl,
    (newRow (.at now fresh) 0 value ttl).isOk = true →
    ((PostgresStore.get config (.at now fresh) key collection table).1 =
        .ok none ↔
      Applied (PostgresStore.compareAndSwap config (.at now fresh) key none
        value collection ttl table).1)
  getWithRevision : ∀ fresh value ttl,
    (newRow (.at now fresh) 0 value ttl).isOk = true →
    (PostgresStore.getWithRevision config (.at now fresh) key collection
        table = .ok none ↔
      Applied (PostgresStore.compareAndSwap config (.at now fresh) key none
        value collection ttl table).1)
  swap : ∀ fresh value ttl revision,
    (newRow (.at now fresh) 0 value ttl).isOk = true →
    (Applied (PostgresStore.compareAndSwap config (.at now fresh) key
        (some revision) value collection ttl table).1 ↔
      Shows (PostgresStore.getWithRevision config (.at now fresh) key
        collection table) revision)
  remove : ∀ fresh revision,
    (PostgresStore.compareAndDelete config (.at now fresh) key revision
        collection table).1 = .ok .deleted ↔
      Shows (PostgresStore.getWithRevision config (.at now fresh) key
        collection table) revision

section WrittenRow

variable {entry : ManagedEntry} (revision : Revision) (now : DateTime)

theorem liveEntry_of (hvalue : entry.value.Storable) (key : String) :
    PostgresStore.liveEntry now key (Row.of entry revision) =
      .ok (if entry.truncMillis.isExpired now then none
        else some entry.truncMillis) := by
  have hdecode := ManagedEntry.decode_encode entry hvalue.1 hvalue.2
  have hsame : entry.truncMillis.expiresAt.map DateTime.timestampMillis =
      (entry.expiresAt.map DateTime.truncMicros).map
        DateTime.timestampMillis := by
    cases hexpires : entry.expiresAt <;>
      simp [ManagedEntry.truncMillis, hexpires]
  simp only [PostgresStore.liveEntry, decodeEntry, Row.of, hdecode, hsame,
    ne_eq, not_true_eq_false, if_false, bind, Except.bind, pure, Except.pure]

theorem decodeRevision_asBytes :
    decodeRevision revision.asBytes = .ok revision := by
  have hround := Revision.fromBytes_asBytes_append revision []
  rw [List.append_nil] at hround
  simp [decodeRevision, hround]

theorem revisioned_of (hvalue : entry.value.Storable) (key : String) :
    revisioned now key (Row.of entry revision) =
      .ok (if entry.truncMillis.isExpired now then none
        else some ⟨entry.value, revision, entry.truncMillis.ttl now⟩) := by
  have hrevision : decodeRevision (Row.of entry revision).revision =
      .ok revision := decodeRevision_asBytes revision
  simp only [revisioned, hrevision, liveEntry_of revision now hvalue, bind,
    Except.bind, pure, Except.pure]
  split <;> rfl

theorem torn_of :
    (Row.of entry revision).Torn now ↔
      entry.truncMillis.isExpired now = true ∧
        Row.unexpired (Row.of entry revision) now = true := by
  cases hexpires : entry.expiresAt <;>
    simp [Row.Torn, Row.of, Row.unexpired, ManagedEntry.truncMillis,
      ManagedEntry.isExpired, hexpires, DateTime.truncMillis_truncMicros]

theorem unexpired_of (h : entry.truncMillis.isExpired now = false) :
    Row.unexpired (Row.of entry revision) now = true := by
  cases hexpires : entry.expiresAt with
  | none => simp [Row.of, Row.unexpired, hexpires]
  | some expires =>
      simp only [ManagedEntry.truncMillis, ManagedEntry.isExpired, hexpires,
        Option.map_some, decide_eq_false_iff_not, DateTime.le_def,
        DateTime.truncMillis, DateTime.timestampMillis, nanosPerMilli] at h
      simp only [Row.of, Row.unexpired, hexpires, Option.map_some,
        decide_eq_true_eq, DateTime.lt_def, DateTime.truncMicros]
      omega

end WrittenRow

section Outcomes

variable {config : PostgresConfig} {now : DateTime} {key : String}
  {collection : Option String} {table : Table} {identity : String × String}
  (fresh : Nat → Option Revision)

theorem validateOptionalTtl_of_newRow {fresh : Nat → Option Revision}
    {value : Value} {ttl : Option F64}
    (h : (newRow (.at now fresh) 0 value ttl).isOk = true) :
    validateOptionalTtl now ttl = .ok () := by
  cases ttl with
  | none => rfl
  | some seconds =>
      cases hat : ManagedEntry.expirationAt now seconds with
      | error error =>
          simp [newRow, Readings.at, ManagedEntry.ofTtl, ManagedEntry.withTtl,
            hat, bind, Except.bind, Except.isOk, Except.toBool] at h
      | ok expires =>
          simp [validateOptionalTtl, ManagedEntry.validateTtl, hat, bind,
            Except.bind, pure, Except.pure]

theorem applied_iff {fresh : Nat → Option Revision} {value : Value}
    {ttl : Option F64} (expected : Option Revision)
    (hidentity : config.identity key collection = .ok identity)
    (h : (newRow (.at now fresh) 0 value ttl).isOk = true) :
    Applied (PostgresStore.compareAndSwap config (.at now fresh) key expected
        value collection ttl table).1 ↔
      swaps now expected (table.lookup identity) = true := by
  have httl := validateOptionalTtl_of_newRow h
  cases hrow : newRow (.at now fresh) 0 value ttl with
  | error error => simp [hrow, Except.isOk, Except.toBool] at h
  | ok built =>
      have hswap : swapRow config (.at now fresh) key value collection ttl =
          .ok (identity, built) := by
        have httl' : validateOptionalTtl (Readings.at now fresh).validated
            ttl = .ok () := httl
        simp only [swapRow, httl', hidentity, hrow, bind, Except.bind, pure,
          Except.pure]
      obtain ⟨row, revision⟩ := built
      have hnow : (Readings.at now fresh).database = now := rfl
      simp only [PostgresStore.compareAndSwap, hswap, hnow]
      cases hdecision : swaps now expected (table.lookup identity) with
      | true => simp [Applied]
      | false =>
          simp only [Bool.false_eq_true, if_false, iff_false]
          rintro ⟨applied, happlied⟩
          cases hcurrent : currentRevisionedValue
              (Readings.at now fresh).decoded identity table <;>
            simp [hcurrent, Except.map] at happlied

theorem deleted_iff (expected : Revision)
    (hidentity : config.identity key collection = .ok identity) :
    (PostgresStore.compareAndDelete config (.at now fresh) key expected
        collection table).1 = .ok .deleted ↔
      removes now expected (table.lookup identity) = true := by
  have hnow : (Readings.at now fresh).database = now := rfl
  simp only [PostgresStore.compareAndDelete, hidentity, hnow]
  cases hdecision : removes now expected (table.lookup identity) with
  | true => simp
  | false =>
      cases hcurrent : currentRevisionedValue
          (Readings.at now fresh).decoded identity table <;>
        simp [Except.map]

theorem getWithRevision_eq
    (hidentity : config.identity key collection = .ok identity) :
    PostgresStore.getWithRevision config (.at now fresh) key collection
        table = currentRevisionedValue now identity table := by
  simp only [PostgresStore.getWithRevision, hidentity, bind, Except.bind]
  rfl

theorem agrees_of_absent
    (hidentity : config.identity key collection = .ok identity)
    (habsent : table.lookup identity = none) :
    LivenessAgrees config now key collection table := by
  have hread : ∀ fresh, PostgresStore.getWithRevision config (.at now fresh)
      key collection table = .ok none := by
    intro fresh
    rw [getWithRevision_eq fresh hidentity]
    simp only [currentRevisionedValue, habsent]
  constructor
  · intro fresh value ttl hrow
    rw [applied_iff none hidentity hrow]
    simp [PostgresStore.get, readOne, hidentity, habsent, swaps]
  · intro fresh value ttl hrow
    rw [applied_iff none hidentity hrow]
    simp [hread, habsent, swaps]
  · intro fresh value ttl revision hrow
    rw [applied_iff (some revision) hidentity hrow]
    simp [hread, habsent, swaps, Shows]
  · intro fresh revision
    rw [deleted_iff fresh revision hidentity]
    simp [hread, habsent, removes, Shows]

theorem agrees_of_invalid {error : Error}
    (hidentity : config.identity key collection = .error error) :
    LivenessAgrees config now key collection table := by
  have hswap : ∀ fresh value ttl expected,
      ¬ Applied (PostgresStore.compareAndSwap config (.at now fresh) key
        expected value collection ttl table).1 := by
    intro fresh value ttl expected
    have hfails : ∀ built, swapRow config (.at now fresh) key value
        collection ttl ≠ .ok built := by
      intro built hswap
      obtain ⟨identity, row, revision⟩ := built
      have hok := (swapRow_eq_ok hswap).1
      rw [hidentity] at hok
      cases hok
    simp only [PostgresStore.compareAndSwap]
    split
    · simp [Applied]
    · rename_i heq
      exact absurd heq (hfails _)
  have hread : ∀ fresh, PostgresStore.getWithRevision config (.at now fresh)
      key collection table = .error error := by
    intro fresh
    simp only [PostgresStore.getWithRevision, hidentity, bind, Except.bind]
  constructor
  · intro fresh value ttl _
    simp [PostgresStore.get, readOne, hidentity, hswap]
  · intro fresh value ttl _
    simp [hread, hswap]
  · intro fresh value ttl revision _
    simp [hread, hswap, Shows]
  · intro fresh revision
    simp [PostgresStore.compareAndDelete, hidentity, hread, Shows]

variable {entry : ManagedEntry} {revision : Revision}

theorem get_of_written
    (hidentity : config.identity key collection = .ok identity)
    (hrow : table.lookup identity = some (Row.of entry revision))
    (hvalue : entry.value.Storable) :
    (PostgresStore.get config (.at now fresh) key collection table).1 =
      .ok (if entry.truncMillis.isExpired now then none
        else some entry.value) := by
  have hlive := liveEntry_of revision now hvalue key
  have hnow : (Readings.at now fresh).decoded = now := rfl
  simp only [PostgresStore.get, readOne, hidentity, hrow, hnow, hlive]
  cases hexpired : entry.truncMillis.isExpired now <;> rfl

theorem shows_iff
    (hidentity : config.identity key collection = .ok identity)
    (hrow : table.lookup identity = some (Row.of entry revision))
    (hvalue : entry.value.Storable) (expected : Revision) :
    Shows (PostgresStore.getWithRevision config (.at now fresh) key
        collection table) expected ↔
      entry.truncMillis.isExpired now = false ∧ revision = expected := by
  rw [getWithRevision_eq fresh hidentity]
  simp only [currentRevisionedValue, hrow,
    revisioned_of revision now hvalue, Shows]
  cases hexpired : entry.truncMillis.isExpired now <;> simp

theorem agrees_of_written_iff
    (hidentity : config.identity key collection = .ok identity)
    (hrow : table.lookup identity = some (Row.of entry revision))
    (hvalue : entry.value.Storable) :
    LivenessAgrees config now key collection table ↔
      ¬ (Row.of entry revision).Torn now := by
  have hrevision : ∀ expected : Revision,
      (Row.of entry revision).revision = expected.asBytes ↔
        revision = expected :=
    fun expected => Revision.asBytes_injective.eq_iff
  have hunexpired := @unexpired_of entry revision now
  rw [torn_of]
  constructor
  · intro hagrees htorn
    have hget := hagrees.get (fun _ => some revision) .null none rfl
    rw [get_of_written _ hidentity hrow hvalue,
      applied_iff none hidentity rfl, hrow] at hget
    simp [swaps, htorn.1, htorn.2] at hget
  · intro hwhole
    have hsame : Row.unexpired (Row.of entry revision) now =
        !entry.truncMillis.isExpired now := by
      cases hexpired : entry.truncMillis.isExpired now with
      | false => simpa using hunexpired hexpired
      | true => simpa [hexpired] using hwhole
    constructor
    · intro fresh value ttl hbuilt
      rw [applied_iff none hidentity hbuilt, hrow,
        get_of_written _ hidentity hrow hvalue]
      cases hexpired : entry.truncMillis.isExpired now <;>
        simp [swaps, hsame, hexpired]
    · intro fresh value ttl hbuilt
      rw [applied_iff none hidentity hbuilt, hrow,
        getWithRevision_eq fresh hidentity]
      simp only [currentRevisionedValue, hrow,
        revisioned_of revision now hvalue]
      cases hexpired : entry.truncMillis.isExpired now <;>
        simp [swaps, hsame, hexpired]
    · intro fresh value ttl expected hbuilt
      rw [applied_iff (some expected) hidentity hbuilt, hrow,
        shows_iff fresh hidentity hrow hvalue]
      simp [swaps, hsame, hrevision, and_comm]
    · intro fresh expected
      rw [deleted_iff fresh expected hidentity, hrow,
        shows_iff fresh hidentity hrow hvalue]
      simp [removes, hsame, hrevision, and_comm]

end Outcomes

/-- In every history of the store, whatever the clocks of its calls showed,
the reads and the conditional writes of a key agree at an instant exactly when
the row of the key is not torn. -/
theorem liveness_agrees_iff (config : PostgresConfig)
    (calls : List (Call × Readings)) (table : Table)
    (hvalues : ∀ call ∈ calls, ∀ value ∈ call.1.values, value.Storable)
    (hrun : run (Call.step config) ∅ calls = some table)
    (key : String) (collection : Option String) (now : DateTime) :
    LivenessAgrees config now key collection table ↔
      ∀ row ∈ table.lookup
          (collection.getD config.defaultCollection, key),
        ¬ row.Torn now := by
  have hwritten : AllWritten table := run_allWritten hvalues hrun
  cases hidentity : config.identity key collection with
  | error error =>
      refine iff_of_true (agrees_of_invalid hidentity) ?_
      intro row hrow
      have hvalid := (hwritten _ _ hrow).1
      rw [identity_of_validIdentity hvalid] at hidentity
      cases hidentity
  | ok identity =>
      obtain rfl := (validIdentity_of_identity hidentity).1
      cases hrow : table.lookup
          (collection.getD config.defaultCollection, key) with
      | none =>
          refine iff_of_true (agrees_of_absent hidentity hrow) ?_
          simp
      | some row =>
          obtain ⟨-, entry, revision, hvalue, rfl⟩ := hwritten _ _ hrow
          simpa using agrees_of_written_iff hidentity hrow hvalue

def sampleConfig : PostgresConfig := ⟨"default_collection"⟩

def sampleCreation : DateTime :=
  ⟨500000, DateTime.halfMilli_lower, DateTime.halfMilli_upper⟩

def samplePut : Call × Readings :=
  (.put "k" .null none (some (.finite 1)),
    .at sampleCreation fun _ => some (.fill 7))

def sampleEntry : ManagedEntry :=
  ⟨.null, some sampleCreation, some ⟨1000500000, by decide, by decide⟩⟩

def sampleTable : Table :=
  (∅ : Table).insert ("default_collection", "k")
    (Row.of sampleEntry (.fill 7))

theorem run_samplePut :
    run (Call.step sampleConfig) ∅ [samplePut] = some sampleTable := by
  have hidentity : sampleConfig.identity "k" none =
      .ok ("default_collection", "k") := by decide +kernel
  have hrow : newRow (.at sampleCreation fun _ => some (.fill 7)) 0 .null
      (some (.finite 1)) = .ok (Row.of sampleEntry (.fill 7), .fill 7) := by
    decide +kernel
  simp only [run, Call.step, samplePut, PostgresStore.put, hidentity, hrow]
  rfl

theorem samplePut_values :
    ∀ call ∈ [samplePut], ∀ value ∈ call.1.values, value.Storable := by
  intro call hcall value hvalue
  obtain rfl := List.mem_singleton.mp hcall
  obtain rfl := List.mem_singleton.mp hvalue
  exact ⟨rfl, by decide⟩

def beforeExpiry : DateTime := ⟨999900000, by decide, by decide⟩

def betweenExpiries : DateTime := ⟨1000100000, by decide, by decide⟩

theorem liveness_agrees_before_expiry :
    LivenessAgrees sampleConfig beforeExpiry "k" none sampleTable := by
  apply (liveness_agrees_iff sampleConfig [samplePut] sampleTable
    samplePut_values run_samplePut "k" none beforeExpiry).mpr
  intro row hrow
  have hlookup : row = Row.of sampleEntry (.fill 7) := by
    have hrow' : sampleTable.lookup ("default_collection", "k") = some row :=
      hrow
    rw [sampleTable, KeyedMap.lookup_insert_eq, if_pos rfl] at hrow'
    exact (Option.some.inj hrow').symm
  rw [hlookup]
  decide

/-- The reads have lost the key, and it can be neither created nor is it safe
from a conditional write. -/
theorem liveness_differs_between_expiries :
    ¬ ∀ (config : PostgresConfig) (calls : List (Call × Readings))
      (table : Table),
      (∀ call ∈ calls, ∀ value ∈ call.1.values, value.Storable) →
      run (Call.step config) ∅ calls = some table →
      ∀ (key : String) (collection : Option String) (now : DateTime),
        LivenessAgrees config now key collection table := by
  intro h
  have hagrees := h sampleConfig [samplePut] sampleTable samplePut_values
    run_samplePut "k" none betweenExpiries
  have hidentity : sampleConfig.identity "k" none =
      .ok ("default_collection", "k") := by decide +kernel
  have hlookup : sampleTable.lookup ("default_collection", "k") =
      some (Row.of sampleEntry (.fill 7)) := by
    rw [sampleTable, KeyedMap.lookup_insert_eq, if_pos rfl]
  apply (agrees_of_written_iff hidentity hlookup ⟨rfl, by decide⟩).mp hagrees
  decide

end OpenKeyV.Postgres
