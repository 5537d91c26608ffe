import OpenKeyV.Postgres.Enumeration
import OpenKeyV.Sql.Store

/-!
# Enumeration while time passes

A row that the query finds live can have expired when the loop decodes it:
`keys` and `collections` then fail.  `cull` sees such rows the other way
round, and does not.
-/

namespace OpenKeyV.Sql

open Library

inductive Call where
  | get (key : String) (collection : Option String)
  | ttl (key : String) (collection : Option String)
  | getMany (keys : List String) (collection : Option String)
  | ttlMany (keys : List String) (collection : Option String)
  | put (key : String) (value : Value) (collection : Option String)
      (ttl : Option F64)
  | putMany (keys : List String) (values : List Value)
      (collection : Option String) (ttl : Option F64)
  | delete (key : String) (collection : Option String)
  | deleteMany (keys : List String) (collection : Option String)
  | cull (clock : Clock)
  | destroyCollection (collection : String)

def Call.values : Call → List Value
  | .put _ value _ _ => [value]
  | .putMany _ values _ _ => values
  | _ => []

def Call.step (dialect : Dialect) (config : SqlConfig) (table : Table)
    (call : Call × Readings) : Option Table :=
  let readings := call.2
  match call.1 with
  | .get key collection =>
      some (SqlStore.get dialect config readings key collection table).2
  | .ttl key collection =>
      some (SqlStore.ttl dialect config readings key collection table).2
  | .getMany keys collection =>
      some (SqlStore.getMany dialect config readings keys collection table).2
  | .ttlMany keys collection =>
      some (SqlStore.ttlMany dialect config readings keys collection table).2
  | .put key value collection seconds =>
      some (SqlStore.put dialect config readings key value collection seconds
        table).2
  | .putMany keys values collection seconds =>
      some (SqlStore.putMany dialect config readings keys values collection
        seconds table).2
  | .delete key collection =>
      some (SqlStore.delete config key collection table).2
  | .deleteMany keys collection =>
      some (SqlStore.deleteMany config keys collection table).2
  | .cull clock => some (SqlStore.cull dialect clock table).2
  | .destroyCollection collection =>
      some (SqlStore.destroyCollection collection table).2

def Row.Written (dialect : Dialect) (row : Row) : Prop :=
  ∃ entry : ManagedEntry, entry.value.Storable ∧
    row = ⟨entry.encode, entry.expiresAt.map dialect.truncate⟩

def AllWritten (dialect : Dialect) (table : Table) : Prop :=
  ∀ identity row, table.lookup identity = some row → row.Written dialect

def Shrinks (table table' : Table) : Prop :=
  ∀ identity row, table'.lookup identity = some row →
    table.lookup identity = some row

section Shrinks

variable {dialect : Dialect} {table table' : Table}

theorem Shrinks.refl (table : Table) : Shrinks table table := fun _ _ h => h

theorem AllWritten.shrinks (h : AllWritten dialect table)
    (hshrinks : Shrinks table table') : AllWritten dialect table' :=
  fun identity row hrow => h identity row (hshrinks identity row hrow)

theorem shrinks_erase (identity : String × String) (table : Table) :
    Shrinks table (table.erase identity) := by
  intro identity' row hrow
  rw [KeyedMap.lookup_erase_eq] at hrow
  split at hrow
  · cases hrow
  · exact hrow

theorem shrinks_deleteObserved (identity : String × String) (observed : Row)
    (table : Table) :
    Shrinks table
      (SqlStore.deleteObserved dialect identity observed table) := by
  unfold SqlStore.deleteObserved
  split
  · split
    · exact shrinks_erase identity table
    · exact .refl table
  · exact .refl table

theorem shrinks_deleteExpired
    (expired : List ((String × String) × Row)) (table : Table) :
    Shrinks table (SqlStore.deleteExpired dialect expired table) := by
  induction expired generalizing table with
  | nil => exact .refl table
  | cons item expired ih =>
      intro identity row hrow
      exact shrinks_deleteObserved item.1 item.2 table identity row
        (ih _ identity row hrow)

theorem shrinks_eraseKeys (name : String) (keys : List String)
    (table : Table) :
    Shrinks table
      (keys.foldl (fun table key => table.erase (name, key)) table) := by
  induction keys generalizing table with
  | nil => exact .refl table
  | cons key keys ih =>
      intro identity row hrow
      exact shrinks_erase (name, key) table identity row
        (ih _ identity row hrow)

theorem shrinks_retain (p : String × String → Row → Bool) (table : Table) :
    Shrinks table (table.retain p) := by
  intro identity row hrow
  rw [KeyedMap.lookup_retain] at hrow
  exact (Option.filter_eq_some_iff.mp hrow).1

variable {config : SqlConfig} {readings : Readings}

theorem shrinks_readOne {α : Type} (view : ManagedEntry → α) (key : String)
    (collection : Option String) (table : Table) :
    Shrinks table (SqlStore.readOne dialect config readings view key
      collection table).2 := by
  simp only [SqlStore.readOne]
  split
  · exact .refl table
  · split
    · exact .refl table
    · exact shrinks_deleteObserved _ _ table
    · exact .refl table

theorem shrinks_readMany {α : Type} (view : ManagedEntry → α)
    (keys : List String) (collection : Option String) (table : Table) :
    Shrinks table (SqlStore.readMany dialect config readings view keys
      collection table).2 := by
  simp only [SqlStore.readMany]
  split
  · exact .refl table
  · exact shrinks_deleteExpired _ table

theorem shrinks_cull (clock : Clock) (table : Table) :
    Shrinks table (SqlStore.cull dialect clock table).2 := by
  unfold SqlStore.cull
  split
  · exact .refl table
  · exact shrinks_deleteExpired _ table

end Shrinks

section Writes

variable {dialect : Dialect} {config : SqlConfig} {readings : Readings}
  {table : Table}

theorem AllWritten.insert (h : AllWritten dialect table)
    (identity : String × String) {row : Row} (hrow : row.Written dialect) :
    AllWritten dialect (table.insert identity row) := by
  intro identity' row' hrow'
  rw [KeyedMap.lookup_insert_eq] at hrow'
  split at hrow'
  · cases hrow'
    exact hrow
  · exact h identity' row' hrow'

theorem written_of_newRow {index : Nat} {value : Value} {ttl : Option F64}
    {row : Row}
    (h : SqlStore.newRow dialect readings index value ttl = .ok row)
    (hvalue : value.Storable) : row.Written dialect := by
  simp only [SqlStore.newRow, bind, Except.bind, pure, Except.pure] at h
  cases hentry : ManagedEntry.ofTtl (readings.created index) value ttl with
  | error error => simp [hentry] at h
  | ok entry =>
      simp only [hentry, Except.ok.injEq] at h
      refine ⟨entry, ?_, h.symm⟩
      rw [ManagedEntry.value_of_ofTtl hentry]
      exact hvalue

theorem written_of_newRows {ttl : Option F64}
    {items : List ((String × Value) × Nat)} {rows : List (String × Row)}
    (h : SqlStore.newRows dialect readings ttl items = .ok rows)
    (hvalues : ∀ item ∈ items, item.1.2.Storable) :
    ∀ item ∈ rows, item.2.Written dialect := by
  induction items generalizing rows with
  | nil =>
      cases h
      simp
  | cons item items ih =>
      obtain ⟨⟨key, value⟩, index⟩ := item
      simp only [SqlStore.newRows, bind, Except.bind, pure, Except.pure] at h
      cases hrow : SqlStore.newRow dialect readings index value ttl with
      | error error => simp [hrow] at h
      | ok row =>
          cases hrows : SqlStore.newRows dialect readings ttl items with
          | error error => simp [hrow, hrows] at h
          | ok rest =>
              simp only [hrow, hrows, Except.ok.injEq] at h
              subst h
              intro item hitem
              rcases List.mem_cons.mp hitem with rfl | hitem
              · exact written_of_newRow hrow (hvalues _ List.mem_cons_self)
              · exact ih hrows (fun item h =>
                  hvalues item (List.mem_cons_of_mem _ h)) item hitem

theorem written_of_batchRows {keys : List String} {values : List Value}
    {ttl : Option F64} {rows : List (String × Row)}
    (h : SqlStore.batchRows dialect readings keys values ttl = .ok rows)
    (hvalues : ∀ value ∈ values, value.Storable) :
    ∀ item ∈ rows, item.2.Written dialect := by
  simp only [SqlStore.batchRows, bind, Except.bind] at h
  split at h
  · cases h
  · split at h
    · cases h
    · refine written_of_newRows h fun item hitem => hvalues item.1.2 ?_
      exact (List.of_mem_zip (Postgres.finalItems_subset item hitem)).2

theorem AllWritten.putRows {name : String} {rows : List (String × Row)}
    (h : AllWritten dialect table)
    (hrows : ∀ item ∈ rows, item.2.Written dialect) :
    AllWritten dialect (rows.foldl
      (fun table item => table.insert (name, item.1) item.2) table) := by
  induction rows generalizing table with
  | nil => exact h
  | cons item rows ih =>
      apply ih (h.insert _ (hrows item List.mem_cons_self))
      intro item hitem
      exact hrows item (List.mem_cons_of_mem _ hitem)

theorem step_allWritten {table' : Table} {call : Call × Readings}
    (h : AllWritten dialect table)
    (hvalues : ∀ value ∈ call.1.values, value.Storable)
    (hstep : Call.step dialect config table call = some table') :
    AllWritten dialect table' := by
  obtain ⟨call, readings⟩ := call
  cases call with
  | put key value collection ttl =>
      cases hstep
      simp only [SqlStore.put]
      split
      · exact h
      · rename_i hrow
        exact h.insert _ (written_of_newRow hrow
          (hvalues value (by simp [Call.values])))
  | putMany keys values collection ttl =>
      cases hstep
      simp only [SqlStore.putMany]
      split
      · exact h
      · rename_i hrows
        exact h.putRows (written_of_batchRows hrows hvalues)
  | get key collection =>
      cases hstep
      exact h.shrinks (shrinks_readOne _ key collection table)
  | ttl key collection =>
      cases hstep
      exact h.shrinks (shrinks_readOne _ key collection table)
  | getMany keys collection =>
      cases hstep
      exact h.shrinks (shrinks_readMany _ keys collection table)
  | ttlMany keys collection =>
      cases hstep
      exact h.shrinks (shrinks_readMany _ keys collection table)
  | delete key collection =>
      cases hstep
      exact h.shrinks (shrinks_erase _ table)
  | deleteMany keys collection =>
      cases hstep
      exact h.shrinks (shrinks_eraseKeys _ keys table)
  | cull clock =>
      cases hstep
      exact h.shrinks (shrinks_cull clock table)
  | destroyCollection collection =>
      cases hstep
      exact h.shrinks (shrinks_retain _ table)

theorem run_allWritten {calls : List (Call × Readings)} {table table' : Table}
    (h : AllWritten dialect table)
    (hvalues : ∀ call ∈ calls, ∀ value ∈ call.1.values, value.Storable)
    (hrun : run (Call.step dialect config) table calls = some table') :
    AllWritten dialect table' := by
  induction calls generalizing table with
  | nil =>
      cases hrun
      exact h
  | cons call calls ih =>
      obtain ⟨next, hstep, hrest⟩ := run_cons_eq_some.mp hrun
      exact ih (step_allWritten h (hvalues call List.mem_cons_self) hstep)
        (fun call hcall => hvalues call (List.mem_cons_of_mem _ hcall)) hrest

theorem AllWritten.rows (h : AllWritten dialect table) :
    ∀ row ∈ table.rows, row.Written dialect := by
  intro row hrow
  obtain ⟨⟨identity, stored⟩, hmem, rfl⟩ := List.mem_map.mp hrow
  obtain ⟨entry, hvalue, hstored⟩ :=
    h identity stored (AList.mem_lookup_iff.mpr hmem)
  exact ⟨entry, hvalue, by simp [StoredRow.of, hstored]⟩

end Writes

/-- What one `keys`, one `collections` and one `cull` call return: `keys` in
time, and the others no error. -/
structure InTime (clock : Clock) (rows : List StoredRow) (collection : String)
    (limit : Option Nat) (keys collections : Except Error (List String))
    (cull : Except Error Unit) : Prop where
  keys : ListsInTime clock rows collection (pageLimit limit) keys
  collections : collections.isOk = true
  cull : cull.isOk = true

/-- No row that the two queries return has expired when it is decoded. -/
def SteadyCalls (dialect : Dialect) (order : RowOrder) (rows : List StoredRow)
    (collection : String) (limit : Option Nat) (listing naming : Clock) :
    Prop :=
  pageLimit limit = 0 ∨
    Steady listing 0 (selectKeys dialect listing order rows collection
      (pageLimit limit)) ∧
    Steady naming 0 (visited (pageLimit limit)
      (selectLive dialect naming order rows) [])

section Calls

variable {dialect : Dialect} {order : RowOrder} {rows : List StoredRow}
  (collection : String) (limit : Option Nat) (listing naming : Clock)

theorem listsInTime_zero (h : pageLimit limit = 0) :
    ListsInTime listing rows collection (pageLimit limit) (.ok []) :=
  ⟨[], rfl, by simp, by simp [h]⟩

theorem inTime_iff (hwritten : ∀ row ∈ rows, row.Written dialect)
    {culled : Except Error Unit} (hcull : culled.isOk = true) :
    InTime listing rows collection limit
        (if pageLimit limit = 0 then .ok []
          else enumerateKeys dialect listing order rows collection
            (pageLimit limit))
        (if pageLimit limit = 0 then .ok []
          else enumerateCollections dialect naming order rows
            (pageLimit limit)) culled ↔
      SteadyCalls dialect order rows collection limit listing naming := by
  unfold SteadyCalls
  by_cases hlimit : pageLimit limit = 0
  · refine iff_of_true ?_ (.inl hlimit)
    rw [if_pos hlimit, if_pos hlimit]
    exact ⟨listsInTime_zero collection limit listing hlimit, rfl, hcull⟩
  · rw [if_neg hlimit, if_neg hlimit, or_iff_right hlimit,
      ← enumerateKeys_iff hwritten, ← enumerateCollections_iff hwritten]
    exact ⟨fun h => ⟨h.keys, h.collections⟩, fun h => ⟨h.1, h.2, hcull⟩⟩

end Calls

/-- On every table that a store has written, and for all clocks of the calls,
`keys`, `collections` and `cull` are in time exactly if no row that `keys` or
`collections` selects expires before it is decoded. -/
theorem enumeration_in_time_iff (order : RowOrder)
    (collection : Option String) (limit : Option Nat)
    (listing naming culling : Clock) :
    (∀ (config : Postgres.PostgresConfig) (commands : List Postgres.Command)
        (table : Postgres.Table),
      (∀ command ∈ commands, ∀ value ∈ command.values, value.Storable) →
      run (Postgres.Command.step config) ∅ commands = some table →
      (InTime listing table.rows
          (collection.getD config.defaultCollection) limit
          (Postgres.PostgresStore.keys config listing order collection limit
            table)
          (Postgres.PostgresStore.collections naming order limit table)
          (Postgres.PostgresStore.cull culling table).1 ↔
        '\x00' ∉ (collection.getD config.defaultCollection).toList ∧
          SteadyCalls Postgres.PostgresStore.dialect order table.rows
            (collection.getD config.defaultCollection) limit listing
            naming)) ∧
      ∀ dialect, dialect = SqliteStore.dialect ∨
          dialect = DuckDBStore.dialect →
        ∀ (config : SqlConfig) (calls : List (Call × Readings))
          (table : Table),
        (∀ call ∈ calls, ∀ value ∈ call.1.values, value.Storable) →
        run (Call.step dialect config) ∅ calls = some table →
        (InTime listing table.rows (config.collectionName collection) limit
            (SqlStore.keys dialect config listing order collection limit
              table)
            (SqlStore.collections dialect naming order limit table)
            (SqlStore.cull dialect culling table).1 ↔
          SteadyCalls dialect order table.rows
            (config.collectionName collection) limit listing naming) := by
  constructor
  · intro config commands table hvalues hrun
    have hwritten := (Postgres.commands_allWritten
      (fun identity row h => by simp at h) hvalues hrun).rows
    have hcull : (Postgres.PostgresStore.cull culling table).1.isOk =
        true := by
      rw [Postgres.PostgresStore.cull, cullRows_eq hwritten]
      rfl
    by_cases hname : '\x00' ∈
        (collection.getD config.defaultCollection).toList
    · refine iff_of_false (fun h => ?_) (fun h => h.1 hname)
      obtain ⟨keys, hkeys, -⟩ := h.keys
      simp [Postgres.PostgresStore.keys, Postgres.PostgresConfig.collectionName,
        Postgres.validateTextIdentity, hname, bind, Except.bind] at hkeys
    · rw [and_iff_right hname,
        ← inTime_iff _ limit listing naming hwritten hcull]
      have hkeys : Postgres.PostgresStore.keys config listing order collection
          limit table = if pageLimit limit = 0 then .ok []
            else enumerateKeys Postgres.PostgresStore.dialect listing order
              table.rows (collection.getD config.defaultCollection)
              (pageLimit limit) := by
        simp [Postgres.PostgresStore.keys,
          Postgres.PostgresConfig.collectionName,
          Postgres.validateTextIdentity, hname, bind, Except.bind, pure,
          Except.pure]
      rw [hkeys]
      exact Iff.rfl
  · intro dialect _ config calls table hvalues hrun
    have hwritten := (run_allWritten (fun identity row h => by simp at h)
      hvalues hrun).rows
    refine inTime_iff _ limit listing naming hwritten ?_
    rw [SqlStore.cull, cullRows_eq hwritten]
    rfl

def sampleConfig : SqlConfig := ⟨"default_collection"⟩

def samplePut : Call × Readings :=
  (.put "k" .null none (some (.finite 1)), ⟨.epoch, fun _ => .epoch, .epoch⟩)

def oneSecond : DateTime :=
  ⟨1000000000, DateTime.second_lower, DateTime.second_upper⟩

def sampleEntry : ManagedEntry := ⟨.null, some .epoch, some oneSecond⟩

def sampleTable : Table :=
  (∅ : Table).insert ("default_collection", "k")
    ⟨sampleEntry.encode, some oneSecond⟩

theorem run_samplePut :
    run (Call.step SqliteStore.dialect sampleConfig) ∅ [samplePut] =
      some sampleTable := by
  have hrow : SqlStore.newRow SqliteStore.dialect samplePut.2 0 .null
      (some (.finite 1)) = .ok ⟨sampleEntry.encode, some oneSecond⟩ := by
    decide +kernel
  simp only [samplePut] at hrow
  simp only [run, Call.step, samplePut, SqlStore.put, hrow]
  rfl

theorem samplePut_values :
    ∀ call ∈ [samplePut], ∀ value ∈ call.1.values, value.Storable := by
  intro call hcall value hvalue
  obtain rfl := List.mem_singleton.mp hcall
  obtain rfl := List.mem_singleton.mp hvalue
  exact ⟨rfl, by decide⟩

def stopped (now : DateTime) : Clock where
  called := now
  query := now
  decoded := fun _ => now
  returned := now
  called_le := Int.le_refl _
  query_le := fun _ => Int.le_refl _
  decoded_le := fun _ => Int.le_refl _

/-- The query is run at the start of the second, the rows are decoded at its
end. -/
def crossing : Clock where
  called := .epoch
  query := .epoch
  decoded := fun _ => oneSecond
  returned := oneSecond
  called_le := by decide
  query_le := fun _ => by decide
  decoded_le := fun _ => by decide

theorem id_perm : ∀ rows : List StoredRow, (id rows).Perm rows :=
  fun rows => .refl rows

def stored : RowOrder := ⟨id, id_perm⟩

theorem enumeration_in_time_at_epoch :
    InTime (stopped .epoch) sampleTable.rows "default_collection" none
      (SqlStore.keys SqliteStore.dialect sampleConfig (stopped .epoch) stored
        none none sampleTable)
      (SqlStore.collections SqliteStore.dialect (stopped .epoch) stored none
        sampleTable)
      (SqlStore.cull SqliteStore.dialect (stopped .epoch) sampleTable).1 :=
  ((enumeration_in_time_iff stored none none (stopped .epoch) (stopped .epoch)
    (stopped .epoch)).2 SqliteStore.dialect (.inl rfl) sampleConfig [samplePut]
    sampleTable samplePut_values run_samplePut).mpr
    (.inr ⟨by decide +kernel, by decide +kernel⟩)

/-- The query has found the key live, the loop finds it expired. -/
theorem keys_fails_as_time_passes :
    ¬ ∀ (order : RowOrder) (collection : Option String) (limit : Option Nat)
      (listing naming culling : Clock) (config : SqlConfig)
      (calls : List (Call × Readings)) (table : Table),
      (∀ call ∈ calls, ∀ value ∈ call.1.values, value.Storable) →
      run (Call.step SqliteStore.dialect config) ∅ calls = some table →
      InTime listing table.rows (config.collectionName collection) limit
        (SqlStore.keys SqliteStore.dialect config listing order collection
          limit table)
        (SqlStore.collections SqliteStore.dialect naming order limit table)
        (SqlStore.cull SqliteStore.dialect culling table).1 := by
  intro h
  have hwritten := (run_allWritten (fun identity row h => by simp at h)
    samplePut_values run_samplePut).rows
  have hin := h stored none none crossing (stopped .epoch) (stopped .epoch)
    sampleConfig [samplePut] sampleTable samplePut_values run_samplePut
  have hsteady := (enumerateKeys_iff hwritten "default_collection" 10000).mp
    hin.keys
  exact absurd hsteady (by decide +kernel)

end OpenKeyV.Sql
