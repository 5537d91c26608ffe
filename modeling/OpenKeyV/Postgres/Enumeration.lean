import OpenKeyV.Postgres.Liveness
import OpenKeyV.Sql.Rows

/-!
# `cull`, `keys` and `collections` of `PostgresStore`

With `destroy_collection`, as calls of the store beside those on single keys.
-/

namespace OpenKeyV.Postgres

open Library

def Table.rows (table : Table) : List Sql.StoredRow :=
  table.entries.map fun item =>
    ⟨item.1.1, item.1.2, item.2.entry, item.2.expiresAt⟩

namespace PostgresStore

def dialect : Sql.Dialect where
  name := "Postgres"
  nullSafe := true
  truncate := DateTime.truncMicros
  timestampMillis := DateTime.timestampMillis_truncMicros
  truncate_le := Sql.truncMicros_le

section Operations

variable (config : PostgresConfig) (clock : Sql.Clock) (order : Sql.RowOrder)

/-- The `DELETE … USING UNNEST(…)` takes the rows that are still as the query
has found them. -/
def cull (table : Table) : Except Error Unit × Table :=
  match Sql.cullRows dialect clock table.rows with
  | .error error => (.error error, table)
  | .ok expired =>
      (.ok (), expired.foldl (fun table row =>
        deleteObserved (row.collection, row.key)
          ⟨row.rawEntry, row.expiresAt, []⟩ table) table)

def keys (collection : Option String) (limit : Option Nat) (table : Table) :
    Except Error (List String) := do
  let name ← config.collectionName collection
  if Sql.pageLimit limit = 0 then .ok []
  else
    Sql.enumerateKeys dialect clock order table.rows name
      (Sql.pageLimit limit)

def collections (limit : Option Nat) (table : Table) :
    Except Error (List String) :=
  if Sql.pageLimit limit = 0 then .ok []
  else Sql.enumerateCollections dialect clock order table.rows
    (Sql.pageLimit limit)

def destroyCollection (collection : String) (table : Table) :
    Except Error Bool × Table :=
  match validateTextIdentity "collection" collection with
  | .error error => (.error error, table)
  | .ok _ =>
      (.ok (table.rows.any fun row => row.collection == collection),
        table.retain fun identity _ => identity.1 != collection)

end Operations

end PostgresStore

inductive Command where
  | single (call : Call × Readings)
  | cull (clock : Sql.Clock)
  | destroyCollection (collection : String)

def Command.values : Command → List Value
  | .single call => call.1.values
  | _ => []

def Command.step (config : PostgresConfig) (table : Table) :
    Command → Option Table
  | .single call => Call.step config table call
  | .cull clock => some (PostgresStore.cull clock table).2
  | .destroyCollection collection =>
      some (PostgresStore.destroyCollection collection table).2

section Rows

variable {config : PostgresConfig} {table : Table}

theorem AllWritten.cull (h : AllWritten table) (clock : Sql.Clock) :
    AllWritten (PostgresStore.cull clock table).2 := by
  unfold PostgresStore.cull
  split
  · exact h
  · rename_i expired heval
    dsimp only
    clear heval
    induction expired generalizing table with
    | nil => exact h
    | cons row expired ih => exact ih h.deleteObserved

theorem command_allWritten {table' : Table} {command : Command}
    (h : AllWritten table)
    (hvalues : ∀ value ∈ command.values, value.Storable)
    (hstep : Command.step config table command = some table') :
    AllWritten table' := by
  cases command with
  | single call => exact step_allWritten h hvalues hstep
  | cull clock =>
      cases hstep
      exact h.cull clock
  | destroyCollection collection =>
      cases hstep
      simp only [PostgresStore.destroyCollection]
      split
      · exact h
      · refine h.of_subset fun identity row hrow => ?_
        rw [KeyedMap.lookup_retain] at hrow
        exact (Option.filter_eq_some_iff.mp hrow).1

theorem commands_allWritten {commands : List Command} {table' : Table}
    (h : AllWritten table)
    (hvalues : ∀ command ∈ commands, ∀ value ∈ command.values, value.Storable)
    (hrun : run (Command.step config) table commands = some table') :
    AllWritten table' := by
  induction commands generalizing table with
  | nil =>
      cases hrun
      exact h
  | cons command commands ih =>
      obtain ⟨next, hstep, hrest⟩ := run_cons_eq_some.mp hrun
      exact ih (command_allWritten h (hvalues command List.mem_cons_self)
        hstep) (fun c hc => hvalues c (List.mem_cons_of_mem _ hc)) hrest

theorem AllWritten.rows (h : AllWritten table) :
    ∀ row ∈ table.rows, row.Written PostgresStore.dialect := by
  intro row hrow
  obtain ⟨⟨identity, stored⟩, hmem, rfl⟩ := List.mem_map.mp hrow
  obtain ⟨-, entry, revision, hvalue, hstored⟩ :=
    h identity stored (AList.mem_lookup_iff.mpr hmem)
  exact ⟨entry, hvalue, by
    simp [Sql.StoredRow.of, hstored, Row.of, PostgresStore.dialect]⟩

end Rows

end OpenKeyV.Postgres
