import OpenKeyV.DynamoDB.Cleanup
import OpenKeyV.Postgres.Cleanup

/-!
# Guarded cleanup is safe

For `PostgresStore` and `DynamoDBStore` together: among any calls, a cleanup
deletes only what has expired, and what has been written stays until then.
-/

namespace OpenKeyV

open Library Library.Interaction Cleanup

namespace Postgres

/-- From here on, a row whose entry has not expired is safe from cleanup. -/
structure SparesUnexpired (config : PostgresConfig) (pool : CallPool) :
    Prop where
  deletes : ∀ {task choice rows pool' identity row},
    pool.next task = some (.deleteObserved rows) →
      step config pool (.advance task choice) = some pool' →
        pool.shared.table.lookup identity = some row →
          pool'.shared.table.lookup identity = some row ∨
            Dead row.entry pool.shared.clock
  keeps : ∀ {labels pool' identity row},
    run (step config) pool labels = some pool' →
      Along (step config) (Guarded.Spares touches identity) pool labels →
        pool.shared.table.lookup identity = some row →
          pool'.shared.table.lookup identity = some row ∨
            Dead row.entry pool'.shared.clock

theorem sparesUnexpired_of_reached {config : PostgresConfig} {table : Table}
    {clock : DateTime} {pool : CallPool}
    (h : Reached config table clock pool) : SparesUnexpired config pool where
  deletes {task choice rows pool' identity row} hnext hstep hrow := by
    refine cleanup_spares_row h ?_ hstep hrow
    intro task' choice' a hlabel ha
    cases hlabel
    rw [hnext] at ha
    cases ha
    exact id
  keeps hrun hspares hrow := by
    refine or_iff_not_imp_right.mpr fun halive => ?_
    exact row_kept h hspares hrun hrow halive

end Postgres

namespace DynamoDB

/-- From here on, an item whose entry has not expired is safe from
cleanup. -/
structure SparesUnexpired (config : DynamoDBConfig) (pool : CallPool) :
    Prop where
  deletes : ∀ {task choice key entry ttl pool' address item},
    pool.next task = some (.deleteObserved key entry ttl) →
      step config pool (.advance task choice) = some pool' →
        pool.shared.table.items.lookup address = some item →
          pool'.shared.table.items.lookup address = some item ∨
            Dead (entryBytes item) pool.shared.clock
  keeps : ∀ {labels pool' address item},
    run (step config) pool labels = some pool' →
      Along (step config) (Guarded.Spares touches address) pool labels →
        pool.shared.table.items.lookup address = some item →
          pool'.shared.table.items.lookup address = some item ∨
            Dead (entryBytes item) pool'.shared.clock

theorem sparesUnexpired_of_reached {config : DynamoDBConfig} {table : Table}
    {clock : DateTime} {pool : CallPool}
    (h : Reached config table clock pool) : SparesUnexpired config pool where
  deletes {task choice key entry ttl pool' address item} hnext hstep
      hitem := by
    refine cleanup_spares_item h ?_ hstep hitem
    intro task' choice' a hlabel ha
    cases hlabel
    rw [hnext] at ha
    cases ha
    exact id
  keeps hrun hspares hitem := by
    refine or_iff_not_imp_right.mpr fun halive => ?_
    exact item_kept h hspares hrun hitem halive

end DynamoDB

/-- No cleanup deletes what has not expired, in either store, whatever calls
run beside it. -/
theorem guarded_cleanup_safe :
    (∀ config table clock pool, Postgres.Reached config table clock pool →
      Postgres.SparesUnexpired config pool) ∧
    ∀ config table clock pool, DynamoDB.Reached config table clock pool →
      DynamoDB.SparesUnexpired config pool :=
  ⟨fun _ _ _ _ => Postgres.sparesUnexpired_of_reached,
    fun _ _ _ _ => DynamoDB.sparesUnexpired_of_reached⟩

namespace Rewrite

def early : DateTime := .epoch

def late : DateTime := ⟨5000000, by decide, by decide⟩

def expired : ManagedEntry := ⟨.bool true, none, some early⟩

def rewritten : Bytes := (ManagedEntry.new late (.bool false)).encode

theorem not_dead_rewritten : ¬ Dead rewritten late := by
  rintro ⟨entry, hentry, hexpired⟩
  have hdecode : ManagedEntry.decode rewritten =
      .ok (ManagedEntry.new late (.bool false)) := by decide +kernel
  rw [hdecode] at hentry
  cases hentry
  cases hexpired

theorem eq_some_getD {α : Type} {o : Option α} (h : o.isSome = true) (a : α) :
    o = some (o.getD a) :=
  (Option.getD_of_ne_none (Option.isSome_iff_ne_none.mp h) a).symm

namespace InPostgres

open Postgres

def config : PostgresConfig := ⟨"c"⟩

def table : Table :=
  (∅ : Table).insert ("c", "k") ⟨expired.encode, some early, []⟩

def choice : Choice :=
  ⟨false, ⟨id, fun _ => .refl _⟩, some (Revision.fromBytes [])⟩

def row : Row := ⟨rewritten, none, (Revision.fromBytes []).asBytes⟩

def found : Option CallPool :=
  run (step config) (Pool.idle ⟨table, late⟩)
    [.start 0 (.get "k" none), .advance 0 choice, .advance 0 choice,
      .start 1 (.put "k" (.bool false) none none), .advance 1 choice,
      .advance 1 choice, .advance 1 choice]

def pool : CallPool := found.getD (Pool.idle ⟨table, late⟩)

theorem reached_pool : Reached config table late pool :=
  ⟨_, @eq_some_getD _ found (by decide +kernel) _⟩

def cleaned : CallPool := (step config pool (.advance 0 choice)).getD pool

end InPostgres

namespace InDynamoDB

open DynamoDB

def config : DynamoDBConfig := ⟨"t", "c"⟩

def item (encoded : Bytes) : Item :=
  (((∅ : Item).insert collectionAttr (.s "okv1-63")).insert keyAttr
    (.s "okv1-6b")).insert entryAttr (.b encoded)

def table : Table :=
  Table.empty.put ((item expired.encode).insert ttlAttr (.n "0"))

def choice : Choice :=
  ⟨none, ⟨id, fun _ => .refl _, "", fun _ _ _ => .ok ⟨[], none⟩⟩⟩

def found : Option CallPool :=
  run (step config) (Pool.idle ⟨table, late⟩)
    [.start 0 (.get "k" none), .advance 0 choice, .advance 0 choice,
      .start 1 (.put "k" (.bool false) none none), .advance 1 choice,
      .advance 1 choice]

def pool : CallPool := found.getD (Pool.idle ⟨table, late⟩)

theorem reached_pool : Reached config table late pool :=
  ⟨_, @eq_some_getD _ found (by decide +kernel) _⟩

def cleaned : CallPool := (step config pool (.advance 0 choice)).getD pool

end InDynamoDB

end Rewrite

open Rewrite in
theorem guarded_cleanup_safe_rewrite :
    InPostgres.cleaned.shared.table.lookup ("c", "k") =
        some InPostgres.row ∧
      InDynamoDB.cleaned.shared.table.items.lookup ("okv1-63", "okv1-6b") =
        some (InDynamoDB.item rewritten) := by
  constructor
  · refine ((guarded_cleanup_safe.1 _ _ _ _ InPostgres.reached_pool).deletes
      (show InPostgres.pool.next 0 = some (.deleteObserved
        [⟨"c", "k", expired.encode, some early⟩]) by decide +kernel)
      (@eq_some_getD _ (Postgres.step InPostgres.config InPostgres.pool
        (.advance 0 InPostgres.choice)) (by decide +kernel) InPostgres.pool)
      (show _ = some InPostgres.row by decide +kernel)).resolve_right ?_
    exact not_dead_rewritten
  · refine ((guarded_cleanup_safe.2 _ _ _ _ InDynamoDB.reached_pool).deletes
      (show InDynamoDB.pool.next 0 = some (.deleteObserved
        ("okv1-63", "okv1-6b") expired.encode "0") by decide +kernel)
      (@eq_some_getD _ (DynamoDB.step InDynamoDB.config InDynamoDB.pool
        (.advance 0 InDynamoDB.choice)) (by decide +kernel) InDynamoDB.pool)
      (show _ = some (InDynamoDB.item rewritten) from
        rfl)).resolve_right ?_
    exact not_dead_rewritten

end OpenKeyV
