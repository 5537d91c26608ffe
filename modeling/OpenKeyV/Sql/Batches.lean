import Mathlib.Data.Finset.Card
import OpenKeyV.Library.Decimal
import OpenKeyV.Library.LastWrite
import OpenKeyV.Sql.Enumeration

/-!
# The batches of `SqliteStore`

A batch read or deletion is one statement that binds the collection and every
distinct key.  SQLite does not prepare a statement with more variables than it
numbers, so a batch with too many keys fails where each of its keys alone
does not.  `put_many` prepares one statement for all of its rows.
-/

namespace OpenKeyV.Sql

open Library

def Readings.at (now : DateTime) : Readings := ⟨now, fun _ => now, now⟩

def maxVariableNumber : Nat := 32766

/-- What SQLite and the hash maps leave open: the text of the error for too
many variables, the order of the rows of a query without `ORDER BY`, and the
order in which the map of the last indices is emptied. -/
structure SqliteClient where
  tooManyVariables : String
  arrange : List (String × Row) → List (String × Row)
  arrange_perm : ∀ rows, (arrange rows).Perm rows
  empty : List ((String × Value) × Nat) → List ((String × Value) × Nat)
  empty_perm : ∀ items, (empty items).Perm items

namespace SqliteClient

variable (client : SqliteClient)

def prepare (count : Nat) : Except String Unit :=
  if maxVariableNumber < count then .error client.tooManyVariables else .ok ()

def select (collection : String) (requested : Finset String) (table : Table) :
    List (String × Row) :=
  client.arrange
    ((table.entries.filter fun item =>
      decide (item.1.1 = collection ∧ item.1.2 ∈ requested)).map fun item =>
        (item.1.2, item.2))

end SqliteClient

structure BatchLabels where
  prepared : String
  returned : String

namespace SqliteStore

section Loops

variable (labels : BatchLabels) (readings : Readings)

def readRows {α : Type} (view : ManagedEntry → α) (collection : String)
    (requested : Finset String) :
    List (String × Row) → KeyedMap String α → List ((String × String) × Row) →
      Except Error (KeyedMap String α × List ((String × String) × Row))
  | [], values, expired => .ok (values, expired)
  | (key, row) :: rows, values, expired =>
      if key ∉ requested then
        .error (.deserialization
          s!"Sqlite {labels.returned} returned unrequested key {key}")
      else
        match SqlStore.liveEntry dialect readings key row with
        | .error error => .error error
        | .ok none =>
            readRows view collection requested rows values
              (expired ++ [((collection, key), row)])
        | .ok (some entry) =>
            if (values.lookup key).isSome then
              .error (.deserialization
                s!"Sqlite {labels.returned} returned duplicate key {key}")
            else
              readRows view collection requested rows
                (values.insert key (view entry)) expired

def writeRows (collection : String) (ttl : Option F64) :
    List ((String × Value) × Nat) → Table → Except Error Table
  | [], table => .ok table
  | ((key, value), index) :: items, table => do
      let row ← SqlStore.newRow dialect readings index value ttl
      writeRows collection ttl items (table.insert (collection, key) row)

end Loops

section Batches

variable (client : SqliteClient) (config : SqlConfig) (readings : Readings)

def readMany {α : Type} (labels : BatchLabels) (view : ManagedEntry → α)
    (keys : List String) (collection : Option String) (table : Table) :
    Except Error (List (Option α)) × Table :=
  if keys.isEmpty then (.ok [], table)
  else
    let name := config.collectionName collection
    let requested := keys.toFinset
    match client.prepare (requested.card + 1) with
    | .error error =>
        (.error (.storeConnection
          s!"failed to prepare Sqlite {labels.prepared}: {error}"), table)
    | .ok () =>
        match readRows labels readings view name requested
            (client.select name requested table) ∅ [] with
        | .error error => (.error error, table)
        | .ok (values, expired) =>
            (.ok (keys.map values.lookup),
              SqlStore.deleteExpired dialect expired table)

def getMany (keys : List String) (collection : Option String)
    (table : Table) : Except Error (List (Option Value)) × Table :=
  readMany client config readings ⟨"batch get", "batch query"⟩
    ManagedEntry.value keys collection table

def ttlMany (keys : List String) (collection : Option String)
    (table : Table) :
    Except Error (List (Option (Value × Option F64))) × Table :=
  readMany client config readings ⟨"TTL batch", "TTL batch"⟩
    (fun entry => (entry.value, entry.ttl readings.decoded)) keys collection
    table

def putMany (keys : List String) (values : List Value)
    (collection : Option String) (ttl : Option F64) (table : Table) :
    Except Error Unit × Table :=
  if keys.length ≠ values.length then
    (.error (.batchSizeMismatch keys.length values.length), table)
  else
    match Postgres.PostgresStore.validateOptionalTtl readings.validated ttl with
    | .error error => (.error error, table)
    | .ok () =>
        match writeRows readings (config.collectionName collection) ttl
            (client.empty (Postgres.PostgresStore.finalItems keys values))
            table with
        | .error error => (.error error, table)
        | .ok written => (.ok (), written)

def deleteMany (keys : List String) (collection : Option String)
    (table : Table) : Except Error Nat × Table :=
  if keys.isEmpty then (.ok 0, table)
  else
    let name := config.collectionName collection
    let requested := keys.toFinset
    match client.prepare (requested.card + 1) with
    | .error error =>
        (.error (.storeConnection s!"failed to delete Sqlite batch: {error}"),
          table)
    | .ok () =>
        (.ok (table.keys.filter fun identity =>
            decide (identity.1 = name ∧ identity.2 ∈ requested)).length,
          table.retain fun identity _ =>
            !decide (identity.1 = name ∧ identity.2 ∈ requested))

def putEach (keys : List String) (values : List Value)
    (collection : Option String) (ttl : Option F64) (table : Table) : Table :=
  (keys.zip values).foldl
    (fun table item => (SqlStore.put dialect config readings item.1 item.2
      collection ttl table).2) table

end Batches

end SqliteStore

/-! ## Reads -/

section Reads

variable {readings : Readings} {name : String} {requested : Finset String}
  {table : Table} {client : SqliteClient}

theorem mem_select {key : String} {row : Row} :
    (key, row) ∈ client.select name requested table ↔
      key ∈ requested ∧ table.lookup (name, key) = some row := by
  rw [SqliteClient.select, (client.arrange_perm _).mem_iff, List.mem_map,
    ← Option.mem_def, AList.mem_lookup_iff]
  constructor
  · rintro ⟨⟨⟨name', key'⟩, row'⟩, hmem, heq⟩
    simp only [Prod.mk.injEq] at heq
    obtain ⟨rfl, rfl⟩ := heq
    obtain ⟨hin, hnamed⟩ := List.mem_filter.mp hmem
    have hnamed' : name' = name ∧ key' ∈ requested :=
      decide_eq_true_eq.mp hnamed
    obtain ⟨rfl, hkey⟩ := hnamed'
    exact ⟨hkey, hin⟩
  · rintro ⟨hkey, hmem⟩
    exact ⟨⟨(name, key), row⟩,
      List.mem_filter.mpr ⟨hmem, decide_eq_true ⟨rfl, hkey⟩⟩, rfl⟩

theorem select_nodup :
    ((client.select name requested table).map Prod.fst).Nodup := by
  rw [SqliteClient.select, ((client.arrange_perm _).map _).nodup_iff,
    List.map_map]
  refine List.Nodup.map_on ?_ (table.nodupKeys.nodup.filter _)
  intro item hitem other hother heq
  obtain ⟨hitem, hnamed⟩ := List.mem_filter.mp hitem
  obtain ⟨hother, hnamed'⟩ := List.mem_filter.mp hother
  refine table.nodupKeys.eq_of_fst_eq hitem hother (Prod.ext ?_ heq)
  exact (decide_eq_true_eq.mp hnamed).1.trans
    (decide_eq_true_eq.mp hnamed').1.symm

def shown (readings : Readings) (key : String) (row : Row) :
    Option ManagedEntry :=
  (SqlStore.liveEntry SqliteStore.dialect readings key row).toOption.join

theorem liveEntry_shown {row : Row} (h : row.Written SqliteStore.dialect)
    (key : String) :
    SqlStore.liveEntry SqliteStore.dialect readings key row =
      .ok (shown readings key row) := by
  obtain ⟨entry, hvalue, rfl⟩ := h
  obtain ⟨decoded, hdecoded, -⟩ := @decodeEntry_of SqliteStore.dialect
    (.of SqliteStore.dialect key key entry) ⟨entry, hvalue, rfl⟩
  simp only [StoredRow.of] at hdecoded
  simp only [shown, SqlStore.liveEntry, hdecoded, bind, Except.bind, pure,
    Except.pure, Except.toOption, Option.join_some]

variable {α : Type} (view : ManagedEntry → α)

def found (readings : Readings) (name : String) (table : Table)
    (key : String) : Option α :=
  (table.lookup (name, key)).bind fun row =>
    (shown readings key row).map view

theorem readOne_written {config : SqlConfig}
    (h : AllWritten SqliteStore.dialect table) (key : String)
    (collection : Option String) :
    (SqlStore.readOne SqliteStore.dialect config readings view key collection
        table).1 =
      .ok (found view readings (config.collectionName collection) table
        key) := by
  simp only [SqlStore.readOne, found]
  cases hrow : table.lookup (config.collectionName collection, key) with
  | none => rfl
  | some row =>
      simp only [liveEntry_shown (h _ row hrow) key, Option.bind_some]
      cases shown readings key row with
      | none => rfl
      | some entry => rfl

theorem readRows_written {labels : BatchLabels} {rows : List (String × Row)}
    {values : KeyedMap String α} {expired : List ((String × String) × Row)}
    (hnodup : (rows.map Prod.fst).Nodup)
    (hrows : ∀ item ∈ rows, item.1 ∈ requested ∧
      item.2.Written SqliteStore.dialect)
    (hfresh : ∀ item ∈ rows, values.lookup item.1 = none) :
    ∃ values' expired',
      SqliteStore.readRows labels readings view name requested rows values
          expired = .ok (values', expired') ∧
        (∀ item ∈ rows, values'.lookup item.1 =
          (shown readings item.1 item.2).map view) ∧
        ∀ key, key ∉ rows.map Prod.fst →
          values'.lookup key = values.lookup key := by
  induction rows generalizing values expired with
  | nil => exact ⟨values, expired, rfl, by simp, fun _ _ => rfl⟩
  | cons item rows ih =>
      obtain ⟨key, row⟩ := item
      rw [List.map_cons, List.nodup_cons] at hnodup
      obtain ⟨hkey, hnodup⟩ := hnodup
      obtain ⟨hrequested, hwritten⟩ := hrows _ List.mem_cons_self
      have hlater : ∀ item ∈ rows, item.1 ≠ key := fun item hitem heq =>
        hkey (List.mem_map.mpr ⟨item, hitem, heq⟩)
      have hrest : ∀ item ∈ rows, item.1 ∈ requested ∧
          item.2.Written SqliteStore.dialect := fun item hitem =>
        hrows item (List.mem_cons_of_mem _ hitem)
      have hfirst : values.lookup key = none := hfresh _ List.mem_cons_self
      simp only [SqliteStore.readRows, hrequested, not_true_eq_false, if_false,
        liveEntry_shown hwritten key]
      cases hshown : shown readings key row with
      | none =>
          obtain ⟨values', expired', hread, hfound, hother⟩ :=
            @ih values (expired ++ [((name, key), row)]) hnodup hrest
              fun item hitem => hfresh item (List.mem_cons_of_mem _ hitem)
          refine ⟨values', expired', hread, ?_, ?_⟩
          · intro item hitem
            rcases List.mem_cons.mp hitem with rfl | hitem
            · simp only [hother _ hkey, hfirst, hshown, Option.map_none]
            · exact hfound item hitem
          · intro other habsent
            exact hother other fun hmem =>
              habsent (List.mem_cons_of_mem _ hmem)
      | some entry =>
          have hinsert : ∀ item ∈ rows,
              (values.insert key (view entry)).lookup item.1 = none := by
            intro item hitem
            rw [KeyedMap.lookup_insert_eq, if_neg (hlater item hitem)]
            exact hfresh item (List.mem_cons_of_mem _ hitem)
          obtain ⟨values', expired', hread, hfound, hother⟩ :=
            @ih (values.insert key (view entry)) expired hnodup hrest hinsert
          simp only [hfirst, Option.isSome_none, Bool.false_eq_true, if_false]
          refine ⟨values', expired', hread, ?_, ?_⟩
          · intro item hitem
            rcases List.mem_cons.mp hitem with rfl | hitem
            · simp only [hother _ hkey, KeyedMap.lookup_insert_eq, if_true,
                hshown, Option.map_some]
            · exact hfound item hitem
          · intro other habsent
            rw [List.map_cons, List.mem_cons, not_or] at habsent
            rw [hother other habsent.2, KeyedMap.lookup_insert_eq,
              if_neg habsent.1]

end Reads

section ReadMany

variable {client : SqliteClient} {config : SqlConfig} {readings : Readings}
  {labels : BatchLabels} {α : Type} {view : ManagedEntry → α}
  {keys : List String} {collection : Option String} {table : Table}

theorem readMany_within (h : AllWritten SqliteStore.dialect table)
    (hwithin : keys.toFinset.card + 1 ≤ maxVariableNumber) :
    (SqliteStore.readMany client config readings labels view keys collection
        table).1 =
      .ok (keys.map (found view readings (config.collectionName collection)
        table)) := by
  unfold SqliteStore.readMany
  split
  · rename_i hempty
    rw [List.isEmpty_iff.mp hempty]
    rfl
  · have hprepare : client.prepare (keys.toFinset.card + 1) = .ok () := by
      rw [SqliteClient.prepare, if_neg (not_lt.mpr hwithin)]
    obtain ⟨values, expired, hread, hfound, hother⟩ :=
      @readRows_written readings (config.collectionName collection)
        keys.toFinset α view labels _ ∅ [] select_nodup
        (fun item hitem => by
          obtain ⟨hkey, hrow⟩ := (@mem_select _ _ table client _ _).mp hitem
          exact ⟨hkey, h _ _ hrow⟩)
        fun item _ => AList.lookup_empty item.1
    simp only [hprepare]
    rw [hread]
    refine congrArg Except.ok (List.map_congr_left fun key hkey => ?_)
    simp only [found]
    cases hrow : table.lookup (config.collectionName collection, key) with
    | some row =>
        exact hfound (key, row)
          (mem_select.mpr ⟨List.mem_toFinset.mpr hkey, hrow⟩)
    | none =>
        refine (hother key fun hmem => ?_).trans (AList.lookup_empty key)
        obtain ⟨⟨key', row⟩, hitem, rfl⟩ := List.mem_map.mp hmem
        rw [(mem_select.mp hitem).2] at hrow
        cases hrow

theorem prepare_beyond (hbeyond : maxVariableNumber < keys.toFinset.card + 1) :
    client.prepare (keys.toFinset.card + 1) =
      .error client.tooManyVariables := by
  rw [SqliteClient.prepare, if_pos hbeyond]

theorem isEmpty_beyond (hbeyond : maxVariableNumber < keys.toFinset.card + 1) :
    ¬ keys.isEmpty = true := by
  intro hempty
  rw [List.isEmpty_iff.mp hempty] at hbeyond
  exact absurd hbeyond (by decide)

theorem readMany_beyond
    (hbeyond : maxVariableNumber < keys.toFinset.card + 1) :
    SqliteStore.readMany client config readings labels view keys collection
        table =
      (.error (.storeConnection (s!"failed to prepare Sqlite " ++
        s!"{labels.prepared}: {client.tooManyVariables}")), table) := by
  simp only [SqliteStore.readMany, isEmpty_beyond hbeyond,
    prepare_beyond hbeyond]
  rfl

theorem readEach_written (h : AllWritten SqliteStore.dialect table) :
    (keys.mapM fun key => (SqlStore.readOne SqliteStore.dialect config readings
        view key collection table).1) =
      .ok (keys.map (found view readings (config.collectionName collection)
        table)) := by
  simp only [readOne_written view h]
  exact List.mapM_pure

theorem readMany_iff (h : AllWritten SqliteStore.dialect table) :
    (SqliteStore.readMany client config readings labels view keys collection
        table).1 =
      (keys.mapM fun key => (SqlStore.readOne SqliteStore.dialect config
        readings view key collection table).1) ↔
      keys.toFinset.card + 1 ≤ maxVariableNumber := by
  rw [readEach_written h]
  constructor
  · intro heq
    by_contra hbeyond
    rw [readMany_beyond (not_le.mp hbeyond)] at heq
    cases heq
  · exact readMany_within h

theorem readMany_failed {error : Error}
    (h : (SqliteStore.readMany client config readings labels view keys
      collection table).1 = .error error) :
    (SqliteStore.readMany client config readings labels view keys collection
      table).2 = table := by
  unfold SqliteStore.readMany at h ⊢
  split
  · rfl
  · rename_i hempty
    rw [if_neg hempty] at h
    cases hprepare : client.prepare (keys.toFinset.card + 1) with
    | error error => simp only [hprepare]
    | ok _ =>
        simp only [hprepare] at h ⊢
        split
        · rfl
        · rename_i hread
          simp only [hread] at h
          cases h

end ReadMany

/-! ## Deletions -/

section DeleteMany

variable {client : SqliteClient} {config : SqlConfig} {keys : List String}
  {collection : Option String} {table : Table}

def DeletesListed (name : String) (keys : List String) (table : Table)
    (r : Except Error Nat × Table) : Prop :=
  r.1 = .ok (keys.toFinset.filter fun key =>
      (table.lookup (name, key)).isSome = true).card ∧
    ∀ identity, r.2.lookup identity =
      if identity.1 = name ∧ identity.2 ∈ keys then none
      else table.lookup identity

theorem count_listed (name : String) (requested : Finset String)
    (table : Table) :
    (table.keys.filter fun identity =>
        decide (identity.1 = name ∧ identity.2 ∈ requested)).length =
      (requested.filter fun key =>
        (table.lookup (name, key)).isSome = true).card := by
  have hnodup : ((table.keys.filter fun identity =>
      decide (identity.1 = name ∧ identity.2 ∈ requested)).map
        Prod.snd).Nodup := by
    refine List.Nodup.map_on ?_ (table.keys_nodup.filter _)
    intro identity hmem other hother heq
    have hname := (decide_eq_true_eq.mp (List.mem_filter.mp hmem).2).1
    have hname' := (decide_eq_true_eq.mp (List.mem_filter.mp hother).2).1
    exact Prod.ext (hname.trans hname'.symm) heq
  rw [← List.length_map Prod.snd, ← List.toFinset_card_of_nodup hnodup]
  congr 1
  ext key
  rw [List.mem_toFinset, List.mem_map, Finset.mem_filter, AList.lookup_isSome,
    AList.mem_keys]
  constructor
  · rintro ⟨⟨name', key'⟩, hmem, rfl⟩
    obtain ⟨hin, hnamed⟩ := List.mem_filter.mp hmem
    obtain ⟨rfl, hkey⟩ := decide_eq_true_eq.mp hnamed
    exact ⟨hkey, hin⟩
  · rintro ⟨hkey, hmem⟩
    exact ⟨(name, key),
      List.mem_filter.mpr ⟨hmem, decide_eq_true ⟨rfl, hkey⟩⟩, rfl⟩

theorem deleteMany_within
    (hwithin : keys.toFinset.card + 1 ≤ maxVariableNumber) :
    DeletesListed (config.collectionName collection) keys table
      (SqliteStore.deleteMany client config keys collection table) := by
  unfold SqliteStore.deleteMany
  split
  · rename_i hempty
    rw [List.isEmpty_iff.mp hempty]
    exact ⟨rfl, fun identity => by simp⟩
  · have hprepare : client.prepare (keys.toFinset.card + 1) = .ok () := by
      rw [SqliteClient.prepare, if_neg (not_lt.mpr hwithin)]
    simp only [hprepare]
    refine ⟨congrArg Except.ok (count_listed _ _ _), fun identity => ?_⟩
    simp only [KeyedMap.lookup_retain, List.mem_toFinset]
    split
    · rename_i hlisted
      cases table.lookup identity <;> simp [Option.filter, hlisted]
    · rename_i hother
      cases table.lookup identity <;> simp [Option.filter, hother]

theorem deleteMany_beyond
    (hbeyond : maxVariableNumber < keys.toFinset.card + 1) :
    SqliteStore.deleteMany client config keys collection table =
      (.error (.storeConnection
        s!"failed to delete Sqlite batch: {client.tooManyVariables}"),
        table) := by
  simp only [SqliteStore.deleteMany, isEmpty_beyond hbeyond,
    prepare_beyond hbeyond]
  rfl

theorem deleteMany_iff :
    DeletesListed (config.collectionName collection) keys table
        (SqliteStore.deleteMany client config keys collection table) ↔
      keys.toFinset.card + 1 ≤ maxVariableNumber := by
  constructor
  · rintro ⟨heq, -⟩
    by_contra hbeyond
    rw [deleteMany_beyond (not_le.mp hbeyond)] at heq
    cases heq
  · exact deleteMany_within

theorem deleteMany_failed {error : Error}
    (h : (SqliteStore.deleteMany client config keys collection table).1 =
      .error error) :
    (SqliteStore.deleteMany client config keys collection table).2 =
      table := by
  unfold SqliteStore.deleteMany at h ⊢
  split
  · rfl
  · rename_i hempty
    rw [if_neg hempty] at h
    cases hprepare : client.prepare (keys.toFinset.card + 1) with
    | error error => simp only [hprepare]
    | ok _ =>
        simp only [hprepare] at h
        cases h

end DeleteMany

/-! ## Writes -/

section PutMany

open Postgres.PostgresStore

theorem lastWrites_from {keys : List String} {items : List (String × Value)}
    {n : Nat} (h : keys.drop n = items.map Prod.fst) :
    LastWrites (fun item : (String × Value) × Nat => item.1.1)
      (items.zipIdx n) ((items.zipIdx n).filter fun item =>
        !(keys.drop (item.2 + 1)).contains item.1.1) := by
  induction items generalizing n with
  | nil => exact .nil
  | cons item items ih =>
      have hrest : keys.drop (n + 1) = items.map Prod.fst := by
        rw [← List.tail_drop, h, List.map_cons, List.tail_cons]
      have hkeys : (items.zipIdx (n + 1)).map (fun item => item.1.1) =
          items.map Prod.fst := by
        rw [← List.zipIdx_map_fst (n + 1) items, List.map_map]
        simp
      rw [List.zipIdx_cons, List.filter_cons, hrest]
      by_cases hlater : item.1 ∈ items.map Prod.fst
      · rw [if_neg (by simpa using hlater)]
        exact (ih hrest).cons_skip (hkeys ▸ hlater)
      · rw [if_pos (by simpa using hlater)]
        exact (ih hrest).cons_keep (hkeys ▸ hlater)

theorem lastWrites_finalItems {keys : List String} {values : List Value}
    (h : keys.length = values.length) :
    LastWrites (fun item : (String × Value) × Nat => item.1.1)
      (keys.zip values).zipIdx (finalItems keys values) := by
  refine lastWrites_from ?_
  rw [List.drop_zero, List.map_fst_zip h.le]

variable {client : SqliteClient} {config : SqlConfig} {now : DateTime}
  {ttl : Option F64} {name : String} {row : Value → Row}
  {items : List ((String × Value) × Nat)} {table : Table}

theorem newRow_uniform (now : DateTime) (ttl : Option F64) :
    (validateOptionalTtl now ttl = .ok () ∧
      ∃ row : Value → Row, ∀ index value,
        SqlStore.newRow SqliteStore.dialect (.at now) index value ttl =
          .ok (row value)) ∨
      ∃ error, ∀ index value,
        SqlStore.newRow SqliteStore.dialect (.at now) index value ttl =
          .error error := by
  cases ttl with
  | none =>
      exact .inl ⟨rfl, fun value => ⟨(ManagedEntry.new now value).encode,
        none⟩, fun _ _ => rfl⟩
  | some seconds =>
      simp only [validateOptionalTtl, ManagedEntry.validateTtl,
        SqlStore.newRow, ManagedEntry.ofTtl, ManagedEntry.withTtl,
        Readings.at]
      cases ManagedEntry.expirationAt now seconds with
      | error error => exact .inr ⟨error, fun _ _ => rfl⟩
      | ok expires =>
          exact .inl ⟨rfl, fun value => ⟨(ManagedEntry.mk value (some now)
            (some expires)).encode, some (SqliteStore.dialect.truncate
              expires)⟩, fun _ _ => rfl⟩

theorem writeRows_ok {readings : Readings} {row : (String × Value) × Nat → Row}
    (h : ∀ item ∈ items, SqlStore.newRow SqliteStore.dialect readings item.2
      item.1.2 ttl = .ok (row item)) :
    SqliteStore.writeRows readings name ttl items table =
      .ok (items.foldl (fun table item =>
        table.insert (name, item.1.1) (row item)) table) := by
  induction items generalizing table with
  | nil => rfl
  | cons item items ih =>
      simp only [SqliteStore.writeRows, h item List.mem_cons_self, bind,
        Except.bind, List.foldl_cons]
      exact ih fun item hitem => h item (List.mem_cons_of_mem _ hitem)

theorem writeRows_error {error : Error}
    (hrow : ∀ index value, SqlStore.newRow SqliteStore.dialect (.at now) index
      value ttl = .error error) :
    SqliteStore.writeRows (.at now) name ttl items table = .error error ∨
      SqliteStore.writeRows (.at now) name ttl items table = .ok table := by
  cases items with
  | nil => exact .inr rfl
  | cons item items =>
      left
      simp only [SqliteStore.writeRows, hrow, bind, Except.bind]

variable {collection : Option String} {keys : List String}
  {values : List Value}

theorem putEach_ok
    (hrow : ∀ index value, SqlStore.newRow SqliteStore.dialect (.at now) index
      value ttl = .ok (row value)) :
    SqliteStore.putEach config (.at now) keys values collection ttl table =
      (keys.zip values).zipIdx.foldl (fun table item => table.insert
        (config.collectionName collection, item.1.1) (row item.1.2))
        table := by
  have hput : (fun (table : Table) (item : String × Value) =>
      (SqlStore.put SqliteStore.dialect config (.at now) item.1 item.2
        collection ttl table).2) = fun table item =>
      table.insert (config.collectionName collection, item.1)
        (row item.2) := by
    funext table item
    simp only [SqlStore.put, hrow]
  rw [SqliteStore.putEach, hput]
  conv_lhs => rw [← List.zipIdx_map_fst 0 (keys.zip values)]
  rw [List.foldl_map]

theorem putEach_error {error : Error}
    (hrow : ∀ index value, SqlStore.newRow SqliteStore.dialect (.at now) index
      value ttl = .error error) :
    SqliteStore.putEach config (.at now) keys values collection ttl table =
      table := by
  refine List.foldl_fixed' (fun item => ?_) _
  simp only [SqlStore.put, hrow]

theorem putMany_each (hlength : keys.length = values.length)
    (identity : String × String) :
    (SqliteStore.putMany client config (.at now) keys values collection ttl
        table).2.lookup identity =
      (SqliteStore.putEach config (.at now) keys values collection ttl
        table).lookup identity := by
  rcases newRow_uniform now ttl with ⟨hvalid, row, hrow⟩ | ⟨error, hrow⟩
  · have hlast := ((lastWrites_finalItems hlength).perm
      (client.empty_perm _)).comp
        (Prod.mk_right_injective (config.collectionName collection))
    have hvalid' : validateOptionalTtl (Readings.at now).validated ttl =
        .ok () := hvalid
    have hwrite := @writeRows_ok ttl (config.collectionName collection)
      (client.empty (finalItems keys values)) table (.at now)
      (fun item => row item.1.2) fun item _ => hrow item.2 item.1.2
    simp only [SqliteStore.putMany, hlength, ne_eq, not_true_eq_false,
      if_false, hvalid', hwrite, putEach_ok hrow]
    exact hlast.lookup_eq (fun item => row item.1.2) table identity
  · rw [putEach_error hrow]
    unfold SqliteStore.putMany
    split
    · rfl
    · split
      · rfl
      · rcases @writeRows_error now ttl (config.collectionName collection)
          (client.empty (finalItems keys values)) table error hrow with
          hwrite | hwrite
        · rw [hwrite]
        · rw [hwrite]

theorem putMany_failed {readings : Readings} {error : Error}
    (h : (SqliteStore.putMany client config readings keys values collection
      ttl table).1 = .error error) :
    (SqliteStore.putMany client config readings keys values collection ttl
      table).2 = table := by
  unfold SqliteStore.putMany at h ⊢
  split
  · rfl
  · rename_i hsame
    rw [if_neg hsame] at h
    split
    · rfl
    · rename_i hvalid
      simp only [hvalid] at h
      split
      · rfl
      · rename_i hwrite
        simp only [hwrite] at h
        cases h

end PutMany

/-! ## The batches of `SqlStore` -/

section Deletions

theorem lookup_deleteObserved (dialect : Dialect) (identity : String × String)
    (observed : Row) (table : Table) (other : String × String) :
    (SqlStore.deleteObserved dialect identity observed table).lookup other =
      (table.lookup other).filter fun row =>
        !decide ((other, row) = (identity, observed) ∧
          (dialect.nullSafe || row.expiresAt.isSome) = true) := by
  rw [SqlStore.deleteObserved]
  by_cases hother : other = identity
  · subst hother
    cases hrow : table.lookup other with
    | none => simp [hrow]
    | some row =>
        have hsame : ((other, row) = (other, observed) ∧
            (dialect.nullSafe || row.expiresAt.isSome) = true) ↔
            row.entry = observed.entry ∧
              row.expiresAt = observed.expiresAt ∧
              (dialect.nullSafe || row.expiresAt.isSome) = true := by
          rw [Prod.mk.injEq, Row.mk.injEq]
          simp [and_assoc]
        simp only [hsame, Option.filter_some]
        split
        · rename_i hdeleted
          rw [KeyedMap.lookup_erase_eq, if_pos rfl, decide_eq_true hdeleted]
          rfl
        · rename_i hkept
          rw [hrow, decide_eq_false hkept]
          rfl
  · have hkept : ∀ row : Row, (!decide ((other, row) = (identity, observed) ∧
        (dialect.nullSafe || row.expiresAt.isSome) = true)) = true := by
      simp [hother]
    have hall : (table.lookup other).filter (fun row =>
        !decide ((other, row) = (identity, observed) ∧
          (dialect.nullSafe || row.expiresAt.isSome) = true)) =
          table.lookup other := by
      cases table.lookup other with
      | none => rfl
      | some row => exact if_pos (hkept row)
    rw [hall]
    split
    · split
      · rw [KeyedMap.lookup_erase_eq, if_neg hother]
      · rfl
    · rfl

theorem lookup_deleteExpired (dialect : Dialect)
    (expired : List ((String × String) × Row)) (table : Table)
    (identity : String × String) :
    (SqlStore.deleteExpired dialect expired table).lookup identity =
      (table.lookup identity).filter fun row =>
        !decide ((identity, row) ∈ expired ∧
          (dialect.nullSafe || row.expiresAt.isSome) = true) := by
  induction expired generalizing table with
  | nil =>
      rw [SqlStore.deleteExpired, List.foldl_nil]
      cases table.lookup identity <;> simp [Option.filter]
  | cons item expired ih =>
      have hcons : SqlStore.deleteExpired dialect (item :: expired) table =
          SqlStore.deleteExpired dialect expired
            (SqlStore.deleteObserved dialect item.1 item.2 table) := rfl
      rw [hcons, ih, lookup_deleteObserved, Option.filter_filter]
      congr 1
      funext row
      by_cases hfirst : (identity, row) = item <;> simp [hfirst]
      exact fun hsafe hpermanent => .inr ⟨hsafe, hpermanent⟩

theorem deleteExpired_congr {dialect : Dialect}
    {expired expired' : List ((String × String) × Row)}
    (h : ∀ item, item ∈ expired ↔ item ∈ expired') (table : Table)
    (identity : String × String) :
    (SqlStore.deleteExpired dialect expired table).lookup identity =
      (SqlStore.deleteExpired dialect expired' table).lookup identity := by
  simp only [lookup_deleteExpired, h]

end Deletions

section Reads

variable {readings : Readings} {name : String} {table : Table} {α : Type}
  {view : ManagedEntry → α}

theorem readRows_expired {labels : BatchLabels} {requested : Finset String}
    {rows : List (String × Row)} {values values' : KeyedMap String α}
    {expired expired' : List ((String × String) × Row)}
    (hrows : ∀ item ∈ rows, item.2.Written SqliteStore.dialect)
    (h : SqliteStore.readRows labels readings view name requested rows values
      expired = .ok (values', expired')) :
    expired' = expired ++ (rows.filter fun item =>
      (shown readings item.1 item.2).isNone).map fun item =>
        ((name, item.1), item.2) := by
  induction rows generalizing values expired with
  | nil =>
      cases h
      simp
  | cons item rows ih =>
      obtain ⟨key, row⟩ := item
      have hrest : ∀ item ∈ rows, item.2.Written SqliteStore.dialect :=
        fun item hitem => hrows item (List.mem_cons_of_mem _ hitem)
      simp only [SqliteStore.readRows,
        liveEntry_shown (hrows _ List.mem_cons_self) key] at h
      split at h
      · cases h
      · cases hshown : shown readings key row with
        | none =>
            simp only [hshown] at h
            rw [ih hrest h]
            simp [hshown]
        | some entry =>
            simp only [hshown] at h
            split at h
            · cases h
            · rw [ih hrest h]
              simp [hshown]

theorem splitRows_written {rows : List (String × Row)}
    (h : ∀ item ∈ rows, item.2.Written SqliteStore.dialect) :
    SqlStore.splitRows SqliteStore.dialect readings rows = .ok
      (rows.filterMap fun item => (shown readings item.1 item.2).map
          fun entry => (item.1, entry),
        rows.filter fun item => (shown readings item.1 item.2).isNone) := by
  induction rows with
  | nil => rfl
  | cons item rows ih =>
      obtain ⟨key, row⟩ := item
      have hrest := ih fun item hitem => h item (List.mem_cons_of_mem _ hitem)
      simp only [SqlStore.splitRows,
        liveEntry_shown (h _ List.mem_cons_self) key, hrest, bind,
        Except.bind, pure, Except.pure]
      cases hshown : shown readings key row <;> simp [hshown]

theorem mem_selectMany {keys : List String} {key : String} {row : Row} :
    (key, row) ∈ SqlStore.selectMany name keys table ↔
      key ∈ keys ∧ table.lookup (name, key) = some row := by
  simp only [SqlStore.selectMany, List.mem_filterMap, List.mem_eraseDups,
    Option.map_eq_some_iff, Prod.mk.injEq]
  constructor
  · rintro ⟨_, hkey, _, hrow, rfl, rfl⟩
    exact ⟨hkey, hrow⟩
  · rintro ⟨hkey, hrow⟩
    exact ⟨key, hkey, row, hrow, rfl, rfl⟩

theorem lookup_shown (keys : List String) (key : String) :
    ((keys.filterMap fun key => (table.lookup (name, key)).map fun row =>
        (key, row)).filterMap fun item => (shown readings item.1 item.2).map
          fun entry => (item.1, entry)).lookup key =
      if key ∈ keys then
        (table.lookup (name, key)).bind (shown readings key)
      else none := by
  induction keys with
  | nil => rfl
  | cons first keys ih =>
      rw [List.filterMap_cons]
      by_cases hkey : key = first
      · subst hkey
        cases hrow : table.lookup (name, key) with
        | none => simp [ih, hrow]
        | some row =>
            cases hshown : shown readings key row <;>
              simp [ih, hrow, hshown]
      · cases hrow : table.lookup (name, first) with
        | none => simp [ih, hkey]
        | some row =>
            have hne : (key == first) = false := by simpa using hkey
            cases hshown : shown readings first row <;>
              simp [ih, hkey, hshown, List.lookup_cons, hne]

theorem readMany_batch {config : SqlConfig} {keys : List String}
    {collection : Option String} (h : AllWritten SqliteStore.dialect table) :
    SqlStore.readMany SqliteStore.dialect config readings view keys collection
        table =
      (.ok (keys.map (found view readings (config.collectionName collection)
          table)),
        SqlStore.deleteExpired SqliteStore.dialect
          (((SqlStore.selectMany (config.collectionName collection) keys
              table).filter fun item =>
                (shown readings item.1 item.2).isNone).map fun item =>
              ((config.collectionName collection, item.1), item.2)) table) := by
  have hrows : ∀ item ∈ SqlStore.selectMany
      (config.collectionName collection) keys table,
      item.2.Written SqliteStore.dialect := fun item hitem =>
    h _ _ (mem_selectMany.mp hitem).2
  simp only [SqlStore.readMany, splitRows_written hrows]
  refine Prod.ext (congrArg Except.ok (List.map_congr_left fun key hkey => ?_))
    rfl
  rw [SqlStore.selectMany, lookup_shown,
    if_pos (List.mem_eraseDups.mpr hkey), found, Option.map_bind]
  rfl

end Reads

section Writes

open Postgres.PostgresStore

theorem nodup_eraseDups {n : Nat} {keys : List String} (h : keys.length ≤ n) :
    keys.eraseDups.Nodup := by
  induction n generalizing keys with
  | zero =>
      rw [List.length_eq_zero_iff.mp (Nat.le_zero.mp h)]
      exact .nil
  | succ n ih =>
      cases keys with
      | nil => exact .nil
      | cons key keys =>
          rw [List.eraseDups_cons, List.nodup_cons, List.mem_eraseDups]
          refine ⟨by simp, ih ((List.length_filter_le _ _).trans ?_)⟩
          simpa using h

theorem deleteMany_batch (config : SqlConfig) (keys : List String)
    (collection : Option String) (table : Table) :
    DeletesListed (config.collectionName collection) keys table
      (SqlStore.deleteMany config keys collection table) := by
  constructor
  · refine congrArg Except.ok ?_
    have hnodup : ((SqlStore.selectMany (config.collectionName collection)
        keys table).map Prod.fst).Nodup := by
      have hfst : (SqlStore.selectMany (config.collectionName collection)
          keys table).map Prod.fst = keys.eraseDups.filter fun key =>
            (table.lookup (config.collectionName collection, key)).isSome := by
        rw [SqlStore.selectMany, List.map_filterMap, ← List.filterMap_eq_filter]
        congr 1
        funext key
        cases hrow : table.lookup (config.collectionName collection, key) <;>
          simp [Option.guard, hrow]
      rw [hfst]
      exact (nodup_eraseDups le_rfl).filter _
    rw [← List.length_map Prod.fst, ← List.toFinset_card_of_nodup hnodup]
    congr 1
    ext key
    rw [List.mem_toFinset, Finset.mem_filter, List.mem_toFinset,
      Option.isSome_iff_exists]
    constructor
    · intro hmem
      obtain ⟨⟨key', row⟩, hitem, rfl⟩ := List.mem_map.mp hmem
      obtain ⟨hkey, hrow⟩ := mem_selectMany.mp hitem
      exact ⟨hkey, row, hrow⟩
    · rintro ⟨hkey, row, hrow⟩
      exact List.mem_map.mpr ⟨(key, row), mem_selectMany.mpr ⟨hkey, hrow⟩, rfl⟩
  · intro identity
    simp only [SqlStore.deleteMany]
    induction keys generalizing table with
    | nil => simp
    | cons key keys ih =>
        rw [List.foldl_cons, ih, KeyedMap.lookup_erase_eq]
        obtain ⟨name, key'⟩ := identity
        by_cases hfirst : (name, key') =
            (config.collectionName collection, key)
        · simp_all
        · grind

variable {readings : Readings} {name : String} {ttl : Option F64}
  {row : (String × Value) × Nat → Row}
  {items : List ((String × Value) × Nat)} {table : Table}

theorem newRow_cases (readings : Readings) (ttl : Option F64)
    (items : List ((String × Value) × Nat)) :
    (∃ row : (String × Value) × Nat → Row, ∀ item ∈ items,
      SqlStore.newRow SqliteStore.dialect readings item.2 item.1.2 ttl =
        .ok (row item)) ∨
      ∃ item ∈ items, ∃ error,
        SqlStore.newRow SqliteStore.dialect readings item.2 item.1.2 ttl =
          .error error := by
  by_cases h : ∀ item ∈ items, ∃ row,
      SqlStore.newRow SqliteStore.dialect readings item.2 item.1.2 ttl =
        .ok row
  · left
    have : Nonempty Row := ⟨⟨[], none⟩⟩
    choose! row hrow using h
    exact ⟨row, hrow⟩
  · right
    push Not at h
    obtain ⟨item, hitem, hnone⟩ := h
    refine ⟨item, hitem, ?_⟩
    cases hnew : SqlStore.newRow SqliteStore.dialect readings item.2 item.1.2
        ttl with
    | error error => exact ⟨error, rfl⟩
    | ok row => exact absurd hnew (hnone row)

theorem newRows_ok
    (h : ∀ item ∈ items, SqlStore.newRow SqliteStore.dialect readings item.2
      item.1.2 ttl = .ok (row item)) :
    SqlStore.newRows SqliteStore.dialect readings ttl items =
      .ok (items.map fun item => (item.1.1, row item)) := by
  induction items with
  | nil => rfl
  | cons item items ih =>
      simp only [SqlStore.newRows, h item List.mem_cons_self,
        ih fun item hitem => h item (List.mem_cons_of_mem _ hitem), bind,
        Except.bind, pure, Except.pure, List.map_cons]

theorem newRows_error {item : (String × Value) × Nat} {error : Error}
    (hitem : item ∈ items)
    (h : SqlStore.newRow SqliteStore.dialect readings item.2 item.1.2 ttl =
      .error error) :
    ∃ error, SqlStore.newRows SqliteStore.dialect readings ttl items =
      .error error := by
  induction items with
  | nil => cases hitem
  | cons first items ih =>
      simp only [SqlStore.newRows, bind, Except.bind]
      rcases List.mem_cons.mp hitem with rfl | hitem
      · exact ⟨error, by rw [h]⟩
      · obtain ⟨error, hrest⟩ := ih hitem
        cases SqlStore.newRow SqliteStore.dialect readings first.2 first.1.2
          ttl with
        | error error => exact ⟨error, rfl⟩
        | ok row => exact ⟨error, by simp only [hrest]⟩

theorem writeRows_failed {item : (String × Value) × Nat} {error : Error}
    (hitem : item ∈ items)
    (h : SqlStore.newRow SqliteStore.dialect readings item.2 item.1.2 ttl =
      .error error) :
    ∃ error, SqliteStore.writeRows readings name ttl items table =
      .error error := by
  induction items generalizing table with
  | nil => cases hitem
  | cons first items ih =>
      simp only [SqliteStore.writeRows, bind, Except.bind]
      cases hfirst : SqlStore.newRow SqliteStore.dialect readings first.2
          first.1.2 ttl with
      | error error => exact ⟨error, rfl⟩
      | ok row =>
          rcases List.mem_cons.mp hitem with rfl | hitem
          · rw [hfirst] at h
            cases h
          · exact ih hitem

/-- The two are accepted together; items with different errors may be met in
different orders. -/
theorem putMany_batch (client : SqliteClient) (config : SqlConfig)
    (readings : Readings) (keys : List String) (values : List Value)
    (collection : Option String) (ttl : Option F64) (table : Table) :
    ((SqliteStore.putMany client config readings keys values collection ttl
        table).1 = .ok () ↔
      (SqlStore.putMany SqliteStore.dialect config readings keys values
        collection ttl table).1 = .ok ()) ∧
    ∀ identity,
      (SqliteStore.putMany client config readings keys values collection ttl
          table).2.lookup identity =
        (SqlStore.putMany SqliteStore.dialect config readings keys values
          collection ttl table).2.lookup identity := by
  simp only [SqliteStore.putMany, SqlStore.putMany, SqlStore.batchRows]
  by_cases hlength : keys.length = values.length
  · simp only [hlength, ne_eq, not_true_eq_false, if_false, bind, Except.bind]
    cases validateOptionalTtl readings.validated ttl with
    | error error => simp
    | ok _ =>
        have hperm := client.empty_perm (finalItems keys values)
        rcases newRow_cases readings ttl (finalItems keys values) with
          ⟨row, hrow⟩ | ⟨item, hitem, error, hrow⟩
        · have hlast := (lastWrites_finalItems hlength).comp
            (Prod.mk_right_injective (config.collectionName collection))
          simp only [newRows_ok hrow, writeRows_ok fun item hitem =>
            hrow item (hperm.mem_iff.mp hitem), List.foldl_map, true_and]
          intro identity
          rw [(hlast.perm hperm).lookup_eq row table identity,
            hlast.lookup_eq row table identity]
        · obtain ⟨error, hrows⟩ := newRows_error hitem hrow
          obtain ⟨error', hwrite⟩ := @writeRows_failed readings
            (config.collectionName collection) ttl _ table item _
            (hperm.mem_iff.mpr hitem) hrow
          simp [hrows, hwrite]
  · simp [hlength]

end Writes

section Agreement

variable {client : SqliteClient} {config : SqlConfig} {readings : Readings}
  {labels : BatchLabels} {α : Type} {view : ManagedEntry → α}
  {keys : List String} {collection : Option String} {table : Table}

theorem readMany_agrees (h : AllWritten SqliteStore.dialect table)
    (hwithin : keys.toFinset.card + 1 ≤ maxVariableNumber) :
    (SqliteStore.readMany client config readings labels view keys collection
        table).1 =
      (SqlStore.readMany SqliteStore.dialect config readings view keys
        collection table).1 ∧
    ∀ identity,
      (SqliteStore.readMany client config readings labels view keys collection
          table).2.lookup identity =
        (SqlStore.readMany SqliteStore.dialect config readings view keys
          collection table).2.lookup identity := by
  refine ⟨?_, fun identity => ?_⟩
  · rw [readMany_within h hwithin, readMany_batch h]
  · rw [readMany_batch h]
    unfold SqliteStore.readMany
    split
    · rename_i hempty
      rw [List.isEmpty_iff.mp hempty]
      rfl
    · have hprepare : client.prepare (keys.toFinset.card + 1) = .ok () := by
        rw [SqliteClient.prepare, if_neg (not_lt.mpr hwithin)]
      have hrows : ∀ item ∈ client.select (config.collectionName collection)
          keys.toFinset table, item.1 ∈ keys.toFinset ∧
            item.2.Written SqliteStore.dialect := fun item hitem => by
        obtain ⟨hkey, hrow⟩ := (@mem_select _ _ table client _ _).mp hitem
        exact ⟨hkey, h _ _ hrow⟩
      obtain ⟨values, expired, hread, -, -⟩ :=
        @readRows_written readings (config.collectionName collection)
          keys.toFinset α view labels _ ∅ [] select_nodup hrows
          fun item _ => AList.lookup_empty item.1
      simp only [hprepare]
      rw [hread]
      refine deleteExpired_congr (fun item => ?_) table identity
      rw [readRows_expired (fun item hitem => (hrows item hitem).2) hread,
        List.nil_append]
      simp only [List.mem_map, List.mem_filter, Prod.exists, mem_select,
        mem_selectMany, List.mem_toFinset]

/-- Where a batch has the variables that it needs, `SqliteStore` does with it
what the store with the dialect of Sqlite does. -/
theorem batches_agree (h : AllWritten SqliteStore.dialect table)
    (hwithin : keys.toFinset.card + 1 ≤ maxVariableNumber) :
    (SqliteStore.getMany client config readings keys collection table).1 =
        (SqlStore.getMany SqliteStore.dialect config readings keys collection
          table).1 ∧
      (SqliteStore.ttlMany client config readings keys collection table).1 =
        (SqlStore.ttlMany SqliteStore.dialect config readings keys collection
          table).1 ∧
      (SqliteStore.deleteMany client config keys collection table).1 =
        (SqlStore.deleteMany config keys collection table).1 ∧
      ∀ identity,
        (SqliteStore.getMany client config readings keys collection
            table).2.lookup identity =
          (SqlStore.getMany SqliteStore.dialect config readings keys
            collection table).2.lookup identity ∧
        (SqliteStore.ttlMany client config readings keys collection
            table).2.lookup identity =
          (SqlStore.ttlMany SqliteStore.dialect config readings keys
            collection table).2.lookup identity ∧
        (SqliteStore.deleteMany client config keys collection
            table).2.lookup identity =
          (SqlStore.deleteMany config keys collection table).2.lookup
            identity := by
  have hdelete := @deleteMany_within client config keys collection table
    hwithin
  have hdelete' := deleteMany_batch config keys collection table
  exact ⟨(readMany_agrees h hwithin).1, (readMany_agrees h hwithin).1,
    hdelete.1.trans hdelete'.1.symm, fun identity =>
      ⟨(readMany_agrees h hwithin).2 identity,
        (readMany_agrees h hwithin).2 identity,
        (hdelete.2 identity).trans (hdelete'.2 identity).symm⟩⟩

end Agreement

/-! ## Batches and single operations -/

/-- A batch read or deletion of `SqliteStore` does what its keys do one by one
exactly if there are variables for its collection and all of its keys;
`put_many` always does, and no batch that fails changes a row. -/
theorem batches_match_singles_iff (client : SqliteClient) (config : SqlConfig)
    (now : DateTime) {table : Table}
    (h : AllWritten SqliteStore.dialect table) (keys : List String)
    (collection : Option String) :
    ((SqliteStore.getMany client config (.at now) keys collection table).1 =
        (keys.mapM fun key => (SqlStore.get SqliteStore.dialect config
          (.at now) key collection table).1) ↔
      keys.toFinset.card + 1 ≤ maxVariableNumber) ∧
    ((SqliteStore.ttlMany client config (.at now) keys collection table).1 =
        (keys.mapM fun key => (SqlStore.ttl SqliteStore.dialect config
          (.at now) key collection table).1) ↔
      keys.toFinset.card + 1 ≤ maxVariableNumber) ∧
    (DeletesListed (config.collectionName collection) keys table
        (SqliteStore.deleteMany client config keys collection table) ↔
      keys.toFinset.card + 1 ≤ maxVariableNumber) ∧
    (∀ values ttl, keys.length = values.length → ∀ identity,
      (SqliteStore.putMany client config (.at now) keys values collection ttl
          table).2.lookup identity =
        (SqliteStore.putEach config (.at now) keys values collection ttl
          table).lookup identity) ∧
    (∀ error, (SqliteStore.getMany client config (.at now) keys collection
          table).1 = .error error →
        (SqliteStore.getMany client config (.at now) keys collection
          table).2 = table) ∧
    (∀ error, (SqliteStore.ttlMany client config (.at now) keys collection
          table).1 = .error error →
        (SqliteStore.ttlMany client config (.at now) keys collection
          table).2 = table) ∧
    (∀ error, (SqliteStore.deleteMany client config keys collection
          table).1 = .error error →
        (SqliteStore.deleteMany client config keys collection table).2 =
          table) ∧
    ∀ values ttl error,
      (SqliteStore.putMany client config (.at now) keys values collection ttl
          table).1 = .error error →
        (SqliteStore.putMany client config (.at now) keys values collection
          ttl table).2 = table := by
  refine ⟨readMany_iff h, readMany_iff h, deleteMany_iff, ?_, ?_, ?_, ?_, ?_⟩
  · exact fun _ _ hlength identity => putMany_each hlength identity
  · exact fun _ hfail => readMany_failed hfail
  · exact fun _ hfail => readMany_failed hfail
  · exact fun _ hfail => deleteMany_failed hfail
  · exact fun _ _ _ hfail => putMany_failed hfail

section Inputs

theorem emptied_perm : ∀ items : List ((String × Value) × Nat),
    (id items).Perm items :=
  fun items => .refl items

def SqliteClient.ordered : SqliteClient :=
  ⟨"too many SQL variables", id, fun rows => .refl rows, id, emptied_perm⟩

def permanentRow : Row := ⟨(ManagedEntry.new .epoch .null).encode, none⟩

theorem batches_match_singles_two :
    let config : SqlConfig := ⟨"default_collection"⟩
    let table : Table := (∅ : Table).insert ("default_collection", "a")
      permanentRow
    (SqliteStore.getMany .ordered config (.at .epoch) ["a", "b", "a"] none
        table).1 =
      ["a", "b", "a"].mapM fun key => (SqlStore.get SqliteStore.dialect config
        (.at .epoch) key none table).1 := by
  intro config table
  have hwritten : AllWritten SqliteStore.dialect table :=
    AllWritten.insert (fun _ _ hrow => by
      rw [AList.lookup_empty] at hrow
      cases hrow) _
      ⟨ManagedEntry.new .epoch .null, ⟨rfl, by decide⟩, rfl⟩
  exact (batches_match_singles_iff .ordered config .epoch hwritten
    ["a", "b", "a"] none).1.mpr (by decide)

def tooManyKeys : List String :=
  (List.range maxVariableNumber).map fun n => toString n

theorem card_tooManyKeys : tooManyKeys.toFinset.card = maxVariableNumber := by
  rw [tooManyKeys, List.toFinset_card_of_nodup, List.length_map,
    List.length_range]
  exact List.nodup_range.map fun _ _ heq => toString_nat_inj heq

/-- 32,766 keys are read one by one, but not together. -/
theorem large_batch_is_refused :
    let config : SqlConfig := ⟨"default_collection"⟩
    (SqliteStore.getMany .ordered config (.at .epoch) tooManyKeys none ∅).1 ≠
      tooManyKeys.mapM fun key => (SqlStore.get SqliteStore.dialect config
        (.at .epoch) key none ∅).1 := by
  intro config heq
  have hwritten : AllWritten SqliteStore.dialect ∅ := fun _ _ hrow => by
    rw [AList.lookup_empty] at hrow
    cases hrow
  have hwithin := (readMany_iff hwritten).mp heq
  rw [card_tooManyKeys] at hwithin
  omega

end Inputs

end OpenKeyV.Sql
