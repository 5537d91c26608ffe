import OpenKeyV.Cleanup.Guards
import OpenKeyV.Postgres.Requests

/-!
# Lazy cleanup of `PostgresStore` among other calls

Any number of calls run against one table, each statement atomic.  What a
cleanup deletes has expired by then, whatever has been written in between.
-/

namespace OpenKeyV.Postgres

open Library Library.Interaction Cleanup

inductive PoolCall where
  | get (key : String) (collection : Option String)
  | ttl (key : String) (collection : Option String)
  | getMany (keys : List String) (collection : Option String)
  | ttlMany (keys : List String) (collection : Option String)
  | cull
  | keys (collection : Option String) (limit : Option Nat)
  | collections (limit : Option Nat)
  | put (key : String) (value : Value) (collection : Option String)
      (ttl : Option F64)
  | putMany (keys : List String) (values : List Value)
      (collection : Option String) (ttl : Option F64)
  | delete (key : String) (collection : Option String)
  | deleteMany (keys : List String) (collection : Option String)
  | compareAndSwap (key : String) (expected : Option Revision) (value : Value)
      (collection : Option String) (ttl : Option F64)

inductive PoolReply where
  | get (result : Except Error (Option Value))
  | ttl (result : Except Error (Option (Value × Option F64)))
  | getMany (result : Except Error (List (Option Value)))
  | ttlMany (result : Except Error (List (Option (Value × Option F64))))
  | names (result : Except Error (List String))
  | unit (result : Except Error Unit)
  | delete (result : Except Error Bool)
  | deleteMany (result : Except Error Nat)
  | compareAndSwap (result : Except Error CompareAndSwapResult)

open Statements in
def program (config : PostgresConfig) :
    PoolCall → Interaction Access.Answer PoolReply
  | .get key collection => PoolReply.get <$> (get config key collection).run
  | .ttl key collection => PoolReply.ttl <$> (ttl config key collection).run
  | .getMany keys collection =>
      PoolReply.getMany <$> (getMany config keys collection).run
  | .ttlMany keys collection =>
      PoolReply.ttlMany <$> (ttlMany config keys collection).run
  | .cull => PoolReply.unit <$> cull.run
  | .keys collection limit =>
      PoolReply.names <$> (keys config collection limit).run
  | .collections limit => PoolReply.names <$> (collections limit).run
  | .put key value collection ttl =>
      PoolReply.unit <$> (put config key value collection ttl).run
  | .putMany keys values collection ttl =>
      PoolReply.unit <$> (putMany config keys values collection ttl).run
  | .delete key collection =>
      PoolReply.delete <$> (delete config key collection).run
  | .deleteMany keys collection =>
      PoolReply.deleteMany <$> (deleteMany config keys collection).run
  | .compareAndSwap key expected value collection ttl =>
      PoolReply.compareAndSwap <$>
        (compareAndSwap config key expected value collection ttl).run

/-! ## The database -/

structure Server where
  table : Table
  clock : DateTime

/-- What a statement depends on besides the table: whether it fails, the order
of the rows, and the bytes of the random source. -/
structure Choice where
  fails : Bool
  order : Sql.RowOrder
  random : Option Revision

def Choice.answer {α : Type} (choice : Choice) (a : α) : Except SqlError α :=
  if choice.fails then .error .failed else .ok a

def Choice.change {α : Type} (choice : Choice) (s : Server) (a : α)
    (table : Table) : Except SqlError α × Server :=
  (choice.answer a, if choice.fails then s else { s with table := table })

def Server.now (s : Server) : DateTime := s.clock.truncMicros

def Server.rows (s : Server) (choice : Choice) (p : Sql.StoredRow → Bool) :
    List Sql.StoredRow :=
  choice.order.arrange (s.table.rows.filter p)

def unexpiredAt (now : DateTime) (row : Sql.StoredRow) : Bool :=
  match row.expiresAt with
  | none => true
  | some expires => decide (now < expires)

def deleteRows (rows : List Sql.StoredRow) (table : Table) : Table :=
  rows.foldl (fun table row =>
    PostgresStore.deleteObserved (row.collection, row.key)
      ⟨row.rawEntry, row.expiresAt, []⟩ table) table

def serve (choice : Choice) : (a : Access) → Server → a.Answer × Server
  | .select identity, s => (choice.answer (s.table.lookup identity), s)
  | .selectMany collection keys, s =>
      (choice.answer (s.rows choice fun row =>
        row.collection == collection && keys.contains row.key), s)
  | .selectExpired, s =>
      (choice.answer (s.rows choice fun row => !unexpiredAt s.now row), s)
  | .selectLive collection limit, s =>
      (choice.answer ((s.rows choice fun row =>
        row.collection == collection && unexpiredAt s.now row).take limit), s)
  | .selectAllLive, s => (choice.answer (s.rows choice (unexpiredAt s.now)), s)
  | .deleteObserved rows, s => choice.change s () (deleteRows rows s.table)
  | .upsert identity row, s => choice.change s () (s.table.insert identity row)
  | .upsertMany collection rows, s =>
      choice.change s () (rows.foldl (fun table item =>
        table.insert (collection, item.1) item.2) s.table)
  | .delete identity, s =>
      choice.change s (s.table.lookup identity).isSome
        (s.table.erase identity)
  | .deleteMany collection keys, s =>
      choice.change s (keys.eraseDups.filter fun key =>
          (s.table.lookup (collection, key)).isSome)
        (keys.foldl (fun table key => table.erase (collection, key)) s.table)
  | .swap identity expected row, s =>
      if PostgresStore.swaps s.now expected (s.table.lookup identity) then
        choice.change s true (s.table.insert identity row)
      else (choice.answer false, s)
  | .now, s => (s.clock, s)
  | .fresh, s => (choice.random, s)

def handle (_ : Nat) (choice : Choice) (a : Access) (s : Server) :
    Option (a.Answer × Server) :=
  some (serve choice a s)

def happen (later : DateTime) (s : Server) : Option Server :=
  if s.clock ≤ later then some { s with clock := later } else none

abbrev CallPool := Pool Server PoolCall Access.Answer PoolReply

def step (config : PostgresConfig) := Pool.step (program config) handle happen

/-! ## Guards -/

def Access.rows : Access → List Sql.StoredRow
  | .deleteObserved rows => rows
  | _ => []

def reading : (a : Access) → a.Answer → Option DateTime
  | .now, t => some t
  | _, _ => none

def guarded : Guarded Access.Answer Server Bytes DateTime where
  clock := Server.clock
  reading := reading
  condemns a := a.rows.map Sql.StoredRow.rawEntry
  dead := Dead
  lasting := Dead.later

section Judges

variable {config : PostgresConfig} {α : Type} {seen : List DateTime}

open Statements

def Found (seen : List DateTime) (rows : List Sql.StoredRow) : Prop :=
  ∀ row ∈ rows, ∃ t ∈ seen, Dead row.rawEntry t

theorem Found.subset {seen' : List DateTime} {rows : List Sql.StoredRow}
    (h : Found seen rows) (hsubset : seen ⊆ seen') : Found seen' rows := by
  intro row hrow
  obtain ⟨t, ht, hdead⟩ := h row hrow
  exact ⟨t, hsubset ht, hdead⟩

theorem Found.append {rows rows' : List Sql.StoredRow} (h : Found seen rows)
    (h' : Found seen rows') : Found seen (rows ++ rows') := by
  intro row hrow
  rcases List.mem_append.mp hrow with hrow | hrow
  · exact h row hrow
  · exact h' row hrow

theorem decodeEntry_eq_ok {key : String} {rawEntry : Bytes}
    {expiresAt : Option DateTime} {entry : ManagedEntry}
    (h : decodeEntry key rawEntry expiresAt = .ok entry) :
    ManagedEntry.decode rawEntry = .ok entry := by
  unfold decodeEntry at h
  split at h
  · cases h
  · split at h
    · cases h
    · cases h
      assumption

theorem does_liveEntry (key : String) (rawEntry : Bytes)
    (expiresAt : Option DateTime) :
    guarded.Does seen (liveEntry key rawEntry expiresAt) fun seen' entry =>
      entry = none → ∃ t ∈ seen', Dead rawEntry t := by
  refine Guarded.does_attempt_bind fun entry hentry => ?_
  refine Guarded.does_access_bind (Guarded.may_of_nil rfl) fun time => ?_
  split
  · rename_i hexpired
    refine Guarded.does_pure fun _ => ⟨time, List.mem_cons_self, entry, ?_⟩
    exact ⟨decodeEntry_eq_ok hentry, hexpired⟩
  · exact Guarded.does_pure fun h => by cases h

theorem harmless_liveEntry (key : String) (rawEntry : Bytes)
    (expiresAt : Option DateTime) :
    guarded.Harmless (liveEntry key rawEntry expiresAt) :=
  fun _ => (does_liveEntry key rawEntry expiresAt).mono
    fun _ _ _ _ => trivial

theorem harmless_withTtl (entry : ManagedEntry) :
    guarded.Harmless (withTtl entry) :=
  (Guarded.harmless_access rfl).bind fun _ => Guarded.harmless_pure _

theorem does_deleteObserved {message : String} {rows : List Sql.StoredRow}
    (h : Found seen rows) :
    guarded.Does seen (deleteObserved message rows) fun _ _ => True := by
  refine Guarded.does_access_bind ?_ fun answer =>
    Guarded.harmless_attempt _ _
  intro encoded hencoded
  obtain ⟨row, hrow, rfl⟩ := List.mem_map.mp hencoded
  exact h row hrow

theorem harmless_readOne {failed cleanup : String}
    {view : ManagedEntry → Requests α} (hview : ∀ entry,
      guarded.Harmless (view entry)) (key : String)
    (collection : Option String) :
    guarded.Harmless (readOne config failed cleanup view key collection) := by
  refine (Guarded.harmless_attempt _).bind fun identity => ?_
  refine (Guarded.harmless_access rfl).bind fun answer => ?_
  refine (Guarded.harmless_attempt _).bind fun row => ?_
  cases row with
  | none => exact Guarded.harmless_pure none
  | some row =>
      intro seen
      refine (does_liveEntry key row.entry row.expiresAt).bind
        fun seen' entry _ hdead => ?_
      cases entry with
      | some entry =>
          exact (hview entry).bind (fun _ => Guarded.harmless_pure _) seen'
      | none =>
          refine (does_deleteObserved ?_).bind fun seen'' _ _ _ =>
            Guarded.does_pure trivial
          intro observed hobserved
          rw [List.mem_singleton.mp hobserved]
          exact hdead rfl

theorem does_splitRows {unrequested duplicate : String}
    {view : ManagedEntry → Requests α} (hview : ∀ entry,
      guarded.Harmless (view entry)) (collection : String)
    (requested : List String) (values : List (String × α))
    {expired : List Sql.StoredRow} (h : Found seen expired)
    (rows : List Sql.StoredRow) :
    guarded.Does seen (splitRows unrequested duplicate view collection
      requested values expired rows) fun seen' r => Found seen' r.2 := by
  induction rows generalizing seen values expired with
  | nil => exact Guarded.does_pure h
  | cons row rows ih =>
      rw [splitRows]
      split
      · exact Guarded.does_attempt fun _ hr => by cases hr
      · refine (does_liveEntry row.key row.rawEntry row.expiresAt).bind
          fun seen' entry hsubset hdead => ?_
        cases entry with
        | none =>
            refine ih values ((h.subset hsubset).append fun other hother => ?_)
            rw [List.mem_singleton.mp hother]
            exact hdead rfl
        | some entry =>
            refine (hview entry seen').bind fun seen'' result hmore _ => ?_
            split
            · exact Guarded.does_attempt fun _ hr => by cases hr
            · exact ih _ (h.subset (List.Subset.trans hsubset hmore))

theorem harmless_readMany {texts : BatchTexts}
    {view : ManagedEntry → Requests α} (hview : ∀ entry,
      guarded.Harmless (view entry)) (keys : List String)
    (collection : Option String) :
    guarded.Harmless (readMany config texts view keys collection) := by
  refine (Guarded.harmless_attempt _).bind fun name => ?_
  split
  · exact Guarded.harmless_pure _
  · refine (Guarded.harmless_access rfl).bind fun answer => ?_
    refine (Guarded.harmless_attempt _).bind fun rows => fun seen => ?_
    refine (does_splitRows hview name keys []
      (fun _ h => absurd h List.not_mem_nil) rows).bind
        fun seen' ⟨values, expired⟩ _ hfound => ?_
    dsimp only at hfound ⊢
    split
    · exact Guarded.does_pure trivial
    · refine (does_deleteObserved hfound).bind fun _ _ _ _ => ?_
      exact Guarded.does_pure trivial

theorem does_cullRows {expired : List Sql.StoredRow} (h : Found seen expired)
    (rows : List Sql.StoredRow) :
    guarded.Does seen (cullRows expired rows) Found := by
  induction rows generalizing seen expired with
  | nil => exact Guarded.does_pure h
  | cons row rows ih =>
      refine (does_liveEntry row.key row.rawEntry row.expiresAt).bind
        fun seen' entry hsubset hdead => ?_
      cases entry with
      | some entry => exact Guarded.does_attempt fun _ hr => by cases hr
      | none =>
          refine ih ((h.subset hsubset).append fun other hother => ?_)
          rw [List.mem_singleton.mp hother]
          exact hdead rfl

theorem harmless_cull : guarded.Harmless cull := by
  refine (Guarded.harmless_access rfl).bind fun answer => ?_
  refine (Guarded.harmless_attempt _).bind fun rows => fun seen => ?_
  refine (does_cullRows (fun _ h => absurd h List.not_mem_nil) rows).bind
    fun seen' expired _ hfound => ?_
  split
  · exact Guarded.does_pure trivial
  · exact does_deleteObserved hfound

theorem harmless_keysLoop (rows : List Sql.StoredRow) :
    guarded.Harmless (keysLoop rows) := by
  induction rows with
  | nil => exact Guarded.harmless_pure _
  | cons row rows ih =>
      refine (harmless_liveEntry _ _ _).bind fun entry => ?_
      cases entry with
      | none => exact Guarded.harmless_attempt _
      | some entry => exact ih.bind fun keys => Guarded.harmless_pure _

theorem harmless_keys (collection : Option String) (limit : Option Nat) :
    guarded.Harmless (keys config collection limit) := by
  refine (Guarded.harmless_attempt _).bind fun name => ?_
  split
  · exact Guarded.harmless_pure _
  · refine (Guarded.harmless_access rfl).bind fun answer => ?_
    exact (Guarded.harmless_attempt _).bind harmless_keysLoop

theorem harmless_collectionsLoop (limit : Nat) (found : List String)
    (rows : List Sql.StoredRow) :
    guarded.Harmless (collectionsLoop limit found rows) := by
  induction rows generalizing found with
  | nil => exact Guarded.harmless_pure _
  | cons row rows ih =>
      refine (harmless_liveEntry _ _ _).bind fun entry => ?_
      cases entry with
      | none => exact Guarded.harmless_attempt _
      | some entry =>
          dsimp only
          split
          · exact ih found
          · split
            · exact Guarded.harmless_pure _
            · exact ih _

theorem harmless_collections (limit : Option Nat) :
    guarded.Harmless (collections limit) := by
  unfold collections
  split
  · exact Guarded.harmless_pure _
  · refine (Guarded.harmless_access rfl).bind fun answer => ?_
    exact (Guarded.harmless_attempt _).bind (harmless_collectionsLoop _ [])

theorem harmless_newRow (value : Value) (ttl : Option F64) :
    guarded.Harmless (newRow value ttl) := by
  refine (Guarded.harmless_access rfl).bind fun time => ?_
  refine (Guarded.harmless_attempt _).bind fun entry => ?_
  refine (Guarded.harmless_access rfl).bind fun random => ?_
  cases random with
  | some revision => exact Guarded.harmless_pure _
  | none => exact Guarded.harmless_attempt _

theorem harmless_put (key : String) (value : Value)
    (collection : Option String) (ttl : Option F64) :
    guarded.Harmless (put config key value collection ttl) := by
  refine (Guarded.harmless_attempt _).bind fun identity => ?_
  refine (harmless_newRow value ttl).bind fun made => ?_
  exact (Guarded.harmless_access rfl).bind fun answer =>
    Guarded.harmless_attempt _

theorem harmless_delete (key : String) (collection : Option String) :
    guarded.Harmless (delete config key collection) := by
  refine (Guarded.harmless_attempt _).bind fun identity => ?_
  exact (Guarded.harmless_access rfl).bind fun answer =>
    Guarded.harmless_attempt _

theorem harmless_validateOptionalTtl (ttl : Option F64) :
    guarded.Harmless (validateOptionalTtl ttl) := by
  cases ttl with
  | none => exact Guarded.harmless_pure _
  | some seconds =>
      exact (Guarded.harmless_access rfl).bind fun time =>
        Guarded.harmless_attempt _

theorem harmless_newRows (ttl : Option F64)
    (items : List ((String × Value) × Nat)) :
    guarded.Harmless (newRows ttl items) := by
  induction items with
  | nil => exact Guarded.harmless_pure _
  | cons item items ih =>
      refine (harmless_newRow _ _).bind fun made => ?_
      exact ih.bind fun rows => Guarded.harmless_pure _

theorem harmless_putMany (keys : List String) (values : List Value)
    (collection : Option String) (ttl : Option F64) :
    guarded.Harmless (putMany config keys values collection ttl) := by
  unfold putMany
  split
  · exact Guarded.harmless_attempt _
  · refine (harmless_validateOptionalTtl ttl).bind fun _ => ?_
    refine (Guarded.harmless_attempt _).bind fun name => ?_
    split
    · exact Guarded.harmless_pure _
    · refine (harmless_newRows _ _).bind fun rows => ?_
      exact (Guarded.harmless_access rfl).bind fun answer =>
        Guarded.harmless_attempt _

theorem harmless_deleteMany (keys : List String)
    (collection : Option String) :
    guarded.Harmless (deleteMany config keys collection) := by
  refine (Guarded.harmless_attempt _).bind fun name => ?_
  split
  · exact Guarded.harmless_pure _
  · refine (Guarded.harmless_access rfl).bind fun answer => ?_
    exact (Guarded.harmless_attempt _).bind fun deleted =>
      Guarded.harmless_pure _

theorem harmless_currentRevisionedValue (identity : String × String) :
    guarded.Harmless (currentRevisionedValue identity) := by
  refine (Guarded.harmless_access rfl).bind fun answer => ?_
  refine (Guarded.harmless_attempt _).bind fun row => ?_
  cases row with
  | none => exact Guarded.harmless_pure _
  | some row =>
      refine (Guarded.harmless_attempt _).bind fun revision => ?_
      refine (harmless_liveEntry _ _ _).bind fun entry => ?_
      cases entry with
      | none => exact Guarded.harmless_pure _
      | some entry =>
          exact (harmless_withTtl entry).bind fun _ =>
            Guarded.harmless_pure _

theorem harmless_compareAndSwap (key : String) (expected : Option Revision)
    (value : Value) (collection : Option String) (ttl : Option F64) :
    guarded.Harmless
      (compareAndSwap config key expected value collection ttl) := by
  refine (harmless_validateOptionalTtl ttl).bind fun _ => ?_
  refine (Guarded.harmless_attempt _).bind fun identity => ?_
  refine (harmless_newRow value ttl).bind fun made => ?_
  refine (Guarded.harmless_access rfl).bind fun answer => ?_
  refine (Guarded.harmless_attempt _).bind fun applied => ?_
  split
  · exact Guarded.harmless_pure _
  · exact (harmless_currentRevisionedValue identity).bind fun current =>
      Guarded.harmless_pure _

theorem judges_program (config : PostgresConfig) (call : PoolCall) :
    guarded.Judges [] (program config call) := by
  cases call with
  | get key collection =>
      exact (harmless_readOne (fun _ => Guarded.harmless_pure _) key
        collection).judges
  | ttl key collection =>
      exact (harmless_readOne harmless_withTtl key collection).judges
  | getMany keys collection =>
      exact (harmless_readMany (fun _ => Guarded.harmless_pure _) keys
        collection).judges
  | ttlMany keys collection =>
      exact (harmless_readMany harmless_withTtl keys collection).judges
  | cull => exact harmless_cull.judges
  | keys collection limit => exact (harmless_keys collection limit).judges
  | collections limit => exact (harmless_collections limit).judges
  | put key value collection ttl =>
      exact (harmless_put key value collection ttl).judges
  | putMany keys values collection ttl =>
      exact (harmless_putMany keys values collection ttl).judges
  | delete key collection => exact (harmless_delete key collection).judges
  | deleteMany keys collection =>
      exact (harmless_deleteMany keys collection).judges
  | compareAndSwap key expected value collection ttl =>
      exact (harmless_compareAndSwap key expected value collection
        ttl).judges

end Judges

/-! ## Runs -/

def touches : Access → String × String → Prop
  | .upsert identity _, other | .delete identity, other
  | .swap identity _ _, other => other = identity
  | .upsertMany collection rows, other =>
      other.1 = collection ∧ other.2 ∈ rows.map Prod.fst
  | .deleteMany collection keys, other =>
      other.1 = collection ∧ other.2 ∈ keys
  | _, _ => False

section Cells

variable {choice : Choice} {s : Server} {identity : String × String}
  {row : Row}

theorem lookup_deleteRows {rows : List Sql.StoredRow} {table : Table}
    (h : table.lookup identity = some row) :
    (deleteRows rows table).lookup identity = some row ∨
      row.entry ∈ rows.map Sql.StoredRow.rawEntry := by
  induction rows generalizing table with
  | nil => exact .inl h
  | cons observed rows ih =>
      rw [deleteRows, List.foldl_cons]
      by_cases hsame : identity = (observed.collection, observed.key) ∧
          row.entry = observed.rawEntry
      · right
        rw [hsame.2]
        exact List.mem_map_of_mem List.mem_cons_self
      · have hkept : (PostgresStore.deleteObserved
            (observed.collection, observed.key)
            ⟨observed.rawEntry, observed.expiresAt, []⟩ table).lookup
              identity = some row := by
          unfold PostgresStore.deleteObserved
          split
          · rename_i found hfound
            split
            · rename_i hguard
              rw [KeyedMap.lookup_erase_eq, if_neg]
              · exact h
              · rintro rfl
                rw [h] at hfound
                cases hfound
                exact hsame ⟨rfl, hguard.1⟩
            · exact h
          · exact h
        rcases ih hkept with hrest | hmem
        · exact .inl hrest
        · exact .inr (List.mem_cons_of_mem _ hmem)

theorem lookup_insertAll {collection : String} {rows : List (String × Row)}
    {table : Table}
    (h : ¬ (identity.1 = collection ∧ identity.2 ∈ rows.map Prod.fst)) :
    (rows.foldl (fun table item => table.insert (collection, item.1) item.2)
      table).lookup identity = table.lookup identity := by
  induction rows generalizing table with
  | nil => rfl
  | cons item rows ih =>
      rw [List.foldl_cons, ih, KeyedMap.lookup_insert_eq, if_neg]
      · rintro rfl
        exact h ⟨rfl, List.mem_cons_self⟩
      · exact fun hrest => h ⟨hrest.1, List.mem_cons_of_mem _ hrest.2⟩

theorem lookup_eraseKeys {collection : String} {keys : List String}
    {table : Table} (h : ¬ (identity.1 = collection ∧ identity.2 ∈ keys)) :
    (keys.foldl (fun table key => table.erase (collection, key)) table).lookup
      identity = table.lookup identity := by
  induction keys generalizing table with
  | nil => rfl
  | cons key keys ih =>
      rw [List.foldl_cons, ih, KeyedMap.lookup_erase_eq, if_neg]
      · rintro rfl
        exact h ⟨rfl, List.mem_cons_self⟩
      · exact fun hrest => h ⟨hrest.1, List.mem_cons_of_mem _ hrest.2⟩

theorem lookup_change {α : Type} {a : α} {table : Table}
    (h : table.lookup identity = s.table.lookup identity) :
    (choice.change s a table).2.table.lookup identity =
      s.table.lookup identity := by
  unfold Choice.change
  dsimp only
  split
  · rfl
  · exact h

theorem clock_change {α : Type} {a : α} {table : Table} :
    (choice.change s a table).2.clock = s.clock := by
  unfold Choice.change
  dsimp only
  split <;> rfl

theorem clock_serve (a : Access) : (serve choice a s).2.clock = s.clock := by
  cases a with
  | swap identity expected row =>
      simp only [serve]
      split
      · exact clock_change
      · rfl
  | deleteObserved | upsert | upsertMany | delete | deleteMany =>
      exact clock_change
  | _ => rfl

theorem lookup_serve {a : Access} (h : s.table.lookup identity = some row)
    (htouches : ¬ touches a identity) :
    (serve choice a s).2.table.lookup identity = some row ∨
      row.entry ∈ a.rows.map Sql.StoredRow.rawEntry := by
  cases a with
  | select | selectMany | selectExpired | selectLive | selectAllLive | now
  | fresh => exact .inl h
  | deleteObserved rows =>
      rcases @lookup_deleteRows _ _ rows _ h with hkept | hmem
      · exact .inl ((lookup_change (hkept.trans h.symm)).trans h)
      · exact .inr hmem
  | upsert other row' =>
      have hne : ¬ identity = other := htouches
      refine .inl ((lookup_change ?_).trans h)
      rw [KeyedMap.lookup_insert_eq, if_neg hne]
  | upsertMany collection rows =>
      exact .inl ((lookup_change (lookup_insertAll htouches)).trans h)
  | delete other =>
      have hne : ¬ identity = other := htouches
      refine .inl ((lookup_change ?_).trans h)
      rw [KeyedMap.lookup_erase_eq, if_neg hne]
  | deleteMany collection keys =>
      exact .inl ((lookup_change (lookup_eraseKeys htouches)).trans h)
  | swap other expected row' =>
      have hne : ¬ identity = other := htouches
      left
      simp only [serve]
      split
      · refine (lookup_change ?_).trans h
        rw [KeyedMap.lookup_insert_eq, if_neg hne]
      · exact h

end Cells

theorem serve_of_handle {task : Nat} {choice : Choice} {a : Access}
    {s s' : Server} {answer : a.Answer}
    (h : handle task choice a s = some (answer, s')) :
    answer = (serve choice a s).1 ∧ s' = (serve choice a s).2 := by
  rw [Option.some.inj h]
  exact ⟨rfl, rfl⟩

theorem timed : guarded.Timed handle happen where
  forward h := by
    obtain ⟨-, rfl⟩ := serve_of_handle h
    exact le_of_eq (clock_serve _).symm
  truthful {task choice a s answer s' t} h hreading := by
    obtain ⟨rfl, rfl⟩ := serve_of_handle h
    cases a with
    | now =>
        cases hreading
        exact le_refl _
    | _ => cases hreading
  outside {event s s'} h := by
    unfold happen at h
    split at h
    · cases h
      assumption
    · cases h

theorem cells : guarded.Cells (fun s identity => s.table.lookup identity)
    (fun _ row => row.entry) touches handle happen where
  handled h htouches hcell := by
    obtain ⟨-, rfl⟩ := serve_of_handle h
    exact lookup_serve hcell htouches
  outside {event s s' address} h := by
    unfold happen at h
    split at h
    · cases h
      rfl
    · cases h

def Reached (config : PostgresConfig) (table : Table) (clock : DateTime)
    (pool : CallPool) : Prop :=
  ∃ labels, run (step config) (Pool.idle ⟨table, clock⟩) labels = some pool

variable {config : PostgresConfig} {table : Table} {clock : DateTime}
  {pool pool' : CallPool} {identity : String × String} {row : Row}

theorem sober_of_reached (h : Reached config table clock pool) :
    Guarded.Sober guarded pool := by
  obtain ⟨labels, hrun⟩ := h
  exact Guarded.sober_run (judges_program config) timed
    (Guarded.sober_idle _) hrun

theorem cleanup_spares_row (h : Reached config table clock pool)
    {label : Pool.Label PoolCall Choice DateTime}
    (hcleanup : Guarded.Spares touches identity pool label)
    (hstep : step config pool label = some pool')
    (hrow : pool.shared.table.lookup identity = some row) :
    pool'.shared.table.lookup identity = some row ∨
      Dead row.entry pool.shared.clock :=
  Guarded.cell_step cells (sober_of_reached h) hcleanup hstep hrow

theorem row_kept (h : Reached config table clock pool)
    {labels : List (Pool.Label PoolCall Choice DateTime)}
    (hspares : Along (step config) (Guarded.Spares touches identity) pool
      labels)
    (hrun : run (step config) pool labels = some pool')
    (hrow : pool.shared.table.lookup identity = some row)
    (halive : ¬ Dead row.entry pool'.shared.clock) :
    pool'.shared.table.lookup identity = some row :=
  Guarded.cell_kept (judges_program config) timed cells (sober_of_reached h)
    hspares hrun hrow halive

end OpenKeyV.Postgres
