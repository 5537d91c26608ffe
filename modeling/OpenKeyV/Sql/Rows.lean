import OpenKeyV.Entry.Exact

/-!
# Rows with an indexed expiration

The SQL stores keep the expiration of an entry inside its bytes and in a
column.  A query compares the column with the clock of the database; the loop
over the rows that it returns decodes each entry and looks at the clock of the
client again.  The order of the rows is the one that the collation of the
database gives.
-/

namespace OpenKeyV.Sql

/-- What the stores differ in: the name in their error texts, the precision
of the column, and whether a conditional deletion takes two missing
expirations for equal. -/
structure Dialect where
  name : String
  nullSafe : Bool
  truncate : DateTime → DateTime
  timestampMillis : ∀ t,
    (truncate t).timestampMillis = t.timestampMillis
  truncate_le : ∀ t, truncate t ≤ t

theorem truncMicros_le (t : DateTime) : t.truncMicros ≤ t := by
  simp only [DateTime.le_def, DateTime.truncMicros]
  omega

structure StoredRow where
  collection : String
  key : String
  rawEntry : Bytes
  expiresAt : Option DateTime
  deriving DecidableEq, Repr

/-- The clock during one call: when it starts, when the query is run, when
the row at an index is decoded, and when it returns. -/
structure Clock where
  called : DateTime
  query : DateTime
  decoded : Nat → DateTime
  returned : DateTime
  called_le : called ≤ query
  query_le : ∀ i, query ≤ decoded i
  decoded_le : ∀ i, decoded i ≤ returned

/-- `ORDER BY`, with the collation of the database. -/
structure RowOrder where
  arrange : List StoredRow → List StoredRow
  perm : ∀ rows, (arrange rows).Perm rows

def pageLimit (limit : Option Nat) : Nat := min (limit.getD 10000) 10000

section Loops

variable (dialect : Dialect)

def decodeEntry (key : String) (rawEntry : Bytes)
    (expiresAt : Option DateTime) : Except Error ManagedEntry :=
  match ManagedEntry.decode rawEntry with
  | .error error =>
      .error (.deserialization
        s!"failed to decode {dialect.name} OKVE1 entry for key {key}: {error.text}")
  | .ok entry =>
      if entry.expiresAt.map DateTime.timestampMillis ≠
          expiresAt.map DateTime.timestampMillis then
        .error (.deserialization
          s!"{dialect.name} expires_at does not match OKVE1 metadata for key {key}")
      else .ok entry

/-- `expires_at IS NULL OR expires_at > now()`. -/
def StoredRow.unexpired (row : StoredRow) (now : DateTime) : Bool :=
  match row.expiresAt with
  | none => true
  | some expires => decide (now < expires)

variable (clock : Clock)

def now : DateTime := dialect.truncate clock.query

def keysLoop : Nat → List StoredRow → Except Error (List String)
  | _, [] => .ok []
  | i, row :: rows => do
      let entry ← decodeEntry dialect row.key row.rawEntry row.expiresAt
      if entry.isExpired (clock.decoded i) then
        .error (.deserialization
          s!"{dialect.name} key enumeration returned expired key {row.key}")
      else do
        let keys ← keysLoop (i + 1) rows
        return row.key :: keys

def collectionsLoop (limit : Nat) :
    Nat → List StoredRow → List String → Except Error (List String)
  | _, [], collections => .ok collections
  | i, row :: rows, collections => do
      let entry ← decodeEntry dialect row.key row.rawEntry row.expiresAt
      if entry.isExpired (clock.decoded i) then
        .error (.deserialization
          s!"{dialect.name} collection enumeration returned expired key {row.key}")
      else if row.collection ∈ collections then
        collectionsLoop limit (i + 1) rows collections
      else if (collections ++ [row.collection]).length = limit then
        .ok (collections ++ [row.collection])
      else
        collectionsLoop limit (i + 1) rows (collections ++ [row.collection])

def cullLoop : Nat → List StoredRow → Except Error (List StoredRow)
  | _, [] => .ok []
  | i, row :: rows => do
      let entry ← decodeEntry dialect row.key row.rawEntry row.expiresAt
      if !entry.isExpired (clock.decoded i) then
        .error (.deserialization
          s!"{dialect.name} expiration query returned live key {row.key}")
      else do
        let expired ← cullLoop (i + 1) rows
        return row :: expired

variable (order : RowOrder) (table : List StoredRow)

def selectKeys (collection : String) (limit : Nat) : List StoredRow :=
  (order.arrange (table.filter fun row =>
    decide (row.collection = collection) &&
      row.unexpired (now dialect clock))).take limit

def selectLive : List StoredRow :=
  order.arrange (table.filter fun row => row.unexpired (now dialect clock))

def selectExpired : List StoredRow :=
  table.filter fun row => !row.unexpired (now dialect clock)

def enumerateKeys (collection : String) (limit : Nat) :
    Except Error (List String) :=
  keysLoop dialect clock 0 (selectKeys dialect clock order table collection
    limit)

def enumerateCollections (limit : Nat) : Except Error (List String) :=
  collectionsLoop dialect clock limit 0 (selectLive dialect clock order table)
    []

def cullRows : Except Error (List StoredRow) :=
  cullLoop dialect clock 0 (selectExpired dialect clock table)

end Loops

def StoredRow.of (dialect : Dialect) (collection key : String)
    (entry : ManagedEntry) : StoredRow :=
  ⟨collection, key, entry.encode, entry.expiresAt.map dialect.truncate⟩

def StoredRow.Written (dialect : Dialect) (row : StoredRow) : Prop :=
  ∃ entry : ManagedEntry, entry.value.Storable ∧
    row = .of dialect row.collection row.key entry

def StoredRow.expiry (row : StoredRow) : Option DateTime :=
  row.expiresAt.map DateTime.truncMillis

def StoredRow.expired (row : StoredRow) (t : DateTime) : Bool :=
  row.expiry.any fun expires => decide (expires ≤ t)

section Written

variable {dialect : Dialect} {row : StoredRow}

theorem truncMillis_truncate (dialect : Dialect) (t : DateTime) :
    (dialect.truncate t).truncMillis = t.truncMillis := by
  simp only [DateTime.truncMillis, dialect.timestampMillis]

theorem decodeEntry_of (h : row.Written dialect) :
    ∃ entry, decodeEntry dialect row.key row.rawEntry row.expiresAt =
      .ok entry ∧ ∀ t, entry.isExpired t = row.expired t := by
  obtain ⟨entry, hvalue, hrow⟩ := h
  have hdecode := ManagedEntry.decode_encode entry hvalue.1 hvalue.2
  have hsame : entry.truncMillis.expiresAt.map DateTime.timestampMillis =
      (entry.expiresAt.map dialect.truncate).map
        DateTime.timestampMillis := by
    cases hexpires : entry.expiresAt <;>
      simp [ManagedEntry.truncMillis, hexpires, dialect.timestampMillis]
  rw [hrow]
  refine ⟨entry.truncMillis, ?_, fun t => ?_⟩
  · simp only [decodeEntry, StoredRow.of, hdecode, hsame, ne_eq,
      not_true_eq_false, if_false]
  · cases hexpires : entry.expiresAt <;>
      simp [StoredRow.expired, StoredRow.expiry, StoredRow.of,
        ManagedEntry.truncMillis, ManagedEntry.isExpired, hexpires,
        truncMillis_truncate]

theorem expired_mono {t t' : DateTime} (h : row.expired t = true)
    (hle : t ≤ t') : row.expired t' = true := by
  cases hexpiry : row.expiry with
  | none => simp [StoredRow.expired, hexpiry] at h
  | some expires =>
      simp only [StoredRow.expired, hexpiry, Option.any_some,
        decide_eq_true_eq, DateTime.le_def] at h hle ⊢
      omega

theorem now_le (clock : Clock) : now dialect clock ≤ clock.query :=
  dialect.truncate_le clock.query

theorem unexpired_of_live {clock : Clock} {t : DateTime}
    (h : row.expired t = false) (hle : clock.query ≤ t) :
    row.unexpired (now dialect clock) = true := by
  cases hexpires : row.expiresAt with
  | none => simp [StoredRow.unexpired, hexpires]
  | some expires =>
      have hnow := @now_le dialect clock
      have hmillis := ManagedEntry.truncMillis_le expires
      simp only [StoredRow.expired, StoredRow.expiry, hexpires,
        Option.map_some, Option.any_some, decide_eq_false_iff_not,
        DateTime.le_def] at h hle hnow hmillis
      simp only [StoredRow.unexpired, hexpires, decide_eq_true_eq,
        DateTime.lt_def]
      omega

theorem expired_of_selected {clock : Clock} {t : DateTime}
    (h : row.unexpired (now dialect clock) = false) (hle : clock.query ≤ t) :
    row.expired t = true := by
  cases hexpired : row.expired t with
  | true => rfl
  | false =>
      rw [unexpired_of_live hexpired hle] at h
      cases h

end Written

/-- No row has expired when it is decoded. -/
def Steady (clock : Clock) : Nat → List StoredRow → Prop
  | _, [] => True
  | i, row :: rows =>
      row.expired (clock.decoded i) = false ∧ Steady clock (i + 1) rows

instance Steady.decidable (clock : Clock) :
    ∀ i rows, Decidable (Steady clock i rows)
  | _, [] => isTrue trivial
  | i, _ :: rows =>
      have : Decidable (Steady clock (i + 1) rows) :=
        Steady.decidable clock (i + 1) rows
      inferInstanceAs (Decidable (_ ∧ _))

def visited (limit : Nat) : List StoredRow → List String → List StoredRow
  | [], _ => []
  | row :: rows, collections =>
      row :: if row.collection ∈ collections then visited limit rows collections
        else if (collections ++ [row.collection]).length = limit then []
        else visited limit rows (collections ++ [row.collection])

section Loops

variable {dialect : Dialect} {clock : Clock}

theorem Steady.live {i : Nat} {rows : List StoredRow}
    (h : Steady clock i rows) {row : StoredRow} (hmem : row ∈ rows) :
    row.expired clock.called = false := by
  induction rows generalizing i with
  | nil => cases hmem
  | cons first rows ih =>
      rcases List.mem_cons.mp hmem with rfl | hmem
      · by_contra hexpired
        have hlater := expired_mono (Bool.not_eq_false _ ▸ hexpired)
          (Int.le_trans clock.called_le (clock.query_le i))
        rw [h.1] at hlater
        cases hlater
      · exact ih h.2 hmem

theorem keysLoop_steady {rows : List StoredRow}
    (hwritten : ∀ row ∈ rows, row.Written dialect) (i : Nat) :
    (Steady clock i rows ∧
        keysLoop dialect clock i rows = .ok (rows.map StoredRow.key)) ∨
      ¬ Steady clock i rows ∧
        ∃ error, keysLoop dialect clock i rows = .error error := by
  induction rows generalizing i with
  | nil => exact .inl ⟨trivial, rfl⟩
  | cons row rows ih =>
      obtain ⟨entry, hdecode, hexpired⟩ :=
        decodeEntry_of (hwritten row List.mem_cons_self)
      simp only [keysLoop, hdecode, bind, Except.bind, hexpired, Steady]
      cases hnow : row.expired (clock.decoded i) with
      | true => exact .inr ⟨by simp, _, rfl⟩
      | false =>
          rcases ih (fun row h => hwritten row (List.mem_cons_of_mem _ h))
            (i + 1) with ⟨hsteady, heval⟩ | ⟨hnot, error, heval⟩
          · exact .inl ⟨⟨rfl, hsteady⟩, by simp [heval, pure, Except.pure]⟩
          · exact .inr ⟨fun h => hnot h.2, error, by simp [heval]⟩

theorem collectionsLoop_isOk {rows : List StoredRow}
    (hwritten : ∀ row ∈ rows, row.Written dialect) (limit i : Nat)
    (collections : List String) :
    (collectionsLoop dialect clock limit i rows collections).isOk = true ↔
      Steady clock i (visited limit rows collections) := by
  induction rows generalizing i collections with
  | nil => exact iff_of_true rfl trivial
  | cons row rows ih =>
      obtain ⟨entry, hdecode, hexpired⟩ :=
        decodeEntry_of (hwritten row List.mem_cons_self)
      have hrest := ih fun row h => hwritten row (List.mem_cons_of_mem _ h)
      simp only [collectionsLoop, hdecode, bind, Except.bind, hexpired,
        visited, Steady]
      cases hnow : row.expired (clock.decoded i) with
      | true => simp [Except.isOk, Except.toBool]
      | false =>
          simp only [Bool.false_eq_true, if_false, true_and]
          split
          · exact hrest (i + 1) collections
          · split
            · exact iff_of_true rfl trivial
            · exact hrest (i + 1) (collections ++ [row.collection])

theorem cullLoop_eq {rows : List StoredRow}
    (hwritten : ∀ row ∈ rows, row.Written dialect)
    (hselected : ∀ row ∈ rows, row.unexpired (now dialect clock) = false)
    (i : Nat) : cullLoop dialect clock i rows = .ok rows := by
  induction rows generalizing i with
  | nil => rfl
  | cons row rows ih =>
      obtain ⟨entry, hdecode, hexpired⟩ :=
        decodeEntry_of (hwritten row List.mem_cons_self)
      have hnow := expired_of_selected (hselected row List.mem_cons_self)
        (clock.query_le i)
      simp only [cullLoop, hdecode, bind, Except.bind, hexpired, hnow,
        Bool.not_true, Bool.false_eq_true, if_false]
      rw [ih (fun row h => hwritten row (List.mem_cons_of_mem _ h))
        (fun row h => hselected row (List.mem_cons_of_mem _ h))]
      rfl

end Loops

/-- `keys` returns, none of its keys had expired when it was called, and
below the limit every key that is live when it returns is among them. -/
def ListsInTime (clock : Clock) (table : List StoredRow) (collection : String)
    (limit : Nat) (result : Except Error (List String)) : Prop :=
  ∃ keys, result = .ok keys ∧
    (∀ key ∈ keys, ∃ row ∈ table, row.collection = collection ∧
      row.key = key ∧ row.expired clock.called = false) ∧
    (keys.length < limit → ∀ row ∈ table, row.collection = collection →
      row.expired clock.returned = false → row.key ∈ keys)

section Enumeration

variable {dialect : Dialect} {clock : Clock} {order : RowOrder}
  {table : List StoredRow}

theorem mem_selectKeys {collection : String} {limit : Nat} {row : StoredRow}
    (h : row ∈ selectKeys dialect clock order table collection limit) :
    row ∈ table ∧ row.collection = collection := by
  have hmem := (order.perm _).mem_iff.mp (List.mem_of_mem_take h)
  obtain ⟨hmem, htest⟩ := List.mem_filter.mp hmem
  rw [Bool.and_eq_true, decide_eq_true_eq] at htest
  exact ⟨hmem, htest.1⟩

theorem enumerateKeys_iff
    (hwritten : ∀ row ∈ table, row.Written dialect) (collection : String)
    (limit : Nat) :
    ListsInTime clock table collection limit
        (enumerateKeys dialect clock order table collection limit) ↔
      Steady clock 0 (selectKeys dialect clock order table collection
        limit) := by
  have hselected : ∀ row ∈ selectKeys dialect clock order table collection
      limit, row.Written dialect :=
    fun row h => hwritten row (mem_selectKeys h).1
  unfold ListsInTime enumerateKeys
  rcases keysLoop_steady hselected 0 with ⟨hsteady, heval⟩ |
    ⟨hnot, error, heval⟩
  · rw [heval]
    refine iff_of_true ⟨_, rfl, fun key hkey => ?_, fun hlength row hrow
      hcollection hlive => ?_⟩ hsteady
    · obtain ⟨row, hrow, rfl⟩ := List.mem_map.mp hkey
      obtain ⟨hmem, hcollection⟩ := mem_selectKeys hrow
      exact ⟨row, hmem, hcollection, rfl, hsteady.live hrow⟩
    · have hunexpired := @unexpired_of_live dialect row clock _ hlive
        (Int.le_trans (clock.query_le 0) (clock.decoded_le 0))
      refine List.mem_map_of_mem ?_
      rw [selectKeys, List.length_map, List.length_take] at hlength
      rw [selectKeys, List.take_of_length_le (by omega),
        (order.perm _).mem_iff]
      exact List.mem_filter.mpr ⟨hrow, by simp [hcollection, hunexpired]⟩
  · rw [heval]
    refine iff_of_false ?_ hnot
    rintro ⟨keys, hkeys, -⟩
    cases hkeys

theorem enumerateCollections_iff
    (hwritten : ∀ row ∈ table, row.Written dialect) (limit : Nat) :
    (enumerateCollections dialect clock order table limit).isOk = true ↔
      Steady clock 0 (visited limit (selectLive dialect clock order table)
        []) := by
  refine collectionsLoop_isOk (fun row hrow => hwritten row ?_) limit 0 []
  exact (List.mem_filter.mp ((order.perm _).mem_iff.mp hrow)).1

theorem cullRows_eq (hwritten : ∀ row ∈ table, row.Written dialect) :
    cullRows dialect clock table =
      .ok (selectExpired dialect clock table) := by
  refine cullLoop_eq (fun row hrow => ?_) (fun row hrow => ?_) 0
  · exact hwritten row (List.mem_filter.mp hrow).1
  · simpa using (List.mem_filter.mp hrow).2

end Enumeration

end OpenKeyV.Sql
