import Mathlib.Data.Finset.Card
import OpenKeyV.DynamoDB.BatchReads

/-!
# Batch writes of `DynamoDBStore`

`put_many` prepares the last item of each key before its first request.
`delete_many` asks which keys there are, and deletes those.
-/

namespace OpenKeyV.DynamoDB

open Library Library.Interaction DynamoDBStore

/-! ## Writes -/

def putEach (config : DynamoDBConfig) (collection : Option String)
    (ttl : Option F64) : List (String × Value) → Requests Unit
  | [] => return ()
  | (key, value) :: pairs => do
      put config key value collection ttl
      putEach config collection ttl pairs

def Built (P : DateTime → Prop) (collection : String) (ttl : Option F64)
    (pair : String × Value) (item : Item) : Prop :=
  ∃ time entry, P time ∧ ManagedEntry.ofTtl time pair.2 ttl = .ok entry ∧
    item = itemOf (physicalKey collection pair.1) entry

def SameValue (first second : Option Item) : Prop :=
  first = second ∨ ∃ address entry entry',
    ManagedEntry.value entry = ManagedEntry.value entry' ∧
      first = some (itemOf address entry) ∧
      second = some (itemOf address entry')

section Writing

variable {config : DynamoDBConfig} {service : Service} {now : DateTime}
  {s : Server} {collection : String} {ttl : Option F64}
  {P P' : DateTime → Prop}

theorem Built.primaryKey? {pair : String × Value} {item : Item}
    (h : Built P collection ttl pair item) :
    DynamoDB.primaryKey? item = some (physicalKey collection pair.1) := by
  obtain ⟨time, entry, -, -, rfl⟩ := h
  exact primaryKey?_itemOf _ entry

theorem playCall_newEntry (value : Value) (s : Server) :
    playCall (serve config service) (newEntry value ttl) s =
      (ManagedEntry.ofTtl (s.clock 0) value ttl,
        { s with clock := fun n => s.clock (n + 1) }) := by
  simp only [newEntry, utcNow, playCall_bind, playCall_access, serve,
    playCall_attempt]

theorem lookup_putAll (items : List Item) (table : Table) (key : PrimaryKey) :
    (items.foldl Table.put table).items.lookup key =
      (lastWith DynamoDB.primaryKey? items (some key)).or
        (table.items.lookup key) := by
  induction items generalizing table with
  | nil => simp [lastWith]
  | cons item items ih =>
      rw [List.foldl_cons, ih, Table.lookup_put, lastWith]
      cases lastWith DynamoDB.primaryKey? items (some key) with
      | some last => simp
      | none =>
          by_cases hkey : DynamoDB.primaryKey? item = some key
          · simp [hkey]
          · simp [hkey]

theorem playCall_prepareItems (hP : ∀ n, P (s.clock n))
    (pairs : List (String × Value)) :
    ∃ r s', playCall (serve config service)
        (prepareItems collection ttl pairs) s = (r, s') ∧
      s'.table = s.table ∧
      ∀ items, r = .ok items →
        List.Forall₂ (Built P collection ttl) pairs items := by
  induction pairs generalizing s with
  | nil => exact ⟨.ok [], s, rfl, rfl, fun items h => by cases h; exact .nil⟩
  | cons pair pairs ih =>
      obtain ⟨key, value⟩ := pair
      simp only [prepareItems, playCall_bind, playCall_newEntry,
        playCall_attempt]
      cases hentry : ManagedEntry.ofTtl (s.clock 0) value ttl with
      | error error => exact ⟨_, _, rfl, rfl, fun _ h => by cases h⟩
      | ok entry =>
          rcases tryPrimaryKey_cases collection key with hkey | ⟨error, hfail⟩
          · obtain ⟨r, s', hplay, htable, hr⟩ :=
              @ih { s with clock := fun n => s.clock (n + 1) } fun n => hP _
            simp only [tryEncodeItem_eq hkey, hplay]
            cases r with
            | error error => exact ⟨_, _, rfl, htable, fun _ h => by cases h⟩
            | ok items =>
                refine ⟨_, _, rfl, htable, fun items' h => ?_⟩
                cases h
                exact .cons ⟨s.clock 0, entry, hP 0, hentry, rfl⟩
                  (hr items rfl)
          · simp only [tryEncodeItem_error hfail]
            exact ⟨_, _, rfl, rfl, fun _ h => by cases h⟩

theorem prepareItems_succeeds (h : Still now s)
    {pairs : List (String × Value)}
    (httl : ∀ value, ∃ entry, ManagedEntry.ofTtl now value ttl = .ok entry)
    (hencodable : ∀ pair ∈ pairs, Encodable collection pair.1) :
    ∃ items s', playCall (serve config service)
      (prepareItems collection ttl pairs) s = (.ok items, s') := by
  induction pairs generalizing s with
  | nil => exact ⟨[], s, rfl⟩
  | cons pair pairs ih =>
      obtain ⟨key, value⟩ := pair
      obtain ⟨entry, hentry⟩ := httl value
      obtain ⟨items, s', hplay⟩ :=
        @ih { s with clock := fun n => s.clock (n + 1) } (fun _ => h _)
          fun other hmem => hencodable other (List.mem_cons_of_mem _ hmem)
      refine ⟨itemOf (physicalKey collection key) entry :: items, s', ?_⟩
      simp only [prepareItems, playCall_bind, playCall_newEntry, h 0, hentry,
        playCall_attempt, tryEncodeItem_eq (hencodable _ List.mem_cons_self),
        hplay]
      rfl

theorem foldl_apply_put (items : List Item) (table : Table) :
    (items.map WriteRequest.put).foldl Table.apply table =
      items.foldl Table.put table := by
  rw [List.foldl_map]
  rfl

theorem playCall_putChunks {parts : List (List Item)}
    (hnodup : (parts.flatten.map DynamoDB.primaryKey?).Nodup)
    (hnamed : ∀ item ∈ parts.flatten,
      (DynamoDB.primaryKey? item).isSome = true)
    (hlimit : ∀ part ∈ parts, part.length ≤ maxBatchWrite) (s : Server) :
    playCall (serve config service) (putChunks collection parts) s =
      (.ok (), { s with table := parts.flatten.foldl Table.put s.table }) := by
  induction parts generalizing s with
  | nil => rfl
  | cons part parts ih =>
      rw [List.flatten_cons] at hnodup hnamed ⊢
      rw [List.map_append, List.nodup_append] at hnodup
      have hwithin : (Access.batchWrite (part.map .put)).WithinLimits := by
        refine ⟨by rw [List.length_map]; exact hlimit part List.mem_cons_self,
          ?_⟩
        rw [List.map_map]
        exact hnodup.1
      have hkeys : ∀ write ∈ part.map WriteRequest.put,
          write.key?.isSome = true := by
        intro write hwrite
        obtain ⟨item, hitem, rfl⟩ := List.mem_map.mp hwrite
        exact hnamed item (List.mem_append_left _ hitem)
      simp only [putChunks, writeChunk, playCall_bind, playCall_access, serve,
        if_pos (And.intro hwithin hkeys), sent, playCall_attempt,
        Bool.false_eq_true, if_false, playCall_pure, foldl_apply_put,
        ih hnodup.2.1 (fun item hitem =>
          hnamed item (List.mem_append_right _ hitem))
          (fun other ho => hlimit other (List.mem_cons_of_mem _ ho)),
        List.foldl_append]

theorem forall₂_keys {pairs : List (String × Value)} {items : List Item}
    (h : List.Forall₂ (Built P collection ttl) pairs items) :
    items.map DynamoDB.primaryKey? =
      pairs.map fun pair => some (physicalKey collection pair.1) := by
  induction h with
  | nil => rfl
  | cons hfirst _ ih =>
      rw [List.map_cons, List.map_cons, hfirst.primaryKey?, ih]

theorem selectLast_lastWrites (keys : List String) (values : List Value) :
    LastWrites (fun pair => physicalKey collection pair.1) (keys.zip values)
      (selectLast keys values) :=
  (lastWrites_distinct (keys.zip values)).comp
    fun _ _ heq => (physicalKey_inj.mp heq).2

theorem playCall_putItems {pairs : List (String × Value)} {items : List Item}
    (hnodup : (pairs.map fun pair => physicalKey collection pair.1).Nodup)
    (hbuilt : List.Forall₂ (Built P collection ttl) pairs items)
    (s : Server) :
    playCall (serve config service)
        (putChunks collection (chunks maxBatchWrite items)) s =
      (.ok (), { s with table := items.foldl Table.put s.table }) := by
  have hflatten : (chunks maxBatchWrite items).flatten = items :=
    flatten_chunks (by decide) _
  have hkeys := forall₂_keys hbuilt
  rw [playCall_putChunks, hflatten]
  · have hsome := hnodup.map (Option.some_injective _)
    rw [List.map_map] at hsome
    rw [hflatten, hkeys]
    exact hsome
  · rw [hflatten]
    intro item hitem
    have hmem := List.mem_map_of_mem (f := DynamoDB.primaryKey?) hitem
    rw [hkeys] at hmem
    obtain ⟨pair, -, heq⟩ := List.mem_map.mp hmem
    rw [← heq]
    rfl
  · exact fun part hpart => length_le_of_mem_chunks hpart

theorem putMany_written {keys : List String} {values : List Value}
    {name : Option String} (hP : ∀ n, P (s.clock n)) {s' : Server}
    (h : playCall (serve config service)
      (putMany config keys values name ttl) s = (.ok (), s')) :
    ∃ items, List.Forall₂ (Built P (collectionName config name) ttl)
        (selectLast keys values) items ∧
      s'.table = items.foldl Table.put s.table := by
  unfold putMany at h
  split at h
  · cases h
  · have hvalid : ∃ r t, playCall (serve config service)
        (validateOptionalTtl ttl) s = (r, t) ∧ t.table = s.table ∧
          ∀ n, P (t.clock n) := by
      cases ttl with
      | none => exact ⟨_, s, rfl, rfl, hP⟩
      | some seconds =>
          simp only [validateOptionalTtl, utcNow, playCall_bind,
            playCall_access, serve, playCall_attempt]
          exact ⟨_, _, rfl, rfl, fun n => hP _⟩
    obtain ⟨r, t, hvalid, htable, hP'⟩ := hvalid
    rw [playCall_bind, hvalid] at h
    cases r with
    | error error => cases h
    | ok _ =>
        obtain ⟨r, u, hprepare, htable', hr⟩ := @playCall_prepareItems config
          service t (collectionName config name) ttl P hP'
          (selectLast keys values)
        simp only [playCall_bind, hprepare] at h
        cases r with
        | error error => cases h
        | ok items =>
            have hbuilt := hr items rfl
            simp only [playCall_putItems (selectLast_lastWrites keys
              values).nodup hbuilt] at h
            cases h
            exact ⟨items, hbuilt, by rw [htable', htable]⟩

theorem playCall_put (key : String) (value : Value) (name : Option String)
    (hP : ∀ n, P (s.clock n)) :
    ∃ r t, playCall (serve config service) (put config key value name ttl) s =
        (r, t) ∧ (∀ n, P (t.clock n)) ∧
      ((∃ error, r = .error error) ∧ t.table = s.table ∨
        r = .ok () ∧ ∃ item, Built P (collectionName config name) ttl
          (key, value) item ∧ t.table = s.table.put item) := by
  simp only [put, playCall_bind, playCall_newEntry, playCall_attempt]
  cases hentry : ManagedEntry.ofTtl (s.clock 0) value ttl with
  | error error =>
      exact ⟨_, _, rfl, fun n => hP _, .inl ⟨⟨error, rfl⟩, rfl⟩⟩
  | ok entry =>
      rcases tryPrimaryKey_cases (collectionName config name) key with
        hkey | ⟨error, hfail⟩
      · simp only [tryEncodeItem_eq hkey, playCall_access, serve,
          primaryKey?_itemOf, sent]
        exact ⟨_, _, rfl, fun n => hP _, .inr ⟨rfl, _,
          ⟨s.clock 0, entry, hP 0, hentry, rfl⟩, rfl⟩⟩
      · simp only [tryEncodeItem_error hfail]
        exact ⟨_, _, rfl, fun n => hP _, .inl ⟨⟨error, rfl⟩, rfl⟩⟩

theorem putEach_written {pairs : List (String × Value)}
    {name : Option String} (hP : ∀ n, P (s.clock n)) {s' : Server}
    (h : playCall (serve config service) (putEach config name ttl pairs) s =
      (.ok (), s')) :
    ∃ items, List.Forall₂ (Built P (collectionName config name) ttl) pairs
        items ∧ s'.table = items.foldl Table.put s.table := by
  induction pairs generalizing s with
  | nil =>
      cases h
      exact ⟨[], .nil, rfl⟩
  | cons pair pairs ih =>
      obtain ⟨r, t, hput, hP', hr⟩ :=
        @playCall_put config service s ttl P pair.1 pair.2 name hP
      simp only [putEach, playCall_bind, hput] at h
      rcases hr with ⟨⟨error, rfl⟩, -⟩ | ⟨rfl, item, hitem, htable⟩
      · cases h
      · obtain ⟨items, hbuilt, hdone⟩ := ih hP' h
        exact ⟨item :: items, .cons hitem hbuilt, by
          rw [hdone, htable, List.foldl_cons]⟩

end Writing

/-! ## Writes compared -/

section Compared

variable {collection : String} {ttl : Option F64} {P P' : DateTime → Prop}
  {keys : List String} {values : List Value} {items items' : List Item}

theorem lookups_built
    (hbatch : List.Forall₂ (Built P collection ttl) (selectLast keys values)
      items)
    (heach : List.Forall₂ (Built P' collection ttl) (keys.zip values) items')
    (table : Table) (address : PrimaryKey) :
    (items.foldl Table.put table).items.lookup address =
        (items'.foldl Table.put table).items.lookup address ∨
      ∃ pair item item', Built P collection ttl pair item ∧
        Built P' collection ttl pair item' ∧
        (items.foldl Table.put table).items.lookup address = some item ∧
        (items'.foldl Table.put table).items.lookup address = some item' := by
  have hkey : ∀ {Q : DateTime → Prop} (pair : String × Value) (item : Item),
      Built Q collection ttl pair item →
        (physicalKey collection pair.1 = address ↔
          primaryKey? item = some address) := by
    intro Q pair item hbuilt
    rw [hbuilt.primaryKey?, Option.some.injEq]
  have hlast := lastWith_forall₂ hbatch (k := address) hkey
  have hlast' := lastWith_forall₂ heach (k := address) hkey
  rw [(selectLast_lastWrites keys values).lastWith_eq] at hlast
  rw [lookup_putAll, lookup_putAll]
  rcases hpair : lastWith (fun pair => physicalKey collection pair.1)
      (keys.zip values) address with _ | pair
  · rw [hpair] at hlast hlast'
    left
    rcases hitem : lastWith primaryKey? items (some address) with _ | item
    · rcases hitem' : lastWith primaryKey? items' (some address) with _ | item'
      · rfl
      · rw [hitem'] at hlast'
        cases hlast'
    · rw [hitem] at hlast
      cases hlast
  · rw [hpair] at hlast hlast'
    right
    rcases hitem : lastWith primaryKey? items (some address) with _ | item
    · rw [hitem] at hlast
      cases hlast
    · rcases hitem' : lastWith primaryKey? items' (some address) with _ | item'
      · rw [hitem'] at hlast'
        cases hlast'
      · rw [hitem] at hlast
        rw [hitem'] at hlast'
        cases hlast with
        | some hbuilt =>
            cases hlast' with
            | some hbuilt' =>
                exact ⟨pair, item, item', hbuilt, hbuilt', rfl, rfl⟩

theorem lookups_sameValue
    (hbatch : List.Forall₂ (Built P collection ttl) (selectLast keys values)
      items)
    (heach : List.Forall₂ (Built P' collection ttl) (keys.zip values) items')
    (table : Table) (address : PrimaryKey) :
    SameValue ((items.foldl Table.put table).items.lookup address)
      ((items'.foldl Table.put table).items.lookup address) := by
  rcases lookups_built hbatch heach table address with hsame |
    ⟨pair, item, item', ⟨_, entry, -, hentry, rfl⟩,
      ⟨_, entry', -, hentry', rfl⟩, hfirst, hsecond⟩
  · exact .inl hsame
  · exact .inr ⟨_, entry, entry',
      (ManagedEntry.value_of_ofTtl hentry).trans
        (ManagedEntry.value_of_ofTtl hentry').symm, hfirst, hsecond⟩

theorem lookups_equal {now : DateTime}
    (hbatch : List.Forall₂ (Built (· = now) collection ttl)
      (selectLast keys values) items)
    (heach : List.Forall₂ (Built (· = now) collection ttl) (keys.zip values)
      items') (table : Table) (address : PrimaryKey) :
    (items.foldl Table.put table).items.lookup address =
      (items'.foldl Table.put table).items.lookup address := by
  rcases lookups_built hbatch heach table address with hsame |
    ⟨pair, item, item', ⟨_, entry, rfl, hentry, rfl⟩,
      ⟨_, entry', rfl, hentry', rfl⟩, hfirst, hsecond⟩
  · exact hsame
  · rw [hentry] at hentry'
    cases hentry'
    rw [hfirst, hsecond]

end Compared

section PutMany

variable {config : DynamoDBConfig} {service : Service} {now : DateTime}
  {s : Server} {ttl : Option F64} {name : Option String}
  {keys : List String} {values : List Value}

theorem playCall_validateOptionalTtl (h : Still now s)
    (hvalid : ∀ seconds, ttl = some seconds →
      ManagedEntry.validateTtl now seconds = .ok ()) :
    ∃ t, playCall (serve config service) (validateOptionalTtl ttl) s =
      (.ok (), t) ∧ Still now t := by
  cases ttl with
  | none => exact ⟨s, rfl, h⟩
  | some seconds =>
      simp only [validateOptionalTtl, utcNow, playCall_bind, playCall_access,
        serve, playCall_attempt, h 0, hvalid seconds rfl]
      exact ⟨_, rfl, fun _ => h _⟩

theorem putMany_succeeds (h : Still now s)
    (hlength : keys.length = values.length)
    (httl : ∀ value, ∃ entry, ManagedEntry.ofTtl now value ttl = .ok entry)
    (hvalid : ∀ seconds, ttl = some seconds →
      ManagedEntry.validateTtl now seconds = .ok ())
    (hencodable : ∀ key ∈ keys,
      Encodable (collectionName config name) key) :
    ∃ s', playCall (serve config service)
      (putMany config keys values name ttl) s = (.ok (), s') := by
  obtain ⟨t, hok, hstill⟩ := @playCall_validateOptionalTtl config service now s
    ttl h hvalid
  obtain ⟨items, u, hprepare⟩ := @prepareItems_succeeds config service now t
    (collectionName config name) ttl hstill (selectLast keys values) httl
    fun pair hmem => hencodable pair.1 (List.of_mem_zip
      ((@selectLast_lastWrites (collectionName config name) keys
        values).subset hmem)).1
  obtain ⟨r, u', hplay, -, hr⟩ := @playCall_prepareItems config service t
    (collectionName config name) ttl (fun _ => True) (fun _ => trivial)
    (selectLast keys values)
  rw [hprepare] at hplay
  cases hplay
  simp only [putMany, if_neg (not_not_intro hlength), playCall_bind, hok,
    hprepare]
  exact ⟨_, playCall_putItems (selectLast_lastWrites keys values).nodup
    (hr items rfl) u⟩

theorem putEach_succeeds {pairs : List (String × Value)} (h : Still now s)
    (httl : ∀ value, ∃ entry, ManagedEntry.ofTtl now value ttl = .ok entry)
    (hencodable : ∀ pair ∈ pairs,
      Encodable (collectionName config name) pair.1) :
    ∃ s', playCall (serve config service) (putEach config name ttl pairs) s =
      (.ok (), s') := by
  induction pairs generalizing s with
  | nil => exact ⟨s, rfl⟩
  | cons pair pairs ih =>
      obtain ⟨entry, hentry⟩ := httl pair.2
      have hput : ∃ t, playCall (serve config service)
          (put config pair.1 pair.2 name ttl) s = (.ok (), t) ∧
            Still now t := by
        simp only [put, playCall_bind, playCall_newEntry, h 0, hentry,
          playCall_attempt, tryEncodeItem_eq
            (hencodable pair List.mem_cons_self), playCall_access, serve,
          primaryKey?_itemOf, sent]
        exact ⟨_, rfl, fun _ => h _⟩
      obtain ⟨t, hput, hstill⟩ := hput
      obtain ⟨s', hrest⟩ := ih hstill fun other hmem =>
        hencodable other (List.mem_cons_of_mem _ hmem)
      exact ⟨s', by simp only [putEach, playCall_bind, hput, hrest]⟩

theorem putMany_invalid {error : Error} {seconds : F64} (h : Still now s)
    (hvalid : ManagedEntry.validateTtl now seconds = .error error) :
    (playCall (serve config service)
      (putMany config keys values name (some seconds)) s).2.table =
        s.table := by
  unfold putMany
  split
  · rfl
  · simp only [validateOptionalTtl, utcNow, playCall_bind, playCall_access,
      serve, playCall_attempt, h 0, hvalid]

theorem putEach_invalid {error : Error} (h : Still now s)
    (httl : ∀ value, ManagedEntry.ofTtl now value ttl = .error error)
    (pairs : List (String × Value)) :
    (playCall (serve config service) (putEach config name ttl pairs)
      s).2.table = s.table := by
  cases pairs with
  | nil => rfl
  | cons pair pairs =>
      simp only [putEach, put, playCall_bind, playCall_newEntry, h 0, httl]

theorem putMany_each (h : Still now s) (hlength : keys.length = values.length)
    (hencodable : ∀ key ∈ keys,
      Encodable (collectionName config name) key) (address : PrimaryKey) :
    (playCall (serve config service) (putMany config keys values name ttl)
        s).2.table.items.lookup address =
      (playCall (serve config service)
        (putEach config name ttl (keys.zip values)) s).2.table.items.lookup
          address := by
  rcases ManagedEntry.ofTtl_cases now ttl with ⟨httl, hvalid⟩ |
    ⟨error, httl, seconds, rfl, hvalid⟩
  · obtain ⟨t, hmany⟩ := @putMany_succeeds config service now s ttl name keys
      values h hlength httl hvalid hencodable
    obtain ⟨u, heach⟩ := @putEach_succeeds config service now s ttl name
      (keys.zip values) h httl fun pair hmem =>
        hencodable pair.1 (List.of_mem_zip hmem).1
    obtain ⟨items, hbuilt, htable⟩ := putMany_written (P := (· = now)) h hmany
    obtain ⟨items', hbuilt', htable'⟩ :=
      putEach_written (P := (· = now)) h heach
    rw [hmany, heach]
    simp only [htable, htable']
    exact lookups_equal hbuilt hbuilt' s.table address
  · rw [putMany_invalid h hvalid, putEach_invalid h httl]

end PutMany

/-! ## Deletions -/

section DeleteMany

variable {config : DynamoDBConfig} {service : Service} {s : Server}
  {collection : String} {table : Table}

def Present (table : Table) (collection key : String) : Prop :=
  (table.items.lookup (physicalKey collection key)).isSome = true

instance : DecidablePred (Present table collection) := fun _ =>
  inferInstanceAs (Decidable (_ = true))

theorem collectKeys_present {requested : List String} {as : List PrimaryKey}
    {existing : List String} (hnodup : as.Nodup)
    (has : ∀ a ∈ as, ∃ key ∈ requested, Encodable collection key ∧
      a = physicalKey collection key)
    (hfresh : ∀ key ∈ existing, physicalKey collection key ∉ as)
    (hexisting : existing.Nodup) :
    ∃ existing', collectKeys collection requested (as.filterMap fun a =>
        (table.items.lookup a).map projectKeys) existing = .ok existing' ∧
      existing'.Nodup ∧ ∀ key, key ∈ existing' ↔ key ∈ existing ∨
        physicalKey collection key ∈ as ∧ Present table collection key := by
  induction as generalizing existing with
  | nil => exact ⟨existing, rfl, hexisting, by simp⟩
  | cons a as ih =>
      obtain ⟨hnew, hlater⟩ := List.nodup_cons.mp hnodup
      obtain ⟨key, hkey, hencodable, rfl⟩ := has a List.mem_cons_self
      have hrest := fun a ha => has a (List.mem_cons_of_mem _ ha)
      have hapart : ∀ other ∈ existing, physicalKey collection other ∉ as :=
        fun other ho hmem => hfresh other ho (List.mem_cons_of_mem _ hmem)
      cases hitem : table.items.lookup (physicalKey collection key) with
      | none =>
          obtain ⟨existing', hcollect, hnodup', hmem⟩ :=
            @ih existing hlater hrest hapart hexisting
          have hgone : ¬ Present table collection key := by
            rw [Present, hitem]
            exact Bool.false_ne_true
          simp only [List.filterMap_cons, hitem, Option.map_none]
          refine ⟨existing', hcollect, hnodup', fun other => ?_⟩
          rw [hmem, List.mem_cons, physicalKey_inj]
          by_cases heq : other = key
          · simp [heq, hgone]
          · simp [heq]
      | some item =>
          have hthere : Present table collection key := by
            rw [Present, hitem]
            rfl
          have habsent : key ∉ existing := fun hmem =>
            hfresh key hmem List.mem_cons_self
          have hwanted : ¬ (collection ≠ collection ∨ key ∉ requested) := by
            simp [hkey]
          obtain ⟨existing', hcollect, hnodup', hmem⟩ :=
            @ih (key :: existing) hlater hrest
              (List.forall_mem_cons.mpr ⟨hnew, hapart⟩)
              (List.nodup_cons.mpr ⟨habsent, hexisting⟩)
          simp only [List.filterMap_cons, hitem, Option.map_some, collectKeys,
            decodePhysicalKey_projectKeys (table.keyed _ _ hitem) hencodable,
            bind, Except.bind, if_neg hwanted, if_neg habsent]
          refine ⟨existing', hcollect, hnodup', fun other => ?_⟩
          rw [hmem, List.mem_cons, List.mem_cons, physicalKey_inj]
          by_cases heq : other = key
          · simp [heq, hthere]
          · simp [heq]

theorem playCall_existingChunks {parts : List (List String)}
    {existing : List String} (hnodup : parts.flatten.Nodup)
    (hlimit : ∀ part ∈ parts, part.length ≤ maxBatchGet)
    (hencodable : ∀ key ∈ parts.flatten, Encodable collection key)
    (hfresh : ∀ key ∈ existing, key ∉ parts.flatten)
    (hexisting : existing.Nodup) :
    ∃ existing', playCall (serve config service)
        (existingChunks config collection parts existing) s =
          (.ok existing', s) ∧
      existing'.Nodup ∧ ∀ key, key ∈ existing' ↔ key ∈ existing ∨
        key ∈ parts.flatten ∧ Present s.table collection key := by
  induction parts generalizing existing with
  | nil => exact ⟨existing, rfl, hexisting, by simp⟩
  | cons part parts ih =>
      rw [List.flatten_cons] at hnodup hencodable hfresh ⊢
      obtain ⟨hpart, hrest, hapart⟩ := List.nodup_append.mp hnodup
      have hkeys := requestKeys_encodable fun key hmem =>
        hencodable key (List.mem_append_left _ hmem)
      have hwithin : (Access.batchGetKeys
          (part.map (physicalKey collection))).WithinLimits :=
        ⟨by rw [List.length_map]; exact hlimit part List.mem_cons_self,
          physicalKeys_nodup hpart⟩
      have hmem : ∀ key, physicalKey collection key ∈ service.arrange
          (part.map (physicalKey collection)) ↔ key ∈ part := by
        intro key
        rw [(service.perm _).mem_iff, List.mem_map]
        constructor
        · rintro ⟨other, hother, heq⟩
          exact (physicalKey_inj.mp heq).2 ▸ hother
        · exact fun h => ⟨key, h, rfl⟩
      obtain ⟨between, hcollect, hbetween, hin⟩ :=
        @collectKeys_present collection s.table part
          (service.arrange (part.map (physicalKey collection))) existing
          ((service.perm _).nodup_iff.mpr (physicalKeys_nodup hpart))
          (fun a ha => by
            obtain ⟨key, hkey, rfl⟩ := List.mem_map.mp
              ((service.perm _).mem_iff.mp ha)
            exact ⟨key, hkey, hencodable key (List.mem_append_left _ hkey),
              rfl⟩)
          (fun key hk hmem' => hfresh key hk
            (List.mem_append_left _ ((hmem key).mp hmem')))
          hexisting
      obtain ⟨existing', hplay, hnodup', hout⟩ := @ih between hrest
        (fun other ho => hlimit other (List.mem_cons_of_mem _ ho))
        (fun key hk => hencodable key (List.mem_append_right _ hk))
        (fun key hk hlater => by
          rcases (hin key).mp hk with hk | ⟨hk, -⟩
          · exact hfresh key hk (List.mem_append_right _ hlater)
          · exact hapart key ((hmem key).mp hk) key hlater rfl)
        hbetween
      refine ⟨existing', ?_, hnodup', fun key => ?_⟩
      · simp only [existingChunks, playCall_bind, playCall_attempt, hkeys,
          playCall_access, serve, if_pos hwithin, sent, Bool.false_eq_true,
          if_false, collectKeyResponses, ne_eq, not_true_eq_false]
        rw [hcollect]
        exact hplay
      · rw [hout, hin, hmem, List.mem_append]
        tauto

theorem foldl_apply_delete (keys : List String) (table : Table) :
    ((keys.map (physicalKey collection)).map WriteRequest.delete).foldl
        Table.apply table =
      keys.foldl (fun t key => t.delete (physicalKey collection key))
        table := by
  rw [List.map_map, List.foldl_map]
  rfl

theorem playCall_deleteChunks {parts : List (List String)}
    (hnodup : parts.flatten.Nodup)
    (hencodable : ∀ key ∈ parts.flatten, Encodable collection key)
    (hlimit : ∀ part ∈ parts, part.length ≤ maxBatchWrite) (s : Server) :
    playCall (serve config service) (deleteChunks collection parts) s =
      (.ok (), { s with
        table := parts.flatten.foldl
          (fun t key => t.delete (physicalKey collection key)) s.table }) := by
  induction parts generalizing s with
  | nil => rfl
  | cons part parts ih =>
      rw [List.flatten_cons] at hnodup hencodable ⊢
      obtain ⟨hpart, hrest, -⟩ := List.nodup_append.mp hnodup
      have hkeys := requestKeys_encodable fun key hmem =>
        hencodable key (List.mem_append_left _ hmem)
      have hwithin : (Access.batchWrite ((part.map
          (physicalKey collection)).map .delete)).WithinLimits := by
        refine ⟨?_, ?_⟩
        · rw [List.length_map, List.length_map]
          exact hlimit part List.mem_cons_self
        · rw [List.map_map]
          exact (physicalKeys_nodup hpart).map (Option.some_injective _)
      have hnamed : ∀ write ∈ (part.map (physicalKey collection)).map
          WriteRequest.delete, write.key?.isSome = true := by
        intro write hwrite
        obtain ⟨key, -, rfl⟩ := List.mem_map.mp hwrite
        rfl
      simp only [deleteChunks, writeChunk, playCall_bind, playCall_attempt,
        hkeys, playCall_access, serve, if_pos (And.intro hwithin hnamed), sent,
        Bool.false_eq_true, if_false, playCall_pure, foldl_apply_delete,
        ih hrest (fun key hk => hencodable key (List.mem_append_right _ hk))
          (fun other ho => hlimit other (List.mem_cons_of_mem _ ho)),
        List.foldl_append]

theorem lookup_deleteAll (keys : List String) (table : Table)
    (address : PrimaryKey) :
    (keys.foldl (fun t key => t.delete (physicalKey collection key))
        table).items.lookup address =
      if address ∈ keys.map (physicalKey collection) then none
      else table.items.lookup address := by
  induction keys generalizing table with
  | nil => simp
  | cons key keys ih =>
      simp only [List.foldl_cons, ih, Table.lookup_delete, List.map_cons,
        List.mem_cons]
      by_cases hlater : address ∈ keys.map (physicalKey collection)
      · simp [hlater]
      · by_cases hkey : address = physicalKey collection key
        · simp [hkey]
        · simp [hlater, hkey]

/-- The answer counts the listed keys that are present, and these are gone. -/
def DeletesListed (collection : String) (keys : List String) (table : Table)
    (r : Except Error Nat × Server) : Prop :=
  r.1 = .ok (keys.toFinset.filter (Present table collection)).card ∧
    ∀ address, r.2.table.items.lookup address =
      if address ∈ keys.map (physicalKey collection) then none
      else table.items.lookup address

theorem deleteMany_deletes {keys : List String} {name : Option String}
    (hencodable : ∀ key ∈ keys,
      Encodable (collectionName config name) key) :
    DeletesListed (collectionName config name) keys s.table
      (playCall (serve config service) (deleteMany config keys name) s) := by
  have hflatten : (chunks maxBatchGet (uniqueKeys keys)).flatten =
      uniqueKeys keys := flatten_chunks (by decide) _
  have hunique : ∀ key ∈ uniqueKeys keys,
      Encodable (collectionName config name) key :=
    fun key hkey => hencodable key (mem_uniqueKeys.mp hkey)
  have hchecked : checkKeys (collectionName config name) (uniqueKeys keys) =
      .ok () := by
    rcases checkKeys_cases (collectionName config name) (uniqueKeys keys) with
      ⟨hok, -⟩ | ⟨key, hkey, error, herror, -⟩
    · exact hok
    · have hok : tryPrimaryKey (collectionName config name) key = .ok _ :=
        hunique key hkey
      rw [herror] at hok
      cases hok
  obtain ⟨existing, hplay, hnodup, hmem⟩ := @playCall_existingChunks config
    service s (collectionName config name)
    (chunks maxBatchGet (uniqueKeys keys)) []
    (by rw [hflatten]; exact uniqueKeys_nodup keys)
    (fun part hpart => length_le_of_mem_chunks hpart)
    (by rw [hflatten]; exact hunique) (by simp) .nil
  rw [hflatten] at hmem
  have hlast : (chunks maxBatchWrite ((uniqueKeys keys).filter fun key =>
      existing.contains key)).flatten =
        (uniqueKeys keys).filter fun key => existing.contains key :=
    flatten_chunks (by decide) _
  have hdelete := @playCall_deleteChunks config service
    (collectionName config name) (chunks maxBatchWrite
      ((uniqueKeys keys).filter fun key => existing.contains key))
    (by rw [hlast]; exact (uniqueKeys_nodup keys).filter _)
    (by
      rw [hlast]
      exact fun key hkey => hunique key (List.mem_filter.mp hkey).1)
    (fun part hpart => length_le_of_mem_chunks hpart) s
  simp only [deleteMany, playCall_bind, playCall_attempt, hchecked, hplay,
    hdelete, hlast]
  constructor
  · have hsame : existing.toFinset = keys.toFinset.filter
        (Present s.table (collectionName config name)) := by
      ext key
      rw [List.mem_toFinset, hmem, Finset.mem_filter, List.mem_toFinset,
        mem_uniqueKeys]
      simp
    rw [← hsame, List.toFinset_card_of_nodup hnodup]
    rfl
  · intro address
    refine (lookup_deleteAll _ _ _).trans ?_
    by_cases hlisted : address ∈ keys.map
        (physicalKey (collectionName config name))
    · rw [if_pos hlisted]
      obtain ⟨key, hkey, rfl⟩ := List.mem_map.mp hlisted
      split
      · rfl
      · rename_i hkept
        have habsent : ¬ Present s.table (collectionName config name) key :=
          fun hpresent => hkept (List.mem_map_of_mem (List.mem_filter.mpr
            ⟨mem_uniqueKeys.mpr hkey, List.contains_iff_mem.mpr
              ((hmem key).mpr (.inr ⟨mem_uniqueKeys.mpr hkey, hpresent⟩))⟩))
        rw [Present, Bool.not_eq_true, Option.isSome_eq_false_iff,
          Option.isNone_iff_eq_none] at habsent
        exact habsent
    · rw [if_neg hlisted, if_neg]
      intro hmem'
      obtain ⟨key, hkey, rfl⟩ := List.mem_map.mp hmem'
      exact hlisted (List.mem_map_of_mem
        (mem_uniqueKeys.mp (List.mem_filter.mp hkey).1))

end DeleteMany

end OpenKeyV.DynamoDB
