import OpenKeyV.DynamoDB.BatchWrites

/-!
# Batches and single operations of `DynamoDBStore`

No request of a batch exceeds the limits of the service, whatever the answers
are, and a batch with a name that does not fit makes no request.
-/

namespace OpenKeyV.DynamoDB

open Library Library.Interaction DynamoDBStore

section Requests

variable {config : DynamoDBConfig} {order : MapOrder} {α β : Type}
  {collection : String}

def Limited (call : Requests α) (post : α → Prop) : Prop :=
  Meets (fun _ _ _ => ()) (fun _ access => access.WithinLimits)
    (fun _ _ => True) () call fun _ => post

def Silent (call : Requests α) : Prop :=
  Meets (fun _ _ _ => ()) (fun _ access => access = Access.now)
    (fun _ _ => True) () call fun _ _ => False

theorem Limited.bind {post : α → Prop} {post' : β → Prop} {call : Requests α}
    {f : α → Requests β} (h : Limited call post)
    (hf : ∀ a, post a → Limited (f a) post') : Limited (call >>= f) post' :=
  Meets.bind h fun _ a ha => hf a ha

theorem limited_attempt {post : α → Prop} {r : Except Error α}
    (h : ∀ a, r = .ok a → post a) : Limited (attempt r) post :=
  meets_attempt h fun _ _ => trivial

theorem limited_access {access : Access} (h : access.WithinLimits) :
    Limited (Interaction.access access) fun _ => True :=
  meets_access h fun _ => trivial

theorem limited_pure {post : α → Prop} {a : α} (h : post a) :
    Limited (pure a) post := meets_pure h

theorem limited_if {c : Prop} [Decidable c] {post : α → Prop}
    {first second : Requests α} (hfirst : Limited first post)
    (hsecond : Limited second post) :
    Limited (if c then first else second) post := by
  split
  · exact hfirst
  · exact hsecond

theorem limited_fail {post : α → Prop} (error : Error) :
    Limited (fail error) post := limited_attempt fun _ h => by cases h

theorem limited_utcNow : Limited utcNow fun _ => True :=
  limited_access trivial

theorem requestKeys_eq_ok {keys : List String} {addresses : List PrimaryKey}
    (h : requestKeys collection keys = .ok addresses) :
    addresses = keys.map (physicalKey collection) := by
  induction keys generalizing addresses with
  | nil =>
      cases h
      rfl
  | cons key keys ih =>
      rcases tryPrimaryKey_cases collection key with hkey | ⟨error, herror⟩
      · have hkey' : tryPrimaryKey collection key =
            .ok (physicalKey collection key) := hkey
        simp only [requestKeys, hkey', bind, Except.bind] at h
        cases hrest : requestKeys collection keys with
        | error error =>
            rw [hrest] at h
            cases h
        | ok rest =>
            rw [hrest] at h
            cases h
            rw [ih hrest, List.map_cons]
      · simp only [requestKeys, herror, bind, Except.bind] at h
        cases h

theorem limited_deleteObservedExpired (item : DecodedItem) :
    Limited (deleteObservedExpired item) fun _ => True := by
  unfold deleteObservedExpired
  split
  · exact limited_fail _
  · rename_i ttl _
    refine (limited_attempt fun _ _ => trivial).bind fun key _ => ?_
    have hwithin : (Access.deleteObserved key item.encoded
        (toString ttl)).WithinLimits := trivial
    refine (limited_access hwithin).bind fun answer _ => ?_
    split
    · exact limited_pure trivial
    · exact limited_pure trivial
    · exact limited_fail _

theorem limited_readChunks {parts : List (List String)}
    (hnodup : ∀ part ∈ parts, part.Nodup)
    (hlimit : ∀ part ∈ parts, part.length ≤ maxBatchGet)
    (decoded : KeyedMap String DecodedItem) :
    Limited (readChunks config collection parts decoded) fun _ => True := by
  induction parts generalizing decoded with
  | nil => exact limited_pure trivial
  | cons part parts ih =>
      refine (limited_attempt fun addresses haddresses =>
        requestKeys_eq_ok haddresses).bind fun addresses haddresses => ?_
      have hwithin : (Access.batchGet addresses).WithinLimits := by
        rw [haddresses]
        exact ⟨by rw [List.length_map]; exact hlimit part List.mem_cons_self,
          physicalKeys_nodup (hnodup part List.mem_cons_self)⟩
      refine (limited_access hwithin).bind fun answer _ =>
        (limited_attempt fun _ _ => trivial).bind fun output _ =>
          limited_if (limited_fail _)
            ((limited_attempt fun _ _ => trivial).bind fun decoded _ => ?_)
      exact ih (fun other ho => hnodup other (List.mem_cons_of_mem _ ho))
        (fun other ho => hlimit other (List.mem_cons_of_mem _ ho)) decoded

theorem limited_expiredItems (items : List (String × DecodedItem)) :
    Limited (expiredItems items) fun _ => True := by
  induction items with
  | nil => exact limited_pure trivial
  | cons item items ih =>
      exact limited_utcNow.bind fun _ _ => ih.bind fun _ _ =>
        limited_pure trivial

theorem limited_removeExpired (expired : List (String × DecodedItem))
    (decoded : KeyedMap String DecodedItem) :
    Limited (removeExpired expired decoded) fun _ => True := by
  induction expired generalizing decoded with
  | nil => exact limited_pure trivial
  | cons item expired ih =>
      exact (limited_deleteObservedExpired item.2).bind fun _ _ => ih _

theorem nodup_of_mem_chunks {n : Nat} {items part : List α}
    (hitems : items.Nodup) (h : part ∈ chunks n items) : part.Nodup := by
  obtain ⟨i, -, rfl⟩ := List.mem_map.mp h
  exact hitems.sublist ((List.take_sublist _ _).trans (List.drop_sublist _ _))

theorem limited_readEntries (keys : List String) :
    Limited (readEntries config order collection keys) fun _ => True := by
  refine (limited_attempt fun _ _ => trivial).bind fun _ _ =>
    (limited_readChunks
      (fun part hpart => nodup_of_mem_chunks (uniqueKeys_nodup keys) hpart)
      (fun part hpart => length_le_of_mem_chunks hpart) ∅).bind
        fun decoded _ => (limited_expiredItems _).bind fun expired _ =>
          (limited_removeExpired _ _).bind fun _ _ => limited_pure trivial

theorem limited_ttlEach (entries : KeyedMap String ManagedEntry)
    (keys : List String) :
    Limited (ttlEach entries keys) fun _ => True := by
  induction keys with
  | nil => exact limited_pure trivial
  | cons key keys ih =>
      rw [ttlEach]
      split
      · exact ih.bind fun _ _ => limited_pure trivial
      · exact limited_utcNow.bind fun _ _ => ih.bind fun _ _ =>
          limited_pure trivial

theorem limited_newEntry (value : Value) (ttl : Option F64) :
    Limited (newEntry value ttl) fun _ => True :=
  limited_utcNow.bind fun _ _ => limited_attempt fun _ _ => trivial

theorem limited_prepareItems (ttl : Option F64)
    (pairs : List (String × Value)) :
    Limited (prepareItems collection ttl pairs) fun items =>
      items.map primaryKey? =
        pairs.map fun pair => some (physicalKey collection pair.1) := by
  induction pairs with
  | nil => exact limited_pure rfl
  | cons pair pairs ih =>
      obtain ⟨key, value⟩ := pair
      refine (limited_newEntry value ttl).bind fun entry _ =>
        (limited_attempt fun item hitem => ?_ : Limited
          (attempt (tryEncodeItem collection key entry)) fun item =>
            primaryKey? item = some (physicalKey collection key)).bind
          fun item hitem => ih.bind fun items hitems => limited_pure ?_
      · rcases tryPrimaryKey_cases collection key with hkey | ⟨error, herror⟩
        · rw [tryEncodeItem_eq hkey] at hitem
          cases hitem
          exact primaryKey?_itemOf _ entry
        · rw [tryEncodeItem_error herror] at hitem
          cases hitem
      · rw [List.map_cons, List.map_cons, hitem, hitems]

theorem limited_writeChunk {failed unprocessed : String}
    {writes : List WriteRequest} (h : (Access.batchWrite writes).WithinLimits) :
    Limited (writeChunk failed unprocessed writes) fun _ => True :=
  (limited_access h).bind fun _ _ =>
    (limited_attempt fun _ _ => trivial).bind fun _ _ =>
      limited_if (limited_fail _) (limited_pure trivial)

theorem limited_putChunks {parts : List (List Item)}
    (hnodup : ∀ part ∈ parts, (part.map primaryKey?).Nodup)
    (hlimit : ∀ part ∈ parts, part.length ≤ maxBatchWrite) :
    Limited (putChunks collection parts) fun _ => True := by
  induction parts with
  | nil => exact limited_pure trivial
  | cons part parts ih =>
      have hwithin : (Access.batchWrite (part.map .put)).WithinLimits := by
        refine ⟨by rw [List.length_map]; exact hlimit part List.mem_cons_self,
          ?_⟩
        rw [List.map_map]
        exact hnodup part List.mem_cons_self
      exact (limited_writeChunk hwithin).bind fun _ _ =>
        ih (fun other ho => hnodup other (List.mem_cons_of_mem _ ho))
          fun other ho => hlimit other (List.mem_cons_of_mem _ ho)

theorem limited_existingChunks {parts : List (List String)}
    (hnodup : ∀ part ∈ parts, part.Nodup)
    (hlimit : ∀ part ∈ parts, part.length ≤ maxBatchGet)
    (existing : List String) :
    Limited (existingChunks config collection parts existing)
      fun _ => True := by
  induction parts generalizing existing with
  | nil => exact limited_pure trivial
  | cons part parts ih =>
      refine (limited_attempt fun addresses haddresses =>
        requestKeys_eq_ok haddresses).bind fun addresses haddresses => ?_
      have hwithin : (Access.batchGetKeys addresses).WithinLimits := by
        rw [haddresses]
        exact ⟨by rw [List.length_map]; exact hlimit part List.mem_cons_self,
          physicalKeys_nodup (hnodup part List.mem_cons_self)⟩
      refine (limited_access hwithin).bind fun answer _ =>
        (limited_attempt fun _ _ => trivial).bind fun output _ =>
          limited_if (limited_fail _)
            ((limited_attempt fun _ _ => trivial).bind fun existing _ => ?_)
      exact ih (fun other ho => hnodup other (List.mem_cons_of_mem _ ho))
        (fun other ho => hlimit other (List.mem_cons_of_mem _ ho)) existing

theorem limited_deleteChunks {parts : List (List String)}
    (hnodup : ∀ part ∈ parts, part.Nodup)
    (hlimit : ∀ part ∈ parts, part.length ≤ maxBatchWrite) :
    Limited (deleteChunks collection parts) fun _ => True := by
  induction parts with
  | nil => exact limited_pure trivial
  | cons part parts ih =>
      refine (limited_attempt fun addresses haddresses =>
        requestKeys_eq_ok haddresses).bind fun addresses haddresses => ?_
      have hwithin : (Access.batchWrite
          (addresses.map .delete)).WithinLimits := by
        rw [haddresses]
        refine ⟨?_, ?_⟩
        · rw [List.length_map, List.length_map]
          exact hlimit part List.mem_cons_self
        · rw [List.map_map]
          exact (physicalKeys_nodup (hnodup part List.mem_cons_self)).map
            (Option.some_injective _)
      exact (limited_writeChunk hwithin).bind fun _ _ =>
        ih (fun other ho => hnodup other (List.mem_cons_of_mem _ ho))
          fun other ho => hlimit other (List.mem_cons_of_mem _ ho)

theorem limited_putMany (keys : List String) (values : List Value)
    (name : Option String) (ttl : Option F64) :
    Limited (putMany config keys values name ttl) fun _ => True := by
  have hvalid : Limited (validateOptionalTtl ttl) fun _ => True := by
    cases ttl with
    | none => exact limited_pure trivial
    | some seconds =>
        exact limited_utcNow.bind fun _ _ => limited_attempt fun _ _ => trivial
  refine limited_if (limited_fail _) (hvalid.bind fun _ _ =>
    (limited_prepareItems ttl (selectLast keys values)).bind
      fun items hitems => limited_putChunks (fun part hpart => ?_)
        fun part hpart => length_le_of_mem_chunks hpart)
  have hnodup : (items.map primaryKey?).Nodup := by
    have hsome := (@selectLast_lastWrites (collectionName config name) keys
      values).nodup.map (Option.some_injective _)
    rw [List.map_map] at hsome
    rw [hitems]
    exact hsome
  obtain ⟨i, -, rfl⟩ := List.mem_map.mp hpart
  exact hnodup.sublist
    (((List.take_sublist _ _).trans (List.drop_sublist _ _)).map _)

theorem limited_deleteMany (keys : List String) (name : Option String) :
    Limited (deleteMany config keys name) fun _ => True := by
  refine (limited_attempt fun _ _ => trivial).bind fun _ _ =>
    (limited_existingChunks
      (fun part hpart => nodup_of_mem_chunks (uniqueKeys_nodup keys) hpart)
      (fun part hpart => length_le_of_mem_chunks hpart) []).bind
        fun existing _ => (limited_deleteChunks (fun part hpart => ?_)
          fun part hpart => length_le_of_mem_chunks hpart).bind
            fun _ _ => limited_pure trivial
  exact nodup_of_mem_chunks ((uniqueKeys_nodup keys).filter _) hpart

theorem silent_checked {keys : List String} {f : Unit → Requests α}
    (h : ∃ key ∈ keys, ¬ Encodable collection key) :
    Silent (attempt (checkKeys collection (uniqueKeys keys)) >>= f) := by
  obtain ⟨key, hkey, hunfit⟩ := h
  rcases checkKeys_cases collection (uniqueKeys keys) with
    ⟨-, hall⟩ | ⟨-, -, error, -, hfail⟩
  · exact absurd (hall key (mem_uniqueKeys.mpr hkey)) hunfit
  · rw [hfail]
    exact trivial

theorem Silent.bind {call : Requests α} {f : α → Requests β}
    (h : Silent call) : Silent (call >>= f) :=
  Meets.bind h fun _ _ hfalse => hfalse.elim

theorem Silent.after {call : Requests α} {f : α → Requests β}
    (h : Meets (fun _ _ _ => ()) (fun _ access => access = Access.now)
      (fun _ _ => True) () call fun _ _ => True)
    (hf : ∀ a, Silent (f a)) : Silent (call >>= f) :=
  Meets.bind h fun _ a _ => hf a

theorem silent_attempt {error : Error} :
    Silent (attempt (.error error) : Requests α) := trivial

theorem meets_utcNow :
    Meets (fun _ _ _ => ()) (fun _ access => access = Access.now)
      (fun _ _ => True) () utcNow fun _ _ => True :=
  meets_access rfl fun _ => trivial

theorem meets_newEntry (value : Value) (ttl : Option F64) :
    Meets (fun _ _ _ => ()) (fun _ access => access = Access.now)
      (fun _ _ => True) () (newEntry value ttl) fun _ _ => True :=
  Meets.bind meets_utcNow fun _ _ _ =>
    meets_attempt (fun _ _ => trivial) fun _ _ => trivial

theorem meets_validateOptionalTtl (ttl : Option F64) :
    Meets (fun _ _ _ => ()) (fun _ access => access = Access.now)
      (fun _ _ => True) () (validateOptionalTtl ttl) fun _ _ => True := by
  cases ttl with
  | none => exact meets_pure trivial
  | some seconds =>
      exact Meets.bind meets_utcNow fun _ _ _ =>
        meets_attempt (fun _ _ => trivial) fun _ _ => trivial

theorem silent_prepareItems {ttl : Option F64}
    {pairs : List (String × Value)}
    (h : ∃ pair ∈ pairs, ¬ Encodable collection pair.1) :
    Silent (prepareItems collection ttl pairs) := by
  induction pairs with
  | nil =>
      obtain ⟨pair, hpair, -⟩ := h
      cases hpair
  | cons pair pairs ih =>
      obtain ⟨key, value⟩ := pair
      refine Silent.after (meets_newEntry value ttl) fun entry => ?_
      rcases tryPrimaryKey_cases collection key with hkey | ⟨error, hfail⟩
      · rw [tryEncodeItem_eq hkey]
        have hrest : ∃ pair ∈ pairs, ¬ Encodable collection pair.1 := by
          obtain ⟨other, hother, hunfit⟩ := h
          rcases List.mem_cons.mp hother with rfl | hother
          · exact absurd hkey hunfit
          · exact ⟨other, hother, hunfit⟩
        refine Silent.after ?_ fun item => (ih hrest).bind
        exact meets_attempt (fun _ _ => trivial) fun _ _ => trivial
      · rw [tryEncodeItem_error hfail]
        exact silent_attempt.bind

theorem silent_putMany {keys : List String} {values : List Value}
    {name : Option String} (ttl : Option F64)
    (h : ∃ key ∈ keys, ¬ Encodable (collectionName config name) key) :
    Silent (putMany config keys values name ttl) := by
  unfold putMany
  split
  · exact silent_attempt
  · rename_i hlength
    have hsame := not_not.mp hlength
    have hselected : ∃ pair ∈ selectLast keys values,
        ¬ Encodable (collectionName config name) pair.1 := by
      obtain ⟨key, hkey, hunfit⟩ := h
      have hmem := (@keys_distinctFrom (String × Value) String _ Prod.fst []
        (keys.zip values).reverse key).mpr ⟨by
          rw [List.map_reverse, List.mem_reverse, List.map_fst_zip hsame.le]
          exact hkey, by simp⟩
      obtain ⟨pair, hpair, rfl⟩ := List.mem_map.mp hmem
      exact ⟨pair, List.mem_reverse.mpr hpair, hunfit⟩
    exact Silent.after (meets_validateOptionalTtl ttl) fun _ =>
      (silent_prepareItems hselected).bind

end Requests

/-- The batches of `DynamoDBStore` do what its single operations do, within
the limits of the service. -/
theorem batches_match_singles (config : DynamoDBConfig) (order : MapOrder)
    (service : Service) (table : Table) (keys : List String)
    (name : Option String) :
    (∀ now,
      PerPosition keys (fun key => (playCall (serve config service)
          (DynamoDBStore.get config key name) (.still table now)).1)
        (playCall (serve config service) (getMany config order keys name)
          (.still table now)).1 ∧
      PerPosition keys (fun key => (playCall (serve config service)
          (ttl config key name) (.still table now)).1)
        (playCall (serve config service) (ttlMany config order keys name)
          (.still table now)).1 ∧
      ((∀ key ∈ keys, Encodable (collectionName config name) key) →
        ∀ values ttl, keys.length = values.length → ∀ address,
          (playCall (serve config service)
              (putMany config keys values name ttl)
              (.still table now)).2.table.items.lookup address =
            (playCall (serve config service)
              (putEach config name ttl (keys.zip values))
              (.still table now)).2.table.items.lookup address)) ∧
    (∀ values ttl clock clock' s s',
      playCall (serve config service) (putMany config keys values name ttl)
          ⟨table, clock⟩ = (.ok (), s) →
      playCall (serve config service)
          (putEach config name ttl (keys.zip values)) ⟨table, clock'⟩ =
        (.ok (), s') →
      ∀ address, SameValue (s.table.items.lookup address)
        (s'.table.items.lookup address)) ∧
    ((∀ key ∈ keys, Encodable (collectionName config name) key) →
      ∀ clock, DeletesListed (collectionName config name) keys table
        (playCall (serve config service) (deleteMany config keys name)
          ⟨table, clock⟩)) ∧
    (Limited (getMany config order keys name) (fun _ => True) ∧
      Limited (ttlMany config order keys name) (fun _ => True) ∧
      (∀ values ttl, Limited (putMany config keys values name ttl)
        fun _ => True) ∧
      Limited (deleteMany config keys name) fun _ => True) ∧
    ((∃ key ∈ keys, ¬ Encodable (collectionName config name) key) →
      Silent (getMany config order keys name) ∧
        Silent (ttlMany config order keys name) ∧
        (∀ values ttl, Silent (putMany config keys values name ttl)) ∧
        Silent (deleteMany config keys name)) := by
  refine ⟨fun now => ?_, ?_, ?_, ⟨?_, ?_, ?_, ?_⟩, fun hunfit => ?_⟩
  · have hstill : Still now (.still table now) := fun _ => rfl
    exact ⟨getMany_perPosition hstill keys name,
      ttlMany_perPosition hstill keys name,
      fun hencodable values ttl hlength address =>
        putMany_each hstill hlength hencodable address⟩
  · intro values ttl clock clock' s s' hmany heach address
    obtain ⟨items, hbuilt, htable⟩ :=
      putMany_written (P := fun _ => True) (fun _ => trivial) hmany
    obtain ⟨items', hbuilt', htable'⟩ :=
      putEach_written (P := fun _ => True) (fun _ => trivial) heach
    rw [htable, htable']
    exact lookups_sameValue hbuilt hbuilt' table address
  · exact fun hencodable clock => deleteMany_deletes hencodable
  · exact (limited_readEntries keys).bind fun _ _ => limited_pure trivial
  · exact (limited_readEntries keys).bind fun _ _ => limited_ttlEach _ keys
  · exact fun values ttl => limited_putMany keys values name ttl
  · exact limited_deleteMany keys name
  · exact ⟨(silent_checked hunfit).bind, (silent_checked hunfit).bind,
      fun values ttl => silent_putMany ttl hunfit, silent_checked hunfit⟩

end OpenKeyV.DynamoDB
