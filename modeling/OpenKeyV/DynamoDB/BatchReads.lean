import OpenKeyV.DynamoDB.Service

/-!
# Batch reads of `DynamoDBStore`

A batch read cuts its distinct keys into chunks, one request for each, and
puts the answers together by position.
-/

namespace OpenKeyV.DynamoDB

open Library Library.Interaction DynamoDBStore

/-! ## Single reads -/

def decodedAt (table : Table) (address : PrimaryKey) :
    Except Error (Option DecodedItem) :=
  match table.items.lookup address with
  | none => .ok none
  | some item => (decodeItem item).map some

def liveEntry (now : DateTime) (decoded : Option DecodedItem) :
    Option ManagedEntry :=
  decoded.bind fun item =>
    if item.entry.isExpired now then none else some item.entry

def entryAt (table : Table) (now : DateTime) (collection key : String) :
    Except Error (Option ManagedEntry) := do
  let address ← tryPrimaryKey collection key
  let decoded ← decodedAt table address
  return liveEntry now decoded

section Single

variable {config : DynamoDBConfig} {service : Service} {now : DateTime}
  {s : Server} {collection key : String} {table : Table}

theorem decodedAt_eq_ok {decoded : DecodedItem}
    (hencodable : Encodable collection key)
    (h : decodedAt table (physicalKey collection key) = .ok (some decoded)) :
    decoded.collection = collection ∧ decoded.key = key ∧
      decoded.ttl = nativeTtl decoded.entry := by
  unfold decodedAt at h
  split at h
  · cases h
  · rename_i item hitem
    cases hdecode : decodeItem item with
    | error error =>
        rw [hdecode] at h
        cases h
    | ok found =>
        rw [hdecode] at h
        cases h
        obtain ⟨hcollection, hkey⟩ := names_of_decodeItem
          (table.keyed _ _ hitem) hencodable hdecode
        exact ⟨hcollection, hkey, (decodeItem_eq_ok hdecode).2.2⟩

theorem exists_ttl_of_expired {decoded : DecodedItem}
    (httl : decoded.ttl = nativeTtl decoded.entry)
    (h : decoded.entry.isExpired now = true) :
    ∃ ttl, decoded.ttl = some ttl := by
  rw [httl, nativeTtl]
  cases hexpires : decoded.entry.expiresAt with
  | none => simp [ManagedEntry.isExpired, hexpires] at h
  | some expires => exact ⟨_, rfl⟩

theorem serve_deleteObserved (key : PrimaryKey) (entry : Bytes)
    (ttl : String) (s : Server) :
    (serve config service (.deleteObserved key entry ttl) s).1 = .ok () ∨
      (serve config service (.deleteObserved key entry ttl) s).1 =
        .error .conditionalCheckFailed := by
  simp only [serve]
  split
  · exact .inl rfl
  · exact .inr rfl

theorem playCall_deleteObservedExpired {item : DecodedItem} {ttl : Int}
    (httl : item.ttl = some ttl)
    (hencodable : Encodable item.collection item.key) (s : Server) :
    ∃ s', playCall (serve config service) (deleteObservedExpired item) s =
      (.ok (), s') := by
  have h : tryPrimaryKey item.collection item.key =
      .ok (physicalKey item.collection item.key) := hencodable
  simp only [deleteObservedExpired, httl, playCall_bind, playCall_attempt,
    h, playCall_access]
  rcases @serve_deleteObserved config service
    (physicalKey item.collection item.key) item.encoded (toString ttl) s with
    hanswer | hanswer
  · rw [hanswer]
    exact ⟨_, rfl⟩
  · rw [hanswer]
    exact ⟨_, rfl⟩

theorem entryAt_encodable (h : Encodable collection key) :
    entryAt table now collection key =
      (decodedAt table (physicalKey collection key)).map (liveEntry now) := by
  have hkey : tryPrimaryKey collection key =
      .ok (physicalKey collection key) := h
  simp only [entryAt, hkey, bind, Except.bind]
  cases decodedAt table (physicalKey collection key) <;> rfl

theorem entryAt_error {error : Error}
    (h : tryPrimaryKey collection key = .error error) :
    entryAt table now collection key = .error error := by
  simp only [entryAt, h, bind, Except.bind]

theorem playCall_readEntry (h : Still now s) (collection key : String) :
    (playCall (serve config service) (readEntry collection key) s).1 =
      entryAt s.table now collection key := by
  rcases tryPrimaryKey_cases collection key with hencodable | ⟨error, herror⟩
  · have hkey : tryPrimaryKey collection key =
        .ok (physicalKey collection key) := hencodable
    rw [entryAt_encodable hencodable]
    simp only [readEntry, playCall_bind, playCall_attempt, hkey,
      playCall_access, serve, sent]
    cases hitem : s.table.items.lookup (physicalKey collection key) with
    | none =>
        simp only [decodedAt, hitem]
        rfl
    | some item =>
        cases hdecode : decodeItem item with
        | error error =>
            simp only [decodedAt, hitem, hdecode, playCall_bind,
              playCall_attempt, Except.map]
        | ok decoded =>
            have hat : decodedAt s.table (physicalKey collection key) =
                .ok (some decoded) := by
              simp only [decodedAt, hitem, hdecode, Except.map]
            obtain ⟨hcollection, hname, httl⟩ := decodedAt_eq_ok hencodable hat
            have hsame : ¬ (decoded.collection ≠ collection ∨
                decoded.key ≠ key) := by
              simp [hcollection, hname]
            simp only [playCall_bind, playCall_attempt, hdecode, hsame,
              if_false, hat, utcNow, playCall_access, serve, h 0, liveEntry,
              Option.bind_some, Except.map]
            cases hexpired : decoded.entry.isExpired now with
            | false => rfl
            | true =>
                obtain ⟨ttl, hsome⟩ := exists_ttl_of_expired httl hexpired
                obtain ⟨s', hdelete⟩ := @playCall_deleteObservedExpired config
                  service decoded ttl hsome
                  (by rw [hcollection, hname]; exact hencodable)
                  { s with clock := fun n => s.clock (n + 1) }
                simp only [playCall_bind, hdelete, if_true]
                rfl
  · rw [entryAt_error herror]
    simp only [readEntry, playCall_bind, playCall_attempt, herror]

end Single

/-! ## Batch reads -/

section Batch

variable {config : DynamoDBConfig} {service : Service} {order : MapOrder}
  {now : DateTime} {s : Server} {collection : String} {table : Table}

def Reads (table : Table) (collection : String) (p : String → Prop)
    (before after : KeyedMap String DecodedItem) : Prop :=
  ∀ key, (p key → decodedAt table (physicalKey collection key) =
      .ok (after.lookup key)) ∧
    (¬ p key → after.lookup key = before.lookup key)

section Reads

variable {p q : String → Prop}
  {before between after : KeyedMap String DecodedItem}

theorem Reads.congr (h : Reads table collection p before after)
    (hsame : ∀ key, q key ↔ p key) : Reads table collection q before after :=
  fun key => ⟨fun hq => (h key).1 ((hsame key).mp hq), fun hq =>
    (h key).2 fun hp => hq ((hsame key).mpr hp)⟩

theorem Reads.trans (hfirst : Reads table collection p before between)
    (hsecond : Reads table collection q between after)
    (hapart : ∀ key, p key → ¬ q key) :
    Reads table collection (fun key => p key ∨ q key) before after := by
  intro key
  obtain ⟨hin, hout⟩ := hsecond key
  constructor
  · rintro (hp | hq)
    · rw [hout (hapart key hp)]
      exact (hfirst key).1 hp
    · exact hin hq
  · intro hnot
    rw [not_or] at hnot
    rw [hout hnot.2, (hfirst key).2 hnot.1]

end Reads

theorem collectItems_reads {requested : List String} {as : List PrimaryKey}
    {decoded : KeyedMap String DecodedItem} (hnodup : as.Nodup)
    (has : ∀ a ∈ as, ∃ key ∈ requested, Encodable collection key ∧
      a = physicalKey collection key)
    (hfresh : ∀ key, physicalKey collection key ∈ as →
      decoded.lookup key = none) :
    match collectItems collection requested
        (as.filterMap table.items.lookup) decoded with
    | .ok decoded' => Reads table collection
        (fun key => physicalKey collection key ∈ as) decoded decoded'
    | .error error => ∃ a ∈ as, decodedAt table a = .error error := by
  induction as generalizing decoded with
  | nil => exact fun key => ⟨fun h => by simp at h, fun _ => rfl⟩
  | cons a as ih =>
      obtain ⟨hnew, hlater⟩ := List.nodup_cons.mp hnodup
      obtain ⟨key, hkey, hencodable, rfl⟩ := has a List.mem_cons_self
      have hrest := fun a ha => has a (List.mem_cons_of_mem _ ha)
      have hother : ∀ other, physicalKey collection other ∈ as →
          other ≠ key := fun other hmem heq => hnew (heq ▸ hmem)
      cases hitem : table.items.lookup (physicalKey collection key) with
      | none =>
          have hnone : decodedAt table (physicalKey collection key) =
              .ok none := by
            simp only [decodedAt, hitem]
          have hspec := @ih decoded hlater hrest fun other hmem =>
            hfresh other (List.mem_cons_of_mem _ hmem)
          simp only [List.filterMap_cons, hitem]
          split
          · rename_i decoded' hcollect
            rw [hcollect] at hspec
            intro other
            obtain ⟨hin, hout⟩ := hspec other
            simp only [List.mem_cons, physicalKey_inj, true_and]
            constructor
            · rintro (rfl | hmem)
              · rw [hnone, hout hnew, hfresh _ List.mem_cons_self]
              · exact hin hmem
            · exact fun habsent => hout fun hmem => habsent (.inr hmem)
          · rename_i error hcollect
            rw [hcollect] at hspec
            obtain ⟨a, ha, herror⟩ := hspec
            exact ⟨a, List.mem_cons_of_mem _ ha, herror⟩
      | some item =>
          simp only [List.filterMap_cons, hitem, collectItems]
          cases hdecode : decodeItem item with
          | error error =>
              refine ⟨_, List.mem_cons_self, ?_⟩
              simp only [decodedAt, hitem, hdecode, Except.map]
          | ok found =>
              have hat : decodedAt table (physicalKey collection key) =
                  .ok (some found) := by
                simp only [decodedAt, hitem, hdecode, Except.map]
              obtain ⟨hcollection, hname, -⟩ := decodedAt_eq_ok hencodable hat
              have hwanted : ¬ (found.collection ≠ collection ∨
                  found.key ∉ requested) := by
                simp [hcollection, hname, hkey]
              have hfirst : (decoded.lookup found.key).isSome = false := by
                rw [hname, hfresh key List.mem_cons_self]
                rfl
              have hspec := @ih (decoded.insert found.key found) hlater hrest
                fun other hmem => by
                  rw [KeyedMap.lookup_insert_eq, hname,
                    if_neg (hother other hmem)]
                  exact hfresh other (List.mem_cons_of_mem _ hmem)
              simp only [bind, Except.bind, hwanted, if_false, hfirst,
                Bool.false_eq_true]
              split
              · rename_i decoded' hcollect
                rw [hcollect] at hspec
                intro other
                obtain ⟨hin, hout⟩ := hspec other
                simp only [List.mem_cons, physicalKey_inj, true_and]
                constructor
                · rintro (rfl | hmem)
                  · rw [hat, hout hnew, KeyedMap.lookup_insert_eq, hname,
                      if_pos rfl]
                  · exact hin hmem
                · intro habsent
                  rw [hout fun hmem => habsent (.inr hmem),
                    KeyedMap.lookup_insert_eq, hname,
                    if_neg fun heq => habsent (.inl heq)]
              · rename_i error hcollect
                rw [hcollect] at hspec
                obtain ⟨a, ha, herror⟩ := hspec
                exact ⟨a, List.mem_cons_of_mem _ ha, herror⟩

theorem requestKeys_encodable {keys : List String}
    (h : ∀ key ∈ keys, Encodable collection key) :
    requestKeys collection keys = .ok (keys.map (physicalKey collection)) := by
  induction keys with
  | nil => rfl
  | cons key keys ih =>
      have hkey : tryPrimaryKey collection key =
          .ok (physicalKey collection key) := h key List.mem_cons_self
      simp only [requestKeys, hkey, bind, Except.bind, pure, Except.pure,
        ih fun other hmem => h other (List.mem_cons_of_mem _ hmem),
        List.map_cons]

theorem physicalKeys_nodup {keys : List String} (h : keys.Nodup) :
    (keys.map (physicalKey collection)).Nodup :=
  h.map fun _ _ heq => (physicalKey_inj.mp heq).2

theorem playCall_readChunks {parts : List (List String)}
    {decoded : KeyedMap String DecodedItem} (hnodup : parts.flatten.Nodup)
    (hlimit : ∀ part ∈ parts, part.length ≤ maxBatchGet)
    (hencodable : ∀ key ∈ parts.flatten, Encodable collection key)
    (hfresh : ∀ key ∈ parts.flatten, decoded.lookup key = none) :
    ∃ r, playCall (serve config service)
        (readChunks config collection parts decoded) s = (r, s) ∧
      match r with
      | .ok decoded' =>
          Reads s.table collection (· ∈ parts.flatten) decoded decoded'
      | .error error => ∃ key ∈ parts.flatten,
          decodedAt s.table (physicalKey collection key) = .error error := by
  induction parts generalizing decoded with
  | nil => exact ⟨.ok decoded, rfl, fun key => ⟨by simp, fun _ => rfl⟩⟩
  | cons part parts ih =>
      rw [List.flatten_cons] at hnodup hencodable hfresh ⊢
      obtain ⟨hpart, hrest, hapart⟩ := List.nodup_append.mp hnodup
      have hlater : ∀ key ∈ part, key ∉ parts.flatten := fun key hmem hmem' =>
        hapart key hmem key hmem' rfl
      have hkeys := requestKeys_encodable fun key hmem =>
        hencodable key (List.mem_append_left _ hmem)
      have hwithin : (Access.batchGet
          (part.map (physicalKey collection))).WithinLimits :=
        ⟨by rw [List.length_map]; exact hlimit part List.mem_cons_self,
          physicalKeys_nodup hpart⟩
      have hmem : ∀ key, physicalKey collection key ∈ service.arrange
          (part.map (physicalKey collection)) ↔ key ∈ part := by
        intro key
        rw [(service.perm _).mem_iff, List.mem_map]
        constructor
        · rintro ⟨other, hother, heq⟩
          exact (physicalKey_inj.mp heq).2 ▸ hother
        · exact fun h => ⟨key, h, rfl⟩
      have hcollect := @collectItems_reads collection s.table part
        (service.arrange (part.map (physicalKey collection))) decoded
        ((service.perm _).nodup_iff.mpr (physicalKeys_nodup hpart))
        (fun a ha => by
          obtain ⟨key, hkey, rfl⟩ := List.mem_map.mp
            ((service.perm _).mem_iff.mp ha)
          exact ⟨key, hkey, hencodable key (List.mem_append_left _ hkey),
            rfl⟩)
        fun key hin => hfresh key (List.mem_append_left _ ((hmem key).mp hin))
      simp only [readChunks, playCall_bind, playCall_attempt, hkeys,
        playCall_access, serve, if_pos hwithin, sent, Bool.false_eq_true,
        if_false, collectResponses, ne_eq, not_true_eq_false]
      split at hcollect
      · rename_i decoded' heq
        have hread : Reads s.table collection (· ∈ part) decoded decoded' :=
          hcollect.congr fun key => (hmem key).symm
        obtain ⟨r, hplay, hr⟩ := @ih decoded' hrest
          (fun other ho => hlimit other (List.mem_cons_of_mem _ ho))
          (fun key hk => hencodable key (List.mem_append_right _ hk))
          fun key hk => by
            rw [(hread key).2 fun hp => hlater key hp hk]
            exact hfresh key (List.mem_append_right _ hk)
        refine ⟨r, ?_, ?_⟩
        · rw [heq]
          exact hplay
        · split
          · exact (hread.trans hr hlater).congr fun _ => List.mem_append
          · obtain ⟨key, hk, herror⟩ := hr
            exact ⟨key, List.mem_append_right _ hk, herror⟩
      · rename_i error heq
        obtain ⟨a, ha, herror⟩ := hcollect
        obtain ⟨key, hkey, rfl⟩ := List.mem_map.mp
          ((service.perm _).mem_iff.mp ha)
        refine ⟨.error error, ?_, key, List.mem_append_left _ hkey, herror⟩
        rw [heq]
        rfl

theorem playCall_expiredItems (h : Still now s)
    (items : List (String × DecodedItem)) :
    ∃ s', playCall (serve config service) (expiredItems items) s =
      (.ok (items.filter fun item => item.2.entry.isExpired now), s') := by
  induction items generalizing s with
  | nil => exact ⟨s, rfl⟩
  | cons item items ih =>
      obtain ⟨s', hplay⟩ := @ih { s with clock := fun n => s.clock (n + 1) }
        fun _ => h _
      refine ⟨s', ?_⟩
      simp only [expiredItems, utcNow, playCall_bind, playCall_access, serve,
        h 0, hplay, List.filter_cons]
      cases item.2.entry.isExpired now <;> rfl

theorem playCall_removeExpired {expired : List (String × DecodedItem)}
    (h : ∀ item ∈ expired, (∃ ttl, item.2.ttl = some ttl) ∧
      Encodable item.2.collection item.2.key)
    (decoded : KeyedMap String DecodedItem) (s : Server) :
    ∃ s', playCall (serve config service) (removeExpired expired decoded) s =
      (.ok (decoded.eraseAll (expired.map Prod.fst)), s') := by
  induction expired generalizing decoded s with
  | nil => exact ⟨s, rfl⟩
  | cons item expired ih =>
      obtain ⟨⟨ttl, httl⟩, hencodable⟩ := h item List.mem_cons_self
      obtain ⟨s', hdelete⟩ := @playCall_deleteObservedExpired config service
        item.2 ttl httl hencodable s
      obtain ⟨s'', hplay⟩ := ih (fun other hmem =>
        h other (List.mem_cons_of_mem _ hmem)) (decoded.erase item.1) s'
      refine ⟨s'', ?_⟩
      simp only [removeExpired, playCall_bind, hdelete, hplay]
      rfl

theorem checkKeys_cases (collection : String) (keys : List String) :
    (checkKeys collection keys = .ok () ∧
        ∀ key ∈ keys, Encodable collection key) ∨
      ∃ key ∈ keys, ∃ error, tryPrimaryKey collection key = .error error ∧
        checkKeys collection keys = .error error := by
  induction keys with
  | nil => exact .inl ⟨rfl, by simp⟩
  | cons key keys ih =>
      rcases tryPrimaryKey_cases collection key with hkey | ⟨error, herror⟩
      · have hkey' : tryPrimaryKey collection key =
            .ok (physicalKey collection key) := hkey
        simp only [checkKeys, hkey', bind, Except.bind]
        rcases ih with ⟨hok, hrest⟩ | ⟨other, hmem, error, herror, hfail⟩
        · exact .inl ⟨hok, List.forall_mem_cons.mpr ⟨hkey, hrest⟩⟩
        · exact .inr ⟨other, List.mem_cons_of_mem _ hmem, error, herror,
            hfail⟩
      · refine .inr ⟨key, List.mem_cons_self, error, herror, ?_⟩
        simp only [checkKeys, herror, bind, Except.bind]

theorem mem_uniqueKeys {keys : List String} {key : String} :
    key ∈ uniqueKeys keys ↔ key ∈ keys := by
  have h := @keys_distinctFrom String String _ id [] keys key
  simpa [uniqueKeys] using h

theorem uniqueKeys_nodup (keys : List String) : (uniqueKeys keys).Nodup := by
  have h := @distinctFrom_nodup String String _ id [] keys
  simpa [uniqueKeys] using h

theorem length_le_of_mem_chunks {α : Type} {n : Nat} {items part : List α}
    (h : part ∈ chunks n items) : part.length ≤ n := by
  obtain ⟨i, -, rfl⟩ := List.mem_map.mp h
  exact List.length_take_le _ _

theorem playCall_readEntries (h : Still now s) (keys : List String) :
    match (playCall (serve config service)
        (readEntries config order collection keys) s).1 with
    | .ok entries => ∀ key ∈ keys,
        entryAt s.table now collection key = .ok (entries.lookup key)
    | .error error => ∃ key ∈ keys,
        entryAt s.table now collection key = .error error := by
  have hflatten : (chunks maxBatchGet (uniqueKeys keys)).flatten =
      uniqueKeys keys := flatten_chunks (by decide) _
  simp only [readEntries, playCall_bind, playCall_attempt]
  rcases checkKeys_cases collection (uniqueKeys keys) with
    ⟨hok, hencodable⟩ | ⟨key, hmem, error, herror, hfail⟩
  · obtain ⟨r, hplay, hr⟩ := @playCall_readChunks config service s collection
      (chunks maxBatchGet (uniqueKeys keys)) ∅
      (by rw [hflatten]; exact uniqueKeys_nodup keys)
      (fun part hpart => length_le_of_mem_chunks hpart)
      (by rw [hflatten]; exact hencodable) fun key _ => AList.lookup_empty key
    rw [hflatten] at hr
    simp only [hok, hplay]
    cases r with
    | error error =>
        obtain ⟨key, hmem, herror⟩ := hr
        refine ⟨key, mem_uniqueKeys.mp hmem, ?_⟩
        rw [entryAt_encodable (hencodable key hmem), herror]
        rfl
    | ok decoded =>
        have hfound : ∀ key found, decoded.lookup key = some found →
            Encodable collection key ∧ found.collection = collection ∧
              found.key = key ∧ found.ttl = nativeTtl found.entry := by
          intro key found hlookup
          by_cases hkey : key ∈ uniqueKeys keys
          · have hat := (hr key).1 hkey
            rw [hlookup] at hat
            exact ⟨hencodable key hkey,
              decodedAt_eq_ok (hencodable key hkey) hat⟩
          · rw [(hr key).2 hkey, AList.lookup_empty] at hlookup
            cases hlookup
        have hentries : ∀ item, item ∈ order.arrange
            (decoded.entries.map fun item => (item.1, item.2)) ↔
              decoded.lookup item.1 = some item.2 := by
          intro item
          rw [(order.perm _).mem_iff, List.mem_map, ← Option.mem_def,
            AList.mem_lookup_iff]
          constructor
          · rintro ⟨entry, hentry, rfl⟩
            exact hentry
          · exact fun hitem => ⟨_, hitem, rfl⟩
        obtain ⟨s', hexpired⟩ := @playCall_expiredItems config service now s h
          (order.arrange (decoded.entries.map fun item => (item.1, item.2)))
        obtain ⟨s'', hremove⟩ := @playCall_removeExpired config service
          ((order.arrange (decoded.entries.map fun item =>
            (item.1, item.2))).filter fun item => item.2.entry.isExpired now)
          (fun item hitem => by
            obtain ⟨hin, hexp⟩ := List.mem_filter.mp hitem
            obtain ⟨hencode, hcollection, hkey, httl⟩ :=
              hfound item.1 item.2 ((hentries item).mp hin)
            refine ⟨exists_ttl_of_expired httl hexp, ?_⟩
            rw [hcollection, hkey]
            exact hencode) decoded s'
        simp only [hexpired, hremove, playCall_pure]
        intro key hkey
        have hunique := mem_uniqueKeys.mpr hkey
        rw [entryAt_encodable (hencodable key hunique), (hr key).1 hunique,
          KeyedMap.lookup_mapValues, KeyedMap.lookup_eraseAll]
        refine congrArg Except.ok ?_
        have hlisted : key ∈ ((order.arrange (decoded.entries.map fun item =>
            (item.1, item.2))).filter fun item =>
              item.2.entry.isExpired now).map Prod.fst ↔
            ∃ found, decoded.lookup key = some found ∧
              found.entry.isExpired now = true := by
          rw [List.mem_map]
          constructor
          · rintro ⟨item, hitem, rfl⟩
            obtain ⟨hin, hexp⟩ := List.mem_filter.mp hitem
            exact ⟨item.2, (hentries item).mp hin, hexp⟩
          · rintro ⟨found, hlookup, hexp⟩
            exact ⟨(key, found), List.mem_filter.mpr
              ⟨(hentries (key, found)).mpr hlookup, hexp⟩, rfl⟩
        cases hlookup : decoded.lookup key with
        | none => simp [liveEntry]
        | some found =>
            cases hexp : found.entry.isExpired now with
            | true =>
                rw [if_pos (hlisted.mpr ⟨found, hlookup, hexp⟩)]
                simp [liveEntry, hexp]
            | false =>
                rw [if_neg fun hmem => ?_]
                · simp [liveEntry, hexp]
                · obtain ⟨other, hother, hexp'⟩ := hlisted.mp hmem
                  rw [hlookup] at hother
                  cases hother
                  rw [hexp] at hexp'
                  cases hexp'
  · simp only [hfail]
    exact ⟨key, mem_uniqueKeys.mp hmem, entryAt_error herror⟩

end Batch

/-! ## Answers by position -/

/-- The batch returns what the single operation returns at each position, and
an error only if it is one of theirs. -/
def PerPosition {α : Type} (keys : List String)
    (single : String → Except Error α) (batch : Except Error (List α)) :
    Prop :=
  (∀ found, batch = .ok found ↔ keys.mapM single = .ok found) ∧
    ∀ error, batch = .error error → ∃ key ∈ keys, single key = .error error

section PerPosition

variable {α : Type} {keys : List String} {single : String → Except Error α}

theorem mapM_single {f : String → α}
    (h : ∀ key ∈ keys, single key = .ok (f key)) :
    keys.mapM single = .ok (keys.map f) := by
  induction keys with
  | nil => rfl
  | cons key keys ih =>
      rw [List.mapM_cons, h key List.mem_cons_self,
        ih fun other hmem => h other (List.mem_cons_of_mem _ hmem)]
      rfl

theorem mapM_failed {key : String} {error : Error} (hkey : key ∈ keys)
    (h : single key = .error error) (found : List α) :
    keys.mapM single ≠ .ok found := by
  induction keys generalizing found with
  | nil => cases hkey
  | cons first keys ih =>
      rw [List.mapM_cons]
      rcases List.mem_cons.mp hkey with rfl | hmem
      · rw [h]
        exact fun heq => by cases heq
      · cases single first with
        | error error => exact fun heq => by cases heq
        | ok a =>
            cases hrest : keys.mapM single with
            | error error => exact fun heq => by cases heq
            | ok rest => exact absurd hrest (ih hmem rest)

theorem perPosition_ok {f : String → α}
    (h : ∀ key ∈ keys, single key = .ok (f key)) :
    PerPosition keys single (.ok (keys.map f)) := by
  refine ⟨fun found => ?_, fun error herror => by cases herror⟩
  rw [mapM_single h]

theorem perPosition_error {key : String} {error : Error} (hkey : key ∈ keys)
    (h : single key = .error error) :
    PerPosition keys single (.error error) := by
  refine ⟨fun found => ⟨?_, ?_⟩, ?_⟩
  · exact fun heq => by cases heq
  · exact fun heq => absurd heq (mapM_failed hkey h found)
  · rintro _ ⟨⟩
    exact ⟨key, hkey, h⟩

end PerPosition

section Reading

variable {config : DynamoDBConfig} {service : Service} {order : MapOrder}
  {now : DateTime} {s : Server}

theorem playCall_still {α : Type} (h : Still now s) (call : Requests α) :
    ∃ s', playCall (serve config service) call s =
      ((playCall (serve config service) call s).1, s') ∧ Still now s' :=
  ⟨_, rfl, play_still call.run h⟩

theorem playCall_get (h : Still now s) (key : String)
    (collection : Option String) :
    (playCall (serve config service)
        (DynamoDBStore.get config key collection) s).1 =
      (entryAt s.table now (collectionName config collection) key).map
        (Option.map ManagedEntry.value) := by
  obtain ⟨s', hread, -⟩ := @playCall_still config service now s _ h
    (readEntry (collectionName config collection) key)
  rw [playCall_readEntry h] at hread
  rw [DynamoDBStore.get, playCall_bind, hread]
  cases entryAt s.table now (collectionName config collection) key <;> rfl

theorem playCall_ttl (h : Still now s) (key : String)
    (collection : Option String) :
    (playCall (serve config service) (ttl config key collection) s).1 =
      (entryAt s.table now (collectionName config collection) key).map
        (Option.map fun entry => (entry.value, entry.ttl now)) := by
  obtain ⟨s', hread, hstill⟩ := @playCall_still config service now s _ h
    (readEntry (collectionName config collection) key)
  rw [playCall_readEntry h] at hread
  rw [ttl, playCall_bind, hread]
  cases entryAt s.table now (collectionName config collection) key with
  | error error => rfl
  | ok entry =>
      cases entry with
      | none => rfl
      | some entry =>
          simp only [utcNow, playCall_bind, playCall_access, serve]
          rw [hstill 0]
          rfl

theorem getMany_perPosition (h : Still now s) (keys : List String)
    (collection : Option String) :
    PerPosition keys
      (fun key => (playCall (serve config service)
        (DynamoDBStore.get config key collection) s).1)
      (playCall (serve config service) (getMany config order keys collection)
        s).1 := by
  have hread := @playCall_readEntries config service order now s
    (collectionName config collection) h keys
  rw [getMany, playCall_bind]
  rcases hplay : playCall (serve config service) (readEntries config order
    (collectionName config collection) keys) s with ⟨error | entries, s'⟩
  · rw [hplay] at hread
    obtain ⟨key, hkey, herror⟩ := hread
    refine perPosition_error hkey ?_
    rw [playCall_get h, herror]
    rfl
  · rw [hplay] at hread
    refine perPosition_ok fun key hkey => ?_
    rw [playCall_get h, hread key hkey]
    rfl

theorem playCall_ttlEach (h : Still now s)
    (entries : KeyedMap String ManagedEntry) (keys : List String) :
    (playCall (serve config service) (ttlEach entries keys) s).1 =
      .ok (keys.map fun key => (entries.lookup key).map fun entry =>
        (entry.value, entry.ttl now)) := by
  induction keys generalizing s with
  | nil => rfl
  | cons key keys ih =>
      rw [ttlEach]
      cases hlookup : entries.lookup key with
      | none =>
          obtain ⟨s', hrest, -⟩ := @playCall_still config service now s _ h
            (ttlEach entries keys)
          rw [ih h] at hrest
          simp only [playCall_bind, List.map_cons, hlookup, hrest]
          rfl
      | some entry =>
          have hnext : Still now { s with clock := fun n => s.clock (n + 1) } :=
            fun _ => h _
          obtain ⟨s', hrest, -⟩ := @playCall_still config service now _ _ hnext
            (ttlEach entries keys)
          rw [ih hnext] at hrest
          simp only [utcNow, playCall_bind, playCall_access, serve, hrest,
            List.map_cons, hlookup]
          rw [h 0]
          rfl

theorem ttlMany_perPosition (h : Still now s) (keys : List String)
    (collection : Option String) :
    PerPosition keys
      (fun key => (playCall (serve config service)
        (ttl config key collection) s).1)
      (playCall (serve config service) (ttlMany config order keys collection)
        s).1 := by
  have hread := @playCall_readEntries config service order now s
    (collectionName config collection) h keys
  obtain ⟨s', hplay, hstill⟩ := @playCall_still config service now s _ h
    (readEntries config order (collectionName config collection) keys)
  rw [ttlMany, playCall_bind, hplay]
  cases hresult : (playCall (serve config service) (readEntries config order
      (collectionName config collection) keys) s).1 with
  | error error =>
      rw [hresult] at hread
      obtain ⟨key, hkey, herror⟩ := hread
      refine perPosition_error hkey ?_
      rw [playCall_ttl h, herror]
      rfl
  | ok entries =>
      rw [hresult] at hread
      simp only [playCall_ttlEach hstill]
      refine perPosition_ok fun key hkey => ?_
      rw [playCall_ttl h, hread key hkey]
      rfl

end Reading

end OpenKeyV.DynamoDB
