import OpenKeyV.DynamoDB.Requests

/-!
# The service behind `DynamoDBStore`

A table keeps each item under the names in its attributes.  The service
answers one request at a time and completely, and refuses a batch that is too
long or names a key twice.
-/

namespace OpenKeyV.DynamoDB

open Library Library.Interaction

def primaryKey? (item : Item) : Option PrimaryKey :=
  match item.lookup collectionAttr, item.lookup keyAttr with
  | some (.s collection), some (.s key) => some (collection, key)
  | _, _ => none

structure Table where
  items : KeyedMap PrimaryKey Item
  keyed : ∀ key item, items.lookup key = some item →
    primaryKey? item = some key

namespace Table

variable (table : Table)

def empty : Table := ⟨∅, fun key item h => by simp at h⟩

def insert (key : PrimaryKey) (item : Item)
    (h : primaryKey? item = some key) : Table where
  items := table.items.insert key item
  keyed key' item' hitem := by
    rw [KeyedMap.lookup_insert_eq] at hitem
    split at hitem
    · rename_i heq
      cases hitem
      rw [heq, h]
    · exact table.keyed key' item' hitem

def delete (key : PrimaryKey) : Table where
  items := table.items.erase key
  keyed key' item hitem := by
    rw [KeyedMap.lookup_erase_eq] at hitem
    split at hitem
    · cases hitem
    · exact table.keyed key' item hitem

/-- An item without key attributes is not put. -/
def put (item : Item) : Table :=
  match h : primaryKey? item with
  | some key => table.insert key item h
  | none => table

def apply (table : Table) : WriteRequest → Table
  | .put item => table.put item
  | .delete key => table.delete key

theorem lookup_put (item : Item) (key : PrimaryKey) :
    (table.put item).items.lookup key =
      if primaryKey? item = some key then some item
      else table.items.lookup key := by
  unfold put
  split
  · rename_i key' h
    simp only [insert, KeyedMap.lookup_insert_eq, h, Option.some.injEq,
      eq_comm]
  · rename_i h
    simp [h]

@[simp] theorem lookup_delete (key key' : PrimaryKey) :
    (table.delete key).items.lookup key' =
      if key' = key then none else table.items.lookup key' :=
  KeyedMap.lookup_erase_eq ..

end Table

/-- Numbers are compared by their values. -/
def observed (item : Item) (entry : Bytes) (ttl : String) : Bool :=
  decide (item.lookup entryAttr = some (.b entry)) &&
    match item.lookup ttlAttr with
    | some (.n value) => parseSigned 64 value == parseSigned 64 ttl
    | _ => false

def WriteRequest.key? : WriteRequest → Option PrimaryKey
  | .put item => primaryKey? item
  | .delete key => some key

def Access.WithinLimits : Access → Prop
  | .batchGet keys | .batchGetKeys keys =>
      keys.length ≤ maxBatchGet ∧ keys.Nodup
  | .batchWrite writes =>
      writes.length ≤ maxBatchWrite ∧
        (writes.map WriteRequest.key?).Nodup
  | _ => True

instance : DecidablePred Access.WithinLimits := fun access => by
  cases access <;> unfold Access.WithinLimits <;> infer_instance

/-- What the service is free in: the order of the items of a batch, the text
of a refusal, and what it answers to a query or a scan. -/
structure Service where
  arrange : List PrimaryKey → List PrimaryKey
  perm : ∀ keys, (arrange keys).Perm keys
  refusal : String
  list : Option String → Option PrimaryKey → Table →
    Except ServiceError Page

structure Server where
  table : Table
  clock : Nat → DateTime

def projectKeys (item : Item) : Item :=
  KeyedMap.retain (fun name _ => name == collectionAttr || name == keyAttr)
    item

section Serve

variable (config : DynamoDBConfig) (service : Service)

def Service.refused : ServiceError := .other service.refusal

def serve : (access : Access) → Server → access.Answer × Server
  | .getItem key, s => (.ok (s.table.items.lookup key), s)
  | .putItem item, s =>
      match primaryKey? item with
      | some _ => (.ok (), { s with table := s.table.put item })
      | none => (.error service.refused, s)
  | .deleteItem key, s =>
      (.ok (s.table.items.lookup key), { s with table := s.table.delete key })
  | .deleteObserved key entry ttl, s =>
      if (s.table.items.lookup key).any
          (fun item => observed item entry ttl) then
        (.ok (), { s with table := s.table.delete key })
      else (.error .conditionalCheckFailed, s)
  | .batchGet keys, s =>
      if (Access.batchGet keys).WithinLimits then
        (.ok ⟨[(config.tableName,
          (service.arrange keys).filterMap s.table.items.lookup)], false⟩, s)
      else (.error service.refused, s)
  | .batchGetKeys keys, s =>
      if (Access.batchGetKeys keys).WithinLimits then
        (.ok ⟨[(config.tableName, (service.arrange keys).filterMap fun key =>
          (s.table.items.lookup key).map projectKeys)], false⟩, s)
      else (.error service.refused, s)
  | .batchWrite writes, s =>
      if (Access.batchWrite writes).WithinLimits ∧
          ∀ write ∈ writes, write.key?.isSome = true then
        (.ok false, { s with table := writes.foldl Table.apply s.table })
      else (.error service.refused, s)
  | .query collection _ start, s =>
      (service.list (some collection) start s.table, s)
  | .scan start, s => (service.list none start s.table, s)
  | .now, s => (s.clock 0, { s with clock := fun n => s.clock (n + 1) })

end Serve

def physicalKey (collection key : String) : PrimaryKey :=
  (physicalPrefix ++ Hex.encode (utf8 collection),
    physicalPrefix ++ Hex.encode (utf8 key))

def Encodable (collection key : String) : Prop :=
  tryPrimaryKey collection key = .ok (physicalKey collection key)

section Names

variable {collection collection' key key' value kind physical : String}
  {maxBytes : Nat}

theorem encodePhysicalIdentity_eq_ok
    (h : encodePhysicalIdentity value kind maxBytes = .ok physical) :
    physical = physicalPrefix ++ Hex.encode (utf8 value) := by
  unfold encodePhysicalIdentity at h
  simp only at h
  split at h
  · cases h
  · cases h
    rfl

theorem tryPrimaryKey_cases (collection key : String) :
    Encodable collection key ∨
      ∃ error, tryPrimaryKey collection key = .error error := by
  cases h : tryPrimaryKey collection key with
  | error error => exact .inr ⟨error, rfl⟩
  | ok address =>
      left
      obtain ⟨physical, hcollection, hrest⟩ := bind_eq_ok.mp h
      obtain ⟨physical', hkey, hdone⟩ := bind_eq_ok.mp hrest
      cases hdone
      rw [Encodable, h, physicalKey, encodePhysicalIdentity_eq_ok hcollection,
        encodePhysicalIdentity_eq_ok hkey]

theorem physicalPrefix_append_inj {first second : String}
    (h : physicalPrefix ++ Hex.encode (utf8 first) =
      physicalPrefix ++ Hex.encode (utf8 second)) : first = second :=
  utf8_injective (Hex.encode_injective (String.append_right_inj _ |>.mp h))

theorem physicalKey_inj :
    physicalKey collection key = physicalKey collection' key' ↔
      collection = collection' ∧ key = key' := by
  rw [physicalKey, physicalKey, Prod.mk.injEq]
  constructor
  · exact fun h =>
      ⟨physicalPrefix_append_inj h.1, physicalPrefix_append_inj h.2⟩
  · rintro ⟨rfl, rfl⟩
    exact ⟨rfl, rfl⟩

theorem decodePhysicalIdentity_encode
    (h : encodePhysicalIdentity value kind maxBytes = .ok physical) :
    decodePhysicalIdentity physical kind maxBytes = .ok value := by
  have hphysical := encodePhysicalIdentity_eq_ok h
  have hsize : ¬ maxBytes < physical.utf8ByteSize := by
    intro hlong
    unfold encodePhysicalIdentity at h
    simp only [← hphysical, if_pos hlong] at h
    cases h
  have heven : (Hex.encode (utf8 value)).utf8ByteSize % 2 = 0 := by
    rw [Hex.utf8ByteSize_encode]
    omega
  have hstrip : stripPrefix physicalPrefix physical =
      some (Hex.encode (utf8 value)) := by
    rw [hphysical, stripPrefix_append]
  simp only [decodePhysicalIdentity, if_neg hsize, hstrip, heven,
    Hex.decode_encode, ofUtf8_utf8, h, ne_eq, not_true_eq_false, if_false,
    bind, Except.bind, pure, Except.pure]

end Names

def itemOf (address : PrimaryKey) (entry : ManagedEntry) : Item :=
  let item : Item := (((∅ : Item).insert collectionAttr (.s address.1)).insert
    keyAttr (.s address.2)).insert entryAttr (.b entry.encode)
  match nativeTtl entry with
  | some seconds => item.insert ttlAttr (.n (toString seconds))
  | none => item

section Items

variable {collection key : String} {item : Item}

theorem encodePhysicalIdentity_of_encodable (h : Encodable collection key) :
    encodePhysicalIdentity collection "collection" maxPhysicalCollectionBytes =
        .ok (physicalKey collection key).1 ∧
      encodePhysicalIdentity key "key" maxPhysicalKeyBytes =
        .ok (physicalKey collection key).2 := by
  obtain ⟨physical, hcollection, hrest⟩ := bind_eq_ok.mp h
  obtain ⟨physical', hkey, hdone⟩ := bind_eq_ok.mp hrest
  cases hdone
  exact ⟨hcollection, hkey⟩

theorem tryEncodeItem_eq (h : Encodable collection key)
    (entry : ManagedEntry) :
    tryEncodeItem collection key entry =
      .ok (itemOf (physicalKey collection key) entry) := by
  have h' : tryPrimaryKey collection key =
      .ok (physicalKey collection key) := h
  simp only [tryEncodeItem, h', bind, Except.bind, pure, Except.pure, itemOf]
  cases nativeTtl entry <;> rfl

theorem tryEncodeItem_error {error : Error}
    (h : tryPrimaryKey collection key = .error error) (entry : ManagedEntry) :
    tryEncodeItem collection key entry = .error error := by
  simp only [tryEncodeItem, h, bind, Except.bind]

theorem primaryKey?_eq_some {address : PrimaryKey} :
    primaryKey? item = some address ↔
      item.lookup collectionAttr = some (.s address.1) ∧
        item.lookup keyAttr = some (.s address.2) := by
  unfold primaryKey?
  constructor
  · intro h
    split at h
    · rename_i hcollection hkey
      cases h
      exact ⟨hcollection, hkey⟩
    · cases h
  · rintro ⟨hcollection, hkey⟩
    simp only [hcollection, hkey]

@[simp] theorem primaryKey?_itemOf (address : PrimaryKey)
    (entry : ManagedEntry) : primaryKey? (itemOf address entry) =
      some address := by
  rw [primaryKey?_eq_some]
  unfold itemOf
  split
  · simp only [KeyedMap.lookup_insert_eq]
    exact ⟨rfl, rfl⟩
  · simp only [KeyedMap.lookup_insert_eq]
    exact ⟨rfl, rfl⟩

theorem names_of_decodeItem {decoded : DecodedItem}
    (hkey : primaryKey? item = some (physicalKey collection key))
    (hencodable : Encodable collection key)
    (h : decodeItem item = .ok decoded) :
    decoded.collection = collection ∧ decoded.key = key := by
  obtain ⟨hcollection, hname⟩ := primaryKey?_eq_some.mp hkey
  obtain ⟨hencode, hencode'⟩ := encodePhysicalIdentity_of_encodable hencodable
  unfold decodeItem at h
  split at h
  · cases h
  · simp only [stringAttribute, hcollection, hname, bind, Except.bind,
      decodePhysicalIdentity_encode hencode,
      decodePhysicalIdentity_encode hencode'] at h
    split at h
    · cases h
    · split at h
      · cases h
      · split at h
        · cases h
        · split at h
          · cases h
          · cases h
            exact ⟨rfl, rfl⟩

theorem attributeNames_projectKeys {address : PrimaryKey}
    (h : primaryKey? item = some address) :
    attributeNames (projectKeys item) = [collectionAttr, keyAttr] := by
  obtain ⟨hcollection, hkey⟩ := primaryKey?_eq_some.mp h
  have hmem : ∀ name, name ∈ (projectKeys item).keys ↔
      name ∈ [collectionAttr, keyAttr] := by
    intro name
    rw [projectKeys, KeyedMap.keys_retain, List.mem_filter]
    simp only [Bool.or_eq_true, beq_iff_eq, List.mem_cons, List.not_mem_nil,
      or_false]
    refine and_iff_right_of_imp ?_
    rintro (rfl | rfl)
    · exact KeyedMap.mem_keys_iff.mpr ⟨_, hcollection⟩
    · exact KeyedMap.mem_keys_iff.mpr ⟨_, hkey⟩
  have hperm : (projectKeys item).keys.Perm [collectionAttr, keyAttr] :=
    (List.perm_ext_iff_of_nodup (projectKeys item).keys_nodup
      (by decide)).mpr hmem
  have hnodup : ((projectKeys item).keys.map fun name =>
      (utf8 name).map UInt8.toNat).Nodup := by
    rw [(hperm.map _).nodup_iff]
    decide +kernel
  rw [attributeNames, sortBy_eq_of_perm hnodup hperm]
  decide +kernel

theorem decodePhysicalKey_projectKeys
    (hkey : primaryKey? item = some (physicalKey collection key))
    (hencodable : Encodable collection key) :
    decodePhysicalKey (projectKeys item) = .ok (collection, key) := by
  obtain ⟨hcollection, hname⟩ := primaryKey?_eq_some.mp hkey
  obtain ⟨hencode, hencode'⟩ := encodePhysicalIdentity_of_encodable hencodable
  have hproject : ∀ name value, (name = collectionAttr ∨ name = keyAttr) →
      item.lookup name = some value →
      (projectKeys item).lookup name = some value := by
    intro name value hname hvalue
    rw [projectKeys, KeyedMap.lookup_retain, hvalue]
    rcases hname with rfl | rfl <;> simp [Option.filter]
  simp only [decodePhysicalKey, attributeNames_projectKeys hkey, ne_eq,
    not_true_eq_false, if_false, decodePhysicalKey.projected,
    hproject _ _ (.inl rfl) hcollection, hproject _ _ (.inr rfl) hname, bind,
    Except.bind, decodePhysicalIdentity_encode hencode,
    decodePhysicalIdentity_encode hencode', pure, Except.pure]

end Items

section Still

def Still (now : DateTime) (s : Server) : Prop := ∀ n, s.clock n = now

def Server.still (table : Table) (now : DateTime) : Server :=
  ⟨table, fun _ => now⟩

variable {config : DynamoDBConfig} {service : Service} {now : DateTime}
  {s : Server}

theorem serve_still (h : Still now s) (access : Access) :
    Still now (serve config service access s).2 := by
  cases access <;> simp only [serve] <;> try split
  all_goals first | exact h | exact fun _ => h _

theorem play_still {α : Type} (tree : Interaction Access.Answer α)
    (h : Still now s) : Still now (play (serve config service) tree s).2 := by
  induction tree generalizing s with
  | done a => exact h
  | request access next ih => exact ih _ (serve_still h access)

end Still

end OpenKeyV.DynamoDB
