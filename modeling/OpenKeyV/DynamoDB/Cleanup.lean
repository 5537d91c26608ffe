import OpenKeyV.Cleanup.Guards
import OpenKeyV.DynamoDB.Service

/-!
# Lazy cleanup of `DynamoDBStore` among other calls

The enumerations, page after page, and any number of calls against one table,
each request atomic.  What a cleanup deletes has expired by then.
-/

namespace OpenKeyV.DynamoDB

open Library Library.Interaction Cleanup

/-! ## Enumeration -/

namespace DynamoDBStore

def cullItems : List Item → Requests Unit
  | [] => return ()
  | item :: items => do
      let decoded ← attempt (decodeItem item)
      let time ← utcNow
      if decoded.entry.isExpired time then do
        deleteObservedExpired decoded
        cullItems items
      else cullItems items

def cullPages (config : DynamoDBConfig) :
    Nat → Option PrimaryKey → Requests Unit
  | 0, _ => return ()
  | pages + 1, lastKey => do
      let answer ← access (Access.scan lastKey)
      let output ← attempt (sent (s!"failed to scan DynamoDB table " ++
        s!"{config.tableName} while culling: ") answer)
      cullItems output.items
      match output.lastEvaluatedKey with
      | some key => cullPages config pages (some key)
      | none => return ()

def cull (config : DynamoDBConfig) (pages : Nat) : Requests Unit :=
  cullPages config pages none

def enumerationTarget (limit : Option Nat) : Nat :=
  min (limit.getD maxEnumeration) maxEnumeration

def keysItems (collection : String) (target : Nat) :
    List Item → List String → List String →
      Requests (List String × List String)
  | [], keys, seen => return (keys, seen)
  | item :: items, keys, seen => do
      let decoded ← attempt (decodeItem item)
      if decoded.collection ≠ collection then
        fail (.deserialization (s!"DynamoDB key query for {collection} " ++
          s!"returned {decoded.collection}/{decoded.key}"))
      else if seen.contains decoded.key then
        fail (.deserialization (s!"DynamoDB key query returned " ++
          s!"{collection}/{decoded.key} more than once"))
      else do
        let time ← utcNow
        if decoded.entry.isExpired time then do
          deleteObservedExpired decoded
          keysItems collection target items keys (decoded.key :: seen)
        else if keys.length + 1 = target then
          return (keys ++ [decoded.key], decoded.key :: seen)
        else
          keysItems collection target items (keys ++ [decoded.key])
            (decoded.key :: seen)

def keysPages (collection physicalCollection : String) (target : Nat) :
    Nat → Option PrimaryKey → List String → List String →
      Requests (List String)
  | 0, _, keys, _ => return keys
  | pages + 1, lastKey, keys, seen =>
      if target ≤ keys.length then return keys
      else do
        -- `i32::try_from(remaining).unwrap_or(i32::MAX)`
        let requestLimit := min (target - keys.length) (2 ^ 31 - 1)
        let answer ← access
          (Access.query physicalCollection requestLimit lastKey)
        let output ← attempt (sent
          s!"failed to enumerate DynamoDB keys in {collection}: " answer)
        let (keys, seen) ← keysItems collection target output.items keys seen
        match output.lastEvaluatedKey with
        | some key =>
            keysPages collection physicalCollection target pages (some key)
              keys seen
        | none => return keys

def keys (config : DynamoDBConfig) (pages : Nat) (collection : Option String)
    (limit : Option Nat) : Requests (List String) := do
  let cname := collectionName config collection
  let physicalCollection ← attempt (encodePhysicalIdentity cname "collection"
    maxPhysicalCollectionBytes)
  if enumerationTarget limit = 0 then return []
  else
    keysPages cname physicalCollection (enumerationTarget limit) pages none []
      []

def insertName (names : List String) (name : String) : List String :=
  if names.contains name then names else names ++ [name]

def collectionsItems (target : Nat) :
    List Item → List String → List (String × String) →
      Requests (List String × List (String × String))
  | [], collections, seen => return (collections, seen)
  | item :: items, collections, seen => do
      let decoded ← attempt (decodeItem item)
      if seen.contains (decoded.collection, decoded.key) then
        fail (.deserialization (s!"DynamoDB collection scan returned " ++
          s!"{decoded.collection}/{decoded.key} more than once"))
      else do
        let seen := (decoded.collection, decoded.key) :: seen
        let time ← utcNow
        if decoded.entry.isExpired time then do
          deleteObservedExpired decoded
          collectionsItems target items collections seen
        else do
          let collections := insertName collections decoded.collection
          if collections.length = target then return (collections, seen)
          else collectionsItems target items collections seen

def collectionsPages (config : DynamoDBConfig) (target : Nat) :
    Nat → Option PrimaryKey → List String → List (String × String) →
      Requests (List String)
  | 0, _, collections, _ => return collections
  | pages + 1, lastKey, collections, seen =>
      if target ≤ collections.length then return collections
      else do
        let answer ← access (Access.scan lastKey)
        let output ← attempt (sent (s!"failed to enumerate DynamoDB " ++
          s!"collections in {config.tableName}: ") answer)
        let (collections, seen) ← collectionsItems target output.items
          collections seen
        match output.lastEvaluatedKey with
        | some key =>
            collectionsPages config target pages (some key) collections seen
        | none => return collections

def inOrder (names : List String) : List String :=
  sortBy (fun name => (utf8 name).map UInt8.toNat) names

def collections (config : DynamoDBConfig) (pages : Nat)
    (limit : Option Nat) : Requests (List String) := do
  if enumerationTarget limit = 0 then return []
  else do
    let names ← collectionsPages config (enumerationTarget limit) pages none
      [] []
    return inOrder names

end DynamoDBStore

/-! ## Any number of calls -/

inductive PoolCall where
  | get (key : String) (collection : Option String)
  | ttl (key : String) (collection : Option String)
  | getMany (order : DynamoDBStore.MapOrder) (keys : List String)
      (collection : Option String)
  | ttlMany (order : DynamoDBStore.MapOrder) (keys : List String)
      (collection : Option String)
  | cull (pages : Nat)
  | keys (pages : Nat) (collection : Option String) (limit : Option Nat)
  | collections (pages : Nat) (limit : Option Nat)
  | put (key : String) (value : Value) (collection : Option String)
      (ttl : Option F64)
  | putMany (keys : List String) (values : List Value)
      (collection : Option String) (ttl : Option F64)
  | delete (key : String) (collection : Option String)
  | deleteMany (keys : List String) (collection : Option String)

inductive PoolReply where
  | get (result : Except Error (Option Value))
  | ttl (result : Except Error (Option (Value × Option F64)))
  | getMany (result : Except Error (List (Option Value)))
  | ttlMany (result : Except Error (List (Option (Value × Option F64))))
  | names (result : Except Error (List String))
  | unit (result : Except Error Unit)
  | delete (result : Except Error Bool)
  | deleteMany (result : Except Error Nat)

open DynamoDBStore in
def program (config : DynamoDBConfig) :
    PoolCall → Interaction Access.Answer PoolReply
  | .get key collection => PoolReply.get <$> (get config key collection).run
  | .ttl key collection => PoolReply.ttl <$> (ttl config key collection).run
  | .getMany order keys collection =>
      PoolReply.getMany <$> (getMany config order keys collection).run
  | .ttlMany order keys collection =>
      PoolReply.ttlMany <$> (ttlMany config order keys collection).run
  | .cull pages => PoolReply.unit <$> (cull config pages).run
  | .keys pages collection limit =>
      PoolReply.names <$> (keys config pages collection limit).run
  | .collections pages limit =>
      PoolReply.names <$> (collections config pages limit).run
  | .put key value collection ttl =>
      PoolReply.unit <$> (put config key value collection ttl).run
  | .putMany keys values collection ttl =>
      PoolReply.unit <$> (putMany config keys values collection ttl).run
  | .delete key collection =>
      PoolReply.delete <$> (delete config key collection).run
  | .deleteMany keys collection =>
      PoolReply.deleteMany <$> (deleteMany config keys collection).run

structure Shared where
  table : Table
  clock : DateTime

/-- What an answer depends on besides the table: whether the request fails,
with what text, and what the service is free in. -/
structure Choice where
  fault : Option String
  service : Service

def refuse (text : String) (s : Shared) :
    (a : Access) → a.Answer × Shared
  | .getItem _ | .deleteItem _ | .putItem _ | .deleteObserved _ _ _
  | .batchGet _ | .batchGetKeys _ | .batchWrite _ | .query _ _ _
  | .scan _ => (.error (.other text), s)
  | .now => (s.clock, s)

def respond (config : DynamoDBConfig) (choice : Choice) (a : Access)
    (s : Shared) : a.Answer × Shared :=
  match choice.fault with
  | some text => refuse text s a
  | none =>
      let served := serve config choice.service a ⟨s.table, fun _ => s.clock⟩
      (served.1, { s with table := served.2.table })

def handle (config : DynamoDBConfig) (_ : Nat) (choice : Choice) (a : Access)
    (s : Shared) : Option (a.Answer × Shared) :=
  some (respond config choice a s)

def happen (later : DateTime) (s : Shared) : Option Shared :=
  if s.clock ≤ later then some { s with clock := later } else none

abbrev CallPool := Pool Shared PoolCall Access.Answer PoolReply

def step (config : DynamoDBConfig) :=
  Pool.step (program config) (handle config) happen

/-! ## Guards -/

def Access.entries : Access → List Bytes
  | .deleteObserved _ entry _ => [entry]
  | _ => []

def reading : (a : Access) → a.Answer → Option DateTime
  | .now, t => some t
  | _, _ => none

def guarded : Guarded Access.Answer Shared Bytes DateTime where
  clock := Shared.clock
  reading := reading
  condemns := Access.entries
  dead := Dead
  lasting := Dead.later

section Judges

variable {config : DynamoDBConfig} {α : Type} {seen : List DateTime}

open DynamoDBStore

def DecodedItem.Faithful (item : DecodedItem) : Prop :=
  ManagedEntry.decode item.encoded = .ok item.entry

theorem faithful_of_decodeItem {item : Item} {decoded : DecodedItem}
    (h : decodeItem item = .ok decoded) : decoded.Faithful :=
  (decodeItem_eq_ok h).2.1

theorem DecodedItem.Faithful.dead {item : DecodedItem} {now : DateTime}
    (h : item.Faithful) (hexpired : item.entry.isExpired now = true) :
    Dead item.encoded now :=
  ⟨item.entry, h, hexpired⟩

theorem does_deleteObservedExpired {item : DecodedItem} {time : DateTime}
    (hseen : time ∈ seen) (hdead : Dead item.encoded time) :
    guarded.Does seen (deleteObservedExpired item) fun _ _ => True := by
  unfold deleteObservedExpired
  split
  · exact Guarded.does_attempt fun _ _ => trivial
  · refine Guarded.does_attempt_bind fun key _ => ?_
    refine Guarded.does_access_bind ?_ fun answer => ?_
    · intro encoded hencoded
      rw [List.mem_singleton.mp hencoded]
      exact ⟨time, hseen, hdead⟩
    · split
      · exact Guarded.does_pure trivial
      · exact Guarded.does_pure trivial
      · exact Guarded.does_attempt fun _ _ => trivial

/-- `if decoded.entry.is_expired() { delete_observed_expired }`. -/
theorem does_cleanup {item : DecodedItem} {rest live : Requests α}
    (h : item.Faithful) (hrest : guarded.Harmless rest)
    (hlive : guarded.Harmless live) :
    guarded.Does seen (do
      let time ← utcNow
      if item.entry.isExpired time then do
        deleteObservedExpired item
        rest
      else live) fun _ _ => True := by
  refine Guarded.does_access_bind (Guarded.may_of_nil rfl) fun time => ?_
  split
  · rename_i hexpired
    refine (does_deleteObservedExpired List.mem_cons_self
      (h.dead hexpired)).bind fun seen' _ _ _ => hrest seen'
  · exact hlive _

theorem harmless_readEntry (collection key : String) :
    guarded.Harmless (readEntry collection key) := by
  refine (Guarded.harmless_attempt _).bind fun address => ?_
  refine (Guarded.harmless_access rfl).bind fun output => ?_
  refine (Guarded.harmless_attempt _).bind fun item => ?_
  cases item with
  | none => exact Guarded.harmless_pure _
  | some item =>
      intro seen
      refine Guarded.does_attempt_bind fun decoded hdecoded => ?_
      split
      · exact Guarded.does_attempt fun _ _ => trivial
      · exact does_cleanup (faithful_of_decodeItem hdecoded)
          (Guarded.harmless_pure _) (Guarded.harmless_pure _)

def AllFaithful (decoded : KeyedMap String DecodedItem) : Prop :=
  ∀ key item, decoded.lookup key = some item → item.Faithful

theorem allFaithful_empty : AllFaithful ∅ := by
  intro key item h
  simp at h

theorem AllFaithful.insert {decoded : KeyedMap String DecodedItem}
    {key : String} {item : DecodedItem} (h : AllFaithful decoded)
    (hitem : item.Faithful) : AllFaithful (decoded.insert key item) := by
  intro key' item' hlookup
  rw [KeyedMap.lookup_insert_eq] at hlookup
  split at hlookup
  · cases hlookup
    exact hitem
  · exact h key' item' hlookup

theorem allFaithful_collectItems {collection : String}
    {requested : List String} {items : List Item}
    {decoded result : KeyedMap String DecodedItem} (h : AllFaithful decoded)
    (hcollect : collectItems collection requested items decoded =
      .ok result) : AllFaithful result := by
  induction items generalizing decoded with
  | nil =>
      cases hcollect
      exact h
  | cons item items ih =>
      obtain ⟨entry, hentry, hrest⟩ := bind_eq_ok.mp hcollect
      split at hrest
      · cases hrest
      · split at hrest
        · cases hrest
        · exact ih (h.insert (faithful_of_decodeItem hentry)) hrest

theorem allFaithful_collectResponses {collection : String}
    {requested : List String} {responses : List (String × List Item)}
    {decoded result : KeyedMap String DecodedItem} (h : AllFaithful decoded)
    (hcollect : collectResponses config collection requested responses
      decoded = .ok result) : AllFaithful result := by
  induction responses generalizing decoded with
  | nil =>
      cases hcollect
      exact h
  | cons response responses ih =>
      rw [collectResponses] at hcollect
      split at hcollect
      · cases hcollect
      · obtain ⟨next, hitems, hrest⟩ := bind_eq_ok.mp hcollect
        exact ih (allFaithful_collectItems h hitems) hrest

theorem does_readChunks (collection : String) (parts : List (List String))
    {decoded : KeyedMap String DecodedItem} (h : AllFaithful decoded) :
    guarded.Does seen (readChunks config collection parts decoded)
      fun _ result => AllFaithful result := by
  induction parts generalizing seen decoded with
  | nil => exact Guarded.does_pure h
  | cons part parts ih =>
      refine Guarded.does_attempt_bind fun addresses _ => ?_
      refine Guarded.does_access_bind (Guarded.may_of_nil rfl) fun answer => ?_
      refine Guarded.does_attempt_bind fun output _ => ?_
      split
      · exact Guarded.does_attempt fun _ hr => by cases hr
      · refine Guarded.does_attempt_bind fun next hnext => ?_
        exact ih (allFaithful_collectResponses h hnext)

def Found (seen : List DateTime) (items : List (String × DecodedItem)) :
    Prop :=
  ∀ item ∈ items, ∃ t ∈ seen, Dead item.2.encoded t

theorem does_expiredItems (items : List (String × DecodedItem))
    (h : ∀ item ∈ items, item.2.Faithful) :
    guarded.Does seen (expiredItems items) Found := by
  induction items generalizing seen with
  | nil => exact Guarded.does_pure fun _ h => absurd h List.not_mem_nil
  | cons item items ih =>
      refine Guarded.does_access_bind (Guarded.may_of_nil rfl) fun time => ?_
      refine (ih fun other hother => h other
        (List.mem_cons_of_mem _ hother)).bind fun seen' expired hsubset
          hfound => ?_
      refine Guarded.does_pure ?_
      split
      · rename_i hexpired
        intro other hother
        rcases List.mem_cons.mp hother with rfl | hrest
        · exact ⟨time, hsubset List.mem_cons_self,
            (h _ List.mem_cons_self).dead hexpired⟩
        · exact hfound other hrest
      · exact hfound

theorem does_removeExpired {expired : List (String × DecodedItem)}
    (h : Found seen expired) (decoded : KeyedMap String DecodedItem) :
    guarded.Does seen (removeExpired expired decoded) fun _ _ => True := by
  induction expired generalizing seen decoded with
  | nil => exact Guarded.does_pure trivial
  | cons item expired ih =>
      obtain ⟨time, hseen, hdead⟩ := h item List.mem_cons_self
      refine (does_deleteObservedExpired hseen hdead).bind
        fun seen' _ hsubset _ => ih (fun other hother => ?_) _
      obtain ⟨t, ht, hother⟩ := h other (List.mem_cons_of_mem _ hother)
      exact ⟨t, hsubset ht, hother⟩

theorem harmless_readEntries (order : MapOrder) (collection : String)
    (keys : List String) :
    guarded.Harmless (readEntries config order collection keys) := by
  refine (Guarded.harmless_attempt _).bind fun _ => fun seen => ?_
  refine (does_readChunks collection _ allFaithful_empty).bind
    fun seen' decoded _ hfaithful => ?_
  refine (does_expiredItems _ fun item hitem => ?_).bind
    fun seen'' expired _ hfound => ?_
  · obtain ⟨entry, hentry, rfl⟩ :=
      List.mem_map.mp ((order.perm _).mem_iff.mp hitem)
    exact hfaithful entry.1 entry.2 (AList.mem_lookup_iff.mpr hentry)
  · exact (does_removeExpired hfound decoded).bind fun _ _ _ _ =>
      Guarded.does_pure trivial

theorem harmless_cullItems (items : List Item) :
    guarded.Harmless (cullItems items) := by
  induction items with
  | nil => exact Guarded.harmless_pure _
  | cons item items ih =>
      intro seen
      refine Guarded.does_attempt_bind fun decoded hdecoded => ?_
      exact does_cleanup (faithful_of_decodeItem hdecoded) ih ih

theorem harmless_cullPages (pages : Nat) (lastKey : Option PrimaryKey) :
    guarded.Harmless (cullPages config pages lastKey) := by
  induction pages generalizing lastKey with
  | zero => exact Guarded.harmless_pure _
  | succ pages ih =>
      refine (Guarded.harmless_access rfl).bind fun answer => ?_
      refine (Guarded.harmless_attempt _).bind fun output => ?_
      refine (harmless_cullItems _).bind fun _ => ?_
      split
      · exact ih _
      · exact Guarded.harmless_pure _

theorem harmless_keysItems (collection : String) (target : Nat)
    (items : List Item) (keys seenKeys : List String) :
    guarded.Harmless (keysItems collection target items keys seenKeys) := by
  induction items generalizing keys seenKeys with
  | nil => exact Guarded.harmless_pure _
  | cons item items ih =>
      intro seen
      refine Guarded.does_attempt_bind fun decoded hdecoded => ?_
      split
      · exact Guarded.does_attempt fun _ _ => trivial
      · split
        · exact Guarded.does_attempt fun _ _ => trivial
        · refine does_cleanup (faithful_of_decodeItem hdecoded) (ih _ _) ?_
          split
          · exact Guarded.harmless_pure _
          · exact ih _ _

theorem harmless_keysPages (collection physicalCollection : String)
    (target pages : Nat) (lastKey : Option PrimaryKey)
    (keys seenKeys : List String) :
    guarded.Harmless (keysPages collection physicalCollection target pages
      lastKey keys seenKeys) := by
  induction pages generalizing lastKey keys seenKeys with
  | zero => exact Guarded.harmless_pure _
  | succ pages ih =>
      rw [keysPages]
      split
      · exact Guarded.harmless_pure _
      · refine (Guarded.harmless_access rfl).bind fun answer => ?_
        refine (Guarded.harmless_attempt _).bind fun output => ?_
        refine (harmless_keysItems _ _ _ _ _).bind fun found => ?_
        dsimp only
        split
        · exact ih _ _ _
        · exact Guarded.harmless_pure _

theorem harmless_collectionsItems (target : Nat) (items : List Item)
    (collections : List String) (seenItems : List (String × String)) :
    guarded.Harmless (collectionsItems target items collections
      seenItems) := by
  induction items generalizing collections seenItems with
  | nil => exact Guarded.harmless_pure _
  | cons item items ih =>
      intro seen
      refine Guarded.does_attempt_bind fun decoded hdecoded => ?_
      split
      · exact Guarded.does_attempt fun _ _ => trivial
      · refine does_cleanup (faithful_of_decodeItem hdecoded) (ih _ _) ?_
        dsimp only
        split
        · exact Guarded.harmless_pure _
        · exact ih _ _

theorem harmless_collectionsPages (target pages : Nat)
    (lastKey : Option PrimaryKey) (collections : List String)
    (seenItems : List (String × String)) :
    guarded.Harmless (collectionsPages config target pages lastKey collections
      seenItems) := by
  induction pages generalizing lastKey collections seenItems with
  | zero => exact Guarded.harmless_pure _
  | succ pages ih =>
      rw [collectionsPages]
      split
      · exact Guarded.harmless_pure _
      · refine (Guarded.harmless_access rfl).bind fun answer => ?_
        refine (Guarded.harmless_attempt _).bind fun output => ?_
        refine (harmless_collectionsItems _ _ _ _).bind fun found => ?_
        dsimp only
        split
        · exact ih _ _ _
        · exact Guarded.harmless_pure _

theorem harmless_newEntry (value : Value) (ttl : Option F64) :
    guarded.Harmless (newEntry value ttl) :=
  (Guarded.harmless_access rfl).bind fun _ => Guarded.harmless_attempt _

theorem harmless_prepareItems (collection : String) (ttl : Option F64)
    (selected : List (String × Value)) :
    guarded.Harmless (prepareItems collection ttl selected) := by
  induction selected with
  | nil => exact Guarded.harmless_pure _
  | cons item selected ih =>
      refine (harmless_newEntry _ _).bind fun entry => ?_
      refine (Guarded.harmless_attempt _).bind fun encoded => ?_
      exact ih.bind fun items => Guarded.harmless_pure _

theorem harmless_writeChunk (failed unprocessed : String)
    (writes : List WriteRequest) :
    guarded.Harmless (writeChunk failed unprocessed writes) := by
  refine (Guarded.harmless_access rfl).bind fun answer => ?_
  refine (Guarded.harmless_attempt _).bind fun left => ?_
  split
  · exact Guarded.harmless_attempt _
  · exact Guarded.harmless_pure _

theorem harmless_putChunks (collection : String) (parts : List (List Item)) :
    guarded.Harmless (putChunks collection parts) := by
  induction parts with
  | nil => exact Guarded.harmless_pure _
  | cons part parts ih => exact (harmless_writeChunk _ _ _).bind fun _ => ih

theorem harmless_deleteChunks (collection : String)
    (parts : List (List String)) :
    guarded.Harmless (deleteChunks collection parts) := by
  induction parts with
  | nil => exact Guarded.harmless_pure _
  | cons part parts ih =>
      refine (Guarded.harmless_attempt _).bind fun addresses => ?_
      exact (harmless_writeChunk _ _ _).bind fun _ => ih

theorem harmless_existingChunks (collection : String)
    (parts : List (List String)) (existing : List String) :
    guarded.Harmless (existingChunks config collection parts existing) := by
  induction parts generalizing existing with
  | nil => exact Guarded.harmless_pure _
  | cons part parts ih =>
      refine (Guarded.harmless_attempt _).bind fun addresses => ?_
      refine (Guarded.harmless_access rfl).bind fun answer => ?_
      refine (Guarded.harmless_attempt _).bind fun output => ?_
      split
      · exact Guarded.harmless_attempt _
      · exact (Guarded.harmless_attempt _).bind ih

theorem harmless_ttlEach (entries : KeyedMap String ManagedEntry)
    (keys : List String) : guarded.Harmless (ttlEach entries keys) := by
  induction keys with
  | nil => exact Guarded.harmless_pure _
  | cons key keys ih =>
      rw [ttlEach]
      split
      · exact ih.bind fun rest => Guarded.harmless_pure _
      · refine (Guarded.harmless_access rfl).bind fun time => ?_
        exact ih.bind fun rest => Guarded.harmless_pure _

theorem harmless_validateOptionalTtl (ttl : Option F64) :
    guarded.Harmless (validateOptionalTtl ttl) := by
  cases ttl with
  | none => exact Guarded.harmless_pure _
  | some seconds =>
      exact (Guarded.harmless_access rfl).bind fun time =>
        Guarded.harmless_attempt _

theorem harmless_ttl (key : String) (collection : Option String) :
    guarded.Harmless (ttl config key collection) := by
  refine (harmless_readEntry _ _).bind fun entry => ?_
  cases entry with
  | none => exact Guarded.harmless_pure _
  | some entry =>
      exact (Guarded.harmless_access rfl).bind fun time =>
        Guarded.harmless_pure _

theorem harmless_keys (pages : Nat) (collection : Option String)
    (limit : Option Nat) :
    guarded.Harmless (keys config pages collection limit) := by
  refine (Guarded.harmless_attempt _).bind fun physicalCollection => ?_
  split
  · exact Guarded.harmless_pure _
  · exact harmless_keysPages _ _ _ _ _ _ _

theorem harmless_collections (pages : Nat) (limit : Option Nat) :
    guarded.Harmless (collections config pages limit) := by
  unfold collections
  split
  · exact Guarded.harmless_pure _
  · exact (harmless_collectionsPages _ _ _ _ _).bind fun names =>
      Guarded.harmless_pure _

theorem harmless_put (key : String) (value : Value)
    (collection : Option String) (ttl : Option F64) :
    guarded.Harmless (put config key value collection ttl) := by
  refine (harmless_newEntry value ttl).bind fun entry => ?_
  refine (Guarded.harmless_attempt _).bind fun item => ?_
  exact (Guarded.harmless_access rfl).bind fun answer =>
    Guarded.harmless_attempt _

theorem harmless_delete (key : String) (collection : Option String) :
    guarded.Harmless (delete config key collection) := by
  refine (Guarded.harmless_attempt _).bind fun address => ?_
  refine (Guarded.harmless_access rfl).bind fun answer => ?_
  exact (Guarded.harmless_attempt _).bind fun attributes =>
    Guarded.harmless_pure _

theorem harmless_putMany (keys : List String) (values : List Value)
    (collection : Option String) (ttl : Option F64) :
    guarded.Harmless (putMany config keys values collection ttl) := by
  unfold putMany
  split
  · exact Guarded.harmless_attempt _
  · refine (harmless_validateOptionalTtl ttl).bind fun _ => ?_
    refine (harmless_prepareItems _ _ _).bind fun items => ?_
    exact harmless_putChunks _ _

theorem harmless_deleteMany (keys : List String)
    (collection : Option String) :
    guarded.Harmless (deleteMany config keys collection) := by
  refine (Guarded.harmless_attempt _).bind fun _ => ?_
  refine (harmless_existingChunks _ _ _).bind fun existing => ?_
  exact (harmless_deleteChunks _ _).bind fun _ => Guarded.harmless_pure _

theorem judges_program (config : DynamoDBConfig) (call : PoolCall) :
    guarded.Judges [] (program config call) := by
  cases call with
  | get key collection =>
      exact ((harmless_readEntry _ _).bind fun _ =>
        Guarded.harmless_pure _).judges
  | ttl key collection => exact (harmless_ttl key collection).judges
  | getMany order keys collection =>
      exact ((harmless_readEntries order _ keys).bind fun _ =>
        Guarded.harmless_pure _).judges
  | ttlMany order keys collection =>
      exact ((harmless_readEntries order _ keys).bind fun entries =>
        harmless_ttlEach entries keys).judges
  | cull pages => exact (harmless_cullPages pages none).judges
  | keys pages collection limit =>
      exact (harmless_keys pages collection limit).judges
  | collections pages limit => exact (harmless_collections pages limit).judges
  | put key value collection ttl =>
      exact (harmless_put key value collection ttl).judges
  | putMany keys values collection ttl =>
      exact (harmless_putMany keys values collection ttl).judges
  | delete key collection => exact (harmless_delete key collection).judges
  | deleteMany keys collection =>
      exact (harmless_deleteMany keys collection).judges

end Judges

/-! ## Runs -/

def touches : Access → PrimaryKey → Prop
  | .putItem item, address => primaryKey? item = some address
  | .deleteItem key, address => address = key
  | .batchWrite writes, address =>
      ∃ write ∈ writes, write.key? = some address
  | _, _ => False

def entryBytes (item : Item) : Bytes :=
  match item.lookup entryAttr with
  | some (.b entry) => entry
  | _ => []

section Cells

variable {config : DynamoDBConfig} {choice : Choice} {s : Shared}
  {address : PrimaryKey} {item : Item}

theorem entryBytes_of_observed {entry : Bytes} {ttl : String}
    (h : observed item entry ttl = true) : entryBytes item = entry := by
  have hentry : item.lookup entryAttr = some (.b entry) :=
    of_decide_eq_true (Bool.and_eq_true_iff.mp h).1
  rw [entryBytes, hentry]

theorem lookup_apply {table : Table} {write : WriteRequest}
    (h : write.key? ≠ some address) :
    (table.apply write).items.lookup address =
      table.items.lookup address := by
  cases write with
  | put item =>
      have hkey : ¬ primaryKey? item = some address := h
      rw [Table.apply, Table.lookup_put, if_neg hkey]
  | delete key =>
      have hkey : ¬ address = key := fun heq => h (congrArg some heq.symm)
      rw [Table.apply, Table.lookup_delete, if_neg hkey]

theorem lookup_applyAll {writes : List WriteRequest} {table : Table}
    (h : ¬ ∃ write ∈ writes, write.key? = some address) :
    (writes.foldl Table.apply table).items.lookup address =
      table.items.lookup address := by
  induction writes generalizing table with
  | nil => rfl
  | cons write writes ih =>
      rw [List.foldl_cons, ih, lookup_apply]
      · exact fun hkey => h ⟨write, List.mem_cons_self, hkey⟩
      · rintro ⟨other, hother, hkey⟩
        exact h ⟨other, List.mem_cons_of_mem _ hother, hkey⟩

theorem lookup_serve {service : Service} {server : Server} {a : Access}
    (h : server.table.items.lookup address = some item)
    (htouches : ¬ touches a address) :
    (serve config service a server).2.table.items.lookup address =
        some item ∨ entryBytes item ∈ a.entries := by
  cases a with
  | getItem | query | scan | now => exact .inl h
  | batchGet | batchGetKeys =>
      left
      simp only [serve]
      split <;> exact h
  | putItem other =>
      left
      simp only [serve]
      split
      · have hkey : ¬ primaryKey? other = some address := htouches
        rw [Table.lookup_put, if_neg hkey]
        exact h
      · exact h
  | deleteItem key =>
      have hkey : ¬ address = key := htouches
      left
      simp only [serve, Table.lookup_delete, if_neg hkey]
      exact h
  | deleteObserved key entry ttl =>
      simp only [serve]
      split
      · rename_i hguard
        by_cases hsame : address = key
        · right
          subst hsame
          rw [h, Option.any_some] at hguard
          exact List.mem_singleton.mpr (entryBytes_of_observed hguard)
        · left
          rw [Table.lookup_delete, if_neg hsame]
          exact h
      · exact .inl h
  | batchWrite writes =>
      left
      simp only [serve]
      split
      · rw [lookup_applyAll htouches]
        exact h
      · exact h

theorem respond_of_handle {task : Nat} {a : Access} {s s' : Shared}
    {answer : a.Answer}
    (h : handle config task choice a s = some (answer, s')) :
    answer = (respond config choice a s).1 ∧
      s' = (respond config choice a s).2 := by
  rw [Option.some.inj h]
  exact ⟨rfl, rfl⟩

theorem refuse_state (text : String) (a : Access) :
    (refuse text s a).2 = s := by
  cases a <;> rfl

theorem clock_respond (a : Access) :
    (respond config choice a s).2.clock = s.clock := by
  unfold respond
  split
  · rw [refuse_state]
  · rfl

theorem lookup_respond {a : Access}
    (h : s.table.items.lookup address = some item)
    (htouches : ¬ touches a address) :
    (respond config choice a s).2.table.items.lookup address = some item ∨
      entryBytes item ∈ a.entries := by
  unfold respond
  split
  · rw [refuse_state]
    exact .inl h
  · exact @lookup_serve config address item choice.service
      ⟨s.table, fun _ => s.clock⟩ a h htouches

theorem reading_respond {a : Access} {t : DateTime}
    (h : reading a (respond config choice a s).1 = some t) :
    t = s.clock := by
  cases a with
  | now =>
      unfold respond at h
      split at h
      · exact (Option.some.inj h).symm
      · exact (Option.some.inj h).symm
  | _ => cases h

end Cells

theorem timed (config : DynamoDBConfig) :
    guarded.Timed (handle config) happen where
  forward h := by
    obtain ⟨-, rfl⟩ := respond_of_handle h
    exact le_of_eq (clock_respond _).symm
  truthful h hreading := by
    obtain ⟨rfl, rfl⟩ := respond_of_handle h
    rw [reading_respond hreading]
    exact le_of_eq (clock_respond _).symm
  outside {event s s'} h := by
    unfold happen at h
    split at h
    · cases h
      assumption
    · cases h

theorem cells (config : DynamoDBConfig) :
    guarded.Cells (fun s address => s.table.items.lookup address)
      (fun _ item => entryBytes item) touches (handle config) happen where
  handled h htouches hcell := by
    obtain ⟨-, rfl⟩ := respond_of_handle h
    exact lookup_respond hcell htouches
  outside {event s s' address} h := by
    unfold happen at h
    split at h
    · cases h
      rfl
    · cases h

def Reached (config : DynamoDBConfig) (table : Table) (clock : DateTime)
    (pool : CallPool) : Prop :=
  ∃ labels, run (step config) (Pool.idle ⟨table, clock⟩) labels = some pool

variable {config : DynamoDBConfig} {table : Table} {clock : DateTime}
  {pool pool' : CallPool} {address : PrimaryKey} {item : Item}

theorem sober_of_reached (h : Reached config table clock pool) :
    Guarded.Sober guarded pool := by
  obtain ⟨labels, hrun⟩ := h
  exact Guarded.sober_run (judges_program config) (timed config)
    (Guarded.sober_idle _) hrun

/-- A cleanup deletes an item only when its entry has expired. -/
theorem cleanup_spares_item (h : Reached config table clock pool)
    {label : Pool.Label PoolCall Choice DateTime}
    (hcleanup : Guarded.Spares touches address pool label)
    (hstep : step config pool label = some pool')
    (hitem : pool.shared.table.items.lookup address = some item) :
    pool'.shared.table.items.lookup address = some item ∨
      Dead (entryBytes item) pool.shared.clock :=
  Guarded.cell_step (cells config) (sober_of_reached h) hcleanup hstep hitem

theorem item_kept (h : Reached config table clock pool)
    {labels : List (Pool.Label PoolCall Choice DateTime)}
    (hspares : Along (step config) (Guarded.Spares touches address) pool
      labels)
    (hrun : run (step config) pool labels = some pool')
    (hitem : pool.shared.table.items.lookup address = some item)
    (halive : ¬ Dead (entryBytes item) pool'.shared.clock) :
    pool'.shared.table.items.lookup address = some item :=
  Guarded.cell_kept (judges_program config) (timed config) (cells config)
    (sober_of_reached h) hspares hrun hitem halive

end OpenKeyV.DynamoDB
