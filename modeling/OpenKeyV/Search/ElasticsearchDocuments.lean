import OpenKeyV.Library.Allowed
import OpenKeyV.Search.Isolation

/-!
# The documents of `ElasticsearchStore`

Every document of the store says which key and collection it belongs to and
holds an entry that can be loaded.  The requests of the store keep that so.
-/

namespace OpenKeyV.Search.ElasticsearchStore

open Library Library.Interaction Python

variable {platform : Platform} {config : Config} {backend : Backend}

theorem inYears_truncMillis {t : Option DateTime}
    (h : InYears t) : InYears (t.map DateTime.truncMillis) := by
  intro instant hinstant
  obtain ⟨t', ht, rfl⟩ := Option.map_eq_some_iff.mp hinstant
  rw [DateTime.timestampMillis_truncMillis]
  exact h t' ht

theorem inYears_of_timestampFromPy {label : String}
    {value : Option PyDatetime} {t : Option DateTime}
    (h : timestampFromPy label
      (value.map fun value => Int64.ofInt (platform.epochMillis value)) =
        .ok t) : InYears t := by
  cases value with
  | none =>
      cases h
      exact fun _ h => by cases h
  | some value =>
      rw [Option.map_some, timestampFromPy] at h
      split at h
      · rename_i t' heq
        cases h
        intro instant hinstant
        cases hinstant
        obtain ⟨hlower, hupper⟩ := platform.inYears value
        have hmillis := timestampMillisOpt_some heq
        have hback : (Int64.ofInt (platform.epochMillis value)).toInt =
            platform.epochMillis value := by
          simp only [minDatetimeMillis, maxDatetimeMillis] at hlower hupper
          exact Int64.toInt_ofInt_of_le (by omega) (by omega)
        rw [hback] at hmillis
        rw [hmillis]
        exact ⟨hlower, hupper⟩
      · cases h

theorem loadDict_dumpDict {entry : PyManagedEntry} {key collection : String}
    {document : Document} (hmemory : FitsMemory entry.value)
    (h : dumpDict platform entry key collection = .ok document) :
    isText key (getItem "key" document) = true ∧
      isText collection (getItem "collection" document) = true ∧
      ∃ loaded, loadDict platform.base64 platform.outOfRange document =
        .ok loaded := by
  obtain ⟨encoded, hencoded, hdocument⟩ := bind_eq_ok.mp h
  rw [except_eq_ok] at hencoded
  obtain ⟨created, hcreated, hrest⟩ := bind_eq_ok.mp hencoded
  obtain ⟨expires, hexpires, hrest⟩ := bind_eq_ok.mp hrest
  obtain ⟨value, hvalue, hbytes⟩ := bind_eq_ok.mp hrest
  cases hbytes
  obtain ⟨hvalid, hsize⟩ := storable_of_pyToValue hvalue hmemory
  have hdecode := ManagedEntry.decode_encode ⟨value, created, expires⟩ hvalid
    hsize
  have hfields : getItem "entry" document = some (.str
      (Base64Standard.encode (ManagedEntry.mk value created expires).encode)) ∧
      getItem "key" document = some (.str key) ∧
      getItem "collection" document = some (.str collection) := by
    cases hdocument
    cases entry.createdAt <;> cases entry.expiresAt <;> exact ⟨rfl, rfl, rfl⟩
  obtain ⟨hentry, hkey, hcollection⟩ := hfields
  refine ⟨by rw [hkey]; simp [isText], by rw [hcollection]; simp [isText], ?_⟩
  refine ((closedOn_iff platform.base64 platform.outOfRange document).mpr
    ?_).2 _ _ hentry hdecode
  rintro entry' ⟨text, raw, htext, hraw, hmanaged⟩
  rw [hentry] at htext
  cases htext
  rw [platform.base64.canonical] at hraw
  cases hraw
  rw [hdecode] at hmanaged
  cases hmanaged
  exact ⟨inYears_truncMillis (inYears_of_timestampFromPy hcreated),
    inYears_truncMillis (inYears_of_timestampFromPy hexpires)⟩

/-- The document stands where its key and its collection say. -/
def Lawful (platform : Platform) (config : Config) (index id : String)
    (document : Document) : Prop :=
  ∃ collection key loaded, getIndexName config collection = .ok index ∧
    getDocumentId key = .ok id ∧
    isText key (getItem "key" document) = true ∧
    isText collection (getItem "collection" document) = true ∧
    loadDict platform.base64 platform.outOfRange document = .ok loaded

structure Own (platform : Platform) (config : Config) (cluster : Documents) :
    Prop where
  indices : ∀ index ∈ cluster.keys, CreatedBy (getIndexName config) index
  documents : ∀ index id document,
    document? index id cluster = some document →
      Lawful platform config index id document

theorem own_empty : Own platform config ∅ := by
  constructor
  · intro index h
    cases h
  · intro index id document h
    cases h

section Changes

variable {cluster : Documents} {index other id other' : String}
  {document : Document}

theorem document?_indexDocument :
    document? other other' (indexDocument index id document cluster) =
      if other = index ∧ other' = id then some document
      else document? other other' cluster := by
  rw [document?, indexDocument, KeyedMap.lookup_insert_eq]
  by_cases hindex : other = index
  · subst hindex
    rw [if_pos rfl, Option.bind_some, KeyedMap.lookup_insert_eq]
    by_cases hid : other' = id
    · rw [if_pos hid, if_pos ⟨rfl, hid⟩]
    · rw [if_neg hid, if_neg fun h => hid h.2, document?]
      cases cluster.lookup other <;> rfl
  · rw [if_neg hindex, if_neg fun h => hindex h.1, document?]

theorem mem_keys_insert {documents : KeyedMap String Document} :
    other ∈ (cluster.insert index documents).keys ↔
      other = index ∨ other ∈ cluster.keys := by
  rw [← AList.mem_keys, AList.mem_insert, AList.mem_keys]

theorem Own.indexDocument (h : Own platform config cluster)
    (hlawful : Lawful platform config index id document) :
    Own platform config (indexDocument index id document cluster) := by
  constructor
  · intro other hother
    rcases mem_keys_insert.mp hother with rfl | hold
    · obtain ⟨collection, _, _, hname, -⟩ := hlawful
      exact ⟨collection, hname⟩
    · exact h.indices other hold
  · intro other other' document' hdocument
    rw [document?_indexDocument] at hdocument
    split at hdocument
    · rename_i hsame
      cases hdocument
      rw [hsame.1, hsame.2]
      exact hlawful
    · exact h.documents other other' document' hdocument

theorem Own.created (h : Own platform config cluster)
    (hcreated : CreatedBy (getIndexName config) index) :
    Own platform config (cluster.insert index ∅) := by
  constructor
  · intro other hother
    rcases mem_keys_insert.mp hother with rfl | hold
    · exact hcreated
    · exact h.indices other hold
  · intro other other' document' hdocument
    rw [document?, KeyedMap.lookup_insert_eq] at hdocument
    split at hdocument
    · cases hdocument
    · exact h.documents other other' document' hdocument

theorem Own.fewer {cluster' : Documents} (h : Own platform config cluster)
    (hkeys : ∀ index, index ∈ cluster'.keys → index ∈ cluster.keys)
    (hfewer : ∀ index id document,
      document? index id cluster' = some document →
        document? index id cluster = some document) :
    Own platform config cluster' :=
  ⟨fun index hindex => h.indices index (hkeys index hindex),
    fun index id document hdocument =>
      h.documents index id document (hfewer index id document hdocument)⟩

theorem Own.deleteDocument (h : Own platform config cluster) :
    Own platform config (deleteDocument index id cluster) := by
  unfold ElasticsearchStore.deleteDocument
  split
  · rename_i documents hdocuments
    refine h.fewer (fun other hother => ?_)
      fun other other' document hdocument => ?_
    · rcases mem_keys_insert.mp hother with rfl | hold
      · exact KeyedMap.mem_keys_iff.mpr ⟨documents, hdocuments⟩
      · exact hold
    · rw [document?, KeyedMap.lookup_insert_eq] at hdocument
      split at hdocument
      · rename_i hsame
        rw [Option.bind_some, KeyedMap.lookup_erase_eq] at hdocument
        split at hdocument
        · cases hdocument
        · rw [document?, hsame, hdocuments]
          exact hdocument
      · exact hdocument
  · exact h

theorem Own.deleteIn (query : Document → Bool)
    (h : Own platform config cluster) :
    Own platform config (Cluster.deleteIn query cluster index) := by
  refine h.fewer (fun other hother => keys_deleteIn.mp hother)
    fun other other' document hdocument => ?_
  by_cases hsame : other = index
  · subst hsame
    unfold Cluster.deleteIn at hdocument
    split at hdocument
    · rename_i documents hdocuments
      rw [document?, KeyedMap.lookup_insert_eq, if_pos rfl, Option.bind_some,
        KeyedMap.lookup_retain, Option.filter_eq_some_iff] at hdocument
      rw [document?, hdocuments]
      exact hdocument.1
    · exact hdocument
  · rw [document?, lookup_deleteIn hsame] at hdocument
    exact hdocument

theorem Own.deleteByQuery (query : Document → Bool) (indices : List String)
    (h : Own platform config cluster) :
    Own platform config (cluster.deleteByQuery query indices) := by
  induction indices generalizing cluster with
  | nil => exact h
  | cons index indices ih => exact ih (h.deleteIn query)

def BulkOperation.Lawful (platform : Platform) (config : Config) :
    BulkOperation → Prop
  | .index name id document =>
      ElasticsearchStore.Lawful platform config name id document
  | .delete _ _ => True

theorem Own.bulkRun {operations : List BulkOperation}
    (hlawful : ∀ operation ∈ operations, operation.Lawful platform config)
    (h : Own platform config cluster) :
    Own platform config (bulkRun cluster operations).2 := by
  induction operations generalizing cluster with
  | nil => exact h
  | cons operation operations ih =>
      refine ih (fun other hother => hlawful other
        (List.mem_cons_of_mem _ hother)) ?_
      have hfirst := hlawful operation List.mem_cons_self
      cases operation with
      | index index id document => exact h.indexDocument hfirst
      | delete index id =>
          dsimp only
          split
          · exact h
          · exact h.deleteDocument

end Changes

def Access.Lawful (platform : Platform) (config : Config) : Access → Prop
  | .indicesCreate name => CreatedBy (getIndexName config) name
  | .index name id document =>
      ElasticsearchStore.Lawful platform config name id document
  | .bulk operations =>
      ∀ operation ∈ operations, operation.Lawful platform config
  | _ => True

theorem own_serve (a : Access) (s : Server)
    (ha : a.Lawful platform config) (h : Own platform config s.cluster) :
    Own platform config (serve backend a s).2.cluster := by
  cases a with
  | indicesExists | indicesGet | now => exact h
  | get index id =>
      simp only [serve]
      split
      · exact h
      · split <;> exact h
  | search index query size =>
      simp only [serve]
      split <;> exact h
  | indicesCreate index =>
      simp only [serve]
      split
      · exact h
      · exact h.created ha
  | index index id document => exact h.indexDocument ha
  | bulk operations => exact h.bulkRun ha
  | delete index id =>
      simp only [serve]
      split
      · exact h
      · exact h.deleteDocument
  | deleteByQuery indices query =>
      simp only [serve]
      split
      · exact h.deleteByQuery _ indices
      · exact h

section Calls

variable {key collection : String}

abbrev Sends (platform : Platform) (config : Config) {α : Type}
    (call : Requests α) : Prop :=
  Allowed (Access.Lawful platform config) call

theorem sends_setupCollection :
    Sends platform config (setupCollection config collection) := by
  refine allowed_attempt_bind fun indexName hname => ?_
  have hfree : (Access.indicesExists indexName).Lawful platform config :=
    trivial
  refine (allowed_access hfree).bind fun found => ?_
  split
  · exact allowed_pure _
  · split
    · exact allowed_attempt _
    · have hlawful : (Access.indicesCreate indexName).Lawful platform
          config := ⟨collection, hname⟩
      refine (allowed_access hlawful).bind fun response => ?_
      split
      · exact allowed_attempt _
      · exact allowed_pure _

theorem sends_getManagedEntry :
    Sends platform config (getManagedEntry platform config key collection) := by
  refine (allowed_attempt _).bind fun indexName => ?_
  refine (allowed_attempt _).bind fun documentId => ?_
  have hlawful : (Access.get indexName documentId).Lawful platform config :=
    trivial
  refine (allowed_access hlawful).bind fun response => ?_
  split
  · exact allowed_attempt _
  · split
    · exact allowed_pure _
    · split
      · exact allowed_attempt _
      · exact (allowed_attempt _).bind fun entry => allowed_pure _

theorem sends_newTimestamps (ttl : Option SupportsFloat) :
    Sends platform config (newTimestamps platform ttl) := by
  have hlawful : Access.now.Lawful platform config := trivial
  refine (allowed_access hlawful).bind fun time => ?_
  exact (allowed_attempt _).bind fun timestamps => allowed_pure _

theorem dumpDict_of_mapError {entry : PyManagedEntry} {document : Document}
    (h : (dumpDict platform entry key collection).mapError EsError.raised =
      .ok document) :
    dumpDict platform entry key collection = .ok document := by
  cases hresult : dumpDict platform entry key collection with
  | error error =>
      rw [hresult] at h
      cases h
  | ok document' =>
      rw [hresult] at h
      cases h
      rfl

theorem sends_putManagedEntry {entry : PyManagedEntry}
    (hmemory : FitsMemory entry.value) :
    Sends platform config
      (putManagedEntry platform config key collection entry) := by
  refine allowed_attempt_bind fun indexName hname => ?_
  refine allowed_attempt_bind fun documentId hid => ?_
  refine allowed_attempt_bind fun document hdocument => ?_
  obtain ⟨hkey, hcollection, loaded, hloaded⟩ :=
    loadDict_dumpDict hmemory (dumpDict_of_mapError hdocument)
  have hlawful : (Access.index indexName documentId document).Lawful platform
      config := ⟨collection, key, loaded, hname, hid, hkey, hcollection,
        hloaded⟩
  refine (allowed_access hlawful).bind fun response => ?_
  split
  · exact allowed_attempt _
  · split
    · exact allowed_attempt _
    · exact allowed_pure _

theorem sends_unexpiredEntry {name : Option String} :
    Sends platform config (unexpiredEntry platform config key name) := by
  refine (allowed_attempt _).bind fun _ => ?_
  refine sends_setupCollection.bind fun _ => ?_
  refine sends_getManagedEntry.bind fun entry => ?_
  cases entry with
  | none => exact allowed_pure _
  | some entry =>
      have hlawful : Access.now.Lawful platform config := trivial
      refine (allowed_access hlawful).bind fun time => ?_
      split
      · exact allowed_pure _
      · exact allowed_pure _

theorem sends_put {value : PyValue} {name : Option String}
    {ttl : Option SupportsFloat} (hmemory : FitsMemory value) :
    Sends platform config (put platform config key value name ttl) := by
  refine (allowed_attempt _).bind fun _ => ?_
  refine (sends_newTimestamps ttl).bind fun timestamps => ?_
  exact sends_setupCollection.bind fun _ => sends_putManagedEntry hmemory

theorem lawful_indexOperations {indexName : String}
    {entries : List (String × PyManagedEntry)}
    {operations : List BulkOperation}
    (hname : getIndexName config collection = .ok indexName)
    (hmemory : ∀ entry ∈ entries, FitsMemory entry.2.value)
    (h : indexOperations platform indexName collection entries =
      .ok operations) :
    ∀ operation ∈ operations, operation.Lawful platform config := by
  induction entries generalizing operations with
  | nil =>
      cases h
      exact fun _ h => absurd h List.not_mem_nil
  | cons item entries ih =>
      obtain ⟨key, entry⟩ := item
      obtain ⟨documentId, hid, hrest⟩ := bind_eq_ok.mp h
      obtain ⟨document, hdocument, hrest⟩ := bind_eq_ok.mp hrest
      obtain ⟨rest, hoperations, hpure⟩ := bind_eq_ok.mp hrest
      cases hpure
      obtain ⟨hkey, hcollection, loaded, hloaded⟩ := loadDict_dumpDict
        (hmemory (key, entry) List.mem_cons_self)
        (dumpDict_of_mapError hdocument)
      intro operation hoperation
      rcases List.mem_cons.mp hoperation with rfl | hmem
      · exact ⟨collection, key, loaded, hname, hid, hkey, hcollection,
          hloaded⟩
      · exact ih (fun other hother => hmemory other
          (List.mem_cons_of_mem _ hother)) hoperations operation hmem

theorem sends_putManagedEntries {keys : List String}
    {entries : List PyManagedEntry}
    (hmemory : ∀ entry ∈ entries, FitsMemory entry.value) :
    Sends platform config
      (putManagedEntries platform config collection keys entries) := by
  unfold putManagedEntries
  split
  · exact allowed_pure _
  · refine allowed_attempt_bind fun indexName hname => ?_
    refine allowed_attempt_bind fun operations hoperations => ?_
    have hlawful : (Access.bulk operations).Lawful platform config :=
      lawful_indexOperations hname
        (fun item hitem => hmemory _ (List.of_mem_zip hitem).2) hoperations
    refine (allowed_access hlawful).bind fun response => ?_
    refine (allowed_attempt _).bind fun documentIds => ?_
    exact (allowed_attempt _).bind fun items => allowed_attempt _

theorem sends_putMany {keys : List String} {values : List PyValue}
    {name : Option String} {ttl : Option SupportsFloat}
    (hmemory : ∀ value ∈ values, FitsMemory value) :
    Sends platform config (putMany platform config keys values name ttl) := by
  unfold putMany
  split
  · exact allowed_attempt _
  · refine (allowed_attempt _).bind fun _ => ?_
    have hlawful : Access.now.Lawful platform config := trivial
    refine (allowed_access hlawful).bind fun time => ?_
    refine (allowed_attempt _).bind fun validatedTtl => ?_
    refine (sends_newTimestamps _).bind fun timestamps => ?_
    refine sends_setupCollection.bind fun _ => sends_putManagedEntries ?_
    intro entry hentry
    obtain ⟨value, hvalue, rfl⟩ := List.mem_map.mp hentry
    exact hmemory value hvalue

theorem sends_delete {name : Option String} :
    Sends platform config (delete config key name) := by
  refine (allowed_attempt _).bind fun _ => ?_
  refine sends_setupCollection.bind fun _ => ?_
  refine (allowed_attempt _).bind fun indexName => ?_
  refine (allowed_attempt _).bind fun documentId => ?_
  have hlawful : (Access.delete indexName documentId).Lawful platform config :=
    trivial
  refine (allowed_access hlawful).bind fun response => ?_
  split
  · exact allowed_attempt _
  · split
    · exact allowed_pure _
    · split
      · exact allowed_attempt _
      · exact allowed_pure _

theorem sends_deleteMany {keys : List String} {name : Option String} :
    Sends platform config (deleteMany config keys name) := by
  refine (allowed_attempt _).bind fun _ => ?_
  refine sends_setupCollection.bind fun _ => ?_
  unfold deleteManagedEntries
  split
  · exact allowed_pure _
  · refine (allowed_attempt _).bind fun indexName => ?_
    refine (allowed_attempt _).bind fun documentIds => ?_
    have hlawful : (Access.bulk
        (documentIds.map (.delete indexName))).Lawful platform config := by
      intro operation hoperation
      obtain ⟨documentId, -, rfl⟩ := List.mem_map.mp hoperation
      trivial
    refine (allowed_access hlawful).bind fun response => ?_
    exact (allowed_attempt _).bind fun items => allowed_attempt _

theorem sends_keys {name : Option String} {limit : Option Int} :
    Sends platform config (ElasticsearchStore.keys config name limit) := by
  refine sends_setupCollection.bind fun _ => ?_
  refine (allowed_attempt _).bind fun indexName => ?_
  have hlawful : (Access.search indexName
      (.term (collectionName config name)) pageLimit.toNat).Lawful platform
        config := trivial
  refine (allowed_access hlawful).bind fun response => ?_
  exact (allowed_attempt _).bind fun allKeys => allowed_pure _

theorem sends_collections {limit : Option Int} :
    Sends platform config (collections config limit) := by
  have hlawful : (Access.indicesGet
      (getIndexNamespacePrefix config ++ "*")).Lawful platform config := trivial
  refine Allowed.bind ?_ fun indexNames => ?_
  · refine (allowed_access hlawful).bind fun response => ?_
    split
    · exact allowed_pure _
    · split
      · exact allowed_attempt _
      · exact (allowed_attempt _).bind fun _ => allowed_pure _
  · exact (allowed_attempt _).bind fun names => allowed_pure _

theorem sends_deleteCollection :
    Sends platform config (deleteCollection config collection) := by
  refine (allowed_attempt _).bind fun indexName => ?_
  have hlawful : (Access.deleteByQuery [indexName]
      (.term collection)).Lawful platform config := trivial
  refine (allowed_access hlawful).bind fun response => ?_
  refine (allowed_attempt _).bind fun _ => ?_
  exact (allowed_attempt _).bind fun deleted => allowed_pure _

theorem sends_deleteCollections (collections : List String) :
    Sends platform config (deleteCollections config collections) := by
  induction collections with
  | nil => exact allowed_pure _
  | cons collection collections ih =>
      exact sends_deleteCollection.bind fun _ => ih

end Calls

end OpenKeyV.Search.ElasticsearchStore
