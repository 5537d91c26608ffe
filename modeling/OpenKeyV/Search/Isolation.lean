import OpenKeyV.PhysicalNames
import OpenKeyV.Search.ElasticsearchCluster

/-!
# Two stores on one cluster

Two `OpenSearchStore`s, or two `ElasticsearchStore`s, with different index
prefixes.  A store asks for the indices behind a pattern and refuses them all
when one of them is no name that it has made.
-/

namespace OpenKeyV.Search

open Library

/-! ## Names that one store or the other has made -/

def CreatedBy {ε : Type} (encode : String → Except ε String)
    (index : String) : Prop :=
  ∃ collection, encode collection = .ok index

section Owners

variable {ε ε' Doc α β : Type} {encode : String → Except ε String}
  {decode : String → Except ε String} {other : String → Except ε' String}
  {cluster : Cluster Doc} {pattern index : String}

theorem mem_matching : index ∈ cluster.matching pattern ↔
    index ∈ cluster.keys ∧ wildcardMatch pattern index = true := by
  rw [Cluster.matching, List.mem_filter]

theorem created_of_matching
    (hcreated : ∀ index ∈ cluster.keys,
      CreatedBy encode index ∨ CreatedBy other index)
    (hclear : ∀ index ∈ cluster.keys, CreatedBy other index →
      wildcardMatch pattern index = false)
    (h : index ∈ cluster.matching pattern) : CreatedBy encode index := by
  obtain ⟨hmem, hmatch⟩ := mem_matching.mp h
  refine (hcreated index hmem).resolve_right fun hother => ?_
  rw [hclear index hmem hother] at hmatch
  cases hmatch

theorem decode_of_created (h : Transports encode decode)
    (hcreated : CreatedBy encode index) :
    ∃ collection, decode index = .ok collection := by
  obtain ⟨collection, hindex⟩ := hcreated
  exact ⟨collection, h.decode_encode hindex⟩

theorem decode_of_not_created (h : Transports encode decode)
    (hnot : ¬ CreatedBy encode index) :
    ∃ error, decode index = .error error := by
  cases hdecode : decode index with
  | ok collection => exact absurd ⟨_, h.encode_decode hdecode⟩ hnot
  | error error => exact ⟨error, rfl⟩

theorem mapM'_eq_ok {f : α → Except ε β} {items : List α}
    (h : ∀ a ∈ items, ∃ b, f a = .ok b) :
    ∃ results, items.mapM' f = .ok results ∧
      ∀ b ∈ results, ∃ a ∈ items, f a = .ok b := by
  induction items with
  | nil => exact ⟨[], rfl, fun _ hb => absurd hb List.not_mem_nil⟩
  | cons a items ih =>
      obtain ⟨b, hb⟩ := h a List.mem_cons_self
      obtain ⟨results, hresults, hall⟩ := ih fun a' ha' =>
        h a' (List.mem_cons_of_mem _ ha')
      refine ⟨b :: results, ?_, fun b' hb' => ?_⟩
      · rw [List.mapM'_cons, hb, hresults]
        rfl
      · rcases List.mem_cons.mp hb' with rfl | hrest
        · exact ⟨a, List.mem_cons_self, hb⟩
        · obtain ⟨a', ha', hresult⟩ := hall b' hrest
          exact ⟨a', List.mem_cons_of_mem _ ha', hresult⟩

theorem mapM'_eq_error {f : α → Except ε β} {items : List α} {a : α}
    (hmem : a ∈ items) (h : ∃ error, f a = .error error) :
    ∃ error, items.mapM' f = .error error := by
  induction items with
  | nil => cases hmem
  | cons a' items ih =>
      rw [List.mapM'_cons]
      cases hfirst : f a' with
      | error error => exact ⟨error, rfl⟩
      | ok b =>
          rcases List.mem_cons.mp hmem with rfl | hrest
          · obtain ⟨error, herror⟩ := h
            rw [hfirst] at herror
            cases herror
          · obtain ⟨error, herror⟩ := ih hrest
            exact ⟨error, by rw [herror]; rfl⟩

theorem keys_deleteIn {query : Doc → Bool} {name : String} :
    index ∈ (Cluster.deleteIn query cluster name).keys ↔
      index ∈ cluster.keys := by
  unfold Cluster.deleteIn
  split
  · rename_i documents hdocuments
    have hmem : name ∈ cluster.keys := by
      rw [KeyedMap.mem_keys_iff, hdocuments]
      exact ⟨documents, rfl⟩
    rw [← AList.mem_keys, AList.mem_insert, AList.mem_keys,
      or_iff_right_iff_imp]
    rintro rfl
    exact hmem
  · exact Iff.rfl

theorem lookup_deleteIn {query : Doc → Bool} {name : String}
    (h : index ≠ name) :
    (Cluster.deleteIn query cluster name).lookup index =
      cluster.lookup index := by
  unfold Cluster.deleteIn
  split
  · rw [KeyedMap.lookup_insert_eq, if_neg h]
  · rfl

theorem lookup_deleteByQuery {query : Doc → Bool} {indices : List String}
    (h : index ∉ indices) :
    (cluster.deleteByQuery query indices).lookup index =
      cluster.lookup index := by
  induction indices generalizing cluster with
  | nil => rfl
  | cons name indices ih =>
      rw [List.mem_cons, not_or] at h
      rw [Cluster.deleteByQuery, List.foldl_cons]
      exact (ih h.2).trans (lookup_deleteIn h.1)

end Owners

/-! ## `OpenSearchStore` -/

namespace OpenSearchStore

open Cleanup.OpenSearch

variable {config other : Config} {cluster : Documents} {index : String}

abbrev Config.encode (config : Config) : String → Except Error String :=
  encodeIndexName config.debug config.indexPrefix

structure SharedBy (config other : Config) (cluster : Documents) : Prop where
  indices : ∀ index ∈ cluster.keys,
    CreatedBy config.encode index ∨ CreatedBy other.encode index
  ids : ∀ index documents, cluster.lookup index = some documents →
    ∀ id ∈ documents.keys, ∃ key, encodeDocumentId key = .ok id

/-- The pattern of the first prefix reaches the indices of the second. -/
def Reaches (lead other : String) : Prop :=
  (∃ rest, other = lead ++ "-" ++ rest) ∨ lead = other ++ "-okv1"

theorem createdBy_iff : CreatedBy config.encode index ↔
    ∃ collection, validateIndexPrefix config.debug config.indexPrefix =
        .ok () ∧ index = indexName config.indexPrefix collection ∧
      index.utf8ByteSize ≤ maxIndexBytes :=
  exists_congr fun _ => encodeIndexName_eq_ok

theorem not_created_of_other (hne : config.indexPrefix ≠ other.indexPrefix)
    (h : CreatedBy other.encode index) : ¬ CreatedBy config.encode index := by
  intro hown
  obtain ⟨collection, -, hindex, -⟩ := createdBy_iff.mp hown
  obtain ⟨collection', -, hindex', -⟩ := createdBy_iff.mp h
  exact hne (indexName_inj.mp (hindex.symm.trans hindex')).1

theorem star_notMem {debug : String → String} {lead : String}
    (h : validateIndexPrefix debug lead = .ok ()) : '*' ∉ lead.toList := by
  intro hmem
  obtain ⟨before, after, hlead⟩ := List.mem_iff_append.mp hmem
  have htext : lead = String.ofList before ++ "*" ++ String.ofList after := by
    apply String.toList_injective
    rw [hlead, String.toList_append, String.toList_append,
      String.toList_ofList, String.toList_ofList]
    simp
  have hbyte : (42 : UInt8) ∈ utf8 lead := by
    rw [htext, utf8_append, utf8_append]
    exact List.mem_append_left _ (List.mem_append_right _ (by decide))
  unfold validateIndexPrefix at h
  split at h
  · cases h
  · split at h
    · cases h
    · split at h
      · cases h
      · rename_i hall
        rw [Bool.not_eq_false, List.all_eq_true] at hall
        exact absurd (hall 42 hbyte) (by decide)

theorem indexPattern_eq
    (h : validateIndexPrefix config.debug config.indexPrefix = .ok ()) :
    indexPattern config = .ok (config.indexPrefix ++ "-" ++ "*") := by
  rw [indexPattern, h, String.append_assoc]
  rfl

theorem matches_iff
    (h : validateIndexPrefix config.debug config.indexPrefix = .ok ())
    {lead collection : String} :
    wildcardMatch (config.indexPrefix ++ "-" ++ "*")
        (indexName lead collection) = true ↔
      config.indexPrefix = lead ∨ Reaches config.indexPrefix lead := by
  rw [wildcardMatch_lead]
  · exact dash_lead_iff
  · rw [String.toList_append, List.mem_append, not_or]
    exact ⟨star_notMem h, by decide⟩

theorem matches_created
    (h : validateIndexPrefix config.debug config.indexPrefix = .ok ())
    (hcreated : CreatedBy other.encode index) :
    wildcardMatch (config.indexPrefix ++ "-" ++ "*") index = true ↔
      config.indexPrefix = other.indexPrefix ∨
        Reaches config.indexPrefix other.indexPrefix := by
  obtain ⟨collection, -, rfl, -⟩ := createdBy_iff.mp hcreated
  exact matches_iff h

theorem decodeNames_eq (indices : List String) :
    decodeNames config indices = indices.mapM' fun index => do
      let collection ← decodeIndexName config index
      return (index, collection) := by
  induction indices with
  | nil => rfl
  | cons index indices ih =>
      rw [decodeNames, ih, List.mapM'_cons]
      cases decodeIndexName config index <;> rfl

theorem validateDocumentIds_ok
    (h : ∀ documents, cluster.lookup index = some documents →
      ∀ id ∈ documents.keys, ∃ key, encodeDocumentId key = .ok id) :
    ∃ found, validateDocumentIds config cluster index = .ok found := by
  unfold validateDocumentIds
  split
  · exact ⟨false, rfl⟩
  · rename_i documents hdocuments
    refine ⟨true, ?_⟩
    have hall : ∀ ids : List String, (∀ id ∈ ids, id ∈ documents.keys) →
        (ids.forM fun id => do
          let _ ← decodeDocumentId config id) = (.ok () : Except Error _) := by
      intro ids hids
      induction ids with
      | nil => rfl
      | cons id ids ih =>
          obtain ⟨key, hkey⟩ := h documents hdocuments id
            (hids id List.mem_cons_self)
          rw [List.forM_eq_forM, List.forM_cons,
            (transports_documentId config).decode_encode hkey]
          exact ih fun id' hid' => hids id' (List.mem_cons_of_mem _ hid')
    rw [hall documents.keys fun _ hid => hid]
    rfl

theorem validateAll_ok (h : SharedBy config other cluster)
    (indices : List (String × String)) :
    validateAll config cluster indices = .ok () := by
  induction indices with
  | nil => rfl
  | cons pair indices ih =>
      obtain ⟨index, collection⟩ := pair
      obtain ⟨found, hfound⟩ := @validateDocumentIds_ok config _ _
        (h.ids index)
      rw [validateAll, hfound]
      exact ih

/-- The pattern reaches an index that is there. -/
def Conflicts (config other : Config) (cluster : Documents) : Prop :=
  Reaches config.indexPrefix other.indexPrefix ∧
    ∃ index ∈ cluster.keys, CreatedBy other.encode index

structure Isolated (config : Config) (cluster : Documents) : Prop where
  collections : ∀ limit, ∃ names,
    collections config limit cluster = .ok names ∧
      ∀ name ∈ names, ∃ index ∈ cluster.keys, config.encode name = .ok index
  cull : ∀ now, (cull config now cluster).1 = .ok () ∧
    ∀ index, ¬ CreatedBy config.encode index →
      (cull config now cluster).2.lookup index = cluster.lookup index
  destroy : (destroy config cluster).1 = .ok true ∧
    ∀ index, ¬ CreatedBy config.encode index →
      (destroy config cluster).2.lookup index = cluster.lookup index

structure Refuses (config : Config) (cluster : Documents) : Prop where
  collections : ∀ limit, ∃ error,
    collections config limit cluster = .error error
  cull : ∀ now, ∃ error, cull config now cluster = (.error error, cluster)
  destroy : ∃ error, destroy config cluster = (.error error, cluster)

section Stores

variable
  (hvalid : validateIndexPrefix config.debug config.indexPrefix = .ok ())
  (hne : config.indexPrefix ≠ other.indexPrefix)
  (hshared : SharedBy config other cluster)

include hvalid in
theorem ownedIndices_eq : ownedIndices config cluster =
    decodeNames config (sortBy (fun index => (utf8 index).map UInt8.toNat)
      (cluster.matching (config.indexPrefix ++ "-" ++ "*"))) := by
  rw [ownedIndices, indexPattern_eq hvalid]
  rfl

include hvalid hne hshared

theorem ownedIndices_ok (hclear : ¬ Conflicts config other cluster) :
    ∃ indices, ownedIndices config cluster = .ok indices ∧
      ∀ pair ∈ indices, pair.1 ∈ cluster.keys ∧
        config.encode pair.2 = .ok pair.1 := by
  have hown : ∀ index ∈ cluster.matching (config.indexPrefix ++ "-" ++ "*"),
      CreatedBy config.encode index := by
    intro index hindex
    refine created_of_matching hshared.indices ?_ hindex
    intro name hname hother
    rw [Bool.eq_false_iff, ne_eq, matches_created hvalid hother, not_or]
    exact ⟨hne, fun hreaches => hclear ⟨hreaches, name, hname, hother⟩⟩
  obtain ⟨indices, hindices, hall⟩ := @mapM'_eq_ok Error _ _
    (fun index => do
      let collection ← decodeIndexName config index
      return (index, collection))
    (sortBy (fun index => (utf8 index).map UInt8.toNat)
      (cluster.matching (config.indexPrefix ++ "-" ++ "*"))) (by
    intro index hindex
    obtain ⟨collection, hdecode⟩ := decode_of_created
      (transports_indexName config) (hown index ((mem_sortBy ..).mp hindex))
    exact ⟨(index, collection), by rw [hdecode]; rfl⟩)
  refine ⟨indices, ?_, fun pair hpair => ?_⟩
  · rw [ownedIndices_eq hvalid, decodeNames_eq]
    exact hindices
  · obtain ⟨index, hindex, hresult⟩ := hall pair hpair
    obtain ⟨collection, hdecode, hpure⟩ := bind_eq_ok.mp hresult
    cases hpure
    exact ⟨(mem_matching.mp ((mem_sortBy ..).mp hindex)).1,
      decodeIndexName_eq_ok hdecode⟩

theorem checkedIndices_ok (hclear : ¬ Conflicts config other cluster) :
    ∃ indices, checkedIndices config cluster = .ok indices ∧
      ∀ index ∈ indices, CreatedBy config.encode index := by
  obtain ⟨indices, howned, hall⟩ :=
    ownedIndices_ok hvalid hne hshared hclear
  refine ⟨indices.map Prod.fst, ?_, fun index hindex => ?_⟩
  · rw [checkedIndices, howned]
    simp only [bind, Except.bind, validateAll_ok hshared, pure, Except.pure]
  · obtain ⟨pair, hpair, rfl⟩ := List.mem_map.mp hindex
    exact ⟨pair.2, (hall pair hpair).2⟩

theorem isolated (hclear : ¬ Conflicts config other cluster) :
    Isolated config cluster := by
  obtain ⟨indices, hchecked, hown⟩ :=
    checkedIndices_ok hvalid hne hshared hclear
  have hnot : ∀ index, ¬ CreatedBy config.encode index → index ∉ indices :=
    fun index hindex hmem => hindex (hown index hmem)
  constructor
  case collections =>
    intro limit
    obtain ⟨pairs, howned, hall⟩ :=
      ownedIndices_ok hvalid hne hshared hclear
    refine ⟨_, by rw [collections, howned]; rfl, fun name hname => ?_⟩
    obtain ⟨pair, hpair, rfl⟩ := List.mem_map.mp hname
    exact ⟨pair.1, hall pair (List.mem_of_mem_take hpair)⟩
  case cull =>
    intro now
    cases indices with
    | nil => simp only [cull, hchecked, implies_true, and_self]
    | cons first rest =>
        simp only [cull, hchecked, true_and]
        exact fun index hindex => lookup_deleteByQuery (hnot index hindex)
  case destroy =>
    cases indices with
    | nil => simp only [destroy, hchecked, implies_true, and_self]
    | cons first rest =>
        simp only [destroy, hchecked, true_and]
        intro index hindex
        rw [Cluster.deleteIndices, KeyedMap.lookup_eraseAll,
          if_neg (hnot index hindex)]

omit hshared in
theorem refuses (hconflicts : Conflicts config other cluster) :
    Refuses config cluster := by
  obtain ⟨hreaches, index, hmem, hother⟩ := hconflicts
  have hindex : index ∈
      sortBy (fun index => (utf8 index).map UInt8.toNat)
        (cluster.matching (config.indexPrefix ++ "-" ++ "*")) := by
    rw [mem_sortBy, mem_matching]
    exact ⟨hmem, (matches_created hvalid hother).mpr (.inr hreaches)⟩
  obtain ⟨error, herror⟩ : ∃ error,
      ownedIndices config cluster = .error error := by
    rw [ownedIndices_eq hvalid, decodeNames_eq]
    refine mapM'_eq_error hindex ?_
    obtain ⟨error, hdecode⟩ := decode_of_not_created
      (transports_indexName config) (not_created_of_other hne hother)
    exact ⟨error, by rw [hdecode]; rfl⟩
  have hchecked : checkedIndices config cluster = .error error := by
    rw [checkedIndices, herror]
    rfl
  constructor
  case collections =>
    exact fun limit => ⟨error, by rw [collections, herror]; rfl⟩
  case cull => exact fun now => ⟨error, by rw [cull, hchecked]⟩
  case destroy => exact ⟨error, by rw [destroy, hchecked]⟩

end Stores

end OpenSearchStore

/-! ## `ElasticsearchStore` -/

namespace ElasticsearchStore

open Library.Interaction Python

variable {platform : Platform} {config other : Config} {backend : Backend}
  {s : Server} {index : String}

theorem getIndexName_eq_ok {collection : String} :
    getIndexName config collection = .ok index ↔
      index = indexName config.indexPrefix collection ∧
        index.utf8ByteSize ≤ maxIndexBytes := by
  have hname : getIndexNamespacePrefix config ++
      Hex.encode (utf8 collection) =
        indexName config.indexPrefix collection := by
    simp only [getIndexNamespacePrefix, indexName, marker, String.append_assoc]
    rfl
  unfold getIndexName
  simp only
  rw [hname]
  split
  · rename_i hlong
    constructor
    · intro h
      cases h
    · rintro ⟨rfl, hshort⟩
      omega
  · rename_i hshort
    constructor
    · intro h
      cases h
      exact ⟨rfl, Nat.not_lt.mp hshort⟩
    · rintro ⟨rfl, -⟩
      rfl

theorem decodeIndexName_getIndexName {collection : String}
    (h : getIndexName config collection = .ok index) :
    decodeIndexName config index = .ok collection := by
  have hstrip : stripPrefix (getIndexNamespacePrefix config) index =
      some (Hex.encode (utf8 collection)) := by
    rw [(getIndexName_eq_ok.mp h).1, indexName, marker,
      ← stripPrefix_append (getIndexNamespacePrefix config)]
    simp only [getIndexNamespacePrefix, String.append_assoc]
    rfl
  simp only [decodeIndexName, hstrip, Hex.decode_encode, ofUtf8_utf8, h,
    ne_eq, not_true_eq_false, if_false]

theorem getIndexName_of_decode {collection : String}
    (h : decodeIndexName config index = .ok collection) :
    getIndexName config collection = .ok index := by
  unfold decodeIndexName at h
  split at h
  · cases h
  · split at h
    · cases h
    · split at h
      · cases h
      · split at h
        · cases h
        · rename_i canonical hcanonical
          split at h
          · cases h
          · rename_i hsame
            cases h
            rw [hcanonical, not_ne_iff.mp hsame]

theorem transports_getIndexName (config : Config) :
    Transports (getIndexName config) (decodeIndexName config) :=
  ⟨decodeIndexName_getIndexName, getIndexName_of_decode⟩

/-- The pattern of the first prefix reaches the indices of the second. -/
def Reaches (lead other : String) : Prop :=
  other = lead ++ "-okv1" ∨ ∃ rest, other = lead ++ "-okv1" ++ "-" ++ rest

theorem not_created_of_other (hne : config.indexPrefix ≠ other.indexPrefix)
    (h : CreatedBy (getIndexName other) index) :
    ¬ CreatedBy (getIndexName config) index := by
  rintro ⟨collection, hown⟩
  obtain ⟨collection', hother⟩ := h
  have hsame := (getIndexName_eq_ok.mp hown).1.symm.trans
    (getIndexName_eq_ok.mp hother).1
  exact hne (indexName_inj.mp hsame).1

/-- The prefix is one that `__init__` keeps. -/
def Accepted (platform : Platform) (config : Config) : Prop :=
  ∃ indexPrefix, normalizeIndexPrefix platform indexPrefix =
    .ok config.indexPrefix

theorem star_notMem (h : Accepted platform config) :
    '*' ∉ config.indexPrefix.toList := by
  obtain ⟨indexPrefix, h⟩ := h
  unfold normalizeIndexPrefix at h
  split at h
  · cases h
  · simp only at h
    split at h
    · cases h
    · rename_i hallowed
      split at h
      · cases h
      · injection h with hsame
        rw [← hsame]
        intro hmem
        rw [Bool.not_eq_true, Bool.or_eq_false_iff, Bool.not_eq_false',
          List.all_eq_true] at hallowed
        exact absurd (hallowed.2 _ hmem) (by decide)

def pattern (config : Config) : String :=
  getIndexNamespacePrefix config ++ "*"

theorem matches_created (h : Accepted platform config)
    (hcreated : CreatedBy (getIndexName other) index) :
    wildcardMatch (pattern config) index = true ↔
      config.indexPrefix = other.indexPrefix ∨
        Reaches config.indexPrefix other.indexPrefix := by
  obtain ⟨collection, hindex⟩ := hcreated
  have hlead : getIndexNamespacePrefix config =
      config.indexPrefix ++ "-okv1" ++ "-" := by
    simp only [getIndexNamespacePrefix, String.append_assoc]
    rfl
  rw [pattern, hlead, wildcardMatch_lead, (getIndexName_eq_ok.mp hindex).1,
    dash_lead_iff]
  · constructor
    · rintro (hsame | hrest | hsame)
      · exact .inr (.inl hsame.symm)
      · exact .inr (.inr hrest)
      · exact .inl ((String.append_left_inj _).mp hsame)
    · rintro (hsame | hsame | hrest)
      · exact .inr (.inr (congrArg (· ++ "-okv1") hsame))
      · exact .inl hsame.symm
      · exact .inr (.inl hrest)
  · simp only [String.toList_append, List.mem_append, not_or]
    exact ⟨⟨star_notMem h, by decide⟩, by decide⟩

theorem decodeIndexNames_eq (indexNames : List String) :
    decodeIndexNames config indexNames =
      indexNames.mapM' (decodeIndexName config) := by
  induction indexNames with
  | nil => rfl
  | cons indexName indexNames ih =>
      rw [decodeIndexNames, ih, List.mapM'_cons]

theorem bodyNames_map (names : List String) :
    bodyNames (names.map fun name => (.str name, .dict [])) = names := by
  induction names with
  | nil => rfl
  | cons name names ih =>
      rw [List.map_cons, bodyNames, List.filterMap_cons]
      simp only [List.cons.injEq, true_and]
      exact ih

theorem playCall_getOwnedIndexNames :
    playCall (serve backend) (getOwnedIndexNames config) s =
      ((decodeIndexNames config (backend.arrange
        (s.cluster.matching (pattern config)))).map fun _ =>
          backend.arrange (s.cluster.matching (pattern config)), s) := by
  rw [getOwnedIndexNames, playCall_bind, playCall_access]
  simp only [serve, Nat.reduceEqDiff, if_false, ne_eq, not_true_eq_false]
  rw [← pattern, bodyNames_map, playCall_bind, playCall_attempt]
  cases decodeIndexNames config (backend.arrange
    (s.cluster.matching (pattern config))) <;> rfl

theorem checkByQuery_byQueryResponse (timedOut failed : String)
    (deleted : Nat) :
    checkByQuery timedOut failed (byQueryResponse deleted).body = .ok () :=
  rfl

theorem deletedCount_byQueryResponse (deleted : Nat) :
    deletedCount (byQueryResponse deleted).body = .ok deleted := by
  have hnonneg : ¬ (deleted : Int) < 0 := by omega
  simp only [deletedCount, byQueryResponse, getItem]
  exact if_neg hnonneg

theorem serve_deleteByQuery {indices : List String} {query : Query}
    (h : ∀ index ∈ indices, index ∈ s.cluster.keys) :
    serve backend (.deleteByQuery indices query) s =
      (byQueryResponse (indices.map (matched backend s.cluster query)).sum,
        s.deleteByQuery backend query indices) := by
  have hall : (indices.all fun index => (s.cluster.lookup index).isSome) =
      true := by
    rw [List.all_eq_true]
    intro index hindex
    exact Option.isSome_iff_exists.mpr
      (KeyedMap.mem_keys_iff.mp (h index hindex))
  simp only [serve, hall, if_true]

theorem playCall_deleteCollection {collection : String}
    (hname : getIndexName config collection = .ok index)
    (hmem : index ∈ s.cluster.keys) :
    playCall (serve backend) (deleteCollection config collection) s =
      (.ok (decide (0 < matched backend s.cluster (.term collection) index)),
        s.deleteByQuery backend (.term collection) [index]) := by
  have hserve := @serve_deleteByQuery backend s [index] (.term collection)
    fun other hother => by rwa [List.mem_singleton.mp hother]
  rw [deleteCollection, playCall_bind, playCall_attempt, hname]
  simp only
  rw [playCall_bind, playCall_access, hserve]
  simp only
  rw [playCall_bind, playCall_attempt, checkByQuery_byQueryResponse]
  simp only
  rw [playCall_bind, playCall_attempt, deletedCount_byQueryResponse]
  simp only [playCall_pure, List.map_cons, List.map_nil, List.sum_cons,
    List.sum_nil, Nat.add_zero, Nat.cast_pos]

theorem keys_deleteByQuery {query : Document → Bool} {indices : List String}
    {cluster : Documents} :
    index ∈ (cluster.deleteByQuery query indices).keys ↔
      index ∈ cluster.keys := by
  induction indices generalizing cluster with
  | nil => exact Iff.rfl
  | cons name indices ih =>
      rw [Cluster.deleteByQuery, List.foldl_cons]
      exact ih.trans keys_deleteIn

theorem playCall_deleteCollections {collections : List String}
    (h : ∀ collection ∈ collections, ∃ index ∈ s.cluster.keys,
      getIndexName config collection = .ok index) :
    ∃ s', playCall (serve backend) (deleteCollections config collections) s =
        (.ok (), s') ∧
      ∀ index, ¬ CreatedBy (getIndexName config) index →
        s'.cluster.lookup index = s.cluster.lookup index := by
  induction collections generalizing s with
  | nil => exact ⟨s, rfl, fun _ _ => rfl⟩
  | cons collection collections ih =>
      obtain ⟨index, hmem, hname⟩ := h collection List.mem_cons_self
      obtain ⟨s', hplay, hkept⟩ := @ih
        (s.deleteByQuery backend (.term collection) [index]) (by
        intro other hother
        obtain ⟨index', hmem', hname'⟩ := h other
          (List.mem_cons_of_mem _ hother)
        exact ⟨index', keys_deleteByQuery.mpr hmem', hname'⟩)
      refine ⟨s', ?_, fun other hnot => (hkept other hnot).trans ?_⟩
      · rw [deleteCollections, playCall_bind,
          playCall_deleteCollection hname hmem]
        exact hplay
      · refine lookup_deleteByQuery fun hsame => hnot ?_
        rw [List.mem_singleton.mp hsame]
        exact ⟨collection, hname⟩

def SharedBy (config other : Config) (cluster : Documents) : Prop :=
  ∀ index ∈ cluster.keys, CreatedBy (getIndexName config) index ∨
    CreatedBy (getIndexName other) index

def Conflicts (config other : Config) (cluster : Documents) : Prop :=
  Reaches config.indexPrefix other.indexPrefix ∧
    ∃ index ∈ cluster.keys, CreatedBy (getIndexName other) index

structure Isolated (platform : Platform) (config : Config)
    (backend : Backend) (s : Server) : Prop where
  collections : ∀ limit, ∃ names,
    playCall (serve backend) (collections config limit) s = (.ok names, s) ∧
      ∀ name ∈ names, ∃ index ∈ s.cluster.keys,
        getIndexName config name = .ok index
  cull : ∃ s', playCall (serve backend) (cull platform config) s =
      (.ok (), s') ∧
    ∀ index, ¬ CreatedBy (getIndexName config) index →
      s'.cluster.lookup index = s.cluster.lookup index
  destroy : ∃ s', playCall (serve backend) (destroy config) s =
      (.ok true, s') ∧
    ∀ index, ¬ CreatedBy (getIndexName config) index →
      s'.cluster.lookup index = s.cluster.lookup index

structure Refuses (platform : Platform) (config : Config)
    (backend : Backend) (s : Server) : Prop where
  collections : ∀ limit, ∃ error,
    playCall (serve backend) (collections config limit) s = (.error error, s)
  cull : ∃ error, playCall (serve backend) (cull platform config) s =
    (.error error, s)
  destroy : ∃ error, playCall (serve backend) (destroy config) s =
    (.error error, s)

section Stores

theorem mem_arranged : index ∈
      backend.arrange (s.cluster.matching (pattern config)) ↔
    index ∈ s.cluster.keys ∧
      wildcardMatch (pattern config) index = true :=
  (backend.perm _).mem_iff.trans mem_matching

variable (haccepted : Accepted platform config)
  (hne : config.indexPrefix ≠ other.indexPrefix)
  (hshared : SharedBy config other s.cluster)

include haccepted hne hshared

theorem decodeIndexNames_ok (hclear : ¬ Conflicts config other s.cluster) :
    ∃ names, decodeIndexNames config (backend.arrange
        (s.cluster.matching (pattern config))) = .ok names ∧
      ∀ name ∈ names, ∃ index ∈ s.cluster.keys,
        getIndexName config name = .ok index := by
  have hdecode : ∀ index ∈ backend.arrange
      (s.cluster.matching (pattern config)),
        ∃ collection, decodeIndexName config index = .ok collection := by
    intro index hindex
    refine decode_of_created (transports_getIndexName config) ?_
    refine created_of_matching hshared ?_ ((backend.perm _).mem_iff.mp hindex)
    intro name hname hother
    rw [Bool.eq_false_iff, ne_eq, matches_created haccepted hother, not_or]
    exact ⟨hne, fun hreaches => hclear ⟨hreaches, name, hname, hother⟩⟩
  obtain ⟨names, hnames, hall⟩ := mapM'_eq_ok hdecode
  refine ⟨names, by rw [decodeIndexNames_eq, hnames], fun name hname => ?_⟩
  obtain ⟨index, hindex, hname⟩ := hall name hname
  exact ⟨index, (mem_arranged.mp hindex).1, getIndexName_of_decode hname⟩

theorem playCall_collections (hclear : ¬ Conflicts config other s.cluster)
    (limit : Option Int) :
    ∃ names, playCall (serve backend) (collections config limit) s =
        (.ok names, s) ∧
      ∀ name ∈ names, ∃ index ∈ s.cluster.keys,
        getIndexName config name = .ok index := by
  obtain ⟨names, hnames, hall⟩ := @decodeIndexNames_ok platform config other
    backend s haccepted hne hshared hclear
  refine ⟨sliceTo (pageSize limit) names, ?_, fun name hname => ?_⟩
  · rw [collections, playCall_bind, playCall_getOwnedIndexNames, hnames]
    simp only [Except.map]
    rw [playCall_bind, playCall_attempt, hnames]
    rfl
  · exact hall name ((sliceTo_start _ names).subset hname)

theorem isolated (hclear : ¬ Conflicts config other s.cluster) :
    Isolated platform config backend s := by
  constructor
  case collections =>
    exact playCall_collections haccepted hne hshared hclear
  case cull =>
    obtain ⟨names, hnames, -⟩ := @decodeIndexNames_ok platform config other
      backend s haccepted hne hshared hclear
    have hown : ∀ index ∈ backend.arrange
        (s.cluster.matching (pattern config)),
          CreatedBy (getIndexName config) index := by
      intro index hindex
      obtain ⟨hmem, hmatch⟩ := mem_arranged.mp hindex
      refine (hshared index hmem).resolve_right fun hother => ?_
      rw [matches_created haccepted hother] at hmatch
      exact hmatch.elim hne fun hreaches =>
        hclear ⟨hreaches, index, hmem, hother⟩
    rw [cull, playCall_bind, playCall_getOwnedIndexNames, hnames]
    simp only [Except.map]
    split
    · exact ⟨s, rfl, fun _ _ => rfl⟩
    · have hserve := @serve_deleteByQuery backend
        { s with clock := fun n => s.clock (n + 1) }
        (backend.arrange (s.cluster.matching (pattern config)))
        (.expired (platform.nowMillis (s.clock 0)))
        fun index hindex => (mem_arranged.mp hindex).1
      refine ⟨Server.deleteByQuery backend
        (.expired (platform.nowMillis (s.clock 0)))
        (backend.arrange (s.cluster.matching (pattern config)))
        { s with clock := fun n => s.clock (n + 1) }, ?hplay,
        fun index hnot =>
          lookup_deleteByQuery fun hmem => hnot (hown index hmem)⟩
      case hplay =>
        have hnow : serve backend .now s = (s.clock 0,
            { s with clock := fun n => s.clock (n + 1) }) := rfl
        rw [playCall_bind, now, playCall_access, hnow]
        simp only
        rw [playCall_bind, playCall_access, hserve]
        rfl
  case destroy =>
    obtain ⟨names, hplay, hall⟩ := @playCall_collections platform config other
      backend s haccepted hne hshared hclear none
    obtain ⟨s', hdelete, hkept⟩ := @playCall_deleteCollections config backend
      s names hall
    refine ⟨s', ?_, hkept⟩
    rw [destroy, playCall_bind, hplay]
    simp only
    rw [playCall_bind, hdelete]
    rfl

omit hshared in
theorem refuses (hconflicts : Conflicts config other s.cluster) :
    Refuses platform config backend s := by
  obtain ⟨hreaches, index, hmem, hother⟩ := hconflicts
  obtain ⟨error, herror⟩ : ∃ error, decodeIndexNames config
      (backend.arrange (s.cluster.matching (pattern config))) =
        .error error := by
    rw [decodeIndexNames_eq]
    refine mapM'_eq_error (mem_arranged.mpr ⟨hmem, ?_⟩)
      (decode_of_not_created (transports_getIndexName config)
        (not_created_of_other hne hother))
    exact (matches_created haccepted hother).mpr (.inr hreaches)
  have howned : playCall (serve backend) (getOwnedIndexNames config) s =
      (.error error, s) := by
    rw [playCall_getOwnedIndexNames, herror]
    rfl
  have hcollections : ∀ limit,
      playCall (serve backend) (collections config limit) s =
        (.error error, s) :=
    fun limit => playCall_bind_error _ howned
  constructor
  case collections => exact fun limit => ⟨error, hcollections limit⟩
  case cull => exact ⟨error, playCall_bind_error _ howned⟩
  case destroy => exact ⟨error, playCall_bind_error _ (hcollections none)⟩

end Stores

end ElasticsearchStore

/-! ## What is isolated -/

/-- No index name is made twice.  A store works as if the other one were not
there, unless its pattern reaches an index of the other: then it refuses. -/
theorem index_prefixes_isolated :
    (∀ (config other : OpenSearchStore.Config) index collection name,
      config.encode collection = .ok index → other.encode name = .ok index →
        config.indexPrefix = other.indexPrefix ∧ collection = name) ∧
    (∀ (config other : ElasticsearchStore.Config) index collection name,
      ElasticsearchStore.getIndexName config collection = .ok index →
        ElasticsearchStore.getIndexName other name = .ok index →
          config.indexPrefix = other.indexPrefix ∧ collection = name) ∧
    (∀ (config other : OpenSearchStore.Config) cluster,
      Cleanup.OpenSearch.validateIndexPrefix config.debug config.indexPrefix =
          .ok () →
        config.indexPrefix ≠ other.indexPrefix →
          OpenSearchStore.SharedBy config other cluster →
            (OpenSearchStore.Conflicts config other cluster →
              OpenSearchStore.Refuses config cluster) ∧
            (¬ OpenSearchStore.Conflicts config other cluster →
              OpenSearchStore.Isolated config cluster)) ∧
    ∀ platform (config other : ElasticsearchStore.Config) backend s,
      ElasticsearchStore.Accepted platform config →
        config.indexPrefix ≠ other.indexPrefix →
          ElasticsearchStore.SharedBy config other s.cluster →
            (ElasticsearchStore.Conflicts config other s.cluster →
              ElasticsearchStore.Refuses platform config backend s) ∧
            (¬ ElasticsearchStore.Conflicts config other s.cluster →
              ElasticsearchStore.Isolated platform config backend s) := by
  refine ⟨?_, ?_, ?_, ?_⟩
  · intro config other index collection name h h'
    exact indexName_inj.mp ((encodeIndexName_eq_ok.mp h).2.1.symm.trans
      (encodeIndexName_eq_ok.mp h').2.1)
  · intro config other index collection name h h'
    exact indexName_inj.mp
      ((ElasticsearchStore.getIndexName_eq_ok.mp h).1.symm.trans
        (ElasticsearchStore.getIndexName_eq_ok.mp h').1)
  · intro config other cluster hvalid hne hshared
    exact ⟨OpenSearchStore.refuses hvalid hne,
      OpenSearchStore.isolated hvalid hne hshared⟩
  · intro platform config other backend s haccepted hne hshared
    exact ⟨ElasticsearchStore.refuses haccepted hne,
      ElasticsearchStore.isolated haccepted hne hshared⟩

namespace Nested

section Rust

open OpenSearchStore

def config (indexPrefix : String) : Config := ⟨fun text => text, indexPrefix⟩

def cluster (indexPrefix : String) : Documents :=
  (∅ : Documents).insert (indexPrefix ++ "-okv1-61") ∅

theorem sharedBy_cluster {lead other : String}
    (h : CreatedBy (config other).encode (other ++ "-okv1-61")) :
    SharedBy (config lead) (config other) (cluster other) := by
  constructor
  · intro index hindex
    rw [List.mem_singleton.mp hindex]
    exact .inr h
  · intro index documents hdocuments id hid
    rw [cluster, KeyedMap.lookup_insert_eq] at hdocuments
    split at hdocuments
    · cases hdocuments
      cases hid
    · cases hdocuments

end Rust

section Python

open ElasticsearchStore Python

def platform : Platform where
  base64 := strictBase64
  outOfRange := yearError
  epochMillis value := value.millis
  inYears value := ⟨value.lower, value.upper⟩
  nowMillis time := time.timestampMillis
  isoformat _ := ""
  lower := String.toLower

def pyConfig (indexPrefix : String) : Config :=
  ⟨indexPrefix, "default_collection", true⟩

def backend : Backend := ⟨id, fun _ => .refl _, fun _ _ => false⟩

def server (indexPrefix : String) : Server :=
  ⟨(∅ : ElasticsearchStore.Documents).insert (indexPrefix ++ "-okv1-61") ∅,
    fun _ => .epoch⟩

theorem sharedBy_server {lead other : String}
    (h : CreatedBy (getIndexName (pyConfig other)) (other ++ "-okv1-61")) :
    SharedBy (pyConfig lead) (pyConfig other) (server other).cluster := by
  intro index hindex
  rw [List.mem_singleton.mp hindex]
  exact .inr h

end Python

theorem begins_apart (rest : String) : "logs" ≠ "kv" ++ rest := by
  intro h
  have hhead := congrArg (fun text => text.toList.head?) h
  simp at hhead

end Nested

open Nested in
/-- Two prefixes of which neither reaches the other. -/
theorem index_prefixes_isolated_apart :
    OpenSearchStore.Isolated (config "kv") (cluster "logs") ∧
      ElasticsearchStore.Isolated platform (pyConfig "kv") backend
        (server "logs") := by
  constructor
  · refine (index_prefixes_isolated.2.2.1 (config "kv") (config "logs")
      (cluster "logs") (by decide +kernel) (by decide)
      (sharedBy_cluster ⟨"a", by decide +kernel⟩)).2 ?_
    rintro ⟨⟨rest, hrest⟩ | hsame, -⟩
    · rw [String.append_assoc] at hrest
      exact absurd hrest (begins_apart _)
    · exact absurd hsame (by decide)
  · refine (index_prefixes_isolated.2.2.2 platform (pyConfig "kv")
      (pyConfig "logs") backend (server "logs") ⟨"kv", by decide +kernel⟩
      (by decide) (sharedBy_server ⟨"a", by decide +kernel⟩)).2 ?_
    rintro ⟨hsame | ⟨rest, hrest⟩, -⟩
    · exact absurd hsame (by decide)
    · rw [String.append_assoc, String.append_assoc] at hrest
      exact absurd hrest (begins_apart _)

open Nested in
/-- A store cannot go on beside another one whose prefix begins with its own;
and two prefixes that differ in case are one. -/
theorem nested_prefixes_refuse :
    (Cleanup.OpenSearch.validateIndexPrefix id "kv" = .ok () ∧
      Cleanup.OpenSearch.validateIndexPrefix id "kv-test" = .ok () ∧
      OpenSearchStore.SharedBy (config "kv") (config "kv-test")
        (cluster "kv-test") ∧
      ∃ error, OpenSearchStore.collections (config "kv") none
        (cluster "kv-test") = .error error) ∧
    (ElasticsearchStore.Accepted platform (pyConfig "kv") ∧
      ElasticsearchStore.Accepted platform (pyConfig "kv-okv1") ∧
      ElasticsearchStore.SharedBy (pyConfig "kv") (pyConfig "kv-okv1")
        (server "kv-okv1").cluster ∧
      ∃ error, Interaction.playCall (ElasticsearchStore.serve backend)
        (ElasticsearchStore.collections (pyConfig "kv") none)
          (server "kv-okv1") = (.error error, server "kv-okv1")) ∧
    ElasticsearchStore.normalizeIndexPrefix platform "KV" = .ok "kv" ∧
    ElasticsearchStore.normalizeIndexPrefix platform "kv" = .ok "kv" := by
  have hother : CreatedBy (config "kv-test").encode "kv-test-okv1-61" :=
    ⟨"a", by decide +kernel⟩
  have hpython : CreatedBy (ElasticsearchStore.getIndexName
      (pyConfig "kv-okv1")) "kv-okv1-okv1-61" := ⟨"a", by decide +kernel⟩
  have haccepted : ElasticsearchStore.Accepted platform (pyConfig "kv") :=
    ⟨"kv", by decide +kernel⟩
  refine ⟨⟨by decide +kernel, by decide +kernel, sharedBy_cluster hother, ?_⟩,
    ⟨haccepted, ⟨"kv-okv1", by decide +kernel⟩, sharedBy_server hpython, ?_⟩,
    by decide +kernel, by decide +kernel⟩
  · refine (OpenSearchStore.refuses (by decide +kernel) (by decide)
      ⟨.inl ⟨"test", by decide⟩, _, ?_, hother⟩).collections none
    exact List.mem_singleton.mpr rfl
  · refine (ElasticsearchStore.refuses haccepted (by decide)
      ⟨.inl (by decide), _, ?_, hpython⟩).collections none
    exact List.mem_singleton.mpr rfl

end OpenKeyV.Search
