import OpenKeyV.Search.ElasticsearchDocuments
import Mathlib.Data.List.Induction

/-!
# Runs of `ElasticsearchStore`

Destruction and enumeration, after any calls made one after the other on a
cluster that was empty.  Reads make indices, destruction leaves them and
deletes documents, and expiry is a matter of the reads alone.
-/

namespace OpenKeyV.Search.ElasticsearchStore

open Library Library.Interaction Python

variable {platform : Platform} {config : Config} {backend : Backend}
  {s : Server} {collection index : String}

/-! ## Fields of a body -/

theorem isText_eq_true {text : String} {value : Option PyValue} :
    isText text value = true ↔ value = some (.str text) := by
  cases value with
  | none => constructor <;> intro h <;> cases h
  | some value =>
      cases value with
      | str other =>
          rw [isText, beq_iff_eq, Option.some.injEq, PyValue.str.injEq]
      | _ => constructor <;> intro h <;> cases h

theorem getDocumentId_inj {key key' id : String}
    (h : getDocumentId key = .ok id) (h' : getDocumentId key' = .ok id) :
    key = key' := by
  have hid : ∀ {key}, getDocumentId key = .ok id →
      id = indexEncodingPrefix ++ Base64Url.encode (utf8 key) := by
    intro key hkey
    unfold getDocumentId at hkey
    simp only at hkey
    split at hkey
    · cases hkey
    · exact (Except.ok.inj hkey).symm
  have hsame := (hid h).symm.trans (hid h')
  exact utf8_injective (Base64Url.encode_injective
    ((String.append_right_inj _).mp hsame))

theorem Lawful.here {id : String} {document : Document}
    (h : Lawful platform config index id document)
    (hname : getIndexName config collection = .ok index) :
    ∃ key loaded, getDocumentId key = .ok id ∧
      getItem "key" document = some (.str key) ∧
      getItem "collection" document = some (.str collection) ∧
      loadDict platform.base64 platform.outOfRange document = .ok loaded := by
  obtain ⟨collection', key, loaded, hname', hid, hkey, hcollection, hloaded⟩ :=
    h
  obtain rfl := (transports_getIndexName config).inj hname' hname
  exact ⟨key, loaded, hid, isText_eq_true.mp hkey,
    isText_eq_true.mp hcollection, hloaded⟩

/-! ## The index of a collection -/

def Opens (config : Config) (s : Server) (index : String) : Prop :=
  config.autoCreate = true ∨ index ∈ s.cluster.keys

def opened (s : Server) (index : String) : Server :=
  if index ∈ s.cluster.keys then s
  else { s with cluster := s.cluster.insert index ∅ }

theorem mem_keys_iff_isSome :
    index ∈ s.cluster.keys ↔ (s.cluster.lookup index).isSome = true := by
  rw [KeyedMap.mem_keys_iff, Option.isSome_iff_exists]

theorem clock_opened : (opened s index).clock = s.clock := by
  unfold opened
  split <;> rfl

theorem lookup_opened : (opened s index).cluster.lookup index =
    some ((s.cluster.lookup index).getD ∅) := by
  unfold opened
  split
  · rename_i hmem
    obtain ⟨documents, hdocuments⟩ := KeyedMap.mem_keys_iff.mp hmem
    rw [hdocuments]
    rfl
  · rename_i habsent
    rw [mem_keys_iff_isSome, Option.not_isSome_iff_eq_none] at habsent
    rw [KeyedMap.lookup_insert_eq, if_pos rfl, habsent]
    rfl

theorem document?_opened {id : String} :
    document? index id (opened s index).cluster =
      document? index id s.cluster := by
  rw [document?, lookup_opened, document?]
  cases s.cluster.lookup index <;> rfl

theorem playCall_setupCollection
    (hname : getIndexName config collection = .ok index)
    (hopens : Opens config s index) :
    playCall (serve backend) (setupCollection config collection) s =
      (.ok (), opened s index) := by
  have hexists : serve backend (.indicesExists index) s =
      ((s.cluster.lookup index).isSome, s) := rfl
  rw [setupCollection, playCall_bind, playCall_attempt, hname]
  simp only
  by_cases hmem : index ∈ s.cluster.keys
  · rw [mem_keys_iff_isSome.mp hmem] at hexists
    rw [opened, if_pos hmem, playCall_bind, playCall_access, hexists]
    rfl
  · have hauto : config.autoCreate = true := hopens.resolve_right hmem
    have hnone : s.cluster.lookup index = none := by
      rwa [mem_keys_iff_isSome, Option.not_isSome_iff_eq_none] at hmem
    have hcreate : serve backend (.indicesCreate index) s =
        (⟨200, [(.str "acknowledged", .bool true),
          (.str "index", .str index)]⟩,
          { s with cluster := s.cluster.insert index ∅ }) := by
      simp only [serve, hnone]
    rw [hnone] at hexists
    rw [opened, if_neg hmem, playCall_bind, playCall_access, hexists]
    simp only [Option.isSome_none, Bool.false_eq_true, if_false, hauto,
      Bool.true_eq_false]
    rw [playCall_bind, playCall_access, hcreate]
    simp [isBool, isText, getItem]

/-! ## Keys -/

def Stored (index : String) (s : Server) (key : String) : Prop :=
  ∃ id document, getDocumentId key = .ok id ∧
    document? index id s.cluster = some document

section Keys

variable {documents : KeyedMap String Document}

theorem hitKey_hit {id key : String} {document : Document}
    (hdocument : documents.lookup id = some document)
    (hid : getDocumentId key = .ok id)
    (hkey : getItem "key" document = some (.str key)) :
    hitKey index (hit index documents id) = .ok key := by
  have hfields : ((documents.lookup id).map hitFields).getD [] =
      [(.str "key", .list [.str key])] := by
    rw [hdocument, Option.map_some, Option.getD_some, hitFields, hkey]
  simp [hitKey, hit, about, getItem, isText, hfields, hid]

theorem hitKeys_hits {ids : List String}
    (h : ∀ id ∈ ids, ∃ key document, documents.lookup id = some document ∧
      getDocumentId key = .ok id ∧
      getItem "key" document = some (.str key)) :
    ∃ names, hitKeys index (ids.map (hit index documents)) = .ok names ∧
      names.map getDocumentId = ids.map .ok := by
  induction ids with
  | nil => exact ⟨[], rfl, rfl⟩
  | cons id ids ih =>
      obtain ⟨key, document, hdocument, hid, hkey⟩ := h id List.mem_cons_self
      obtain ⟨names, hnames, hids⟩ := ih fun other hother =>
        h other (List.mem_cons_of_mem _ hother)
      refine ⟨key :: names, ?_, by rw [List.map_cons, hid, hids,
        List.map_cons]⟩
      rw [List.map_cons, hitKeys, hitKey_hit hdocument hid hkey, hnames]
      rfl

theorem mem_names {names ids : List String} {key : String}
    (h : names.map getDocumentId = ids.map .ok) :
    key ∈ names ↔ ∃ id ∈ ids, getDocumentId key = .ok id := by
  constructor
  · intro hkey
    have hmem : getDocumentId key ∈ ids.map .ok := by
      rw [← h]
      exact List.mem_map_of_mem hkey
    obtain ⟨id, hid, hsame⟩ := List.mem_map.mp hmem
    exact ⟨id, hid, hsame.symm⟩
  · rintro ⟨id, hid, hkey⟩
    have hmem : .ok id ∈ names.map getDocumentId := by
      rw [h]
      exact List.mem_map_of_mem hid
    obtain ⟨key', hkey', hsame⟩ := List.mem_map.mp hmem
    rwa [getDocumentId_inj hkey hsame]

theorem sliceTo_all {names : List String} (h : names.length ≤ 10000) :
    sliceTo (pageSize none) names = names := by
  have hsize : pageSize none = 10000 := rfl
  rw [hsize, sliceTo, if_pos (by decide)]
  exact List.take_of_length_le h

theorem lawful_of_lookup (hown : Own platform config s.cluster)
    (hdocuments : s.cluster.lookup index = some documents) {id : String}
    {document : Document} (h : documents.lookup id = some document) :
    Lawful platform config index id document := by
  refine hown.documents index id document ?_
  rw [document?, hdocuments]
  exact h

theorem retain_term (hown : Own platform config s.cluster)
    (hname : getIndexName config collection = .ok index)
    (hdocuments : s.cluster.lookup index = some documents) {id : String} :
    id ∈ (documents.retain fun _ document =>
      Query.matches backend (.term collection) document).keys ↔
        id ∈ documents.keys := by
  rw [KeyedMap.mem_keys_retain, and_iff_left_iff_imp]
  intro hid
  obtain ⟨document, hdocument⟩ := KeyedMap.mem_keys_iff.mp hid
  obtain ⟨_, _, -, -, hcollection, -⟩ :=
    (lawful_of_lookup hown hdocuments hdocument).here hname
  rw [hdocument]
  exact isText_eq_true.mpr hcollection

theorem playCall_getCollectionKeys (hown : Own platform config s.cluster)
    (hname : getIndexName config collection = .ok index)
    (hdocuments : s.cluster.lookup index = some documents)
    (hsize : documents.size ≤ 10000) :
    ∃ names, playCall (serve backend)
        (getCollectionKeys config collection none) s = (.ok names, s) ∧
      names.Nodup ∧ ∀ key, key ∈ names ↔ Stored index s key := by
  have hperm := backend.perm (documents.retain fun _ document =>
    Query.matches backend (.term collection) document).keys
  have hlimit : pageLimit.toNat = 10000 := rfl
  have hlength : (backend.arrange (documents.retain fun _ document =>
      Query.matches backend (.term collection) document).keys).length ≤
        10000 := by
    rw [hperm.length_eq]
    exact (KeyedMap.keys_retain_sublist _ documents).length_le.trans hsize
  have hmem : ∀ id, id ∈ backend.arrange (documents.retain fun _ document =>
      Query.matches backend (.term collection) document).keys ↔
        ∃ document, documents.lookup id = some document := fun id =>
    hperm.mem_iff.trans ((retain_term hown hname hdocuments).trans
      KeyedMap.mem_keys_iff)
  obtain ⟨names, hnames, hids⟩ := @hitKeys_hits index documents
    (backend.arrange (documents.retain fun _ document =>
      Query.matches backend (.term collection) document).keys) (by
    intro id hid
    obtain ⟨document, hdocument⟩ := (hmem id).mp hid
    obtain ⟨key, _, hkey, hfield, -⟩ :=
      (lawful_of_lookup hown hdocuments hdocument).here hname
    exact ⟨key, document, hdocument, hkey, hfield⟩)
  have hcount : names.length ≤ 10000 := by
    have hsame := congrArg List.length hids
    rw [List.length_map, List.length_map] at hsame
    rwa [hsame]
  have hsearched : searchedKeys index (searchResponse backend index
      (.term collection) 10000 documents).body = .ok names := by
    simp only [searchResponse, List.take_of_length_le hlength]
    exact hnames
  refine ⟨names, ?_, ?_, fun key => ?_⟩
  · rw [getCollectionKeys, playCall_bind, playCall_attempt, hname]
    simp only
    rw [playCall_bind, playCall_access]
    simp only [serve, hdocuments, hlimit]
    rw [playCall_bind, playCall_attempt, hsearched]
    simp only
    rw [sliceTo_all hcount]
    rfl
  · refine List.Nodup.of_map getDocumentId ?_
    rw [hids]
    refine List.Nodup.map (fun _ _ h => Except.ok.inj h) ?_
    exact hperm.nodup_iff.mpr (AList.keys_nodup _)
  · rw [mem_names hids]
    constructor
    · rintro ⟨id, hid, hkey⟩
      obtain ⟨document, hdocument⟩ := (hmem id).mp hid
      refine ⟨id, document, hkey, ?_⟩
      rw [document?, hdocuments]
      exact hdocument
    · rintro ⟨id, document, hkey, hdocument⟩
      rw [document?, hdocuments] at hdocument
      exact ⟨id, (hmem id).mpr ⟨document, hdocument⟩, hkey⟩

end Keys

theorem own_opened (hown : Own platform config s.cluster)
    (hname : getIndexName config collection = .ok index) :
    Own platform config (opened s index).cluster := by
  unfold opened
  split
  · exact hown
  · exact hown.created ⟨collection, hname⟩

theorem stored_opened {key : String} :
    Stored index (opened s index) key ↔ Stored index s key := by
  unfold Stored
  simp only [document?_opened]

def Listable (index : String) (s : Server) : Prop :=
  ∀ documents, s.cluster.lookup index = some documents →
    documents.size ≤ 10000

theorem playCall_keys {name : Option String}
    (hown : Own platform config s.cluster)
    (hname : getIndexName config (collectionName config name) = .ok index)
    (hopens : Opens config s index) (hsize : Listable index s) :
    ∃ names, playCall (serve backend) (keys config name none) s =
        (.ok names, opened s index) ∧
      names.Nodup ∧ ∀ key, key ∈ names ↔ Stored index s key := by
  have hcount : ((s.cluster.lookup index).getD ∅).size ≤ 10000 := by
    cases hlookup : s.cluster.lookup index with
    | none => exact Nat.zero_le _
    | some documents => exact hsize documents hlookup
  obtain ⟨names, hplay, hnodup, hmem⟩ := @playCall_getCollectionKeys platform
    config backend (opened s index) _ index _ (own_opened hown hname) hname
    lookup_opened hcount
  refine ⟨names, ?_, hnodup, fun key => (hmem key).trans stored_opened⟩
  rw [keys, playCall_bind, playCall_setupCollection hname hopens]
  exact hplay

/-! ## Reads -/

def Finds (platform : Platform) (config : Config) (backend : Backend)
    (name : Option String) (s : Server) (key : String) : Prop :=
  ∃ entry s', playCall (serve backend)
    (unexpiredEntry platform config key name) s = (.ok (some entry), s')

def Expired (platform : Platform) (index : String) (s : Server)
    (key : String) : Prop :=
  ∃ id document entry, getDocumentId key = .ok id ∧
    document? index id s.cluster = some document ∧
    loadDict platform.base64 platform.outOfRange document = .ok entry ∧
    isExpired platform entry (s.clock 0) = true

theorem Expired.stored {key : String}
    (h : Expired platform index s key) : Stored index s key := by
  obtain ⟨id, document, -, hid, hdocument, -⟩ := h
  exact ⟨id, document, hid, hdocument⟩

section Reads

variable {key id : String} {document : Document} {entry : PyManagedEntry}

theorem playCall_get_none
    (hname : getIndexName config collection = .ok index)
    (hid : getDocumentId key = .ok id)
    (hmem : index ∈ s.cluster.keys)
    (hnone : document? index id s.cluster = none) :
    playCall (serve backend)
      (getManagedEntry platform config key collection) s = (.ok none, s) := by
  obtain ⟨documents, hdocuments⟩ := KeyedMap.mem_keys_iff.mp hmem
  rw [document?, hdocuments, Option.bind_some] at hnone
  have hserve : serve backend (.get index id) s =
      (⟨404, about index id [(.str "found", .bool false)]⟩, s) := by
    simp only [serve, hdocuments, hnone]
  rw [getManagedEntry, playCall_bind, playCall_attempt, hname]
  simp only
  rw [playCall_bind, playCall_attempt, hid]
  simp only
  rw [playCall_bind, playCall_access, hserve]
  simp [about, isText, isBool, getItem]

theorem playCall_get_some
    (hname : getIndexName config collection = .ok index)
    (hid : getDocumentId key = .ok id)
    (hkey : getItem "key" document = some (.str key))
    (hcollection : getItem "collection" document = some (.str collection))
    (hloaded : loadDict platform.base64 platform.outOfRange document =
      .ok entry)
    (hsome : document? index id s.cluster = some document) :
    playCall (serve backend)
      (getManagedEntry platform config key collection) s =
        (.ok (some entry), s) := by
  obtain ⟨documents, hdocuments, hdocument⟩ :=
    Option.bind_eq_some_iff.mp hsome
  have hserve : serve backend (.get index id) s = (⟨200, about index id
      [(.str "found", .bool true), (.str "_source", .dict document)]⟩, s) := by
    simp only [serve, hdocuments, hdocument]
  have hsource : checkedSource platform key collection
      (some (.dict document)) = .ok entry := by
    rw [checkedSource, if_neg, hloaded]
    · rfl
    · rw [hkey, hcollection]
      simp [isText]
  rw [getManagedEntry, playCall_bind, playCall_attempt, hname]
  simp only
  rw [playCall_bind, playCall_attempt, hid]
  simp only
  rw [playCall_bind, playCall_access, hserve]
  simp only [isText, getItem, about, PyKey.str.injEq, String.reduceEq,
    decide_false, Bool.false_eq_true, not_false_eq_true,
    List.find?_cons_of_neg, decide_true, List.find?_cons_of_pos,
    Option.map_some, BEq.rfl, Bool.true_eq_false, ↓reduceIte, isBool,
    beq_false, Bool.not_true]
  rw [playCall_bind, playCall_attempt, hsource]
  rfl

theorem finds_iff {name : Option String}
    (hown : Own platform config s.cluster)
    (hname : getIndexName config (collectionName config name) = .ok index)
    (hopens : Opens config s index) :
    Finds platform config backend name s key ↔
      Stored index s key ∧ ¬ Expired platform index s key := by
  unfold Finds
  cases hid : getDocumentId key with
  | error error =>
      constructor
      · rintro ⟨entry, s', hplay⟩
        rw [unexpiredEntry, playCall_bind, playCall_attempt, hid] at hplay
        cases hplay
      · rintro ⟨⟨id, _, hid', -⟩, -⟩
        rw [hid] at hid'
        cases hid'
  | ok id =>
      have hmem : index ∈ (opened s index).cluster.keys :=
        KeyedMap.mem_keys_iff.mpr ⟨_, lookup_opened⟩
      rw [unexpiredEntry, playCall_bind, playCall_attempt, hid]
      simp only
      rw [playCall_bind_ok _ (playCall_setupCollection hname hopens)]
      cases hdocument : document? index id s.cluster with
      | none =>
          rw [playCall_bind_ok _ (playCall_get_none hname hid hmem
            (document?_opened.trans hdocument))]
          constructor
          · rintro ⟨entry, s', hplay⟩
            cases hplay
          · rintro ⟨⟨id', _, hid', hdocument'⟩, -⟩
            obtain rfl := Except.ok.inj (hid.symm.trans hid')
            rw [hdocument] at hdocument'
            cases hdocument'
      | some document =>
          obtain ⟨key', entry, hid', hkey, hcollection, hloaded⟩ :=
            (hown.documents index id document hdocument).here hname
          obtain rfl := getDocumentId_inj hid' hid
          rw [playCall_bind_ok _ (playCall_get_some hname hid hkey hcollection
            hloaded (document?_opened.trans hdocument))]
          have hnow : serve backend .now (opened s index) = (s.clock 0,
              { opened s index with clock := fun n => s.clock (n + 1) }) := by
            rw [serve, clock_opened]
          have hexpired : Expired platform index s key' ↔
              isExpired platform entry (s.clock 0) = true := by
            constructor
            · rintro ⟨id', document', entry', hid', hdocument', hloaded', h⟩
              obtain rfl := Except.ok.inj (hid.symm.trans hid')
              obtain rfl := Option.some.inj (hdocument.symm.trans hdocument')
              obtain rfl := Except.ok.inj (hloaded.symm.trans hloaded')
              exact h
            · exact fun h => ⟨id, document, entry, hid, hdocument, hloaded, h⟩
          rw [hexpired, now, playCall_bind, playCall_access, hnow]
          simp only
          cases isExpired platform entry (s.clock 0) with
          | true =>
              refine iff_of_false ?_ fun h => h.2 rfl
              rintro ⟨entry', s', hplay⟩
              cases hplay
          | false =>
              refine iff_of_true ⟨entry, _, rfl⟩ ⟨⟨id, document, hid,
                hdocument⟩, fun h => by cases h⟩

end Reads

/-! ## Destruction -/

section Destruction

variable {documents : KeyedMap String Document}

theorem exists_stored (hown : Own platform config s.cluster)
    (hname : getIndexName config collection = .ok index)
    (hdocuments : s.cluster.lookup index = some documents) :
    0 < documents.size ↔ ∃ key, Stored index s key := by
  have hstored : ∀ id document, document? index id s.cluster = some document ↔
      documents.lookup id = some document := by
    intro id document
    rw [document?, hdocuments, Option.bind_some]
  constructor
  · intro hpos
    obtain ⟨id, hid⟩ := List.exists_mem_of_length_pos hpos
    obtain ⟨document, hdocument⟩ := KeyedMap.mem_keys_iff.mp hid
    obtain ⟨key, _, hkey, -⟩ :=
      (lawful_of_lookup hown hdocuments hdocument).here hname
    exact ⟨key, id, document, hkey, (hstored id document).mpr hdocument⟩
  · rintro ⟨key, id, document, -, hdocument⟩
    exact List.length_pos_of_mem (KeyedMap.mem_keys_iff.mpr
      ⟨document, (hstored id document).mp hdocument⟩)

theorem matched_term (hown : Own platform config s.cluster)
    (hname : getIndexName config collection = .ok index)
    (hdocuments : s.cluster.lookup index = some documents) :
    matched backend s.cluster (.term collection) index = documents.size := by
  rw [matched, hdocuments, Option.getD_some]
  exact KeyedMap.size_congr fun id => retain_term hown hname hdocuments

theorem lookup_destroyed (hown : Own platform config s.cluster)
    (hname : getIndexName config collection = .ok index)
    (hdocuments : s.cluster.lookup index = some documents) :
    ∃ rest, (s.deleteByQuery backend (.term collection)
        [index]).cluster.lookup index = some rest ∧ rest.keys = [] := by
  refine ⟨documents.retain fun _ document =>
    !Query.matches backend (.term collection) document, ?_, ?_⟩
  · rw [Server.deleteByQuery, Cluster.deleteByQuery, List.foldl_cons,
      List.foldl_nil]
    unfold Cluster.deleteIn
    rw [hdocuments]
    exact (KeyedMap.lookup_insert_eq ..).trans (if_pos rfl)
  · refine List.eq_nil_iff_forall_not_mem.mpr fun id hid => ?_
    obtain ⟨document, hdocument⟩ := KeyedMap.mem_keys_iff.mp hid
    rw [KeyedMap.lookup_retain, Option.filter_eq_some_iff] at hdocument
    obtain ⟨_, _, -, -, hcollection, -⟩ :=
      (lawful_of_lookup hown hdocuments hdocument.1).here hname
    have hmatch : Query.matches backend (.term collection) document = true :=
      isText_eq_true.mpr hcollection
    rw [hmatch] at hdocument
    cases hdocument.2

theorem playCall_destroyCollection (hown : Own platform config s.cluster)
    (hname : getIndexName config collection = .ok index)
    (hmem : index ∈ s.cluster.keys) :
    ∃ existed s', playCall (serve backend)
        (destroyCollection config collection) s = (.ok existed, s') ∧
      (existed = true ↔ ∃ key, Stored index s key) ∧
      playCall (serve backend) (keys config (some collection) none) s' =
        (.ok [], s') := by
  obtain ⟨documents, hdocuments⟩ := KeyedMap.mem_keys_iff.mp hmem
  obtain ⟨rest, hrest, hempty⟩ :=
    @lookup_destroyed platform config backend s _ index _ hown hname hdocuments
  refine ⟨decide (0 < matched backend s.cluster (.term collection) index),
    s.deleteByQuery backend (.term collection) [index], ?_, ?_, ?_⟩
  · rw [destroyCollection, playCall_bind, playCall_attempt, hname]
    exact playCall_deleteCollection hname hmem
  · rw [decide_eq_true_iff, matched_term hown hname hdocuments]
    exact exists_stored hown hname hdocuments
  · have hown' := hown.deleteByQuery
      (Query.matches backend (.term collection)) [index]
    have hthere := KeyedMap.mem_keys_iff.mpr ⟨rest, hrest⟩
    obtain ⟨names, hplay, -, hmem⟩ := @playCall_keys platform config backend
      (s.deleteByQuery backend (.term collection) [index]) index
      (some collection) hown' hname (.inr hthere) (by
      intro documents' hdocuments'
      obtain rfl := Option.some.inj (hrest.symm.trans hdocuments')
      rw [KeyedMap.size, hempty]
      exact Nat.zero_le _)
    have hnames : names = [] := by
      refine List.eq_nil_iff_forall_not_mem.mpr fun key hkey => ?_
      obtain ⟨id, document, -, hdocument⟩ := (hmem key).mp hkey
      rw [document?, hrest] at hdocument
      have hid := KeyedMap.mem_keys_iff.mpr ⟨document, hdocument⟩
      rw [hempty] at hid
      cases hid
    rw [hplay, hnames, opened, if_pos hthere]

theorem isolated_alone (haccepted : Accepted platform config)
    (hown : Own platform config s.cluster) :
    Isolated platform config backend s := by
  refine @isolated platform config
    { config with indexPrefix := config.indexPrefix ++ "x" } backend s
      haccepted ?_ (fun index hindex => .inl (hown.indices index hindex)) ?_
  · intro hsame
    have hlength := congrArg String.length hsame
    rw [String.length_append] at hlength
    exact absurd hlength (by simp)
  · rintro ⟨hreaches | ⟨rest, hreaches⟩, -⟩
    · exact absurd ((String.append_right_inj _).mp hreaches) (by decide)
    · rw [String.append_assoc, String.append_assoc] at hreaches
      have hhead := congrArg (fun text => text.toList.head?)
        ((String.append_right_inj _).mp hreaches)
      simp at hhead

end Destruction

/-! ## Runs -/

inductive Call where
  | get (key : String) (collection : Option String)
  | put (key : String) (value : PyValue) (collection : Option String)
      (ttl : Option SupportsFloat)
  | putMany (keys : List String) (values : List PyValue)
      (collection : Option String) (ttl : Option SupportsFloat)
  | delete (key : String) (collection : Option String)
  | deleteMany (keys : List String) (collection : Option String)
  | keys (collection : Option String) (limit : Option Int)
  | collections (limit : Option Int)
  | destroyCollection (collection : String)
  | destroy

/-- What `validatePayload` requires of a value fits in memory. -/
def Call.FitsMemory : Call → Prop
  | .put _ value _ _ => Python.FitsMemory value
  | .putMany _ values _ _ => ∀ value ∈ values, Python.FitsMemory value
  | _ => True

section Runs

variable (platform : Platform) (config : Config) (backend : Backend)

def perform : Call → Requests Unit
  | .get key collection => do
      let _ ← ElasticsearchStore.get platform config key collection
  | .put key value collection ttl =>
      ElasticsearchStore.put platform config key value collection ttl
  | .putMany keys values collection ttl =>
      ElasticsearchStore.putMany platform config keys values collection ttl
  | .delete key collection => do
      let _ ← ElasticsearchStore.delete config key collection
  | .deleteMany keys collection => do
      let _ ← ElasticsearchStore.deleteMany config keys collection
  | .keys collection limit => do
      let _ ← ElasticsearchStore.keys config collection limit
  | .collections limit => do
      let _ ← ElasticsearchStore.collections config limit
  | .destroyCollection collection => do
      let _ ← ElasticsearchStore.destroyCollection config collection
  | .destroy => do
      let _ ← ElasticsearchStore.destroy config

def after (start : Server) (calls : List Call) : Server :=
  calls.foldl (fun s call =>
    (playCall (serve backend) (perform platform config call) s).2) start

structure Enumerates (s : Server) : Prop where
  destroyCollection : ∀ collection index,
    getIndexName config collection = .ok index → index ∈ s.cluster.keys →
      ∃ existed s', playCall (serve backend)
          (destroyCollection config collection) s = (.ok existed, s') ∧
        (existed = true ↔ ∃ key, Stored index s key) ∧
        playCall (serve backend) (keys config (some collection) none) s' =
          (.ok [], s')
  destroy : ∃ s', playCall (serve backend) (destroy config) s = (.ok true, s')
  keys : ∀ name index,
    getIndexName config (collectionName config name) = .ok index →
      Opens config s index → Listable index s →
        ∃ names s', playCall (serve backend) (keys config name none) s =
            (.ok names, s') ∧
          names.Nodup ∧
          ∀ key, (key ∈ names ↔ Stored index s key) ∧
            (Finds platform config backend name s key ↔
              key ∈ names ∧ ¬ Expired platform index s key)

end Runs

theorem sends_perform {call : Call} (h : call.FitsMemory) :
    Sends platform config (perform platform config call) := by
  cases call with
  | get key collection =>
      refine Allowed.bind ?_ fun _ => allowed_pure _
      refine sends_unexpiredEntry.bind fun entry => ?_
      cases entry <;> exact allowed_pure _
  | put key value collection ttl => exact sends_put h
  | putMany keys values collection ttl => exact sends_putMany h
  | delete key collection =>
      exact sends_delete.bind fun _ => allowed_pure _
  | deleteMany keys collection =>
      exact sends_deleteMany.bind fun _ => allowed_pure _
  | keys collection limit => exact sends_keys.bind fun _ => allowed_pure _
  | collections limit =>
      exact sends_collections.bind fun _ => allowed_pure _
  | destroyCollection collection =>
      refine Allowed.bind ?_ fun _ => allowed_pure _
      exact (allowed_attempt _).bind fun _ => sends_deleteCollection
  | destroy =>
      refine Allowed.bind ?_ fun _ => allowed_pure _
      refine sends_collections.bind fun names => ?_
      exact (sends_deleteCollections names).bind fun _ => allowed_pure _

theorem own_after {start : Server} {calls : List Call}
    (hstart : Own platform config start.cluster)
    (hcalls : ∀ call ∈ calls, call.FitsMemory) :
    Own platform config
      (after platform config backend start calls).cluster := by
  induction calls using List.reverseRecOn with
  | nil => exact hstart
  | append_singleton calls call ih =>
      rw [after, List.foldl_append, List.foldl_cons, List.foldl_nil]
      have hlast : call.FitsMemory :=
        hcalls call (List.mem_append_right _ List.mem_cons_self)
      have hbefore := ih fun other hother =>
        hcalls other (List.mem_append_left _ hother)
      exact @Allowed.preserves _ _ _ _ _ _ _
        (fun s => Own platform config s.cluster) (serve backend) own_serve
        (sends_perform hlast) _ hbefore

theorem enumerates_of_own (haccepted : Accepted platform config)
    (hown : Own platform config s.cluster) :
    Enumerates platform config backend s := by
  constructor
  case destroyCollection =>
    intro collection index hname hmem
    exact playCall_destroyCollection hown hname hmem
  case destroy =>
    obtain ⟨s', hplay, -⟩ :=
      (@isolated_alone platform config backend s haccepted hown).destroy
    exact ⟨s', hplay⟩
  case keys =>
    intro name index hname hopens hsize
    obtain ⟨names, hplay, hnodup, hmem⟩ :=
      playCall_keys hown hname hopens hsize
    refine ⟨names, _, hplay, hnodup, fun key => ⟨hmem key, ?_⟩⟩
    rw [hmem]
    exact finds_iff hown hname hopens

/-! ## When the calls do what their names say -/

section Exactly

variable (platform : Platform) (config : Config) (backend : Backend)

/-- `destroy_collection` tells whether the collection held a document, and
`keys` is empty right after it. -/
def Destroys (s : Server) (collection index : String) : Prop :=
  ∃ existed s', playCall (serve backend)
      (destroyCollection config collection) s = (.ok existed, s') ∧
    (existed = true ↔ ∃ key, Stored index s key) ∧
    playCall (serve backend) (keys config (some collection) none) s' =
      (.ok [], s')

/-- `keys` lists the keys of which `get` finds an entry, each once. -/
def ListsFound (s : Server) (name : Option String) : Prop :=
  ∃ names s', playCall (serve backend) (keys config name none) s =
      (.ok names, s') ∧ names.Nodup ∧
    ∀ key, key ∈ names ↔ Finds platform config backend name s key

/-- `destroy` does not raise, `destroy_collection` does what it says exactly
when the index is there, and `keys` lists what `get` finds exactly when the
index can be opened and no document of it has expired. -/
structure Follows (s : Server) : Prop where
  destroy : ∃ s', playCall (serve backend) (destroy config) s = (.ok true, s')
  destroyCollection : ∀ collection index,
    getIndexName config collection = .ok index →
      (Destroys config backend s collection index ↔ index ∈ s.cluster.keys)
  keys : ∀ name index,
    getIndexName config (collectionName config name) = .ok index →
      Listable index s →
        (ListsFound platform config backend s name ↔
          Opens config s index ∧ ∀ key, ¬ Expired platform index s key)

end Exactly

/-- The tolerated answer of a missing index is taken for a time-out. -/
theorem playCall_destroyCollection_missing
    (hname : getIndexName config collection = .ok index)
    (hmissing : index ∉ s.cluster.keys) :
    (playCall (serve backend) (destroyCollection config collection) s).1 =
      .error (.storeConnectionError
        "Elasticsearch delete-by-query timed out") := by
  have hlookup : s.cluster.lookup index = none := by
    rwa [mem_keys_iff_isSome, Option.not_isSome_iff_eq_none] at hmissing
  have hserve : serve backend (.deleteByQuery [index] (.term collection)) s =
      (missingIndex, s) := by
    simp [serve, hlookup]
  rw [destroyCollection, playCall_bind, playCall_attempt, hname]
  simp only
  rw [deleteCollection, playCall_bind, playCall_attempt, hname]
  simp only
  rw [playCall_bind, playCall_access, hserve]
  rfl

theorem playCall_keys_closed {name : Option String}
    (hname : getIndexName config (collectionName config name) = .ok index)
    (hclosed : ¬ Opens config s index) :
    ∃ error, (playCall (serve backend) (keys config name none) s).1 =
      .error error := by
  obtain ⟨hauto, hmissing⟩ := not_or.mp hclosed
  have hlookup : s.cluster.lookup index = none := by
    rwa [mem_keys_iff_isSome, Option.not_isSome_iff_eq_none] at hmissing
  have hexists : serve backend (.indicesExists index) s = (false, s) := by
    simp [serve, hlookup]
  rw [Bool.not_eq_true] at hauto
  rw [keys, setupCollection, playCall_bind, playCall_bind, playCall_attempt,
    hname]
  simp only
  rw [playCall_bind, playCall_access, hexists]
  simp only [Bool.false_eq_true, if_false, hauto, if_true]
  exact ⟨_, rfl⟩

theorem destroys_iff (hown : Own platform config s.cluster)
    (hname : getIndexName config collection = .ok index) :
    Destroys config backend s collection index ↔ index ∈ s.cluster.keys := by
  constructor
  · rintro ⟨existed, s', hplay, -⟩
    by_contra hmissing
    have hraises : (playCall (serve backend)
        (destroyCollection config collection) s).1 = .error _ :=
      playCall_destroyCollection_missing hname hmissing
    rw [hplay] at hraises
    cases hraises
  · exact playCall_destroyCollection hown hname

theorem listsFound_iff {name : Option String}
    (hown : Own platform config s.cluster)
    (hname : getIndexName config (collectionName config name) = .ok index)
    (hsize : Listable index s) :
    ListsFound platform config backend s name ↔
      Opens config s index ∧ ∀ key, ¬ Expired platform index s key := by
  by_cases hopens : Opens config s index
  · obtain ⟨names, hplay, hnodup, hmem⟩ :=
      @playCall_keys platform config backend s index name hown hname hopens
        hsize
    have hfinds := fun key =>
      @finds_iff platform config backend s index key name hown hname hopens
    constructor
    · rintro ⟨names', s', hplay', -, hlists⟩
      cases hplay.symm.trans hplay'
      refine ⟨hopens, fun key hexpired => ?_⟩
      have hlisted : key ∈ names := (hmem key).mpr hexpired.stored
      exact ((hfinds key).mp ((hlists key).mp hlisted)).2 hexpired
    · rintro ⟨-, hfresh⟩
      refine ⟨names, _, hplay, hnodup, fun key => ?_⟩
      rw [hmem, hfinds]
      exact ⟨fun hstored => ⟨hstored, hfresh key⟩, And.left⟩
  · refine iff_of_false ?_ fun h => hopens h.1
    rintro ⟨names, s', hplay, -⟩
    obtain ⟨error, herror⟩ :=
      @playCall_keys_closed config backend s index name hname hopens
    rw [hplay] at herror
    cases herror

/-- After any calls, `destroy` does not raise; `destroy_collection` follows
the contract exactly when the index of the collection is there; and `keys` does
exactly when its index can be opened and no document of it has expired.  What
is listed otherwise, or told, is pinned down as well: the keys of all
documents, of which `get` finds those that have not expired. -/
theorem destruction_enumeration {start : Server} {calls : List Call}
    (haccepted : Accepted platform config)
    (hstart : Own platform config start.cluster)
    (hcalls : ∀ call ∈ calls, call.FitsMemory) :
    Follows platform config backend
        (after platform config backend start calls) ∧
      Enumerates platform config backend
        (after platform config backend start calls) := by
  have hown := @own_after platform config backend start calls hstart hcalls
  have henumerates := @enumerates_of_own platform config backend _ haccepted
    hown
  exact ⟨⟨henumerates.destroy, fun _ _ => destroys_iff hown,
    fun _ _ => listsFound_iff hown⟩, henumerates⟩

namespace Aged

def clock : Nat → DateTime
  | 0 => .epoch
  | _ => ⟨10000000000, by decide, by decide⟩

def start : Server := ⟨∅, clock⟩

def second : SupportsFloat := .ofF64 (.finite 1)

def aged : Server :=
  after Nested.platform (Nested.pyConfig "kv") Nested.backend start
    [.put "key" .none none (some second)]

end Aged

open Aged in
theorem destruction_enumeration_aged :
    Follows Nested.platform (Nested.pyConfig "kv") Nested.backend aged ∧
      Enumerates Nested.platform (Nested.pyConfig "kv") Nested.backend aged :=
  destruction_enumeration ⟨"kv", by decide +kernel⟩ own_empty (by
    intro call hcall
    rw [List.mem_singleton.mp hcall]
    rintro value ⟨⟩
    decide)

open Aged in
/-- The collection of a store that has made no index cannot be destroyed, and
a key is still listed when its entry has expired. -/
theorem missing_raises_expired_listed :
    (∃ message, (playCall (serve Nested.backend)
      (destroyCollection (Nested.pyConfig "kv") "c") start).1 =
        .error (.storeConnectionError message)) ∧
    (playCall (serve Nested.backend)
        (keys (Nested.pyConfig "kv") none none) aged).1 = .ok ["key"] ∧
      ¬ Finds Nested.platform (Nested.pyConfig "kv") Nested.backend none aged
        "key" := by
  refine ⟨⟨_, rfl⟩, by decide +kernel, ?_⟩
  rintro ⟨entry, s', hplay⟩
  have hnone : (playCall (serve Nested.backend) (unexpiredEntry
      Nested.platform (Nested.pyConfig "kv") "key" none) aged).1.map
        Option.isSome = .ok false := by
    decide +kernel
  rw [hplay] at hnone
  cases hnone

end OpenKeyV.Search.ElasticsearchStore
