import OpenKeyV.DynamoDB.Service
import OpenKeyV.FileTree.Components
import OpenKeyV.Mongo.Store
import OpenKeyV.Search.OpenSearch

/-!
# Physical names

Four stores write logical names in hexadecimal or in Base64 and read them
back.  What a decoder accepts is exactly what its encoder makes.
-/

namespace OpenKeyV

open Library

structure Transports {ε α β : Type} (encode : α → Except ε β)
    (decode : β → Except ε α) : Prop where
  decode_encode : ∀ {value physical}, encode value = .ok physical →
    decode physical = .ok value
  encode_decode : ∀ {value physical}, decode physical = .ok value →
    encode value = .ok physical

namespace Transports

variable {ε α β : Type} {encode : α → Except ε β} {decode : β → Except ε α}

theorem inj (h : Transports encode decode) {first second : α} {physical : β}
    (hfirst : encode first = .ok physical)
    (hsecond : encode second = .ok physical) : first = second :=
  Except.ok.inj ((h.decode_encode hfirst).symm.trans (h.decode_encode hsecond))

end Transports

namespace FileTree

/-- A name that stands for itself in a path. -/
def SafeSegment (component : String) : Prop :=
  (∀ c ∈ component.toList, c = '-' ∨ c.isLower = true ∨ c.isDigit = true) ∧
    component ≠ "." ∧ component ≠ ".." ∧ component.utf8ByteSize ≤ 255

theorem transports_component (kind : String) :
    Transports (fun value => (encodeComponent value kind).map utf8)
      (decodeComponent · kind) where
  decode_encode {value physical} h := by
    refine decodeComponent_eq_ok.mpr ?_
    cases hencode : encodeComponent value kind with
    | error error =>
        rw [hencode] at h
        cases h
    | ok component =>
        rw [hencode] at h
        cases h
        exact ⟨component, rfl, rfl⟩
  encode_decode {value physical} h := by
    obtain ⟨component, hencode, rfl⟩ := decodeComponent_eq_ok.mp h
    simp only [hencode, Except.map]

theorem encodeComponent_safe {value kind component : String}
    (h : encodeComponent value kind = .ok component) :
    SafeSegment component := by
  have hclass : (("okv1-".toList ++ Hex.alphabet).all fun c =>
      c == '-' || (c.isLower || c.isDigit)) = true := by decide
  have hplain : ∀ c ∈ component.toList,
      c = '-' ∨ c.isLower = true ∨ c.isDigit = true := by
    intro c hc
    have hchar := List.all_eq_true.mp hclass c (mem_component h hc)
    rw [Bool.or_eq_true, Bool.or_eq_true, beq_iff_eq] at hchar
    exact hchar
  refine ⟨hplain, ?_, ?_, (encodeComponent_eq_ok.mp h).2⟩
  · rintro rfl
    exact absurd (hplain '.' (by decide)) (by decide)
  · rintro rfl
    exact absurd (hplain '.' (by decide)) (by decide)

theorem encodeComponent_inj {first second kind component : String}
    (hfirst : encodeComponent first kind = .ok component)
    (hsecond : encodeComponent second kind = .ok component) :
    first = second := by
  have hmap : ∀ {value}, encodeComponent value kind = .ok component →
      (encodeComponent value kind).map utf8 = .ok (utf8 component) := by
    intro value h
    rw [h, Except.map]
  exact (transports_component kind).inj (hmap hfirst) (hmap hsecond)

end FileTree

namespace DynamoDB

theorem decodePhysicalIdentity_eq_ok {value kind physical : String}
    {maxBytes : Nat}
    (h : decodePhysicalIdentity physical kind maxBytes = .ok value) :
    encodePhysicalIdentity value kind maxBytes = .ok physical := by
  unfold decodePhysicalIdentity at h
  split at h
  · cases h
  · split at h
    · cases h
    · split at h
      · cases h
      · split at h
        · cases h
        · split at h
          · cases h
          · obtain ⟨canonical, hcanonical, h⟩ := bind_eq_ok.mp h
            split at h
            · cases h
            · rename_i hsame
              cases h
              rw [hcanonical, not_ne_iff.mp hsame]

theorem transports_physicalIdentity (kind : String) (maxBytes : Nat) :
    Transports (encodePhysicalIdentity · kind maxBytes)
      (decodePhysicalIdentity · kind maxBytes) :=
  ⟨decodePhysicalIdentity_encode, decodePhysicalIdentity_eq_ok⟩

theorem tryPrimaryKey_inj {collection collection' key key' : String}
    {address : PrimaryKey} (h : tryPrimaryKey collection key = .ok address)
    (h' : tryPrimaryKey collection' key' = .ok address) :
    collection = collection' ∧ key = key' := by
  obtain ⟨physical, hcollection, hrest⟩ := bind_eq_ok.mp h
  obtain ⟨physicalKey, hkey, hdone⟩ := bind_eq_ok.mp hrest
  cases hdone
  obtain ⟨physical', hcollection', hrest'⟩ := bind_eq_ok.mp h'
  obtain ⟨physicalKey', hkey', hdone'⟩ := bind_eq_ok.mp hrest'
  cases hdone'
  exact ⟨(transports_physicalIdentity ..).inj hcollection hcollection',
    (transports_physicalIdentity ..).inj hkey hkey'⟩

end DynamoDB

namespace Search

open Cleanup.OpenSearch OpenSearchStore

theorem encodeIndexName_eq_ok {debug : String → String}
    {lead collection index : String} :
    encodeIndexName debug lead collection = .ok index ↔
      validateIndexPrefix debug lead = .ok () ∧
        index = lead ++ indexMarker ++ Hex.encode (utf8 collection) ∧
        index.utf8ByteSize ≤ maxIndexBytes := by
  have hsize : (lead ++ indexMarker ++
      Hex.encode (utf8 collection)).utf8ByteSize = lead.utf8ByteSize +
        indexMarker.utf8ByteSize + collection.utf8ByteSize * 2 := by
    rw [String.utf8ByteSize_append, String.utf8ByteSize_append,
      Hex.utf8ByteSize_encode, length_utf8]
  unfold encodeIndexName
  rw [bind_eq_ok]
  constructor
  · rintro ⟨⟨⟩, hvalid, h⟩
    simp only at h
    split at h
    · cases h
    · rename_i hlong
      cases h
      refine ⟨hvalid, rfl, ?_⟩
      exact hsize.le.trans (Nat.not_lt.mp hlong)
  · rintro ⟨hvalid, rfl, hshort⟩
    rw [hsize] at hshort
    exact ⟨(), hvalid, if_neg (Nat.not_lt.mpr hshort)⟩

theorem decodeIndexName_encode {config : Config} {collection index : String}
    (h : encodeIndexName config.debug config.indexPrefix collection =
      .ok index) : decodeIndexName config index = .ok collection := by
  obtain ⟨hvalid, hindex, hshort⟩ := encodeIndexName_eq_ok.mp h
  have hstrip : stripPrefix (config.indexPrefix ++ indexMarker) index =
      some (Hex.encode (utf8 collection)) := by
    rw [hindex, stripPrefix_append]
  have heven : (Hex.encode (utf8 collection)).utf8ByteSize % 2 = 0 := by
    rw [Hex.utf8ByteSize_encode]
    omega
  simp only [decodeIndexName, hvalid, if_neg (Nat.not_lt.mpr hshort), hstrip,
    heven, Hex.decode_encode, ofUtf8_utf8, h, ne_eq, not_true_eq_false,
    if_false, bind, Except.bind, pure, Except.pure]

theorem decodeIndexName_eq_ok {config : Config} {collection index : String}
    (h : decodeIndexName config index = .ok collection) :
    encodeIndexName config.debug config.indexPrefix collection =
      .ok index := by
  obtain ⟨⟨⟩, hvalid, h⟩ := bind_eq_ok.mp h
  split at h
  · cases h
  · split at h
    · cases h
    · split at h
      · cases h
      · split at h
        · cases h
        · split at h
          · cases h
          · obtain ⟨canonical, hcanonical, h⟩ := bind_eq_ok.mp h
            split at h
            · cases h
            · rename_i hsame
              cases h
              rw [hcanonical, not_ne_iff.mp hsame]

theorem transports_indexName (config : Config) :
    Transports (encodeIndexName config.debug config.indexPrefix)
      (decodeIndexName config) :=
  ⟨decodeIndexName_encode, decodeIndexName_eq_ok⟩

theorem encodeDocumentId_eq_ok {key documentId : String} :
    encodeDocumentId key = .ok documentId ↔
      documentId = documentIdMarker ++ Base64Url.encode (utf8 key) ∧
        documentId.utf8ByteSize ≤ maxDocumentIdBytes := by
  simp only [encodeDocumentId]
  constructor
  · intro h
    split at h
    · cases h
    · rename_i hlong
      cases h
      refine ⟨rfl, ?_⟩
      rw [String.utf8ByteSize_append]
      exact Nat.not_lt.mp hlong
  · rintro ⟨rfl, hshort⟩
    rw [String.utf8ByteSize_append] at hshort
    exact if_neg (Nat.not_lt.mpr hshort)

theorem transports_documentId (config : Config) :
    Transports encodeDocumentId (decodeDocumentId config) where
  decode_encode {key documentId} h := by
    obtain ⟨hid, hshort⟩ := encodeDocumentId_eq_ok.mp h
    have hstrip : stripPrefix documentIdMarker documentId =
        some (Base64Url.encode (utf8 key)) := by
      rw [hid, stripPrefix_append]
    simp only [decodeDocumentId, if_neg (Nat.not_lt.mpr hshort), hstrip,
      Base64Url.decode_encode, ofUtf8_utf8, ne_eq, not_true_eq_false,
      if_false]
  encode_decode {key documentId} h := by
    unfold decodeDocumentId at h
    split at h
    · cases h
    · rename_i hlong
      split at h
      · cases h
      · rename_i encoded hstrip
        split at h
        · cases h
        · rename_i bytes hbytes
          split at h
          · cases h
          · rename_i hsame
            split at h
            · cases h
            · rename_i text htext
              cases h
              refine encodeDocumentId_eq_ok.mpr ⟨?_, Nat.not_lt.mp hlong⟩
              rw [ofUtf8_eq_some.mp htext, not_ne_iff.mp hsame]
              exact stripPrefix_eq_some.mp hstrip

theorem address_inj {debug : String → String}
    {defaultCollection lead collection collection' key key' : String}
    {address : String × String}
    (h : (Cleanup.openSearchStore debug defaultCollection lead).address
      collection key = .ok address)
    (h' : (Cleanup.openSearchStore debug defaultCollection lead).address
      collection' key' = .ok address) :
    collection = collection' ∧ key = key' := by
  obtain ⟨index, hindex, hrest⟩ := bind_eq_ok.mp h
  obtain ⟨documentId, hid, hdone⟩ := bind_eq_ok.mp hrest
  cases hdone
  obtain ⟨index', hindex', hrest'⟩ := bind_eq_ok.mp h'
  obtain ⟨documentId', hid', hdone'⟩ := bind_eq_ok.mp hrest'
  cases hdone'
  exact ⟨(transports_indexName ⟨debug, lead⟩).inj hindex hindex',
    (transports_documentId ⟨debug, lead⟩).inj hid hid'⟩

end Search

namespace Mongo

variable {databaseName logical physical : String}

theorem encodeCollectionName_eq_ok :
    encodeCollectionName databaseName logical = .ok physical ↔
      physical = collectionPrefix ++ Hex.encode (utf8 logical) ∧
        databaseName.utf8ByteSize + 1 + physical.utf8ByteSize ≤
          maxNamespaceBytes := by
  have hsize : (collectionPrefix ++ Hex.encode (utf8 logical)).utf8ByteSize =
      collectionPrefix.utf8ByteSize + logical.utf8ByteSize * 2 := by
    rw [String.utf8ByteSize_append, Hex.utf8ByteSize_encode, length_utf8]
  simp only [encodeCollectionName]
  constructor
  · intro h
    split at h
    · cases h
    · rename_i hlong
      cases h
      exact ⟨rfl, by rw [hsize]; exact Nat.not_lt.mp hlong⟩
  · rintro ⟨rfl, hshort⟩
    rw [hsize] at hshort
    exact if_neg (Nat.not_lt.mpr hshort)

theorem decodeCollectionName_encode
    (h : encodeCollectionName databaseName logical = .ok physical) :
    decodeCollectionName databaseName physical =
      .ok (some (physical, logical)) := by
  obtain ⟨hphysical, hshort⟩ := encodeCollectionName_eq_ok.mp h
  have hstrip : stripPrefix collectionPrefix physical =
      some (Hex.encode (utf8 logical)) := by
    rw [hphysical, stripPrefix_append]
  have heven : (Hex.encode (utf8 logical)).utf8ByteSize % 2 = 0 := by
    rw [Hex.utf8ByteSize_encode]
    omega
  simp only [decodeCollectionName, if_neg (Nat.not_lt.mpr hshort), hstrip,
    heven, Hex.decode_encode, ofUtf8_utf8, h, ne_eq, not_true_eq_false,
    if_false, bind, Except.bind, pure, Except.pure]

theorem decodeCollectionName_eq_some {name : String}
    (h : decodeCollectionName databaseName physical =
      .ok (some (name, logical))) :
    name = physical ∧
      encodeCollectionName databaseName logical = .ok physical := by
  unfold decodeCollectionName at h
  split at h
  · cases h
  · simp only at h
    split at h
    · cases h
    · split at h
      · cases h
      · split at h
        · cases h
        · split at h
          · cases h
          · obtain ⟨canonical, hcanonical, h⟩ := bind_eq_ok.mp h
            split at h
            · cases h
            · rename_i hsame
              cases h
              exact ⟨rfl, by rw [hcanonical, not_ne_iff.mp hsame]⟩

theorem decodeCollectionName_eq_none :
    decodeCollectionName databaseName physical = .ok none ↔
      startsWith collectionPrefix physical = false := by
  rw [Bool.eq_false_iff, ne_eq, startsWith_iff]
  unfold decodeCollectionName
  constructor
  · rintro h ⟨rest, rfl⟩
    rw [stripPrefix_append] at h
    simp only at h
    split at h
    · cases h
    · split at h
      · cases h
      · split at h
        · cases h
        · split at h
          · cases h
          · obtain ⟨canonical, -, h⟩ := bind_eq_ok.mp h
            split at h <;> cases h
  · intro h
    split
    · rfl
    · rename_i encoded hstrip
      exact absurd ⟨encoded, stripPrefix_eq_some.mp hstrip⟩ h

theorem encodeCollectionName_inj {first second : String}
    (hfirst : encodeCollectionName databaseName first = .ok physical)
    (hsecond : encodeCollectionName databaseName second = .ok physical) :
    first = second := by
  have h := (decodeCollectionName_encode hfirst).symm.trans
    (decodeCollectionName_encode hsecond)
  exact (Prod.mk.inj (Option.some.inj (Except.ok.inj h))).2

end Mongo

structure FileNames (kind : String) : Prop where
  transports : Transports
    (fun value => (FileTree.encodeComponent value kind).map utf8)
    (FileTree.decodeComponent · kind)
  safe : ∀ value component,
    FileTree.encodeComponent value kind = .ok component →
      FileTree.SafeSegment component
  unshared : ∀ value value' component,
    FileTree.encodeComponent value kind = .ok component →
      FileTree.encodeComponent value' kind = .ok component → value = value'

structure ItemNames : Prop where
  transports : ∀ kind maxBytes, Transports
    (DynamoDB.encodePhysicalIdentity · kind maxBytes)
    (DynamoDB.decodePhysicalIdentity · kind maxBytes)
  unshared : ∀ collection key collection' key' address,
    DynamoDB.tryPrimaryKey collection key = .ok address →
      DynamoDB.tryPrimaryKey collection' key' = .ok address →
        collection = collection' ∧ key = key'

structure DocumentNames (config : Search.OpenSearchStore.Config) : Prop where
  index : Transports
    (Cleanup.OpenSearch.encodeIndexName config.debug config.indexPrefix)
    (Search.OpenSearchStore.decodeIndexName config)
  document : Transports Cleanup.OpenSearch.encodeDocumentId
    (Search.OpenSearchStore.decodeDocumentId config)
  unshared : ∀ defaultCollection collection key collection' key' address,
    (Cleanup.openSearchStore config.debug defaultCollection
        config.indexPrefix).address collection key = .ok address →
      (Cleanup.openSearchStore config.debug defaultCollection
        config.indexPrefix).address collection' key' = .ok address →
        collection = collection' ∧ key = key'

structure CollectionNames (databaseName : String) : Prop where
  decode_encode : ∀ logical physical,
    Mongo.encodeCollectionName databaseName logical = .ok physical →
      Mongo.decodeCollectionName databaseName physical =
        .ok (some (physical, logical))
  encode_decode : ∀ logical physical name,
    Mongo.decodeCollectionName databaseName physical =
        .ok (some (name, logical)) →
      name = physical ∧
        Mongo.encodeCollectionName databaseName logical = .ok physical
  ignored : ∀ physical,
    Mongo.decodeCollectionName databaseName physical = .ok none ↔
      startsWith "okv1-" physical = false
  unshared : ∀ logical logical' physical,
    Mongo.encodeCollectionName databaseName logical = .ok physical →
      Mongo.encodeCollectionName databaseName logical' = .ok physical →
        logical = logical'

theorem physical_names_exact :
    (∀ kind, FileNames kind) ∧ ItemNames ∧ (∀ config, DocumentNames config) ∧
      ∀ databaseName, CollectionNames databaseName := by
  refine ⟨fun kind => ?files, ?items, fun config => ?documents,
    fun databaseName => ?collections⟩
  case files =>
    constructor
    case transports => exact FileTree.transports_component kind
    case safe => exact fun _ _ h => FileTree.encodeComponent_safe h
    case unshared => exact fun _ _ _ => FileTree.encodeComponent_inj
  case items =>
    constructor
    case transports => exact DynamoDB.transports_physicalIdentity
    case unshared => exact fun _ _ _ _ _ => DynamoDB.tryPrimaryKey_inj
  case documents =>
    constructor
    case index => exact Search.transports_indexName config
    case document => exact Search.transports_documentId config
    case unshared => exact fun _ _ _ _ _ _ => Search.address_inj
  case collections =>
    constructor
    case decode_encode => exact fun _ _ => Mongo.decodeCollectionName_encode
    case encode_decode => exact fun _ _ _ =>
      Mongo.decodeCollectionName_eq_some
    case ignored => exact fun _ => Mongo.decodeCollectionName_eq_none
    case unshared => exact fun _ _ _ => Mongo.encodeCollectionName_inj

end OpenKeyV
