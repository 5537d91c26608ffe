import OpenKeyV.S3.ObjectKey

/-!
# Object keys and identities

An object key is the join of the segments of its identity.  `decomposeS3Key`
accepts these joins and nothing else, and the prefix of a collection begins
its own object keys only.
-/

namespace OpenKeyV.S3

open Library

def encodedFrame (collection : String) : String :=
  Base64Url.encode (utf8 (collectionFrame collection))

def keySegments (encoded : String) : List String :=
  if encoded = "" then [""] else textChunks encoded

def objectSegments (collection key : String) : List String :=
  "okv1" :: toString (encodedFrame collection).utf8ByteSize ::
    (textChunks (encodedFrame collection) ++
      "key" :: keySegments (Base64Url.encode (utf8 key)))

def objectKey (collection key : String) : String :=
  joinWith '/' (objectSegments collection key)

def leadSegments (collection : String) : List String :=
  "okv1" :: toString (encodedFrame collection).utf8ByteSize ::
    (textChunks (encodedFrame collection) ++ ["key"])

def objectLead (collection : String) : String :=
  "okv1/" ++ toString (encodedFrame collection).utf8ByteSize ++ "/" ++
    joinWith '/' (textChunks (encodedFrame collection)) ++ "/key/"

section Segments

variable {collection key name o text : String}

theorem keySegments_ne_nil (text : String) : keySegments text ≠ [] := by
  unfold keySegments
  split
  · simp
  · rename_i hne
    rwa [Ne, textChunks_eq_nil]

theorem joinWith_keySegments (text : String) :
    joinWith '/' (keySegments text) = joinWith '/' (textChunks text) := by
  unfold keySegments
  split
  · rename_i hempty
    subst hempty
    rw [textChunks_eq_nil.mpr rfl]
    rfl
  · rfl

theorem encodedFrame_pos (collection : String) :
    0 < (encodedFrame collection).utf8ByteSize := by
  have hframe : 0 < (utf8 (collectionFrame collection)).length := by
    rw [length_utf8, collectionFrame]
    simp only [String.utf8ByteSize_append]
    have hcolon : (":" : String).utf8ByteSize = 1 := rfl
    omega
  have hlength := Base64Url.length_le_encodeChars
    (utf8 (collectionFrame collection))
  rw [encodedFrame, (plain_encode _).utf8ByteSize, Base64Url.encode,
    String.toList_ofList]
  omega

theorem encodedFrame_inj (h : encodedFrame collection = encodedFrame name) :
    collection = name := by
  have hframe := utf8_injective (Base64Url.encode_injective h)
  have hcut : collectionFrame collection ++ "" = collectionFrame name ++ "" := by
    rw [hframe]
  exact (collectionFrame_append_inj hcut).1

theorem textChunks_encodedFrame_ne_nil (collection : String) :
    textChunks (encodedFrame collection) ≠ [] := by
  intro hnil
  have hpos := encodedFrame_pos collection
  rw [textChunks_eq_nil.mp hnil, String.utf8ByteSize_empty] at hpos
  omega

theorem objectSegments_eq (collection key : String) :
    objectSegments collection key = leadSegments collection ++
      keySegments (Base64Url.encode (utf8 key)) := by
  simp [objectSegments, leadSegments]

theorem objectLead_eq (collection : String) :
    objectLead collection =
      joinWith '/' (leadSegments collection) ++ '/'.toString := by
  rw [leadSegments, joinWith_cons _ (by simp), joinWith_cons _ (by simp),
    joinWith_append (textChunks_encodedFrame_ne_nil collection) (by simp),
    joinWith_singleton, objectLead]
  simp only [String.append_assoc]
  rfl

theorem objectKey_eq (collection key : String) :
    objectKey collection key = objectLead collection ++
      joinWith '/' (textChunks (Base64Url.encode (utf8 key))) := by
  rw [objectKey, objectSegments_eq, joinWith_append (by simp [leadSegments])
    (keySegments_ne_nil _), ← objectLead_eq, joinWith_keySegments]

theorem s3CollectionPrefix_eq_ok :
    s3CollectionPrefix collection = .ok text ↔
      text = objectLead collection ∧
        text.utf8ByteSize ≤ objectKeyMaxBytes := by
  change (if objectKeyMaxBytes < (objectLead collection).utf8ByteSize then
    Except.error _ else .ok (objectLead collection)) = .ok text ↔ _
  split
  · rename_i hlong
    constructor
    · intro h
      cases h
    · rintro ⟨rfl, hle⟩
      omega
  · rename_i hshort
    constructor
    · intro h
      cases h
      exact ⟨rfl, by omega⟩
    · rintro ⟨rfl, _⟩
      rfl

theorem s3Key_eq_ok :
    s3Key collection key = .ok o ↔
      o = objectKey collection key ∧ o.utf8ByteSize ≤ objectKeyMaxBytes := by
  have hlead : (objectLead collection).utf8ByteSize ≤
      (objectKey collection key).utf8ByteSize := by
    rw [objectKey_eq, String.utf8ByteSize_append]
    omega
  unfold s3Key
  by_cases hle : (objectLead collection).utf8ByteSize ≤ objectKeyMaxBytes
  · rw [s3CollectionPrefix_eq_ok.mpr ⟨rfl, hle⟩]
    simp only [bind, Except.bind, ← objectKey_eq]
    split
    · rename_i hlong
      constructor
      · intro h
        cases h
      · rintro ⟨rfl, hle⟩
        omega
    · rename_i hshort
      constructor
      · intro h
        cases h
        exact ⟨rfl, by omega⟩
      · rintro ⟨rfl, _⟩
        rfl
  · cases hfound : s3CollectionPrefix collection with
    | ok text =>
        obtain ⟨rfl, hshort⟩ := s3CollectionPrefix_eq_ok.mp hfound
        exact absurd hshort hle
    | error error =>
        simp only [bind, Except.bind]
        constructor
        · intro h
          cases h
        · rintro ⟨rfl, hshort⟩
          omega

theorem splitOn_objectLead (collection text : String) :
    splitOn '/' (objectLead collection ++ text) =
      leadSegments collection ++ splitOn '/' text := by
  have hplain : Plain (encodedFrame collection) := plain_encode _
  rw [objectLead_eq, splitOn_append, splitOn_joinWith (by simp [leadSegments])]
  intro part hpart hslash
  simp only [leadSegments, List.mem_cons, List.mem_append,
    List.not_mem_nil, or_false] at hpart
  rcases hpart with rfl | rfl | hpart | rfl
  · exact absurd hslash (by decide)
  · rw [toList_toString_nat] at hslash
    have hdigit : Char.isDigit '/' = true :=
      Nat.isDigit_of_mem_toDigits (b := 10) (by omega) (by omega) hslash
    exact absurd hdigit (by decide)
  · exact (hplain.of_mem_textChunks hpart '/' hslash).1 rfl
  · exact absurd hslash (by decide)

theorem splitOn_objectKey (collection key : String) :
    splitOn '/' (objectKey collection key) = objectSegments collection key := by
  have hplain : Plain (Base64Url.encode (utf8 key)) := plain_encode _
  rw [objectKey_eq, splitOn_objectLead, objectSegments_eq,
    ← joinWith_keySegments, splitOn_joinWith (keySegments_ne_nil _)]
  intro part hpart hslash
  unfold keySegments at hpart
  split at hpart
  · rw [List.mem_singleton] at hpart
    subst hpart
    exact absurd hslash (by decide)
  · exact (hplain.of_mem_textChunks hpart '/' hslash).1 rfl

theorem decodeCanonical_eq_ok {part : String} {bytes : List UInt8} :
    decodeCanonical part text = .ok bytes ↔ text = Base64Url.encode bytes := by
  unfold decodeCanonical
  constructor
  · intro h
    split at h
    · cases h
    · split at h
      · cases h
      · rename_i hcanonical
        cases h
        exact (not_ne_iff.mp hcanonical).symm
  · rintro rfl
    rw [Base64Url.decode_encode]
    simp

theorem size_le_objectKey (collection key : String) :
    collection.utf8ByteSize ≤ (encodedFrame collection).utf8ByteSize ∧
      (encodedFrame collection).utf8ByteSize ≤
        (objectKey collection key).utf8ByteSize := by
  constructor
  · have hlength := Base64Url.length_le_encodeChars
      (utf8 (collectionFrame collection))
    rw [encodedFrame, (plain_encode _).utf8ByteSize, Base64Url.encode,
      String.toList_ofList]
    have hframe : collection.utf8ByteSize ≤
        (collectionFrame collection).utf8ByteSize := by
      rw [collectionFrame, String.utf8ByteSize_append]
      omega
    rw [length_utf8] at hlength
    omega
  · have hjoin : ∀ parts : List String, (String.join parts).utf8ByteSize ≤
        (joinWith '/' parts).utf8ByteSize := by
      intro parts
      induction parts with
      | nil => exact Nat.le_refl 0
      | cons part parts ih =>
          by_cases hnil : parts = []
          · subst hnil
            simp
          · rw [joinWith_cons part hnil, String.join_cons]
            simp only [String.utf8ByteSize_append]
            omega
    have hchunks := hjoin (textChunks (encodedFrame collection))
    rw [join_textChunks] at hchunks
    rw [objectKey_eq, objectLead]
    simp only [String.utf8ByteSize_append]
    omega

theorem keyChunks_keySegments (bytes : List UInt8) :
    keyChunks (keySegments (Base64Url.encode bytes)) =
      .ok (Base64Url.encode bytes) := by
  rw [keyChunks_ok]
  unfold keySegments
  split
  · exact .inl ⟨rfl, ‹_›⟩
  · rename_i hne
    refine .inr ⟨?_, cut_textChunks (plain_encode bytes), ?_⟩
    · rwa [Ne, textChunks_eq_nil]
    · rw [join_textChunks]

theorem keySegments_of_keyChunks {segments : List String}
    {bytes : List UInt8}
    (h : keyChunks segments = .ok (Base64Url.encode bytes)) :
    segments = keySegments (Base64Url.encode bytes) := by
  unfold keySegments
  rcases keyChunks_ok.mp h with ⟨rfl, hempty⟩ | ⟨hne, hcut, hjoin⟩
  · rw [if_pos hempty]
  · have hplain := plain_encode bytes
    rw [hjoin] at hplain ⊢
    rw [textChunks_join hplain hcut, if_neg]
    intro hempty
    cases segments with
    | nil => exact hne rfl
    | cons part parts =>
        have hpos := hcut.pos
        rw [hempty, String.utf8ByteSize_empty] at hpos
        omega

theorem decomposeS3Key_objectKey
    (hle : (objectKey collection key).utf8ByteSize ≤ objectKeyMaxBytes) :
    decomposeS3Key (objectKey collection key) = .ok (collection, key) := by
  obtain ⟨hcollection, hframe⟩ := size_le_objectKey collection key
  have hmax : objectKeyMaxBytes = 1024 := rfl
  have hpos := encodedFrame_pos collection
  have hplain : Plain (encodedFrame collection) := plain_encode _
  have hchunks := collectionChunks_cut
    ("key" :: keySegments (Base64Url.encode (utf8 key))) rfl
    (cut_textChunks hplain) (Nat.le_of_eq (length_textChunks hplain)) (by
      rw [join_textChunks, length_textChunks hplain, Nat.sub_self,
        Nat.zero_mul, Nat.sub_zero])
  rw [length_textChunks hplain, join_textChunks] at hchunks
  have hdecode : decodeCanonical "collection" (encodedFrame collection) =
      .ok (utf8 (collectionFrame collection)) :=
    decodeCanonical_eq_ok.mpr rfl
  have hkey : decodeCanonical "key" (Base64Url.encode (utf8 key)) =
      .ok (utf8 key) := decodeCanonical_eq_ok.mpr rfl
  have hpair : decompoundKey (collectionFrame collection) =
      .ok (collection, "") :=
    decompoundKey_eq_ok.mpr ⟨by rw [compoundKey, String.append_empty],
      by omega⟩
  unfold decomposeS3Key
  rw [if_neg (by omega), splitOn_objectKey, objectSegments]
  simp only [toList_toString_nat, allDigits_toDigits, Bool.true_eq_false,
    false_or]
  rw [← toList_toString_nat, if_neg (length_canonical _),
    parseUnsigned_toString (by omega)]
  simp only [if_neg (by omega : ¬ (encodedFrame collection).utf8ByteSize = 0),
    if_neg (by omega : ¬ (objectKey collection key).utf8ByteSize <
      (encodedFrame collection).utf8ByteSize), hchunks, bind, Except.bind,
    keyChunks_keySegments, hdecode, ofUtf8_utf8, hpair, hkey]
  rfl

theorem objectKey_of_parts {lengthText encodedCollection : String} {len : Nat}
    {segments behind : List String}
    (hsplit : splitOn '/' o = "okv1" :: lengthText :: segments)
    (hdigits : allDigits lengthText.toList = true ∧
      ¬ (1 < lengthText.length ∧ lengthText.toList.head? = some '0'))
    (hparse : parseUnsigned 64 lengthText = some len) (hpos : 0 < len)
    (hread : collectionChunks len
      ((len + objectKeySegmentBytes - 1) / objectKeySegmentBytes)
      ((len + objectKeySegmentBytes - 1) / objectKeySegmentBytes) segments =
        .ok (encodedCollection, "key" :: behind))
    (hframe : encodedCollection = encodedFrame collection)
    (hkey : keyChunks behind = .ok (Base64Url.encode (utf8 key))) :
    o = objectKey collection key := by
  obtain ⟨parts, hparts, htext, hcut, hsize⟩ :=
    collectionChunks_ok rfl hpos (Nat.le_refl _) hread
  have hlength := (toString_of_parseUnsigned hdigits.1 hdigits.2 hparse).1
  have hplain : Plain (encodedFrame collection) := plain_encode _
  rw [Nat.sub_self, Nat.zero_mul, Nat.sub_zero, hframe] at hsize
  rw [hframe] at htext
  have hchunks : textChunks (encodedFrame collection) = parts := by
    rw [htext] at hplain ⊢
    exact textChunks_join hplain hcut
  rw [← joinWith_splitOn '/' o, hsplit, objectKey,
    objectSegments, hsize, hlength, hchunks, hparts,
    keySegments_of_keyChunks hkey]

theorem identity_of_frame {encodedCollection encodedKey : String}
    (h : (do
      let frame ← decodeCanonical "collection" encodedCollection
      match ofUtf8 frame with
      | none => .error (.invalidKey
          "S3 object key collection is not valid UTF-8")
      | some frame => do
          let (collection, embeddedKey) ← decompoundKey frame
          if embeddedKey.isEmpty = false then
            .error (.invalidKey
              "S3 object key collection frame contains key data")
          else do
            let key ← decodeCanonical "key" encodedKey
            match ofUtf8 key with
            | none => .error (.invalidKey "S3 object key is not valid UTF-8")
            | some key => .ok (collection, key) :
        Except Error (String × String)) = .ok (collection, key)) :
    encodedCollection = encodedFrame collection ∧
      encodedKey = Base64Url.encode (utf8 key) := by
  obtain ⟨frame, hframe, h1⟩ := bind_eq_ok.mp h
  rw [decodeCanonical_eq_ok] at hframe
  split at h1
  · cases h1
  · rename_i text htext
    obtain ⟨⟨name, embedded⟩, hpair, h2⟩ := bind_eq_ok.mp h1
    simp only at h2
    split at h2
    · cases h2
    · rename_i hembedded
      obtain ⟨bytes, hbytes, h3⟩ := bind_eq_ok.mp h2
      rw [decodeCanonical_eq_ok] at hbytes
      split at h3
      · cases h3
      · rename_i last hlast
        cases h3
        have hempty : embedded = "" := by simpa using hembedded
        obtain ⟨rfl, _⟩ := compoundKey_of_decompoundKey hpair
        rw [ofUtf8_eq_some] at htext hlast
        rw [hframe, hbytes, ← htext, ← hlast, hempty, compoundKey,
          String.append_empty]
        exact ⟨rfl, rfl⟩

theorem objectKey_of_decomposeS3Key
    (h : decomposeS3Key o = .ok (collection, key)) :
    o = objectKey collection key ∧ o.utf8ByteSize ≤ objectKeyMaxBytes := by
  unfold decomposeS3Key at h
  split at h
  · cases h
  · rename_i hshort
    refine ⟨?_, by omega⟩
    split at h
    · rename_i lengthText segments hsplit
      split at h
      · cases h
      · rename_i hdigits
        split at h
        · cases h
        · rename_i len hparse
          split at h
          · cases h
          · rename_i hpos
            split at h
            · cases h
            · obtain ⟨⟨encodedCollection, behind⟩, hread, h1⟩ :=
                bind_eq_ok.mp h
              simp only at h1
              split at h1
              · obtain ⟨encodedKey, hkey, h2⟩ := bind_eq_ok.mp h1
                obtain ⟨hframe, hencoded⟩ := identity_of_frame h2
                rw [not_or, Bool.not_eq_false] at hdigits
                rw [hencoded] at hkey
                exact objectKey_of_parts hsplit hdigits hparse (by omega)
                  hread hframe hkey
              · cases h1
    · cases h
    · cases h

theorem objectLead_inj {x y : String}
    (h : objectLead collection ++ x = objectLead name ++ y) :
    collection = name := by
  have hsegments : leadSegments collection ++ splitOn '/' x =
      leadSegments name ++ splitOn '/' y := by
    rw [← splitOn_objectLead, h, splitOn_objectLead]
  simp only [leadSegments, List.cons_append, List.append_assoc,
    List.cons.injEq, true_and] at hsegments
  obtain ⟨hsize, hchunks⟩ := hsegments
  replace hsize := toString_nat_inj hsize
  have hlength : (textChunks (encodedFrame collection)).length =
      (textChunks (encodedFrame name)).length := by
    rw [encodedFrame, length_textChunks (plain_encode _), encodedFrame,
      length_textChunks (plain_encode _)]
    rw [encodedFrame, encodedFrame] at hsize
    rw [hsize]
  have htext := congrArg String.join (List.append_inj_left hchunks hlength)
  rw [join_textChunks, join_textChunks] at htext
  exact encodedFrame_inj htext

end Segments

/-! ## Listings -/

section Listings

variable (debug : String → String)

/-- What `keys` and `destroy_collection` make of a listed object; `debug` is
the `Debug` text of a string. -/
def ownKey (collection objectKey : String) : Except Error String := do
  let (found, key) ← decomposeS3Key objectKey
  if found ≠ collection then
    .error (.invalidKey (s!"S3 object key belongs to collection " ++
      s!"{debug found}, expected {debug collection}"))
  else .ok key

def keysOfPages (collection : String) (limit : Nat) :
    List (List String) → List String → Except Error (List String)
  | [], keys => .ok (keys.take limit)
  | page :: pages, keys => do
      let own ← page.mapM (ownKey debug collection)
      let keys := keys ++ own
      if limit ≤ keys.length then .ok (keys.take limit)
      else keysOfPages collection limit pages keys

def keys (listing : String → List (List String)) (collection : String)
    (limit : Option Nat) : Except Error (List String) := do
  let lead ← s3CollectionPrefix collection
  keysOfPages debug collection (min (limit.getD 10000) 10000)
    (listing lead) []

/-- The objects `destroy_collection` sends to be deleted. -/
def keysToDelete (listing : String → List (List String))
    (collection : String) : Except Error (List String) := do
  let lead ← s3CollectionPrefix collection
  let _ ← (listing lead).flatten.mapM (ownKey debug collection)
  return (listing lead).flatten

def keyIn (collection objectKey : String) : Option String :=
  match decomposeS3Key objectKey with
  | .ok (found, key) => if found = collection then some key else none
  | .error _ => none

/-- A bucket of a store, and the pages S3 lists of it. -/
structure Lists (bucket : List String)
    (listing : String → List (List String)) : Prop where
  written : ∀ o ∈ bucket, ∃ collection key, s3Key collection key = .ok o
  pages : ∀ lead, (listing lead).flatten = bucket.filter (startsWith lead)

variable {debug : String → String} {collection lead o : String}
  {bucket : List String} {listing : String → List (List String)}

theorem startsWith_objectKey (collection other key : String) :
    startsWith (objectLead collection) (objectKey other key) = true ↔
      collection = other := by
  rw [startsWith_iff]
  constructor
  · rintro ⟨rest, hrest⟩
    rw [objectKey_eq] at hrest
    exact (objectLead_inj hrest).symm
  · rintro rfl
    exact ⟨_, objectKey_eq collection key⟩

theorem ownKey_eq_ok {key : String} (h : s3Key collection key = .ok o) :
    ownKey debug collection o = .ok key := by
  obtain ⟨rfl, hle⟩ := s3Key_eq_ok.mp h
  rw [ownKey, decomposeS3Key_objectKey hle]
  simp [bind, Except.bind]

theorem mapM_ownKey {page : List String}
    (h : ∀ o ∈ page, ∃ key, s3Key collection key = .ok o) :
    page.mapM (ownKey debug collection) =
      .ok (page.filterMap (keyIn collection)) := by
  induction page with
  | nil => rfl
  | cons o page ih =>
      obtain ⟨key, hkey⟩ := h o (List.mem_cons_self ..)
      obtain ⟨rfl, hle⟩ := s3Key_eq_ok.mp hkey
      have hin : keyIn collection (objectKey collection key) = some key := by
        rw [keyIn, decomposeS3Key_objectKey hle]
        simp
      rw [List.mapM_cons, ownKey_eq_ok hkey,
        ih fun o ho => h o (List.mem_cons_of_mem _ ho),
        List.filterMap_cons_some hin]
      rfl

theorem keysOfPages_eq {limit : Nat} {pages : List (List String)}
    (h : ∀ o ∈ pages.flatten, ∃ key, s3Key collection key = .ok o)
    (keys : List String) :
    keysOfPages debug collection limit pages keys =
      .ok ((keys ++ pages.flatten.filterMap (keyIn collection)).take limit) := by
  induction pages generalizing keys with
  | nil => simp [keysOfPages]
  | cons page pages ih =>
      rw [List.flatten_cons] at h ⊢
      rw [keysOfPages, mapM_ownKey fun o ho => h o (List.mem_append_left _ ho)]
      simp only [bind, Except.bind]
      split
      · rename_i hfull
        rw [List.filterMap_append, ← List.append_assoc,
          List.take_append_of_le_length hfull]
      · rw [ih fun o ho => h o (List.mem_append_right _ ho),
          List.filterMap_append, List.append_assoc]

theorem Lists.own (h : Lists bucket listing)
    (ho : o ∈ (listing (objectLead collection)).flatten) :
    o ∈ bucket ∧ ∃ key, s3Key collection key = .ok o := by
  rw [h.pages, List.mem_filter] at ho
  obtain ⟨other, key, hkey⟩ := h.written o ho.1
  obtain ⟨rfl, _⟩ := s3Key_eq_ok.mp hkey
  obtain rfl := (startsWith_objectKey collection other key).mp ho.2
  exact ⟨ho.1, key, hkey⟩

theorem Lists.keyIn_listed (h : Lists bucket listing) (collection : String) :
    (listing (objectLead collection)).flatten.filterMap (keyIn collection) =
      bucket.filterMap (keyIn collection) := by
  rw [h.pages, List.filterMap_filter]
  refine List.filterMap_congr fun o ho => ?_
  obtain ⟨other, key, hkey⟩ := h.written o ho
  obtain ⟨rfl, hle⟩ := s3Key_eq_ok.mp hkey
  split
  · rfl
  · rename_i hother
    rw [startsWith_objectKey] at hother
    rw [keyIn, decomposeS3Key_objectKey hle]
    exact (if_neg fun heq => hother heq.symm).symm

end Listings

/-! ## The exact bijection -/

/-- Object keys and identities name each other, and the prefix of a
collection begins the object keys of that collection alone: `keys` reads its
keys and `destroy_collection` deletes its objects, and no others. -/
theorem object_key_exact :
    (∀ collection key o, s3Key collection key = .ok o →
        decomposeS3Key o = .ok (collection, key)) ∧
      (∀ collection key o, decomposeS3Key o = .ok (collection, key) →
        s3Key collection key = .ok o) ∧
      (∀ collection other key lead o,
        s3CollectionPrefix collection = .ok lead → s3Key other key = .ok o →
          (startsWith lead o = true ↔ collection = other)) ∧
      ∀ debug bucket listing collection lead, Lists bucket listing →
        s3CollectionPrefix collection = .ok lead →
          (∀ limit, keys debug listing collection limit =
            .ok ((bucket.filterMap (keyIn collection)).take
              (min (limit.getD 10000) 10000))) ∧
          ∃ doomed, keysToDelete debug listing collection = .ok doomed ∧
            ∀ o, o ∈ doomed ↔
              o ∈ bucket ∧ ∃ key, s3Key collection key = .ok o := by
  refine ⟨fun collection key o h => ?_, fun collection key o h => ?_,
    fun collection other key lead o hlead ho => ?_,
    fun debug bucket listing collection lead h hlead => ⟨fun limit => ?_, ?_⟩⟩
  · obtain ⟨rfl, hle⟩ := s3Key_eq_ok.mp h
    exact decomposeS3Key_objectKey hle
  · obtain ⟨rfl, hle⟩ := objectKey_of_decomposeS3Key h
    exact s3Key_eq_ok.mpr ⟨rfl, hle⟩
  · obtain ⟨rfl, _⟩ := s3CollectionPrefix_eq_ok.mp hlead
    obtain ⟨rfl, _⟩ := s3Key_eq_ok.mp ho
    exact startsWith_objectKey collection other key
  · rw [keys, hlead]
    obtain ⟨rfl, _⟩ := s3CollectionPrefix_eq_ok.mp hlead
    simp only [bind, Except.bind]
    rw [keysOfPages_eq fun o ho => (h.own ho).2, List.nil_append,
      h.keyIn_listed]
  · rw [keysToDelete, hlead]
    obtain ⟨rfl, _⟩ := s3CollectionPrefix_eq_ok.mp hlead
    simp only [bind, Except.bind]
    rw [mapM_ownKey fun o ho => (h.own ho).2]
    refine ⟨_, rfl, fun o => ⟨h.own, ?_⟩⟩
    rintro ⟨ho, key, hkey⟩
    rw [h.pages, List.mem_filter]
    obtain ⟨rfl, _⟩ := s3Key_eq_ok.mp hkey
    exact ⟨ho, (startsWith_objectKey collection collection key).mpr rfl⟩

theorem object_key_exact_two :
    let bucket := ["okv1/4/MTph/key/Yg", "okv1/3/MDo/key/"]
    decomposeS3Key "okv1/4/MTph/key/Yg" = .ok ("a", "b") ∧
      s3Key "a" "b" = .ok "okv1/4/MTph/key/Yg" ∧
      startsWith "okv1/4/MTph/key/" "okv1/3/MDo/key/" = false ∧
      keys String.quote (fun lead => [bucket.filter (startsWith lead)]) "a"
        none = .ok ["b"] := by
  have hfirst : s3Key "a" "b" = .ok "okv1/4/MTph/key/Yg" := by decide +kernel
  have hsecond : s3Key "" "" = .ok "okv1/3/MDo/key/" := by decide +kernel
  have hlead : s3CollectionPrefix "a" = .ok "okv1/4/MTph/key/" := by
    decide +kernel
  obtain ⟨hdecompose, hcompose, hlisted, hkeys⟩ := object_key_exact
  have hidentity := hdecompose _ _ _ hfirst
  refine ⟨hidentity, hcompose _ _ _ hidentity, ?_, ?_⟩
  · rw [Bool.eq_false_iff, Ne, hlisted _ _ _ _ _ hlead hsecond]
    decide
  · have hlists : Lists ["okv1/4/MTph/key/Yg", "okv1/3/MDo/key/"]
        fun lead => [["okv1/4/MTph/key/Yg", "okv1/3/MDo/key/"].filter
          (startsWith lead)] := by
      refine ⟨?_, fun lead => by simp⟩
      intro o ho
      rcases List.mem_pair.mp ho with rfl | rfl
      · exact ⟨_, _, hfirst⟩
      · exact ⟨_, _, hsecond⟩
    rw [(hkeys String.quote _ _ _ _ hlists hlead).1 none]
    decide +kernel

end OpenKeyV.S3
