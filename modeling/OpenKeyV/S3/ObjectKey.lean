import OpenKeyV.Utils.Compound
import OpenKeyV.Library.Base64Url
import OpenKeyV.Library.Segments
import OpenKeyV.Library.Text
import OpenKeyV.Library.Utf8

/-!
# Object keys of `S3Store`

The collection frame and the key travel as Base64, cut into path segments of
at most 200 bytes; the length of the encoded frame stands in front of it.
-/

namespace OpenKeyV.S3

open Library

def objectKeyMaxBytes : Nat := 1024

def objectKeySegmentBytes : Nat := 200

/-- `as_bytes().chunks(..)`, each of them a string again: the text is Base64,
in which every character is one byte. -/
def textChunks (text : String) : List String :=
  (chunks objectKeySegmentBytes text.toList).map String.ofList

def s3CollectionPrefix (collection : String) : Except Error String :=
  let encodedCollection :=
    Base64Url.encode (utf8 (collectionFrame collection))
  let chunkedCollection := joinWith '/' (textChunks encodedCollection)
  let lead := "okv1/" ++ toString encodedCollection.utf8ByteSize ++ "/" ++
    chunkedCollection ++ "/key/"
  if objectKeyMaxBytes < lead.utf8ByteSize then
    .error (.invalidKey (s!"encoded S3 collection prefix is " ++
      s!"{lead.utf8ByteSize} bytes (max {objectKeyMaxBytes})"))
  else .ok lead

def s3Key (collection key : String) : Except Error String := do
  let encodedKey := Base64Url.encode (utf8 key)
  let chunkedKey := joinWith '/' (textChunks encodedKey)
  let lead ← s3CollectionPrefix collection
  let objectKey := lead ++ chunkedKey
  if objectKeyMaxBytes < objectKey.utf8ByteSize then
    .error (.invalidKey (s!"encoded S3 object key is " ++
      s!"{objectKey.utf8ByteSize} bytes (max {objectKeyMaxBytes})"))
  else .ok objectKey

/-- The bytes of the chunk at an index, of a text of `len` bytes. -/
def expectedLen (len count index : Nat) : Nat :=
  if index + 1 = count then len - index * objectKeySegmentBytes
  else objectKeySegmentBytes

/-- The loop over the chunks of the collection, `left` of which are still to
be read: what they hold, and the segments behind them. -/
def collectionChunks (len count : Nat) :
    Nat → List String → Except Error (String × List String)
  | 0, segments => .ok ("", segments)
  | _ + 1, [] =>
      .error (.invalidKey "S3 object key has a truncated collection encoding")
  | left + 1, chunk :: segments =>
      if chunk.utf8ByteSize ≠ expectedLen len count (count - (left + 1)) then
        .error (.invalidKey "S3 object key has non-canonical collection chunks")
      else do
        let (encoded, segments) ← collectionChunks len count left segments
        return (chunk ++ encoded, segments)

def keyChunks (segments : List String) : Except Error String :=
  if segments.isEmpty then
    .error (.invalidKey "S3 object key is missing its key encoding")
  else if segments = [""] then .ok ""
  else if segments.any String.isEmpty ||
      segments.dropLast.any
        (fun chunk => chunk.utf8ByteSize != objectKeySegmentBytes) ||
      segments.getLast?.all
        (fun chunk => decide (objectKeySegmentBytes < chunk.utf8ByteSize)) then
    .error (.invalidKey "S3 object key has non-canonical key chunks")
  else .ok (String.join segments)

/-- Base64 that is what its bytes encode to. -/
def decodeCanonical (part encoded : String) : Except Error (List UInt8) :=
  match Base64Url.decode encoded with
  | none =>
      .error (.invalidKey s!"S3 object key has an invalid {part} encoding")
  | some bytes =>
      if Base64Url.encode bytes ≠ encoded then
        .error (.invalidKey
          s!"S3 object key has a non-canonical {part} encoding")
      else .ok bytes

def decomposeS3Key (objectKey : String) : Except Error (String × String) :=
  if objectKeyMaxBytes < objectKey.utf8ByteSize then
    .error (.invalidKey (s!"encoded S3 object key is " ++
      s!"{objectKey.utf8ByteSize} bytes (max {objectKeyMaxBytes})"))
  else
    match splitOn '/' objectKey with
    | "okv1" :: lengthText :: segments =>
        if allDigits lengthText.toList = false ∨
            (1 < lengthText.length ∧ lengthText.toList.head? = some '0') then
          .error (.invalidKey "S3 object key has an invalid collection length")
        else
          match parseUnsigned 64 lengthText with
          | none => .error (.invalidKey
              "S3 object key collection length is too large")
          | some collectionLen =>
              if collectionLen = 0 then
                .error (.invalidKey
                  "S3 object key has an empty collection frame")
              else if objectKey.utf8ByteSize < collectionLen then
                .error (.invalidKey
                  "S3 object key has a truncated collection encoding")
              else do
                let count := (collectionLen + objectKeySegmentBytes - 1) /
                  objectKeySegmentBytes
                let (encodedCollection, segments) ←
                  collectionChunks collectionLen count count segments
                match segments with
                | "key" :: segments => do
                    let encodedKey ← keyChunks segments
                    let frame ← decodeCanonical "collection" encodedCollection
                    match ofUtf8 frame with
                    | none => .error (.invalidKey
                        "S3 object key collection is not valid UTF-8")
                    | some frame => do
                        let (collection, embeddedKey) ← decompoundKey frame
                        if embeddedKey.isEmpty = false then
                          .error (.invalidKey
                            "S3 object key collection frame contains key data")
                        else do
                          let key ← decodeCanonical "key" encodedKey
                          match ofUtf8 key with
                          | none => .error (.invalidKey
                              "S3 object key is not valid UTF-8")
                          | some key => .ok (collection, key)
                | _ => .error (.invalidKey
                    "S3 object key is missing its key marker")
    | ["okv1"] => .error (.invalidKey
        "S3 object key is missing its collection length")
    | _ => .error (.invalidKey
        "S3 object key has an invalid identity version")

section Plain

variable {text : String}

def Plain (text : String) : Prop :=
  ∀ c ∈ text.toList, c ≠ '/' ∧ c.utf8Size = 1

theorem plain_encode (bytes : List UInt8) : Plain (Base64Url.encode bytes) := by
  rw [Plain, Base64Url.encode, String.toList_ofList]
  exact Base64Url.encodeChars_plain bytes

theorem Plain.utf8ByteSize (h : Plain text) :
    text.utf8ByteSize = text.toList.length := by
  rw [← utf8ByteSize_ofList fun c hc => (h c hc).2, String.ofList_toList]

theorem join_textChunks (text : String) :
    String.join (textChunks text) = text := by
  apply String.toList_injective
  rw [String.toList_join, textChunks, List.flatMap_map]
  simp only [String.toList_ofList, List.flatMap_id']
  exact flatten_chunks (by decide) text.toList

theorem Plain.of_mem_join {parts : List String} {part : String}
    (h : Plain (String.join parts)) (hmem : part ∈ parts) : Plain part := by
  intro c hc
  apply h
  rw [String.toList_join]
  exact List.mem_flatMap.mpr ⟨part, hmem, hc⟩

theorem Plain.of_mem_textChunks {part : String} (h : Plain text)
    (hmem : part ∈ textChunks text) : Plain part := by
  rw [← join_textChunks text] at h
  exact h.of_mem_join hmem

theorem textChunks_eq_nil : textChunks text = [] ↔ text = "" := by
  constructor
  · intro h
    rw [← join_textChunks text, h]
    rfl
  · rintro rfl
    rw [textChunks, String.toList_empty, chunks_nil (by decide)]
    rfl

def Cut (parts : List String) : Prop :=
  Chunked objectKeySegmentBytes (parts.map utf8)

theorem chunked_iff_cut {parts : List String}
    (h : ∀ part ∈ parts, Plain part) :
    Chunked objectKeySegmentBytes (parts.map String.toList) ↔ Cut parts := by
  have hlength : (parts.map String.toList).map List.length =
      (parts.map utf8).map List.length := by
    rw [List.map_map, List.map_map]
    refine List.map_congr_left fun part hpart => ?_
    rw [Function.comp_apply, Function.comp_apply, length_utf8,
      (h part hpart).utf8ByteSize]
  exact ⟨fun hchunked => hchunked.congr hlength,
    fun hcut => hcut.congr hlength.symm⟩

theorem cut_textChunks (h : Plain text) : Cut (textChunks text) := by
  rw [← chunked_iff_cut fun part hpart => h.of_mem_textChunks hpart]
  have hchunked := chunked_chunks (by decide : 0 < objectKeySegmentBytes)
    text.toList
  simpa [textChunks, Function.comp_def] using hchunked

theorem textChunks_join {parts : List String}
    (hplain : Plain (String.join parts)) (h : Cut parts) :
    textChunks (String.join parts) = parts := by
  rw [← chunked_iff_cut fun part hpart => hplain.of_mem_join hpart] at h
  rw [textChunks, String.toList_join, List.flatMap_def,
    chunks_flatten (by decide) h]
  simp [Function.comp_def]

theorem length_textChunks (h : Plain text) :
    (textChunks text).length =
      (text.utf8ByteSize + objectKeySegmentBytes - 1) /
        objectKeySegmentBytes := by
  rw [textChunks, List.length_map, length_chunks, h.utf8ByteSize]

end Plain

section Chunks

variable {len count left : Nat} {segments rest parts : List String}
  {text : String}

theorem Cut.pos {part : String} (h : Cut (part :: parts)) :
    0 < (String.join (part :: parts)).utf8ByteSize := by
  have hpart : 0 < part.utf8ByteSize := by
    cases parts with
    | nil => simpa using h.1
    | cons next parts =>
        have hlength := h.1
        rw [length_utf8] at hlength
        rw [hlength]
        decide
  rw [String.join_cons, String.utf8ByteSize_append]
  omega

theorem collectionChunks_ok
    (hcount : count =
      (len + objectKeySegmentBytes - 1) / objectKeySegmentBytes)
    (hlen : 0 < len) (hleft : left ≤ count)
    (h : collectionChunks len count left segments = .ok (text, rest)) :
    ∃ parts, segments = parts ++ rest ∧ text = String.join parts ∧
      Cut parts ∧
      text.utf8ByteSize = len - (count - left) * objectKeySegmentBytes := by
  unfold objectKeySegmentBytes at hcount ⊢
  induction left generalizing segments text with
  | zero =>
      cases h
      refine ⟨[], rfl, String.join_nil.symm, trivial, ?_⟩
      rw [String.utf8ByteSize_empty]
      omega
  | succ left ih =>
      cases segments with
      | nil => cases h
      | cons chunk segments =>
          rw [collectionChunks] at h
          split at h
          · cases h
          · rename_i hsize
            rw [not_ne_iff, expectedLen, objectKeySegmentBytes] at hsize
            cases hrest : collectionChunks len count left segments with
            | error error =>
                rw [hrest] at h
                cases h
            | ok read =>
                obtain ⟨encoded, behind⟩ := read
                rw [hrest] at h
                cases h
                obtain ⟨parts, rfl, rfl, hcut, htotal⟩ :=
                  ih (by omega) hrest
                refine ⟨chunk :: parts, rfl, String.join_cons.symm, ?_, ?_⟩
                · cases parts with
                  | nil =>
                      rw [String.join_nil, String.utf8ByteSize_empty] at htotal
                      have hfull : objectKeySegmentBytes = 200 := rfl
                      refine ⟨?_, ?_⟩ <;> rw [length_utf8, hsize] <;>
                        split <;> omega
                  | cons next parts =>
                      have hpos := hcut.pos
                      refine ⟨?_, hcut⟩
                      rw [length_utf8, hsize, if_neg (by omega)]
                      rfl
                · rw [String.utf8ByteSize_append, hsize, htotal]
                  split <;> omega

variable (rest) in
theorem collectionChunks_cut
    (hcount : count =
      (len + objectKeySegmentBytes - 1) / objectKeySegmentBytes)
    (hcut : Cut parts) (hleft : parts.length ≤ count)
    (htotal : (String.join parts).utf8ByteSize =
      len - (count - parts.length) * objectKeySegmentBytes) :
    collectionChunks len count parts.length (parts ++ rest) =
      .ok (String.join parts, rest) := by
  unfold objectKeySegmentBytes at hcount htotal
  induction parts with
  | nil => rfl
  | cons part parts ih =>
      rw [String.join_cons, String.utf8ByteSize_append, List.length_cons]
        at htotal
      rw [List.length_cons] at hleft
      have hsize : part.utf8ByteSize =
          expectedLen len count (count - (parts.length + 1)) := by
        unfold expectedLen objectKeySegmentBytes
        cases parts with
        | nil =>
            rw [String.join_nil, String.utf8ByteSize_empty,
              List.length_nil] at htotal
            rw [List.length_nil] at hleft ⊢
            split <;> omega
        | cons next parts =>
            have hpart := hcut.1
            rw [length_utf8] at hpart
            rw [List.length_cons] at hleft ⊢
            rw [hpart, if_neg (by omega)]
            rfl
      have hrest : collectionChunks len count parts.length (parts ++ rest) =
          .ok (String.join parts, rest) := by
        cases parts with
        | nil => rfl
        | cons next parts =>
            obtain ⟨hpart, hcut⟩ := hcut
            have hpos := Cut.pos hcut
            rw [length_utf8, objectKeySegmentBytes] at hpart
            apply ih hcut (by omega)
            omega
      rw [List.cons_append, List.length_cons, collectionChunks,
        if_neg (not_ne_iff.mpr hsize), hrest, String.join_cons]
      rfl

theorem cut_iff_tests :
    segments.any String.isEmpty = false ∧
        segments.dropLast.any
          (fun chunk => chunk.utf8ByteSize != objectKeySegmentBytes) = false ∧
        segments.getLast?.all (fun chunk =>
          decide (objectKeySegmentBytes < chunk.utf8ByteSize)) = false ↔
      segments ≠ [] ∧ Cut segments := by
  induction segments with
  | nil => simp
  | cons part parts ih =>
      cases parts with
      | nil => simp [Cut, Chunked, Nat.pos_iff_ne_zero]
      | cons next parts =>
          have hcut : Cut (part :: next :: parts) ↔
              part.utf8ByteSize = objectKeySegmentBytes ∧
                Cut (next :: parts) := by
            rw [← length_utf8]
            exact Iff.rfl
          have hempty : part.utf8ByteSize = objectKeySegmentBytes →
              part.isEmpty = false := by
            intro hsize
            rw [String.isEmpty_eq_false_iff]
            rintro rfl
            cases hsize
          have hany : (part :: next :: parts).any String.isEmpty = false ↔
              part.isEmpty = false ∧
                (next :: parts).any String.isEmpty = false := by
            rw [List.any_cons, Bool.or_eq_false_iff]
          have hfull : (part :: next :: parts).dropLast.any
                (fun chunk => chunk.utf8ByteSize != objectKeySegmentBytes) =
                  false ↔
              part.utf8ByteSize = objectKeySegmentBytes ∧
                (next :: parts).dropLast.any
                  (fun chunk => chunk.utf8ByteSize != objectKeySegmentBytes) =
                    false := by
            rw [List.dropLast_cons_cons, List.any_cons,
              Bool.or_eq_false_iff, bne_eq_false_iff_eq]
          rw [hcut, hany, hfull, List.getLast?_cons_cons]
          constructor
          · rintro ⟨⟨_, hany⟩, ⟨hsize, hfull⟩, hlast⟩
            exact ⟨List.cons_ne_nil _ _, hsize, (ih.mp ⟨hany, hfull, hlast⟩).2⟩
          · rintro ⟨_, hsize, hrest⟩
            obtain ⟨hany, hfull, hlast⟩ := ih.mpr ⟨List.cons_ne_nil _ _, hrest⟩
            exact ⟨⟨hempty hsize, hany⟩, ⟨hsize, hfull⟩, hlast⟩

theorem keyChunks_ok :
    keyChunks segments = .ok text ↔
      (segments = [""] ∧ text = "") ∨
        (segments ≠ [] ∧ Cut segments ∧ text = String.join segments) := by
  have hlone : ¬ Cut [""] := by
    rintro ⟨hpos, _⟩
    cases hpos
  unfold keyChunks
  by_cases hnil : segments = []
  · subst hnil
    simp
  · rw [if_neg (by simpa using hnil)]
    by_cases hempty : segments = [""]
    · subst hempty
      rw [if_pos rfl]
      constructor
      · rintro h
        cases h
        exact .inl ⟨rfl, rfl⟩
      · rintro (⟨_, rfl⟩ | ⟨_, hcut, _⟩)
        · rfl
        · exact absurd hcut hlone
    · rw [if_neg hempty]
      constructor
      · intro h
        split at h
        · cases h
        · rename_i htests
          cases h
          simp only [Bool.not_eq_true, Bool.or_eq_false_iff, and_assoc]
            at htests
          exact .inr ⟨hnil, (cut_iff_tests.mp htests).2, rfl⟩
      · rintro (⟨rfl, _⟩ | ⟨_, hcut, rfl⟩)
        · exact absurd rfl hempty
        · rw [if_neg]
          simp only [Bool.not_eq_true, Bool.or_eq_false_iff, and_assoc]
          exact cut_iff_tests.mpr ⟨hnil, hcut⟩

end Chunks

end OpenKeyV.S3
