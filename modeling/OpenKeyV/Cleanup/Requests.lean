import OpenKeyV.Entry.Exact
import OpenKeyV.Library.Base64Standard
import OpenKeyV.Library.Hex
import OpenKeyV.Library.Interaction
import OpenKeyV.S3.ObjectKey

/-!
# The requests of stores without a conditional delete

`S3Store`, `OpenSearchStore`, `VaultStore` and `FirestoreStore` keep one
object for each key.  A read that finds an expired entry deletes the object
in a request of its own.  An `ObjectStore` is what tells the four apart: the
names of their objects and what stands in one.
-/

namespace OpenKeyV.Cleanup

open Library Library.Interaction

/-- A page of `list_objects_v2`. -/
structure Listing (Address : Type) where
  contents : List (Option Address)
  isTruncated : Option Bool
  nextContinuationToken : Option String

inductive Access (Address Doc : Type) where
  | read (address : Address)
  | write (address : Address) (doc : Doc)
  | delete (address : Address)
  | now
  | list (continuation : Option String)

variable {Address Doc : Type}

@[reducible] def Access.Answer : Access Address Doc → Type
  | .read _ => Option Doc
  | .write _ _ | .delete _ => Unit
  | .now => DateTime
  | .list _ => Listing Address

abbrev Requests (Address Doc : Type) :=
  Calls Error (@Access.Answer Address Doc)

def readObject (address : Address) :
    Requests Address Doc (Option Doc) :=
  access (Access.read address)

def writeObject (address : Address) (doc : Doc) :
    Requests Address Doc Unit :=
  access (Access.write address doc)

def deleteObject (address : Address) : Requests Address Doc Unit :=
  access (Access.delete address)

def utcNow : Requests Address Doc DateTime := access Access.now

def listObjects (continuation : Option String) :
    Requests Address Doc (Listing Address) :=
  access (Access.list continuation)

structure ObjectStore (Address Doc : Type) where
  defaultCollection : String
  address : String → String → Except Error Address
  toDoc : ManagedEntry → Doc
  fromDoc : String → String → Address → Doc → Except Error ManagedEntry
  entryFirst : Bool
  fromDoc_toDoc : ∀ collection key address (entry : ManagedEntry),
    entry.value.Storable →
      fromDoc collection key address (toDoc entry) = .ok entry.truncMillis

namespace ObjectStore

variable (store : ObjectStore Address Doc)

def collectionName (collection : Option String) : String :=
  collection.getD store.defaultCollection

def readEntry (collection key : String) (address : Address) :
    Requests Address Doc (Option ManagedEntry) := do
  match ← readObject address with
  | none => return none
  | some doc => do
      let entry ← attempt (store.fromDoc collection key address doc)
      let time ← utcNow
      if entry.isExpired time then do
        deleteObject address
        return none
      else return some entry

def get (key : String) (collection : Option String) :
    Requests Address Doc (Option Value) := do
  let cname := store.collectionName collection
  let address ← attempt (store.address cname key)
  let entry ← store.readEntry cname key address
  return entry.map ManagedEntry.value

def ttl (key : String) (collection : Option String) :
    Requests Address Doc (Option (Value × Option F64)) := do
  let cname := store.collectionName collection
  let address ← attempt (store.address cname key)
  match ← store.readEntry cname key address with
  | none => return none
  | some entry => do
      let time ← utcNow
      return some (entry.value, entry.ttl time)

def put (key : String) (value : Value) (collection : Option String)
    (ttl : Option F64) : Requests Address Doc Unit := do
  let cname := store.collectionName collection
  if store.entryFirst then do
    let time ← utcNow
    let entry ← attempt (ManagedEntry.ofTtl time value ttl)
    let address ← attempt (store.address cname key)
    writeObject address (store.toDoc entry)
  else do
    let address ← attempt (store.address cname key)
    let time ← utcNow
    let entry ← attempt (ManagedEntry.ofTtl time value ttl)
    writeObject address (store.toDoc entry)

end ObjectStore

/-- The `map_err` that puts a text before the message of an error. -/
def prefixed {α : Type} (message : String) :
    Except Error α → Except Error α
  | .ok a => .ok a
  | .error error => .error (.deserialization (message ++ error.text))

def s3Store (defaultCollection : String) : ObjectStore String Bytes where
  defaultCollection := defaultCollection
  address := S3.s3Key
  toDoc := ManagedEntry.encode
  fromDoc _ _ _ bytes := ManagedEntry.decode bytes
  entryFirst := false
  fromDoc_toDoc _ _ _ entry h := ManagedEntry.decode_encode entry h.1 h.2

namespace S3

def cullObject (objectKey : String) : Requests String Bytes Unit := do
  let _ ← attempt (S3.decomposeS3Key objectKey)
  match ← readObject objectKey with
  | none => return ()
  | some bytes => do
      let entry ← attempt (ManagedEntry.decode bytes)
      let time ← utcNow
      if entry.isExpired time then deleteObject objectKey
      else return ()

def cullContents : List (Option String) → Requests String Bytes Unit
  | [] => return ()
  | none :: contents => cullContents contents
  | some objectKey :: contents => do
      cullObject objectKey
      cullContents contents

/-- The loop of `cull`, cut off after so many pages: in a run of finitely
many steps a number that is large enough makes no difference. -/
def cullPages : Nat → Option String → Requests String Bytes Unit
  | 0, _ => return ()
  | pages + 1, continuation => do
      let res ← listObjects continuation
      cullContents res.contents
      if res.isTruncated ≠ some true then return ()
      else
        match res.nextContinuationToken with
        | some token => cullPages pages (some token)
        | none => attempt (.error (.storeConnection
            ("S3 returned a truncated object listing without a " ++
              "continuation token")))

def cull (pages : Nat) : Requests String Bytes Unit := cullPages pages none

end S3

namespace OpenSearch

def indexMarker : String := "-okv1-"

def documentIdMarker : String := "okv1-"

def maxIndexBytes : Nat := 255

def maxDocumentIdBytes : Nat := 512

def isAsciiLowercase (byte : UInt8) : Bool :=
  decide (97 ≤ byte ∧ byte ≤ 122)

def isAsciiDigit (byte : UInt8) : Bool := decide (48 ≤ byte ∧ byte ≤ 57)

/-- `debug` is the `Debug` text of a string. -/
def validateIndexPrefix (debug : String → String) (lead : String) :
    Except Error Unit :=
  match utf8 lead with
  | [] => .error (.invalidKey "OpenSearch index prefix must not be empty")
  | first :: _ =>
      if isAsciiLowercase first = false ∧ isAsciiDigit first = false then
        .error (.invalidKey ("OpenSearch index prefix must start with a " ++
          s!"lowercase ASCII letter or digit: {debug lead}"))
      else if (utf8 lead).all (fun byte => isAsciiLowercase byte ||
          isAsciiDigit byte || byte = 46 || byte = 95 || byte = 45) =
            false then
        .error (.invalidKey ("OpenSearch index prefix contains " ++
          s!"unsupported characters: {debug lead}"))
      else if maxIndexBytes < lead.utf8ByteSize + indexMarker.utf8ByteSize then
        .error (.invalidKey ("OpenSearch index prefix is too long: empty " ++
          "collection index would be " ++
          s!"{lead.utf8ByteSize + indexMarker.utf8ByteSize} bytes " ++
          s!"(max {maxIndexBytes})"))
      else .ok ()

def encodeIndexName (debug : String → String) (lead collection : String) :
    Except Error String := do
  validateIndexPrefix debug lead
  let finalLen := lead.utf8ByteSize + indexMarker.utf8ByteSize +
    collection.utf8ByteSize * 2
  if maxIndexBytes < finalLen then
    .error (.invalidKey ("OpenSearch collection identity encodes to " ++
      s!"{finalLen} index bytes (max {maxIndexBytes})"))
  else
    .ok (lead ++ indexMarker ++ Hex.encode (utf8 collection))

def encodeDocumentId (key : String) : Except Error String :=
  let encoded := Base64Url.encode (utf8 key)
  let finalLen := documentIdMarker.utf8ByteSize + encoded.utf8ByteSize
  if maxDocumentIdBytes < finalLen then
    .error (.invalidKey ("OpenSearch key identity encodes to " ++
      s!"{finalLen} document ID bytes (max {maxDocumentIdBytes})"))
  else .ok (documentIdMarker ++ encoded)

structure OpenSearchDoc where
  entry : String
  expiresAt : Option Int
  deriving DecidableEq, Repr

def entryToDoc (entry : ManagedEntry) : OpenSearchDoc :=
  ⟨Base64Standard.encode entry.encode,
    entry.expiresAt.map DateTime.timestampMillis⟩

def docToEntry (index key : String) (doc : OpenSearchDoc) :
    Except Error ManagedEntry :=
  match Base64Standard.decode doc.entry with
  | none => .error (.deserialization
      s!"failed to decode Base64 OpenSearch entry {index}/{key}: ")
  | some encoded =>
      if Base64Standard.encode encoded ≠ doc.entry then
        .error (.deserialization (s!"OpenSearch entry {index}/{key} is not " ++
          "canonical padded standard Base64"))
      else do
        let entry ← prefixed ("failed to decode OpenKeyV entry in " ++
          s!"OpenSearch document {index}/{key}: ")
          (ManagedEntry.decode encoded)
        if doc.expiresAt ≠ entry.expiresAt.map DateTime.timestampMillis then
          .error (.deserialization (s!"OpenSearch document {index}/{key} " ++
            "expiration metadata does not match its OpenKeyV entry"))
        else .ok entry

theorem docToEntry_entryToDoc {entry : ManagedEntry}
    (h : entry.value.Storable) (index key : String) :
    docToEntry index key (entryToDoc entry) = .ok entry.truncMillis := by
  have hexpires : entry.expiresAt.map DateTime.timestampMillis =
      entry.truncMillis.expiresAt.map DateTime.timestampMillis := by
    rw [ManagedEntry.truncMillis, Option.map_map]
    congr 1
    funext t
    exact (DateTime.timestampMillis_truncMillis t).symm
  unfold docToEntry entryToDoc
  simp only [Base64Standard.decode_encode]
  rw [if_neg (not_ne_iff.mpr rfl), ManagedEntry.decode_encode entry h.1 h.2]
  exact if_neg (not_ne_iff.mpr hexpires)

end OpenSearch

def openSearchStore (debug : String → String)
    (defaultCollection indexPrefix : String) :
    ObjectStore (String × String) OpenSearch.OpenSearchDoc where
  defaultCollection := defaultCollection
  address collection key := do
    let index ← OpenSearch.encodeIndexName debug indexPrefix collection
    let documentId ← OpenSearch.encodeDocumentId key
    return (index, documentId)
  toDoc := OpenSearch.entryToDoc
  fromDoc _ _ address doc := OpenSearch.docToEntry address.1 address.2 doc
  entryFirst := false
  fromDoc_toDoc _ _ address _ h :=
    OpenSearch.docToEntry_entryToDoc h address.1 address.2

namespace Vault

def secretPath (collection key : String) : String :=
  Base64Url.encode (utf8
    (toString collection.utf8ByteSize ++ ":" ++ collection ++ key))

def toSecret (entry : ManagedEntry) : String :=
  Base64Standard.encode entry.encode

def fromSecret (mountPoint path secret : String) :
    Except Error ManagedEntry :=
  match Base64Standard.decode secret with
  | none => .error (.deserialization
      s!"failed to decode base64 Vault entry {mountPoint}/{path}: ")
  | some encoded =>
      prefixed ("failed to decode OpenKeyV entry in Vault secret " ++
        s!"{mountPoint}/{path}: ") (ManagedEntry.decode encoded)

theorem fromSecret_toSecret {entry : ManagedEntry}
    (h : entry.value.Storable) (mountPoint path : String) :
    fromSecret mountPoint path (toSecret entry) = .ok entry.truncMillis := by
  simp only [fromSecret, toSecret, Base64Standard.decode_encode,
    ManagedEntry.decode_encode entry h.1 h.2, prefixed]

end Vault

def vaultStore (defaultCollection mountPoint : String) :
    ObjectStore String String where
  defaultCollection := defaultCollection
  address collection key := .ok (Vault.secretPath collection key)
  toDoc := Vault.toSecret
  fromDoc _ _ path secret := Vault.fromSecret mountPoint path secret
  entryFirst := false
  fromDoc_toDoc _ _ path _ h := Vault.fromSecret_toSecret h mountPoint path

namespace Firestore

def identityPrefix : String := "okv1-"

def maxIdentifierBytes : Nat := 1500

def maxDocumentNameBytes : Nat := 6 * 1024

def encodeIdentifier (value kind : String) : Except Error String :=
  let encoded := Base64Url.encode (utf8 value)
  let finalLen := identityPrefix.utf8ByteSize + encoded.utf8ByteSize
  if maxIdentifierBytes < finalLen then
    .error (.invalidKey (s!"Firestore {kind} identity encodes to " ++
      s!"{finalLen} bytes (max {maxIdentifierBytes})"))
  else .ok (identityPrefix ++ encoded)

def validateDocumentName (documentsPath collectionId documentId : String) :
    Except Error Unit :=
  let finalLen := documentsPath.utf8ByteSize + collectionId.utf8ByteSize +
    documentId.utf8ByteSize + 2
  if maxDocumentNameBytes < finalLen then
    .error (.invalidKey (s!"Firestore document name encodes to " ++
      s!"{finalLen} bytes (max {maxDocumentNameBytes})"))
  else .ok ()

def documentName (documentsPath collection key : String) :
    Except Error (String × String) := do
  let collectionId ← encodeIdentifier collection "collection"
  let documentId ← encodeIdentifier key "key"
  validateDocumentName documentsPath collectionId documentId
  return (collectionId, documentId)

end Firestore

def firestoreStore (defaultCollection documentsPath : String) :
    ObjectStore (String × String) Bytes where
  defaultCollection := defaultCollection
  address := Firestore.documentName documentsPath
  toDoc := ManagedEntry.encode
  fromDoc cname key _ entry := prefixed ("failed to decode OpenKeyV entry " ++
    s!"in Firestore document {cname}/{key}: ") (ManagedEntry.decode entry)
  entryFirst := true
  fromDoc_toDoc _ _ _ entry h := by
    rw [ManagedEntry.decode_encode entry h.1 h.2, prefixed]

end OpenKeyV.Cleanup
