import OpenKeyV.Cleanup.Requests
import OpenKeyV.Library.KeyedMap
import OpenKeyV.Library.SortBy
import OpenKeyV.Search.IndexNames

/-!
# The indices of `OpenSearchStore`

`collections`, `cull` and `destroy` of `store/opensearch/store.rs` on the
indices of a cluster.  They ask for every index behind their prefix and
refuse to go on when one of them is no name that they have made.
-/

namespace OpenKeyV.Search

open Library

/-- The indices of a cluster, each with its documents by their ids. -/
abbrev Cluster (Doc : Type) := KeyedMap String (KeyedMap String Doc)

namespace Cluster

variable {Doc : Type}

def matching (cluster : Cluster Doc) (pattern : String) : List String :=
  cluster.keys.filter (wildcardMatch pattern)

def deleteIn (query : Doc → Bool) (cluster : Cluster Doc) (index : String) :
    Cluster Doc :=
  match cluster.lookup index with
  | some documents =>
      cluster.insert index (documents.retain fun _ doc => !query doc)
  | none => cluster

def deleteByQuery (query : Doc → Bool) (indices : List String)
    (cluster : Cluster Doc) : Cluster Doc :=
  indices.foldl (deleteIn query) cluster

def deleteIndices (indices : List String) (cluster : Cluster Doc) :
    Cluster Doc :=
  cluster.eraseAll indices

end Cluster

namespace OpenSearchStore

open Cleanup.OpenSearch

abbrev Documents := Cluster OpenSearchDoc

def pageLimit : Nat := 10000

/-- `debug` is the `Debug` text of a string. -/
structure Config where
  debug : String → String
  indexPrefix : String

def decodeIndexName (config : Config) (index : String) :
    Except Error String := do
  validateIndexPrefix config.debug config.indexPrefix
  if maxIndexBytes < index.utf8ByteSize then
    .error (.invalidKey (s!"OpenSearch index name is {index.utf8ByteSize} " ++
      s!"bytes (max {maxIndexBytes}): {config.debug index}"))
  else
    match stripPrefix (config.indexPrefix ++ indexMarker) index with
    | none => .error (.invalidKey ("OpenSearch index is not a canonical " ++
        s!"OpenKeyV collection identity: {config.debug index}"))
    | some encoded =>
        if encoded.utf8ByteSize % 2 ≠ 0 then
          .error (.invalidKey ("OpenSearch index has odd-length collection " ++
            s!"hex: {config.debug index}"))
        else
          match Hex.decode encoded with
          | none => .error (.invalidKey ("OpenSearch index contains " ++
              s!"non-lowercase-hex collection data: {config.debug index}"))
          | some bytes =>
              match ofUtf8 bytes with
              | none => .error (.invalidKey ("OpenSearch index contains " ++
                  s!"invalid UTF-8 collection data {config.debug index}: "))
              | some collection => do
                  let canonical ←
                    encodeIndexName config.debug config.indexPrefix collection
                  if canonical ≠ index then
                    .error (.invalidKey ("OpenSearch index is not " ++
                      s!"canonical: {config.debug index}"))
                  else return collection

def indexPattern (config : Config) : Except Error String := do
  validateIndexPrefix config.debug config.indexPrefix
  return config.indexPrefix ++ "-*"

def decodeDocumentId (config : Config) (documentId : String) :
    Except Error String :=
  if maxDocumentIdBytes < documentId.utf8ByteSize then
    .error (.invalidKey (s!"OpenSearch document ID is " ++
      s!"{documentId.utf8ByteSize} bytes (max {maxDocumentIdBytes}): " ++
      config.debug documentId))
  else
    match stripPrefix documentIdMarker documentId with
    | none => .error (.invalidKey ("OpenSearch document ID is not a " ++
        s!"canonical OpenKeyV key identity: {config.debug documentId}"))
    | some encoded =>
        match Base64Url.decode encoded with
        | none => .error (.invalidKey ("OpenSearch document ID contains " ++
            s!"invalid unpadded Base64URL {config.debug documentId}: "))
        | some bytes =>
            if Base64Url.encode bytes ≠ encoded then
              .error (.invalidKey ("OpenSearch document ID is not canonical " ++
                s!"unpadded Base64URL: {config.debug documentId}"))
            else
              match ofUtf8 bytes with
              | none => .error (.invalidKey ("OpenSearch document ID " ++
                  "contains invalid UTF-8 key data " ++
                  s!"{config.debug documentId}: "))
              | some key => .ok key

section Operations

variable (config : Config)

def decodeNames : List String → Except Error (List (String × String))
  | [] => .ok []
  | index :: indices => do
      let collection ← decodeIndexName config index
      let rest ← decodeNames indices
      return (index, collection) :: rest

/-- The response is read into a `BTreeMap`. -/
def ownedIndices (cluster : Documents) :
    Except Error (List (String × String)) := do
  let pattern ← indexPattern config
  decodeNames config (sortBy (fun index => (utf8 index).map UInt8.toNat)
    (cluster.matching pattern))

def validateDocumentIds (cluster : Documents) (index : String) :
    Except Error Bool :=
  match cluster.lookup index with
  | none => .ok false
  | some documents => do
      documents.keys.forM fun id => do
        let _ ← decodeDocumentId config id
      return true

def validateAll (cluster : Documents) :
    List (String × String) → Except Error Unit
  | [] => .ok ()
  | (index, _) :: indices => do
      let _ ← validateDocumentIds config cluster index
      validateAll cluster indices

def expiredAt (now : DateTime) (doc : OpenSearchDoc) : Bool :=
  doc.expiresAt.any fun millis => decide (millis ≤ now.timestampMillis)

def checkedIndices (cluster : Documents) : Except Error (List String) := do
  let indices ← ownedIndices config cluster
  validateAll config cluster indices
  return indices.map Prod.fst

def cull (now : DateTime) (cluster : Documents) :
    Except Error Unit × Documents :=
  match checkedIndices config cluster with
  | .error error => (.error error, cluster)
  | .ok [] => (.ok (), cluster)
  | .ok indices => (.ok (), cluster.deleteByQuery (expiredAt now) indices)

def collections (limit : Option Nat) (cluster : Documents) :
    Except Error (List String) := do
  let indices ← ownedIndices config cluster
  let limit := min (limit.getD pageLimit) pageLimit
  return (indices.take limit).map Prod.snd

def destroy (cluster : Documents) : Except Error Bool × Documents :=
  match checkedIndices config cluster with
  | .error error => (.error error, cluster)
  | .ok [] => (.ok true, cluster)
  | .ok indices => (.ok true, cluster.deleteIndices indices)

end Operations

end OpenSearchStore

end OpenKeyV.Search
