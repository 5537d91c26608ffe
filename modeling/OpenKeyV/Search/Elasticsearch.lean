import OpenKeyV.Library.Base64Url
import OpenKeyV.Library.Interaction
import OpenKeyV.Python.DocumentCodec
import OpenKeyV.Python.Text
import OpenKeyV.Search.OpenSearch

/-!
# The requests of the Python `ElasticsearchStore`

`stores/elasticsearch/store.py`: what it sends to the cluster, one request
after the other, and how it reads the bodies of the responses.
-/

namespace OpenKeyV.Search.ElasticsearchStore

open Library Library.Interaction Python

def defaultPageSize : Int := 10000

def pageLimit : Int := 10000

def indexEncodingPrefix : String := "okv1-"

def maxIndexBytes : Nat := 255

def maxDocumentIdBytes : Nat := 512

def allowedIndexPrefixCharacters : List Char :=
  "abcdefghijklmnopqrstuvwxyz0123456789_-.".toList

inductive EsError where
  | invalidKeyError (message : String)
  | storeConnectionError (message : String)
  | raised (error : PyError)
  deriving DecidableEq, Repr

def valueError (message : String) : EsError := .raised ⟨.valueError, message⟩

/-- A JSON object; its keys are strings. -/
abbrev Body := List (PyKey × PyValue)

abbrev Document := Body

inductive Query where
  /-- `{"term": {"collection": …}}` -/
  | term (collection : String)
  /-- `{"range": {"expires_at": {"lt": …}}}` -/
  | expired (msEpoch : Int)

inductive BulkOperation where
  | index (index id : String) (document : Document)
  | delete (index id : String)

/-- One request with `ignore_status=404`, or one reading of the clock. -/
inductive Access where
  | indicesExists (index : String)
  | indicesCreate (index : String)
  | indicesGet (pattern : String)
  | get (index id : String)
  | index (index id : String) (document : Document)
  | bulk (operations : List BulkOperation)
  | delete (index id : String)
  | search (index : String) (query : Query) (size : Nat)
  | deleteByQuery (indices : List String) (query : Query)
  | now

structure Response where
  status : Nat
  body : Body

@[reducible] def Access.Answer : Access → Type
  | .indicesExists _ => Bool
  | .now => DateTime
  | _ => Response

abbrev Requests := Calls EsError Access.Answer

def raise {α : Type} (error : EsError) : Requests α := attempt (.error error)

def storeConnection {α : Type} (message : String) : Requests α :=
  raise (.storeConnectionError message)

def now : Requests DateTime := access Access.now

def isText (text : String) : Option PyValue → Bool
  | some (.str value) => value == text
  | _ => false

def isTextIn (texts : List String) : Option PyValue → Bool
  | some (.str value) => texts.contains value
  | _ => false

def isBool (truth : Bool) : Option PyValue → Bool
  | some (.bool value) => value == truth
  | _ => false

def isIntIn (numbers : List Int) : Option PyValue → Bool
  | some (.int value) => numbers.contains value
  | _ => false

/-! ## What the package and the platform provide -/

/-- Instants in floating point: `int(value.timestamp() * 1000)` of a
`datetime`, of `now()` and `int(now_as_epoch() * 1000)`. -/
structure Platform where
  base64 : Base64
  outOfRange : OutOfRange
  epochMillis : PyDatetime → Int
  /-- The float may fall short of a millisecond, towards the epoch. -/
  inYears : ∀ value, minDatetimeMillis ≤ epochMillis value ∧
    epochMillis value ≤ maxDatetimeMillis
  nowMillis : DateTime → Int
  isoformat : PyDatetime → String
  lower : String → String

structure Config where
  indexPrefix : String
  defaultCollection : String
  autoCreate : Bool

section Names

/-- The checks of `__init__`, which keeps the normalized text.  A name of
these characters has as many bytes as characters. -/
def normalizeIndexPrefix (platform : Platform) (indexPrefix : String) :
    Except EsError String :=
  if indexPrefix.isEmpty then
    .error (valueError "index_prefix must not be empty")
  else
    let normalized := platform.lower indexPrefix
    if (normalized.toList.head?.any fun c => "-_+".toList.contains c) ||
        !normalized.toList.all fun c =>
          allowedIndexPrefixCharacters.contains c then
      .error (valueError ("index_prefix must contain only lowercase " ++
        "Elasticsearch index characters"))
    else if maxIndexBytes <
        (normalized ++ "-" ++ indexEncodingPrefix).utf8ByteSize then
      .error (valueError ("index_prefix leaves no room for an Elasticsearch " ++
        s!"collection index within {maxIndexBytes} bytes"))
    else .ok normalized

variable (config : Config)

def getIndexNamespacePrefix : String :=
  config.indexPrefix ++ "-" ++ indexEncodingPrefix

def getIndexName (collection : String) : Except EsError String :=
  let indexName := getIndexNamespacePrefix config ++
    Hex.encode (utf8 collection)
  if maxIndexBytes < indexName.utf8ByteSize then
    .error (.invalidKeyError ("Elasticsearch collection index exceeds the " ++
      s!"maximum size of {maxIndexBytes} bytes"))
  else .ok indexName

def getDocumentId (key : String) : Except EsError String :=
  let documentId := indexEncodingPrefix ++ Base64Url.encode (utf8 key)
  if maxDocumentIdBytes < documentId.utf8ByteSize then
    .error (.invalidKeyError ("Elasticsearch document ID exceeds the " ++
      s!"maximum size of {maxDocumentIdBytes} bytes"))
  else .ok documentId

def getDocumentIds : List String → Except EsError (List String)
  | [] => .ok []
  | key :: keys => do
      let documentId ← getDocumentId key
      let documentIds ← getDocumentIds keys
      return documentId :: documentIds

def decodeIndexName (indexName : String) : Except EsError String :=
  match stripPrefix (getIndexNamespacePrefix config) indexName with
  | none => .error (.storeConnectionError
      "Elasticsearch index is outside the OpenKeyV namespace")
  | some encodedCollection =>
      match Hex.decode encodedCollection with
      | none => .error (.storeConnectionError ("Elasticsearch owned index " ++
          "has a malformed canonical collection identity"))
      | some bytes =>
          match ofUtf8 bytes with
          | none => .error (.storeConnectionError ("Elasticsearch owned " ++
              "index has a non-UTF-8 canonical collection identity"))
          | some collection =>
              match getIndexName config collection with
              | .error _ => .error (.storeConnectionError ("Elasticsearch " ++
                  "owned index exceeds the canonical collection boundary"))
              | .ok canonicalIndexName =>
                  if canonicalIndexName ≠ indexName then
                    .error (.storeConnectionError ("Elasticsearch owned " ++
                      "index is not a canonical collection identity"))
                  else .ok collection

def decodeIndexNames : List String → Except EsError (List String)
  | [] => .ok []
  | indexName :: indexNames => do
      let collection ← decodeIndexName config indexName
      let collections ← decodeIndexNames indexNames
      return collection :: collections

end Names

/-! ## Documents -/

section Documents

variable (platform : Platform)

def dumpDict (entry : PyManagedEntry) (key collection : String) :
    Except PyError Document := do
  let millis := Option.map fun value =>
    Int64.ofInt (platform.epochMillis value)
  let encoded ← except isEntryError (fun error => ⟨.serializationError,
    s!"Invalid Elasticsearch entry: {error.message}"⟩)
    (encodeEntry entry.value (millis entry.createdAt)
      (millis entry.expiresAt))
  let instant (name : String) (value : Option PyDatetime) : Document :=
    value.toList.map fun value => (.str name, .str (platform.isoformat value))
  return [(.str "entry", .str (Base64Standard.encode encoded))] ++
    instant "created_at" entry.createdAt ++
    instant "expires_at" entry.expiresAt ++
    [(.str "key", .str key), (.str "collection", .str collection)]

def isExpired (entry : PyManagedEntry) (time : DateTime) : Bool :=
  entry.expiresAt.any fun value =>
    decide (platform.epochMillis value ≤ platform.nowMillis time)

end Documents

/-! ## Responses -/

def checkedSource (platform : Platform) (key collection : String) :
    Option PyValue → Except EsError PyManagedEntry
  | some (.dict source) =>
      if isText key (getItem "key" source) = false ∨
          isText collection (getItem "collection" source) = false then
        .error (.raised ⟨.deserializationError, "Elasticsearch document " ++
          "identity does not match the requested key and collection"⟩)
      else
        (loadDict platform.base64 platform.outOfRange source).mapError .raised
  | _ => .error (.raised ⟨.deserializationError, "Elasticsearch document " ++
      "_source must be an object with string keys"⟩)

def shardsFailed : Option PyValue → Bool
  | some (.dict shards) => !isIntIn [0] (getItem "failed" shards)
  | _ => true

def bulkResult (operation : String) : PyValue → Except EsError Body
  | .dict [(.str name, result)] =>
      if name ≠ operation then
        .error (.storeConnectionError (s!"Elasticsearch bulk-{operation} " ++
          s!"item must contain exactly one {operation} result"))
      else
        match result with
        | .dict result => .ok result
        | _ => .error (.storeConnectionError
            s!"Elasticsearch bulk-{operation} result must be an object")
  | _ => .error (.storeConnectionError (s!"Elasticsearch bulk-{operation} " ++
      s!"item must contain exactly one {operation} result"))

def checkIndexItems : List (String × PyValue) → Except EsError Unit
  | [] => .ok ()
  | (documentId, item) :: items => do
      let result ← bulkResult "index" item
      if isText documentId (getItem "_id" result) = false ∨
          isTextIn ["created", "updated"] (getItem "result" result) =
            false then
        .error (.storeConnectionError ("Elasticsearch bulk-index item did " ++
          "not confirm the requested write"))
      else if isIntIn [200, 201] (getItem "status" result) = false then
        .error (.storeConnectionError
          "Elasticsearch bulk-index item returned an invalid status")
      else checkIndexItems items

def countDeleteItems : List (String × PyValue) → Except EsError Nat
  | [] => .ok 0
  | (documentId, item) :: items => do
      let result ← bulkResult "delete" item
      if isText documentId (getItem "_id" result) = false then
        .error (.storeConnectionError ("Elasticsearch bulk-delete item " ++
          "document ID does not match the requested key"))
      else
        let status := getItem "status" result
        let operationResult := getItem "result" result
        if isText "deleted" operationResult && isIntIn [200] status then do
          let deletedCount ← countDeleteItems items
          return deletedCount + 1
        else if isText "not_found" operationResult &&
            isIntIn [404] status then
          countDeleteItems items
        else
          .error (.storeConnectionError ("Elasticsearch bulk-delete failed " ++
            s!"for document '{documentId}'"))

def bulkItems (operation failed : String) (documentIds : List String)
    (body : Body) : Except EsError (List (String × PyValue)) :=
  if isBool false (getItem "errors" body) = false then
    .error (.storeConnectionError (s!"Elasticsearch bulk-{operation} " ++
      s!"response reported one or more failed {failed}"))
  else
    match getItem "items" body with
    | some (.list items) =>
        if items.length ≠ documentIds.length then
          .error (.storeConnectionError (s!"Elasticsearch bulk-{operation} " ++
            "response must contain one item per requested key"))
        else .ok (documentIds.zip items)
    | _ => .error (.storeConnectionError (s!"Elasticsearch bulk-" ++
        s!"{operation} response must contain one item per requested key"))

/-- `if body.get("timed_out") is not False`, and the failures. -/
def checkByQuery (timedOut failed : String) (body : Body) :
    Except EsError Unit :=
  if isBool false (getItem "timed_out" body) = false then
    .error (.storeConnectionError timedOut)
  else
    match getItem "failures" body with
    | some (.list []) => .ok ()
    | _ => .error (.storeConnectionError failed)

def hitKey (indexName : String) : PyValue → Except EsError String
  | .dict hit =>
      if isText indexName (getItem "_index" hit) = false then
        .error (.storeConnectionError ("Elasticsearch key-search hit index " ++
          "does not match the requested collection"))
      else
        match getItem "_id" hit with
        | some (.str documentId) =>
            match getItem "fields" hit with
            | some (.dict fields) =>
                match getItem "key" fields with
                | some (.list [.str key]) =>
                    match getDocumentId key with
                    | .error _ => .error (.storeConnectionError
                        ("Elasticsearch key-search hit contains an invalid " ++
                          "canonical key"))
                    | .ok expectedDocumentId =>
                        if documentId ≠ expectedDocumentId then
                          .error (.storeConnectionError
                            ("Elasticsearch key-search hit document ID does " ++
                              "not match the returned key"))
                        else .ok key
                | _ => .error (.storeConnectionError ("Elasticsearch " ++
                    "key-search hit must contain exactly one string key " ++
                    "field"))
            | _ => .error (.storeConnectionError
                "Elasticsearch key-search hit fields must be an object")
        | _ => .error (.storeConnectionError
            "Elasticsearch key-search hit document ID must be a string")
  | _ => .error (.storeConnectionError
      "Elasticsearch key-search hit must be an object")

def hitKeys (indexName : String) : List PyValue → Except EsError (List String)
  | [] => .ok []
  | hit :: hits => do
      let key ← hitKey indexName hit
      let keys ← hitKeys indexName hits
      return key :: keys

def searchedKeys (indexName : String) (body : Body) :
    Except EsError (List String) :=
  match getItem "hits" body with
  | some (.dict hits) =>
      match getItem "hits" hits with
      | some (.list hitItems) => hitKeys indexName hitItems
      | _ => .error (.storeConnectionError
          "Elasticsearch key-search response hits.hits must be a list")
  | _ => .error (.storeConnectionError
      "Elasticsearch key-search response hits must be an object")

def deletedCount (body : Body) : Except EsError Int :=
  let invalid := EsError.storeConnectionError ("Elasticsearch " ++
    "delete-by-query deleted count must be a non-negative integer")
  match getItem "deleted" body with
  | some (.int deleted) => if deleted < 0 then .error invalid else .ok deleted
  | _ => .error invalid

def bodyNames (body : Body) : List String :=
  body.filterMap fun field =>
    match field.1 with
    | .str name => some name
    | .other _ => none

/-! ## Operations -/

section Operations

variable (platform : Platform) (config : Config)

def collectionName (collection : Option String) : String :=
  collection.getD config.defaultCollection

def setupCollection (collection : String) : Requests Unit := do
  let indexName ← attempt (getIndexName config collection)
  if ← access (Access.indicesExists indexName) then return ()
  else if config.autoCreate = false then
    raise (valueError (s!"Index '{indexName}' does not exist. Either create " ++
      "the index manually or set auto_create=True."))
  else do
    let response ← access (Access.indicesCreate indexName)
    if isBool true (getItem "acknowledged" response.body) = false ∨
        isText indexName (getItem "index" response.body) = false then
      storeConnection (s!"Elasticsearch did not acknowledge creation of " ++
        s!"index '{indexName}'")
    else return ()

def getManagedEntry (key collection : String) :
    Requests (Option PyManagedEntry) := do
  let indexName ← attempt (getIndexName config collection)
  let documentId ← attempt (getDocumentId key)
  let response ← access (Access.get indexName documentId)
  if isText documentId (getItem "_id" response.body) = false then
    storeConnection ("Elasticsearch get response document ID does not " ++
      "match the requested key")
  else if isBool false (getItem "found" response.body) then return none
  else if isBool true (getItem "found" response.body) = false then
    storeConnection "Elasticsearch get response found field must be a boolean"
  else do
    let entry ← attempt
      (checkedSource platform key collection (getItem "_source" response.body))
    return some entry

def unexpiredEntry (key : String) (collection : Option String) :
    Requests (Option PyManagedEntry) := do
  let _ ← attempt (getDocumentId key)
  let resolved := collectionName config collection
  setupCollection config resolved
  match ← getManagedEntry platform config key resolved with
  | none => return none
  | some entry => do
      let time ← now
      if isExpired platform entry time then return none else return some entry

def get (key : String) (collection : Option String) : Requests PyValue := do
  match ← unexpiredEntry platform config key collection with
  | none => return .none
  | some entry => return entry.value

def putManagedEntry (key collection : String) (entry : PyManagedEntry) :
    Requests Unit := do
  let indexName ← attempt (getIndexName config collection)
  let documentId ← attempt (getDocumentId key)
  let document ← attempt
    ((dumpDict platform entry key collection).mapError .raised)
  let response ← access (Access.index indexName documentId document)
  if isText documentId (getItem "_id" response.body) = false ∨
      isTextIn ["created", "updated"] (getItem "result" response.body) =
        false then
    storeConnection ("Elasticsearch index response did not confirm the " ++
      "requested write")
  else if shardsFailed (getItem "_shards" response.body) then
    storeConnection "Elasticsearch index response reported failed shards"
  else return ()

def newTimestamps (ttl : Option SupportsFloat) :
    Requests (PyDatetime × Option PyDatetime) := do
  let time ← now
  let (createdAt, _, expiresAt) ← attempt
    ((prepareEntryTimestamps platform.outOfRange time ttl).mapError .raised)
  return (createdAt, expiresAt)

def put (key : String) (value : PyValue) (collection : Option String)
    (ttl : Option SupportsFloat) : Requests Unit := do
  let _ ← attempt (getDocumentId key)
  let (createdAt, expiresAt) ← newTimestamps platform ttl
  let resolved := collectionName config collection
  setupCollection config resolved
  putManagedEntry platform config key resolved
    ⟨value, some createdAt, expiresAt⟩

def indexOperations (indexName collection : String) :
    List (String × PyManagedEntry) → Except EsError (List BulkOperation)
  | [] => .ok []
  | (key, entry) :: entries => do
      let documentId ← getDocumentId key
      let document ← (dumpDict platform entry key collection).mapError .raised
      let operations ← indexOperations indexName collection entries
      return .index indexName documentId document :: operations

def putManagedEntries (collection : String) (keys : List String)
    (entries : List PyManagedEntry) : Requests Unit := do
  if keys.isEmpty then return ()
  else do
    let indexName ← attempt (getIndexName config collection)
    let operations ← attempt
      (indexOperations platform indexName collection (keys.zip entries))
    let response ← access (Access.bulk operations)
    let documentIds ← attempt (getDocumentIds keys)
    let items ← attempt (bulkItems "index" "writes" documentIds response.body)
    attempt (checkIndexItems items)

def putMany (keys : List String) (values : List PyValue)
    (collection : Option String) (ttl : Option SupportsFloat) :
    Requests Unit := do
  if keys.length ≠ values.length then
    raise (valueError ("put_many called but a different number of keys and " ++
      "values were provided"))
  else do
    let _ ← attempt (getDocumentIds keys)
    let time ← now
    let validatedTtl ← attempt ((prepareTtl time ttl).mapError EsError.raised)
    let (createdAt, expiresAt) ← newTimestamps platform
      (validatedTtl.map .ofF64)
    let resolved := collectionName config collection
    setupCollection config resolved
    putManagedEntries platform config resolved keys
      (values.map fun value => ⟨value, some createdAt, expiresAt⟩)

def deleteManagedEntry (key collection : String) : Requests Bool := do
  let indexName ← attempt (getIndexName config collection)
  let documentId ← attempt (getDocumentId key)
  let response ← access (Access.delete indexName documentId)
  if isText documentId (getItem "_id" response.body) = false then
    storeConnection ("Elasticsearch delete response document ID does not " ++
      "match the requested key")
  else if isText "not_found" (getItem "result" response.body) then
    return false
  else if isText "deleted" (getItem "result" response.body) = false then
    storeConnection ("Elasticsearch delete response result must be deleted " ++
      "or not_found")
  else return true

def delete (key : String) (collection : Option String) : Requests Bool := do
  let _ ← attempt (getDocumentId key)
  let resolved := collectionName config collection
  setupCollection config resolved
  deleteManagedEntry config key resolved

def deleteManagedEntries (keys : List String) (collection : String) :
    Requests Nat := do
  if keys.isEmpty then return 0
  else do
    let indexName ← attempt (getIndexName config collection)
    let documentIds ← attempt (getDocumentIds keys)
    let response ← access
      (Access.bulk (documentIds.map (.delete indexName)))
    let items ← attempt
      (bulkItems "delete" "deletes" documentIds response.body)
    attempt (countDeleteItems items)

def deleteMany (keys : List String) (collection : Option String) :
    Requests Nat := do
  let _ ← attempt (getDocumentIds keys)
  let resolved := collectionName config collection
  setupCollection config resolved
  deleteManagedEntries config keys resolved

def pageSize (limit : Option Int) : Int :=
  min (limit.getD defaultPageSize) pageLimit

def getCollectionKeys (collection : String) (limit : Option Int) :
    Requests (List String) := do
  let indexName ← attempt (getIndexName config collection)
  let response ← access
    (Access.search indexName (.term collection) pageLimit.toNat)
  let allKeys ← attempt (searchedKeys indexName response.body)
  return sliceTo (pageSize limit) allKeys

def keys (collection : Option String) (limit : Option Int) :
    Requests (List String) := do
  let resolved := collectionName config collection
  setupCollection config resolved
  getCollectionKeys config resolved limit

def getOwnedIndexNames : Requests (List String) := do
  let response ← access
    (Access.indicesGet (getIndexNamespacePrefix config ++ "*"))
  if response.status = 404 then return []
  else if response.status ≠ 200 then
    storeConnection ("Elasticsearch owned-index lookup returned an " ++
      "unexpected status")
  else do
    let indexNames := bodyNames response.body
    let _ ← attempt (decodeIndexNames config indexNames)
    return indexNames

def collections (limit : Option Int) : Requests (List String) := do
  let indexNames ← getOwnedIndexNames config
  let collectionNames ← attempt (decodeIndexNames config indexNames)
  return sliceTo (pageSize limit) collectionNames

def deleteCollection (collection : String) : Requests Bool := do
  let indexName ← attempt (getIndexName config collection)
  let response ← access
    (Access.deleteByQuery [indexName] (.term collection))
  attempt (checkByQuery "Elasticsearch delete-by-query timed out"
    "Elasticsearch delete-by-query reported failures" response.body)
  let deleted ← attempt (deletedCount response.body)
  return decide (0 < deleted)

def destroyCollection (collection : String) : Requests Bool := do
  let _ ← attempt (getIndexName config collection)
  deleteCollection config collection

def deleteCollections : List String → Requests Unit
  | [] => return ()
  | collection :: collections => do
      let _ ← deleteCollection config collection
      deleteCollections collections

def destroy : Requests Bool := do
  let collections ← collections config none
  deleteCollections config collections
  return true

def cull : Requests Unit := do
  let indexNames ← getOwnedIndexNames config
  if indexNames.isEmpty then return ()
  else do
    let time ← now
    let response ← access (Access.deleteByQuery indexNames
      (.expired (platform.nowMillis time)))
    attempt (checkByQuery "Elasticsearch cull operation timed out"
      "Elasticsearch cull operation reported failures" response.body)

end Operations

end OpenKeyV.Search.ElasticsearchStore
