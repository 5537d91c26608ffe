import OpenKeyV.Search.Elasticsearch

/-!
# The cluster behind `ElasticsearchStore`

Each request is atomic and sees what the ones before have written.  An index
that is missing is answered with an error and a status alone.
-/

namespace OpenKeyV.Search.ElasticsearchStore

open Library Library.Interaction Python

abbrev Documents := Cluster Document

structure Server where
  cluster : Documents
  clock : Nat → DateTime

/-- What the cluster is free in: the order of indices and of hits, and how it
compares an `expires_at` with an instant. -/
structure Backend where
  arrange : List String → List String
  perm : ∀ names, (arrange names).Perm names
  before : Document → Int → Bool

def Query.matches (backend : Backend) : Query → Document → Bool
  | .term collection, document =>
      isText collection (getItem "collection" document)
  | .expired msEpoch, document => backend.before document msEpoch

def missingIndex : Response where
  status := 404
  body := [(.str "error", .dict [(.str "type",
    .str "index_not_found_exception")]), (.str "status", .int 404)]

def about (index id : String) (rest : Body) : Body :=
  (.str "_index", .str index) :: (.str "_id", .str id) :: rest

section Server

def indexDocument (index id : String) (document : Document)
    (cluster : Documents) : Documents :=
  cluster.insert index (((cluster.lookup index).getD ∅).insert id document)

def deleteDocument (index id : String) (cluster : Documents) : Documents :=
  match cluster.lookup index with
  | some documents => cluster.insert index (documents.erase id)
  | none => cluster

def document? (index id : String) (cluster : Documents) : Option Document :=
  (cluster.lookup index).bind (·.lookup id)

def createdOrUpdated (index id : String) (cluster : Documents) : String :=
  if (document? index id cluster).isSome then "updated" else "created"

def deletedOrNot (index id : String) (cluster : Documents) : String :=
  if (document? index id cluster).isSome then "deleted" else "not_found"

def bulkStep (cluster : Documents) :
    BulkOperation → (Bool × PyValue) × Documents
  | .index index id document =>
      let result := createdOrUpdated index id cluster
      ((false, .dict [(.str "index", .dict (about index id
        [(.str "result", .str result),
          (.str "status", .int (if result = "created" then 201 else 200))]))]),
        indexDocument index id document cluster)
  | .delete index id =>
      match cluster.lookup index with
      | none => ((true, .dict [(.str "delete", .dict (about index id
          [(.str "status", .int 404)]))]), cluster)
      | some _ =>
          let result := deletedOrNot index id cluster
          ((false, .dict [(.str "delete", .dict (about index id
            [(.str "result", .str result),
              (.str "status", .int (if result = "deleted" then 200 else
                404))]))]),
            deleteDocument index id cluster)

def bulkRun (cluster : Documents) :
    List BulkOperation → List (Bool × PyValue) × Documents
  | [] => ([], cluster)
  | operation :: operations =>
      let (item, cluster) := bulkStep cluster operation
      let (items, cluster) := bulkRun cluster operations
      (item :: items, cluster)

def hitFields (document : Document) : Body :=
  match getItem "key" document with
  | some key => [(.str "key", .list [key])]
  | none => []

def hit (index : String) (documents : KeyedMap String Document)
    (id : String) : PyValue :=
  .dict (about index id [(.str "fields",
    .dict (((documents.lookup id).map hitFields).getD []))])

variable (backend : Backend)

def searchResponse (index : String) (query : Query) (size : Nat)
    (documents : KeyedMap String Document) : Response :=
  let found := documents.retain fun _ document =>
    query.matches backend document
  let hits := ((backend.arrange found.keys).take size).map
    (hit index documents)
  ⟨200, [(.str "timed_out", .bool false),
    (.str "hits", .dict [(.str "hits", .list hits)])]⟩

def matched (cluster : Documents) (query : Query) (index : String) : Nat :=
  (((cluster.lookup index).getD ∅).retain fun _ document =>
    query.matches backend document).size

def Server.deleteByQuery (query : Query) (indices : List String)
    (s : Server) : Server :=
  { s with cluster :=
    s.cluster.deleteByQuery (query.matches backend) indices }

def byQueryResponse (deleted : Nat) : Response :=
  ⟨200, [(.str "timed_out", .bool false), (.str "failures", .list []),
    (.str "deleted", .int deleted)]⟩

def serve : (a : Access) → Server → a.Answer × Server
  | .indicesExists index, s => ((s.cluster.lookup index).isSome, s)
  | .indicesCreate index, s =>
      match s.cluster.lookup index with
      | some _ => (⟨400, [(.str "error", .dict [(.str "type",
          .str "resource_already_exists_exception")]),
          (.str "status", .int 400)]⟩, s)
      | none =>
          (⟨200, [(.str "acknowledged", .bool true),
            (.str "index", .str index)]⟩,
            { s with cluster := s.cluster.insert index ∅ })
  | .indicesGet pattern, s =>
      (⟨200, (backend.arrange (s.cluster.matching pattern)).map fun index =>
        (.str index, .dict [])⟩, s)
  | .get index id, s =>
      match s.cluster.lookup index with
      | none => (missingIndex, s)
      | some documents =>
          match documents.lookup id with
          | some document => (⟨200, about index id
              [(.str "found", .bool true), (.str "_source",
                .dict document)]⟩, s)
          | none => (⟨404, about index id [(.str "found", .bool false)]⟩, s)
  | .index index id document, s =>
      (⟨200, about index id
        [(.str "result", .str (createdOrUpdated index id s.cluster)),
          (.str "_shards", .dict [(.str "failed", .int 0)])]⟩,
        { s with cluster := indexDocument index id document s.cluster })
  | .bulk operations, s =>
      let (items, cluster) := bulkRun s.cluster operations
      (⟨200, [(.str "errors", .bool (items.any Prod.fst)),
        (.str "items", .list (items.map Prod.snd))]⟩,
        { s with cluster := cluster })
  | .delete index id, s =>
      match s.cluster.lookup index with
      | none => (missingIndex, s)
      | some _ =>
          (⟨200, about index id
            [(.str "result", .str (deletedOrNot index id s.cluster))]⟩,
            { s with cluster := deleteDocument index id s.cluster })
  | .search index query size, s =>
      match s.cluster.lookup index with
      | none => (missingIndex, s)
      | some documents =>
          (searchResponse backend index query size documents, s)
  | .deleteByQuery indices query, s =>
      if indices.all fun index => (s.cluster.lookup index).isSome then
        (byQueryResponse (indices.map (matched backend s.cluster query)).sum,
          s.deleteByQuery backend query indices)
      else (missingIndex, s)
  | .now, s => (s.clock 0, { s with clock := fun n => s.clock (n + 1) })

end Server

end OpenKeyV.Search.ElasticsearchStore
