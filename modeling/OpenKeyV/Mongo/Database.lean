import OpenKeyV.Entry.Codec
import OpenKeyV.Library.KeyedMap

/-!
# The database of `MongoDBStore`

What the server does with one request.  A unique index that exists keeps a
second document with its key out, a dropped collection takes its indexes with
it, and an insertion into a missing collection creates it without them.  An
upsert is two requests: the lookup, which replaces what it finds, and the
insertion.
-/

namespace OpenKeyV.Mongo

open Library

structure EntryDocument where
  key : String
  entry : Bytes
  expiresAt : Option Int
  deriving DecidableEq, Repr

structure Document extends EntryDocument where
  id : Nat
  deriving DecidableEq, Repr

structure IndexOptions where
  name : Option String := none
  unique : Option Bool := none
  expireAfter : Option Nat := none
  sparse : Option Bool := none
  partialFilterExpression : Option String := none
  collation : Option String := none
  hidden : Option Bool := none
  deriving DecidableEq, Repr

structure IndexModel where
  keys : List (String × Int)
  options : IndexOptions
  deriving DecidableEq, Repr

def idIndex : IndexModel :=
  ⟨[("_id", 1)], { name := some "_id_" }⟩

/-- The index lets no two documents have one `key`. -/
def IndexModel.exclusive (index : IndexModel) : Bool :=
  decide (index.keys = [("key", 1)]) &&
    decide (index.options.unique = some true) &&
    index.options.partialFilterExpression.isNone

structure Collection where
  documents : List Document
  indexes : List IndexModel
  deriving DecidableEq, Repr

namespace Collection

def implicit : Collection := ⟨[], [idIndex]⟩

def keys (c : Collection) : List String :=
  c.documents.map fun document => document.key

def exclusive (c : Collection) : Bool := c.indexes.any IndexModel.exclusive

end Collection

inductive Filter where
  | key (key : String)
  /-- `observed_filter`, which names every field. -/
  | observed (document : Document)
  deriving DecidableEq, Repr

def Filter.accepts : Filter → Document → Bool
  | .key wanted, document => document.key == wanted
  | .observed wanted, document => decide (document = wanted)

inductive Request where
  | listCollectionNames (name : Option String)
  | listIndexes (collection : String)
  | createIndexes (collection : String) (models : List IndexModel)
  | findOne (collection key : String)
  | find (collection : String) (keys : List String)
  | replace (collection : String) (document : EntryDocument)
  | insert (collection : String) (document : EntryDocument)
  | deleteOne (collection : String) (filter : Filter)
  | deleteMany (collection : String) (keys : List String)
  | drop (collection : String)

/-- `none` is an error of the server. -/
@[reducible] def Request.Reply : Request → Type
  | .listCollectionNames _ => List String
  | .listIndexes _ => Option (List IndexModel)
  | .createIndexes _ _ => Option Unit
  | .findOne _ _ => Option Document
  | .find _ _ => List Document
  | .replace _ _ => Bool
  | .insert _ _ => Option Bool
  | .deleteOne _ _ | .deleteMany _ _ => Nat
  | .drop _ => Unit

structure Database where
  clock : DateTime
  collections : KeyedMap String Collection
  nextId : Nat

def replaceFirst (document : EntryDocument) :
    List Document → Option (List Document)
  | [] => none
  | found :: rest =>
      if found.key = document.key then some (⟨document, found.id⟩ :: rest)
      else (replaceFirst document rest).map fun rest => found :: rest

namespace Database

def fresh (clock : DateTime) : Database := ⟨clock, ∅, 0⟩

def documents (db : Database) (collection : String) : List Document :=
  match db.collections.lookup collection with
  | some c => c.documents
  | none => []

def withCollection (db : Database) (collection : String)
    (c : Collection) : Database :=
  { db with collections := db.collections.insert collection c }

def setDocuments (db : Database) (collection : String)
    (documents : List Document) : Database :=
  match db.collections.lookup collection with
  | some c => db.withCollection collection { c with documents := documents }
  | none => db

def target (db : Database) (collection : String) : Collection :=
  (db.collections.lookup collection).getD .implicit

def createIndexes (db : Database) (collection : String)
    (models : List IndexModel) : Option Unit × Database :=
  let c := db.target collection
  if models.any IndexModel.exclusive = true ∧ ¬ c.keys.Nodup then (none, db)
  else
    let added := models.filter fun index => decide (index ∉ c.indexes)
    (some (), db.withCollection collection
      { c with indexes := c.indexes ++ added })

/-- Where the index is in the way, the server may take the upsert up again
from its lookup. -/
def insert (db : Database) (retried : Bool) (collection : String)
    (document : EntryDocument) : Option Bool × Database :=
  let c := db.target collection
  if c.exclusive = true ∧ document.key ∈ c.keys then
    match retried, replaceFirst document c.documents with
    | true, some documents =>
        (some false, db.setDocuments collection documents)
    | _, _ => (none, db)
  else
    let documents := c.documents ++ [⟨document, db.nextId⟩]
    (some true, { db.withCollection collection
      { c with documents := documents } with nextId := db.nextId + 1 })

def serve (retried : Bool) :
    (request : Request) → Database → request.Reply × Database
  | .listCollectionNames name, db =>
      (db.collections.keys.filter fun found => name.all (· == found), db)
  | .listIndexes collection, db =>
      ((db.collections.lookup collection).map Collection.indexes, db)
  | .createIndexes collection models, db => db.createIndexes collection models
  | .findOne collection key, db =>
      ((db.documents collection).find? fun document => document.key == key, db)
  | .find collection keys, db =>
      ((db.documents collection).filter fun document =>
        keys.contains document.key, db)
  | .replace collection document, db =>
      match replaceFirst document (db.documents collection) with
      | some documents => (true, db.setDocuments collection documents)
      | none => (false, db)
  | .insert collection document, db => db.insert retried collection document
  | .deleteOne collection filter, db =>
      let found := db.documents collection
      (if found.any filter.accepts then 1 else 0,
        db.setDocuments collection (found.eraseP filter.accepts))
  | .deleteMany collection keys, db =>
      let found := db.documents collection
      (found.countP fun document => keys.contains document.key,
        db.setDocuments collection
          (found.filter fun document => !keys.contains document.key))
  | .drop collection, db =>
      ((), { db with collections := db.collections.erase collection })

/-- No collection holds two documents with one key. -/
def KeysUnique (db : Database) : Prop :=
  ∀ collection c, db.collections.lookup collection = some c → c.keys.Nodup

def Indexed (db : Database) (collection : String) : Prop :=
  ∃ c, db.collections.lookup collection = some c ∧ c.exclusive = true

/-- What an insertion needs to keep the keys apart: the index, or no document
with its key. -/
def Admits (db : Database) : Request → Prop
  | .insert collection document =>
      (db.target collection).exclusive = true ∨
        document.key ∉ (db.target collection).keys
  | _ => True

section Serve

variable {db : Database} {retried : Bool} {request : Request}
  {collection other : String} {c : Collection} {document : EntryDocument}
  {documents : List Document}

@[simp] theorem lookup_withCollection :
    (db.withCollection collection c).collections.lookup other =
      if other = collection then some c else db.collections.lookup other :=
  KeyedMap.lookup_insert_eq ..

theorem keys_replaceFirst {found : List Document} :
    ∀ documents, replaceFirst document found = some documents →
      documents.map (fun d => d.key) = found.map fun d => d.key := by
  induction found with
  | nil =>
      intro documents h
      cases h
  | cons first rest ih =>
      intro documents h
      rw [replaceFirst] at h
      split at h
      · rename_i hkey
        cases h
        rw [List.map_cons, List.map_cons, hkey]
      · obtain ⟨replaced, hrest, rfl⟩ := Option.map_eq_some_iff.mp h
        rw [List.map_cons, List.map_cons, ih replaced hrest]

theorem documents_target :
    (db.target collection).documents = db.documents collection := by
  unfold target documents
  cases db.collections.lookup collection <;> rfl

theorem KeysUnique.target (h : KeysUnique db) (collection : String) :
    (db.target collection).keys.Nodup := by
  cases hlookup : db.collections.lookup collection with
  | none =>
      rw [Database.target, hlookup]
      exact List.nodup_nil
  | some c =>
      rw [Database.target, hlookup]
      exact h collection c hlookup

theorem KeysUnique.nodup_documents (h : KeysUnique db) (collection : String) :
    ((db.documents collection).map fun d => d.key).Nodup := by
  rw [← documents_target]
  exact h.target collection

theorem KeysUnique.withCollection (h : KeysUnique db)
    (hc : c.keys.Nodup) : KeysUnique (db.withCollection collection c) := by
  intro other found hfound
  rw [lookup_withCollection] at hfound
  split at hfound
  · cases hfound
    exact hc
  · exact h other found hfound

theorem KeysUnique.setDocuments (h : KeysUnique db)
    (hdocuments : (documents.map fun d => d.key).Sublist
      ((db.documents collection).map fun d => d.key)) :
    KeysUnique (db.setDocuments collection documents) := by
  unfold Database.setDocuments
  cases hlookup : db.collections.lookup collection with
  | none => exact h
  | some c =>
      rw [Database.documents, hlookup] at hdocuments
      exact h.withCollection ((h collection c hlookup).sublist hdocuments)

theorem Indexed.withCollection (h : Indexed db other)
    (hc : other = collection → c.exclusive = true) :
    Indexed (db.withCollection collection c) other := by
  obtain ⟨found, hfound, hexclusive⟩ := h
  by_cases hsame : other = collection
  · refine ⟨c, ?_, hc hsame⟩
    rw [lookup_withCollection, if_pos hsame]
  · refine ⟨found, ?_, hexclusive⟩
    rw [lookup_withCollection, if_neg hsame, hfound]

theorem Indexed.target (h : Indexed db collection) :
    (db.target collection).exclusive = true := by
  obtain ⟨c, hc, hexclusive⟩ := h
  rw [Database.target, hc]
  exact hexclusive

theorem indexed_of_target (h : (db.target collection).exclusive = true) :
    Indexed db collection := by
  cases hlookup : db.collections.lookup collection with
  | none =>
      rw [Database.target, hlookup] at h
      cases h
  | some c =>
      rw [Database.target, hlookup] at h
      exact ⟨c, hlookup, h⟩

theorem Indexed.setDocuments (h : Indexed db other) :
    Indexed (db.setDocuments collection documents) other := by
  unfold Database.setDocuments
  cases hlookup : db.collections.lookup collection with
  | none => exact h
  | some c =>
      refine h.withCollection fun hsame => ?_
      obtain ⟨found, hfound, hexclusive⟩ := h
      rw [hsame, hlookup] at hfound
      cases hfound
      exact hexclusive

theorem KeysUnique.insert (h : KeysUnique db)
    (hadmits : db.Admits (.insert collection document)) :
    KeysUnique (db.insert retried collection document).2 := by
  unfold Database.insert
  dsimp only
  split
  · split
    · rename_i replaced hreplaced
      rw [documents_target] at hreplaced
      exact h.setDocuments (by rw [keys_replaceFirst replaced hreplaced])
    · exact h
  · rename_i hfree
    have hkey : document.key ∉ (db.target collection).keys := by
      obtain hexclusive | hkey := hadmits
      · exact fun hmem => hfree ⟨hexclusive, hmem⟩
      · exact hkey
    refine h.withCollection ?_
    rw [Collection.keys, List.map_append, ← Collection.keys]
    exact List.nodup_append'.mpr ⟨h.target collection, by simp,
      List.disjoint_singleton.mpr hkey⟩

theorem KeysUnique.serve (h : KeysUnique db) (hadmits : db.Admits request) :
    KeysUnique (db.serve retried request).2 := by
  cases request with
  | createIndexes collection models =>
      unfold Database.serve Database.createIndexes
      dsimp only
      split
      · exact h
      · exact h.withCollection (h.target collection)
  | replace collection document =>
      unfold Database.serve
      dsimp only
      split
      · rename_i documents hreplaced
        exact h.setDocuments (by rw [keys_replaceFirst documents hreplaced])
      · exact h
  | insert collection document => exact h.insert hadmits
  | deleteOne collection filter =>
      exact h.setDocuments (List.eraseP_sublist.map _)
  | deleteMany collection keys =>
      exact h.setDocuments (List.filter_sublist.map _)
  | drop collection =>
      intro other c hc
      rw [Database.serve, KeyedMap.lookup_erase_eq] at hc
      split at hc
      · cases hc
      · exact h other c hc
  | listCollectionNames | listIndexes | findOne | find => exact h

theorem not_keysUnique_insert
    (hadmits : ¬ db.Admits (.insert collection document)) :
    ¬ KeysUnique (db.insert retried collection document).2 := by
  obtain ⟨hexclusive, hkey⟩ := not_or.mp hadmits
  intro h
  unfold Database.insert at h
  dsimp only at h
  rw [if_neg fun hboth => hexclusive hboth.1] at h
  have hnodup := h collection _ (by
    rw [lookup_withCollection, if_pos rfl])
  rw [Collection.keys, List.map_append, ← Collection.keys] at hnodup
  exact hkey fun hmem => List.disjoint_singleton.mp
    (List.nodup_append'.mp hnodup).2.2 hmem

theorem Indexed.serve (h : Indexed db other)
    (hdrop : request ≠ .drop other) :
    Indexed (db.serve retried request).2 other := by
  cases request with
  | createIndexes collection models =>
      unfold Database.serve Database.createIndexes
      dsimp only
      split
      · exact h
      · refine h.withCollection fun hsame => ?_
        rw [Collection.exclusive, List.any_append, ← Collection.exclusive,
          ← hsame, h.target, Bool.true_or]
  | replace collection document =>
      unfold Database.serve
      dsimp only
      split
      · exact h.setDocuments
      · exact h
  | insert collection document =>
      unfold Database.serve Database.insert
      dsimp only
      split
      · split
        · exact h.setDocuments
        · exact h
      · exact h.withCollection fun hsame => hsame ▸ h.target
  | deleteOne | deleteMany => exact h.setDocuments
  | drop collection =>
      obtain ⟨c, hc, hexclusive⟩ := h
      refine ⟨c, ?_, hexclusive⟩
      rw [Database.serve, KeyedMap.lookup_erase_eq, if_neg, hc]
      rintro rfl
      exact hdrop rfl
  | listCollectionNames | listIndexes | findOne | find => exact h

end Serve

end Database

end OpenKeyV.Mongo
