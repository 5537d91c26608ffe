import OpenKeyV.Mongo.Runs

/-!
# What the calls of `MongoDBStore` do by themselves

A call inserts into a collection, and remembers it, only after it has seen
the key index; a batch read fails over a duplicate key only where it was sent
a key twice.
-/

namespace OpenKeyV.Mongo

open Library Library.Interaction

abbrev Meets {α : Type} (fail : Known → Error → Prop) (k : Known)
    (call : Requests α) (post : Known → α → Prop) : Prop :=
  Interaction.Meets Known.learn May fail k call post

variable {α : Type} {fail : Known → Error → Prop} {k : Known}
  {name : String} {S : Finset String}

/-! ## The setup -/

def OfSetup (error : Error) : Prop :=
  ∀ message, error ≠ .deserialization message

theorem encodeCollectionName_error {databaseName collection : String}
    {error : Error}
    (h : encodeCollectionName databaseName collection = .error error) :
    OfSetup error := by
  unfold encodeCollectionName at h
  dsimp only at h
  split at h
  · cases h
    intro message
    exact Error.noConfusion
  · cases h

theorem inspectIndexes_error {collection : String}
    {indexes : List IndexModel} {error : Error} :
    ∀ found, inspectIndexes collection indexes found = .error error →
      OfSetup error := by
  induction indexes with
  | nil =>
      intro found h
      cases h
  | cons index indexes ih =>
      rintro ⟨keyIndexFound, ttlIndexFound⟩ h
      rw [inspectIndexes] at h
      split at h
      · split at h
        · cases h
          exact fun message => Error.noConfusion
        · exact ih _ h
      · split at h
        · split at h
          · cases h
            exact fun message => Error.noConfusion
          · exact ih _ h
        · exact ih _ h

theorem exclusive_of_validKeyIndex {index : IndexModel}
    (h : validKeyIndex index = true) : index.exclusive = true := by
  simp only [validKeyIndex, IndexOptions.plain, Bool.and_eq_true] at h
  obtain ⟨⟨⟨⟨hkeys, -⟩, hunique⟩, -⟩, ⟨⟨-, hpartial⟩, -⟩, -⟩ := h
  simp only [IndexModel.exclusive, Bool.and_eq_true]
  exact ⟨⟨hkeys, hunique⟩, hpartial⟩

theorem exclusive_of_inspectIndexes {collection : String}
    {indexes : List IndexModel} {found : Bool × Bool} :
    ∀ keyIndexFound ttlIndexFound,
      inspectIndexes collection indexes (keyIndexFound, ttlIndexFound) =
        .ok found →
      found.1 = true →
      keyIndexFound = true ∨ indexes.any IndexModel.exclusive = true := by
  induction indexes with
  | nil =>
      intro keyIndexFound ttlIndexFound h hfound
      cases h
      exact .inl hfound
  | cons index indexes ih =>
      intro keyIndexFound ttlIndexFound h hfound
      have hlater : keyIndexFound = true ∨
          indexes.any IndexModel.exclusive = true →
          keyIndexFound = true ∨
            (index :: indexes).any IndexModel.exclusive = true := by
        rintro (hkey | hrest)
        · exact .inl hkey
        · exact .inr (by rw [List.any_cons, hrest, Bool.or_true])
      rw [inspectIndexes] at h
      split at h
      · split at h
        · cases h
        · rename_i hvalid
          rw [not_or, Bool.not_eq_false] at hvalid
          refine .inr ?_
          rw [List.any_cons, exclusive_of_validKeyIndex hvalid.1, Bool.true_or]
      · split at h
        · split at h
          · cases h
          · exact hlater (ih _ _ h hfound)
        · exact hlater (ih _ _ h hfound)

/-- The setup of a collection keeps what the call relies on elsewhere. -/
theorem meets_inspectCollectionIndexes (hS : name ∉ S) (hk : S ⊆ k.ready) :
    Meets (fun k error => S ⊆ k.ready ∧ OfSetup error) k
      (MongoDBStore.inspectCollectionIndexes name)
      (fun k found => S ⊆ k.ready ∧ (found.1 = true → name ∈ k.ready)) := by
  have herase : S ⊆ k.ready.erase name := fun other hother =>
    Finset.mem_erase.mpr ⟨fun hsame => hS (hsame ▸ hother), hk hother⟩
  refine meets_access_bind trivial fun answer => ?_
  cases answer with
  | none => exact ⟨herase, fun message => Error.noConfusion⟩
  | some indexes =>
      have hkept : S ⊆ (k.learn (.send (.listIndexes name))
          (some indexes)).ready := by
        rw [Known.learn]
        split
        · exact hk.trans (Finset.subset_insert ..)
        · exact herase
      refine meets_attempt (fun found hfound => ⟨hkept, fun hkey => ?_⟩)
        fun error herror => ⟨hkept, inspectIndexes_error _ herror⟩
      have hexclusive := (exclusive_of_inspectIndexes _ _ hfound
        hkey).resolve_left Bool.false_ne_true
      rw [Known.learn, if_pos hexclusive]
      exact Finset.mem_insert_self ..

theorem meets_createMissing {models : List IndexModel} (hk : S ⊆ k.ready) :
    Meets (fun k error => S ⊆ k.ready ∧ OfSetup error) k
      (MongoDBStore.createMissing name models) (fun k _ => S ⊆ k.ready) := by
  unfold MongoDBStore.createMissing
  split
  · exact meets_pure hk
  · refine meets_access_bind trivial fun answer => ?_
    cases answer with
    | none => exact ⟨hk, fun message => Error.noConfusion⟩
    | some _ => exact meets_pure hk

theorem meets_setUp (hS : name ∉ S) (hk : S ⊆ k.ready) :
    Meets (fun k error => S ⊆ k.ready ∧ OfSetup error) k
      (MongoDBStore.setUp name)
      (fun k _ => S ⊆ k.ready ∧ name ∈ k.ready) := by
  have hfirst : ∀ k exists?, S ⊆ k.ready →
      Meets (fun k error => S ⊆ k.ready ∧ OfSetup error) k
        (MongoDBStore.inspectExisting name exists?)
        (fun k _ => S ⊆ k.ready) := by
    intro k exists? hk
    cases exists? with
    | false => exact meets_pure hk
    | true =>
        exact (meets_inspectCollectionIndexes hS hk).mono fun _ _ h => h.1
  refine meets_access_bind trivial fun names => ?_
  refine (hfirst _ _ hk).bind fun k found hk => ?_
  refine (meets_createMissing hk).bind fun k _ hk => ?_
  refine (meets_inspectCollectionIndexes hS hk).bind fun k found h => ?_
  dsimp only
  split
  · exact ⟨h.1, fun message => Error.noConfusion⟩
  · rename_i hfound
    rw [not_or, Bool.not_eq_false] at hfound
    exact meets_pure ⟨h.1, h.2 hfound.1⟩

theorem meets_collection {store : MongoDBStore} {logicalName : String}
    (hfail : ∀ k error, OfSetup error → fail k error) :
    Meets fail k (store.collection logicalName)
      (fun k name => name ∈ k.ready) := by
  have hname : Meets fail k
      (attempt (encodeCollectionName store.databaseName logicalName))
      (fun _ _ => True) :=
    meets_attempt (fun _ _ => trivial) fun error herror =>
      hfail k error (encodeCollectionName_error herror)
  refine hname.bind fun k name _ => ?_
  refine meets_access_bind trivial fun initialized => ?_
  have hkept : initialized ⊆ (k.learn (.lock store.number)
      initialized).ready := Finset.subset_union_right
  by_cases hname : name ∈ initialized
  · rw [if_pos hname]
    exact meets_access_bind hkept fun _ => meets_pure (hkept hname)
  · rw [if_neg hname]
    refine (meets_observe (meets_setUp hname hkept)).bind
      fun k result hresult => ?_
    cases result with
    | error error =>
        exact meets_access_bind hresult.1 fun _ => hfail _ _ hresult.2
    | ok _ =>
        refine meets_access_bind ?_ fun _ => meets_pure hresult.2
        exact Finset.insert_subset hresult.2 hresult.1

/-! ## Writes and deletions -/

theorem meets_replaceOne {document : EntryDocument} (hk : name ∈ k.ready) :
    Meets fail k (MongoDBStore.replaceOne name document)
      (fun k _ => name ∈ k.ready) := by
  refine meets_access_bind trivial fun matched => ?_
  cases matched with
  | true => exact meets_pure hk
  | false => exact meets_access hk fun _ => hk

theorem meets_bulkWrite {documents : List EntryDocument}
    (hk : name ∈ k.ready) :
    Meets fail k (MongoDBStore.bulkWrite name documents)
      (fun _ _ => True) := by
  induction documents generalizing k with
  | nil => exact meets_pure trivial
  | cons document documents ih =>
      refine (meets_replaceOne hk).bind fun k first hk => ?_
      exact (ih hk).bind fun k rest _ => meets_pure trivial

abbrev Keeps (k : Known) (call : Requests α) : Prop :=
  Meets (fun _ _ => True) k call (fun _ _ => True)

theorem keeps_attempt {result : Except Error α} :
    Keeps k (attempt result : Requests α) :=
  meets_attempt (fun _ _ => trivial) fun _ _ => trivial

theorem keeps_batchEntries {ttl : Option F64}
    {items : List ((String × Value) × Nat)} :
    Keeps k (MongoDBStore.batchEntries ttl items) := by
  induction items generalizing k with
  | nil => exact meets_pure trivial
  | cons item items ih =>
      refine meets_access_bind trivial fun now => ?_
      refine keeps_attempt.bind fun k entry _ => ?_
      exact ih.bind fun k documents _ => meets_pure trivial

theorem meets_deleteObservedExpiredMany {documents : List StoredDocument} :
    Meets fail k (MongoDBStore.deleteObservedExpiredMany name documents)
      (fun _ _ => True) := by
  induction documents generalizing k with
  | nil => exact meets_pure trivial
  | cons document documents ih =>
      have hfirst : Meets fail k
          (MongoDBStore.deleteObservedExpired name document)
          (fun _ _ => True) :=
        meets_access_bind trivial fun _ => meets_pure trivial
      exact hfirst.bind fun k _ _ => ih

theorem meets_changeInitialized {store : MongoDBStore}
    {change : Finset String → Finset String}
    (hchange : ∀ initialized, change initialized ⊆ initialized) :
    Meets fail k (store.changeInitialized change) (fun _ _ => True) := by
  refine meets_access_bind trivial fun initialized => ?_
  exact meets_access
    ((hchange initialized).trans Finset.subset_union_right) fun _ => trivial

section Operations

variable {store : MongoDBStore} {key : String} {keys : List String}
  {collection : Option String}

theorem keeps_collection {logicalName : String} :
    Meets (fun _ _ => True) k (store.collection logicalName)
      (fun k name => name ∈ k.ready) :=
  meets_collection fun _ _ _ => trivial

def Looks (view : ManagedEntry → Requests α) : Prop :=
  ∀ fail k entry, Meets fail k (view entry) fun k' _ => k' = k

theorem looks_viewValue : Looks MongoDBStore.viewValue :=
  fun _ _ _ => meets_pure rfl

theorem looks_viewTtl : Looks MongoDBStore.viewTtl :=
  fun _ _ _ => meets_access_bind trivial fun _ => meets_pure rfl

theorem keeps_readOne {view : ManagedEntry → Requests α}
    (hview : Looks view) : Keeps k (store.readOne view key collection) := by
  refine keeps_collection.bind fun k name _ => ?_
  refine meets_access_bind trivial fun document => ?_
  cases document with
  | none => exact meets_pure trivial
  | some document =>
      refine keeps_attempt.bind fun k stored _ => ?_
      refine meets_access_bind trivial fun now => ?_
      split
      · refine meets_access_bind trivial fun _ => ?_
        exact meets_pure trivial
      · exact (hview _ _ _).bind fun k value _ => meets_pure trivial

theorem keeps_put {value : Value} {ttl : Option F64} :
    Keeps k (store.put key value collection ttl) := by
  refine meets_access_bind trivial fun now => ?_
  refine keeps_attempt.bind fun k entry _ => ?_
  refine keeps_collection.bind fun k name hname => ?_
  refine (meets_replaceOne hname).bind fun k written _ => ?_
  cases written with
  | some _ => exact meets_pure trivial
  | none => exact keeps_attempt

theorem keeps_delete : Keeps k (store.delete key collection) := by
  refine keeps_collection.bind fun k name _ => ?_
  exact meets_access_bind trivial fun _ => meets_pure trivial

theorem keeps_putMany {values : List Value} {ttl : Option F64}
    {order : MapOrder} :
    Keeps k (store.putMany keys values collection ttl order) := by
  unfold MongoDBStore.putMany
  split
  · exact keeps_attempt
  · refine meets_access_bind trivial fun now => ?_
    refine keeps_attempt.bind fun k _ _ => ?_
    split
    · exact meets_pure trivial
    · refine keeps_batchEntries.bind fun k documents _ => ?_
      refine keeps_collection.bind fun k name hname => ?_
      refine (meets_bulkWrite hname).bind fun k written _ => ?_
      match written with
      | none => exact keeps_attempt
      | some (matched, upserted) =>
          dsimp only
          split
          · exact keeps_attempt
          · exact meets_pure trivial

theorem keeps_deleteMany : Keeps k (store.deleteMany keys collection) := by
  unfold MongoDBStore.deleteMany
  split
  · exact meets_pure trivial
  · refine keeps_collection.bind fun k name _ => ?_
    exact meets_access trivial fun _ => trivial

theorem keeps_destroyCollection {logicalName : String} :
    Keeps k (store.destroyCollection logicalName) := by
  refine keeps_attempt.bind fun k name _ => ?_
  refine meets_access_bind trivial fun names => ?_
  split
  · refine (meets_changeInitialized fun initialized =>
      Finset.erase_subset ..).bind fun _ _ _ => meets_pure trivial
  · refine meets_access_bind trivial fun _ => ?_
    refine (meets_changeInitialized fun initialized =>
      Finset.erase_subset ..).bind fun _ _ _ => meets_pure trivial

theorem keeps_dropAll {owned : List (String × String)} :
    Keeps k (store.dropAll owned) := by
  induction owned generalizing k with
  | nil => exact meets_pure trivial
  | cons identity owned ih =>
      refine meets_access_bind trivial fun _ => ?_
      exact (meets_changeInitialized fun initialized =>
        Finset.erase_subset ..).bind fun _ _ _ => ih

theorem keeps_destroy : Keeps k store.destroy := by
  have howned : Keeps k store.ownedCollectionNames :=
    meets_access_bind trivial fun names => keeps_attempt
  refine howned.bind fun k owned _ => ?_
  split
  · refine (meets_changeInitialized fun initialized =>
      Finset.empty_subset _).bind fun _ _ _ => meets_pure trivial
  · exact keeps_dropAll.bind fun _ _ _ => meets_pure trivial

/-! ## Batch reads -/

def ReportsDuplicate (text : String) (error : Error) : Prop :=
  ∃ key, error =
    .deserialization (text ++ " returned duplicate key " ++ key)

def Fault (text : String) (k : Known) (error : Error) : Prop :=
  ReportsDuplicate text error → ∃ documents, k.found = some documents ∧
    ¬ (documents.map fun document => document.key).Nodup

def BatchText (text : String) : Prop :=
  text = "MongoDB batch query" ∨ text = "MongoDB TTL batch"

theorem OfSetup.not_reportsDuplicate {text : String} {error : Error}
    (h : OfSetup error) : ¬ ReportsDuplicate text error := by
  rintro ⟨key, herror⟩
  exact h _ herror

theorem decodeDocument_not_reportsDuplicate {text : String}
    {document : Document} {error : Error} (htext : BatchText text)
    (h : decodeDocument document none = .error error) :
    ¬ ReportsDuplicate text error := by
  rintro ⟨key, rfl⟩
  unfold decodeDocument at h
  simp only [Option.filter_none] at h
  split at h
  · rename_i error hdecode
    have hmessage := Error.deserialization.inj (Except.error.inj h)
    simp only [String.append_assoc] at hmessage
    obtain rfl | rfl := htext
    · exact append_ne_append 0 (by decide) (by decide) (by decide) _ _
        hmessage
    · exact append_ne_append 0 (by decide) (by decide) (by decide) _ _
        hmessage
  · split at h
    · have hmessage := Error.deserialization.inj (Except.error.inj h)
      simp only [String.append_assoc] at hmessage
      obtain rfl | rfl := htext
      · exact append_ne_append 8 (by decide) (by decide) (by decide) _ _
          hmessage
      · exact append_ne_append 8 (by decide) (by decide) (by decide) _ _
          hmessage
    · cases h

theorem unrequested_not_reportsDuplicate {text : String}
    (htext : BatchText text) (key : String) :
    ¬ ReportsDuplicate text
      (.deserialization (text ++ " returned unrequested key " ++ key)) := by
  rintro ⟨other, h⟩
  have hmessage := Error.deserialization.inj h
  obtain rfl | rfl := htext
  · exact append_ne_append 29 (by decide) (by decide) (by decide) _ _
      hmessage
  · exact append_ne_append 27 (by decide) (by decide) (by decide) _ _
      hmessage

theorem document_of_decodeDocument {document : Document}
    {expectedKey : Option String} {stored : StoredDocument}
    (h : decodeDocument document expectedKey = .ok stored) :
    stored.document = document := by
  unfold decodeDocument at h
  split at h
  · cases h
  · split at h
    · cases h
    · split at h
      · cases h
      · cases h
        rfl

theorem meets_decodeDocument {text : String} {document : Document}
    (htext : BatchText text) :
    Meets (Fault text) k (attempt (decodeDocument document none))
      (fun k' stored => k' = k ∧ stored.document = document) :=
  meets_attempt
    (fun _ hstored => ⟨rfl, document_of_decodeDocument hstored⟩)
    fun _ herror hreports => absurd hreports
      (decodeDocument_not_reportsDuplicate htext herror)

/-- The values found so far have keys of the documents before, so that a key
that is found again is there twice. -/
theorem meets_readCursor {text : String} {view : ManagedEntry → Requests α}
    {requested : List String} {sent : List Document}
    (htext : BatchText text) (hview : Looks view) (hsent : k.found = some sent)
    (documents : List Document) :
    ∀ before values expired, sent = before ++ documents →
      (∀ key, (values.lookup key).isSome = true →
        key ∈ before.map fun document => document.key) →
      Meets (Fault text) k
        (MongoDBStore.readCursor view text requested documents values expired)
        (fun _ _ => True) := by
  induction documents generalizing k with
  | nil => exact fun _ _ _ _ _ => meets_pure trivial
  | cons document documents ih =>
      intro before values expired hsplit hvalues
      have hmem : ∀ key, (values.lookup key).isSome = true →
          key ∈ (before ++ [document]).map fun document => document.key := by
        intro key hkey
        rw [List.map_append]
        exact List.mem_append_left _ (hvalues key hkey)
      have hnext : sent = (before ++ [document]) ++ documents := by
        rw [hsplit, List.append_assoc, List.singleton_append]
      refine (meets_decodeDocument htext).bind ?_
      rintro _ stored ⟨rfl, rfl⟩
      dsimp only
      split
      · exact fun hreports =>
          absurd hreports (unrequested_not_reportsDuplicate htext _)
      · refine meets_access_bind trivial fun now => ?_
        split
        · exact ih hsent _ values _ hnext hmem
        · refine (hview _ _ _).bind ?_
          rintro _ value rfl
          split
          · rename_i hfound
            refine fun _ => ⟨sent, hsent, fun hnodup => ?_⟩
            rw [hsplit, List.map_append, List.map_cons] at hnodup
            exact (List.nodup_append'.mp hnodup).2.2 (hvalues _ hfound)
              (List.mem_cons_self ..)
          · refine ih hsent _ _ _ hnext fun key hkey => ?_
            rw [List.lookup_cons] at hkey
            split at hkey
            · rename_i hsame
              rw [eq_of_beq hsame, List.map_append]
              exact List.mem_append_right _ (List.mem_cons_self ..)
            · exact hmem key hkey

theorem meets_readMany {text : String} {view : ManagedEntry → Requests α}
    (htext : BatchText text) (hview : Looks view) :
    Meets (Fault text) k (store.readMany text view keys collection)
      (fun _ _ => True) := by
  unfold MongoDBStore.readMany
  split
  · exact meets_pure trivial
  · refine (meets_collection fun k error herror hreports =>
      absurd hreports herror.not_reportsDuplicate).bind fun k name _ => ?_
    refine meets_access_bind trivial fun documents => ?_
    refine (meets_readCursor htext hview rfl documents [] [] [] rfl
      fun key hkey => by cases hkey).bind fun k found _ => ?_
    exact meets_deleteObservedExpiredMany.bind fun k _ _ =>
      meets_pure trivial

end Operations

/-! ## Every call -/

def Reply.ReportsDuplicate : Reply → Prop
  | .getMany (.error error) =>
      Mongo.ReportsDuplicate "MongoDB batch query" error
  | .ttlMany (.error error) => Mongo.ReportsDuplicate "MongoDB TTL batch" error
  | _ => False

def Post (_ : Call) (k : Known) (reply : Reply) : Prop :=
  reply.ReportsDuplicate → ∃ documents, k.found = some documents ∧
    ¬ (documents.map fun document => document.key).Nodup

theorem Keeps.respects {call : Call} {request : Requests α}
    {reply : Except Error α → Reply} (h : Keeps k request)
    (hreply : ∀ result, ¬ (reply result).ReportsDuplicate) :
    Respects Known.learn May (Post call) k (reply <$> request.run) :=
  respects_map.mpr (Respects.mono
    (fun _ result _ hreports => absurd hreports (hreply result)) h)

theorem respects_program (deployment : Deployment) (call : Call) :
    Respects Known.learn May (Post call) Known.blank
      (program deployment call) := by
  obtain ⟨number, operation⟩ := call
  cases operation with
  | get key collection =>
      exact (keeps_readOne looks_viewValue).respects fun _ h => h
  | ttl key collection =>
      exact (keeps_readOne looks_viewTtl).respects fun _ h => h
  | put key value collection ttl => exact keeps_put.respects fun _ h => h
  | delete key collection => exact keeps_delete.respects fun _ h => h
  | getMany keys collection =>
      refine respects_map.mpr (Respects.mono (fun k result h => ?_)
        (meets_readMany (.inl rfl) looks_viewValue))
      cases result with
      | error error => exact h
      | ok values => exact fun hreports => False.elim hreports
  | ttlMany keys collection =>
      refine respects_map.mpr (Respects.mono (fun k result h => ?_)
        (meets_readMany (.inr rfl) looks_viewTtl))
      cases result with
      | error error => exact h
      | ok values => exact fun hreports => False.elim hreports
  | putMany keys values collection ttl order =>
      exact keeps_putMany.respects fun _ h => h
  | deleteMany keys collection => exact keeps_deleteMany.respects fun _ h => h
  | destroyCollection collection =>
      exact keeps_destroyCollection.respects fun _ h => h
  | destroy => exact keeps_destroy.respects fun _ h => h

end OpenKeyV.Mongo
