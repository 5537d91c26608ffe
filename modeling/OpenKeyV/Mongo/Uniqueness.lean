import OpenKeyV.Mongo.Calls

/-!
# Keys of MongoDB collections stay unique, while no insertion is stale

A store remembers that it has set a collection up.  When another store drops
the collection, the next insertion creates it without the key index, and two
overlapping upserts of one key both insert.
-/

namespace OpenKeyV.Mongo

open Library Library.Interaction

/-- A delete leaves no document with its key. -/
def DeletesAll (pool : CallPool) (label : Label) (pool' : CallPool) : Prop :=
  ∀ task choice collection key, label = .advance task choice →
    pool.next task = some (.send (.deleteOne collection (.key key))) →
      ∀ document ∈ pool'.shared.db.documents collection, document.key ≠ key

/-- The step leaves no key twice in a collection, no batch read has failed
over a duplicate key, and a delete leaves no copy of its key. -/
def KeepsUnique (deployment : Deployment) (pool : CallPool) (label : Label) :
    Prop :=
  ∀ pool', step deployment pool label = some pool' →
    pool'.shared.db.KeysUnique ∧
      (∀ task call reply, pool'.tasks task = some (call, .done reply) →
        ¬ reply.ReportsDuplicate) ∧
      DeletesAll pool label pool'

def Undropped (s : Server) (task : Nat) : Access → Prop
  | .send (.insert collection _) => ∀ drops,
      s.seen task collection = some drops → drops = s.drops collection
  | _ => True

abbrev Good (pool : CallPool) : Prop :=
  Pool.Good Known.learn May Post Known.blank Server.Inv Known.Valid pool

variable {deployment : Deployment} {pool pool' : CallPool} {label : Label}

theorem good_start (clock : DateTime) : Good (start clock) := by
  refine Pool.good_idle ⟨?_, ?_, ?_⟩ fun task => ⟨?_, ?_⟩
  · intro collection c hc
    cases hc
  · intro task name drops hsaw
    cases hsaw
  · intro store name hmem
    exact absurd hmem (Finset.notMem_empty name)
  · intro name hmem
    exact absurd hmem (Finset.notMem_empty name)
  · intro documents hdocuments
    cases hdocuments

theorem Good.step (h : Good pool)
    (hallowed : Pool.Allows Exclusive pool label)
    (hstep : Mongo.step deployment pool label = some pool') : Good pool' :=
  Pool.Good.step (respects_program deployment) sound_exclusive silent_happen h
    hallowed hstep

theorem deleteOne_clears {db : Database} {collection key : String}
    (h : db.KeysUnique) (retried : Bool) :
    ∀ document ∈ (db.serve retried (.deleteOne collection
      (.key key))).2.documents collection, document.key ≠ key := by
  have hnodup := h.nodup_documents collection
  have hall : ∀ document ∈ (db.documents collection).eraseP
      (Filter.accepts (.key key)), document.key ≠ key := by
    generalize db.documents collection = documents at hnodup
    induction documents with
    | nil => exact fun _ hmem => absurd hmem List.not_mem_nil
    | cons first rest ih =>
        rw [List.map_cons, List.nodup_cons] at hnodup
        by_cases hfirst : Filter.accepts (.key key) first = true
        · rw [List.eraseP_cons_of_pos hfirst]
          rintro document hmem rfl
          rw [eq_of_beq hfirst] at hnodup
          exact hnodup.1 (List.mem_map_of_mem hmem)
        · rw [List.eraseP_cons_of_neg hfirst]
          intro document hmem
          obtain rfl | hmem := List.mem_cons.mp hmem
          · rintro rfl
            exact hfirst (beq_self_eq_true document.key)
          · exact ih hnodup.2 document hmem
  intro document hmem
  rw [Database.serve, Database.setDocuments] at hmem
  cases hlookup : db.collections.lookup collection with
  | none =>
      simp only [hlookup, Database.documents] at hmem
      exact absurd hmem List.not_mem_nil
  | some c =>
      simp only [hlookup] at hmem
      rw [Database.documents, Database.lookup_withCollection,
        if_pos rfl] at hmem
      exact hall document hmem

theorem deletesAll_step (h : Good pool)
    (hstep : step deployment pool label = some pool') :
    DeletesAll pool label pool' := by
  rintro task choice collection key rfl hnext
  obtain ⟨call, access, next, answer, s, htask, hhandle, rfl⟩ :=
    Pool.step_advance hstep
  rw [Pool.next, htask] at hnext
  cases hnext
  cases hhandle
  exact deleteOne_clears h.shared.1 choice

theorem Good.keepsUnique (h : Good pool)
    (hallowed : Pool.Allows Exclusive pool label) :
    KeepsUnique deployment pool label := by
  intro pool' hstep
  have hgood := h.step hallowed hstep
  refine ⟨hgood.shared.1, fun task call reply htask hreports => ?_,
    deletesAll_step h hstep⟩
  obtain ⟨k, hvalid, hpost⟩ := Pool.Good.result hgood htask
  obtain ⟨documents, hfound, htwice⟩ := hpost hreports
  exact htwice (hvalid.found documents hfound)

theorem exclusive_of_keepsUnique (h : KeepsUnique deployment pool label) :
    Pool.Allows Exclusive pool label := by
  rintro task retried access rfl hnext
  cases access with
  | now | lock | unlock => trivial
  | send message =>
      cases message with
      | insert collection document =>
          by_contra hadmits
          rw [Pool.next] at hnext
          split at hnext
          · rename_i call access next htask
            cases hnext
            exact Database.not_keysUnique_insert hadmits
              (h _ (Pool.step_advance_of htask rfl rfl)).1
          · cases hnext
      | listCollectionNames | listIndexes | createIndexes | findOne | find
      | replace | deleteOne | deleteMany | drop => trivial

/-- An insertion relies on a key index that its call has seen. -/
theorem Good.exclusive (h : Good pool)
    (hundropped : Pool.Allows Undropped pool label) :
    Pool.Allows Exclusive pool label := by
  intro task retried access hlabel hnext
  have hok := hundropped task retried access hlabel hnext
  cases access with
  | now | lock | unlock => trivial
  | send message =>
      cases message with
      | insert collection document =>
          rw [Pool.next] at hnext
          split at hnext
          · rename_i call access next htask
            cases hnext
            obtain ⟨k, hvalid, hmay, -⟩ := h.tasks task call _ htask
            obtain ⟨drops, hsaw⟩ := Option.isSome_iff_exists.mp
              (hvalid.ready collection hmay)
            have hstands := h.shared.2.seen task collection drops hsaw
            exact .inl (hstands.2 (hok drops hsaw)).target
          · cases hnext
      | listCollectionNames | listIndexes | createIndexes | findOne | find
      | replace | deleteOne | deleteMany | drop => trivial

/-- In any interleaving of the calls of any number of stores the keys stay
apart exactly if every insertion has the key index or is the first of its
key; and they do if no collection is dropped between the setup that an
insertion relies on, which may be one that its store remembers, and the
insertion. -/
theorem keys_unique_iff (deployment : Deployment) (clock : DateTime)
    (labels : List Label) :
    (Along (step deployment) (KeepsUnique deployment) (start clock) labels ↔
      Along (step deployment) (Pool.Allows Exclusive) (start clock) labels) ∧
    (Along (step deployment) (Pool.Allows Undropped) (start clock) labels →
      Along (step deployment) (KeepsUnique deployment) (start clock)
        labels) := by
  have hkeeps : Along (step deployment) (Pool.Allows Exclusive) (start clock)
      labels → Along (step deployment) (KeepsUnique deployment) (start clock)
        labels :=
    along_of_invariant (fun _ _ _ hgood hok hstep => hgood.step hok hstep)
      (fun _ _ hgood hok => hgood.keepsUnique hok) (good_start clock)
  refine ⟨⟨fun h => ?_, hkeeps⟩, fun h => hkeeps ?_⟩
  · exact h.mono fun _ _ hkept => exclusive_of_keepsUnique hkept
  · exact along_of_invariant
      (fun _ _ _ hgood hok hstep => hgood.step (hgood.exclusive hok) hstep)
      (fun _ _ hgood hok => hgood.exclusive hok) (good_start clock) h

def twoStores : Deployment := ⟨"kv_store", fun _ => ⟨"default_collection"⟩⟩

def putKey (store : Nat) : Call := ⟨store, .put "k" .null (some "c") none⟩

def overlappingPuts : List Label :=
  .start 0 (putKey 0) :: List.replicate 8 (.advance 0 false) ++
    .start 1 ⟨1, .destroyCollection "c"⟩ ::
      List.replicate 4 (.advance 1 false) ++
    .start 2 (putKey 0) :: List.replicate 4 (.advance 2 false) ++
    .start 3 (putKey 0) :: List.replicate 4 (.advance 3 false) ++
    [.advance 2 false]

theorem keys_not_unique_after_drop :
    ¬ ∀ labels, Along (step twoStores) (KeepsUnique twoStores) (start .epoch)
      labels := by
  intro h
  have hboth : ((run (step twoStores) (start .epoch)
      (overlappingPuts ++ [.advance 3 false])).bind fun pool =>
        pool.shared.db.collections.lookup "okv1-63").map Collection.keys =
      some ["k", "k"] := by
    decide +kernel
  obtain ⟨c, hlookup, hkeys⟩ := Option.map_eq_some_iff.mp hboth
  obtain ⟨pool, hrun, hlookup⟩ := Option.bind_eq_some_iff.mp hlookup
  have hstart : (start .epoch).shared.db.KeysUnique := (good_start _).shared.1
  have hstep : ∀ pool label pool', pool.shared.db.KeysUnique →
      KeepsUnique twoStores pool label →
      step twoStores pool label = some pool' → pool'.shared.db.KeysUnique :=
    fun _ _ pool' _ hok hstep => (hok pool' hstep).1
  have hunique : pool.shared.db.KeysUnique :=
    run_invariant hstep hstart (h _) hrun
  have hnodup : c.keys.Nodup := hunique _ c hlookup
  rw [hkeys] at hnodup
  exact absurd hnodup (by decide)

end OpenKeyV.Mongo
