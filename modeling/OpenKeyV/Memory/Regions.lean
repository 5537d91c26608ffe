import OpenKeyV.Memory.Contents

/-!
# Stretches of a call, seen through some cells

Two states that agree on the cells of a call cannot be told apart by it, if it
evicts nothing: what it prepares, what it does under the mutation lock and what
it answers are the same.  The other cells stay as they are.
-/

namespace OpenKeyV.Memory

open Library

/-- The states have the same entries in the cells of `P`. -/
def Agree (P : Cell → Prop) (s t : MemoryState) : Prop :=
  ∀ cell, P cell → s.cells cell = t.cells cell

structure SameLocked (P : Cell → Prop) (a b : Locked) : Prop where
  pending : a.pending = b.pending
  guards : a.guards = b.guards
  result : a.result = b.result
  agree : Agree P a.state b.state

namespace Action

def collection : Action → String
  | .put name .. | .putMany name .. | .delete name _ | .deleteMany name _
  | .compareAndSwap name .. | .compareAndDelete name .. => name
  | .cull => ""
  | .destroyCollection name => name

def named : Action → List String
  | .put _ key _ | .delete _ key | .compareAndSwap _ key _ _
  | .compareAndDelete _ key _ => [key]
  | .putMany _ keys _ | .deleteMany _ keys => keys
  | .cull | .destroyCollection _ => []

/-- A put evicts nothing. -/
def Spacious (config : MemoryConfig) (now : DateTime)
    (m : Cells RevisionedEntry) : Action → Prop
  | .put name key stored =>
      Cells.Uncrowded config now name
        (Cells.held (Function.update m (name, key) (some stored)))
  | .putMany name keys entries =>
      Cells.Uncrowded config now name
        (Cells.held (Cells.insertAll name (keys.zip entries) m))
  | _ => True

theorem Spacious.mono {config : MemoryConfig} {now : DateTime}
    {m m' : Cells RevisionedEntry} {action : Action}
    (h : action.Spacious config now m) (hsub : Cells.Sub m' m) :
    action.Spacious config now m' := by
  cases action with
  | put => exact Cells.Uncrowded.mono h (hsub.update _ _).held
  | putMany => exact Cells.Uncrowded.mono h (hsub.insertAll _).held
  | _ => trivial

end Action

section Perform

variable {config : MemoryConfig} {now : DateTime} {order order' : Order}
  {P : Cell → Prop} {s t : MemoryState} {name : String}
  {col col' : Collection}

theorem Agree.insertEntry (h : Agree P s t)
    (hcol : s.collection name = some col)
    (hcol' : t.collection name = some col') (key : String)
    (stored : RevisionedEntry) (cause cause' : Cause) :
    Agree P (s.insertEntry name key stored cause)
      (t.insertEntry name key stored cause') := by
  intro cell hcell
  rw [cells_insertEntry hcol, cells_insertEntry hcol', Function.update_apply,
    Function.update_apply, h cell hcell]

theorem Agree.removeEntry (h : Agree P s t)
    (hcol : s.collection name = some col)
    (hcol' : t.collection name = some col') (key : String)
    (expected expected' : Option Revision) :
    Agree P (s.removeEntry name key expected)
      (t.removeEntry name key expected') := by
  intro cell hcell
  rw [cells_removeEntry hcol, cells_removeEntry hcol', Function.update_apply,
    Function.update_apply, h cell hcell]

theorem Agree.lookup (h : Agree P s t) (hcol : s.collection name = some col)
    (hcol' : t.collection name = some col') {key : String}
    (hkey : P (name, key)) : col.lookup key = col'.lookup key := by
  rw [← s.entry_eq name key hcol, ← t.entry_eq name key hcol']
  exact h _ hkey

theorem Agree.removeMany (h : Agree P s t)
    (hcol : s.collection name = some col)
    (hcol' : t.collection name = some col') {keys : List String}
    (hkeys : ∀ key ∈ keys, P (name, key)) :
    (removeMany name keys s).2 = (removeMany name keys t).2 ∧
      Agree P (removeMany name keys s).1 (removeMany name keys t).1 := by
  induction keys generalizing s t col col' with
  | nil => exact ⟨rfl, h⟩
  | cons key keys ih =>
      obtain ⟨hfirst, hrest⟩ := List.forall_mem_cons.mp hkeys
      have hentry : s.entry name key = t.entry name key := h _ hfirst
      simp only [Memory.removeMany, hentry]
      cases t.entry name key with
      | none => exact ih h hcol hcol' hrest
      | some stored =>
          have hremoved := h.removeEntry hcol hcol' key none none
          obtain ⟨hkeys, hagree⟩ := @ih _ _ (col.erase key) (col'.erase key)
            hremoved (by simp [MemoryState.collection_removeEntry, hcol])
            (by simp [MemoryState.collection_removeEntry, hcol']) hrest
          exact ⟨congrArg (List.cons key) hkeys, hagree⟩

variable (order order') in
theorem Agree.perform (h : Agree P s t) {action : Action}
    (hroom : action.Spacious config now s.cells)
    (hroom' : action.Spacious config now t.cells)
    (haction : action.onEntries = true)
    (hcol : s.collection action.collection = some col)
    (hcol' : t.collection action.collection = some col')
    (hnamed : ∀ key ∈ action.named, P (action.collection, key)) :
    SameLocked P (perform config now order s action)
      (perform config now order' t action) := by
  cases action with
  | cull | destroyCollection => cases haction
  | put name key stored =>
      simp only [Action.collection] at hcol hcol'
      simp only [Memory.perform, put_roomy hcol hroom, put_roomy hcol' hroom']
      exact ⟨rfl, rfl, rfl, h.insertEntry hcol hcol' key stored .plain .plain⟩
  | putMany name keys entries =>
      simp only [Action.collection] at hcol hcol'
      simp only [Memory.perform, putMany_roomy hcol hroom,
        putMany_roomy hcol' hroom']
      refine ⟨rfl, rfl, rfl, fun cell hcell => ?_⟩
      rw [insertMany_cells hcol, insertMany_cells hcol']
      exact Cells.insertAll_agree _ h cell hcell
  | delete name key =>
      simp only [Action.collection] at hcol hcol' hnamed
      have hlookup := h.lookup hcol hcol'
        (hnamed key (List.mem_singleton_self key))
      simp only [Memory.perform, delete, hcol, hcol', hlookup]
      cases col'.lookup key with
      | none => exact ⟨rfl, rfl, rfl, h⟩
      | some stored =>
          exact ⟨rfl, rfl, rfl, h.removeEntry hcol hcol' key none none⟩
  | deleteMany name keys =>
      simp only [Action.collection] at hcol hcol' hnamed
      obtain ⟨hkeys, hagree⟩ := h.removeMany hcol hcol' hnamed
      simp only [Memory.perform, deleteMany, hcol, hcol']
      exact ⟨congrArg (deletions name) hkeys, rfl,
        congrArg (fun keys => Except.ok (Response.count keys.length)) hkeys,
        hagree⟩
  | compareAndSwap name key expected stored =>
      simp only [Action.collection] at hcol hcol' hnamed
      have hlookup := h.lookup hcol hcol'
        (hnamed key (List.mem_singleton_self key))
      have hinsert := fun cause cause' =>
        h.insertEntry hcol hcol' key stored cause cause'
      simp only [Memory.perform, compareAndSwap, hcol, hcol', hlookup]
      cases col'.lookup key with
      | none =>
          cases expected with
          | none => exact ⟨rfl, rfl, rfl, hinsert _ _⟩
          | some revision => exact ⟨rfl, rfl, rfl, h⟩
      | some current =>
          simp only
          split
          · cases expected with
            | none => exact ⟨rfl, rfl, rfl, hinsert _ _⟩
            | some revision =>
                exact ⟨rfl, rfl, rfl, h.removeEntry hcol hcol' key none none⟩
          · cases expected with
            | none => exact ⟨rfl, rfl, rfl, h⟩
            | some revision =>
                simp only
                split
                · exact ⟨rfl, rfl, rfl, hinsert _ _⟩
                · exact ⟨rfl, rfl, rfl, h⟩
  | compareAndDelete name key expected =>
      simp only [Action.collection] at hcol hcol' hnamed
      have hlookup := h.lookup hcol hcol'
        (hnamed key (List.mem_singleton_self key))
      have hremove := fun expected =>
        h.removeEntry hcol hcol' key expected expected
      simp only [Memory.perform, compareAndDelete, hcol, hcol', hlookup]
      cases col'.lookup key with
      | none => exact ⟨rfl, rfl, rfl, h⟩
      | some current =>
          simp only
          split
          · exact ⟨rfl, rfl, rfl, hremove none⟩
          · split
            · exact ⟨rfl, rfl, rfl, hremove (some expected)⟩
            · exact ⟨rfl, rfl, rfl, h⟩

end Perform

/-- At most the cells of `T` change, and no collection comes or goes. -/
structure Stays (T : Cell → Prop) (s t : MemoryState) : Prop where
  cells : ∀ cell, ¬ T cell → t.cells cell = s.cells cell
  names : ∀ name, (t.collection name).isSome = (s.collection name).isSome

section Stays

variable {config : MemoryConfig} {now : DateTime} {order : Order}
  {T : Cell → Prop} {s t u : MemoryState} {name : String}

theorem Stays.refl (s : MemoryState) : Stays T s s :=
  ⟨fun _ _ => rfl, fun _ => rfl⟩

theorem Stays.trans (h : Stays T s t) (h' : Stays T t u) : Stays T s u :=
  ⟨fun cell hcell => (h'.cells cell hcell).trans (h.cells cell hcell),
    fun name => (h'.names name).trans (h.names name)⟩

theorem stays_insertEntry (s : MemoryState) {key : String}
    (hkey : T (name, key)) (stored : RevisionedEntry) (cause : Cause) :
    Stays T s (s.insertEntry name key stored cause) := by
  refine ⟨fun cell hcell => ?_, named_insertEntry s name key stored cause⟩
  cases hcol : s.collection name with
  | none => simp [MemoryState.insertEntry, hcol]
  | some col =>
      rw [cells_insertEntry hcol, Function.update_of_ne]
      rintro rfl
      exact hcell hkey

theorem stays_removeEntry (s : MemoryState) {key : String}
    (hkey : T (name, key)) (expected : Option Revision) :
    Stays T s (s.removeEntry name key expected) := by
  refine ⟨fun cell hcell => ?_, named_removeEntry s name key expected⟩
  cases hcol : s.collection name with
  | none => simp [MemoryState.removeEntry, hcol]
  | some col =>
      rw [cells_removeEntry hcol, Function.update_of_ne]
      rintro rfl
      exact hcell hkey

theorem stays_insertMany (s : MemoryState)
    {items : List (String × RevisionedEntry)}
    (hitems : ∀ item ∈ items, T (name, item.1)) :
    Stays T s (insertMany name s items) := by
  induction items generalizing s with
  | nil => exact .refl s
  | cons item items ih =>
      obtain ⟨hfirst, hrest⟩ := List.forall_mem_cons.mp hitems
      exact (stays_insertEntry s hfirst item.2 .plain).trans (ih _ hrest)

theorem stays_removeMany (s : MemoryState) {keys : List String}
    (hkeys : ∀ key ∈ keys, T (name, key)) :
    Stays T s (removeMany name keys s).1 := by
  induction keys generalizing s with
  | nil => exact .refl s
  | cons key keys ih =>
      obtain ⟨hfirst, hrest⟩ := List.forall_mem_cons.mp hkeys
      simp only [removeMany]
      cases s.entry name key with
      | none => exact ih s hrest
      | some stored =>
          exact (stays_removeEntry s hfirst none).trans (ih _ hrest)

variable (order) in
theorem stays_perform {action : Action}
    (hroom : action.Spacious config now s.cells)
    (haction : action.onEntries = true)
    (hnamed : ∀ key ∈ action.named, T (action.collection, key)) :
    Stays T s (perform config now order s action).state := by
  cases action with
  | cull | destroyCollection => cases haction
  | put name key stored =>
      cases hcol : s.collection name with
      | none =>
          simp only [perform, put, hcol]
          exact .refl s
      | some col =>
          simp only [perform, put_roomy hcol hroom]
          exact stays_insertEntry s
            (hnamed key (List.mem_singleton_self key)) stored .plain
  | putMany name keys entries =>
      cases hcol : s.collection name with
      | none =>
          simp only [perform, putMany, hcol]
          exact .refl s
      | some col =>
          simp only [perform, putMany_roomy hcol hroom]
          exact stays_insertMany s fun item hitem =>
            hnamed item.1 (List.of_mem_zip hitem).1
  | delete name key =>
      simp only [perform, delete]
      split
      · exact .refl s
      · split
        · exact stays_removeEntry s
            (hnamed key (List.mem_singleton_self key)) none
        · exact .refl s
  | deleteMany name keys =>
      simp only [perform, deleteMany]
      split
      · exact .refl s
      · exact stays_removeMany s hnamed
  | compareAndSwap name key expected stored =>
      have hkey := hnamed key (List.mem_singleton_self key)
      have hcases := compareAndSwap_cases now s name key expected stored
      simp only [perform]
      generalize compareAndSwap now name s key expected stored = locked
        at hcases ⊢
      cases hcases with
      | missing | rejected => exact .refl s
      | swept => exact stays_removeEntry s hkey none
      | created | swapped => exact stays_insertEntry s hkey ..
  | compareAndDelete name key expected =>
      have hkey := hnamed key (List.mem_singleton_self key)
      have hcases := compareAndDelete_cases now s name key expected
      simp only [perform]
      generalize compareAndDelete now name s key expected = locked
        at hcases ⊢
      cases hcases with
      | missing | rejected => exact .refl s
      | swept | deleted => exact stays_removeEntry s hkey ..

end Stays

section Prepare

variable {config : MemoryConfig} {rng rng' : Nat → Option Revision}
  {now : DateTime} {order order' : Order} {P : Cell → Prop}
  {s t : MemoryState} {call : Call}

theorem cells_congr (h : s.collections = t.collections) :
    s.cells = t.cells := by
  funext cell
  simp only [MemoryState.cells, MemoryState.entry, MemoryState.collection, h]

theorem collections_freshMany (n : Nat) (s : MemoryState) :
    (freshMany rng n s).2.collections = s.collections := by
  induction n generalizing s with
  | zero => rfl
  | succ n ih =>
      have hfirst : (s.fresh rng).2.collections = s.collections := rfl
      rw [freshMany]
      split
      · rename_i s' heq
        rw [← hfirst, heq]
      · rename_i s' heq
        have hrest := ih s'
        rw [← hfirst, heq]
        split <;> rename_i heq' <;> rw [heq'] at hrest <;> exact hrest

theorem prepare_collections (config : MemoryConfig)
    (rng : Nat → Option Revision) (now : DateTime) (order : Order)
    (s : MemoryState) (hcall : call.onEntries = true) :
    (prepare config rng now order s call).1.collections =
      (s.ensureCollection
        (config.collectionName call.collection?)).collections := by
  cases call with
  | subscribe | cull | collections | destroyCollection | destroy =>
      cases hcall
  | get | ttl | getMany | ttlMany | getWithRevision | keys | delete
  | deleteMany | compareAndDelete => rfl
  | put key value collection ttl | compareAndSwap key _ value collection ttl =>
      simp only [prepare, Call.collection?]
      split
      · rfl
      · have hfresh : ((s.ensureCollection
            (config.collectionName collection)).fresh rng).2.collections =
          (s.ensureCollection
            (config.collectionName collection)).collections := rfl
        rw [← hfresh]
        split <;> rename_i heq <;> rw [heq]
  | putMany keys values collection ttl =>
      simp only [prepare, Call.collection?]
      split
      · rfl
      · rename_i entries _
        rw [← @collections_freshMany rng entries.length
          (s.ensureCollection (config.collectionName collection))]
        split <;> rename_i heq <;> rw [heq]

theorem prepare_locks (config : MemoryConfig) (rng : Nat → Option Revision)
    (now : DateTime) (order : Order) (s : MemoryState)
    (hcall : call.onEntries = true) :
    (∃ result, (prepare config rng now order s call).2 = .done result) ∨
      ∃ action, (prepare config rng now order s call).2 = .lock action ∧
        action.onEntries = true ∧
        action.collection = config.collectionName call.collection? ∧
        action.named = call.named := by
  cases call with
  | subscribe | cull | collections | destroyCollection | destroy =>
      cases hcall
  | get | ttl | getMany | ttlMany | getWithRevision | keys =>
      exact .inl ⟨_, rfl⟩
  | delete | deleteMany | compareAndDelete =>
      exact .inr ⟨_, rfl, rfl, rfl, rfl⟩
  | put | compareAndSwap =>
      simp only [prepare]
      split
      · exact .inl ⟨_, rfl⟩
      · split
        · exact .inl ⟨_, rfl⟩
        · exact .inr ⟨_, rfl, rfl, rfl, rfl⟩
  | putMany =>
      simp only [prepare]
      split
      · exact .inl ⟨_, rfl⟩
      · split
        · exact .inl ⟨_, rfl⟩
        · exact .inr ⟨_, rfl, rfl, rfl, rfl⟩

def SameDraws (rng rng' : Nat → Option Revision) (s t : MemoryState) : Prop :=
  ∀ n, rng' (t.draws + n) = rng (s.draws + n)

theorem freshMany_same (h : SameDraws rng rng' s t) (n : Nat) :
    (freshMany rng n s).1 = (freshMany rng' n t).1 := by
  induction n generalizing s t with
  | zero => rfl
  | succ n ih =>
      have hfirst : rng s.draws = rng' t.draws := (h 0).symm
      have hrest : ∀ s' t' : MemoryState, s'.draws = s.draws + 1 →
          t'.draws = t.draws + 1 → SameDraws rng rng' s' t' := by
        intro s' t' hs ht k
        rw [hs, ht, Nat.add_assoc, Nat.add_assoc]
        exact h (1 + k)
      simp only [freshMany, MemoryState.fresh, hfirst]
      cases rng' t.draws with
      | none => rfl
      | some revision =>
          have hmore := ih (hrest { s with draws := s.draws + 1 }
            { t with draws := t.draws + 1 } rfl rfl)
          simp only
          generalize freshMany rng n { s with draws := s.draws + 1 } = r
            at hmore ⊢
          generalize freshMany rng' n { t with draws := t.draws + 1 } = r'
            at hmore ⊢
          obtain ⟨result, s'⟩ := r
          obtain ⟨result', t'⟩ := r'
          cases hmore
          cases result <;> rfl

theorem Agree.prepare (h : Agree P s t) (hcall : call.onEntries = true)
    (hlists : call.lists = false)
    (hnamed : ∀ key ∈ call.named,
      P (config.collectionName call.collection?, key))
    (hdraws : SameDraws rng rng' s t) :
    (prepare config rng now order s call).2 =
      (prepare config rng' now order' t call).2 := by
  have hlive : ∀ key ∈ call.named,
      s.live now (config.collectionName call.collection?) key =
        t.live now (config.collectionName call.collection?) key := by
    intro key hkey
    have hcell := h _ (hnamed key hkey)
    simp only [MemoryState.cells] at hcell
    rw [MemoryState.live, MemoryState.live, hcell]
  have hensure : ∀ name, SameDraws rng rng' (s.ensureCollection name)
      (t.ensureCollection name) := by
    intro name n
    rw [draws_ensureCollection, draws_ensureCollection]
    exact hdraws n
  cases call with
  | subscribe | cull | collections | destroyCollection | destroy =>
      cases hcall
  | keys => cases hlists
  | get key collection | ttl key collection
  | getWithRevision key collection =>
      simp only [Memory.prepare, Memory.get, Memory.ttl,
        Memory.getWithRevision, getCollection_ensure, liveIn_ensure, bind,
        Except.bind]
      rw [show s.live now (config.collectionName collection) key =
        t.live now (config.collectionName collection) key from
          hlive key (List.mem_singleton_self key)]
  | getMany keys collection =>
      simp only [Memory.prepare, Memory.getMany, getCollection_ensure,
        liveIn_ensure, bind, Except.bind]
      exact congrArg (fun values => Phase.done (.ok (Response.values values)))
        (List.map_congr_left fun key hkey =>
          congrArg (Option.map _) (hlive key hkey))
  | ttlMany keys collection =>
      simp only [Memory.prepare, Memory.ttlMany, getCollection_ensure,
        liveIn_ensure, bind, Except.bind]
      exact congrArg (fun ttls => Phase.done (.ok (Response.ttls ttls)))
        (List.map_congr_left fun key hkey =>
          congrArg (Option.map _) (hlive key hkey))
  | delete | deleteMany | compareAndDelete => rfl
  | put key value collection ttl | compareAndSwap key _ value collection ttl =>
      simp only [Memory.prepare]
      split
      · rfl
      · have hdraw := hensure (config.collectionName collection) 0
        simp only [Nat.add_zero] at hdraw
        simp only [MemoryState.fresh, hdraw]
        cases rng (s.ensureCollection
          (config.collectionName collection)).draws <;> rfl
  | putMany keys values collection ttl =>
      simp only [Memory.prepare]
      split
      · rfl
      · rename_i entries _
        have hmany := freshMany_same
          (hensure (config.collectionName collection)) entries.length
        generalize freshMany rng entries.length (s.ensureCollection _) = r
          at hmany ⊢
        generalize freshMany rng' entries.length (t.ensureCollection _) = r'
          at hmany ⊢
        obtain ⟨result, s'⟩ := r
        obtain ⟨result', t'⟩ := r'
        cases hmany
        cases result <;> rfl

end Prepare

end OpenKeyV.Memory
