import OpenKeyV.Library.Machine
import OpenKeyV.Memory.Contents
import OpenKeyV.Wrapper.StoreContract

/-!
# A memory store keeps the contract

An unbounded `MemoryStore` without a seed answers its calls as the contract
does, whatever expired entries the two still hold.  They part where an expired
entry is deleted by its key, which the store counts, and where an empty batch
comes with a TTL that the store refuses.
-/

namespace OpenKeyV.Wrapper

open Library Memory

section Calls

def StoreOp.call : StoreOp → Call
  | .get key c => .get key c
  | .ttl key c => .ttl key c
  | .put key value c seconds => .put key value c seconds
  | .putMany keys values c seconds => .putMany keys values c seconds
  | .delete key c => .delete key c
  | .deleteMany keys c => .deleteMany keys c
  | .getWithRevision key c => .getWithRevision key c
  | .compareAndSwap key expected value c seconds =>
      .compareAndSwap key expected value c seconds
  | .compareAndDelete key expected c => .compareAndDelete key expected c

def StoreOp.response : (op : StoreOp) → op.Result → Response
  | .get .., found => .value found
  | .ttl .., found => .ttl found
  | .put .., _ => .unit
  | .putMany .., _ => .unit
  | .delete .., found => .flag found
  | .deleteMany .., count => .count count
  | .getWithRevision .., found => .revisioned found
  | .compareAndSwap .., result => .swap result
  | .compareAndDelete .., result => .remove result

def StoreCall.call : StoreCall → Call
  | .one op => op.call
  | .getMany keys c => .getMany keys c
  | .ttlMany keys c => .ttlMany keys c

def StoreCall.response : (call : StoreCall) → call.Result → Response
  | .one op, result => op.response result
  | .getMany .., found => .values found
  | .ttlMany .., found => .ttls found

end Calls

namespace MemoryContract

def slotOf (stored : RevisionedEntry) : Slot :=
  ⟨stored.entry, stored.revision⟩

/-- The cells show at `now` what the entries show. -/
def Shown (now : DateTime) (m : Cells RevisionedEntry) (entries : Entries) :
    Prop :=
  ∀ id, live now entries id =
    ((m id).filter fun stored => !stored.isExpired now).map slotOf

section Shown

variable {now now' : DateTime} {m : Cells RevisionedEntry}
  {entries : Entries} {name : String}

theorem shown_held (m : Cells RevisionedEntry) :
    Shown now m fun id => (m id).map slotOf := by
  intro id
  rw [live, Option.filter_map]
  rfl

theorem Shown.update (h : Shown now m entries) (id : Identity)
    (stored : Option RevisionedEntry) :
    Shown now (Function.update m id stored)
      (Function.update entries id (stored.map slotOf)) := by
  intro other
  by_cases hother : other = id
  · rw [hother, live, Function.update_self, Function.update_self,
      Option.filter_map]
    rfl
  · rw [live, Function.update_of_ne hother, Function.update_of_ne hother]
    exact h other

theorem Shown.swept (h : Shown now m entries) (id : Identity) :
    Shown now (Function.update m id
      ((m id).filter fun stored => !stored.isExpired now)) entries := by
  intro other
  rw [h other]
  by_cases hother : other = id
  · rw [hother, Function.update_self, Option.filter_filter]
    simp only [Bool.and_self]
  · rw [Function.update_of_ne hother]

theorem filter_later {α : Type} (entry : α → ManagedEntry)
    (hle : now ≤ now') (found : Option α) :
    (found.filter fun a => !(entry a).isExpired now).filter
        (fun a => !(entry a).isExpired now') =
      found.filter fun a => !(entry a).isExpired now' := by
  rw [Option.filter_filter]
  congr 1
  funext a
  have hmono := @ManagedEntry.isExpired_mono (entry a) now now' hle
  cases hnow : (entry a).isExpired now with
  | false => simp
  | true => simp [hmono hnow]

theorem Shown.later (h : Shown now m entries) (hle : now ≤ now') :
    Shown now' m entries := by
  intro id
  have hentries := filter_later Slot.entry hle (entries id)
  have hcells := filter_later RevisionedEntry.entry hle (m id)
  rw [live, ← hentries]
  exact (congrArg _ (h id)).trans (by
    rw [Option.filter_map]
    exact congrArg (Option.map slotOf) hcells)

theorem Shown.isSome (h : Shown now m entries) {id : Identity}
    (hfresh : ∀ stored, m id = some stored → stored.isExpired now = false) :
    (live now entries id).isSome = (m id).isSome := by
  rw [h id, Option.isSome_map]
  cases hstored : m id with
  | none => rfl
  | some stored => simp [hfresh stored hstored]

theorem Shown.putSlots (h : Shown now m entries) {ttl : Option F64}
    {made : Value → ManagedEntry} {revisions : Nat → Revision}
    (hmade : ∀ value, ManagedEntry.ofTtl now value ttl = .ok (made value))
    (keys : List String) (values : List Value) (i : Nat) :
    let stored := (values.map made).zipWith RevisionedEntry.mk
      ((List.range' i values.length).map revisions)
    let spec := Wrapper.putSlots now revisions name ttl (keys.zip values) i
      entries
    spec.1 = .ok () ∧
      Shown now (Cells.insertAll name (keys.zip stored) m) spec.2 := by
  induction keys generalizing values i m entries with
  | nil => exact ⟨rfl, h⟩
  | cons key keys ih =>
      cases values with
      | nil => exact ⟨rfl, h⟩
      | cons value values =>
          have hput := h.update (name, key)
            (some ⟨made value, revisions i⟩)
          simp only [List.zip_cons_cons, Wrapper.putSlots, putSlot, hmade,
            List.map_cons, List.length_cons, List.range'_succ,
            List.zipWith_cons_cons, Cells.insertAll]
          exact ih hput values (i + 1)

theorem Shown.deleteSlots (h : Shown now m entries) {keys : List String}
    (hfresh : ∀ key ∈ keys, ∀ stored, m (name, key) = some stored →
      stored.isExpired now = false) :
    (Cells.deleteAll name keys m).1 =
        (Wrapper.deleteSlots now name keys entries).1 ∧
      Shown now (Cells.deleteAll name keys m).2
        (Wrapper.deleteSlots now name keys entries).2 := by
  induction keys generalizing m entries with
  | nil => exact ⟨rfl, h⟩
  | cons key keys ih =>
      have hfound := h.isSome (hfresh key (List.mem_cons_self ..))
      obtain ⟨hcount, hcells⟩ := ih (h.update (name, key) none) (by
        intro other hother stored hstored
        by_cases hkey : (name, other) = (name, key)
        · rw [hkey, Function.update_self] at hstored
          cases hstored
        · rw [Function.update_of_ne hkey] at hstored
          exact hfresh other (List.mem_cons_of_mem _ hother) stored hstored)
      refine ⟨?_, hcells⟩
      simp only [Cells.deleteAll, Wrapper.deleteSlots, hcount, hfound]
      rfl

end Shown

/-- What a call may not do, so that the store answers as the contract does. -/
def Regular (now : DateTime) (s : MemoryState) (defaultCollection : String) :
    StoreCall → Prop
  | .one (.delete key c) => Unexpired now s (c.getD defaultCollection) key
  | .one (.deleteMany keys c) =>
      ∀ key ∈ keys, Unexpired now s (c.getD defaultCollection) key
  | .one (.putMany keys _ _ ttl) =>
      keys = [] → ∀ seconds, ttl = some seconds →
        ManagedEntry.validateTtl now seconds = .ok ()
  | _ => True

/-- The store answers as the contract does, and shows what is left there. -/
def Meets (now : DateTime) (call : StoreCall)
    (answer : Except Error Response × MemoryState)
    (spec : Except Error call.Result × Entries) : Prop :=
  answer.1 = spec.1.map call.response ∧ Shown now answer.2.cells spec.2

section Meets

variable {config : MemoryConfig} {now : DateTime} {order : Order}
  {s : MemoryState} {entries : Entries} {revisions : Nat → Revision}

theorem freshMany_drawn (n : Nat) (s : MemoryState) :
    freshMany (fun n => some (revisions n)) n s =
      (.ok ((List.range' s.draws n).map revisions),
        { s with draws := s.draws + n }) := by
  induction n generalizing s with
  | zero => rfl
  | succ n ih =>
      simp only [freshMany, MemoryState.fresh, ih, List.range'_succ,
        List.map_cons, Nat.add_right_comm, Nat.add_assoc]

theorem meets_done {t : MemoryState} {call : StoreCall}
    {result : Except Error Response}
    {spec : Except Error call.Result × Entries}
    (hresult : result = spec.1.map call.response)
    (hshown : Shown now t.cells spec.2) :
    Meets now call (finish config now order (t, .done result)) spec :=
  ⟨hresult, hshown⟩

theorem meets_lock {t : MemoryState} {action : Action} {call : StoreCall}
    {spec : Except Error call.Result × Entries}
    (hresult : (perform config now order t action).result =
      spec.1.map call.response)
    (hshown : Shown now (perform config now order t action).state.cells
      spec.2) :
    Meets now call (finish config now order (t, .lock action)) spec := by
  refine ⟨hresult, ?_⟩
  rw [show (finish config now order (t, .lock action)).2.cells = _ from
    cells_recordChanges _ _]
  exact hshown

theorem live_of_cells {s t : MemoryState} (h : s.cells = t.cells)
    (name key : String) : s.live now name key = t.live now name key :=
  congrArg (Option.filter _) (congrFun h (name, key))

section Ready

variable (now revisions) in
/-- The call on the contract, with the revisions that `s` will draw. -/
def promised (s : MemoryState) (defaultCollection : String)
    (call : StoreCall) (entries : Entries) :
    Except Error call.Result × Entries :=
  call.apply now (fun i => revisions (s.draws + i)) defaultCollection entries

variable (config now order revisions) in
/-- After its setup, the store `t` answers the call as promised. -/
def KeepsPromise (t : MemoryState) (entries : Entries) (call : StoreCall) :
    Prop :=
  Meets now call
    (finish config now order (prepare config (fun n => some (revisions n)) now
      order t call.call))
    (promised now revisions t config.defaultCollection call entries)

variable {t : MemoryState} (h : Shown now t.cells entries)
  (c : Option String)

include h

theorem meets_put (hmax : config.maxEntriesPerCollection = none)
    (key : String) (value : Value) (ttl : Option F64) :
    KeepsPromise config now order revisions t entries
      (.one (.put key value c ttl)) := by
  simp only [KeepsPromise, promised, StoreCall.call, StoreOp.call, prepare,
    StoreCall.apply, StoreOp.apply, putSlot]
  cases ManagedEntry.ofTtl now value ttl with
  | error error =>
      refine meets_done rfl ?_
      rw [cells_ensureCollection]
      exact h
  | ok entry =>
      obtain ⟨hcol, hsame⟩ := @drawn_ensured t
        { t.ensureCollection (config.collectionName c) with
          draws := t.draws + 1 } _ rfl
      have hput := @put_roomy config now order _ _ _ hcol key
        ⟨entry, revisions t.draws⟩ (Cells.uncrowded_of_unbounded hmax)
      simp only [MemoryState.fresh, draws_ensureCollection]
      refine meets_lock ?_ ?_
      · rw [perform, hput]
        rfl
      · rw [perform, hput, cells_insertEntry hcol, hsame]
        exact h.update _ (some ⟨entry, revisions t.draws⟩)

theorem meets_putMany (hmax : config.maxEntriesPerCollection = none)
    {keys : List String} {values : List Value} {ttl : Option F64}
    (hsize : keys.length = values.length)
    (hvalid : ∀ value, ∃ entry,
      ManagedEntry.ofTtl now value ttl = .ok entry) :
    KeepsPromise config now order revisions t entries
      (.one (.putMany keys values c ttl)) := by
  choose made hmade using hvalid
  have hentries : (values.mapM fun value =>
      ManagedEntry.ofTtl now value ttl) = .ok (values.map made) := by
    rw [funext hmade]
    exact List.mapM_pure
  have hdraws : (List.range' 0 values.length).map
      (fun i => revisions (t.draws + i)) =
        (List.range' t.draws values.length).map revisions := by
    rw [← Nat.add_zero t.draws, ← List.map_add_range', List.map_map]
    rfl
  obtain ⟨hresult, hshown⟩ := @Shown.putSlots now _ _
    (c.getD config.defaultCollection) h ttl made
    (fun i => revisions (t.draws + i)) hmade keys values 0
  rw [hdraws] at hshown
  obtain ⟨hcol, hsame⟩ := @drawn_ensured t
    { t.ensureCollection (config.collectionName c) with
      draws := t.draws + values.length } _ rfl
  have hput := @putMany_roomy config now order _ _ _ hcol keys
    ((values.map made).zipWith RevisionedEntry.mk
      ((List.range' t.draws values.length).map revisions))
    (Cells.uncrowded_of_unbounded hmax)
  simp only [KeepsPromise, promised, StoreCall.call, StoreOp.call, prepare,
    hentries, freshMany_drawn, draws_ensureCollection, List.length_map,
    StoreCall.apply, StoreOp.apply, hsize, ne_eq, not_true_eq_false, if_false]
  refine meets_lock ?_ ?_
  · rw [perform, hput, hresult]
    rfl
  · rw [perform, hput, insertMany_cells hcol, hsame]
    exact hshown

theorem meets_delete {key : String}
    (hfresh : Unexpired now t (c.getD config.defaultCollection) key) :
    KeepsPromise config now order revisions t entries
      (.one (.delete key c)) := by
  obtain ⟨hresult, hcells⟩ := result_and_cells_delete
    (collection_ensured t (config.collectionName c)) key
  rw [cells_ensureCollection] at hresult hcells
  have hfound := @Shown.isSome now _ _ h
    (c.getD config.defaultCollection, key) hfresh
  refine meets_lock (hresult.trans ?_) ?_
  · exact congrArg (fun found => Except.ok (Response.flag found))
      hfound.symm
  · rw [perform, hcells]
    exact h.update _ none

theorem meets_deleteMany {keys : List String}
    (hfresh : ∀ key ∈ keys,
      Unexpired now t (c.getD config.defaultCollection) key) :
    KeepsPromise config now order revisions t entries
      (.one (.deleteMany keys c)) := by
  obtain ⟨hresult, hcells⟩ := deleteMany_cells
    (collection_ensured t (config.collectionName c)) keys
  rw [cells_ensureCollection] at hresult hcells
  obtain ⟨hcount, hshown⟩ := @Shown.deleteSlots now _ _
    (c.getD config.defaultCollection) h keys hfresh
  refine meets_lock (hresult.trans ?_) ?_
  · exact congrArg (fun count => Except.ok (Response.count count)) hcount
  · rw [perform, hcells]
    exact hshown

theorem matchesRevision_shown (name key : String)
    (expected : Option Revision) :
    matchesRevision expected (live now entries (name, key)) = true ↔
      expected = (t.live now name key).map (·.revision) := by
  rw [h (name, key), matchesRevision, beq_iff_eq, Option.map_map]
  rfl

theorem meets_compareAndSwap (key : String) (expected : Option Revision)
    (value : Value) (ttl : Option F64) :
    KeepsPromise config now order revisions t entries
      (.one (.compareAndSwap key expected value c ttl)) := by
  simp only [KeepsPromise, promised, StoreCall.call, StoreOp.call, prepare,
    StoreCall.apply, StoreOp.apply]
  cases ManagedEntry.ofTtl now value ttl with
  | error error =>
      refine meets_done rfl ?_
      rw [cells_ensureCollection]
      exact h
  | ok entry =>
      simp only [MemoryState.fresh, draws_ensureCollection]
      obtain ⟨hcol, hsame⟩ := @drawn_ensured t
        { t.ensureCollection (config.collectionName c) with
          draws := t.draws + 1 } _ rfl
      have hlocked := @compareAndSwap_cells now _ _ _ hcol key expected
        ⟨entry, revisions t.draws⟩
      simp only [live_of_cells hsame, hsame] at hlocked
      obtain ⟨happlied, hconflict⟩ := hlocked
      split
      · rename_i hmatch
        obtain ⟨hresult, hcells⟩ := happlied
          ((matchesRevision_shown h _ key expected).mp hmatch)
        refine meets_lock hresult ?_
        rw [perform, hcells]
        exact h.update _ (some ⟨entry, revisions t.draws⟩)
      · rename_i hmatch
        obtain ⟨hresult, hcells⟩ := hconflict fun hrevision =>
          hmatch ((matchesRevision_shown h _ key expected).mpr hrevision)
        refine meets_lock (hresult.trans ?_) ?_
        · rw [h (c.getD config.defaultCollection, key), Option.map_map]
          rfl
        · rw [perform, hcells]
          exact h.swept (c.getD config.defaultCollection, key)

theorem meets_compareAndDelete (key : String) (expected : Revision) :
    KeepsPromise config now order revisions t entries
      (.one (.compareAndDelete key expected c)) := by
  have hlocked := @compareAndDelete_cells now _ _ _
    (collection_ensured t (config.collectionName c)) key expected
  have hsame := cells_ensureCollection t (config.collectionName c)
  simp only [live_of_cells hsame, hsame] at hlocked
  obtain ⟨hdeleted, hconflict⟩ := hlocked
  simp only [KeepsPromise, promised, StoreCall.call, StoreOp.call, prepare,
    StoreCall.apply, StoreOp.apply]
  split
  · rename_i hmatch
    obtain ⟨hresult, hcells⟩ := hdeleted
      ((matchesRevision_shown h _ key (some expected)).mp hmatch)
    refine meets_lock hresult ?_
    rw [perform, hcells]
    exact h.update _ none
  · rename_i hmatch
    obtain ⟨hresult, hcells⟩ := hconflict fun hrevision =>
      hmatch ((matchesRevision_shown h _ key (some expected)).mpr hrevision)
    refine meets_lock (hresult.trans ?_) ?_
    · rw [h (c.getD config.defaultCollection, key), Option.map_map]
      rfl
    · rw [perform, hcells]
      exact h.swept (c.getD config.defaultCollection, key)

end Ready

theorem validated {ttl : Option F64}
    (hvalid : ∀ seconds, ttl = some seconds →
      ManagedEntry.validateTtl now seconds = .ok ()) :
    ttl.map (ManagedEntry.validateTtl now) = none ∨
      ttl.map (ManagedEntry.validateTtl now) = some (.ok ()) := by
  cases ttl with
  | none => exact .inl rfl
  | some seconds => exact .inr (congrArg some (hvalid seconds rfl))

variable (order revisions) in
theorem meets_contract (hmax : config.maxEntriesPerCollection = none)
    (hseed : config.seed = none) (call : StoreCall)
    (hregular : Regular now s config.defaultCollection call)
    (h : Shown now s.cells entries) :
    Meets now call
      (runAlone config (fun n => some (revisions n)) now order call.call s)
      (promised now revisions s config.defaultCollection call entries) := by
  have hready : start now call.call = .setup call.call →
      runAlone config (fun n => some (revisions n)) now order call.call s =
        finish config now order (prepare config
          (fun n => some (revisions n)) now order
          { s with setupComplete := true } call.call) :=
    fun hstart => runAlone_unseeded hseed _ hstart
  have hset : Shown now
    ({ s with setupComplete := true } : MemoryState).cells entries := h
  have hlive : ∀ name key, live now entries (name, key) =
      (s.live now name key).map slotOf := fun name key => h (name, key)
  cases call with
  | getMany keys c | ttlMany keys c =>
      rw [hready rfl]
      refine meets_done ?_ ((cells_ensureCollection ..).symm ▸ hset)
      simp only [Memory.getMany, Memory.ttlMany, getCollection_ensure,
        liveIn_ensure, bind, Except.bind, promised, StoreCall.apply, Except.map,
        hlive, Option.map_map]
      rfl
  | one op =>
      cases op with
      | get key c | ttl key c | getWithRevision key c =>
          rw [hready rfl]
          refine meets_done ?_ ((cells_ensureCollection ..).symm ▸ hset)
          simp only [Memory.get, Memory.ttl, Memory.getWithRevision,
            getCollection_ensure, liveIn_ensure, bind, Except.bind, promised,
            StoreCall.apply, StoreOp.apply, Except.map, hlive, Option.map_map]
          rfl
      | put key value c ttl =>
          rw [hready rfl]
          exact meets_put hset c hmax key value ttl
      | putMany keys values c ttl =>
          by_cases hsize : keys.length = values.length
          · rcases ManagedEntry.ofTtl_cases now ttl with
              ⟨hvalid, hvalidate⟩ | ⟨error, hinvalid, seconds, rfl, hvalidate⟩
            · rw [hready]
              · exact meets_putMany hset c hmax hsize hvalid
              · simp only [StoreCall.call, StoreOp.call, start, hsize, ne_eq,
                  not_true_eq_false, if_false]
                rcases validated hvalidate with hnone | hok
                · rw [hnone]
                · rw [hok]
            · cases keys with
              | nil => simp [hregular rfl seconds rfl] at hvalidate
              | cons key keys =>
                  cases values with
                  | nil => simp at hsize
                  | cons value values =>
                      simp only [StoreCall.call, StoreOp.call, runAlone, start,
                        hsize, ne_eq, not_true_eq_false, if_false,
                        Option.map_some, hvalidate, promised, StoreCall.apply,
                        StoreOp.apply, List.zip_cons_cons, putSlots, putSlot,
                        hinvalid]
                      exact ⟨rfl, h⟩
          · simp only [StoreCall.call, StoreOp.call, runAlone, start, promised,
              StoreCall.apply, StoreOp.apply, if_pos hsize, ne_eq]
            exact ⟨rfl, h⟩
      | delete key c =>
          rw [hready rfl]
          exact meets_delete hset c hregular
      | deleteMany keys c =>
          rw [hready rfl]
          exact meets_deleteMany hset c hregular
      | compareAndSwap key expected value c ttl =>
          rcases ManagedEntry.ofTtl_cases now ttl with
            ⟨-, hvalid⟩ | ⟨error, hinvalid, seconds, rfl, hvalidate⟩
          · rw [hready]
            · exact meets_compareAndSwap hset c key expected value ttl
            · simp only [StoreCall.call, StoreOp.call, start]
              rcases validated hvalid with hnone | hok
              · rw [hnone]
              · rw [hok]
          · simp only [StoreCall.call, StoreOp.call, runAlone, start,
              Option.map_some, hvalidate, promised, StoreCall.apply,
              StoreOp.apply, hinvalid]
            exact ⟨rfl, h⟩
      | compareAndDelete key expected c =>
          rw [hready rfl]
          exact meets_compareAndDelete hset c key expected

end Meets

section Runs

variable (config : MemoryConfig) (revisions : Nat → Revision)

structure Timed where
  now : DateTime
  order : Order
  call : StoreCall

/-- A store beside the entries that the contract gives it. -/
structure Twin where
  store : MemoryState
  entries : Entries
  clock : DateTime

def Twin.answer (twin : Twin) (timed : Timed) :
    Except Error Response × MemoryState :=
  runAlone config (fun n => some (revisions n)) timed.now timed.order
    timed.call.call twin.store

def Twin.promise (twin : Twin) (timed : Timed) :
    Except Error timed.call.Result × Entries :=
  promised timed.now revisions twin.store config.defaultCollection timed.call
    twin.entries

def Twin.step (twin : Twin) (timed : Timed) : Option Twin :=
  some ⟨(twin.answer config revisions timed).2,
    (twin.promise config revisions timed).2, timed.now⟩

/-- Every run of regular calls of an unbounded store without a seed gets the
answers of the contract over the entries that the store holds at first. -/
theorem runs_meet_contract
    (hmax : config.maxEntriesPerCollection = none)
    (hseed : config.seed = none) (s : MemoryState) (clock : DateTime)
    (calls : List Timed)
    (hcalls : Along (Twin.step config revisions)
      (fun twin timed => twin.clock ≤ timed.now ∧
        Regular timed.now twin.store config.defaultCollection timed.call)
      ⟨s, fun id => (s.cells id).map slotOf, clock⟩ calls) :
    Along (Twin.step config revisions)
      (fun twin timed => (twin.answer config revisions timed).1 =
        (twin.promise config revisions timed).1.map timed.call.response)
      ⟨s, fun id => (s.cells id).map slotOf, clock⟩ calls := by
  have hmeets : ∀ (twin : Twin) (timed : Timed),
      Shown twin.clock twin.store.cells twin.entries →
      twin.clock ≤ timed.now ∧
        Regular timed.now twin.store config.defaultCollection timed.call →
      Meets timed.now timed.call (twin.answer config revisions timed)
        (twin.promise config revisions timed) :=
    fun twin timed hshown hcall => meets_contract timed.order revisions hmax
      hseed timed.call hcall.2 (hshown.later hcall.1)
  refine along_of_invariant
    (P := fun twin => Shown twin.clock twin.store.cells twin.entries)
    ?_ ?_ (shown_held _) hcalls
  · intro twin timed next hshown hcall hnext
    cases hnext
    exact (hmeets twin timed hshown hcall).2
  · intro twin timed hshown hcall
    exact (hmeets twin timed hshown hcall).1

end Runs

end MemoryContract

end OpenKeyV.Wrapper
