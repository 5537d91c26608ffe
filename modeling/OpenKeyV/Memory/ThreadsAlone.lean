import OpenKeyV.Memory.Expired
import OpenKeyV.Memory.Threads

/-!
# Calls that are not interrupted

A call that is made access by access, with no other call in between, comes to
what its stretches from one await to the next come to.
-/

namespace OpenKeyV.Memory.Threads

open OpenKeyV.Library OpenKeyV.Library.Interaction

section Alone

variable (config : MemoryConfig) (rng : Nat → Option Revision)
  (now : DateTime) (order : Order) (task : Nat)

/-- By itself the call comes to the outcome, and the locks and references are
afterwards what they were before. -/
def Serves {α : Type} (setupLocked mutationLocked : Bool)
    (readers : List (Nat × String)) (call : Requests α) (s : MemoryState)
    (outcome : Except Error α × MemoryState) : Prop :=
  ∀ lost, ∃ lost', Exec (Heap.handle config rng task)
    (fun choice _ _ => choice = order) call.run
    ⟨s, now, setupLocked, mutationLocked, readers, lost⟩ outcome.1
    ⟨outcome.2, now, setupLocked, mutationLocked, readers, lost'⟩

variable {config rng now order task} {α β : Type}
  {setupLocked mutationLocked : Bool} {readers : List (Nat × String)}
  {s s' : MemoryState}

theorem serves_attempt (result : Except Error α) :
    Serves config rng now order task setupLocked mutationLocked readers
      (attempt result) s (result, s) :=
  fun lost => ⟨lost, exec_attempt result⟩

theorem serves_send {a : Access} {answer : a.Answer}
    (h : ∀ lost, ∃ lost', Heap.handle config rng task order a
      ⟨s, now, setupLocked, mutationLocked, readers, lost⟩ =
        some (answer, ⟨s', now, setupLocked, mutationLocked, readers, lost'⟩)) :
    Serves config rng now order task setupLocked mutationLocked readers
      (send a) s (.ok answer, s') := by
  intro lost
  obtain ⟨lost', hhandle⟩ := h lost
  exact ⟨lost', exec_access order rfl hhandle⟩

theorem Serves.bind {call : Requests α} {f : α → Requests β}
    {outcome : Except Error α × MemoryState}
    {g : α → MemoryState → Except Error β × MemoryState}
    (h : Serves config rng now order task setupLocked mutationLocked readers
      call s outcome)
    (hnext : ∀ a s', outcome = (.ok a, s') → Serves config rng now order task
      setupLocked mutationLocked readers (f a) s' (g a s')) :
    Serves config rng now order task setupLocked mutationLocked readers
      (call >>= f) s (andThen g outcome) := by
  intro lost
  obtain ⟨lost', hcall⟩ := h lost
  obtain ⟨result, s'⟩ := outcome
  cases result with
  | error error => exact ⟨lost', hcall.bind_run .done⟩
  | ok a =>
      obtain ⟨lost'', hrest⟩ := hnext a s' rfl lost'
      exact ⟨lost'', hcall.bind_run hrest⟩

theorem Serves.observe {call : Requests α}
    {outcome : Except Error α × MemoryState}
    (h : Serves config rng now order task setupLocked mutationLocked readers
      call s outcome) :
    Serves config rng now order task setupLocked mutationLocked readers
      (observe call) s (.ok outcome.1, outcome.2) := by
  intro lost
  obtain ⟨lost', hcall⟩ := h lost
  exact ⟨lost', hcall.observe⟩

theorem Serves.locked {body : Requests α}
    {outcome : Except Error α × MemoryState}
    (h : Serves config rng now order task setupLocked true readers body s
      outcome) :
    Serves config rng now order task setupLocked false readers
      (Threads.locked body) s outcome := by
  intro lost
  obtain ⟨lost', hbody⟩ := h.observe lost
  refine ⟨lost', (exec_access order rfl rfl).bind_run ?_⟩
  refine hbody.bind_run ?_
  exact (exec_access order rfl rfl).bind_run (exec_attempt _)

theorem Serves.borrowing {body : Requests α} {name : String}
    {outcome : Except Error α × MemoryState}
    (hcol : (s.collection name).isSome = true)
    (h : Serves config rng now order task setupLocked mutationLocked
      ((task, name) :: readers) body s outcome) :
    Serves config rng now order task setupLocked mutationLocked readers
      (Threads.borrowing name body) s outcome := by
  intro lost
  obtain ⟨lost', hbody⟩ := h.observe lost
  have hfind : Heap.handle config rng task order (.find name)
      ⟨s, now, setupLocked, mutationLocked, readers, lost⟩ =
        some (true, ⟨s, now, setupLocked, mutationLocked,
          (task, name) :: readers, lost⟩) := by
    simp only [Heap.handle, hcol, if_true]
  have hleave : Heap.handle config rng task order (.leave name)
      ⟨outcome.2, now, setupLocked, mutationLocked, (task, name) :: readers,
        lost'⟩ =
        some ((), ⟨outcome.2, now, setupLocked, mutationLocked, readers,
          lost'⟩) := by
    simp only [Heap.handle, List.erase_cons_head]
  have hget : Exec (Heap.handle config rng task)
      (fun choice _ _ => choice = order) (getCollection name).run _ (.ok ())
      _ := (exec_access order rfl hfind).bind_run .done
  refine ⟨lost', hget.bind_run (hbody.bind_run ?_)⟩
  exact (exec_access order rfl hleave).bind_run (exec_attempt _)

/-! ## Stretches of a call -/

theorem serves_recordAll (mutations : List Mutation) (s : MemoryState) :
    Serves config rng now order task setupLocked mutationLocked readers
      (recordAll mutations) s (.ok (), mutations.foldl
        (fun s mutation => s.recordChange now mutation) s) := by
  induction mutations generalizing s with
  | nil => exact serves_attempt _
  | cons mutation mutations ih =>
      have hrecord : Serves config rng now order task setupLocked
          mutationLocked readers (send (.record mutation)) s
          (.ok (), s.recordChange now mutation) :=
        serves_send fun lost => ⟨lost, rfl⟩
      exact hrecord.bind fun _ s' _ => ih s'

def Unhindered (readers : List (Nat × String)) (action : Action) : Prop :=
  ∀ name, exclusive action = some name → ∀ reader ∈ readers, reader.2 ≠ name

theorem serves_perform {action : Action}
    (hfree : Unhindered readers action) :
    let done := perform config now order s action
    Serves config rng now order task setupLocked mutationLocked readers
      (send (.perform action)) s (.ok (done.result, done.pending),
        done.state) := by
  refine serves_send fun lost => ⟨losing lost action, ?_⟩
  have hnone : (exclusive action).any (Heap.referenced
      ⟨s, now, setupLocked, mutationLocked, readers, lost⟩) = false := by
    rw [Option.any_eq_false]
    intro name hname
    simp only [Heap.referenced, List.any_eq_false, beq_iff_eq]
    exact hfree name hname
  simp only [Heap.handle, hnone, Bool.false_eq_true, if_false]

theorem serves_performRecorded {action : Action}
    (hfree : Unhindered readers action) :
    Serves config rng now order task setupLocked mutationLocked readers
      (performRecorded action) s
      (finish config now order (s, .lock action)) := by
  refine (serves_perform hfree).bind (g := fun answer s =>
    (answer.1, answer.2.foldl (fun s mutation => s.recordChange now mutation)
      s)) fun answer s' _ => ?_
  exact (serves_recordAll answer.2 s').bind
    (g := fun _ s => (answer.1, s)) fun _ _ _ => serves_attempt _

theorem serves_seedAll
    (seed : List (Sigma fun _ : String => KeyedMap String Value))
    (s : MemoryState) :
    Serves config rng now order task setupLocked mutationLocked []
      (seedAll seed) s (loadSeed config rng now order seed s) := by
  induction seed generalizing s with
  | nil => exact serves_attempt _
  | cons item seed ih =>
      obtain ⟨name, items⟩ := item
      have hseed : Serves config rng now order task setupLocked mutationLocked
          [] (send (.seed name items)) s
          (.ok (Heap.seed config rng now order name items s).1,
            (Heap.seed config rng now order name items s).2) :=
        serves_send fun lost => ⟨Function.update lost name false, rfl⟩
      have hload : loadSeed config rng now order (⟨name, items⟩ :: seed) s =
          andThen (fun _ s => loadSeed config rng now order seed s)
            (Heap.seed config rng now order name items s) := by
        simp only [loadSeed, Heap.seed]
        rcases loadItems rng now name items.entries
          (s.ensureCollection name) with ⟨_ | _, _⟩ <;> rfl
      rw [hload]
      exact hseed.bind (g := fun result s =>
        andThen (fun _ s => loadSeed config rng now order seed s) (result, s))
        fun result s' _ => (serves_attempt result).bind fun _ s'' _ => ih s''

theorem serves_setup (mutationLocked : Bool) (s : MemoryState) :
    Serves config rng now order task false mutationLocked []
      (Threads.setup config) s (Memory.setup config rng now order s) := by
  intro lost
  have hlock : Exec (Heap.handle config rng task)
      (fun choice _ _ => choice = order) (send .lockSetup).run
      ⟨s, now, false, mutationLocked, [], lost⟩ (.ok s.setupComplete)
      ⟨s, now, true, mutationLocked, [], lost⟩ := exec_access order rfl rfl
  have hunlock (complete : Bool) (t : MemoryState) (lost : String → Bool) :
      Exec (Heap.handle config rng task) (fun choice _ _ => choice = order)
        (send (.unlockSetup complete)).run
        ⟨t, now, true, mutationLocked, [], lost⟩ (.ok ())
        ⟨if complete then { t with setupComplete := true } else t, now, false,
          mutationLocked, [], lost⟩ := exec_access order rfl rfl
  unfold Threads.setup Memory.setup
  cases hcomplete : s.setupComplete with
  | true =>
      rw [hcomplete] at hlock
      exact ⟨lost, hlock.bind_run (hunlock false s lost)⟩
  | false =>
      rw [hcomplete] at hlock
      cases hseed : config.seed with
      | none => exact ⟨lost, hlock.bind_run (hunlock true s lost)⟩
      | some seed =>
          obtain ⟨lost', hload⟩ :=
            (serves_seedAll seed.entries s).observe lost
          refine ⟨lost', hlock.bind_run (hload.bind_run ?_)⟩
          simp only [Bool.false_eq_true, if_false]
          generalize loadSeed config rng now order seed.entries s = loaded
          obtain ⟨error | done, t⟩ := loaded
          · exact (hunlock false t lost').bind_run (exec_attempt _)
          · exact (hunlock true t lost').bind_run (exec_attempt _)

theorem serves_create (mutationLocked : Bool) (name : String)
    (s : MemoryState) :
    Serves config rng now order task setupLocked mutationLocked []
      (send (.create name)) s (.ok (), s.ensureCollection name) :=
  serves_send fun lost => ⟨Function.update lost name false, rfl⟩

theorem Serves.whole {call : Call} {collection : Option String}
    {body : Requests Response} (hstart : start now call = .setup call)
    (h : ∀ s, Serves config rng now order task false false [] body
      (s.ensureCollection (config.collectionName collection))
      (finish config now order (prepare config rng now order s call)))
    (s : MemoryState) :
    Serves config rng now order task false false []
      (setupCollection config (config.collectionName collection) >>= fun _ =>
        body) s (runAlone config rng now order call s) := by
  rw [runAlone_eq hstart]
  intro lost
  obtain ⟨lost', hsetup⟩ := serves_setup false s lost
  generalize Memory.setup config rng now order s = outcome at hsetup ⊢
  obtain ⟨error | done, t⟩ := outcome
  · exact ⟨lost', (hsetup.bind_run .done).bind_run .done⟩
  · obtain ⟨lost'', hcreate⟩ := serves_create false _ t lost'
    obtain ⟨final, hbody⟩ := h t lost''
    have hfirst : Exec (Heap.handle config rng task)
        (fun choice _ _ => choice = order)
        (setupCollection config (config.collectionName collection)).run _
        (.ok ()) _ := hsetup.bind_run hcreate
    exact ⟨final, hfirst.bind_run hbody⟩

/-! ## Reading calls -/

theorem serves_peek (name key : String) (s : MemoryState) :
    Serves config rng now order task setupLocked mutationLocked readers
      (send (.peek name key)) s
      (.ok ((s.live now name key).map (·.snapshot now)), s) :=
  serves_send fun lost => ⟨lost, rfl⟩

theorem serves_peekAll (name : String) (keys : List String) (s : MemoryState) :
    Serves config rng now order task setupLocked mutationLocked readers
      (peekAll name keys) s (.ok (keys.map fun key =>
        (s.live now name key).map (·.snapshot now)), s) := by
  induction keys with
  | nil => exact serves_attempt _
  | cons key keys ih =>
      intro lost
      obtain ⟨lost', hfirst⟩ := serves_peek name key s lost
      obtain ⟨lost'', hrest⟩ := ih lost'
      exact ⟨lost'', hfirst.bind_run (hrest.bind_run .done)⟩

variable (config rng now order task) in
theorem serves_reading (call : Call) (collection : Option String)
    (read : String → Requests α) (answer : α → Response)
    (found : MemoryState → α) (hstart : start now call = .setup call)
    (hread : ∀ s, Serves config rng now order task false false
      [(task, config.collectionName collection)]
      (read (config.collectionName collection)) s (.ok (found s), s))
    (hprepare : ∀ s, prepare config rng now order s call =
      (s.ensureCollection (config.collectionName collection),
        .done (.ok (answer (found (s.ensureCollection
          (config.collectionName collection)))))))
    (s : MemoryState) :
    Serves config rng now order task false false []
      (reading config collection read answer) s
      (runAlone config rng now order call s) := by
  refine Serves.whole hstart (fun s => ?_) s
  rw [hprepare]
  exact (Serves.borrowing (by simp) (hread _)).bind
    (g := fun a s => (.ok (answer a), s)) fun _ _ _ => serves_attempt _

theorem live_ensured (s : MemoryState) (name key : String) :
    (s.ensureCollection name).live now name key = s.live now name key := by
  simp only [MemoryState.live, MemoryState.entry_ensureCollection]

theorem serves_get (key : String) (collection : Option String)
    (s : MemoryState) :
    Serves config rng now order task false false []
      (Threads.get config key collection) s
      (runAlone config rng now order (.get key collection) s) := by
  refine serves_reading config rng now order task _ _ _ _ _ rfl
    (serves_peek _ key) (fun s => ?_) s
  simp only [prepare, Memory.get, getCollection_ensure, bind, Except.bind,
    liveIn_ensure, live_ensured, Option.map_map, Function.comp_def]
  rfl

theorem serves_ttl (key : String) (collection : Option String)
    (s : MemoryState) :
    Serves config rng now order task false false []
      (Threads.ttl config key collection) s
      (runAlone config rng now order (.ttl key collection) s) := by
  refine serves_reading config rng now order task _ _ _ _ _ rfl
    (serves_peek _ key) (fun s => ?_) s
  simp only [prepare, Memory.ttl, getCollection_ensure, bind, Except.bind,
    liveIn_ensure, live_ensured, Option.map_map, Function.comp_def]
  rfl

theorem serves_getWithRevision (key : String) (collection : Option String)
    (s : MemoryState) :
    Serves config rng now order task false false []
      (Threads.getWithRevision config key collection) s
      (runAlone config rng now order (.getWithRevision key collection) s) := by
  refine serves_reading config rng now order task _ _ _ _ _ rfl
    (serves_peek _ key) (fun s => ?_) s
  simp only [prepare, Memory.getWithRevision, getCollection_ensure, bind,
    Except.bind, liveIn_ensure, live_ensured]
  rfl

theorem serves_getMany (keys : List String) (collection : Option String)
    (s : MemoryState) :
    Serves config rng now order task false false []
      (Threads.getMany config keys collection) s
      (runAlone config rng now order (.getMany keys collection) s) := by
  refine serves_reading config rng now order task _ _ _ _ _ rfl
    (serves_peekAll _ keys) (fun s => ?_) s
  simp only [prepare, Memory.getMany, getCollection_ensure, bind, Except.bind,
    liveIn_ensure, live_ensured, List.map_map, Function.comp_def,
    Option.map_map]
  rfl

theorem serves_ttlMany (keys : List String) (collection : Option String)
    (s : MemoryState) :
    Serves config rng now order task false false []
      (Threads.ttlMany config keys collection) s
      (runAlone config rng now order (.ttlMany keys collection) s) := by
  refine serves_reading config rng now order task _ _ _ _ _ rfl
    (serves_peekAll _ keys) (fun s => ?_) s
  simp only [prepare, Memory.ttlMany, getCollection_ensure, bind, Except.bind,
    liveIn_ensure, live_ensured, List.map_map, Function.comp_def,
    Option.map_map]
  rfl

theorem serves_keys (collection : Option String) (limit : Option Nat)
    (s : MemoryState) :
    Serves config rng now order task false false []
      (Threads.keys config collection limit) s
      (runAlone config rng now order (.keys collection limit) s) := by
  refine serves_reading config rng now order task _ _ _ _
    (fun s => (order.keys (config.collectionName collection)
      ((s.collection (config.collectionName collection)).getD ∅).keys).take
        (pageLen limit)) rfl (fun s => ?_) (fun s => ?_) s
  · exact serves_send fun lost => ⟨lost, rfl⟩
  · simp only [prepare, Memory.keys, getCollection_ensure,
      MemoryState.collection_ensureCollection, if_true, Option.getD_some]
    rfl

/-! ## Writing calls -/

theorem serves_stamp (value : Value) (ttl : Option F64) (s : MemoryState) :
    Serves config rng now order task setupLocked mutationLocked readers
      (send (.stamp value ttl) >>= attempt) s
      (Heap.stamp rng now value ttl s) := by
  have hstamp : Serves config rng now order task setupLocked mutationLocked
      readers (send (.stamp value ttl)) s
      (.ok (Heap.stamp rng now value ttl s).1,
        (Heap.stamp rng now value ttl s).2) :=
    serves_send fun lost => ⟨lost, rfl⟩
  exact hstamp.bind (g := fun result s => (result, s))
    fun result _ _ => serves_attempt result

theorem serves_stampMany (values : List Value) (ttl : Option F64)
    (s : MemoryState) :
    Serves config rng now order task setupLocked mutationLocked readers
      (send (.stampMany values ttl) >>= attempt) s
      (Heap.stampMany rng now values ttl s) := by
  have hstamp : Serves config rng now order task setupLocked mutationLocked
      readers (send (.stampMany values ttl)) s
      (.ok (Heap.stampMany rng now values ttl s).1,
        (Heap.stampMany rng now values ttl s).2) :=
    serves_send fun lost => ⟨lost, rfl⟩
  exact hstamp.bind (g := fun result s => (result, s))
    fun result _ _ => serves_attempt result

theorem collection_stamp (value : Value) (ttl : Option F64) (name : String) :
    (Heap.stamp rng now value ttl s).2.collection name =
      s.collection name := by
  unfold Heap.stamp
  split
  · rfl
  · rw [← collection_fresh rng s]
    split <;> rename_i heq <;> rw [heq]

theorem serves_put (key : String) (value : Value) (collection : Option String)
    (ttl : Option F64) (s : MemoryState) :
    Serves config rng now order task false false []
      (Threads.put config key value collection ttl) s
      (runAlone config rng now order (.put key value collection ttl) s) := by
  refine Serves.whole rfl (fun s => ?_) s
  have hprepare : finish config now order (prepare config rng now order s
      (.put key value collection ttl)) =
        andThen (fun stored t => finish config now order (t, .lock
            (.put (config.collectionName collection) key stored)))
          (Heap.stamp rng now value ttl
            (s.ensureCollection (config.collectionName collection))) := by
    simp only [prepare, Heap.stamp]
    cases ManagedEntry.ofTtl now value ttl with
    | error error => rfl
    | ok entry =>
        simp only
        rcases (s.ensureCollection (config.collectionName collection)).fresh
          rng with ⟨_ | _, _⟩ <;> rfl
  rw [hprepare]
  exact (serves_stamp value ttl _).bind fun stored t _ =>
    (serves_performRecorded fun _ _ => by simp).locked

theorem serves_checked {ttl : Option F64} {body : Requests Response}
    {outcome : Except Error Response × MemoryState}
    (hvalid : (∀ error, ttl.map (ManagedEntry.validateTtl now) ≠
        some (.error error)) →
      Serves config rng now order task setupLocked mutationLocked readers body s
        outcome)
    (hinvalid : ∀ error, ttl.map (ManagedEntry.validateTtl now) =
      some (.error error) → outcome = (.error error, s)) :
    Serves config rng now order task setupLocked mutationLocked readers
      (do
        if let some seconds := ttl then
          send (.validateTtl seconds) >>= attempt
        body) s outcome := by
  cases ttl with
  | none => exact hvalid (by simp)
  | some seconds =>
      intro lost
      have hcheck : Exec (Heap.handle config rng task)
          (fun choice _ _ => choice = order)
          (send (.validateTtl seconds) >>= attempt : Requests Unit).run
          ⟨s, now, setupLocked, mutationLocked, readers, lost⟩
          (ManagedEntry.validateTtl now seconds)
          ⟨s, now, setupLocked, mutationLocked, readers, lost⟩ :=
        (exec_access order rfl rfl).bind_run (exec_attempt _)
      cases hresult : ManagedEntry.validateTtl now seconds with
      | error error =>
          rw [hresult] at hcheck
          rw [hinvalid error (by simp [hresult])]
          exact ⟨lost, hcheck.bind_run .done⟩
      | ok done =>
          rw [hresult] at hcheck
          obtain ⟨lost', hbody⟩ := hvalid (by simp [hresult]) lost
          exact ⟨lost', hcheck.bind_run hbody⟩

theorem serves_putMany (keys : List String) (values : List Value)
    (collection : Option String) (ttl : Option F64) (s : MemoryState) :
    Serves config rng now order task false false []
      (Threads.putMany config keys values collection ttl) s
      (runAlone config rng now order (.putMany keys values collection ttl)
        s) := by
  unfold Threads.putMany
  by_cases hlength : keys.length ≠ values.length
  · rw [if_pos hlength]
    simp only [runAlone, start, if_pos hlength]
    exact serves_attempt _
  · rw [if_neg hlength]
    refine serves_checked (fun hvalid => ?_) fun error hinvalid => ?_
    · have hstart : start now (.putMany keys values collection ttl) =
          .setup (.putMany keys values collection ttl) := by
        simp only [start, if_neg hlength]
      refine Serves.whole hstart (fun s => ?_) s
      have hprepare : finish config now order (prepare config rng now order s
          (.putMany keys values collection ttl)) =
            andThen (fun entries t => finish config now order (t, .lock
                (.putMany (config.collectionName collection) keys entries)))
              (Heap.stampMany rng now values ttl
                (s.ensureCollection (config.collectionName collection))) := by
        simp only [prepare, Heap.stampMany]
        cases values.mapM fun value => ManagedEntry.ofTtl now value ttl with
        | error error => rfl
        | ok entries =>
            simp only
            rcases freshMany rng entries.length (s.ensureCollection
              (config.collectionName collection)) with ⟨_ | _, _⟩ <;> rfl
      rw [hprepare]
      exact (serves_stampMany values ttl _).bind fun entries t _ =>
        (serves_performRecorded fun _ _ => by simp).locked
    · simp only [runAlone, start, if_neg hlength, hinvalid]
      rfl

theorem unhindered_of_inner {action : Action}
    (h : exclusive action = none) : Unhindered readers action := by
  intro name hname
  rw [h] at hname
  cases hname

theorem serves_delete (key : String) (collection : Option String)
    (s : MemoryState) :
    Serves config rng now order task false false []
      (Threads.delete config key collection) s
      (runAlone config rng now order (.delete key collection) s) :=
  Serves.whole rfl (fun s => (Serves.borrowing (by simp)
    (serves_performRecorded (unhindered_of_inner rfl))).locked) s

theorem serves_removeAll {name : String} (keys : List String)
    {s : MemoryState} (hcol : (s.collection name).isSome = true) :
    Serves config rng now order task setupLocked mutationLocked readers
      (removeAll name keys) s
      (.ok (deletions name (removeMany name keys s).2),
        (removeMany name keys s).1) := by
  induction keys generalizing s with
  | nil => exact serves_attempt _
  | cons key keys ih =>
      have hperform := @serves_perform config rng now order task setupLocked
        mutationLocked readers s (.delete name key) (unhindered_of_inner rfl)
      obtain ⟨col, hcol⟩ := Option.isSome_iff_exists.mp hcol
      have hentry : s.entry name key = col.lookup key := by
        rw [MemoryState.entry, hcol, Option.bind_some]
      simp only [perform, Memory.delete, hcol, ← hentry] at hperform
      simp only [removeMany]
      cases hstored : s.entry name key with
      | none =>
          simp only [hstored] at hperform
          intro lost
          obtain ⟨lost', hfirst⟩ := hperform lost
          obtain ⟨lost'', hrest⟩ := ih (by rw [hcol]; rfl) lost'
          exact ⟨lost'', hfirst.bind_run (hrest.bind_run .done)⟩
      | some stored =>
          simp only [hstored] at hperform
          intro lost
          obtain ⟨lost', hfirst⟩ := hperform lost
          obtain ⟨lost'', hrest⟩ := @ih (s.removeEntry name key none)
            (retains_removeEntry name key none _ (by rw [hcol]; rfl)) lost'
          exact ⟨lost'', hfirst.bind_run (hrest.bind_run .done)⟩

theorem serves_deleteMany (keys : List String) (collection : Option String)
    (s : MemoryState) :
    Serves config rng now order task false false []
      (Threads.deleteMany config keys collection) s
      (runAlone config rng now order (.deleteMany keys collection) s) := by
  refine Serves.whole rfl (fun s => ?_) s
  have hcol : ((s.ensureCollection (config.collectionName
      collection)).collection (config.collectionName collection)).isSome =
        true := by simp
  refine (Serves.borrowing hcol ?_).locked
  obtain ⟨col, hsome⟩ := Option.isSome_iff_exists.mp hcol
  intro lost
  obtain ⟨lost', hremoved⟩ := serves_removeAll keys hcol lost
  obtain ⟨lost'', hrecorded⟩ := serves_recordAll (deletions _ _) _ lost'
  refine ⟨lost'', ?_⟩
  simp only [prepare, finish, perform, Memory.deleteMany, hsome]
  have hcount : (deletions (config.collectionName collection)
      (removeMany (config.collectionName collection) keys
        (s.ensureCollection (config.collectionName collection))).2).length =
      (removeMany (config.collectionName collection) keys
        (s.ensureCollection (config.collectionName collection))).2.length :=
    List.length_map ..
  rw [← hcount]
  exact hremoved.bind_run (hrecorded.bind_run .done)

theorem serves_compareAndSwap (key : String) (expected : Option Revision)
    (value : Value) (collection : Option String) (ttl : Option F64)
    (s : MemoryState) :
    Serves config rng now order task false false []
      (Threads.compareAndSwap config key expected value collection ttl) s
      (runAlone config rng now order
        (.compareAndSwap key expected value collection ttl) s) := by
  unfold Threads.compareAndSwap
  refine serves_checked (fun hvalid => ?_) fun error hinvalid => ?_
  · have hstart : start now
        (.compareAndSwap key expected value collection ttl) =
          .setup (.compareAndSwap key expected value collection ttl) := by
      simp only [start]
    refine Serves.whole hstart (fun s => ?_) s
    have hprepare : finish config now order (prepare config rng now order s
        (.compareAndSwap key expected value collection ttl)) =
          andThen (fun stored t => finish config now order (t, .lock
              (.compareAndSwap (config.collectionName collection) key expected
                stored)))
            (Heap.stamp rng now value ttl
              (s.ensureCollection (config.collectionName collection))) := by
      simp only [prepare, Heap.stamp]
      cases ManagedEntry.ofTtl now value ttl with
      | error error => rfl
      | ok entry =>
          simp only
          rcases (s.ensureCollection (config.collectionName collection)).fresh
            rng with ⟨_ | _, _⟩ <;> rfl
    rw [hprepare]
    refine (serves_stamp value ttl _).bind fun stored t hstamped => ?_
    have hcol : (t.collection (config.collectionName collection)).isSome =
        true := by
      have hsame := @collection_stamp rng now
        (s.ensureCollection (config.collectionName collection)) value ttl
        (config.collectionName collection)
      rw [hstamped] at hsame
      rw [hsame]
      simp
    exact (Serves.borrowing hcol
      (serves_performRecorded (unhindered_of_inner rfl))).locked
  · simp only [runAlone, start, hinvalid]
    rfl

theorem serves_compareAndDelete (key : String) (expected : Revision)
    (collection : Option String) (s : MemoryState) :
    Serves config rng now order task false false []
      (Threads.compareAndDelete config key expected collection) s
      (runAlone config rng now order (.compareAndDelete key expected collection)
        s) :=
  Serves.whole rfl (fun s => (Serves.borrowing (by simp)
    (serves_performRecorded (unhindered_of_inner rfl))).locked) s

theorem serves_destroyCollection (name : String) (s : MemoryState) :
    Serves config rng now order task false false []
      (Threads.destroyCollection config name) s
      (runAlone config rng now order (.destroyCollection name) s) := by
  rw [runAlone_eq rfl]
  exact (serves_setup false s).bind fun _ t _ =>
    (serves_performRecorded fun _ _ => by simp).locked

theorem serves_destroy (s : MemoryState) :
    Serves config rng now order task false false [] Threads.destroy s
      (.ok (.flag true), { s.clear with setupComplete := false }) := by
  refine Serves.locked fun lost => ⟨fun _ => true, ?_⟩
  have hclear : Exec (Heap.handle config rng task)
      (fun choice _ _ => choice = order) (send .clear).run
      ⟨s, now, false, true, [], lost⟩ (.ok ())
      ⟨s.clear, now, false, true, [], fun _ => true⟩ :=
    exec_access order rfl rfl
  have hreset : Exec (Heap.handle config rng task)
      (fun choice _ _ => choice = order) (send .resetSetup).run
      ⟨s.clear, now, false, true, [], fun _ => true⟩ (.ok ())
      ⟨{ s.clear with setupComplete := false }, now, false, true, [],
        fun _ => true⟩ := exec_access order rfl rfl
  exact hclear.bind_run (hreset.bind_run .done)

/-! ## Whole calls -/

def ThreadCall.call : ThreadCall → Call
  | .get key collection => .get key collection
  | .ttl key collection => .ttl key collection
  | .getMany batch collection => .getMany batch collection
  | .ttlMany batch collection => .ttlMany batch collection
  | .getWithRevision key collection => .getWithRevision key collection
  | .keys collection limit => .keys collection limit
  | .put key value collection seconds => .put key value collection seconds
  | .putMany batch values collection seconds =>
      .putMany batch values collection seconds
  | .delete key collection => .delete key collection
  | .deleteMany batch collection => .deleteMany batch collection
  | .compareAndSwap key expected value collection seconds =>
      .compareAndSwap key expected value collection seconds
  | .compareAndDelete key expected collection =>
      .compareAndDelete key expected collection
  | .destroyCollection name => .destroyCollection name
  | .destroy => .destroy

def outcome (config : MemoryConfig) (rng : Nat → Option Revision)
    (now : DateTime) (order : Order) (s : MemoryState) :
    ThreadCall → Except Error Response × MemoryState
  | .destroy => (.ok (.flag true), { s.clear with setupComplete := false })
  | call => runAlone config rng now order call.call s

/-- Made access by access or from await to await, a call that nobody
interrupts comes to the same. -/
theorem serves_requests (call : ThreadCall) (s : MemoryState) :
    Serves config rng now order task false false [] (requests config call) s
      (outcome config rng now order s call) := by
  cases call with
  | get => exact serves_get _ _ s
  | ttl => exact serves_ttl _ _ s
  | getMany => exact serves_getMany _ _ s
  | ttlMany => exact serves_ttlMany _ _ s
  | getWithRevision => exact serves_getWithRevision _ _ s
  | keys => exact serves_keys _ _ s
  | put => exact serves_put _ _ _ _ s
  | putMany => exact serves_putMany _ _ _ _ s
  | delete => exact serves_delete _ _ s
  | deleteMany => exact serves_deleteMany _ _ s
  | compareAndSwap => exact serves_compareAndSwap _ _ _ _ _ s
  | compareAndDelete => exact serves_compareAndDelete _ _ _ s
  | destroyCollection => exact serves_destroyCollection _ s
  | destroy => exact serves_destroy s

end Alone

/-! ## From await to await -/

section Stretches

variable {config : MemoryConfig} {rng : Nat → Option Revision}
  {order : Order}

theorem run_proceed (s : System) (task : Nat) (action : Action)
    (pending : List Mutation) (guards : List Guard)
    (result : Except Error Response) :
    ∃ n, run (System.step config rng)
      (s.proceed task action pending guards result)
      (List.replicate n (.resume task order)) =
        some { s with
          state := pending.foldl
            (fun t mutation => t.recordChange s.clock mutation) s.state
          holder := none
          tasks := Function.update s.tasks task (.done result) } := by
  induction pending generalizing s with
  | nil => exact ⟨0, rfl⟩
  | cons mutation pending ih =>
      obtain ⟨n, hrest⟩ := ih { s with
        state := s.state.recordChange s.clock mutation
        holder := some task
        tasks := Function.update s.tasks task
          (.record action (mutation :: pending) guards result) }
      rw [Function.update_idem] at hrest
      refine ⟨n + 1, run_cons_eq_some.mpr ⟨_, ?_, hrest⟩⟩
      simp only [System.step, System.proceed, System.resume,
        Function.update_self]

def Ready : Phase → Prop
  | .done _ | .lock _ => True
  | _ => False

theorem run_ready {s : System} (hfree : s.holder = none) (task : Nat)
    {t : MemoryState} {phase : Phase} (hready : Ready phase) :
    ∃ n, run (System.step config rng)
      { s with state := t, tasks := Function.update s.tasks task phase }
      (List.replicate n (.resume task order)) =
        some { s with
          state := (finish config s.clock order (t, phase)).2
          tasks := Function.update s.tasks task
            (.done (finish config s.clock order (t, phase)).1) } := by
  cases phase with
  | done result => exact ⟨0, rfl⟩
  | lock action =>
      let locked := Memory.perform config s.clock order t action
      obtain ⟨n, hrest⟩ := @run_proceed config rng order
        { s with
          state := locked.state
          tasks := Function.update s.tasks task (.lock action) }
        task action locked.pending locked.guards locked.result
      rw [Function.update_idem] at hrest
      refine ⟨n + 1, run_cons_eq_some.mpr ⟨_, ?_, hrest.trans ?_⟩⟩
      · simp only [System.step, System.resume, Function.update_self, hfree]
        rfl
      · rw [← hfree]
        rfl
  | idle | setup | lockSubscribe | lockDestroy | record | replay | reset =>
      exact hready.elim

theorem ready_prepare (now : DateTime) (call : ThreadCall)
    (h : call ≠ .destroy) (s : MemoryState) :
    Ready (prepare config rng now order s call.call).2 := by
  cases call with
  | destroy => exact absurd rfl h
  | put | putMany | compareAndSwap =>
      simp only [ThreadCall.call, prepare]
      split
      · trivial
      · split <;> trivial
  | _ => trivial

theorem start_ready (now : DateTime) (call : ThreadCall)
    (h : call ≠ .destroy) :
    start now call.call = .setup call.call ∨
      ∃ result, start now call.call = .done result := by
  cases call with
  | destroy => exact absurd rfl h
  | putMany =>
      simp only [ThreadCall.call, start]
      split
      · exact .inr ⟨_, rfl⟩
      · split
        · exact .inr ⟨_, rfl⟩
        · exact .inl rfl
  | compareAndSwap =>
      simp only [ThreadCall.call, start]
      split
      · exact .inr ⟨_, rfl⟩
      · exact .inl rfl
  | _ => exact .inl rfl

/-- The stretches of a call that nobody interrupts, while nobody has the
mutation lock. -/
theorem outcome_by_stretches {s : System} {task : Nat}
    (hidle : s.tasks task = .idle) (hfree : s.holder = none)
    (call : ThreadCall) :
    ∃ n, run (System.step config rng) s
      (.call task call.call :: List.replicate n (.resume task order)) =
        some { s with
          state := (outcome config rng s.clock order s.state call).2
          tasks := Function.update s.tasks task
            (.done (outcome config rng s.clock order s.state call).1) } := by
  have hcall : s.step config rng (.call task call.call) =
      some { s with
        tasks := Function.update s.tasks task (start s.clock call.call) } := by
    simp only [System.step, hidle]
  by_cases hdestroy : call = .destroy
  · subst hdestroy
    refine ⟨2, run_cons_eq_some.mpr ⟨_, hcall, ?_⟩⟩
    simp only [List.replicate, run, System.step, System.resume, ThreadCall.call,
      start, Function.update_self, hfree, Option.bind_some,
      Function.update_idem]
    rfl
  · have houtcome : outcome config rng s.clock order s.state call =
        runAlone config rng s.clock order call.call s.state := by
      cases call with
      | destroy => exact absurd rfl hdestroy
      | _ => rfl
    rw [houtcome]
    rcases start_ready s.clock call hdestroy with hstart | ⟨result, hstart⟩
    · rw [hstart] at hcall
      have henter : System.step config rng { s with
            tasks := Function.update s.tasks task (.setup call.call) }
          (.resume task order) = some { s with
            state := (enter config rng s.clock order s.state call.call).1
            tasks := Function.update s.tasks task
              (enter config rng s.clock order s.state call.call).2 } := by
        simp only [System.step, System.resume, Function.update_self,
          Function.update_idem]
      have hready : Ready
          (enter config rng s.clock order s.state call.call).2 := by
        unfold enter
        split
        · trivial
        · exact ready_prepare _ call hdestroy _
      obtain ⟨n, hrest⟩ := run_ready hfree task hready
      refine ⟨n + 1, run_cons_eq_some.mpr ⟨_, hcall,
        run_cons_eq_some.mpr ⟨_, henter, hrest.trans ?_⟩⟩⟩
      simp only [runAlone, hstart]
    · rw [hstart] at hcall
      refine ⟨0, run_cons_eq_some.mpr ⟨_, hcall, ?_⟩⟩
      simp only [runAlone, hstart, finish]
      rfl

end Stretches

end OpenKeyV.Memory.Threads
