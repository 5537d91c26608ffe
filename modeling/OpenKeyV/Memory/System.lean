import OpenKeyV.Library.Machine
import OpenKeyV.Memory.Store

/-!
# Tasks on one `MemoryStore`

Any number of tasks call the store.  A task runs from one await to the next:
the lock of the setup flag, the mutation lock, the lock of the change state.
A resumed task runs one such stretch; between two stretches any other task may
run, time may pass, and the call may be dropped.  No lock but the mutation
lock is ever held across an await.
-/

namespace OpenKeyV.Memory

open OpenKeyV.Library

inductive Call where
  | get (key : String) (collection : Option String)
  | ttl (key : String) (collection : Option String)
  | put (key : String) (value : Value) (collection : Option String)
      (ttl : Option F64)
  | delete (key : String) (collection : Option String)
  | getMany (keys : List String) (collection : Option String)
  | ttlMany (keys : List String) (collection : Option String)
  | putMany (keys : List String) (values : List Value)
      (collection : Option String) (ttl : Option F64)
  | deleteMany (keys : List String) (collection : Option String)
  | getWithRevision (key : String) (collection : Option String)
  | compareAndSwap (key : String) (expected : Option Revision) (value : Value)
      (collection : Option String) (ttl : Option F64)
  | compareAndDelete (key : String) (expected : Revision)
      (collection : Option String)
  | subscribe (request : ChangeFeedRequest)
  | cull
  | keys (collection : Option String) (limit : Option Nat)
  | collections (limit : Option Nat)
  | destroyCollection (collection : String)
  | destroy
  deriving DecidableEq, Repr

inductive Action where
  | put (name key : String) (stored : RevisionedEntry)
  | putMany (name : String) (keys : List String)
      (entries : List RevisionedEntry)
  | delete (name key : String)
  | deleteMany (name : String) (keys : List String)
  | compareAndSwap (name key : String) (expected : Option Revision)
      (stored : RevisionedEntry)
  | compareAndDelete (name key : String) (expected : Revision)
  | cull
  | destroyCollection (name : String)
  deriving DecidableEq, Repr

inductive Phase where
  | idle
  | setup (call : Call)
  | lock (action : Action)
  | lockSubscribe (request : ChangeFeedRequest)
  | lockDestroy
  | record (action : Action) (pending : List Mutation) (guards : List Guard)
      (result : Except Error Response)
  | replay (request : ChangeFeedRequest)
  | reset
  | done (result : Except Error Response)

def Phase.holds : Phase → Bool
  | .record .. | .replay _ | .reset => true
  | _ => false

structure System where
  state : MemoryState
  clock : DateTime
  holder : Option Nat
  tasks : Nat → Phase

def System.init (clock : DateTime) : System :=
  ⟨.empty, clock, none, fun _ => .idle⟩

inductive Label where
  | call (task : Nat) (call : Call)
  | resume (task : Nat) (order : Order)
  | advance (clock : DateTime)
  | cancel (task : Nat)

def Label.resumed : Label → Option Nat
  | .resume task _ => some task
  | _ => none

def Label.cancelled : Label → Option Nat
  | .cancel task => some task
  | _ => none

def Phase.locking : Phase → Option Action
  | .lock action => some action
  | _ => none

section Step

variable (config : MemoryConfig) (rng : Nat → Option Revision)
  (now : DateTime) (order : Order)

def start : Call → Phase
  | .putMany keys values collection ttl =>
      if keys.length ≠ values.length then
        .done (.error (.batchSizeMismatch keys.length values.length))
      else
        match ttl.map (ManagedEntry.validateTtl now) with
        | some (.error error) => .done (.error error)
        | _ => .setup (.putMany keys values collection ttl)
  | .compareAndSwap key expected value collection ttl =>
      match ttl.map (ManagedEntry.validateTtl now) with
      | some (.error error) => .done (.error error)
      | _ => .setup (.compareAndSwap key expected value collection ttl)
  | .cull => .lock .cull
  | .subscribe request => .lockSubscribe request
  | .destroy => .lockDestroy
  | call => .setup call

def freshMany : Nat → MemoryState → Except Error (List Revision) × MemoryState
  | 0, s => (.ok [], s)
  | n + 1, s =>
      match s.fresh rng with
      | (.error error, s) => (.error error, s)
      | (.ok revision, s) =>
          match freshMany n s with
          | (.error error, s) => (.error error, s)
          | (.ok revisions, s) => (.ok (revision :: revisions), s)

/-- A call after `setup`, up to its next await. -/
def prepare (s : MemoryState) : Call → MemoryState × Phase
  | .get key collection =>
      let name := config.collectionName collection
      let s := s.ensureCollection name
      (s, .done (Memory.get now name s key))
  | .ttl key collection =>
      let name := config.collectionName collection
      let s := s.ensureCollection name
      (s, .done (Memory.ttl now name s key))
  | .getMany keys collection =>
      let name := config.collectionName collection
      let s := s.ensureCollection name
      (s, .done (Memory.getMany now name s keys))
  | .ttlMany keys collection =>
      let name := config.collectionName collection
      let s := s.ensureCollection name
      (s, .done (Memory.ttlMany now name s keys))
  | .getWithRevision key collection =>
      let name := config.collectionName collection
      let s := s.ensureCollection name
      (s, .done (Memory.getWithRevision now name s key))
  | .keys collection limit =>
      let name := config.collectionName collection
      let s := s.ensureCollection name
      (s, .done (Memory.keys name s order limit))
  | .collections limit => (s, .done (.ok (Memory.collections s order limit)))
  | .put key value collection ttl =>
      let name := config.collectionName collection
      let s := s.ensureCollection name
      match ManagedEntry.ofTtl now value ttl with
      | .error error => (s, .done (.error error))
      | .ok entry =>
          match s.fresh rng with
          | (.error error, s) => (s, .done (.error error))
          | (.ok revision, s) => (s, .lock (.put name key ⟨entry, revision⟩))
  | .putMany keys values collection ttl =>
      let name := config.collectionName collection
      let s := s.ensureCollection name
      match values.mapM fun value => ManagedEntry.ofTtl now value ttl with
      | .error error => (s, .done (.error error))
      | .ok entries =>
          match freshMany rng entries.length s with
          | (.error error, s) => (s, .done (.error error))
          | (.ok revisions, s) =>
              (s, .lock (.putMany name keys
                (entries.zipWith RevisionedEntry.mk revisions)))
  | .delete key collection =>
      let name := config.collectionName collection
      (s.ensureCollection name, .lock (.delete name key))
  | .deleteMany keys collection =>
      let name := config.collectionName collection
      (s.ensureCollection name, .lock (.deleteMany name keys))
  | .compareAndSwap key expected value collection ttl =>
      let name := config.collectionName collection
      let s := s.ensureCollection name
      match ManagedEntry.ofTtl now value ttl with
      | .error error => (s, .done (.error error))
      | .ok entry =>
          match s.fresh rng with
          | (.error error, s) => (s, .done (.error error))
          | (.ok revision, s) =>
              (s, .lock (.compareAndSwap name key expected ⟨entry, revision⟩))
  | .compareAndDelete key expected collection =>
      let name := config.collectionName collection
      (s.ensureCollection name, .lock (.compareAndDelete name key expected))
  | .destroyCollection collection => (s, .lock (.destroyCollection collection))
  -- these three never wait for the setup
  | .cull => (s, .lock .cull)
  | .subscribe request => (s, .lockSubscribe request)
  | .destroy => (s, .lockDestroy)

def enter (s : MemoryState) (call : Call) : MemoryState × Phase :=
  match setup config rng now order s with
  | (.error error, s) => (s, .done (.error error))
  | (.ok (), s) => prepare config rng now order s call

def perform (s : MemoryState) : Action → Locked
  | .put name key stored => Memory.put config now order name s key stored
  | .putMany name keys entries =>
      Memory.putMany config now order name s keys entries
  | .delete name key => Memory.delete name s key
  | .deleteMany name keys => Memory.deleteMany name s keys
  | .compareAndSwap name key expected stored =>
      Memory.compareAndSwap now name s key expected stored
  | .compareAndDelete name key expected =>
      Memory.compareAndDelete now name s key expected
  | .cull => Memory.cull now order s
  | .destroyCollection name => Memory.destroyCollection order name s

def System.proceed (s : System) (task : Nat) (action : Action)
    (pending : List Mutation) (guards : List Guard)
    (result : Except Error Response) : System :=
  match pending with
  | [] =>
      { s with
        holder := none
        tasks := Function.update s.tasks task (.done result) }
  | _ :: _ =>
      { s with
        holder := some task
        tasks := Function.update s.tasks task
          (.record action pending guards result) }

def System.resume (s : System) (task : Nat) : Option System :=
  match s.tasks task with
  | .setup call =>
      let (state, phase) := enter config rng s.clock order s.state call
      some { s with state, tasks := Function.update s.tasks task phase }
  | .lock action =>
      match s.holder with
      | some _ => none
      | none =>
          let locked := perform config s.clock order s.state action
          some (System.proceed { s with state := locked.state } task action
            locked.pending locked.guards locked.result)
  | .lockSubscribe request =>
      match s.holder with
      | some _ => none
      | none => some { s with
          holder := some task
          tasks := Function.update s.tasks task (.replay request) }
  | .lockDestroy =>
      match s.holder with
      | some _ => none
      | none => some { s with
          state := s.state.clear
          holder := some task
          tasks := Function.update s.tasks task .reset }
  | .record action (mutation :: pending) guards result =>
      some (System.proceed
        { s with state := s.state.recordChange s.clock mutation } task action
        pending guards result)
  | .replay request => some { s with
      holder := none
      tasks := Function.update s.tasks task
        (.done ((s.state.changes.subscribe request).map .stream)) }
  | .reset => some { s with
      state := { s.state with setupComplete := false }
      holder := none
      tasks := Function.update s.tasks task (.done (.ok (.flag true))) }
  | .idle | .record _ [] _ _ | .done _ => none

def System.step (s : System) : Label → Option System
  | .call task call =>
      match s.tasks task with
      | .idle | .done _ =>
          some { s with
            tasks := Function.update s.tasks task (start s.clock call) }
      | _ => none
  | .resume task order => s.resume config rng order task
  | .advance clock => if s.clock ≤ clock then some { s with clock } else none
  | .cancel task =>
      some { s with
        holder := if (s.tasks task).holds then none else s.holder
        tasks := Function.update s.tasks task .idle }

end Step

section Prepare

variable (config : MemoryConfig) (rng : Nat → Option Revision)
  (now : DateTime) (order : Order)

@[simp] theorem collection_fresh (s : MemoryState) (name : String) :
    (s.fresh rng).2.collection name = s.collection name := rfl

theorem collection_freshMany :
    ∀ (n : Nat) (s : MemoryState) (name : String),
      (freshMany rng n s).2.collection name = s.collection name
  | 0, _, _ => rfl
  | n + 1, s, name => by
      rw [freshMany]
      split
      · rename_i s' heq
        rw [← collection_fresh rng s, heq]
      · rename_i s' heq
        have hrest := collection_freshMany n s' name
        rw [← collection_fresh rng s, heq]
        split <;> rename_i heq' <;> rw [heq'] at hrest <;> exact hrest

theorem prepare_collection (s : MemoryState) (call : Call) :
    (∀ name, (prepare config rng now order s call).1.collection name =
        s.collection name) ∨
      ∃ created, ∀ name,
        (prepare config rng now order s call).1.collection name =
          (s.ensureCollection created).collection name := by
  cases call with
  | get | ttl | getMany | ttlMany | getWithRevision | keys | delete
  | deleteMany | compareAndDelete => exact .inr ⟨_, fun _ => rfl⟩
  | collections | destroyCollection | cull | subscribe | destroy =>
      exact .inl fun _ => rfl
  | put key value collection ttl | compareAndSwap key _ value collection ttl =>
      refine .inr ⟨config.collectionName collection, fun name => ?_⟩
      simp only [prepare]
      split
      · rfl
      · rw [← collection_fresh rng (s.ensureCollection _)]
        split <;> rename_i heq <;> rw [heq]
  | putMany keys values collection ttl =>
      refine .inr ⟨config.collectionName collection, fun name => ?_⟩
      simp only [prepare]
      split
      · rfl
      · rename_i entries _
        rw [← collection_freshMany rng entries.length (s.ensureCollection _)]
        split <;> rename_i heq <;> rw [heq]

end Prepare

section Proceed

variable (s : System) (task : Nat) (action : Action) (pending : List Mutation)
  (guards : List Guard) (result : Except Error Response)

@[simp] theorem state_proceed :
    (s.proceed task action pending guards result).state = s.state := by
  cases pending <;> rfl

@[simp] theorem clock_proceed :
    (s.proceed task action pending guards result).clock = s.clock := by
  cases pending <;> rfl

end Proceed

/-! ## What a step can do -/

inductive Stepped (config : MemoryConfig) (rng : Nat → Option Revision)
    (s : System) : Label → System → Prop where
  | called {task : Nat} {call : Call}
      (hphase : s.tasks task = .idle ∨ ∃ result, s.tasks task = .done result) :
      Stepped config rng s (.call task call)
        { s with tasks := Function.update s.tasks task (start s.clock call) }
  | entered {task : Nat} {call : Call} {order : Order}
      (hphase : s.tasks task = .setup call) :
      Stepped config rng s (.resume task order)
        { s with
          state := (enter config rng s.clock order s.state call).1
          tasks := Function.update s.tasks task
            (enter config rng s.clock order s.state call).2 }
  | performed {task : Nat} {action : Action} {order : Order} {locked : Locked}
      (hphase : s.tasks task = .lock action) (hfree : s.holder = none)
      (hlocked : locked = perform config s.clock order s.state action) :
      Stepped config rng s (.resume task order)
        (System.proceed { s with state := locked.state } task action
          locked.pending locked.guards locked.result)
  | subscribing {task : Nat} {request : ChangeFeedRequest} {order : Order}
      (hphase : s.tasks task = .lockSubscribe request)
      (hfree : s.holder = none) :
      Stepped config rng s (.resume task order)
        { s with
          holder := some task
          tasks := Function.update s.tasks task (.replay request) }
  | cleared {task : Nat} {order : Order}
      (hphase : s.tasks task = .lockDestroy) (hfree : s.holder = none) :
      Stepped config rng s (.resume task order)
        { s with
          state := s.state.clear
          holder := some task
          tasks := Function.update s.tasks task .reset }
  | recorded {task : Nat} {action : Action} {mutation : Mutation}
      {pending : List Mutation} {guards : List Guard}
      {result : Except Error Response} {order : Order}
      (hphase : s.tasks task =
        .record action (mutation :: pending) guards result) :
      Stepped config rng s (.resume task order)
        (System.proceed
          { s with state := s.state.recordChange s.clock mutation } task action
          pending guards result)
  | replayed {task : Nat} {request : ChangeFeedRequest} {order : Order}
      (hphase : s.tasks task = .replay request) :
      Stepped config rng s (.resume task order)
        { s with
          holder := none
          tasks := Function.update s.tasks task
            (.done ((s.state.changes.subscribe request).map .stream)) }
  | reset {task : Nat} {order : Order} (hphase : s.tasks task = .reset) :
      Stepped config rng s (.resume task order)
        { s with
          state := { s.state with setupComplete := false }
          holder := none
          tasks := Function.update s.tasks task (.done (.ok (.flag true))) }
  | advanced {clock : DateTime} (hle : s.clock ≤ clock) :
      Stepped config rng s (.advance clock) { s with clock }
  | cancelled {task : Nat} :
      Stepped config rng s (.cancel task)
        { s with
          holder := if (s.tasks task).holds then none else s.holder
          tasks := Function.update s.tasks task .idle }

section Stepped

variable {config : MemoryConfig} {rng : Nat → Option Revision}
  {s s' : System}

variable (config rng) in
theorem step_setup {task : Nat} {call : Call} (order : Order)
    (hphase : s.tasks task = .setup call) :
    s.step config rng (.resume task order) = some { s with
      state := (enter config rng s.clock order s.state call).1
      tasks := Function.update s.tasks task
        (enter config rng s.clock order s.state call).2 } := by
  simp [System.step, System.resume, hphase]

variable (config rng) in
theorem step_lock {task : Nat} {action : Action} (order : Order)
    (hphase : s.tasks task = .lock action) (hfree : s.holder = none) :
    s.step config rng (.resume task order) = some
      (System.proceed
        { s with state := (perform config s.clock order s.state action).state }
        task action (perform config s.clock order s.state action).pending
        (perform config s.clock order s.state action).guards
        (perform config s.clock order s.state action).result) := by
  simp [System.step, System.resume, hphase, hfree]

theorem resume_cases {task : Nat} {order : Order}
    (h : s.resume config rng order task = some s') :
    Stepped config rng s (.resume task order) s' := by
  unfold System.resume at h
  cases hphase : s.tasks task with
  | idle | done => simp [hphase] at h
  | setup call =>
      simp only [hphase, Option.some.injEq] at h
      subst h
      exact .entered hphase
  | lock action =>
      cases hfree : s.holder with
      | some holder => simp [hphase, hfree] at h
      | none =>
          simp only [hphase, hfree, Option.some.injEq] at h
          subst h
          rw [← hfree]
          exact .performed hphase hfree rfl
  | lockSubscribe request =>
      cases hfree : s.holder with
      | some holder => simp [hphase, hfree] at h
      | none =>
          simp only [hphase, hfree, Option.some.injEq] at h
          subst h
          exact .subscribing hphase hfree
  | lockDestroy =>
      cases hfree : s.holder with
      | some holder => simp [hphase, hfree] at h
      | none =>
          simp only [hphase, hfree, Option.some.injEq] at h
          subst h
          exact .cleared hphase hfree
  | record action pending guards result =>
      cases pending with
      | nil => simp [hphase] at h
      | cons mutation pending =>
          simp only [hphase, Option.some.injEq] at h
          subst h
          exact .recorded hphase
  | replay request =>
      simp only [hphase, Option.some.injEq] at h
      subst h
      exact .replayed hphase
  | reset =>
      simp only [hphase, Option.some.injEq] at h
      subst h
      exact .reset hphase

theorem step_cases {label : Label} (h : s.step config rng label = some s') :
    Stepped config rng s label s' := by
  cases label with
  | call task call =>
      simp only [System.step] at h
      split at h
      · cases h
        exact .called (.inl (by assumption))
      · cases h
        exact .called (.inr ⟨_, by assumption⟩)
      · cases h
  | resume task order => exact resume_cases h
  | advance clock =>
      simp only [System.step] at h
      split at h
      · cases h
        exact .advanced (by assumption)
      · cases h
  | cancel task =>
      cases h
      exact .cancelled

/-! ## Mutual exclusion -/

/-- The holder of the mutation lock is the one task past it. -/
def Exclusive (s : System) : Prop :=
  ∀ task, (s.tasks task).holds = true ↔ s.holder = some task

theorem exclusive_init (clock : DateTime) : Exclusive (.init clock) := by
  intro task
  simp [System.init, Phase.holds]

theorem Exclusive.update (h : Exclusive s) {task : Nat} {phase : Phase}
    {holder : Option Nat}
    (hown : s.holder = none ∨ s.holder = some task)
    (hholder : holder = if phase.holds then some task else none) :
    ∀ task', (Function.update s.tasks task phase task').holds = true ↔
      holder = some task' := by
  intro task'
  by_cases htask : task' = task
  · subst htask
    rw [Function.update_self, hholder]
    cases phase.holds <;> simp
  · rw [Function.update_of_ne htask, h task', hholder]
    rcases hown with hown | hown <;> rw [hown] <;>
      cases phase.holds <;> simp [Ne.symm htask]

theorem Exclusive.update_outside (h : Exclusive s) {task : Nat}
    {phase : Phase} (hbefore : (s.tasks task).holds = false)
    (hafter : phase.holds = false) :
    ∀ task', (Function.update s.tasks task phase task').holds = true ↔
      s.holder = some task' := by
  intro task'
  by_cases htask : task' = task
  · subst htask
    rw [Function.update_self, ← h task', hbefore, hafter]
  · rw [Function.update_of_ne htask, h task']

theorem start_holds (now : DateTime) (call : Call) :
    (start now call).holds = false := by
  cases call <;> simp only [start] <;> (try split) <;> (try split) <;> rfl

theorem prepare_holds (config : MemoryConfig) (rng : Nat → Option Revision)
    (now : DateTime) (order : Order) (s : MemoryState) (call : Call) :
    (prepare config rng now order s call).2.holds = false := by
  cases call <;> simp only [prepare] <;> (try split) <;> (try split) <;> rfl

theorem enter_holds (config : MemoryConfig) (rng : Nat → Option Revision)
    (now : DateTime) (order : Order) (s : MemoryState) (call : Call) :
    (enter config rng now order s call).2.holds = false := by
  unfold enter
  split
  · rfl
  · exact prepare_holds ..

theorem Exclusive.proceed (h : Exclusive s) {task : Nat}
    (hown : s.holder = none ∨ s.holder = some task) (state : MemoryState)
    (action : Action) (pending : List Mutation) (guards : List Guard)
    (result : Except Error Response) :
    Exclusive (System.proceed { s with state } task action pending guards
      result) := by
  cases pending with
  | nil => exact h.update hown rfl
  | cons mutation pending => exact h.update hown rfl

theorem Exclusive.step {label : Label} (h : Exclusive s)
    (hstep : s.step config rng label = some s') : Exclusive s' := by
  have hholds : ∀ task phase, s.tasks task = phase → phase.holds = true →
      s.holder = some task := fun task phase hphase hholds =>
    (h task).mp (hphase ▸ hholds)
  cases step_cases hstep with
  | called hphase =>
      refine h.update_outside ?_ (start_holds _ _)
      rcases hphase with hphase | ⟨result, hphase⟩ <;> rw [hphase] <;> rfl
  | entered hphase =>
      exact h.update_outside (by rw [hphase]; rfl) (enter_holds ..)
  | performed _ hfree _ => exact h.proceed (.inl hfree) _ _ _ _ _
  | subscribing _ hfree => exact h.update (.inl hfree) rfl
  | cleared _ hfree => exact h.update (.inl hfree) rfl
  | recorded hphase => exact h.proceed (.inr (hholds _ _ hphase rfl)) _ _ _ _ _
  | replayed hphase => exact h.update (.inr (hholds _ _ hphase rfl)) rfl
  | reset hphase => exact h.update (.inr (hholds _ _ hphase rfl)) rfl
  | advanced _ => exact h
  | @cancelled task =>
      cases hphase : (s.tasks task).holds with
      | true => exact h.update (.inr ((h task).mp hphase)) (by simp [Phase.holds])
      | false => exact h.update_outside hphase rfl

end Stepped

/-! ## Invariants of the phases -/

/-- A property of single phases that every stretch of a task keeps, as long
as only `calls` are made. -/
structure PhaseInvariant (config : MemoryConfig)
    (rng : Nat → Option Revision) (calls : Call → Prop) (P : Phase → Prop) :
    Prop where
  idle : P .idle
  done : ∀ result, P (.done result)
  start : ∀ now call, calls call → P (start now call)
  enter : ∀ now order s call, P (.setup call) →
    P (enter config rng now order s call).2
  perform : ∀ now order s action, P (.lock action) →
    P (.record action (perform config now order s action).pending
      (perform config now order s action).guards
      (perform config now order s action).result)
  record : ∀ action mutation pending guards result,
    P (.record action (mutation :: pending) guards result) →
      P (.record action pending guards result)
  replay : ∀ request, P (.lockSubscribe request) → P (.replay request)
  reset : P .lockDestroy → P .reset

section PhaseInvariant

variable {config : MemoryConfig} {rng : Nat → Option Revision}
  {calls : Call → Prop} {P : Phase → Prop} {s s' : System}

private theorem forall_update (hs : ∀ task, P (s.tasks task)) {task : Nat}
    {phase : Phase} (hphase : P phase) :
    ∀ task', P (Function.update s.tasks task phase task') := by
  intro task'
  by_cases htask : task' = task
  · rw [htask, Function.update_self]
    exact hphase
  · rw [Function.update_of_ne htask]
    exact hs task'

private theorem forall_proceed (hs : ∀ task, P (s.tasks task))
    (hdone : ∀ result, P (.done result)) {state : MemoryState} {task : Nat}
    {action : Action}
    {pending : List Mutation} {guards : List Guard}
    {result : Except Error Response}
    (hphase : P (.record action pending guards result)) :
    ∀ task', P ((System.proceed { s with state } task action pending guards
      result).tasks task') := by
  cases pending with
  | nil => exact forall_update hs (hdone result)
  | cons mutation pending => exact forall_update hs hphase

theorem PhaseInvariant.step (h : PhaseInvariant config rng calls P)
    {label : Label} (hs : ∀ task, P (s.tasks task))
    (hcalls : ∀ task call, label = .call task call → calls call)
    (hstep : s.step config rng label = some s') :
    ∀ task, P (s'.tasks task) := by
  cases step_cases hstep with
  | called _ => exact forall_update hs (h.start _ _ (hcalls _ _ rfl))
  | @entered task call order hphase =>
      exact forall_update hs (h.enter _ _ _ _ (hphase ▸ hs task))
  | @performed task action order locked hphase _ hlocked =>
      subst hlocked
      exact forall_proceed hs h.done
        (h.perform _ _ _ _ (hphase ▸ hs task))
  | @subscribing task request _ hphase _ =>
      exact forall_update hs (h.replay _ (hphase ▸ hs task))
  | @cleared task _ hphase _ =>
      exact forall_update hs (h.reset (hphase ▸ hs task))
  | @recorded task _ _ _ _ _ _ hphase =>
      exact forall_proceed hs h.done
        (h.record _ _ _ _ _ (hphase ▸ hs task))
  | replayed _ => exact forall_update hs (h.done _)
  | reset _ => exact forall_update hs (h.done _)
  | advanced _ => exact hs
  | cancelled => exact forall_update hs h.idle

end PhaseInvariant

end OpenKeyV.Memory
