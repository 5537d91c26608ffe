import OpenKeyV.Memory.Tokens

/-!
# Shard locks on one thread

A `DashMap` reference keeps one shard locked until it is dropped.  The
operations that record a change while they still hold the reference to their
collection leave that shard locked across an await; a task that opens a
collection of the same shard meanwhile blocks the whole thread.
-/

namespace OpenKeyV.Memory

open OpenKeyV.Library

/-- The shard of a collection's name, and of a key in its collection. -/
structure Shards where
  outer : String → Nat
  inner : String → String → Nat

/-- A shard lock that a stretch asks for. -/
inductive Request where
  | one (guard : Guard)
  | outerAll (mode : LockMode)
  | innerAll (name : String) (mode : LockMode)
  deriving DecidableEq, Repr

def LockMode.excludes : LockMode → LockMode → Bool
  | .read, .read => false
  | _, _ => true

/-- The request cannot be granted while the guard lives. -/
def Request.conflicts (shards : Shards) : Request → Guard → Bool
  | .one (.outer name mode), .outer name' mode' =>
      decide (shards.outer name = shards.outer name') && mode.excludes mode'
  | .one (.inner name key mode), .inner name' key' mode' =>
      decide (name = name' ∧ shards.inner name key = shards.inner name key') &&
        mode.excludes mode'
  | .outerAll mode, .outer _ mode' => mode.excludes mode'
  | .innerAll name mode, .inner name' _ mode' =>
      decide (name = name') && mode.excludes mode'
  | _, _ => false

/-! ## Requests -/

def capacityRequests (config : MemoryConfig) (name : String) : List Request :=
  match config.maxEntriesPerCollection with
  | none => []
  | some _ => [.innerAll name .write, .innerAll name .read]

section Requests

variable (config : MemoryConfig) (rng : Nat → Option Revision)
  (now : DateTime) (order : Order)

def itemsRequests (name : String) :
    List (Sigma fun _ : String => Value) → MemoryState → List Request
  | [], _ => []
  | ⟨key, value⟩ :: items, s =>
      match s.fresh rng with
      | (.error _, _) => []
      | (.ok revision, s) =>
          .one (.inner name key .write) :: itemsRequests name items
            (s.insertEntry name key ⟨.new now value, revision⟩ .plain)

def seedRequests :
    List (Sigma fun _ : String => KeyedMap String Value) → MemoryState →
      List Request
  | [], _ => []
  | ⟨name, items⟩ :: seed, s =>
      .one (.outer name .write) ::
        (itemsRequests rng now name items.entries (s.ensureCollection name) ++
          match loadItems rng now name items.entries
            (s.ensureCollection name) with
          | (.error _, _) => []
          | (.ok (), s) => capacityRequests config name ++
              seedRequests seed (enforceCapacity config now order name s).1)

def setupRequests (s : MemoryState) : List Request :=
  match config.seed with
  | some seed =>
      if s.setupComplete then []
      else seedRequests config rng now order seed.entries s
  | none => []

def Call.opens : Call → Option String
  | .get _ collection | .ttl _ collection | .put _ _ collection _
  | .delete _ collection | .getMany _ collection | .ttlMany _ collection
  | .putMany _ _ collection _ | .deleteMany _ collection
  | .getWithRevision _ collection | .compareAndSwap _ _ _ collection _
  | .compareAndDelete _ _ collection | .keys collection _ =>
      some (config.collectionName collection)
  | .subscribe _ | .cull | .collections _ | .destroyCollection _ | .destroy =>
      none

def Call.reads (name : String) : Call → List Request
  | .get key _ | .ttl key _ | .getWithRevision key _ =>
      [.one (.outer name .read), .one (.inner name key .read)]
  | .getMany many _ | .ttlMany many _ =>
      .one (.outer name .read) ::
        many.map fun key => .one (.inner name key .read)
  | .keys _ _ => [.one (.outer name .read), .innerAll name .read]
  | _ => []

def Call.requests (call : Call) : List Request :=
  match call with
  | .collections _ => [.outerAll .read]
  | call =>
      match call.opens config with
      | some name => .one (.outer name .write) :: call.reads name
      | none => []

def enterRequests (s : MemoryState) (call : Call) : List Request :=
  setupRequests config rng now order s ++
    match setup config rng now order s with
    | (.error _, _) => []
    | (.ok (), _) => call.requests config

def Action.requests (s : MemoryState) : Action → List Request
  | .put name key _ => .one (.outer name .write) ::
      .one (.inner name key .write) :: capacityRequests config name
  | .putMany name keys _ => .one (.outer name .write) ::
      (keys.map fun key => .one (.inner name key .write)) ++
        capacityRequests config name
  | .delete name key | .compareAndSwap name key _ _
  | .compareAndDelete name key _ =>
      [.one (.outer name .read), .one (.inner name key .write)]
  | .deleteMany name keys => .one (.outer name .read) ::
      keys.map fun key => .one (.inner name key .write)
  | .cull => .outerAll .read ::
      s.collections.keys.map fun name => .innerAll name .write
  | .destroyCollection name => [.one (.outer name .write)]

def System.requests (s : System) : Label → List Request
  | .resume task order =>
      match s.tasks task, s.holder with
      | .setup call, _ => enterRequests config rng s.clock order s.state call
      | .lock action, none => action.requests config s.state
      | .lockDestroy, none => [.outerAll .write]
      | _, _ => []
  | _ => []

end Requests

/-! ## Blocking -/

def Phase.guards : Phase → List Guard
  | .record _ _ guards _ => guards
  | _ => []

/-- The resumed task asks for a shard that a suspended one keeps locked. -/
def Blocked (config : MemoryConfig) (rng : Nat → Option Revision)
    (shards : Shards) (s : System) (label : Label) : Prop :=
  ∃ request ∈ s.requests config rng label,
    ∃ task, some task ≠ label.resumed ∧ ∃ guard ∈ (s.tasks task).guards,
      request.conflicts shards guard = true

def Action.keeps : Action → Option String
  | .delete name _ | .deleteMany name _ | .compareAndSwap name _ _ _
  | .compareAndDelete name _ _ => some name
  | _ => none

def Phase.keeps : Phase → Option String
  | .record action (_ :: _) _ _ => action.keeps
  | _ => none

def Request.opened : Request → Option String
  | .one (.outer name .write) => some name
  | _ => none

/-- No stretch opens a collection in the shard of one that a suspended task
keeps. -/
def OpensApart (config : MemoryConfig) (rng : Nat → Option Revision)
    (shards : Shards) (s : System) (label : Label) : Prop :=
  ∀ task ∈ s.holder, ∀ name' ∈ (s.tasks task).keeps,
    ∀ name ∈ (s.requests config rng label).filterMap Request.opened,
      shards.outer name ≠ shards.outer name'

instance (config : MemoryConfig) (rng : Nat → Option Revision)
    (shards : Shards) (s : System) (label : Label) :
    Decidable (OpensApart config rng shards s label) := by
  unfold OpensApart
  infer_instance

/-! ## What is asked for, and what is kept -/

/-- A request before the mutation lock is for a collection that the same
stretch opens, or a read of all names. -/
def Request.Opens (opened : List String) : Request → Prop
  | .one (.outer name _) | .one (.inner name _ _) | .innerAll name _ =>
      name ∈ opened
  | .outerAll mode => mode = .read

def Covered (requests : List Request) : Prop :=
  ∀ request ∈ requests, request.Opens (requests.filterMap Request.opened)

section Covered

variable {config : MemoryConfig} {rng : Nat → Option Revision}
  {now : DateTime} {order : Order}

theorem Request.Opens.mono {opened opened' : List String} {request : Request}
    (h : request.Opens opened) (hsub : opened ⊆ opened') :
    request.Opens opened' := by
  cases request with
  | one guard => cases guard <;> exact hsub h
  | innerAll name mode => exact hsub h
  | outerAll mode => exact h

theorem Covered.append {requests requests' : List Request}
    (h : Covered requests) (h' : Covered requests') :
    Covered (requests ++ requests') := by
  intro request hrequest
  rw [List.filterMap_append]
  rcases List.mem_append.mp hrequest with hrequest | hrequest
  · exact (h request hrequest).mono (List.subset_append_left _ _)
  · exact (h' request hrequest).mono (List.subset_append_right _ _)

theorem covered_opening {name : String} {requests : List Request}
    (h : ∀ request ∈ requests, request.Opens [name]) :
    Covered (.one (.outer name .write) :: requests) := by
  intro request hrequest
  have hopened : [name] ⊆
      (Request.one (.outer name .write) :: requests).filterMap Request.opened :=
    fun name' hname' => by
      rw [List.mem_singleton.mp hname']
      exact List.mem_filterMap.mpr ⟨_, List.mem_cons_self, rfl⟩
  rcases List.mem_cons.mp hrequest with rfl | hrequest
  · exact hopened (List.mem_singleton_self name)
  · exact (h request hrequest).mono hopened

theorem itemsRequests_opens {name : String} :
    ∀ {items : List (Sigma fun _ : String => Value)} {s : MemoryState},
      ∀ request ∈ itemsRequests rng now name items s, request.Opens [name]
  | [], _, _, h => nomatch h
  | ⟨key, value⟩ :: items, s, request, h => by
      rw [itemsRequests] at h
      split at h
      · cases h
      · rcases List.mem_cons.mp h with rfl | h
        · exact List.mem_singleton_self name
        · exact itemsRequests_opens request h

theorem capacityRequests_opens {name : String} :
    ∀ request ∈ capacityRequests config name, request.Opens [name] := by
  intro request h
  unfold capacityRequests at h
  split at h
  · cases h
  · simp only [List.mem_cons, List.not_mem_nil, or_false] at h
    rcases h with rfl | rfl <;> exact List.mem_singleton_self name

theorem seedRequests_covered :
    ∀ {seed : List (Sigma fun _ : String => KeyedMap String Value)}
      {s : MemoryState}, Covered (seedRequests config rng now order seed s)
  | [], _ => fun _ h => nomatch h
  | ⟨name, items⟩ :: seed, s => by
      rw [seedRequests]
      split
      · rw [List.append_nil]
        exact covered_opening itemsRequests_opens
      · rw [← List.append_assoc, ← List.cons_append]
        refine (covered_opening fun request h => ?_).append seedRequests_covered
        rcases List.mem_append.mp h with h | h
        · exact itemsRequests_opens request h
        · exact capacityRequests_opens request h

theorem call_requests_covered (call : Call) : Covered (call.requests config) := by
  have hreads : ∀ name, ∀ request ∈ call.reads name, request.Opens [name] := by
    intro name request h
    cases call <;> simp only [Call.reads, List.mem_cons, List.mem_map,
      List.not_mem_nil, or_false] at h
    case get | ttl | getWithRevision | keys =>
      rcases h with rfl | rfl <;> exact List.mem_singleton_self name
    case getMany | ttlMany =>
      rcases h with rfl | ⟨key, -, rfl⟩ <;> exact List.mem_singleton_self name
  unfold Call.requests
  split
  · intro request h
    rw [List.mem_singleton.mp h]
    rfl
  · split
    · exact covered_opening (hreads _)
    · exact fun _ h => nomatch h

theorem enterRequests_covered (s : MemoryState) (call : Call) :
    Covered (enterRequests config rng now order s call) := by
  have hnil : Covered [] := fun _ h => nomatch h
  refine Covered.append ?_ ?_
  · unfold setupRequests
    split
    · split
      · exact hnil
      · exact seedRequests_covered
    · exact hnil
  · split
    · exact hnil
    · exact call_requests_covered call

end Covered

def Phase.Guarding : Phase → Prop
  | .record action pending guards _ =>
      (∀ guard ∈ guards, ∃ name, action.keeps = some name ∧
        (guard = .outer name .read ∨ ∃ key, guard = .inner name key .write)) ∧
      (pending ≠ [] → ∀ name, action.keeps = some name →
        .outer name .read ∈ guards)
  | _ => True

theorem guarding_phases (config : MemoryConfig) (rng : Nat → Option Revision) :
    PhaseInvariant config rng (fun _ => True) Phase.Guarding where
  idle := trivial
  done _ := trivial
  start now call _ := by
    cases call <;> simp only [start] <;> (try split) <;> (try split) <;> trivial
  enter now order s call _ := by
    unfold enter
    split
    · trivial
    · cases call <;> simp only [prepare] <;> (try split) <;> (try split) <;>
        trivial
  perform now order s action _ := by
    have hnone : ∀ {action : Action} {pending : List Mutation}
        {result : Except Error Response}, action.keeps = none →
        (Phase.record action pending [] result).Guarding := by
      intro action pending result hkeeps
      exact ⟨(fun _ h => by cases h),
        fun _ name hname => by simp [hkeeps] at hname⟩
    have hidle : ∀ {action : Action} {result : Except Error Response},
        (Phase.record action [] [] result).Guarding :=
      ⟨(fun _ h => by cases h), fun h => absurd rfl h⟩
    have hkeep : ∀ {action : Action} {name : String} {pending : List Mutation}
        {guards : List Guard} {result : Except Error Response},
        action.keeps = some name →
        (∀ guard ∈ guards, ∃ key, guard = .inner name key .write) →
        (Phase.record action pending (.outer name .read :: guards)
          result).Guarding := by
      intro action name pending guards result hkeeps hguards
      refine ⟨fun guard hguard => ⟨name, hkeeps, ?_⟩, fun _ name' hname' => ?_⟩
      · rcases List.mem_cons.mp hguard with rfl | hguard
        · exact .inl rfl
        · exact .inr (hguards guard hguard)
      · rw [hkeeps] at hname'
        cases hname'
        exact List.mem_cons_self
    cases action with
    | put name key stored =>
        simp only [perform, put]
        split <;> exact hnone rfl
    | putMany name keys entries =>
        simp only [perform, putMany]
        split <;> exact hnone rfl
    | cull => exact hnone rfl
    | destroyCollection name =>
        simp only [perform, destroyCollection]
        split <;> exact hnone rfl
    | delete name key =>
        simp only [perform, delete]
        split
        · exact hidle
        · split
          · exact hkeep rfl fun _ h => by cases h
          · exact hidle
    | deleteMany name keys =>
        simp only [perform, deleteMany]
        split
        · exact hidle
        · exact hkeep rfl fun _ h => by cases h
    | compareAndSwap name key expected stored =>
        have hcases := compareAndSwap_cases now s name key expected stored
        simp only [perform]
        generalize compareAndSwap now name s key expected stored = locked
          at hcases ⊢
        cases hcases with
        | missing _ | rejected _ _ | swept _ _ _ => exact hidle
        | created _ _ _ =>
            refine hkeep rfl fun guard hguard => ⟨key, ?_⟩
            split at hguard
            · exact List.mem_singleton.mp hguard
            · cases hguard
        | swapped _ _ _ _ =>
            exact hkeep rfl fun guard hguard =>
              ⟨key, List.mem_singleton.mp hguard⟩
    | compareAndDelete name key expected =>
        have hcases := compareAndDelete_cases now s name key expected
        simp only [perform]
        generalize compareAndDelete now name s key expected = locked at hcases ⊢
        cases hcases with
        | missing _ | rejected _ _ | swept _ _ => exact hidle
        | deleted _ _ _ _ => exact hkeep rfl fun _ h => by cases h
  record action mutation pending guards result h :=
    ⟨h.1, fun _ => h.2 (List.cons_ne_nil _ _)⟩
  replay _ _ := trivial
  reset _ := trivial

/-- Only the holder of the mutation lock keeps references, while it has
changes to record. -/
structure Guarded (s : System) : Prop where
  exclusive : Exclusive s
  guarding : ∀ task, (s.tasks task).Guarding
  recording : ∀ task action guards result,
    s.tasks task ≠ .record action [] guards result

section Guarded

variable {config : MemoryConfig} {rng : Nat → Option Revision}
  {shards : Shards} {s s' : System} {label : Label}

theorem guarded_init (clock : DateTime) : Guarded (.init clock) :=
  ⟨exclusive_init clock, fun _ => trivial, fun _ _ _ _ h => nomatch h⟩

theorem Guarded.step (h : Guarded s)
    (hstep : s.step config rng label = some s') : Guarded s' := by
  refine ⟨h.exclusive.step hstep, (guarding_phases config rng).step h.guarding
    (fun _ _ _ => trivial) hstep, ?_⟩
  have hupdate : ∀ {task : Nat} {phase : Phase},
      (∀ action guards result, phase ≠ .record action [] guards result) →
      ∀ task' action guards result, Function.update s.tasks task phase task' ≠
        .record action [] guards result := by
    intro task phase hphase task' action guards result
    by_cases htask : task' = task
    · rw [htask, Function.update_self]
      exact hphase action guards result
    · rw [Function.update_of_ne htask]
      exact h.recording task' action guards result
  have houtside : ∀ {phase : Phase}, phase.holds = false →
      ∀ action guards result, phase ≠ .record action [] guards result := by
    rintro phase hholds action guards result rfl
    cases hholds
  have hproceed : ∀ {state : MemoryState} {task : Nat} {action : Action}
      {pending : List Mutation} {guards : List Guard}
      {result : Except Error Response} task' action' guards' result',
      (System.proceed { s with state } task action pending guards result).tasks
        task' ≠ .record action' [] guards' result' := by
    intro state task action pending guards result
    cases pending with
    | nil => exact hupdate fun _ _ _ h => nomatch h
    | cons mutation pending => exact hupdate fun _ _ _ h => nomatch h
  cases step_cases hstep with
  | called _ => exact hupdate (houtside (start_holds _ _))
  | entered _ => exact hupdate (houtside (enter_holds ..))
  | performed _ _ _ | recorded _ => exact hproceed
  | subscribing _ _ | cleared _ _ | replayed _ | reset _ | cancelled =>
      exact hupdate fun _ _ _ h => nomatch h
  | advanced _ => exact h.recording

/-- A suspended task that keeps a guard has the mutation lock. -/
theorem Guarded.of_guard (h : Guarded s) {task : Nat} {guard : Guard}
    (hguard : guard ∈ (s.tasks task).guards) :
    s.holder = some task ∧ ∃ name, (s.tasks task).keeps = some name ∧
      (guard = .outer name .read ∨ ∃ key, guard = .inner name key .write) := by
  have hguarding := h.guarding task
  have hholds := (h.exclusive task).mp
  cases hphase : s.tasks task with
  | record action pending guards result =>
      rw [hphase] at hguard hguarding hholds
      refine ⟨hholds rfl, ?_⟩
      cases pending with
      | nil => exact absurd hphase (h.recording task action guards result)
      | cons mutation pending => exact hguarding.1 guard hguard
  | _ =>
      rw [hphase] at hguard
      cases hguard

theorem Guarded.of_keeps (h : Guarded s) {task : Nat} {name : String}
    (hkeeps : (s.tasks task).keeps = some name) :
    .outer name .read ∈ (s.tasks task).guards := by
  have hguarding := h.guarding task
  cases hphase : s.tasks task with
  | record action pending guards result =>
      rw [hphase] at hkeeps hguarding
      cases pending with
      | nil => cases hkeeps
      | cons mutation pending => exact hguarding.2 (List.cons_ne_nil _ _) name hkeeps
  | _ =>
      rw [hphase] at hkeeps
      cases hkeeps

/-- While a task has the mutation lock, only stretches before it ask for
shards, and not for the holder's own. -/
theorem requests_of_held {task : Nat} (h : Guarded s)
    (hholder : s.holder = some task) {request : Request}
    (hrequest : request ∈ s.requests config rng label) :
    label.resumed ≠ some task ∧ Covered (s.requests config rng label) := by
  cases label with
  | resume task' order =>
      cases hphase : s.tasks task' with
      | setup call =>
          have hrequests : s.requests config rng (.resume task' order) =
              enterRequests config rng s.clock order s.state call := by
            simp [System.requests, hphase]
          refine ⟨?_, hrequests ▸ enterRequests_covered s.state call⟩
          rintro ⟨⟩
          have hholds := (h.exclusive task).mpr hholder
          rw [hphase] at hholds
          cases hholds
      | _ => simp [System.requests, hphase, hholder] at hrequest
  | _ => cases hrequest

theorem not_blocked_iff (h : Guarded s) :
    ¬ Blocked config rng shards s label ↔ OpensApart config rng shards s label := by
  constructor
  · intro hfree task hholder name' hkeeps name hname hshard
    obtain ⟨request, hrequest, hopened⟩ := List.mem_filterMap.mp hname
    refine hfree ⟨request, hrequest, task,
      (requests_of_held h hholder hrequest).1.symm, _, h.of_keeps hkeeps, ?_⟩
    unfold Request.opened at hopened
    split at hopened
    · cases hopened
      simp [Request.conflicts, hshard, LockMode.excludes]
    · cases hopened
  · rintro hapart ⟨request, hrequest, task, -, guard, hguard, hconflicts⟩
    obtain ⟨hholder, name', hkeeps, hguard⟩ := h.of_guard hguard
    have hopens := (requests_of_held h hholder hrequest).2 request hrequest
    have hopen := hapart task hholder name' hkeeps
    rcases hguard with rfl | ⟨key, rfl⟩
    · cases request with
      | one guard =>
          cases guard with
          | outer name mode =>
              simp only [Request.conflicts, Bool.and_eq_true,
                decide_eq_true_eq] at hconflicts
              exact hopen name hopens hconflicts.1
          | inner => cases hconflicts
      | outerAll mode =>
          obtain rfl : mode = .read := hopens
          cases hconflicts
      | innerAll => cases hconflicts
    · cases request with
      | one guard =>
          cases guard with
          | outer => cases hconflicts
          | inner name key' mode =>
              simp only [Request.conflicts, Bool.and_eq_true,
                decide_eq_true_eq] at hconflicts
              exact hopen name hopens (congrArg shards.outer hconflicts.1.1)
      | outerAll => cases hconflicts
      | innerAll name mode =>
          simp only [Request.conflicts, Bool.and_eq_true,
            decide_eq_true_eq] at hconflicts
          exact hopen name hopens (congrArg shards.outer hconflicts.1)

/-- Along a run no stretch blocks on a suspended task exactly if none opens a
collection in the shard of one that a `delete`, `delete_many`,
`compare_and_swap` or `compare_and_delete` keeps while it records. -/
theorem never_blocked_iff (config : MemoryConfig)
    (rng : Nat → Option Revision) (shards : Shards) (clock : DateTime)
    (labels : List Label) :
    Along (System.step config rng)
        (fun s label => ¬ Blocked config rng shards s label) (.init clock)
        labels ↔
      Along (System.step config rng) (OpensApart config rng shards)
        (.init clock) labels := by
  have hguarded : Along (System.step config rng) (fun s _ => Guarded s)
      (.init clock) labels :=
    along_of_invariant (fun _ _ _ h _ hstep => h.step hstep) (fun _ _ h _ => h)
      (guarded_init clock) (along_true _ _)
  constructor
  · exact fun hfree => (hguarded.and hfree).mono
      fun s label h => (not_blocked_iff h.1).mp h.2
  · exact fun hapart => (hguarded.and hapart).mono
      fun s label h => (not_blocked_iff h.1).mpr h.2

end Guarded

def oneShard : Shards := ⟨fun _ => 0, fun _ _ => 0⟩

def readDuringDelete : List Label :=
  [.call 0 (.put "k" (.binary [1]) (some "c") none), .resume 0 .stored,
    .resume 0 .stored, .resume 0 .stored,
    .call 0 (.delete "k" (some "c")), .resume 0 .stored, .resume 0 .stored,
    .call 1 (.get "k" (some "c")), .resume 1 .stored]

theorem get_blocks_on_suspended_delete :
    ¬ ∀ labels : List Label, Along (System.step unseeded sampleSource)
      (fun s label => ¬ Blocked unseeded sampleSource oneShard s label)
      (.init .epoch) labels := by
  intro h
  have hguarded : Along (System.step unseeded sampleSource)
      (fun s _ => Guarded s) (.init .epoch) readDuringDelete :=
    along_of_invariant (fun _ _ _ h _ hstep => h.step hstep) (fun _ _ h _ => h)
      (guarded_init .epoch) (along_true _ _)
  have hapart : Along (System.step unseeded sampleSource)
      (OpensApart unseeded sampleSource oneShard) (.init .epoch)
      readDuringDelete :=
    (hguarded.and (h readDuringDelete)).mono
      fun s label h => (not_blocked_iff h.1).mp h.2
  revert hapart
  decide +kernel

end OpenKeyV.Memory
