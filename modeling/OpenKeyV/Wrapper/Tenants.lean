import OpenKeyV.Library.Machine
import OpenKeyV.Memory.Regions

/-!
# Tenants of one store

Any number of wrappers share a `MemoryStore`.  Each renames what its calls are
about, and so has cells of its own.  The tasks of one tenant, with the others
left out, are a run on a store of its own.
-/

namespace OpenKeyV.Wrapper

open Library Memory

/-- What a wrapper makes of its calls, and of the answers to them. -/
structure Renaming where
  inner : Memory.Call → Memory.Call
  answer : Memory.Call → Except Error Response → Except Error Response

def Passed : Memory.Call → Bool
  | .subscribe _ | .cull | .destroyCollection _ | .destroy => false
  | _ => true

structure Shared where
  system : System
  /-- The call that each task has made last. -/
  issued : Nat → Option Memory.Call
  reached : List (String × String)

def Shared.init (clock : DateTime) : Shared :=
  ⟨.init clock, fun _ => none, []⟩

/-- A label of the store, with what chance decides in the stretch. -/
inductive Turn where
  | call (task : Nat) (call : Memory.Call)
  | resume (task : Nat) (order : Order) (rng : Nat → Option Revision)
  | advance (clock : DateTime)
  | cancel (task : Nat)

namespace Turn

def task? : Turn → Option Nat
  | .call task _ | .resume task _ _ | .cancel task => some task
  | .advance _ => none

inductive Alike : Turn → Turn → Prop where
  | call (task : Nat) (call : Memory.Call) :
      Alike (.call task call) (.call task call)
  | resume (task : Nat) (order order' : Order)
      (rng rng' : Nat → Option Revision) :
      Alike (.resume task order rng) (.resume task order' rng')
  | advance (clock : DateTime) : Alike (.advance clock) (.advance clock)
  | cancel (task : Nat) : Alike (.cancel task) (.cancel task)

end Turn

/-- Which tenant a task is of, and what the wrapper of each tenant is. -/
structure Tenancy where
  config : MemoryConfig
  owner : Nat → String
  wrapper : String → Renaming

namespace Tenancy

variable (w : Tenancy)

def reaches (t : Shared) (task : Nat) : List (String × String) :=
  match t.system.tasks task with
  | .setup call =>
      if call.onEntries then
        [(w.owner task, w.config.collectionName call.collection?)]
      else []
  | _ => []

def step (t : Shared) : Turn → Option Shared
  | .call task call =>
      if Passed call then
        (t.system.step w.config (fun _ => none)
          (.call task ((w.wrapper (w.owner task)).inner call))).map
            fun system => { t with
              system
              issued := Function.update t.issued task (some call) }
      else none
  | .resume task order rng =>
      (t.system.step w.config rng (.resume task order)).map
        fun system => { t with
          system
          reached := w.reaches t task ++ t.reached }
  | .advance clock =>
      (t.system.step w.config (fun _ => none) (.advance clock)).map
        fun system => { t with system }
  | .cancel task =>
      (t.system.step w.config (fun _ => none) (.cancel task)).map
        fun system => { t with system }

/-- A put that the turn carries out evicts nothing. -/
def Spacious (t : Shared) : Turn → Prop
  | .resume task _ _ => ∀ action, t.system.tasks task = .lock action →
      action.Spacious w.config t.system.clock t.system.state.cells
  | _ => True

def answer (t : Shared) (task : Nat) : Option (Except Error Response) :=
  match t.issued task, t.system.tasks task with
  | some call, .done result =>
      some ((w.wrapper (w.owner task)).answer call result)
  | _, _ => none

def mine (tenant : String) (turn : Turn) : Bool :=
  turn.task?.all fun task => w.owner task = tenant

/-- Some run of the tenant's turns alone gives its tasks the answers that they
have in `t`. -/
def AloneToo (clock : DateTime) (turns : List Turn) (t : Shared)
    (tenant : String) : Prop :=
  ∃ turns' t', List.Forall₂ Turn.Alike (turns.filter (w.mine tenant)) turns' ∧
    run w.step (.init clock) turns' = some t' ∧
    ∀ task, w.owner task = tenant → w.answer t' task = w.answer t task

/-! ## Steps -/

section Steps

variable {w : Tenancy} {t : Shared} {task : Nat}

theorem step_called {call : Memory.Call} (hpassed : Passed call = true)
    (hphase : t.system.tasks task = .idle ∨
      ∃ result, t.system.tasks task = .done result) :
    w.step t (.call task call) = some
      ⟨{ t.system with
          tasks := Function.update t.system.tasks task
            (start t.system.clock ((w.wrapper (w.owner task)).inner call)) },
        Function.update t.issued task (some call), t.reached⟩ := by
  rcases hphase with hidle | ⟨result, hdone⟩
  · simp [Tenancy.step, System.step, hpassed, hidle]
  · simp [Tenancy.step, System.step, hpassed, hdone]

theorem step_entered {call : Memory.Call} (order : Order)
    (rng : Nat → Option Revision)
    (hphase : t.system.tasks task = .setup call) :
    w.step t (.resume task order rng) = some
      ⟨{ t.system with
          state := (enter w.config rng t.system.clock order t.system.state
            call).1
          tasks := Function.update t.system.tasks task
            (enter w.config rng t.system.clock order t.system.state call).2 },
        t.issued, w.reaches t task ++ t.reached⟩ := by
  rw [Tenancy.step, step_setup w.config rng order hphase]
  rfl

theorem step_performed {action : Action} (order : Order)
    (rng : Nat → Option Revision) (hphase : t.system.tasks task = .lock action)
    (hfree : t.system.holder = none) :
    let locked :=
      perform w.config t.system.clock order t.system.state action
    w.step t (.resume task order rng) = some
      ⟨System.proceed { t.system with state := locked.state } task action
        locked.pending locked.guards locked.result, t.issued,
        w.reaches t task ++ t.reached⟩ := by
  rw [Tenancy.step, step_lock w.config rng order hphase hfree]
  rfl

theorem step_recorded {action : Action} {mutation : Mutation}
    {pending : List Mutation} {guards : List Guard}
    {result : Except Error Response} (order : Order)
    (rng : Nat → Option Revision)
    (hphase : t.system.tasks task =
      .record action (mutation :: pending) guards result) :
    w.step t (.resume task order rng) = some
      ⟨System.proceed { t.system with
          state := t.system.state.recordChange t.system.clock mutation } task
        action pending guards result, t.issued,
        w.reaches t task ++ t.reached⟩ := by
  simp [Tenancy.step, System.step, System.resume, hphase]

end Steps

/-! ## What a run keeps -/

/-- The cells of the tenants are apart, and each tenant's calls are about its
own. -/
structure Separated (w : Tenancy) (owns : String → Cell → Prop) : Prop where
  unseeded : w.config.seed = none
  passed : ∀ tenant call, Passed call = true →
    Passed ((w.wrapper tenant).inner call) = true
  own : ∀ tenant call, Passed call = true →
    ∀ key ∈ ((w.wrapper tenant).inner call).named,
      owns tenant (w.config.collectionName
        ((w.wrapper tenant).inner call).collection?, key)
  apart : ∀ task task' cell, w.owner task ≠ w.owner task' →
    owns (w.owner task) cell → ¬ owns (w.owner task') cell

def Expected (w : Tenancy) (owns : String → Cell → Prop) (t : Shared)
    (task : Nat) : Phase → Prop
  | .idle | .done _ | .record .. => True
  | .setup call => ∃ outer, t.issued task = some outer ∧
      Passed outer = true ∧ call = (w.wrapper (w.owner task)).inner outer
  | .lock action => action.onEntries = true ∧
      (∀ key ∈ action.named, owns (w.owner task) (action.collection, key)) ∧
      (w.owner task, action.collection) ∈ t.reached
  | _ => False

def Named (w : Tenancy) (tenant name : String) : Prop :=
  ∃ task outer, w.owner task = tenant ∧ Passed outer = true ∧
    ((w.wrapper tenant).inner outer).onEntries = true ∧
    name = w.config.collectionName
      ((w.wrapper tenant).inner outer).collection?

structure Sound (w : Tenancy) (owns : String → Cell → Prop) (t : Shared) :
    Prop where
  exclusive : Exclusive t.system
  named : ∀ name, (t.system.state.collection name).isSome = true ↔
    ∃ tenant, (tenant, name) ∈ t.reached
  origin : ∀ tenant name, (tenant, name) ∈ t.reached → w.Named tenant name
  phases : ∀ task, w.Expected owns t task (t.system.tasks task)

section Sound

variable {w : Tenancy} {owns : String → Cell → Prop} {t t' : Shared}

theorem sound_init (clock : DateTime) : w.Sound owns (.init clock) := by
  refine ⟨exclusive_init clock, fun name => ?_, fun _ _ hmem => ?_,
    fun task => trivial⟩
  · simp [Shared.init, System.init, MemoryState.empty, MemoryState.collection]
  · cases hmem

theorem passed_cases {call : Memory.Call} (h : Passed call = true) :
    call.onEntries = true ∨ ∃ limit, call = .collections limit := by
  cases call <;> first | exact .inl rfl | exact .inr ⟨_, rfl⟩ | cases h

theorem Expected.mono {task : Nat} {phase : Phase}
    (h : w.Expected owns t task phase)
    (hissued : t'.issued task = t.issued task)
    (hreached : t.reached ⊆ t'.reached) : w.Expected owns t' task phase := by
  cases phase with
  | setup call =>
      obtain ⟨outer, houter, hrest⟩ := h
      exact ⟨outer, hissued.trans houter, hrest⟩
  | lock action => exact ⟨h.1, h.2.1, hreached h.2.2⟩
  | idle | done | record => trivial
  | lockSubscribe | lockDestroy | replay | reset => cases h

theorem expected_start (now : DateTime) {task : Nat} {outer : Memory.Call}
    (hissued : t.issued task = some outer) (hpassed : Passed outer = true)
    (hinner : Passed ((w.wrapper (w.owner task)).inner outer) = true) :
    w.Expected owns t task
      (start now ((w.wrapper (w.owner task)).inner outer)) := by
  have hsetup : ∀ phase, phase = .setup
      ((w.wrapper (w.owner task)).inner outer) →
      w.Expected owns t task phase := by
    rintro _ rfl
    exact ⟨outer, hissued, hpassed, rfl⟩
  rcases passed_cases hinner with hentries | ⟨limit, hlimit⟩
  · rcases start_entries now hentries with hstart | ⟨error, hstart⟩
    · exact hsetup _ hstart
    · rw [hstart]
      trivial
  · refine hsetup _ ?_
    rw [hlimit]
    rfl

theorem enter_unseeded (hseed : w.config.seed = none)
    (rng : Nat → Option Revision) (now : DateTime) (order : Order)
    (s : MemoryState) (call : Memory.Call) :
    enter w.config rng now order s call =
      prepare w.config rng now order { s with setupComplete := true } call := by
  rw [enter, setup_unseeded rng now order hseed]

theorem named_enter (hseed : w.config.seed = none)
    (rng : Nat → Option Revision) (now : DateTime) (order : Order)
    (s : MemoryState) {call : Memory.Call} (hpassed : Passed call = true)
    (name : String) :
    ((enter w.config rng now order s call).1.collection name).isSome = true ↔
      (call.onEntries = true ∧
          name = w.config.collectionName call.collection?) ∨
        (s.collection name).isSome = true := by
  rw [enter_unseeded hseed]
  rcases passed_cases hpassed with hentries | ⟨limit, rfl⟩
  · rw [MemoryState.collection, prepare_collections _ _ _ _ _ hentries,
      ← MemoryState.collection, MemoryState.collection_ensureCollection]
    split
    · rename_i hname
      simp [hentries, hname]
    · rename_i hname
      refine ⟨.inr, fun hnamed => hnamed.resolve_left ?_⟩
      rintro ⟨-, rfl⟩
      exact hname rfl
  · exact ⟨.inr, fun hnamed => hnamed.resolve_left fun h => by cases h.1⟩

theorem cells_enter (hseed : w.config.seed = none)
    (rng : Nat → Option Revision) (now : DateTime) (order : Order)
    (s : MemoryState) {call : Memory.Call} (hpassed : Passed call = true) :
    (enter w.config rng now order s call).1.cells = s.cells := by
  rw [enter_unseeded hseed]
  rcases passed_cases hpassed with hentries | ⟨limit, rfl⟩
  · rw [cells_congr (prepare_collections _ _ _ _ _ hentries)]
    exact cells_ensureCollection { s with setupComplete := true } _
  · rfl

theorem expected_proceed {s : System} {task : Nat} {action : Action}
    {pending : List Mutation} {guards : List Guard}
    {result : Except Error Response} (u : Shared)
    (h : ∀ other, w.Expected owns u other (s.tasks other)) (other : Nat) :
    w.Expected owns u other
      ((s.proceed task action pending guards result).tasks other) := by
  cases pending with
  | nil =>
      simp only [System.proceed, Function.update_apply]
      split
      · trivial
      · exact h other
  | cons mutation pending =>
      simp only [System.proceed, Function.update_apply]
      split
      · trivial
      · exact h other

theorem reaches_setup {task : Nat} {call : Memory.Call}
    (hphase : t.system.tasks task = .setup call) :
    w.reaches t task =
      if call.onEntries then
        [(w.owner task, w.config.collectionName call.collection?)]
      else [] := by
  rw [reaches, hphase]

theorem reaches_other {task : Nat}
    (hphase : ∀ call, t.system.tasks task ≠ .setup call) :
    w.reaches t task = [] := by
  rw [reaches]
  split
  · rename_i call heq
    exact absurd heq (hphase call)
  · rfl

theorem named_of_reaches {task : Nat}
    (h : w.Expected owns t task (t.system.tasks task)) {tenant name : String}
    (hmem : (tenant, name) ∈ w.reaches t task) : w.Named tenant name := by
  rw [reaches] at hmem
  split at hmem
  · rename_i call hphase
    rw [hphase] at h
    obtain ⟨outer, -, houter, rfl⟩ := h
    split at hmem
    · rename_i hentries
      cases List.mem_singleton.mp hmem
      exact ⟨task, outer, rfl, houter, hentries, rfl⟩
    · cases hmem
  · cases hmem

theorem expected_enter (hseed : w.config.seed = none)
    {rng : Nat → Option Revision} {order : Order} {task : Nat}
    {call : Memory.Call}
    {system : System} (hpassed : Passed call = true)
    (hown : ∀ key ∈ call.named,
      owns (w.owner task) (w.config.collectionName call.collection?, key))
    (hphase : t.system.tasks task = .setup call) :
    w.Expected owns ⟨system, t.issued, w.reaches t task ++ t.reached⟩ task
      (enter w.config rng t.system.clock order t.system.state call).2 := by
  rw [enter_unseeded hseed]
  rcases passed_cases hpassed with hentries | ⟨limit, rfl⟩
  · rcases prepare_locks w.config rng t.system.clock order
      { t.system.state with setupComplete := true } hentries with
      ⟨result, hdone⟩ | ⟨action, hlock, honEntries, hcollection, hnamed⟩
    · rw [hdone]
      trivial
    · rw [hlock]
      refine ⟨honEntries, ?_, ?_⟩
      · rw [hnamed, hcollection]
        exact hown
      · rw [reaches_setup hphase, if_pos hentries, hcollection]
        exact List.mem_cons_self ..
  · trivial

theorem Sound.step (hsep : w.Separated owns) (h : w.Sound owns t)
    {turn : Turn} (hroom : w.Spacious t turn)
    (hstep : w.step t turn = some t') : w.Sound owns t' := by
  cases turn with
  | call task call =>
      rw [Tenancy.step] at hstep
      split at hstep
      · rename_i hpassed
        obtain ⟨system, hsystem, rfl⟩ := Option.map_eq_some_iff.mp hstep
        refine ⟨h.exclusive.step hsystem, ?_, h.origin, fun other => ?_⟩
        · cases step_cases hsystem with
          | called => exact h.named
        · cases step_cases hsystem with
          | called hphase =>
              by_cases hother : other = task
              · subst hother
                simp only [Function.update_self]
                exact expected_start _ (Function.update_self ..) hpassed
                  (hsep.passed _ _ hpassed)
              · simp only [Function.update_of_ne hother]
                exact (h.phases other).mono (Function.update_of_ne hother ..)
                  fun _ hmem => hmem
      · cases hstep
  | advance clock =>
      obtain ⟨system, hsystem, rfl⟩ := Option.map_eq_some_iff.mp hstep
      cases step_cases hsystem with
      | advanced => exact ⟨h.exclusive, h.named, h.origin, h.phases⟩
  | cancel task =>
      rw [Tenancy.step, Option.map_eq_some_iff] at hstep
      obtain ⟨system, hsystem, rfl⟩ := hstep
      refine ⟨h.exclusive.step hsystem, ?_, h.origin, fun other => ?_⟩
      · cases step_cases hsystem with
        | cancelled => exact h.named
      · cases step_cases hsystem with
        | cancelled =>
            by_cases hother : other = task
            · simp only [hother, Function.update_self]
              trivial
            · simp only [Function.update_of_ne hother]
              exact (h.phases other).mono rfl fun _ hmem => hmem
  | resume task order rng =>
      obtain ⟨system, hsystem, rfl⟩ := Option.map_eq_some_iff.mp hstep
      have hexclusive := h.exclusive.step hsystem
      have hexpected := h.phases task
      have horigin : ∀ tenant name,
          (tenant, name) ∈ w.reaches t task ++ t.reached →
            w.Named tenant name := fun tenant name hmem =>
        (List.mem_append.mp hmem).elim (named_of_reaches hexpected)
          (h.origin tenant name)
      have hkept : ∀ other, w.Expected owns
          { system, issued := t.issued,
            reached := w.reaches t task ++ t.reached } other
          (t.system.tasks other) := fun other =>
        (h.phases other).mono rfl fun _ hmem => List.mem_append_right _ hmem
      cases step_cases hsystem with
      | @entered _ call _ hphase =>
          rw [hphase] at hexpected
          obtain ⟨outer, hissued, hpassed, rfl⟩ := hexpected
          have hinner := hsep.passed (w.owner task) outer hpassed
          refine ⟨hexclusive, fun name => ?_, horigin, fun other => ?_⟩
          · rw [named_enter hsep.unseeded _ _ _ _ hinner, h.named,
              reaches_setup hphase]
            simp only [List.mem_append, exists_or]
            refine or_congr_left ?_
            split
            · rename_i hentries
              simp [hentries]
            · rename_i hentries
              simp [hentries]
          · simp only [Function.update_apply]
            split
            · rename_i hother
              rw [hother]
              exact expected_enter hsep.unseeded hinner
                (hsep.own _ _ hpassed) hphase
            · exact hkept other
      | performed hphase hfree hlocked =>
          rw [hphase] at hexpected
          refine ⟨hexclusive, fun name => ?_, horigin, expected_proceed _ hkept⟩
          have hstays := stays_perform (T := fun _ => True) order
            (hroom _ hphase) hexpected.1 fun _ _ => trivial
          rw [state_proceed, hlocked, hstays.names, h.named,
            reaches_other (by simp [hphase]), List.nil_append]
      | recorded hphase =>
          refine ⟨hexclusive, fun name => ?_, horigin, expected_proceed _ hkept⟩
          rw [state_proceed, reaches_other (by simp [hphase]),
            List.nil_append]
          exact h.named name
      | subscribing hphase | cleared hphase | replayed hphase
      | reset hphase =>
          rw [hphase] at hexpected
          cases hexpected

end Sound

/-! ## A tenant alone -/

/-- The same phase, or answers that the wrapper makes the same of. -/
def PhaseAlike (w : Tenancy) (t : Shared) (task : Nat) (phase phase' : Phase) :
    Prop :=
  phase = phase' ∨ ∃ result result' outer, phase = .done result ∧
    phase' = .done result' ∧ t.issued task = some outer ∧
    (w.wrapper (w.owner task)).answer outer result =
      (w.wrapper (w.owner task)).answer outer result'

/-- `u` is what the tenant's tasks would have made of a store of their own. -/
structure Alone (w : Tenancy) (owns : String → Cell → Prop) (tenant : String)
    (t u : Shared) : Prop where
  clock : u.system.clock = t.system.clock
  holder : u.system.holder =
    t.system.holder.filter fun task => w.owner task = tenant
  issued : ∀ task, w.owner task = tenant → u.issued task = t.issued task
  own : ∀ task, w.owner task = tenant →
    w.PhaseAlike t task (t.system.tasks task) (u.system.tasks task)
  others : ∀ task, w.owner task ≠ tenant → u.system.tasks task = .idle
  agree : Agree (owns tenant) t.system.state u.system.state
  nothing : ∀ cell, ¬ owns tenant cell → u.system.state.cells cell = none
  named : ∀ name, (u.system.state.collection name).isSome = true ↔
    (tenant, name) ∈ t.reached

def enumerated (config : MemoryConfig) (order : Order) (s : MemoryState) :
    Memory.Call → Except Error Response
  | .keys collection limit =>
      let name := config.collectionName collection
      .ok (.names ((order.keys name (keysOf s name)).take (pageLen limit)))
  | .collections limit =>
      .ok (.names ((order.keys "" s.collections.keys).take (pageLen limit)))
  -- No enumeration.
  | _ => .error (.invalidOperation "not an enumeration")

def Enumerates : Memory.Call → Bool
  | .keys .. | .collections .. => true
  | _ => false

/-- Under the condition a tenant sees in an enumeration what it would see of
its own store, in some order. -/
def Matched (w : Tenancy) (owns : String → Cell → Prop)
    (cond : Shared → Turn → Prop) : Prop :=
  ∀ t u task outer order rng, w.Sound owns t →
    w.Alone owns (w.owner task) t u → t.issued task = some outer →
    let inner := (w.wrapper (w.owner task)).inner outer
    t.system.tasks task = .setup inner → Enumerates inner = true →
    cond t (.resume task order rng) →
    ∃ order',
      (w.wrapper (w.owner task)).answer outer
          (enumerated w.config order t.system.state inner) =
        (w.wrapper (w.owner task)).answer outer
          (enumerated w.config order' u.system.state inner)

section Alone

variable {w : Tenancy} {owns : String → Cell → Prop} {tenant : String}
  {t t' u : Shared}

theorem alone_init (clock : DateTime) :
    w.Alone owns tenant (.init clock) (.init clock) := by
  refine ⟨rfl, rfl, fun _ _ => rfl, fun _ _ => .inl rfl, fun _ _ => rfl,
    fun _ _ => rfl, fun _ _ => rfl, fun name => ?_⟩
  simp [Shared.init, System.init, MemoryState.empty, MemoryState.collection]

theorem Alone.answer (h : w.Alone owns tenant t u) {task : Nat}
    (htask : w.owner task = tenant) : w.answer u task = w.answer t task := by
  rw [Tenancy.answer, Tenancy.answer, h.issued task htask]
  rcases h.own task htask with hsame | ⟨r, r', outer, hr, hr', houter, heq⟩
  · rw [hsame]
  · rw [hr, hr', houter]
    exact congrArg some heq.symm

theorem proceed_eq (s : System) (task : Nat) (action : Action)
    (pending : List Mutation) (guards : List Guard)
    (result : Except Error Response) :
    s.proceed task action pending guards result =
      { s with
        holder := if pending.isEmpty then none else some task
        tasks := Function.update s.tasks task
          (if pending.isEmpty then .done result
            else .record action pending guards result) } := by
  cases pending <;> rfl

theorem Alone.moved (h : w.Alone owns tenant t u) {task : Nat}
    (htask : w.owner task = tenant) {t' u' : Shared} {phase phase' : Phase}
    (htasks : t'.system.tasks = Function.update t.system.tasks task phase)
    (htasks' : u'.system.tasks = Function.update u.system.tasks task phase')
    (hclock : u'.system.clock = t'.system.clock)
    (hholder : u'.system.holder =
      t'.system.holder.filter fun task => w.owner task = tenant)
    (hissued : ∀ other, other ≠ task → t'.issued other = t.issued other ∧
      u'.issued other = u.issued other)
    (hsame : u'.issued task = t'.issued task)
    (hphases : w.PhaseAlike t' task phase phase')
    (hagree : Agree (owns tenant) t'.system.state u'.system.state)
    (hnothing : ∀ cell, ¬ owns tenant cell →
      u'.system.state.cells cell = none)
    (hnamed : ∀ name, (u'.system.state.collection name).isSome = true ↔
      (tenant, name) ∈ t'.reached) : w.Alone owns tenant t' u' := by
  refine ⟨hclock, hholder, fun other hother => ?_, fun other hother => ?_,
    fun other hother => ?_, hagree, hnothing, hnamed⟩
  · by_cases heq : other = task
    · rw [heq]
      exact hsame
    · exact (hissued other heq).2.trans
        ((h.issued other hother).trans (hissued other heq).1.symm)
  · rw [htasks, htasks']
    by_cases heq : other = task
    · rw [heq, Function.update_self, Function.update_self]
      exact hphases
    · rw [Function.update_of_ne heq, Function.update_of_ne heq]
      refine (h.own other hother).imp_right ?_
      rintro ⟨r, r', outer, hr, hr', houter, hanswer⟩
      exact ⟨r, r', outer, hr, hr', (hissued other heq).1.trans houter,
        hanswer⟩
  · have heq : other ≠ task := by
      rintro rfl
      exact hother htask
    rw [htasks', Function.update_of_ne heq]
    exact h.others other hother

theorem Alone.phase (h : w.Alone owns tenant t u) {task : Nat}
    (htask : w.owner task = tenant) {phase : Phase}
    (hphase : t.system.tasks task = phase)
    (hopen : ∀ result, phase ≠ .done result) :
    u.system.tasks task = phase := by
  rcases h.own task htask with hsame | ⟨r, -, -, hr, -⟩
  · exact hsame.symm.trans hphase
  · exact absurd (hphase.symm.trans hr) (hopen r)

theorem enter_enumerates (hseed : w.config.seed = none)
    (rng : Nat → Option Revision) (now : DateTime) (order : Order)
    (s : MemoryState) {call : Memory.Call} (hcall : Enumerates call = true) :
    (enter w.config rng now order s call).2 =
      .done (enumerated w.config order s call) := by
  rw [enter_unseeded hseed]
  cases call with
  | keys collection limit =>
      simp only [prepare, Memory.keys, getCollection_ensure, bind, Except.bind,
        pure, Except.pure]
      rfl
  | collections limit => rfl
  | _ => cases hcall

theorem enter_alike (hsep : w.Separated owns) (h : w.Alone owns tenant t u)
    {call : Memory.Call} (hpassed : Passed call = true)
    (hcall : Enumerates call = false)
    (hown : ∀ key ∈ call.named,
      owns tenant (w.config.collectionName call.collection?, key))
    (rng : Nat → Option Revision) (now : DateTime) (order : Order) :
    ∃ rng', (enter w.config rng now order t.system.state call).2 =
      (enter w.config rng' now order u.system.state call).2 := by
  refine ⟨fun n => rng (t.system.state.draws + (n - u.system.state.draws)),
    ?_⟩
  rw [enter_unseeded hsep.unseeded, enter_unseeded hsep.unseeded]
  refine Agree.prepare (P := owns tenant) h.agree ?_ ?_ hown fun n => ?_
  · rcases passed_cases hpassed with hentries | ⟨limit, rfl⟩
    · exact hentries
    · cases hcall
  · cases call with
    | keys => cases hcall
    | _ => rfl
  · simp only [Nat.add_sub_cancel_left]

theorem Alone.entered (hsep : w.Separated owns) {cond : Shared → Turn → Prop}
    (hmatched : w.Matched owns cond) (hsound : w.Sound owns t)
    (h : w.Alone owns tenant t u) {task : Nat} (htask : w.owner task = tenant)
    {call : Memory.Call} {order : Order} {rng : Nat → Option Revision}
    (hcond : cond t (.resume task order rng))
    (hphase : t.system.tasks task = .setup call) :
    ∃ turn' u', Turn.Alike (.resume task order rng) turn' ∧
      w.step u turn' = some u' ∧
      w.Alone owns tenant
        ⟨{ t.system with
            state := (enter w.config rng t.system.clock order t.system.state
              call).1
            tasks := Function.update t.system.tasks task
              (enter w.config rng t.system.clock order t.system.state
                call).2 }, t.issued, w.reaches t task ++ t.reached⟩ u' := by
  subst htask
  have hexpected := hsound.phases task
  rw [hphase] at hexpected
  obtain ⟨outer, hissued, houter, rfl⟩ := hexpected
  have hinner := hsep.passed (w.owner task) outer houter
  have hphase' := h.phase rfl hphase (by simp)
  obtain ⟨order', rng', halike⟩ : ∃ order' rng',
      w.PhaseAlike ⟨t.system, t.issued, w.reaches t task ++ t.reached⟩ task
        (enter w.config rng t.system.clock order t.system.state
          ((w.wrapper (w.owner task)).inner outer)).2
        (enter w.config rng' t.system.clock order' u.system.state
          ((w.wrapper (w.owner task)).inner outer)).2 := by
    cases henum : Enumerates ((w.wrapper (w.owner task)).inner outer) with
    | true =>
        obtain ⟨order', hanswer⟩ :=
          hmatched t u task outer order rng hsound h hissued hphase henum hcond
        refine ⟨order', rng, .inr ⟨_, _, outer,
          enter_enumerates hsep.unseeded _ _ _ _ henum,
          enter_enumerates hsep.unseeded _ _ _ _ henum, hissued, hanswer⟩⟩
    | false =>
        obtain ⟨rng', hsame⟩ := enter_alike hsep h hinner henum
          (hsep.own _ _ houter) rng t.system.clock order
        exact ⟨order, rng', .inl hsame⟩
  refine ⟨_, _, .resume .., step_entered order' rng' hphase', ?_⟩
  refine h.moved rfl rfl rfl h.clock h.holder (fun _ _ => ⟨rfl, rfl⟩)
    (h.issued task rfl) ?_ (fun cell hcell => ?_) (fun cell hcell => ?_)
    fun name => ?_
  · rw [h.clock]
    exact halike
  · simp only [cells_enter hsep.unseeded _ _ _ _ hinner]
    exact h.agree cell hcell
  · simp only [cells_enter hsep.unseeded _ _ _ _ hinner]
    exact h.nothing cell hcell
  · rw [named_enter hsep.unseeded _ _ _ _ hinner, h.named,
      reaches_setup hphase, List.mem_append]
    refine or_congr_left ?_
    split
    · rename_i hentries
      simp [hentries]
    · rename_i hentries
      simp [hentries]

theorem holder_own (task : Nat) (done : Bool) :
    (if done then none else some task) =
      (if done then none else some task).filter
        fun other => w.owner other = w.owner task := by
  cases done with
  | false => exact (Option.filter_some_pos (by simp)).symm
  | true => rfl

theorem Alone.performed (hsound : w.Sound owns t)
    (h : w.Alone owns tenant t u) {task : Nat} (htask : w.owner task = tenant)
    {action : Action} {order : Order} (rng : Nat → Option Revision)
    (hroom : action.Spacious w.config t.system.clock t.system.state.cells)
    (hphase : t.system.tasks task = .lock action)
    (hfree : t.system.holder = none) {locked : Locked}
    (hlocked : locked =
      perform w.config t.system.clock order t.system.state action) :
    ∃ u', w.step u (.resume task order rng) = some u' ∧
      w.Alone owns tenant
        ⟨System.proceed { t.system with state := locked.state } task action
          locked.pending locked.guards locked.result, t.issued,
          w.reaches t task ++ t.reached⟩ u' := by
  subst htask hlocked
  have hexpected := hsound.phases task
  rw [hphase] at hexpected
  obtain ⟨hentries, hown, hreached⟩ := hexpected
  have hphase' := h.phase rfl hphase (by simp)
  have hfree' : u.system.holder = none := by rw [h.holder, hfree]; rfl
  obtain ⟨col, hcol⟩ := Option.isSome_iff_exists.mp
    ((hsound.named _).mpr ⟨_, hreached⟩)
  obtain ⟨col', hcol'⟩ := Option.isSome_iff_exists.mp
    ((h.named _).mpr hreached)
  -- The tenant's own store holds no more, and so has room as well.
  have hsub : Cells.Sub u.system.state.cells t.system.state.cells := by
    intro cell stored hstored
    by_cases hcell : owns (w.owner task) cell
    · rw [h.agree cell hcell, hstored]
    · rw [h.nothing cell hcell] at hstored
      cases hstored
  have hroom' := hroom.mono hsub
  have hsame := h.agree.perform order order hroom hroom' hentries hcol hcol'
    hown
  have hstays := stays_perform (T := owns (w.owner task)) order hroom' hentries
    hown
  refine ⟨_, step_performed order rng hphase' hfree', ?_⟩
  rw [proceed_eq, proceed_eq]
  simp only [h.clock, hsame.pending, hsame.guards, hsame.result]
  refine h.moved rfl rfl rfl rfl ?_ (fun _ _ => ⟨rfl, rfl⟩)
    (h.issued task rfl) (.inl rfl) hsame.agree (fun cell hcell => ?_)
    fun name => ?_
  · exact holder_own task _
  · exact (hstays.cells cell hcell).trans (h.nothing cell hcell)
  · simp only
    rw [hstays.names, h.named, reaches_other (by simp [hphase]),
      List.nil_append]

theorem Alone.recorded (h : w.Alone owns tenant t u) {task : Nat}
    (htask : w.owner task = tenant) {action : Action} {mutation : Mutation}
    {pending : List Mutation} {guards : List Guard}
    {result : Except Error Response} (order : Order)
    (rng : Nat → Option Revision)
    (hphase : t.system.tasks task =
      .record action (mutation :: pending) guards result) :
    ∃ u', w.step u (.resume task order rng) = some u' ∧
      w.Alone owns tenant
        ⟨System.proceed { t.system with
            state := t.system.state.recordChange t.system.clock mutation } task
          action pending guards result, t.issued,
          w.reaches t task ++ t.reached⟩ u' := by
  subst htask
  have hphase' := h.phase rfl hphase (by simp)
  refine ⟨_, step_recorded order rng hphase', ?_⟩
  rw [proceed_eq, proceed_eq]
  refine h.moved rfl rfl rfl h.clock ?_ (fun _ _ => ⟨rfl, rfl⟩)
    (h.issued task rfl) (.inl rfl) h.agree h.nothing fun name => ?_
  · exact holder_own task _
  · simp only [reaches_other (by simp [hphase] : ∀ call,
      t.system.tasks task ≠ .setup call), List.nil_append]
    exact h.named name

theorem Alone.called (h : w.Alone owns tenant t u) {task : Nat}
    (htask : w.owner task = tenant) {call : Memory.Call}
    (hpassed : Passed call = true)
    (hphase : t.system.tasks task = .idle ∨
      ∃ result, t.system.tasks task = .done result) :
    ∃ u', w.step u (.call task call) = some u' ∧
      w.Alone owns tenant
        ⟨{ t.system with
            tasks := Function.update t.system.tasks task
              (start t.system.clock ((w.wrapper (w.owner task)).inner call)) },
          Function.update t.issued task (some call), t.reached⟩ u' := by
  subst htask
  have hphase' : u.system.tasks task = .idle ∨
      ∃ result, u.system.tasks task = .done result := by
    rcases h.own task rfl with hsame | ⟨-, r', -, -, hr', -⟩
    · rw [← hsame]
      exact hphase
    · exact .inr ⟨r', hr'⟩
  refine ⟨_, step_called hpassed hphase', ?_⟩
  rw [h.clock]
  refine h.moved rfl rfl rfl h.clock h.holder (fun other hother => ?_) ?_
    (.inl rfl) h.agree h.nothing h.named
  · exact ⟨Function.update_of_ne hother .., Function.update_of_ne hother ..⟩
  · simp only [Function.update_self]

theorem Alone.cancelled (h : w.Alone owns tenant t u) {task : Nat}
    (htask : w.owner task = tenant) :
    ∃ u', w.step u (.cancel task) = some u' ∧
      w.Alone owns tenant
        ⟨{ t.system with
            holder := if (t.system.tasks task).holds then none
              else t.system.holder
            tasks := Function.update t.system.tasks task .idle }, t.issued,
          t.reached⟩ u' := by
  subst htask
  have hholds : (u.system.tasks task).holds = (t.system.tasks task).holds := by
    rcases h.own task rfl with hsame | ⟨r, r', -, hr, hr', -⟩
    · rw [hsame]
    · rw [hr, hr']
      rfl
  refine ⟨_, rfl, h.moved rfl rfl rfl h.clock ?_ (fun _ _ => ⟨rfl, rfl⟩)
    (h.issued task rfl) (.inl rfl) h.agree h.nothing h.named⟩
  simp only [hholds, h.holder]
  split
  · rfl
  · rfl

theorem Alone.passed (h : w.Alone owns tenant t u) {task : Nat}
    (htask : w.owner task ≠ tenant) {t' : Shared} {phase : Phase}
    (htasks : t'.system.tasks = Function.update t.system.tasks task phase)
    (hclock : t'.system.clock = t.system.clock)
    (hholder : (t'.system.holder.filter fun task => w.owner task = tenant) =
      t.system.holder.filter fun task => w.owner task = tenant)
    (hissued : ∀ other, other ≠ task → t'.issued other = t.issued other)
    (hcells : ∀ cell, owns tenant cell →
      t'.system.state.cells cell = t.system.state.cells cell)
    (hreached : ∀ name, (tenant, name) ∈ t'.reached ↔
      (tenant, name) ∈ t.reached) : w.Alone owns tenant t' u := by
  have hne : ∀ other, w.owner other = tenant → other ≠ task := by
    rintro other hother rfl
    exact htask hother
  refine ⟨h.clock.trans hclock.symm, h.holder.trans hholder.symm,
    fun other hother => ?_, fun other hother => ?_, h.others,
    fun cell hcell => ?_, h.nothing, fun name => ?_⟩
  · rw [hissued other (hne other hother)]
    exact h.issued other hother
  · rw [htasks, Function.update_of_ne (hne other hother)]
    refine (h.own other hother).imp_right ?_
    rintro ⟨r, r', outer, hr, hr', houter, hanswer⟩
    exact ⟨r, r', outer, hr, hr',
      (hissued other (hne other hother)).trans houter, hanswer⟩
  · exact (hcells cell hcell).trans (h.agree cell hcell)
  · rw [hreached]
    exact h.named name

theorem Alone.other (hsep : w.Separated owns) (hsound : w.Sound owns t)
    {self : Nat} (h : w.Alone owns (w.owner self) t u) {turn : Turn}
    (hother : w.mine (w.owner self) turn = false) (hroom : w.Spacious t turn)
    (hstep : w.step t turn = some t') :
    w.Alone owns (w.owner self) t' u := by
  have hexclusive : ∀ task phase, t.system.tasks task = phase →
      phase.holds = true → t.system.holder = some task :=
    fun task phase hphase hholds =>
      (hsound.exclusive task).mp (hphase ▸ hholds)
  have hhidden : ∀ {task : Nat}, w.owner task ≠ w.owner self →
      ∀ done : Bool, (if done then none else some task).filter
        (fun other => decide (w.owner other = w.owner self)) = none := by
    intro task htask done
    cases done with
    | true => rfl
    | false => exact Option.filter_some_neg (by simp [htask])
  cases turn with
  | advance clock => cases hother
  | call task call =>
      have htask : w.owner task ≠ w.owner self := of_decide_eq_false hother
      rw [Tenancy.step] at hstep
      split at hstep
      · obtain ⟨system, hsystem, rfl⟩ := Option.map_eq_some_iff.mp hstep
        cases step_cases hsystem with
        | called =>
            exact h.passed htask rfl rfl rfl
              (fun _ hne => Function.update_of_ne hne ..) (fun _ _ => rfl)
              fun _ => Iff.rfl
      · cases hstep
  | cancel task =>
      have htask : w.owner task ≠ w.owner self := of_decide_eq_false hother
      rw [Tenancy.step, Option.map_eq_some_iff] at hstep
      obtain ⟨system, hsystem, rfl⟩ := hstep
      cases step_cases hsystem with
      | cancelled =>
          refine h.passed htask rfl rfl ?_ (fun _ _ => rfl) (fun _ _ => rfl)
            fun _ => Iff.rfl
          cases hholds : (t.system.tasks task).holds with
          | false => rfl
          | true =>
              rw [hexclusive task _ rfl hholds]
              exact (hhidden htask false).symm
  | resume task order rng =>
      have htask : w.owner task ≠ w.owner self := of_decide_eq_false hother
      obtain ⟨system, hsystem, rfl⟩ := Option.map_eq_some_iff.mp hstep
      have hexpected := hsound.phases task
      have hreached : ∀ name,
          (w.owner self, name) ∈ w.reaches t task ++ t.reached ↔
            (w.owner self, name) ∈ t.reached := by
        intro name
        rw [List.mem_append, reaches]
        refine or_iff_right ?_
        split
        · split
          · simp [Ne.symm htask]
          · simp
        · simp
      cases step_cases hsystem with
      | @entered _ call _ hphase =>
          rw [hphase] at hexpected
          obtain ⟨outer, -, houter, rfl⟩ := hexpected
          exact h.passed htask rfl rfl rfl (fun _ _ => rfl)
            (fun cell _ => by
              rw [cells_enter hsep.unseeded _ _ _ _
                (hsep.passed (w.owner task) outer houter)]) hreached
      | performed hphase hfree hlocked =>
          rw [hphase] at hexpected
          have hstays := stays_perform (T := owns (w.owner task)) order
            (hroom _ hphase) hexpected.1 hexpected.2.1
          rw [proceed_eq]
          refine h.passed htask rfl rfl ?_ (fun _ _ => rfl)
            (fun cell hcell => ?_) hreached
          · rw [hfree]
            exact hhidden htask _
          · rw [hlocked]
            exact hstays.cells cell fun hown =>
              hsep.apart task self cell htask hown hcell
      | recorded hphase =>
          rw [proceed_eq]
          refine h.passed htask rfl rfl ?_ (fun _ _ => rfl) (fun _ _ => rfl)
            hreached
          rw [hexclusive task _ hphase rfl]
          exact (hhidden htask _).trans (hhidden htask false).symm
      | subscribing hphase | cleared hphase | replayed hphase
      | reset hphase =>
          rw [hphase] at hexpected
          cases hexpected

theorem Alone.mine (hsep : w.Separated owns) {cond : Shared → Turn → Prop}
    (hmatched : w.Matched owns cond) (hsound : w.Sound owns t)
    (h : w.Alone owns tenant t u) {turn : Turn}
    (hmine : w.mine tenant turn = true) (hcond : cond t turn)
    (hroom : w.Spacious t turn)
    (hstep : w.step t turn = some t') :
    ∃ turn' u', Turn.Alike turn turn' ∧ w.step u turn' = some u' ∧
      w.Alone owns tenant t' u' := by
  cases turn with
  | advance clock =>
      obtain ⟨system, hsystem, rfl⟩ := Option.map_eq_some_iff.mp hstep
      cases step_cases hsystem with
      | advanced hclock =>
          refine ⟨.advance clock, { u with system := { u.system with clock } },
            .advance clock, ?_, ?_⟩
          · rw [Tenancy.step, System.step, h.clock, if_pos hclock]
            rfl
          · exact ⟨rfl, h.holder, h.issued, h.own, h.others, h.agree,
              h.nothing, h.named⟩
  | call task call =>
      have htask : w.owner task = tenant := of_decide_eq_true hmine
      rw [Tenancy.step] at hstep
      split at hstep
      · rename_i hpassed
        obtain ⟨system, hsystem, rfl⟩ := Option.map_eq_some_iff.mp hstep
        cases step_cases hsystem with
        | called hphase =>
            obtain ⟨u', hu', halone⟩ := h.called htask hpassed hphase
            exact ⟨_, u', .call task call, hu', halone⟩
      · cases hstep
  | cancel task =>
      have htask : w.owner task = tenant := of_decide_eq_true hmine
      rw [Tenancy.step, Option.map_eq_some_iff] at hstep
      obtain ⟨system, hsystem, rfl⟩ := hstep
      cases step_cases hsystem with
      | cancelled =>
          obtain ⟨u', hu', halone⟩ := h.cancelled htask
          exact ⟨_, u', .cancel task, hu', halone⟩
  | resume task order rng =>
      have htask : w.owner task = tenant := of_decide_eq_true hmine
      obtain ⟨system, hsystem, rfl⟩ := Option.map_eq_some_iff.mp hstep
      have hexpected := hsound.phases task
      cases step_cases hsystem with
      | entered hphase =>
          exact h.entered hsep hmatched hsound htask hcond hphase
      | performed hphase hfree hlocked =>
          obtain ⟨u', hu', halone⟩ :=
            h.performed hsound htask rng (hroom _ hphase) hphase hfree hlocked
          exact ⟨_, u', .resume .., hu', halone⟩
      | recorded hphase =>
          obtain ⟨u', hu', halone⟩ := h.recorded htask order rng hphase
          exact ⟨_, u', .resume .., hu', halone⟩
      | subscribing hphase | cleared hphase | replayed hphase
      | reset hphase =>
          rw [hphase] at hexpected
          cases hexpected

theorem Alone.run (hsep : w.Separated owns) {cond : Shared → Turn → Prop}
    (hmatched : w.Matched owns cond) {self : Nat} {turns : List Turn}
    (hsound : w.Sound owns t) (h : w.Alone owns (w.owner self) t u)
    (hcond : Along w.step (fun t turn => cond t turn ∧ w.Spacious t turn) t
      turns)
    (hrun : run w.step t turns = some t') :
    ∃ turns' u', List.Forall₂ Turn.Alike
        (turns.filter (w.mine (w.owner self))) turns' ∧
      Library.run w.step u turns' = some u' ∧
      w.Alone owns (w.owner self) t' u' := by
  induction turns generalizing t u with
  | nil =>
      cases hrun
      exact ⟨[], u, .nil, rfl, h⟩
  | cons turn turns ih =>
      obtain ⟨s, hs, hrest⟩ := run_cons_eq_some.mp hrun
      obtain ⟨⟨hfirst, hroom⟩, hlater⟩ := hcond
      have hsound' := hsound.step hsep hroom hs
      cases hmine : w.mine (w.owner self) turn with
      | false =>
          rw [List.filter_cons_of_neg (by simp [hmine])]
          exact ih hsound' (h.other hsep hsound hmine hroom hs)
            (hlater s hs) hrest
      | true =>
          obtain ⟨turn', v, halike, hv, halone⟩ :=
            h.mine hsep hmatched hsound hmine hfirst hroom hs
          obtain ⟨turns', u', halikes, hu', halone'⟩ :=
            ih hsound' halone (hlater s hs) hrest
          rw [List.filter_cons_of_pos hmine]
          exact ⟨turn' :: turns', u', .cons halike halikes,
            run_cons_eq_some.mpr ⟨v, hv, hu'⟩, halone'⟩

end Alone

theorem alone_too {w : Tenancy} {owns : String → Cell → Prop}
    (hsep : w.Separated owns) {cond : Shared → Turn → Prop}
    (hmatched : w.Matched owns cond) {clock : DateTime} {turns : List Turn}
    {t : Shared}
    (hcond : Along w.step (fun t turn => cond t turn ∧ w.Spacious t turn)
      (.init clock) turns)
    (hrun : run w.step (.init clock) turns = some t) (self : Nat) :
    w.AloneToo clock turns t (w.owner self) := by
  obtain ⟨turns', u', halikes, hu', halone⟩ :=
    (alone_init clock).run hsep hmatched (sound_init clock) hcond hrun
  exact ⟨turns', u', halikes, hu', fun task htask => halone.answer htask⟩

end Tenancy

end OpenKeyV.Wrapper
