import OpenKeyV.Library.Replica
import OpenKeyV.Memory.History

/-!
# What the log of a `MemoryStore` says

The changes already recorded and those that the holder of the mutation lock
has still to record make one log.  A step adds the changes that it makes to
the live entries at the end of that log, whatever the interleaving; only the
seed is loaded without a record, before anything else is stored.
-/

namespace OpenKeyV.Memory

open OpenKeyV.Library

/-- The changes that are recorded, and those that are made already. -/
def System.log (s : System) : List Mutation := s.history ++ s.pending

def erasure (mutation : Mutation) : Bool :=
  decide (mutation.operation = .delete)

def MemoryState.lives (s : MemoryState) (now : DateTime)
    (cell : String × String) : Option RevisionedEntry :=
  s.live now cell.1 cell.2

def Permanent (s : MemoryState) : Prop :=
  ∀ name key stored, s.entry name key = some stored →
    stored.entry.expiresAt = none

/-! ## Actions -/

section Actions

variable {config : MemoryConfig} {now : DateTime} {order : Order}
  {s s' : MemoryState} {events : List Event}

theorem Edits.entry (h : Edits s events s') (name key : String) :
    s'.entry name key =
      match latestOf Event.cell (name, key) events with
      | some last => last.stored
      | none => s.entry name key := by
  induction h with
  | refl => rfl
  | touch _ _ _ hentry ih => rw [hentry, ih]
  | event event _ _ _ _ hentry ih =>
      rw [hentry, latestOf_concat]
      split
      · rfl
      · exact ih

theorem Edits.lives (h : Edits s [] s') (now : DateTime) :
    s'.lives now = s.lives now := by
  funext cell
  unfold MemoryState.lives MemoryState.live
  rw [h.entry]
  rfl

theorem Edits.reports (h : Edits s events s') (now : DateTime) :
    Reports Mutation.cell erasure (events.map Event.mutation) (s.lives now)
      (s'.lives now) := by
  constructor
  · rintro ⟨name, key⟩ hnone
    rw [latestOf_map_mutation, Option.map_eq_none_iff] at hnone
    unfold MemoryState.lives MemoryState.live
    rw [h.entry, hnone]
  · rintro ⟨name, key⟩ mutation hlatest herases
    rw [latestOf_map_mutation] at hlatest
    obtain ⟨event, hevent, rfl⟩ := Option.map_eq_some_iff.mp hlatest
    unfold MemoryState.lives MemoryState.live
    rw [h.entry, hevent]
    cases event with
    | wrote => cases herases
    | removed => rfl

theorem Edits.reports_sweep {name key : String} {stored : RevisionedEntry}
    (h : Edits s [.removed name key none] s')
    (hstored : s.entry name key = some stored)
    (hexpired : stored.isExpired now = true) :
    Reports Mutation.cell erasure [] (s.lives now) (s'.lives now) := by
  refine ⟨?_, fun _ _ hlatest => by cases hlatest⟩
  rintro ⟨name', key'⟩ _
  unfold MemoryState.lives MemoryState.live
  rw [h.entry, ← List.nil_append [Event.removed name key none],
    latestOf_concat]
  by_cases hcell : (name, key) = (name', key')
  · cases hcell
    simp [Event.cell, Event.stored, hstored, hexpired, Option.filter]
  · have hne : ¬ (Event.removed name key none).cell = (name', key') := hcell
    rw [if_neg hne]
    rfl

theorem reports_puts (name : String) (keys : List String) :
    Reports Mutation.cell erasure
      (keys.map fun key => ⟨name, key, .put⟩) (s.lives now) (s.lives now) := by
  refine ⟨fun _ _ => rfl, fun cell mutation hlatest herases => ?_⟩
  obtain ⟨before, after, hsplit, _⟩ := latest_eq_some hlatest
  have hmem : mutation ∈ keys.map fun key => (⟨name, key, .put⟩ : Mutation) := by
    rw [hsplit]
    simp
  obtain ⟨key, _, rfl⟩ := List.mem_map.mp hmem
  cases herases

theorem perform_reports (action : Action) (hmatched : action.Matched) :
    Reports Mutation.cell erasure (perform config now order s action).pending
      (s.lives now) ((perform config now order s action).state.lives now) := by
  by_cases hgrounded : action.Grounded s
  · obtain ⟨events, hperformed⟩ :=
      perform_performed config now order s action
    rcases hperformed.mirrors hgrounded hmatched with hpending | hsweep
    · rw [hpending]
      exact hperformed.edits.reports now
    · obtain ⟨hpending, name, key, stored, rfl, hstored, hexpired⟩ := hsweep
      rw [hpending]
      exact hperformed.edits.reports_sweep hstored hexpired
  · cases action with
    | put name key stored =>
        have hcol : s.collection name = none := by
          simpa [Action.Grounded] using hgrounded
        simp only [perform, put, hcol]
        exact reports_puts name [key]
    | putMany name keys entries =>
        have hcol : s.collection name = none := by
          simp only [Action.Grounded, not_or] at hgrounded
          simpa using hgrounded.2
        simp only [perform, putMany, hcol]
        exact reports_puts name keys
    | _ => exact absurd trivial hgrounded

end Actions

/-! ## Setup -/

section Setup

variable {config : MemoryConfig} {rng : Nat → Option Revision}
  {now : DateTime} {order : Order}

@[simp] theorem setupComplete_insertEntry (s : MemoryState)
    (name key : String) (stored : RevisionedEntry) (cause : Cause) :
    (s.insertEntry name key stored cause).setupComplete =
      s.setupComplete := by
  unfold MemoryState.insertEntry
  split <;> rfl

@[simp] theorem setupComplete_removeEntry (s : MemoryState)
    (name key : String) (expected : Option Revision) :
    (s.removeEntry name key expected).setupComplete = s.setupComplete := by
  unfold MemoryState.removeEntry
  split <;> rfl

@[simp] theorem setupComplete_ensureCollection (s : MemoryState)
    (name : String) :
    (s.ensureCollection name).setupComplete = s.setupComplete := by
  unfold MemoryState.ensureCollection
  split <;> rfl

theorem setupComplete_foldl {α : Type} {f : MemoryState → α → MemoryState}
    (h : ∀ s a, (f s a).setupComplete = s.setupComplete) (items : List α)
    (s : MemoryState) : (items.foldl f s).setupComplete = s.setupComplete := by
  induction items generalizing s with
  | nil => rfl
  | cons a items ih => exact (ih (f s a)).trans (h s a)

@[simp] theorem setupComplete_enforceCapacity (s : MemoryState)
    (name : String) :
    (enforceCapacity config now order name s).1.setupComplete =
      s.setupComplete := by
  unfold enforceCapacity
  split
  · rfl
  · exact setupComplete_foldl
      (fun s key => setupComplete_removeEntry s name key none) _ _

theorem setupComplete_removeMany (name : String) (keys : List String)
    (s : MemoryState) :
    (removeMany name keys s).1.setupComplete = s.setupComplete := by
  induction keys generalizing s with
  | nil => rfl
  | cons key keys ih =>
      rw [removeMany]
      split
      · exact (ih _).trans (setupComplete_removeEntry s name key none)
      · exact ih s

theorem setupComplete_fresh (rng : Nat → Option Revision) (s : MemoryState) :
    (s.fresh rng).2.setupComplete = s.setupComplete := rfl

theorem setupComplete_freshMany (rng : Nat → Option Revision) (n : Nat) (s : MemoryState) :
    (freshMany rng n s).2.setupComplete = s.setupComplete := by
  induction n generalizing s with
  | zero => rfl
  | succ n ih =>
      rw [freshMany]
      have hfresh := setupComplete_fresh rng s
      split <;> rename_i s' heq <;> rw [heq] at hfresh
      · exact hfresh
      · have hrest := ih s'
        split <;> rename_i heq' <;> rw [heq'] at hrest <;>
          exact hrest.trans hfresh

theorem setupComplete_perform (s : MemoryState) (action : Action) :
    (perform config now order s action).state.setupComplete =
      s.setupComplete := by
  cases action with
  | put name key stored =>
      simp only [perform, put]
      split <;> simp
  | putMany name keys entries =>
      simp only [perform, putMany]
      split
      · simp only [setupComplete_enforceCapacity]
        exact setupComplete_foldl (fun s (item : String × RevisionedEntry) =>
          setupComplete_insertEntry s name item.1 item.2 .plain) _ _
      · rfl
  | delete name key =>
      simp only [perform, delete]
      split
      · rfl
      · split <;> simp
  | deleteMany name keys =>
      simp only [perform, deleteMany]
      split
      · rfl
      · exact setupComplete_removeMany name keys s
  | compareAndSwap name key expected stored =>
      have hcases := compareAndSwap_cases now s name key expected stored
      simp only [perform]
      generalize compareAndSwap now name s key expected stored = locked
        at hcases ⊢
      cases hcases <;> simp
  | compareAndDelete name key expected =>
      have hcases := compareAndDelete_cases now s name key expected
      simp only [perform]
      generalize compareAndDelete now name s key expected = locked at hcases ⊢
      cases hcases <;> simp
  | cull =>
      exact setupComplete_foldl (fun s (entry : String × String) =>
        setupComplete_removeEntry s entry.1 entry.2 none) _ _
  | destroyCollection name =>
      simp only [perform, destroyCollection]
      split <;> rfl

theorem setupComplete_prepare (s : MemoryState) (call : Call) :
    (prepare config rng now order s call).1.setupComplete =
      s.setupComplete := by
  have hensure := setupComplete_ensureCollection s
  cases call with
  | get | ttl | getMany | ttlMany | getWithRevision | keys | delete
  | deleteMany | compareAndDelete => exact hensure _
  | collections | destroyCollection | cull | subscribe | destroy => rfl
  | put key value collection ttl | compareAndSwap key _ value collection ttl =>
      simp only [prepare]
      split
      · exact hensure _
      · have hfresh := setupComplete_fresh rng
          (s.ensureCollection (config.collectionName collection))
        split <;> rename_i heq <;> rw [heq] at hfresh <;>
          exact hfresh.trans (hensure _)
  | putMany keys values collection ttl =>
      simp only [prepare]
      split
      · exact hensure _
      · rename_i entries _
        have hdrawn := setupComplete_freshMany rng entries.length
          (s.ensureCollection (config.collectionName collection))
        split <;> rename_i heq <;> rw [heq] at hdrawn <;>
          exact hdrawn.trans (hensure _)

/-! Whatever the seed leaves is permanent. -/

theorem permanent_of_entry {s s' : MemoryState} (h : Permanent s)
    (hentry : ∀ name key stored, s'.entry name key = some stored →
      s.entry name key = some stored ∨ stored.entry.expiresAt = none) :
    Permanent s' := by
  intro name key stored hstored
  exact (hentry name key stored hstored).elim (h name key stored) id

theorem Edits.permanent {s s' : MemoryState} {events : List Event}
    (hedits : Edits s events s') (h : Permanent s)
    (hevents : ∀ event ∈ events, ∀ stored ∈ event.stored,
      stored.entry.expiresAt = none) : Permanent s' := by
  refine permanent_of_entry h fun name key stored hstored => ?_
  rw [hedits.entry] at hstored
  cases hlast : latestOf Event.cell (name, key) events with
  | none =>
      rw [hlast] at hstored
      exact .inl hstored
  | some last =>
      rw [hlast] at hstored
      obtain ⟨before, after, rfl, _, _⟩ := latest_eq_some hlast
      exact .inr (hevents last (by simp) stored hstored)

theorem permanent_removals {name : String} {keys : List String} :
    ∀ event ∈ removals name keys, ∀ stored ∈ event.stored,
      stored.entry.expiresAt = none := by
  intro event hevent stored hstored
  obtain ⟨key, _, rfl⟩ := List.mem_map.mp hevent
  cases hstored

variable (rng now) in
theorem loadItems_permanent (name : String)
    (items : List (Sigma fun _ : String => Value)) {s : MemoryState}
    (h : Permanent s) : Permanent (loadItems rng now name items s).2 := by
  induction items generalizing s with
  | nil => exact h
  | cons item items ih =>
      have hfresh := (edits_fresh rng s).permanent h (by simp)
      rw [loadItems]
      split
      · rename_i heq
        rwa [heq] at hfresh
      · rename_i revision s' heq
        rw [heq] at hfresh
        apply ih
        refine permanent_of_entry hfresh fun name' key' stored hstored => ?_
        cases hcol : s'.collection name with
        | none => exact .inl (by simpa [MemoryState.insertEntry, hcol] using hstored)
        | some col =>
            rw [entry_insertEntry hcol] at hstored
            split at hstored
            · cases hstored
              exact .inr rfl
            · exact .inl hstored

variable (config rng now order) in
theorem loadSeed_permanent
    (seed : List (Sigma fun _ : String => KeyedMap String Value))
    {s : MemoryState} (h : Permanent s) :
    Permanent (loadSeed config rng now order seed s).2 := by
  induction seed generalizing s with
  | nil => exact h
  | cons items seed ih =>
      have hensured := (edits_ensureCollection s items.1).permanent h (by simp)
      have hloaded := loadItems_permanent rng now items.1
        items.2.entries hensured
      rw [loadSeed]
      split
      · rename_i heq
        rwa [heq] at hloaded
      · rename_i s' heq
        rw [heq] at hloaded
        exact ih ((edits_enforceCapacity config now order items.1 s').permanent
          hloaded permanent_removals)

variable (config rng now order) in
theorem setup_permanent {s : MemoryState} (h : Permanent s) :
    Permanent (setup config rng now order s).2 := by
  unfold setup
  split
  · exact h
  · cases config.seed with
    | none => exact h
    | some seed =>
        have hseed := loadSeed_permanent config rng now order seed.entries h
        simp only
        split <;> rename_i heq <;> rw [heq] at hseed <;> exact hseed

variable (config rng now order) in
theorem setup_changes (s : MemoryState) :
    (setup config rng now order s).2.changes = s.changes := by
  obtain ⟨events, hedits, _⟩ := setup_loaded rng config now order s
  exact hedits.quiet.1

variable (config rng now order) in
theorem prepare_edits (s : MemoryState) (call : Call) :
    Edits s [] (prepare config rng now order s call).1 := by
  obtain ⟨_, _, hedits, _⟩ := prepare_loaded rng config now order s call
  exact hedits

variable (config rng now order) in
theorem enter_changes (s : MemoryState) (call : Call) :
    (enter config rng now order s call).1.changes = s.changes := by
  have hsetup := setup_changes config rng now order s
  unfold enter
  split <;> rename_i s' heq <;> rw [heq] at hsetup
  · exact hsetup
  · exact (prepare_edits config rng now order s' call).quiet.1.trans hsetup

theorem enter_edits {s : MemoryState} (h : s.setupComplete = true)
    (call : Call) : Edits s [] (enter config rng now order s call).1 := by
  rw [enter, setup_complete h]
  exact prepare_edits config rng now order s call

theorem enter_setup (s : MemoryState) (call : Call) :
    (enter config rng now order s call).1.setupComplete = true ∨
      (s.setupComplete = false ∧
        (Permanent s → Permanent (enter config rng now order s call).1) ∧
        ∃ error, (enter config rng now order s call).2 =
          .done (.error error)) := by
  unfold enter
  split
  · rename_i error s' heq
    refine .inr ⟨?_, fun h => ?_, error, rfl⟩
    · cases hcomplete : s.setupComplete with
      | false => rfl
      | true =>
          rw [setup_complete hcomplete] at heq
          cases heq
    · have hsetup := setup_permanent config rng now order h
      rwa [heq] at hsetup
  · rename_i s' heq
    exact .inl ((setupComplete_prepare s' call).trans (setup_setupComplete heq))

end Setup

/-! ## Steps -/

structure Logged (s s' : System) (added : List Mutation) : Prop where
  log : s'.log = s.log ++ added
  history : ∃ moved, s'.history = s.history ++ moved
  setup : s.state.setupComplete = true → s'.state.setupComplete = true
  early : s.state.setupComplete = false → added = []
  reports : s.state.setupComplete = true →
    Reports Mutation.cell erasure added (s.state.lives s.clock)
      (s'.state.lives s'.clock)

/-- Nothing but the seed is stored before the setup. -/
structure Tidy (s : System) : Prop where
  exclusive : Exclusive s
  allowed : ∀ task, (s.tasks task).allowed true = true
  matched : ∀ task, (s.tasks task).Matched
  permanent : s.state.setupComplete = false → Permanent s.state
  waiting : s.state.setupComplete = false → ∀ task,
    (∀ action, s.tasks task = .lock action → action = .cull) ∧
      (s.tasks task).pending = []

def MemoryState.stored (s : MemoryState) : List RevisionedEntry :=
  s.collections.entries.flatMap fun entry => entry.2.entries.map Sigma.snd

/-- No stored entry expires between the two instants. -/
def Lasting (s : MemoryState) (now later : DateTime) : Prop :=
  ∀ stored ∈ s.stored, stored.isExpired later = stored.isExpired now

/-- Neither a destroyed store nor a dropped call, and no entry that expires. -/
def Steady (s : System) : Label → Prop
  | .call _ call => call.allowed true = true
  | .resume _ _ => True
  | .advance clock => Lasting s.state s.clock clock
  | .cancel _ => False

instance (s : MemoryState) (now later : DateTime) :
    Decidable (Lasting s now later) := by
  unfold Lasting
  infer_instance

instance (s : System) : ∀ label, Decidable (Steady s label)
  | .call _ call => inferInstanceAs (Decidable (call.allowed true = true))
  | .resume .. => inferInstanceAs (Decidable True)
  | .advance clock =>
      inferInstanceAs (Decidable (Lasting s.state s.clock clock))
  | .cancel _ => inferInstanceAs (Decidable False)

section Steps

variable {config : MemoryConfig} {rng : Nat → Option Revision}
  {s s' : System} {label : Label}

theorem log_of_quiet (hexclusive : Exclusive s) {task : Nat}
    (hbefore : (s.tasks task).holds = false) {state : MemoryState}
    (hchanges : state.changes = s.state.changes) (phase : Phase) :
    System.log
        { s with state, tasks := Function.update s.tasks task phase } =
      s.log := by
  unfold System.log
  rw [pending_update hexclusive phase state hbefore]
  simp [System.history, hchanges]

theorem mem_stored {state : MemoryState} {name key : String}
    {stored : RevisionedEntry} (h : state.entry name key = some stored) :
    stored ∈ state.stored := by
  obtain ⟨col, hcol, hlookup⟩ := Option.bind_eq_some_iff.mp h
  exact List.mem_flatMap.mpr ⟨⟨name, col⟩, AList.mem_lookup_iff.mp hcol,
    List.mem_map.mpr ⟨⟨key, stored⟩, AList.mem_lookup_iff.mp hlookup, rfl⟩⟩

theorem Lasting.lives {state : MemoryState} {now later : DateTime}
    (h : Lasting state now later) : state.lives later = state.lives now := by
  funext cell
  unfold MemoryState.lives MemoryState.live
  cases hentry : state.entry cell.1 cell.2 with
  | none => rfl
  | some stored => simp only [Option.filter, h stored (mem_stored hentry)]

theorem cull_permanent {state : MemoryState} (h : Permanent state)
    (now : DateTime) (order : Order) :
    (cull now order state).pending = [] := by
  have hnone : expiredEntries now state = [] := by
    refine List.flatMap_eq_nil_iff.mpr fun entry hentry => ?_
    refine List.map_eq_nil_iff.mpr (List.filter_eq_nil_iff.mpr ?_)
    intro key _ hexpired
    cases hlookup : entry.2.lookup key with
    | none => simp [hlookup] at hexpired
    | some stored =>
        have hcol : state.collection entry.1 = some entry.2 :=
          AList.mem_lookup_iff.mpr hentry
        have hstored := h entry.1 key stored
          ((state.entry_eq _ _ hcol).trans hlookup)
        simp [hlookup, RevisionedEntry.isExpired, ManagedEntry.isExpired,
          hstored] at hexpired
  have hperm := order.perm (expiredEntries now state)
  rw [hnone] at hperm
  simp [cull, hnone, hperm.eq_nil]

theorem Tidy.logged (h : Tidy s) (hsteady : Steady s label)
    (hstep : s.step config rng label = some s') :
    ∃ added, Logged s s' added := by
  have hsame : ∀ {state : MemoryState} {now : DateTime}, Reports Mutation.cell
      erasure [] (state.lives now) (state.lives now) := .refl
  cases step_cases hstep with
  | @called task call hphase =>
      refine ⟨[], ?_, ⟨[], (List.append_nil _).symm⟩, id, fun _ => rfl,
        fun _ => hsame⟩
      rw [List.append_nil]
      refine log_of_quiet h.exclusive ?_ rfl _
      rcases hphase with hphase | ⟨result, hphase⟩ <;> rw [hphase] <;> rfl
  | @entered task call order hphase =>
      have hchanges := enter_changes config rng s.clock order s.state call
      refine ⟨[], ?_, ⟨[], ?_⟩, fun hcomplete => ?_, fun _ => rfl,
        fun hcomplete => ?_⟩
      · rw [List.append_nil]
        exact log_of_quiet h.exclusive (by rw [hphase]; rfl) hchanges _
      · simp [System.history, hchanges]
      · rcases enter_setup s.state call with hset | ⟨hearly, _⟩
        · exact hset
        · rw [hcomplete] at hearly
          cases hearly
      · rw [(enter_edits hcomplete call).lives]
        exact hsame
  | @performed task action order locked hphase hfree hlocked =>
      subst hlocked
      obtain ⟨events, hperformed⟩ :=
        perform_performed config s.clock order s.state action
      have hmatched := h.matched task
      rw [hphase] at hmatched
      refine ⟨(perform config s.clock order s.state action).pending, ?_,
        ⟨[], ?_⟩, ?_, fun hearly => ?_, fun _ => ?_⟩
      · unfold System.log
        rw [pending_proceed, history_proceed, pending_of_free hfree,
          List.append_nil, history_of_quiet hperformed.edits.quiet]
      · rw [history_proceed, List.append_nil,
          history_of_quiet hperformed.edits.quiet]
      · rw [state_proceed]
        exact (setupComplete_perform s.state action).trans
      · obtain rfl := (h.waiting hearly task).1 action hphase
        exact cull_permanent (h.permanent hearly) s.clock order
      · rw [state_proceed, clock_proceed]
        exact perform_reports action hmatched
  | @subscribing task request order hphase hfree =>
      refine ⟨[], ?_, ⟨[], (List.append_nil _).symm⟩, id, fun _ => rfl,
        fun _ => hsame⟩
      unfold System.log
      rw [pending_hold, pending_of_free hfree, List.append_nil]
      rfl
  | @cleared task order hphase _ =>
      have hdestroy := h.allowed task
      rw [hphase] at hdestroy
      cases hdestroy
  | @recorded task action mutation pending guards result order hphase =>
      have hpending := pending_of_phase h.exclusive hphase rfl
      refine ⟨[], ?_, ⟨[mutation], ?_⟩, fun hcomplete => ?_, fun _ => rfl,
        fun _ => ?_⟩
      · unfold System.log
        rw [pending_proceed, history_proceed, history_recordChange, hpending,
          List.append_nil, List.append_assoc]
        rfl
      · rw [history_proceed, history_recordChange]
      · rw [state_proceed]
        exact hcomplete
      · rw [state_proceed, clock_proceed]
        exact hsame
  | @replayed task request order hphase =>
      have hpending := pending_of_phase h.exclusive hphase rfl
      refine ⟨[], ?_, ⟨[], (List.append_nil _).symm⟩, id, fun _ => rfl,
        fun _ => hsame⟩
      unfold System.log
      rw [hpending, List.append_nil]
      rfl
  | @reset task order hphase =>
      have hdestroy := h.allowed task
      rw [hphase] at hdestroy
      cases hdestroy
  | @advanced clock hle =>
      refine ⟨[], (List.append_nil _).symm, ⟨[], (List.append_nil _).symm⟩, id,
        fun _ => rfl, fun _ => ?_⟩
      change Reports _ _ _ (s.state.lives s.clock) (s.state.lives clock)
      rw [Lasting.lives hsteady]
      exact hsame
  | @cancelled task => exact hsteady.elim

theorem start_waiting (now : DateTime) (call : Call) :
    (∀ action, start now call = .lock action → action = .cull) ∧
      (start now call).pending = [] := by
  cases call with
  | cull =>
      refine ⟨fun action h => ?_, rfl⟩
      cases h
      rfl
  | putMany | compareAndSwap =>
      simp only [start]
      constructor
      · intro action h
        repeat' split at h
        all_goals cases h
      · repeat' split
        all_goals rfl
  | _ => exact ⟨fun action h => (by cases h), rfl⟩

theorem waiting_update {tasks : Nat → Phase} {P : Phase → Prop} {task : Nat}
    {phase : Phase} (h : ∀ task, P (tasks task)) (hphase : P phase) :
    ∀ task', P (Function.update tasks task phase task') := by
  intro task'
  by_cases htask : task' = task
  · rw [htask, Function.update_self]
    exact hphase
  · rw [Function.update_of_ne htask]
    exact h task'

theorem Tidy.step (h : Tidy s) (hsteady : Steady s label)
    (hstep : s.step config rng label = some s') : Tidy s' := by
  obtain ⟨added, hlogged⟩ := h.logged hsteady hstep
  have hbefore : s'.state.setupComplete = false →
      s.state.setupComplete = false := by
    intro hearly
    by_contra hcomplete
    rw [hlogged.setup (by simpa using hcomplete)] at hearly
    cases hearly
  suffices hkept : s'.state.setupComplete = false → Permanent s'.state ∧
      ∀ task, (∀ action, s'.tasks task = .lock action → action = .cull) ∧
        (s'.tasks task).pending = [] from
    ⟨h.exclusive.step hstep,
      (allowed_phases config rng true).step h.allowed
        (fun _ _ hlabel => by subst hlabel; exact hsteady) hstep,
      (matched_phases config rng).step h.matched (fun _ _ _ => trivial) hstep,
      fun hearly => (hkept hearly).1, fun hearly => (hkept hearly).2⟩
  intro hearly
  have hpermanent := h.permanent (hbefore hearly)
  have hwaiting := h.waiting (hbefore hearly)
  have hother : ∀ {task : Nat} {phase : Phase},
      ((∀ action, phase = .lock action → action = .cull) ∧
        phase.pending = []) → ∀ task',
      (∀ action, Function.update s.tasks task phase task' = .lock action →
        action = .cull) ∧
        (Function.update s.tasks task phase task').pending = [] :=
    fun hphase => waiting_update (P := fun phase : Phase =>
      (∀ action, phase = .lock action → action = .cull) ∧
        phase.pending = []) hwaiting hphase
  cases step_cases hstep with
  | @called task call _ => exact ⟨hpermanent, hother (start_waiting s.clock call)⟩
  | @entered task call order _ =>
      rcases enter_setup s.state call with hcomplete | ⟨_, hkept, error, hdone⟩
      · rw [hcomplete] at hearly
        cases hearly
      · exact ⟨hkept hpermanent, hother (by rw [hdone]; simp [Phase.pending])⟩
  | @performed task action order locked hphase _ hlocked =>
      subst hlocked
      obtain rfl := (hwaiting task).1 action hphase
      obtain ⟨events, hperformed⟩ :=
        perform_performed config s.clock order s.state .cull
      have hnone := cull_permanent hpermanent s.clock order
      have hevents := hperformed.mirrors trivial trivial
      simp only [perform] at hevents hperformed ⊢
      rw [hnone] at hevents ⊢
      refine ⟨hperformed.edits.permanent hpermanent ?_,
        hother ⟨by simp, rfl⟩⟩
      rcases hevents with hevents | ⟨_, name, key, _, rfl, _⟩
      · rw [List.map_eq_nil_iff.mp hevents.symm]
        simp
      · simp [Event.stored]
  | subscribing | replayed => exact ⟨hpermanent, hother ⟨by simp, rfl⟩⟩
  | @cleared task order hphase _ | @reset task order hphase =>
      have hdestroy := h.allowed task
      rw [hphase] at hdestroy
      cases hdestroy
  | @recorded task action mutation pending guards result order hphase =>
      have hnone := (hwaiting task).2
      rw [hphase] at hnone
      cases hnone
  | advanced _ => exact ⟨hpermanent, hwaiting⟩
  | @cancelled task => exact hsteady.elim

end Steps

end OpenKeyV.Memory
