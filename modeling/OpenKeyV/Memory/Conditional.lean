import OpenKeyV.Library.Tickets
import OpenKeyV.Memory.Tokens

/-!
# Conditional writes

`compare_and_swap` and `compare_and_delete` decide and act in one stretch
under the mutation lock.  While the source of tokens never repeats itself, a
token names one write: it is consumed at most once, and only while that write
is the last event of its key.
-/

namespace OpenKeyV.Memory

open OpenKeyV.Library

def Action.condition : Action → Option (String × String × Option Revision)
  | .compareAndSwap name key expected _ => some (name, key, expected)
  | .compareAndDelete name key expected => some (name, key, some expected)
  | _ => none

def Locked.succeeded (locked : Locked) : Bool :=
  match locked.result with
  | .ok (.swap (.applied _)) | .ok (.remove .deleted) => true
  | _ => false

def Locked.conflict (locked : Locked) : Option (Option RevisionedValue) :=
  match locked.result with
  | .ok (.swap (.conflict current)) | .ok (.remove (.conflict current)) =>
      some current
  | _ => none

section Stretch

variable {config : MemoryConfig} {now : DateTime} {order : Order}
  {s : MemoryState} {name key : String}

theorem live_removeEntry_expired {current : RevisionedEntry}
    (hcurrent : s.entry name key = some current)
    (hexpired : current.isExpired now = true) (name' key' : String) :
    (s.removeEntry name key none).live now name' key' =
      s.live now name' key' := by
  obtain ⟨col, hcol, -⟩ := Option.bind_eq_some_iff.mp hcurrent
  rw [MemoryState.live, entry_removeEntry hcol]
  split
  · rename_i hcell
    obtain ⟨rfl, rfl⟩ := Prod.mk.inj hcell
    rw [live_none_of_expired hcurrent hexpired]
    rfl
  · rfl

theorem perform_succeeded {action : Action} {expected : Option Revision}
    (hcondition : action.condition = some (name, key, expected))
    (hsucceeded : (perform config now order s action).succeeded = true) :
    (s.live now name key).map (·.revision) = expected ∧
      ∃ event, (perform config now order s action).state.events =
          s.events ++ [event] ∧
        event.cell = (name, key) ∧ event.consumed = expected ∧
        (expected = none → event.stored.isSome = true) := by
  cases action with
  | compareAndSwap name' key' expected' stored =>
      simp only [Action.condition, Option.some.injEq, Prod.mk.injEq] at hcondition
      obtain ⟨rfl, rfl, rfl⟩ := hcondition
      have hcases := compareAndSwap_cases now s name' key' expected' stored
      simp only [perform] at hsucceeded ⊢
      generalize compareAndSwap now name' s key' expected' stored = locked
        at hcases hsucceeded ⊢
      cases hcases with
      | missing _ | rejected _ _ | swept _ _ _ => cases hsucceeded
      | @created col hcol hlive hexpected =>
          subst hexpected
          exact ⟨by simp [hlive],
            .wrote name' key' stored (.created (s.entry name' key').isSome),
            by simp [MemoryState.insertEntry, hcol], rfl, rfl, fun _ => rfl⟩
      | @swapped col current hcol hcurrent hlive hexpected =>
          subst hexpected
          exact ⟨by simp [live_of_entry hcurrent hlive],
            .wrote name' key' stored (.swapped current.revision),
            by simp [MemoryState.insertEntry, hcol], rfl, rfl, fun _ => rfl⟩
  | compareAndDelete name' key' expected' =>
      simp only [Action.condition, Option.some.injEq, Prod.mk.injEq] at hcondition
      obtain ⟨rfl, rfl, rfl⟩ := hcondition
      have hcases := compareAndDelete_cases now s name' key' expected'
      simp only [perform] at hsucceeded ⊢
      generalize compareAndDelete now name' s key' expected' = locked
        at hcases hsucceeded ⊢
      cases hcases with
      | missing _ | rejected _ _ | swept _ _ => cases hsucceeded
      | @deleted col current hcol hcurrent hlive hexpected =>
          subst hexpected
          exact ⟨by simp [live_of_entry hcurrent hlive],
            .removed name' key' (some current.revision),
            by simp [MemoryState.removeEntry, hcol], rfl, rfl,
            fun h => by cases h⟩
  | _ => cases hcondition

theorem perform_conflict {action : Action} {expected : Option Revision}
    (hcondition : action.condition = some (name, key, expected))
    {current : Option RevisionedValue}
    (hconflict : (perform config now order s action).conflict = some current) :
    current = (s.live now name key).map (·.snapshot now) ∧
      ∀ name' key',
        (perform config now order s action).state.live now name' key' =
          s.live now name' key' := by
  cases action with
  | compareAndSwap name' key' expected' stored =>
      simp only [Action.condition, Option.some.injEq, Prod.mk.injEq] at hcondition
      obtain ⟨rfl, rfl, rfl⟩ := hcondition
      have hcases := compareAndSwap_cases now s name' key' expected' stored
      simp only [perform] at hconflict ⊢
      generalize compareAndSwap now name' s key' expected' stored = locked
        at hcases hconflict ⊢
      cases hcases with
      | missing _ | created _ _ _ | swapped _ _ _ _ => cases hconflict
      | rejected _ _ =>
          cases hconflict
          exact ⟨rfl, fun _ _ => rfl⟩
      | swept hcurrent hexpired _ =>
          cases hconflict
          exact ⟨by rw [live_none_of_expired hcurrent hexpired]; rfl,
            live_removeEntry_expired hcurrent hexpired⟩
  | compareAndDelete name' key' expected' =>
      simp only [Action.condition, Option.some.injEq, Prod.mk.injEq] at hcondition
      obtain ⟨rfl, rfl, rfl⟩ := hcondition
      have hcases := compareAndDelete_cases now s name' key' expected'
      simp only [perform] at hconflict ⊢
      generalize compareAndDelete now name' s key' expected' = locked
        at hcases hconflict ⊢
      cases hcases with
      | missing _ | deleted _ _ _ _ => cases hconflict
      | rejected _ _ =>
          cases hconflict
          exact ⟨rfl, fun _ _ => rfl⟩
      | swept hcurrent hexpired =>
          cases hconflict
          exact ⟨by rw [live_none_of_expired hcurrent hexpired]; rfl,
            live_removeEntry_expired hcurrent hexpired⟩
  | _ => cases hcondition

end Stretch

theorem Edits.consumesLatest {s s' : MemoryState} {events : List Event}
    (h : Edits s events s') (htraced : Traced s)
    (hs : ConsumesLatest Event.cell Event.written Event.consumed s.events) :
    ConsumesLatest Event.cell Event.written Event.consumed s'.events := by
  induction h with
  | refl => exact hs
  | touch _ _ hevents _ ih => rwa [hevents]
  | @event events s' s'' event hedits hallowed _ hevents _ ih =>
      rw [hevents]
      refine ih.concat fun token htoken => ?_
      have hfound : ∃ stored, s'.entry event.cell.1 event.cell.2 = some stored ∧
          stored.revision = token := by
        cases event with
        | wrote name key stored cause =>
            cases cause <;> cases htoken
            exact hallowed
        | removed name key expected =>
            cases expected <;> cases htoken
            exact hallowed
      obtain ⟨stored, hstored, hrevision⟩ := hfound
      rw [hedits.traced htraced] at hstored
      obtain ⟨write, hwrite, hleft⟩ := Option.bind_eq_some_iff.mp hstored
      exact ⟨write, hwrite, by simp [Event.written, hleft, hrevision]⟩

/-- The journal follows the contents, each token is consumed right after its
write, and tokens written or on their way are all different. -/
structure Linear (rng : Nat → Option Revision) (s : System) : Prop where
  traced : Traced s.state
  consumes : ConsumesLatest Event.cell Event.written Event.consumed
    s.state.events
  tickets : Tickets rng s.state.draws (s.state.events.filterMap Event.written)
    fun task => (s.tasks task).tokens

section Linear

variable {config : MemoryConfig} {rng : Nat → Option Revision}
  {s s' : System} {label : Label}

theorem linear_init (clock : DateTime) : Linear rng (.init clock) :=
  ⟨traced_empty, .nil, .init⟩

theorem Linear.coherent (h : Linear rng s) :
    Coherent Event.cell Event.written Event.consumed s.state.events :=
  ⟨h.tickets.written_nodup 0, h.consumes⟩

private theorem tokens_update (task : Nat) (phase : Phase) :
    (fun task' => (Function.update s.tasks task phase task').tokens) =
      Function.update (fun task' => (s.tasks task').tokens) task
        phase.tokens := by
  funext task'
  by_cases htask : task' = task
  · rw [htask, Function.update_self, Function.update_self]
  · rw [Function.update_of_ne htask, Function.update_of_ne htask]

private theorem Linear.wrote (h : Linear rng s) {state : MemoryState}
    {events : List Event} (hedits : Edits s.state events state) {task : Nat}
    (hsub : (events.filterMap Event.written).Sublist (s.tasks task).tokens)
    {clock : DateTime} {holder : Option Nat} {phase : Phase}
    (hphase : phase.tokens = []) :
    Linear rng ⟨state, clock, holder, Function.update s.tasks task phase⟩ := by
  refine ⟨hedits.traced h.traced, hedits.consumesLatest h.traced h.consumes, ?_⟩
  rw [tokens_update, hphase, hedits.events_eq, List.filterMap_append]
  exact h.tickets.spend hedits.quiet.2 task hsub

private theorem Linear.proceed (h : Linear rng s) {state : MemoryState}
    {events : List Event} (hedits : Edits s.state events state) {task : Nat}
    (hsub : (events.filterMap Event.written).Sublist (s.tasks task).tokens)
    (action : Action) (pending : List Mutation) (guards : List Guard)
    (result : Except Error Response) :
    Linear rng (System.proceed { s with state } task action pending guards
      result) := by
  cases pending <;> exact h.wrote hedits hsub rfl

theorem start_tokens (now : DateTime) (call : Call) :
    (start now call).tokens = [] := by
  cases call <;> simp only [start] <;> (try split) <;> (try split) <;> rfl

theorem Linear.step (h : Linear rng s)
    (hrng : ∀ m n token, rng m = some token → rng n = some token → m = n)
    (hstep : s.step config rng label = some s') : Linear rng s' := by
  have hidle : ∀ task, (([] : List Event).filterMap Event.written).Sublist
      (s.tasks task).tokens := fun _ => List.nil_sublist _
  cases step_cases hstep with
  | called _ => exact h.wrote .refl (hidle _) (start_tokens _ _)
  | @entered task call order hphase =>
      obtain ⟨events, hedits, hdrawn⟩ :=
        enter_loaded rng config s.clock order s.state call
      refine ⟨hedits.traced h.traced,
        hedits.consumesLatest h.traced h.consumes, ?_⟩
      simp only
      rw [tokens_update, hedits.events_eq, List.filterMap_append]
      exact h.tickets.draw hrng hdrawn.1 task hdrawn.2
  | @performed task action order locked hphase _ hlocked =>
      subst hlocked
      obtain ⟨events, hperformed⟩ :=
        perform_performed config s.clock order s.state action
      refine h.proceed hperformed.edits ?_ _ _ _ _
      rw [hphase]
      exact hperformed.tokens
  | cleared _ _ =>
      obtain ⟨events, hedits, hwritten⟩ := edits_clear s.state
      refine h.wrote hedits ?_ rfl
      rw [hwritten]
      exact List.nil_sublist _
  | @recorded task action mutation =>
      have hrecorded : Linear rng
          { s with state := s.state.recordChange s.clock mutation } :=
        ⟨h.traced, h.consumes, h.tickets⟩
      exact hrecorded.proceed .refl (hidle task) _ _ _ _
  | subscribing _ _ | replayed _ | cancelled => exact h.wrote .refl (hidle _) rfl
  | reset _ => exact h.wrote (edits_setupComplete _ _) (hidle _) rfl
  | advanced _ => exact ⟨h.traced, h.consumes, h.tickets⟩

end Linear

def Conditional (config : MemoryConfig) (s : System) (label : Label)
    (name key : String) (expected : Option Revision)
    (outcome : Locked → Prop) : Prop :=
  ∃ task order action, label = .resume task order ∧ s.holder = none ∧
    s.tasks task = .lock action ∧
    action.condition = some (name, key, expected) ∧
    outcome (perform config s.clock order s.state action)

def Succeeds (config : MemoryConfig) (s : System) (label : Label)
    (name key : String) (expected : Option Revision) : Prop :=
  Conditional config s label name key expected fun locked =>
    locked.succeeded = true

/-- A token is consumed while the write that it names is the live entry and
the last event of its key. -/
def ConsumesLiveWrite (config : MemoryConfig) (s : System) (label : Label) :
    Prop :=
  ∀ name key revision, Succeeds config s label name key (some revision) →
    ∃ before stored cause after,
      s.state.events = before ++ .wrote name key stored cause :: after ∧
      stored.revision = revision ∧
      (∀ event ∈ after, event.cell ≠ (name, key)) ∧
      (∀ event ∈ before ++ after, event.written ≠ some revision) ∧
      s.state.live s.clock name key = some stored

/-- A conflict changes no live entry and reports the one that it met. -/
def ConflictsHarmless (config : MemoryConfig) (rng : Nat → Option Revision)
    (s : System) (label : Label) : Prop :=
  ∀ name key expected current,
    Conditional config s label name key expected
      (fun locked => locked.conflict = some current) →
    current = (s.state.live s.clock name key).map (·.snapshot s.clock) ∧
      ∀ s', s.step config rng label = some s' → ∀ name' key',
        s'.state.live s'.clock name' key' = s.state.live s.clock name' key'

/-- No two successes along a run consume the same token. -/
def ConsumedOnce (config : MemoryConfig) (rng : Nat → Option Revision)
    (start : System) (labels : List Label) : Prop :=
  ∀ before label after x before' label' after' x' name key name' key' revision,
    labels = before ++ label :: after →
    labels = before' ++ label' :: after' →
    run (System.step config rng) start before = some x →
    run (System.step config rng) start before' = some x' →
    Succeeds config x label name key (some revision) →
    Succeeds config x' label' name' key' (some revision) →
    before.length = before'.length

/-- Between two creations of a key it was removed or its entry expired. -/
def CreatedApart (config : MemoryConfig) (rng : Nat → Option Revision)
    (start : System) (labels : List Label) : Prop :=
  ∀ before label between label' after x x' name key,
    labels = before ++ label :: between ++ label' :: after →
    run (System.step config rng) start before = some x →
    run (System.step config rng) start (before ++ label :: between) =
      some x' →
    Succeeds config x label name key none →
    Succeeds config x' label' name key none →
    (∃ expected, .removed name key expected ∈
        x'.state.events.drop x.state.events.length) ∨
      ∃ stored, x'.state.entry name key = some stored ∧
        stored.isExpired x'.clock = true

section Runs

variable {config : MemoryConfig} {rng : Nat → Option Revision}
  {s s' : System} {label : Label} {name key : String}
  {expected : Option Revision}

theorem Succeeds.event (h : Succeeds config s label name key expected)
    (hstep : s.step config rng label = some s') :
    (s.state.live s.clock name key).map (·.revision) = expected ∧
      ∃ event, s'.state.events = s.state.events ++ [event] ∧
        event.cell = (name, key) ∧ event.consumed = expected ∧
        (expected = none → event.stored.isSome = true) := by
  obtain ⟨task, order, action, rfl, hfree, hphase, hcondition, hsucceeded⟩ := h
  rw [step_lock config rng order hphase hfree] at hstep
  cases hstep
  rw [state_proceed]
  exact perform_succeeded hcondition hsucceeded

theorem Succeeds.live (h : Succeeds config s label name key expected) :
    (s.state.live s.clock name key).map (·.revision) = expected := by
  obtain ⟨task, order, action, rfl, hfree, hphase, hcondition, hsucceeded⟩ := h
  exact (perform_succeeded hcondition hsucceeded).1

theorem Linear.consumesLiveWrite (h : Linear rng s) :
    ConsumesLiveWrite config s label := by
  intro name key revision hsucceeds
  obtain ⟨stored, hlive, hrevision⟩ := Option.map_eq_some_iff.mp hsucceeds.live
  have hentry := (Option.filter_eq_some_iff.mp hlive).1
  rw [h.traced] at hentry
  obtain ⟨write, hlatest, hstored⟩ := Option.bind_eq_some_iff.mp hentry
  obtain ⟨before, after, hevents, hcell, hafter⟩ := latest_eq_some hlatest
  have hwritten : write.written = some revision := by
    simp [Event.written, hstored, hrevision]
  cases write with
  | removed => cases hstored
  | wrote name' key' stored' cause =>
      cases hstored
      obtain ⟨rfl, rfl⟩ := Prod.mk.inj (of_decide_eq_true hcell)
      refine ⟨before, stored, cause, after, hevents, hrevision,
        fun event hevent => of_decide_eq_false (hafter event hevent), ?_, hlive⟩
      intro event hevent hsame
      have hnodup := h.tickets.written_nodup 0
      rw [hevents, List.filterMap_append,
        List.filterMap_cons_some hwritten] at hnodup
      have hmiss : revision ∉ (before ++ after).filterMap Event.written := by
        rw [List.filterMap_append]
        exact (List.nodup_cons.mp (List.nodup_middle.mp hnodup)).1
      exact hmiss (List.mem_filterMap.mpr ⟨event, hevent, hsame⟩)

theorem conflictsHarmless : ConflictsHarmless config rng s label := by
  rintro name key expected current
    ⟨task, order, action, rfl, hfree, hphase, hcondition, hconflict⟩
  obtain ⟨hcurrent, hlive⟩ := perform_conflict hcondition hconflict
  refine ⟨hcurrent, fun s' hstep => ?_⟩
  rw [step_lock config rng order hphase hfree] at hstep
  cases hstep
  rw [state_proceed, clock_proceed]
  exact hlive

theorem consumedOnce {start : System} (hstart : Linear rng start)
    (hrng : ∀ m n token, rng m = some token → rng n = some token → m = n)
    (labels : List Label) : ConsumedOnce config rng start labels := by
  have hless : ∀ {before between : List Label} {label label' : Label}
      {x x' : System} {name key name' key' : String} {revision : Revision},
      run (System.step config rng) start before = some x →
      run (System.step config rng) start (before ++ label :: between) =
        some x' →
      Succeeds config x label name key (some revision) →
      Succeeds config x' label' name' key' (some revision) → False := by
    intro before between label label' x x' name key name' key' revision hx hx'
      hfirst hsecond
    have hlinear : Linear rng x' :=
      run_invariant (fun s a s' h _ hstep => h.step hrng hstep) hstart
        (along_true _ _) hx'
    obtain ⟨y, hy, hrun⟩ := run_append_eq_some.mp hx'
    obtain rfl : x = y := Option.some.inj (hx.symm.trans hy)
    obtain ⟨z, hz, hrun⟩ := run_cons_eq_some.mp hrun
    obtain ⟨-, event, hevent, -, hconsumed, -⟩ := hfirst.event hz
    obtain ⟨more, hmore⟩ := run_events hrun
    obtain ⟨task, order, action, rfl, hfree, hphase, -, -⟩ := id hsecond
    have hstep := step_lock config rng order hphase hfree
    obtain ⟨-, event', hevent', -, hconsumed', -⟩ := hsecond.event hstep
    have hnodup := (hlinear.step hrng hstep).coherent.consumed_nodup
    rw [hevent', hmore, hevent, List.filterMap_append, List.append_assoc,
      List.filterMap_append, List.singleton_append,
      List.filterMap_cons_some hconsumed,
      List.filterMap_cons_some hconsumed'] at hnodup
    have hapart := (List.nodup_append.mp hnodup).2.2 revision
      (by simp) revision (by simp)
    exact hapart rfl
  intro before label after x before' label' after' x' name key name' key'
    revision hlabels hlabels' hx hx' hfirst hsecond
  rw [hlabels] at hlabels'
  rcases List.append_eq_append_iff.mp hlabels' with
    ⟨mid, rfl, hmid⟩ | ⟨mid, rfl, hmid⟩
  · cases mid with
    | nil => simp
    | cons a mid =>
        obtain ⟨rfl, -⟩ := List.cons.inj hmid
        exact (hless hx hx' hfirst hsecond).elim
  · cases mid with
    | nil => simp
    | cons a mid =>
        obtain ⟨rfl, -⟩ := List.cons.inj hmid
        exact (hless hx' hx hsecond hfirst).elim

theorem createdApart {start : System} (hstart : Linear rng start)
    (hrng : ∀ m n token, rng m = some token → rng n = some token → m = n)
    (labels : List Label) : CreatedApart config rng start labels := by
  intro before label between label' after x x' name key _ hx hx' hfirst hsecond
  have hlinear : Linear rng x' :=
    run_invariant (fun s a s' h _ hstep => h.step hrng hstep) hstart
      (along_true _ _) hx'
  obtain ⟨y, hy, hrun⟩ := run_append_eq_some.mp hx'
  obtain rfl : x = y := Option.some.inj (hx.symm.trans hy)
  obtain ⟨z, hz, hrun⟩ := run_cons_eq_some.mp hrun
  obtain ⟨-, event, hevent, hcell, -, hstored⟩ := hfirst.event hz
  obtain ⟨more, hmore⟩ := run_events hrun
  have hvacant := Option.map_eq_none_iff.mp hsecond.live
  cases hentry : x'.state.entry name key with
  | some stored =>
      right
      refine ⟨stored, rfl, ?_⟩
      by_contra hlive
      rw [live_of_entry hentry (Bool.eq_false_iff.mpr hlive)] at hvacant
      cases hvacant
  | none =>
      left
      rw [hmore, hevent, List.append_assoc, List.drop_left]
      rw [hlinear.traced, hmore, hevent, latestOf_append, latestOf_concat,
        if_pos hcell] at hentry
      cases hlatest : latestOf Event.cell (name, key) more with
      | none =>
          rw [hlatest, Option.none_or] at hentry
          have hsome := hstored rfl
          rw [Option.bind_some] at hentry
          rw [hentry] at hsome
          cases hsome
      | some last =>
          rw [hlatest] at hentry
          obtain ⟨pre, post, rfl, hlast, -⟩ := latest_eq_some hlatest
          cases last with
          | wrote => cases hentry
          | removed name' key' removedBy =>
              obtain ⟨rfl, rfl⟩ := Prod.mk.inj (of_decide_eq_true hlast)
              exact ⟨removedBy, by simp⟩

/-- In every run, with a source that never repeats a token: each token is
consumed at most once, and only while the write that it names is live and the
last event of its key; two creations of a key are apart; and a conflict
changes no live entry and reports the one that it met. -/
theorem conditional_writes_linear
    (hrng : ∀ m n token, rng m = some token → rng n = some token → m = n)
    (clock : DateTime) (labels : List Label) :
    ConsumedOnce config rng (.init clock) labels ∧
      Along (System.step config rng) (ConsumesLiveWrite config) (.init clock)
        labels ∧
      CreatedApart config rng (.init clock) labels ∧
      Along (System.step config rng) (ConflictsHarmless config rng)
        (.init clock) labels :=
  ⟨consumedOnce (linear_init clock) hrng labels,
    along_of_invariant (fun _ _ _ h _ hstep => h.step hrng hstep)
      (fun _ _ h _ => h.consumesLiveWrite) (linear_init clock)
      (along_true _ _),
    createdApart (linear_init clock) hrng labels,
    (along_true _ _).mono fun _ _ _ => conflictsHarmless⟩

end Runs

theorem sampleSource_injective (m n : Nat) (token : Revision)
    (hm : sampleSource m = some token) (hn : sampleSource n = some token) :
    m = n := by
  obtain ⟨hlt, hfirst⟩ := Option.ite_none_right_eq_some.mp hm
  obtain ⟨hlt', hsecond⟩ := Option.ite_none_right_eq_some.mp hn
  have hbyte : (Revision.fill (UInt8.ofNat n)).bytes[0] =
      (Revision.fill (UInt8.ofNat m)).bytes[0] := by
    rw [Option.some.inj (hsecond.trans hfirst.symm)]
  have hnat := congrArg UInt8.toNat hbyte
  simp only [Revision.fill, Vector.getElem_replicate, UInt8.toNat_ofNat'] at hnat
  omega

def racingWrites : List Label :=
  [.call 0 (.compareAndSwap "k" none (.binary [1]) (some "c") none),
    .call 1 (.compareAndSwap "k" none (.binary [2]) (some "c") none),
    .resume 0 .stored, .resume 1 .stored, .resume 1 .stored, .resume 1 .stored,
    .resume 0 .stored,
    .call 2 (.compareAndSwap "k" (some (.fill 1)) (.binary [3]) (some "c") none),
    .call 3 (.compareAndDelete "k" (.fill 1) (some "c")),
    .resume 2 .stored, .resume 3 .stored, .resume 2 .stored, .resume 2 .stored,
    .resume 3 .stored]

theorem racing_writes_linear :
    ConsumedOnce unseeded sampleSource (.init .epoch) racingWrites ∧
      Along (System.step unseeded sampleSource) (ConsumesLiveWrite unseeded)
        (.init .epoch) racingWrites ∧
      CreatedApart unseeded sampleSource (.init .epoch) racingWrites ∧
      Along (System.step unseeded sampleSource)
        (ConflictsHarmless unseeded sampleSource) (.init .epoch) racingWrites :=
  conditional_writes_linear sampleSource_injective .epoch racingWrites

end OpenKeyV.Memory
