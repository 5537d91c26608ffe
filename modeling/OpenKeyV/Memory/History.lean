import OpenKeyV.Memory.Tokens

/-!
# The recorded history of a `MemoryStore`

An operation first changes the maps, then records its changes one await at a
time, holding the mutation lock.  The changes already recorded together with
those that the holder still has to record fold to the stored keys.  Two things
break this: a put whose collection has been destroyed under it, and a call
dropped before its last change is recorded.
-/

namespace OpenKeyV.Memory

open OpenKeyV.Library

def folded (history : List Mutation) : Finset (String × String) :=
  foldKeys Mutation.cell (fun mutation => decide (mutation.operation = .put))
    history

/-- What was last stored under a key, whether or not it is still there. -/
def MemoryState.lastWritten (s : MemoryState) (cell : String × String) :
    Option RevisionedEntry :=
  (latest (fun event => decide (event.cell = cell) && event.stored.isSome)
    s.events).bind Event.stored

def MemoryState.lapsed (s : MemoryState) (now : DateTime)
    (cell : String × String) : Bool :=
  (s.lastWritten cell).any fun stored => stored.isExpired now

/-- A history and the contents agree, but for keys whose entry has expired. -/
structure Agrees (now : DateTime) (s : MemoryState) (history : List Mutation) :
    Prop where
  recorded : ∀ name key, (s.entry name key).isSome = true →
    (name, key) ∈ folded history
  present : ∀ name key, (name, key) ∈ folded history →
    (s.entry name key).isSome = true ∨ s.lapsed now (name, key) = true

section Agrees

variable {now : DateTime} {s s' : MemoryState} {events : List Event}
  {history pending : List Mutation}

theorem agrees_empty : Agrees now .empty [] :=
  ⟨fun _ _ h => by simp [MemoryState.entry, MemoryState.collection,
      MemoryState.empty] at h,
    fun _ _ h => by simp [folded, foldKeys] at h⟩

theorem mem_folded_append {cell : String × String} :
    cell ∈ folded (history ++ pending) ↔
      ((latestOf Mutation.cell cell pending).or
        (latestOf Mutation.cell cell history)).any
          (fun mutation => decide (mutation.operation = .put)) = true := by
  rw [folded, mem_foldKeys, latestOf_append]

theorem lastWritten_of_entry (htraced : Traced s) {name key : String}
    {stored : RevisionedEntry} (h : s.entry name key = some stored) :
    s.lastWritten (name, key) = some stored := by
  rw [htraced] at h
  obtain ⟨event, hlatest, hstored⟩ := Option.bind_eq_some_iff.mp h
  rw [MemoryState.lastWritten, latest_and hlatest (by simp [hstored])]
  exact hstored

theorem lastWritten_append {cell : String × String}
    (hevents : s'.events = s.events ++ events)
    (hnone : ∀ event ∈ events, event.cell = cell → event.stored = none) :
    s'.lastWritten cell = s.lastWritten cell := by
  have hlatest : latest (fun event =>
      decide (event.cell = cell) && event.stored.isSome) events = none := by
    refine latest_eq_none.mpr fun event hevent => ?_
    by_cases hcell : event.cell = cell
    · simp [hnone event hevent hcell]
    · simp [hcell]
  rw [MemoryState.lastWritten, MemoryState.lastWritten, hevents, latest_append,
    hlatest, Option.none_or]

@[simp] theorem cell_mutation (event : Event) :
    event.mutation.cell = event.cell := by
  cases event <;> rfl

theorem operation_mutation (event : Event) :
    decide (event.mutation.operation = .put) = event.stored.isSome := by
  cases event <;> rfl

theorem latestOf_map_mutation (cell : String × String) :
    latestOf Mutation.cell cell (events.map Event.mutation) =
      (latestOf Event.cell cell events).map Event.mutation := by
  simp [latestOf, latest_map, Function.comp_def]

theorem Agrees.reported (h : Agrees now s history) (htraced : Traced s)
    (hedits : Edits s events s') :
    Agrees now s' (history ++ events.map Event.mutation) := by
  have hentry : ∀ name key, s'.entry name key =
      ((latestOf Event.cell (name, key) events).or
        (latestOf Event.cell (name, key) s.events)).bind Event.stored := by
    intro name key
    rw [hedits.traced htraced, hedits.events_eq, latestOf_append]
  refine ⟨fun name key hsome => ?_, fun name key hmem => ?_⟩
  · rw [mem_folded_append, latestOf_map_mutation]
    rw [hentry] at hsome
    cases hlatest : latestOf Event.cell (name, key) events with
    | some event =>
        rw [hlatest] at hsome
        simpa [operation_mutation] using hsome
    | none =>
        rw [hlatest, Option.none_or, ← htraced] at hsome
        have hold := h.recorded name key hsome
        rw [folded, mem_foldKeys] at hold
        simpa using hold
  · rw [mem_folded_append, latestOf_map_mutation] at hmem
    rw [hentry]
    cases hlatest : latestOf Event.cell (name, key) events with
    | some event =>
        rw [hlatest] at hmem
        exact .inl (by simpa [operation_mutation] using hmem)
    | none =>
        rw [hlatest] at hmem
        rw [Option.none_or, ← htraced]
        have hlast : s'.lastWritten (name, key) = s.lastWritten (name, key) :=
          lastWritten_append hedits.events_eq fun event hevent hcell => by
            have := latest_eq_none.mp hlatest event hevent
            simp [hcell] at this
        rw [MemoryState.lapsed, hlast]
        refine h.present name key ?_
        rw [folded, mem_foldKeys]
        simpa using hmem

theorem Agrees.silent (h : Agrees now s history) (htraced : Traced s)
    {name key : String} {stored : RevisionedEntry}
    (hedits : Edits s [.removed name key none] s')
    (hstored : s.entry name key = some stored)
    (hexpired : stored.isExpired now = true) : Agrees now s' history := by
  have hentry : ∀ name' key', s'.entry name' key' =
      if (name, key) = (name', key') then none else s.entry name' key' := by
    intro name' key'
    rw [hedits.traced htraced, hedits.events_eq, latestOf_concat]
    split <;> rename_i hcell
    · rw [if_pos (by exact hcell)]
      rfl
    · rw [if_neg (by exact hcell), ← htraced]
  have hlast : ∀ cell, s'.lastWritten cell = s.lastWritten cell := fun cell =>
    lastWritten_append hedits.events_eq (by simp [Event.stored])
  refine ⟨fun name' key' hsome => ?_, fun name' key' hmem => ?_⟩
  · rw [hentry] at hsome
    split at hsome
    · simp at hsome
    · exact h.recorded name' key' hsome
  · rw [hentry, MemoryState.lapsed, hlast]
    split
    · rename_i hcell
      obtain ⟨rfl, rfl⟩ := Prod.mk.inj hcell
      right
      simpa [lastWritten_of_entry htraced hstored] using hexpired
    · exact h.present name' key' hmem

theorem Agrees.mirrored (h : Agrees now s history) (htraced : Traced s)
    (hedits : Edits s events s') (hmirrors : Mirrors now s events pending) :
    Agrees now s' (history ++ pending) := by
  rcases hmirrors with rfl | ⟨rfl, name, key, stored, rfl, hstored, hexpired⟩
  · exact h.reported htraced hedits
  · rw [List.append_nil]
    exact h.silent htraced hedits hstored hexpired

theorem Agrees.untouched (h : Agrees now s history) (htraced : Traced s)
    (hedits : Edits s [] s') : Agrees now s' history := by
  simpa using h.reported htraced hedits

theorem Agrees.advance (h : Agrees now s history) {later : DateTime}
    (hle : now ≤ later) : Agrees later s history := by
  refine ⟨h.recorded, fun name key hmem => (h.present name key hmem).imp_right ?_⟩
  intro hlapsed
  obtain ⟨stored, hstored, hexpired⟩ := (Option.any_eq_true _ _).mp hlapsed
  exact (Option.any_eq_true _ _).mpr
    ⟨stored, hstored, ManagedEntry.isExpired_mono hle hexpired⟩

theorem Agrees.drop (h : Agrees now s (history ++ pending))
    (hput : ∀ cell ∈ folded (history ++ pending), cell ∈ folded history)
    (hdelete : ∀ cell ∈ folded history, cell ∈ folded (history ++ pending) ∨
      s.lapsed now cell = true) : Agrees now s history := by
  refine ⟨fun name key hsome => hput _ (h.recorded name key hsome), ?_⟩
  intro name key hmem
  rcases hdelete _ hmem with hmem | hlapsed
  · exact h.present name key hmem
  · exact .inr hlapsed

end Agrees

/-! ## Which calls are made -/

/-- Neither `destroy` nor, unless `collections` says so, `destroy_collection`
is called. -/
def Call.allowed (collections : Bool) : Call → Bool
  | .destroy => false
  | .destroyCollection _ => collections
  | _ => true

def Phase.allowed (collections : Bool) : Phase → Bool
  | .setup call => call.allowed collections
  | .lock (.destroyCollection _) => collections
  | .lockDestroy | .reset => false
  | _ => true

theorem allowed_phases (config : MemoryConfig) (rng : Nat → Option Revision)
    (collections : Bool) :
    PhaseInvariant config rng
      (fun call => call.allowed collections = true)
      (fun phase => phase.allowed collections = true) where
  idle := rfl
  done _ := rfl
  start now call h := by
    cases call <;> simp only [start] <;> (try split) <;> (try split) <;>
      first | rfl | exact h
  enter now order s call h := by
    unfold enter
    split
    · rfl
    · cases call <;> simp only [prepare] <;> (try split) <;> (try split) <;>
        first | rfl | exact h
  perform _ _ _ _ _ := rfl
  record _ _ _ _ _ _ := rfl
  replay _ _ := rfl
  reset h := h

/-! ## Batches -/

def Phase.Matched : Phase → Prop
  | .setup (.putMany keys values _ _) => keys.length = values.length
  | .lock action => action.Matched
  | _ => True

theorem length_of_mapM {α β : Type} {f : α → Except Error β} :
    ∀ {as : List α} {bs : List β}, as.mapM f = .ok bs → bs.length = as.length
  | [], bs, h => by
      cases h
      rfl
  | a :: as, bs, h => by
      rw [List.mapM_cons] at h
      cases ha : f a with
      | error error => simp [ha, bind, Except.bind] at h
      | ok b =>
          cases has : as.mapM f with
          | error error => simp [ha, has, bind, Except.bind] at h
          | ok bs' =>
              simp only [ha, has, bind, Except.bind, pure, Except.pure,
                Except.ok.injEq] at h
              subst h
              simp [length_of_mapM has]

theorem length_of_freshMany {rng : Nat → Option Revision} :
    ∀ {n : Nat} {s s' : MemoryState} {revisions : List Revision},
      freshMany rng n s = (.ok revisions, s') → revisions.length = n
  | 0, s, s', revisions, h => by
      cases h
      rfl
  | n + 1, s, s', revisions, h => by
      rw [freshMany] at h
      split at h
      · cases h
      · split at h
        · cases h
        · rename_i heq
          cases h
          simp [length_of_freshMany heq]

theorem matched_phases (config : MemoryConfig) (rng : Nat → Option Revision) :
    PhaseInvariant config rng (fun _ => True) Phase.Matched where
  idle := trivial
  done _ := trivial
  start now call _ := by
    cases call with
    | putMany keys values collection ttl =>
        simp only [start]
        split
        · trivial
        · rename_i hlength
          split
          · trivial
          · simpa [Phase.Matched] using hlength
    | _ => simp only [start]; (try split) <;> trivial
  enter now order s call h := by
    unfold enter
    split
    · trivial
    · cases call with
      | putMany keys values collection ttl =>
          simp only [prepare]
          split
          · trivial
          · rename_i entries hentries
            split
            · trivial
            · rename_i revisions _ hrevisions
              have hvalues := length_of_mapM hentries
              have hdraws := length_of_freshMany hrevisions
              simp only [Phase.Matched, Action.Matched,
                List.length_zipWith] at h ⊢
              omega
      | _ => simp only [prepare]; (try split) <;> (try split) <;> trivial
  perform _ _ _ _ _ := trivial
  record _ _ _ _ _ _ := trivial
  replay _ _ := trivial
  reset _ := trivial

/-! ## The invariant -/

def System.history (s : System) : List Mutation :=
  s.state.changes.sent.map changeMutation

def Phase.pending : Phase → List Mutation
  | .record _ pending _ _ => pending
  | _ => []

def System.pending (s : System) : List Mutation :=
  match s.holder with
  | some task => (s.tasks task).pending
  | none => []

structure Recorded (s : System) : Prop where
  exclusive : Exclusive s
  allowed : ∀ task, (s.tasks task).allowed true = true
  matched : ∀ task, (s.tasks task).Matched
  traced : Traced s.state
  agrees : Agrees s.clock s.state (s.history ++ s.pending)

/-- A put that gets the mutation lock finds its collection. -/
def PutGrounded (s : System) (label : Label) : Prop :=
  ∀ task ∈ label.resumed, s.holder = none →
    ∀ action ∈ (s.tasks task).locking, action.Grounded s.state

/-- Dropping the holder of the mutation lock loses no change that would alter
the folded history, but for keys whose entry has expired. -/
def DropHarmless (s : System) (label : Label) : Prop :=
  ∀ task ∈ label.cancelled, s.holder = some task →
    (∀ cell ∈ folded (s.history ++ s.pending), cell ∈ folded s.history) ∧
      ∀ cell ∈ folded s.history, cell ∈ folded (s.history ++ s.pending) ∨
        s.state.lapsed s.clock cell = true

instance (s : System) (label : Label) : Decidable (PutGrounded s label) := by
  unfold PutGrounded
  infer_instance

instance (s : System) (label : Label) : Decidable (DropHarmless s label) := by
  unfold DropHarmless
  infer_instance

section Recorded

variable {config : MemoryConfig} {rng : Nat → Option Revision}
  {s s' : System} {label : Label}

theorem recorded_init (clock : DateTime) : Recorded (.init clock) :=
  ⟨exclusive_init clock, fun _ => rfl, fun _ => trivial, traced_empty,
    agrees_empty⟩

theorem pending_of_free (h : s.holder = none) : s.pending = [] := by
  simp [System.pending, h]

theorem pending_update (hexclusive : Exclusive s) {task : Nat} (phase : Phase)
    (state : MemoryState) (hbefore : (s.tasks task).holds = false) :
    System.pending
        { s with state, tasks := Function.update s.tasks task phase } =
      s.pending := by
  unfold System.pending
  cases hholder : s.holder with
  | none => rfl
  | some holder =>
      have hne : holder ≠ task := by
        rintro rfl
        rw [(hexclusive holder).mpr hholder] at hbefore
        cases hbefore
      simp only [Function.update_of_ne hne]

theorem pending_hold (task : Nat) (phase : Phase) :
    System.pending
        { s with
          holder := some task
          tasks := Function.update s.tasks task phase } = phase.pending := by
  simp [System.pending]

theorem pending_proceed (task : Nat) (action : Action)
    (pending : List Mutation) (guards : List Guard)
    (result : Except Error Response) :
    (s.proceed task action pending guards result).pending = pending := by
  cases pending with
  | nil => rfl
  | cons mutation pending => exact pending_hold task _

theorem history_proceed (task : Nat) (action : Action)
    (pending : List Mutation) (guards : List Guard)
    (result : Except Error Response) :
    (s.proceed task action pending guards result).history = s.history := by
  cases pending <;> rfl

theorem pending_of_phase (hexclusive : Exclusive s) {task : Nat}
    {phase : Phase} (hphase : s.tasks task = phase)
    (hholds : phase.holds = true) : s.pending = phase.pending := by
  have hholder := (hexclusive task).mp (hphase ▸ hholds)
  simp [System.pending, hholder, hphase]

theorem history_recordChange (now : DateTime) (mutation : Mutation) :
    System.history { s with state := s.state.recordChange now mutation } =
      s.history ++ [mutation] := by
  simp [System.history, MemoryState.recordChange,
    MemoryChangeState.recordChange, changeMutation]

theorem history_of_quiet {state : MemoryState} {tasks : Nat → Phase}
    (h : Quiet s.state state) :
    System.history { s with state, tasks } = s.history := by
  simp [System.history, h.1]

theorem Recorded.step (h : Recorded s) (hseed : config.seed = none)
    (hcalls : ∀ task call, label = .call task call → call.allowed true = true)
    (hputs : PutGrounded s label) (hdrops : DropHarmless s label)
    (hstep : s.step config rng label = some s') : Recorded s' := by
  have hallowed := (allowed_phases config rng true).step h.allowed hcalls hstep
  have hmatched := (matched_phases config rng).step h.matched
    (fun _ _ _ => trivial) hstep
  suffices hkept : Traced s'.state ∧
      Agrees s'.clock s'.state (s'.history ++ s'.pending) from
    ⟨h.exclusive.step hstep, hallowed, hmatched, hkept.1, hkept.2⟩
  have hagrees := h.agrees
  cases step_cases hstep with
  | called hphase =>
      refine ⟨h.traced, ?_⟩
      rw [pending_update h.exclusive _ s.state]
      · exact hagrees
      · rcases hphase with hphase | ⟨result, hphase⟩ <;> rw [hphase] <;> rfl
  | @entered task call order hphase =>
      have hedits := edits_enter_unseeded rng s.clock order hseed s.state call
      refine ⟨hedits.traced h.traced, ?_⟩
      rw [pending_update h.exclusive _ _ (by rw [hphase]; rfl),
        history_of_quiet hedits.quiet]
      exact hagrees.untouched h.traced hedits
  | @performed task action order locked hphase hfree hlocked =>
      subst hlocked
      obtain ⟨events, hperformed⟩ :=
        perform_performed config s.clock order s.state action
      rw [pending_of_free hfree, List.append_nil] at hagrees
      rw [pending_proceed, history_proceed, state_proceed, clock_proceed]
      refine ⟨hperformed.edits.traced h.traced, ?_⟩
      rw [history_of_quiet hperformed.edits.quiet]
      have htask := h.matched task
      rw [hphase] at htask
      exact hagrees.mirrored h.traced hperformed.edits (hperformed.mirrors
        (hputs task rfl hfree action (by simp [hphase, Phase.locking])) htask)
  | @subscribing task request order hphase hfree =>
      rw [pending_of_free hfree] at hagrees
      refine ⟨h.traced, ?_⟩
      rw [pending_hold]
      exact hagrees
  | @cleared task order hphase _ =>
      have hdestroy := h.allowed task
      rw [hphase] at hdestroy
      cases hdestroy
  | @recorded task action mutation pending guards result order hphase =>
      rw [pending_proceed, history_proceed, state_proceed, clock_proceed,
        history_recordChange]
      rw [pending_of_phase h.exclusive hphase rfl] at hagrees
      refine ⟨h.traced, ?_⟩
      rw [List.append_assoc]
      exact ⟨hagrees.recorded, hagrees.present⟩
  | @replayed task request order hphase =>
      rw [pending_of_phase h.exclusive hphase rfl] at hagrees
      exact ⟨h.traced, hagrees⟩
  | @reset task order hphase =>
      have hdestroy := h.allowed task
      rw [hphase] at hdestroy
      cases hdestroy
  | advanced hle => exact ⟨h.traced, hagrees.advance hle⟩
  | @cancelled task =>
      refine ⟨h.traced, ?_⟩
      cases hholds : (s.tasks task).holds with
      | true =>
          obtain ⟨hput, hdelete⟩ :=
            hdrops task rfl ((h.exclusive task).mp hholds)
          rw [pending_of_free rfl, List.append_nil]
          exact hagrees.drop hput hdelete
      | false =>
          have hpending := pending_update h.exclusive .idle s.state hholds
          simp only [Bool.false_eq_true, if_false]
          rw [hpending]
          exact hagrees

end Recorded

/-! ## Puts and destroyed collections -/

/-- The folded history yields the live keys, and no key that never was. -/
structure HistoryAgrees (s : System) : Prop where
  live_recorded : ∀ name key, (s.state.live s.clock name key).isSome = true →
    (name, key) ∈ folded s.history
  recorded_present : ∀ name key, (name, key) ∈ folded s.history →
    (s.state.entry name key).isSome = true ∨
      s.state.lapsed s.clock (name, key) = true

/-- A put on the way from `s` to `t` with no later write, removal or expiry of
its key is read in `t`. -/
def PutsReadable (config : MemoryConfig) (rng : Nat → Option Revision)
    (s : System) (labels : List Label) (t : System) : Prop :=
  ∀ before task order after x name key stored,
    labels = before ++ .resume task order :: after →
    run (System.step config rng) s before = some x → x.holder = none →
    x.tasks task = .lock (.put name key stored) →
    (∀ event ∈ t.state.events.drop (x.state.events.length + 1),
      event.cell ≠ (name, key)) →
    stored.isExpired t.clock = false →
    get t.clock name t.state key = .ok (.value (some stored.entry.value))

def Label.allowed (collections : Bool) : Label → Bool
  | .call _ made => made.allowed collections
  | _ => true

section Puts

variable {config : MemoryConfig} {rng : Nat → Option Revision}
  {s s' t : System} {clock : DateTime} {labels : List Label}

theorem get_of_entry {now : DateTime} {s : MemoryState} {name key : String}
    {stored : RevisionedEntry} (h : s.entry name key = some stored)
    (hlive : stored.isExpired now = false) :
    get now name s key = .ok (.value (some stored.entry.value)) := by
  obtain ⟨col, hcol, hlookup⟩ := Option.bind_eq_some_iff.mp h
  simp [get, getCollection, hcol, liveIn, hlookup, hlive, bind, Except.bind,
    pure, Except.pure]

theorem recorded_run (hseed : config.seed = none)
    (hcalls : ∀ label ∈ labels, label.allowed true = true)
    (hputs : Along (System.step config rng) PutGrounded (.init clock) labels)
    (hdrops : Along (System.step config rng) DropHarmless (.init clock) labels)
    (hrun : run (System.step config rng) (.init clock) labels = some t) :
    Recorded t := by
  have hallowed : Along (System.step config rng)
      (fun _ label => label.allowed true = true) (.init clock) labels :=
    along_of_at_step fun as a bs _ heq _ => hcalls a (by simp [heq])
  refine run_invariant (fun s label s' h hcond hstep => ?_)
    (recorded_init clock) ((hallowed.and hputs).and hdrops) hrun
  obtain ⟨⟨hcall, hput⟩, hdrop⟩ := hcond
  refine h.step hseed (fun task call heq => ?_) hput hdrop hstep
  subst heq
  exact hcall

theorem putsReadable_of_recorded
    (hputs : Along (System.step config rng) PutGrounded s labels)
    (hrun : run (System.step config rng) s labels = some t)
    (htraced : Traced t.state) : PutsReadable config rng s labels t := by
  intro before task order after x name key stored hlabels hbefore hfree htask
    hlast hlive
  subst hlabels
  obtain ⟨x', hx, hafter⟩ := run_append_eq_some.mp hrun
  obtain rfl : x = x' := Option.some.inj (hbefore.symm.trans hx)
  obtain ⟨y, hstep, hafter⟩ := run_cons_eq_some.mp hafter
  have hgrounded := hputs.at_step hbefore task rfl hfree
    (.put name key stored) (by simp [htask, Phase.locking])
  obtain ⟨evicted, hedits, -⟩ :=
    edits_put config x.clock order key hgrounded stored
  have hwrote : y.state.events = x.state.events ++
      .wrote name key stored .plain :: removals name evicted := by
    simp only [System.step, System.resume, htask, hfree,
      Option.some.injEq] at hstep
    rw [← hstep, state_proceed]
    exact hedits.events_eq
  obtain ⟨more, hmore⟩ := run_events hafter
  rw [hwrote, List.append_assoc, List.cons_append] at hmore
  refine get_of_entry ?_ hlive
  rw [hmore, List.drop_length_add_append, List.drop_one, List.tail_cons] at hlast
  have hnone : latestOf Event.cell (name, key)
      (removals name evicted ++ more) = none :=
    latest_eq_none.mpr fun event hevent => by simp [hlast event hevent]
  rw [htraced, hmore, ← List.singleton_append, latestOf_append, latestOf_append,
    hnone]
  simp [latestOf, latest, Event.cell, Event.stored]

/-- In every run without drops on an unseeded store in which each put finds
its collection when it gets the mutation lock, the history agrees with the
contents whenever the lock is free, and an undisturbed put is readable. -/
theorem history_agrees_when_puts_grounded (hseed : config.seed = none)
    (hcalls : ∀ label ∈ labels, label.allowed true = true)
    (hundropped : ∀ label ∈ labels, label.cancelled = none)
    (hputs : Along (System.step config rng) PutGrounded (.init clock) labels)
    (hrun : run (System.step config rng) (.init clock) labels = some t)
    (hfree : t.holder = none) :
    HistoryAgrees t ∧ PutsReadable config rng (.init clock) labels t := by
  have hdrops : Along (System.step config rng) DropHarmless (.init clock)
      labels := along_of_at_step fun as a bs x heq _ task htask => by
    rw [hundropped a (by simp [heq])] at htask
    cases htask
  have h := recorded_run hseed hcalls hputs hdrops hrun
  have hagrees := h.agrees
  rw [pending_of_free hfree, List.append_nil] at hagrees
  refine ⟨⟨fun name key hlive => ?_, hagrees.present⟩,
    putsReadable_of_recorded hputs hrun h.traced⟩
  obtain ⟨stored, hstored⟩ := Option.isSome_iff_exists.mp hlive
  exact hagrees.recorded name key
    (by rw [(Option.filter_eq_some_iff.mp hstored).1]; rfl)

end Puts

def overtakenPut : List Label :=
  [.call 0 (.put "k" (.binary [1]) (some "c") none), .resume 0 .stored,
    .resume 0 .stored, .resume 0 .stored,
    .call 0 (.put "k" (.binary [2]) (some "c") none), .resume 0 .stored,
    .call 1 (.delete "k" (some "c")), .resume 1 .stored, .resume 1 .stored,
    .call 2 .cull, .resume 1 .stored, .resume 0 .stored, .resume 0 .stored,
    .resume 2 .stored]

theorem history_agrees_after_overtaken_put :
    HistoryAgrees (sampleEnd unseeded overtakenPut) ∧
      PutsReadable unseeded sampleSource (.init .epoch) overtakenPut
        (sampleEnd unseeded overtakenPut) :=
  history_agrees_when_puts_grounded rfl (by decide) (by decide)
    (by decide +kernel) (sampleRun_eq (by decide +kernel)) (by decide +kernel)

def destroyedUnderPut : List Label :=
  [.call 0 (.put "k" (.binary [1]) (some "c") none), .resume 0 .stored,
    .call 1 (.destroyCollection "c"), .resume 1 .stored, .resume 1 .stored,
    .resume 0 .stored, .resume 0 .stored]

/-- The put then returns `Ok` and records a change, but stores nothing. -/
theorem put_into_destroyed_collection_stores_nothing :
    ¬ ∀ (labels : List Label) (t : System),
      (∀ label ∈ labels, label.allowed true = true) →
      (∀ label ∈ labels, label.cancelled = none) →
      sampleRun unseeded labels = some t → t.holder = none →
      HistoryAgrees t := by
  intro h
  have hagrees := h destroyedUnderPut (sampleEnd unseeded destroyedUnderPut)
    (by decide) (by decide) (sampleRun_eq (by decide +kernel))
    (by decide +kernel)
  have hpresent := hagrees.recorded_present "c" "k" (by decide +kernel)
  revert hpresent
  decide +kernel

end OpenKeyV.Memory
