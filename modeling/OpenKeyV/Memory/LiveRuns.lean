import OpenKeyV.Memory.Capacity
import OpenKeyV.Memory.Convergence

/-!
# Runs of a live migration

Each step of the migration keeps the target following the log of the source,
so that a run converges: after the last change has been applied nothing is
left that the target would not have.
-/

namespace OpenKeyV.Memory

open OpenKeyV.Library

section Steps

variable {options : MigrationOptions} {source : System}
  {target target' : MemoryState} {stream : MemoryChangeStream}
  {config targetConfig : MemoryConfig}
  {rng targetRng : Nat → Option Revision} {order targetOrder : Order}

/-! ## The copy -/

theorem Migrating.copy_step {phase : CopyPhase} {report : MigrationReport}
    {copy : Copy MemoryState} (hseed : targetConfig.seed = none)
    (h : Migrating options source target (.copying stream phase report))
    (hpages : ∀ entry ∈ source.state.collections.entries,
      entry.2.size ≤ pageLimit)
    (hlist : (Stage.copying stream phase report).isListing = true →
      source.state.collections.size ≤ pageLimit)
    (hroom : ∀ call ∈ (Stage.copying stream phase report).putCall,
      evictions targetConfig targetRng source.clock targetOrder call target =
        [])
    (hstep : Copy.step config rng options
      (memoryTarget targetConfig targetRng source.clock targetOrder)
      ⟨source.state, target, phase, report⟩ (source.clock, order) =
        some copy) :
    Migrating options { source with state := copy.source } copy.target
      (.ofCopy stream copy.report copy.phase) := by
  cases h with
  | opening hheard hblank =>
      simp only [Copy.step] at hstep
      cases hsetup : setup config rng source.clock order source.state with
      | mk result state =>
          rw [hsetup] at hstep
          cases result with
          | error error =>
              cases hstep
              exact .failed
          | ok _ =>
              cases hstep
              exact .opened hheard hblank hsetup
  | listing hheard hblank hcomplete =>
      have hcopies := step_copies hcomplete (by simp) hstep
      cases hcopies
      exact .listed hheard hblank hcomplete (hlist rfl)
  | copying hheard hcomplete habreast hhand =>
      have hopen : phase ≠ .opening := by
        rintro rfl
        exact hhand
      exact .copied hseed hheard hcomplete habreast hhand hpages hroom
        (step_copies hcomplete hopen hstep)

/-! ## The subscription -/

theorem Migrating.subscribed (hblank : Blank target)
    (hfree : source.holder = none) :
    Migrating options source target (.copying
      ⟨[], source.state.changes.sent.length, .default⟩ .opening .zero) := by
  have hunheard : unheard source
      ⟨[], source.state.changes.sent.length, .default⟩ = [] := by
    refine List.drop_eq_nil_iff.mpr ?_
    simp [System.log, System.history, pending_of_free hfree]
  refine .opening ⟨rfl, rfl, ?_, fun _ => hunheard, ?_⟩ hblank
  · simp [System.history]
  · rw [hunheard]
    exact fun _ _ hlatest => by cases hlatest

theorem unheard_next {change : StoreChange}
    (h : source.state.changes.sent[stream.receiver]? = some change) :
    unheard source stream = changeMutation change ::
      unheard source { stream with receiver := stream.receiver + 1 } := by
  have hlog : source.log[stream.receiver]? = some (changeMutation change) := by
    have hhistory : source.history[stream.receiver]? =
        some (changeMutation change) := by
      simp [System.history, h]
    rw [System.log, List.getElem?_append_left, hhistory]
    exact (List.getElem?_eq_some_iff.mp hhistory).1
  obtain ⟨hlt, heq⟩ := List.getElem?_eq_some_iff.mp hlog
  unfold unheard
  rw [List.drop_eq_getElem_cons hlt, heq]

theorem Migrating.received {change : StoreChange} {report : MigrationReport}
    (h : Migrating options source target (.awaiting stream report))
    (hnext : source.state.changes.sent[stream.receiver]? = some change) :
    Migrating options source target (.applying
      { stream with receiver := stream.receiver + 1 } change report) := by
  cases h with
  | awaiting hheard hcomplete habreast =>
      have hunheard := unheard_next hnext
      refine .applying ⟨hheard.replay, hheard.filter, ?_, ?_, ?_⟩ hcomplete ?_
      · have hlt := (List.getElem?_eq_some_iff.mp hnext).1
        simpa [System.history] using Nat.succ_le_of_lt hlt
      · intro hearly
        rw [hcomplete] at hearly
        cases hearly
      · exact hunheard ▸ hheard.reported
      · exact hunheard ▸ habreast

theorem Heard.poll_cases {changes : List Mutation} {lag : Option Nat}
    {polled : MemoryChangeStream × Option (Delivery StoreChange)}
    (h : Heard options source stream changes)
    (hpoll : stream.poll source.state.changes.sent lag = some polled) :
    (∃ change, source.state.changes.sent[stream.receiver]? = some change ∧
        polled = ({ stream with receiver := stream.receiver + 1 },
          some (.item change))) ∨
      ∃ stream' skipped, polled = (stream', some (.lagged skipped)) := by
  unfold MemoryChangeStream.poll at hpoll
  rw [h.replay] at hpoll
  cases lag with
  | none =>
      obtain ⟨change, hnext, rfl⟩ := Option.map_eq_some_iff.mp hpoll
      have haccepts : stream.filter.accepts change = true := by
        rw [h.filter]
        rfl
      refine .inl ⟨change, hnext, ?_⟩
      simp only [if_pos haccepts, h.replay]
  | some skipped =>
      simp only at hpoll
      split at hpoll
      · cases hpoll
        exact .inr ⟨_, skipped, rfl⟩
      · cases hpoll

/-! ## Applying a change -/

section Apply

variable {change : StoreChange} {name : String}

theorem Migrating.applied {report : MigrationReport}
    (hheard : Heard options source stream
      (changeMutation change :: unheard source stream))
    (hcomplete : source.state.setupComplete = true)
    (habreast : Abreast options source target
      (changeMutation change :: unheard source stream) fun _ => False)
    (hother : ∀ cell, cell ≠ (change.collection, change.key) →
      targetView options target' source.clock cell =
        targetView options target source.clock cell)
    (hdone : latestOf Mutation.cell (change.collection, change.key)
        (unheard source stream) = none →
      targetView options target' source.clock
          (change.collection, change.key) =
        sourceView options source.state source.clock
          (change.collection, change.key)) :
    Migrating options source target' (.awaiting stream report) :=
  .awaiting
    ⟨hheard.replay, hheard.filter, hheard.receiver,
      fun hearly => Bool.noConfusion (hcomplete.symm.trans hearly),
      hheard.reported.tail⟩
    hcomplete (habreast.pop hother hdone)

theorem Migrating.removed {report : MigrationReport}
    (hheard : Heard options source stream
      (changeMutation change :: unheard source stream))
    (hcomplete : source.state.setupComplete = true)
    (habreast : Abreast options source target
      (changeMutation change :: unheard source stream) fun _ => False)
    (hroute : route options change.collection = some name)
    (hstored : ∀ name' key', target'.entry name' key' =
      if (name, change.key) = (name', key') then none
      else target.entry name' key')
    (hgone : latestOf Mutation.cell (change.collection, change.key)
        (unheard source stream) = none →
      sourceView options source.state source.clock
        (change.collection, change.key) = none) :
    Migrating options source target' (.awaiting stream report) := by
  refine .applied hheard hcomplete habreast (fun cell hne => ?_) fun hnone => ?_
  · refine targetView_congr fun name' hroute' => ?_
    rw [hstored, if_neg (target_ne hroute hne name' hroute')]
  · rw [hgone hnone]
    exact targetView_absent hroute ((hstored name change.key).trans (if_pos rfl))

theorem Migrating.replaced {report : MigrationReport} {value : Value}
    {ttl : Option F64} {entry : ManagedEntry} {revision : Revision}
    (hheard : Heard options source stream
      (changeMutation change :: unheard source stream))
    (hcomplete : source.state.setupComplete = true)
    (habreast : Abreast options source target
      (changeMutation change :: unheard source stream) fun _ => False)
    (hroute : route options change.collection = some name)
    (hshown : Shown options source (unheard source stream) change.collection
      (change.key, some (value, ttl)))
    (hentry : ManagedEntry.ofTtl source.clock value ttl = .ok entry)
    (hstored : ∀ name' key', target'.entry name' key' =
      if (name, change.key) = (name', key') then some ⟨entry, revision⟩
      else target.entry name' key') :
    Migrating options source target' (.awaiting stream report) := by
  refine .applied hheard hcomplete habreast (fun cell hne => ?_) fun hnone => ?_
  · refine targetView_congr fun name' hroute' => ?_
    rw [hstored, if_neg (target_ne hroute hne name' hroute')]
  · obtain ⟨read, hread⟩ := hshown hnone
    exact targetView_written hroute hread hentry
      ((hstored name change.key).trans (if_pos rfl))

end Apply

end Steps

/-! ## Runs -/

structure LiveState.Sound (options : MigrationOptions) (s : LiveState) :
    Prop where
  tidy : Tidy s.source
  migrating : Migrating options s.source s.target s.stage

section Runs

variable {options : MigrationOptions} {s s' : LiveState}
  {config targetConfig : MemoryConfig}
  {rng targetRng : Nat → Option Revision} {order targetOrder : Order}
  {lag : Option Nat}

theorem Tidy.touched {source : System} (h : Tidy source) {state : MemoryState}
    (hkept : state.setupComplete = false →
      source.state.setupComplete = false ∧ Permanent state) :
    Tidy { source with state } where
  exclusive := h.exclusive
  allowed := h.allowed
  matched := h.matched
  permanent := fun hearly => (hkept hearly).2
  waiting := fun hearly => h.waiting (hkept hearly).1

theorem steady_of_undisturbed {label : Label}
    (h : Undisturbed s (.source label)) : Steady s.source label := by
  cases label with
  | advance clock => exact h.2.1
  | call | resume | cancel => exact h.2

theorem lasting_of_undisturbed {label : Label} {source : System}
    (h : Undisturbed s (.source label))
    (hstep : s.source.step config rng label = some source) :
    Lasting s.target s.source.clock source.clock := by
  cases step_cases hstep with
  | advanced _ => exact h.2.2
  | performed | recorded =>
      rw [clock_proceed]
      exact fun _ _ => rfl
  | _ => exact fun _ _ => rfl

theorem LiveState.Sound.source {label : Label} {source : System}
    (h : s.Sound options) (hundisturbed : Undisturbed s (.source label))
    (hstep : s.source.step config rng label = some source) :
    LiveState.Sound options { s with source } := by
  have hsteady := steady_of_undisturbed hundisturbed
  obtain ⟨added, hlogged⟩ := h.tidy.logged hsteady hstep
  exact ⟨h.tidy.step hsteady hstep,
    h.migrating.logged hlogged (lasting_of_undisturbed hundisturbed hstep)⟩

theorem Tidy.copy_step {source : System} (h : Tidy source)
    {target : Target MemoryState} {t : MemoryState} {phase : CopyPhase}
    {report : MigrationReport} {copy : Copy MemoryState}
    (hready : phase = .opening ∨ source.state.setupComplete = true)
    (hstep : Copy.step config rng options target
      ⟨source.state, t, phase, report⟩ (source.clock, order) = some copy) :
    Tidy { source with state := copy.source } := by
  apply h.touched
  intro hearly
  by_cases hphase : phase = .opening
  · subst hphase
    simp only [Copy.step] at hstep
    have hpermanent := fun hbefore => setup_permanent config rng source.clock
      order (h.permanent hbefore)
    have hbefore : source.state.setupComplete = false := by
      cases hcomplete : source.state.setupComplete with
      | false => rfl
      | true =>
          rw [setup_complete hcomplete] at hstep
          cases hstep
          rw [hcomplete] at hearly
          cases hearly
    cases hsetup : setup config rng source.clock order source.state with
    | mk result state =>
        rw [hsetup] at hstep hpermanent
        cases result <;> cases hstep <;> exact ⟨hbefore, hpermanent hbefore⟩
  · have hcomplete := hready.resolve_left hphase
    have hcopies := step_copies hcomplete hphase hstep
    have hkept : copy.source.setupComplete = true := by
      cases hcopies with
      | enumerated | readTtls | readValues =>
          exact (setupComplete_ensureCollection source.state _).trans hcomplete
      | _ => exact hcomplete
    rw [hkept] at hearly
    cases hearly

theorem LiveState.Sound.wrote {reply : Except Error Unit × MemoryState}
    {next : Stage} (htidy : Tidy s.source)
    (hnext : ∀ t, reply = (.ok (), t) → Migrating options s.source t next) :
    (s.wrote reply next).Sound options := by
  obtain ⟨result, t⟩ := reply
  cases result with
  | error error => exact ⟨htidy, .failed⟩
  | ok _ => exact ⟨htidy, hnext t rfl⟩

variable (options config rng order) in
theorem shown_read {source : System} (change : StoreChange)
    (changes : List Mutation) (hcomplete : source.state.setupComplete = true) :
    ∃ response,
      readCall config rng source.clock order
          (if options.preserveTtl then
            .ttl change.key (some change.collection)
          else .get change.key (some change.collection)) source.state =
        (.ok response, source.state.ensureCollection change.collection) ∧
      Shown options source changes change.collection (change.key,
        if options.preserveTtl then response.remaining
        else response.single.map fun value => (value, none)) := by
  cases hpreserve : options.preserveTtl with
  | true =>
      refine ⟨_, readCall_ttl source.clock order hcomplete change.key
        change.collection, fun _ => ⟨source.clock, ?_⟩⟩
      simp [Response.remaining, shows, hpreserve, MemoryState.lives]
  | false =>
      refine ⟨_, readCall_get source.clock order hcomplete change.key
        change.collection, fun _ => ⟨source.clock, ?_⟩⟩
      simp [Response.single, shows, hpreserve, MemoryState.lives,
        Function.comp_def]

theorem LiveState.Sound.apply {stream : MemoryChangeStream}
    {change : StoreChange} {report : MigrationReport}
    (hseed : targetConfig.seed = none) (h : s.Sound options)
    (hstage : s.stage = .applying stream change report) :
    (s.apply config rng options order
      (memoryTarget targetConfig targetRng s.source.clock targetOrder) stream
      change report).Sound options := by
  obtain ⟨htidy, hmigrating⟩ := h
  rw [hstage] at hmigrating
  cases hmigrating with
  | applying hheard hcomplete habreast =>
      have hpassed : route options change.collection = none →
          ∀ report, Migrating options s.source s.target
            (.awaiting stream report) := by
        intro hroute report
        refine .applied hheard hcomplete habreast (fun _ _ => rfl) fun _ => ?_
        rw [targetView_unrouted hroute, sourceView_unrouted hroute]
      unfold LiveState.apply
      cases hselected : options.selected change.collection with
      | false =>
          exact ⟨htidy, hpassed (route_eq_none (by simp [hselected])) _⟩
      | true =>
          simp only [if_true]
          cases hmapped : options.targetCollection change.collection with
          | none => exact ⟨htidy, hpassed (route_eq_none fun _ => hmapped) _⟩
          | some name =>
              have hroute := route_eq_some.mpr ⟨hselected, hmapped⟩
              simp only
              cases hoperation : change.operation with
              | delete =>
                  refine .wrote htidy fun t hdelete => ?_
                  refine .removed hheard hcomplete habreast hroute
                    (delete_target hseed hdelete) fun hnone => ?_
                  refine hheard.reported.head ?_ hnone
                  simp [erasure, changeMutation, hoperation]
              | put =>
                  obtain ⟨response, hread, hshown⟩ := shown_read
                    options config rng order change (unheard s.source stream)
                    hcomplete
                  simp only [hread]
                  refine ⟨htidy.touched fun hearly => ?_, ?_⟩
                  · rw [setupComplete_ensureCollection, hcomplete] at hearly
                    cases hearly
                  · exact Migrating.ensured
                      (.writing hheard hcomplete habreast hroute hshown) _

theorem LiveState.Sound.write {stream : MemoryChangeStream}
    {change : StoreChange} {name : String}
    {value : Option (Value × Option F64)} {report : MigrationReport}
    (hseed : targetConfig.seed = none) (h : s.Sound options)
    (hroomy : Roomy targetConfig targetRng s (.migrate order targetOrder lag))
    (hstage : s.stage = .writing stream change name value report)
    (hstep : s.migrate config targetConfig rng targetRng options order
      targetOrder lag = some s') : s'.Sound options := by
  obtain ⟨htidy, hmigrating⟩ := h
  have hroom := hroomy.2
  rw [hstage] at hmigrating hroom
  unfold LiveState.migrate at hstep
  rw [hstage] at hstep
  cases hmigrating with
  | writing hheard hcomplete habreast hroute hshown =>
      cases value with
      | none =>
          cases hstep
          refine .wrote htidy fun t hdelete => ?_
          refine .removed hheard hcomplete habreast hroute
            (delete_target hseed hdelete) fun hnone => ?_
          obtain ⟨read, hread⟩ := hshown hnone
          exact sourceView_absent (sourceView_of_shown hread)
      | some found =>
          obtain ⟨value, ttl⟩ := found
          cases hstep
          refine .wrote htidy fun t hput => ?_
          obtain ⟨entry, revision, hentry, hstored⟩ :=
            put_target hseed (hroom _ rfl) hput
          exact .replaced hheard hcomplete habreast hroute hshown hentry
            hstored

theorem LiveState.Sound.migrate (hseed : targetConfig.seed = none)
    (h : s.Sound options)
    (hundisturbed : Undisturbed s (.migrate order targetOrder lag))
    (hroomy : Roomy targetConfig targetRng s (.migrate order targetOrder lag))
    (hstep : s.migrate config targetConfig rng targetRng options order
      targetOrder lag = some s') : s'.Sound options := by
  obtain ⟨htidy, hmigrating⟩ := h
  cases hstage : s.stage with
  | writing stream change name value report =>
      exact .write hseed ⟨htidy, hmigrating⟩ hroomy hstage hstep
  | subscribing =>
      unfold LiveState.migrate at hstep
      rw [hstage] at hstep hmigrating
      cases hmigrating with
      | subscribing hblank =>
          cases hholder : s.source.holder with
          | some task => simp [hholder] at hstep
          | none =>
              simp only [hholder, MemoryChangeState.subscribe] at hstep
              cases hstep
              exact ⟨htidy, .subscribed hblank hholder⟩
  | copying stream phase report =>
      have hroom := hroomy
      unfold LiveState.migrate at hstep
      unfold Roomy at hroom
      rw [hstage] at hstep hmigrating hroom
      obtain ⟨copy, hcopy, rfl⟩ := Option.map_eq_some_iff.mp hstep
      refine ⟨htidy.copy_step ?_ hcopy, ?_⟩
      · cases hmigrating with
        | opening => exact .inl rfl
        | listing _ _ hcomplete => exact .inr hcomplete
        | copying _ hcomplete => exact .inr hcomplete
      · exact hmigrating.copy_step hseed hundisturbed.1 hroom.1 hroom.2 hcopy
  | awaiting stream report =>
      unfold LiveState.migrate at hstep
      rw [hstage] at hstep hmigrating
      obtain ⟨polled, hpoll, rfl⟩ := Option.map_eq_some_iff.mp hstep
      have hcases : (∃ change,
          s.source.state.changes.sent[stream.receiver]? = some change ∧
            polled = ({ stream with receiver := stream.receiver + 1 },
              some (.item change))) ∨
          ∃ stream' skipped, polled = (stream', some (.lagged skipped)) := by
        cases hmigrating with
        | awaiting hheard _ _ => exact hheard.poll_cases hpoll
      rcases hcases with ⟨change, hnext, rfl⟩ | ⟨stream', skipped, rfl⟩
      · exact ⟨htidy, hmigrating.received hnext⟩
      · exact ⟨htidy, .failed⟩
  | applying stream change report =>
      unfold LiveState.migrate at hstep
      rw [hstage] at hstep
      cases hstep
      exact .apply hseed ⟨htidy, hmigrating⟩ hstage
  | failed error =>
      unfold LiveState.migrate at hstep
      rw [hstage] at hstep
      cases hstep

theorem LiveState.Sound.step {label : LiveLabel}
    (hseed : targetConfig.seed = none) (h : s.Sound options)
    (hcond : Undisturbed s label ∧ Roomy targetConfig targetRng s label)
    (hstep : s.step config targetConfig rng targetRng options label =
      some s') : s'.Sound options := by
  cases label with
  | source label =>
      obtain ⟨source, hsource, rfl⟩ := Option.map_eq_some_iff.mp hstep
      exact h.source hcond.1 hsource
  | migrate order targetOrder lag =>
      exact h.migrate hseed hcond.1 hcond.2 hstep

end Runs

instance (s : LiveState) : Decidable s.Drained :=
  match h : s.stage with
  | .awaiting stream report =>
      decidable_of_iff (stream.poll s.source.state.changes.sent none = none)
        ⟨fun hpoll => ⟨stream, report, h, hpoll⟩, by
          rintro ⟨_, _, hstage, hpoll⟩
          cases h.symm.trans hstage
          exact hpoll⟩
  | .subscribing | .copying .. | .applying .. | .writing .. | .failed _ =>
      isFalse (by rintro ⟨_, _, hstage, _⟩; rw [h] at hstage; cases hstage)

end OpenKeyV.Memory
