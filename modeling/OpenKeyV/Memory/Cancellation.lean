import OpenKeyV.Memory.History

/-!
# Dropped calls

A call may be dropped at any await.  Before it has the mutation lock nothing
is lost; while it records its changes, those it has not recorded yet are.
As long as these would not have altered the folded history, the last record
of a key still tells whether the key is present.
-/

namespace OpenKeyV.Memory

open OpenKeyV.Library

def Retains (s s' : MemoryState) : Prop :=
  ∀ name, (s.collection name).isSome = true →
    (s'.collection name).isSome = true

theorem Retains.trans {s s' s'' : MemoryState} (h : Retains s s')
    (h' : Retains s' s'') : Retains s s'' :=
  fun name hcol => h' name (h name hcol)

theorem Retains.grounded {s s' : MemoryState} (h : Retains s s') :
    ∀ {action : Action}, action.Grounded s → action.Grounded s'
  | .put name _ _, hgrounded => h name hgrounded
  | .putMany name _ _, hgrounded => hgrounded.imp_right (h name)
  | .delete .., _ | .deleteMany .., _ | .compareAndSwap .., _
  | .compareAndDelete .., _ | .cull, _ | .destroyCollection _, _ => trivial

section Retains

variable {config : MemoryConfig} {rng : Nat → Option Revision}
  {now : DateTime} {order : Order} {s : MemoryState}

theorem retains_insertEntry (name key : String) (stored : RevisionedEntry)
    (cause : Cause) : Retains s (s.insertEntry name key stored cause) :=
  fun _ hcol => isSome_insertEntry hcol name key stored cause

theorem retains_removeEntry (name key : String) (expected : Option Revision) :
    Retains s (s.removeEntry name key expected) :=
  fun _ hcol => isSome_removeEntry hcol name key expected

theorem retains_foldl {α : Type} {f : MemoryState → α → MemoryState}
    (h : ∀ s a, Retains s (f s a)) :
    ∀ (as : List α) (s : MemoryState), Retains s (as.foldl f s)
  | [], _ => fun _ hcol => hcol
  | a :: as, s => (h s a).trans (retains_foldl h as (f s a))

theorem retains_enforceCapacity (name : String) :
    Retains s (enforceCapacity config now order name s).1 := by
  unfold enforceCapacity
  split
  · exact fun _ hcol => hcol
  · exact retains_foldl (fun s key => retains_removeEntry name key none) _ s

theorem retains_removeMany (name : String) :
    ∀ (keys : List String) (s : MemoryState),
      Retains s (removeMany name keys s).1
  | [], _ => fun _ hcol => hcol
  | key :: keys, s => by
      rw [removeMany]
      split
      · exact (retains_removeEntry name key none).trans
          (retains_removeMany name keys _)
      · exact retains_removeMany name keys s

theorem perform_retains {action : Action}
    (h : (Phase.lock action).allowed false = true) :
    Retains s (perform config now order s action).state := by
  have hsame : Retains s s := fun _ hcol => hcol
  cases action with
  | put name key stored =>
      simp only [perform, put]
      split
      · exact (retains_insertEntry name key stored .plain).trans
          (retains_enforceCapacity name)
      · exact hsame
  | putMany name keys entries =>
      simp only [perform, putMany]
      split
      · have hinsert : Retains s (insertMany name s (keys.zip entries)) :=
          retains_foldl (fun s (item : String × RevisionedEntry) =>
            retains_insertEntry name item.1 item.2 .plain) _ s
        exact hinsert.trans (retains_enforceCapacity name)
      · exact hsame
  | delete name key =>
      simp only [perform, delete]
      split
      · exact hsame
      · split
        · exact retains_removeEntry name key none
        · exact hsame
  | deleteMany name keys =>
      simp only [perform, deleteMany]
      split
      · exact hsame
      · exact retains_removeMany name keys s
  | compareAndSwap name key expected stored =>
      have hcases := compareAndSwap_cases now s name key expected stored
      simp only [perform]
      generalize compareAndSwap now name s key expected stored = locked
        at hcases ⊢
      cases hcases with
      | missing _ | rejected _ _ => exact hsame
      | swept _ _ _ => exact retains_removeEntry name key none
      | created _ _ _ | swapped _ _ _ _ => exact retains_insertEntry name key _ _
  | compareAndDelete name key expected =>
      have hcases := compareAndDelete_cases now s name key expected
      simp only [perform]
      generalize compareAndDelete now name s key expected = locked at hcases ⊢
      cases hcases with
      | missing _ | rejected _ _ => exact hsame
      | swept _ _ | deleted _ _ _ _ => exact retains_removeEntry name key _
  | cull =>
      exact retains_foldl (fun s (entry : String × String) =>
        retains_removeEntry entry.1 entry.2 none) _ s
  | destroyCollection name => cases h

theorem retains_ensureCollection (name : String) :
    Retains s (s.ensureCollection name) := by
  intro name' hcol
  rw [MemoryState.collection_ensureCollection]
  split
  · rfl
  · exact hcol

variable (config rng now order) in
theorem prepare_retains (s : MemoryState) (call : Call) :
    Retains s (prepare config rng now order s call).1 := by
  intro name hcol
  rcases prepare_collection config rng now order s call with
    hprepare | ⟨name', hprepare⟩
  · rwa [hprepare]
  · rw [hprepare]
    exact retains_ensureCollection name' name hcol

variable (config rng now order) in
theorem prepare_grounded (s : MemoryState) (call : Call) :
    ∀ action ∈ (prepare config rng now order s call).2.locking,
      action.Grounded (prepare config rng now order s call).1 := by
  have hpresent : ∀ name,
      ((s.ensureCollection name).collection name).isSome = true := by simp
  intro action haction
  cases call with
  | get | ttl | getMany | ttlMany | getWithRevision | keys | collections
  | subscribe | destroy => cases haction
  | delete | deleteMany | compareAndDelete | destroyCollection | cull =>
      cases haction
      trivial
  | put key value collection ttl =>
      simp only [prepare] at haction ⊢
      split at haction
      · cases haction
      · split at haction
        · cases haction
        · rename_i s' heq
          cases haction
          obtain rfl : s' = ((s.ensureCollection _).fresh rng).2 := by rw [heq]
          exact hpresent _
  | compareAndSwap key expected value collection ttl =>
      simp only [prepare] at haction
      split at haction
      · cases haction
      · split at haction
        · cases haction
        · cases haction
          trivial
  | putMany keys values collection ttl =>
      simp only [prepare] at haction ⊢
      split at haction
      · cases haction
      · rename_i entries _
        have hcols := collection_freshMany rng entries.length
          (s.ensureCollection (config.collectionName collection))
        split at haction
        · cases haction
        · rename_i s' heq
          rw [heq] at hcols
          cases haction
          right
          rw [hcols]
          exact hpresent _

variable (rng now order) in
theorem enter_grounded (hseed : config.seed = none) (s : MemoryState)
    (call : Call) :
    Retains s (enter config rng now order s call).1 ∧
      ∀ action ∈ (enter config rng now order s call).2.locking,
        action.Grounded (enter config rng now order s call).1 := by
  rw [enter, setup_unseeded rng now order hseed]
  exact ⟨prepare_retains config rng now order { s with setupComplete := true }
      call,
    prepare_grounded config rng now order { s with setupComplete := true } call⟩

end Retains

/-- The last record of a key is a put exactly when the key is present, but for
a removed key whose entry has expired. -/
def LastRecordsAgree (s : System) : Prop :=
  ∀ name key,
    ((latestOf Mutation.cell (name, key) s.history).map (·.operation) =
        some .put ↔ (s.state.entry name key).isSome = true) ∨
      (s.state.entry name key = none ∧
        s.state.lapsed s.clock (name, key) = true)

/-- What holds while no collection is destroyed: every waiting put finds its
collection. -/
structure Kept (s : System) : Prop where
  recorded : Recorded s
  allowed : ∀ task, (s.tasks task).allowed false = true
  grounded : ∀ task, ∀ action ∈ (s.tasks task).locking,
    action.Grounded s.state

section Kept

variable {config : MemoryConfig} {rng : Nat → Option Revision}
  {s s' t : System} {clock : DateTime} {label : Label} {labels : List Label}

theorem kept_init (clock : DateTime) : Kept (.init clock) :=
  ⟨recorded_init clock, fun _ => rfl, fun _ _ h => nomatch h⟩

theorem start_locking {now : DateTime} {call : Call} {action : Action}
    (h : action ∈ (start now call).locking) : action = .cull := by
  cases call <;> simp only [start] at h <;> (try split at h) <;>
    (try split at h) <;> cases h
  rfl

private theorem grounded_update {state : MemoryState}
    (h : ∀ task, ∀ action ∈ (s.tasks task).locking, action.Grounded s.state)
    (hretains : Retains s.state state) {task : Nat} {phase : Phase}
    (hphase : ∀ action ∈ phase.locking, action.Grounded state) :
    ∀ task', ∀ action ∈ (Function.update s.tasks task phase task').locking,
      action.Grounded state := by
  intro task' action haction
  by_cases htask : task' = task
  · rw [htask, Function.update_self] at haction
    exact hphase action haction
  · rw [Function.update_of_ne htask] at haction
    exact hretains.grounded (h task' action haction)

private theorem grounded_proceed {state : MemoryState}
    (h : ∀ task, ∀ action ∈ (s.tasks task).locking, action.Grounded s.state)
    (hretains : Retains s.state state) {task : Nat} {action : Action}
    {pending : List Mutation} {guards : List Guard}
    {result : Except Error Response} :
    ∀ task', ∀ action' ∈ ((System.proceed { s with state } task action pending
      guards result).tasks task').locking, action'.Grounded state := by
  cases pending <;> exact grounded_update h hretains fun _ h => nomatch h

theorem Kept.step (h : Kept s) (hseed : config.seed = none)
    (hcalls : ∀ task call, label = .call task call →
      call.allowed false = true)
    (hdrops : DropHarmless s label)
    (hstep : s.step config rng label = some s') : Kept s' := by
  have hputs : PutGrounded s label := fun task _ _ action haction =>
    h.grounded task action haction
  have hweaker : ∀ task call, label = .call task call →
      call.allowed true = true := by
    intro task call heq
    have hcall := hcalls task call heq
    cases call <;> first | rfl | exact hcall
  refine ⟨h.recorded.step hseed hweaker hputs hdrops hstep,
    (allowed_phases config rng false).step h.allowed hcalls hstep, ?_⟩
  have hsame : Retains s.state s.state := fun _ hcol => hcol
  cases step_cases hstep with
  | called _ =>
      refine grounded_update h.grounded hsame fun action haction => ?_
      rw [start_locking haction]
      trivial
  | @entered task call order _ =>
      obtain ⟨hretains, hgrounded⟩ :=
        enter_grounded rng s.clock order hseed s.state call
      exact grounded_update h.grounded hretains hgrounded
  | @performed task action order locked hphase _ hlocked =>
      subst hlocked
      have hallowed := h.allowed task
      rw [hphase] at hallowed
      rw [state_proceed]
      exact grounded_proceed h.grounded (perform_retains hallowed)
  | @cleared task _ hphase _ | @reset task _ hphase =>
      have hdestroy := h.allowed task
      rw [hphase] at hdestroy
      cases hdestroy
  | @recorded task action mutation =>
      have hrecord : Retains s.state (s.state.recordChange s.clock mutation) :=
        hsame
      rw [state_proceed]
      exact grounded_proceed h.grounded hrecord
  | subscribing _ _ | replayed _ | cancelled =>
      exact grounded_update h.grounded hsame fun _ h => nomatch h
  | advanced _ => exact h.grounded

/-- In every run on an unseeded store in which no collection is destroyed and
a dropped call leaves no change unrecorded that alters the folded history, the
last records agree with the contents whenever the mutation lock is free. -/
theorem last_records_agree_when_drops_harmless (hseed : config.seed = none)
    (hcalls : ∀ label ∈ labels, label.allowed false = true)
    (hdrops : Along (System.step config rng) DropHarmless (.init clock) labels)
    (hrun : run (System.step config rng) (.init clock) labels = some t)
    (hfree : t.holder = none) : LastRecordsAgree t := by
  have hallowed : Along (System.step config rng)
      (fun _ label => label.allowed false = true) (.init clock) labels :=
    along_of_at_step fun as a bs _ heq _ => hcalls a (by simp [heq])
  have hkept : Kept t := by
    refine run_invariant (fun s label s' h hcond hstep => ?_)
      (kept_init clock) (hallowed.and hdrops) hrun
    refine h.step hseed (fun task call heq => ?_) hcond.2 hstep
    have hcall := hcond.1
    rwa [heq] at hcall
  have hagrees := hkept.recorded.agrees
  rw [pending_of_free hfree, List.append_nil] at hagrees
  intro name key
  have hfolded : (name, key) ∈ folded t.history ↔
      (latestOf Mutation.cell (name, key) t.history).map (·.operation) =
        some .put := by
    rw [folded, mem_foldKeys]
    cases latestOf Mutation.cell (name, key) t.history <;> simp
  rw [← hfolded]
  cases hentry : t.state.entry name key with
  | some stored =>
      exact .inl ⟨fun _ => rfl, fun _ => hagrees.recorded name key
        (by rw [hentry]; rfl)⟩
  | none =>
      by_cases hmem : (name, key) ∈ folded t.history
      · rcases hagrees.present name key hmem with hpresent | hlapsed
        · rw [hentry] at hpresent
          cases hpresent
        · exact .inr ⟨rfl, hlapsed⟩
      · exact .inl ⟨fun h => absurd h hmem, fun h => by cases h⟩

end Kept

def harmlessDrops : List Label :=
  [.call 0 (.put "k" (.binary [1]) (some "c") none), .resume 0 .stored,
    .resume 0 .stored, .resume 0 .stored,
    .call 1 (.put "l" (.binary [2]) (some "c") none), .resume 1 .stored,
    .cancel 1,
    .call 0 (.put "k" (.binary [3]) (some "c") none), .resume 0 .stored,
    .resume 0 .stored, .cancel 0]

theorem last_records_agree_after_harmless_drops :
    LastRecordsAgree (sampleEnd unseeded harmlessDrops) :=
  last_records_agree_when_drops_harmless rfl (by decide) (by decide +kernel)
    (sampleRun_eq (by decide +kernel)) (by decide +kernel)

def droppedPut : List Label :=
  [.call 0 (.put "k" (.binary [1]) (some "c") none), .resume 0 .stored,
    .resume 0 .stored, .cancel 0]

/-- Readers then see a key that the history never mentions. -/
theorem dropped_put_is_not_recorded :
    ¬ ∀ (labels : List Label) (t : System),
      (∀ label ∈ labels, label.allowed false = true) →
      sampleRun unseeded labels = some t → t.holder = none →
      LastRecordsAgree t := by
  intro h
  have hagree := h droppedPut (sampleEnd unseeded droppedPut) (by decide)
    (sampleRun_eq (by decide +kernel)) (by decide +kernel) "c" "k"
  revert hagree
  decide +kernel

end OpenKeyV.Memory
