import OpenKeyV.Memory.Traces

/-!
# Fresh tokens

Each revision is one reading of the random source, and the readings are
counted.  `Drawn` collects what was read between two states: the tokens that
a stretch writes, and those that its action carries to the mutation lock.
-/

namespace OpenKeyV.Memory

open OpenKeyV.Library

def Drawn (rng : Nat → Option Revision) (s s' : MemoryState)
    (tokens : List Revision) : Prop :=
  s.draws ≤ s'.draws ∧
    tokens.Sublist
      ((List.range' s.draws (s'.draws - s.draws)).filterMap rng)

def Phase.tokens : Phase → List Revision
  | .lock action => action.tokens
  | _ => []

section Drawn

variable {rng : Nat → Option Revision} {s s' s'' : MemoryState}
  {tokens tokens' : List Revision} {events : List Event}

theorem Drawn.trans (h : Drawn rng s s' tokens)
    (h' : Drawn rng s' s'' tokens') : Drawn rng s s'' (tokens ++ tokens') := by
  refine ⟨Nat.le_trans h.1 h'.1, ?_⟩
  have hsplit : List.range' s.draws (s''.draws - s.draws) =
      List.range' s.draws (s'.draws - s.draws) ++
        List.range' s'.draws (s''.draws - s'.draws) := by
    have hstart : s'.draws = s.draws + 1 * (s'.draws - s.draws) := by
      have := h.1
      omega
    have hlen : s''.draws - s.draws =
        s'.draws - s.draws + (s''.draws - s'.draws) := by
      have := h.1
      have := h'.1
      omega
    rw [hlen, ← List.range'_append, ← hstart]
  rw [hsplit, List.filterMap_append]
  exact h.2.append h'.2

theorem Drawn.sublist (h : Drawn rng s s' tokens)
    (hsub : tokens'.Sublist tokens) : Drawn rng s s' tokens' :=
  ⟨h.1, hsub.trans h.2⟩

theorem Edits.drawn (h : Edits s events s') : Drawn rng s s' [] :=
  ⟨h.quiet.2, List.nil_sublist _⟩

theorem drawn_of_fresh {revision : Revision}
    (h : s.fresh rng = (.ok revision, s')) : Drawn rng s s' [revision] := by
  unfold MemoryState.fresh at h
  cases hread : rng s.draws with
  | none => simp [hread] at h
  | some read =>
      simp only [hread, Prod.mk.injEq, Except.ok.injEq] at h
      obtain ⟨rfl, rfl⟩ := h
      exact ⟨Nat.le_succ _, by simp [hread]⟩

theorem edits_of_fresh {result : Except Error Revision}
    (h : s.fresh rng = (result, s')) : Edits s [] s' := by
  have hedits := edits_fresh rng s
  rwa [h] at hedits

variable {config : MemoryConfig} {now : DateTime} {order : Order}

/-- What a stretch before the mutation lock leaves: events that write some of
the tokens it reads. -/
def Loaded (rng : Nat → Option Revision) (s s' : MemoryState)
    (carried : List Revision) : Prop :=
  ∃ events, Edits s events s' ∧
    Drawn rng s s' (events.filterMap Event.written ++ carried)

theorem Edits.loaded (h : Edits s [] s') : Loaded rng s s' [] :=
  ⟨[], h, h.drawn⟩

theorem Loaded.trans (h : Loaded rng s s' []) (h' : Loaded rng s' s'' tokens) :
    Loaded rng s s'' tokens := by
  obtain ⟨events, hedits, hdrawn⟩ := h
  obtain ⟨events', hedits', hdrawn'⟩ := h'
  refine ⟨_, hedits.trans hedits', ?_⟩
  have htrans := hdrawn.trans hdrawn'
  rwa [List.append_nil, ← List.append_assoc, ← List.filterMap_append] at htrans

variable (rng now) in
theorem loadItems_loaded (name : String) :
    ∀ (items : List (Sigma fun _ : String => Value)) (s : MemoryState),
      (s.collection name).isSome = true →
      Loaded rng s (loadItems rng now name items s).2 []
  | [], s, _ => Edits.refl.loaded
  | ⟨key, value⟩ :: items, s, hcol => by
      rw [loadItems]
      split
      · rename_i heq
        exact (edits_of_fresh heq).loaded
      · rename_i revision s' heq
        have hcol' : (s'.collection name).isSome = true := by
          obtain rfl : s' = (s.fresh rng).2 := by rw [heq]
          exact hcol
        obtain ⟨col, hsome⟩ := Option.isSome_iff_exists.mp hcol'
        have hwrote := edits_insertEntry hsome key
          ⟨.new now value, revision⟩ .plain trivial
        have hone : Loaded rng s
            (s'.insertEntry name key ⟨.new now value, revision⟩ .plain) [] :=
          ⟨_, (edits_of_fresh heq).trans hwrote,
            (drawn_of_fresh heq).trans hwrote.drawn⟩
        exact hone.trans
          (loadItems_loaded name items _ (isSome_insertEntry hcol' _ _ _ _))

variable (rng config now order) in
theorem loadSeed_loaded :
    ∀ (seed : List (Sigma fun _ : String => KeyedMap String Value))
      (s : MemoryState),
      Loaded rng s (loadSeed config rng now order seed s).2 []
  | [], s => Edits.refl.loaded
  | ⟨name, items⟩ :: seed, s => by
      have hitems := (edits_ensureCollection s name).loaded.trans
        (loadItems_loaded rng now name items.entries _
          (by simp))
      rw [loadSeed]
      split
      · rename_i heq
        rwa [heq] at hitems
      · rename_i s' heq
        rw [heq] at hitems
        have hcapacity := edits_enforceCapacity config now order name s'
        have htrimmed : Loaded rng s' (enforceCapacity config now order name s').1
            [] := ⟨_, hcapacity, by simpa using hcapacity.drawn⟩
        exact (hitems.trans htrimmed).trans (loadSeed_loaded seed _)

variable (rng config now order) in
theorem setup_loaded (s : MemoryState) :
    Loaded rng s (setup config rng now order s).2 [] := by
  unfold setup
  split
  · exact Edits.refl.loaded
  · cases config.seed with
    | none => exact (edits_setupComplete s true).loaded
    | some seed =>
        have hseed := loadSeed_loaded rng config now order seed.entries s
        simp only
        split
        · rename_i heq
          rwa [heq] at hseed
        · rename_i s' heq
          rw [heq] at hseed
          exact hseed.trans (edits_setupComplete s' true).loaded

variable (rng) in
theorem freshMany_drawn :
    ∀ (n : Nat) (s : MemoryState),
      Edits s [] (freshMany rng n s).2 ∧
        ∀ revisions, (freshMany rng n s).1 = .ok revisions →
          Drawn rng s (freshMany rng n s).2 revisions
  | 0, s => by
      refine ⟨.refl, fun revisions h => ?_⟩
      cases h
      exact Edits.refl.drawn
  | n + 1, s => by
      rw [freshMany]
      split
      · rename_i heq
        exact ⟨edits_of_fresh heq, fun _ h => by cases h⟩
      · rename_i revision s' heq
        obtain ⟨hedits, hdrawn⟩ := freshMany_drawn n s'
        split
        · rename_i heq'
          rw [heq'] at hedits
          exact ⟨(edits_of_fresh heq).trans hedits, fun _ h => by cases h⟩
        · rename_i revisions s'' heq'
          rw [heq'] at hedits hdrawn
          refine ⟨(edits_of_fresh heq).trans hedits, fun _ h => ?_⟩
          cases h
          exact (drawn_of_fresh heq).trans (hdrawn revisions rfl)

private theorem tokens_putMany_sublist (entries : List ManagedEntry)
    (revisions : List Revision) :
    ((entries.zipWith RevisionedEntry.mk revisions).map (·.revision)).Sublist
      revisions := by
  induction entries generalizing revisions with
  | nil => simp
  | cons entry entries ih =>
      cases revisions with
      | nil => simp
      | cons revision revisions => exact (ih revisions).cons_cons revision

variable (rng config now order) in
theorem prepare_loaded (s : MemoryState) (call : Call) :
    ∃ carried, (prepare config rng now order s call).2.tokens = carried ∧
      Edits s [] (prepare config rng now order s call).1 ∧
      Drawn rng s (prepare config rng now order s call).1 carried := by
  have hnone : ∀ {s' : MemoryState} {phase : Phase}, Edits s [] s' →
      phase.tokens = [] → ∃ carried, phase.tokens = carried ∧
        Edits s [] s' ∧ Drawn rng s s' carried :=
    fun hedits htokens => ⟨[], htokens, hedits, hedits.drawn⟩
  cases call with
  | get | ttl | getMany | ttlMany | getWithRevision | keys | delete
  | deleteMany | compareAndDelete =>
      exact hnone (edits_ensureCollection s _) rfl
  | collections | destroyCollection | cull | subscribe | destroy =>
      exact hnone .refl rfl
  | put key value collection ttl =>
      have hensure := edits_ensureCollection s (config.collectionName collection)
      simp only [prepare]
      split
      · exact hnone hensure rfl
      · split
        · rename_i heq
          exact hnone (hensure.trans (edits_of_fresh heq)) rfl
        · rename_i heq
          exact ⟨_, rfl, hensure.trans (edits_of_fresh heq),
            hensure.drawn.trans (drawn_of_fresh heq)⟩
  | compareAndSwap key expected value collection ttl =>
      have hensure := edits_ensureCollection s (config.collectionName collection)
      simp only [prepare]
      split
      · exact hnone hensure rfl
      · split
        · rename_i heq
          exact hnone (hensure.trans (edits_of_fresh heq)) rfl
        · rename_i heq
          exact ⟨_, rfl, hensure.trans (edits_of_fresh heq),
            hensure.drawn.trans (drawn_of_fresh heq)⟩
  | putMany keys values collection ttl =>
      have hensure := edits_ensureCollection s (config.collectionName collection)
      simp only [prepare]
      split
      · exact hnone hensure rfl
      · rename_i entries _
        obtain ⟨hedits, hdrawn⟩ := freshMany_drawn rng entries.length
          (s.ensureCollection (config.collectionName collection))
        split
        · rename_i heq
          rw [heq] at hedits
          exact hnone (hensure.trans hedits) rfl
        · rename_i revisions s' heq
          rw [heq] at hedits hdrawn
          exact ⟨_, rfl, hensure.trans hedits,
            (hensure.drawn.trans (hdrawn revisions rfl)).sublist
              (tokens_putMany_sublist entries revisions)⟩

variable (rng config now order) in
theorem enter_loaded (s : MemoryState) (call : Call) :
    Loaded rng s (enter config rng now order s call).1
      (enter config rng now order s call).2.tokens := by
  have hsetup := setup_loaded rng config now order s
  unfold enter
  split
  · rename_i heq
    rwa [heq] at hsetup
  · rename_i s' heq
    rw [heq] at hsetup
    obtain ⟨carried, htokens, hedits, hdrawn⟩ :=
      prepare_loaded rng config now order s' call
    rw [htokens]
    exact hsetup.trans ⟨[], hedits, hdrawn⟩

variable (rng now order) in
theorem setup_unseeded (hseed : config.seed = none) (s : MemoryState) :
    setup config rng now order s = (.ok (), { s with setupComplete := true }) := by
  unfold setup
  split
  · rename_i hcomplete
    rw [← hcomplete]
  · rw [hseed]

variable (rng now order) in
theorem edits_enter_unseeded (hseed : config.seed = none) (s : MemoryState)
    (call : Call) : Edits s [] (enter config rng now order s call).1 := by
  obtain ⟨-, -, hprepare, -⟩ := prepare_loaded rng config now order
    { s with setupComplete := true } call
  rw [enter, setup_unseeded rng now order hseed]
  exact (edits_setupComplete s true).trans hprepare

end Drawn

section Growth

variable {config : MemoryConfig} {rng : Nat → Option Revision}

theorem step_events {s s' : System} {label : Label}
    (hstep : s.step config rng label = some s') :
    ∃ events, s'.state.events = s.state.events ++ events := by
  cases step_cases hstep with
  | @entered task call order _ =>
      obtain ⟨events, hedits, -⟩ :=
        enter_loaded rng config s.clock order s.state call
      exact ⟨events, hedits.events_eq⟩
  | @performed task action order locked _ _ hlocked =>
      obtain ⟨events, hperformed⟩ :=
        perform_performed config s.clock order s.state action
      rw [state_proceed, hlocked]
      exact ⟨events, hperformed.edits.events_eq⟩
  | cleared _ _ =>
      obtain ⟨events, hedits, -⟩ := edits_clear s.state
      exact ⟨events, hedits.events_eq⟩
  | recorded _ =>
      rw [state_proceed]
      exact ⟨[], (List.append_nil _).symm⟩
  | called _ | subscribing _ _ | replayed _ | reset _ | advanced _ | cancelled =>
      exact ⟨[], (List.append_nil _).symm⟩

theorem run_events {s t : System} {labels : List Label}
    (hrun : run (System.step config rng) s labels = some t) :
    ∃ events, t.state.events = s.state.events ++ events := by
  refine run_invariant (P := fun u : System =>
    ∃ events, u.state.events = s.state.events ++ events) ?_
    ⟨[], (List.append_nil _).symm⟩ (along_true _ _) hrun
  rintro u label u' ⟨events, hevents⟩ - hstep
  obtain ⟨more, hmore⟩ := step_events hstep
  exact ⟨events ++ more, by rw [hmore, hevents, List.append_assoc]⟩

end Growth

def unseeded : MemoryConfig := ⟨none, "default_collection", none⟩

def sampleSource (draw : Nat) : Option Revision :=
  if draw < 256 then some (.fill (UInt8.ofNat draw)) else none

abbrev sampleRun (config : MemoryConfig) (labels : List Label) :
    Option System :=
  run (System.step config sampleSource) (.init .epoch) labels

def sampleEnd (config : MemoryConfig) (labels : List Label) : System :=
  (sampleRun config labels).getD (.init .epoch)

theorem sampleRun_eq {config : MemoryConfig} {labels : List Label}
    (h : (sampleRun config labels).isSome = true) :
    sampleRun config labels = some (sampleEnd config labels) := by
  obtain ⟨t, ht⟩ := Option.isSome_iff_exists.mp h
  rw [sampleEnd, ht, Option.getD_some]

end OpenKeyV.Memory
