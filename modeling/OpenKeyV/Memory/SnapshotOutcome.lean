import OpenKeyV.Memory.LiveCalls
import OpenKeyV.Memory.ReportedTtl

/-!
# What a migration comes to

The steps of `copy_snapshot` and of `apply_change`, taken while the clock
stands still and nobody else writes, end as the loops over the entries do.
-/

namespace OpenKeyV.Memory

open OpenKeyV.Library

def stillClock (now : DateTime) : CopyClock := fun _ _ => ⟨now, now, now⟩

def EntryTarget.calls {τ : Type} (target : EntryTarget τ) (now : DateTime) :
    Target τ where
  put := target.put now
  putMany keys values name ttl t :=
    match values.mapM fun value => ManagedEntry.ofTtl now value ttl with
    | .error error => (.error error, t)
    | .ok entries => (.ok (), target.insertMany name (keys.zip entries) t)
  delete key name t := (.ok (), target.delete name key t)

section Copy

variable {τ : Type} {config : MemoryConfig} {rng : Nat → Option Revision}
  {options : MigrationOptions} {target : EntryTarget τ} {now : DateTime}
  {order : Order} {s : MemoryState}

variable (config rng options target now order) in
def Ends (m : Copy τ) (outcome : Except Error MigrationReport × τ) : Prop :=
  ∃ labels m', (∀ label ∈ labels, label = (now, order)) ∧
    run (Copy.step config rng options (target.calls now)) m labels = some m' ∧
    m'.phase = .finished (outcome.1.map fun _ => ()) ∧
    m'.target = outcome.2 ∧
    ∀ report, outcome.1 = .ok report → m'.report = report

theorem Ends.of_finished {m : Copy τ}
    {outcome : Except Error MigrationReport × τ}
    (hphase : m.phase = .finished (outcome.1.map fun _ => ()))
    (htarget : m.target = outcome.2)
    (hreport : ∀ report, outcome.1 = .ok report → m.report = report) :
    Ends config rng options target now order m outcome :=
  ⟨[], m, fun _ hlabel => absurd hlabel List.not_mem_nil, rfl, hphase, htarget,
    hreport⟩

theorem Ends.of_step {m m' : Copy τ}
    {outcome : Except Error MigrationReport × τ}
    (hstep : m.step config rng options (target.calls now) (now, order) =
      some m')
    (h : Ends config rng options target now order m' outcome) :
    Ends config rng options target now order m outcome := by
  obtain ⟨labels, m'', hlabels, hrun, hend⟩ := h
  exact ⟨(now, order) :: labels, m'', List.forall_mem_cons.mpr ⟨rfl, hlabels⟩,
    run_cons_eq_some.mpr ⟨m', hstep, hrun⟩, hend⟩

theorem Ends.of_write {m : Copy τ} {reply : Except Error Unit × τ}
    {phase : CopyPhase} {copied : Nat}
    {next : τ → Except Error MigrationReport × τ}
    (hstep : m.step config rng options (target.calls now) (now, order) =
      some (m.writeThen reply phase copied))
    (h : ∀ t, Ends config rng options target now order
      { m with
        target := t
        phase
        report := { m.report with copied := m.report.copied + copied } }
      (next t)) :
    Ends config rng options target now order m
      (whenOk reply fun _ t => next t) := by
  obtain ⟨error | done, t⟩ := reply
  · exact .of_step hstep (.of_finished rfl rfl (by rintro _ ⟨⟩))
  · exact .of_step hstep (h t)

theorem whenOk_whenOk {α : Type} (result : Except Error α × τ)
    (first : α → τ → Except Error MigrationReport × τ)
    (second : MigrationReport → τ → Except Error MigrationReport × τ) :
    whenOk (whenOk result first) second =
      whenOk result fun a t => whenOk (first a t) second := by
  obtain ⟨error | a, t⟩ := result <;> rfl

theorem reportValue_still (s : MemoryState) (now : DateTime)
    (collection key : String) :
    reportValue ⟨now, now, now⟩ (s.entry collection key) =
      (s.live now collection key).map fun stored => stored.entry.value :=
  rfl

variable {collection name : String} {rest : List String}
  {next : MigrationReport → τ → Except Error MigrationReport × τ}

theorem ends_copyItems {left : List String}
    (items : List (String × Option (Value × Option F64)))
    (report : MigrationReport) (t : τ)
    (hnext : ∀ report t, Ends config rng options target now order
      ⟨s, t, .reading collection name left rest, report⟩ (next report t)) :
    Ends config rng options target now order
      ⟨s, t, .putting collection name items left rest, report⟩
      (whenOk (copyItems target (stillClock now) collection name items report
        t) next) := by
  induction items generalizing report t with
  | nil => exact .of_step rfl (hnext report t)
  | cons item items ih =>
      obtain ⟨key, _ | ⟨value, ttl⟩⟩ := item
      · exact .of_step rfl (ih _ t)
      · simp only [copyItems, whenOk_whenOk]
        exact .of_write rfl fun t => ih _ t

theorem ends_putMany {left : List String} (items : List (String × Value))
    (report : MigrationReport) (t : τ)
    (hnext : ∀ report t, Ends config rng options target now order
      ⟨s, t, .reading collection name left rest, report⟩ (next report t)) :
    Ends config rng options target now order
      ⟨s, t, .puttingMany collection name items left rest, report⟩
      (whenOk ((target.calls now).putMany (items.map Prod.fst)
        (items.map Prod.snd) name none t) fun _ =>
          next { report with copied := report.copied + items.length }) :=
  .of_write rfl fun t => hnext _ t

theorem ends_copyBatch (hsetup : s.setupComplete = true)
    (hcol : (s.collection collection).isSome = true) {keys : List String}
    (hkeys : keys ≠ []) (report : MigrationReport) (t : τ)
    (hnext : ∀ report t, Ends config rng options target now order
      ⟨s, t, .reading collection name (keys.drop options.chunkSize) rest,
        report⟩ (next report t)) :
    Ends config rng options target now order
      ⟨s, t, .reading collection name keys rest, report⟩
      (whenOk (copyBatch options target (stillClock now) s collection name
        (keys.take options.chunkSize) report t) next) := by
  obtain ⟨key, keys, rfl⟩ := List.exists_cons_of_ne_nil hkeys
  have hsame := ensureCollection_eq hcol
  cases hpreserve : options.preserveTtl with
  | true =>
      simp only [copyBatch, hpreserve, if_true]
      refine .of_step ?_ (ends_copyItems _ _ t hnext)
      simp only [Copy.step, hpreserve, if_true,
        readCall_ttlMany now order hsetup, Copy.readThen, Response.withTtls,
        zip_map_self, hsame]
      rfl
  | false =>
      have hitems : ((key :: keys).take options.chunkSize).filterMap
          (fun key => (reportValue (stillClock now collection key)
            (s.entry collection key)).map fun value => (key, value)) =
            valueItems s now collection
              ((key :: keys).take options.chunkSize) := by
        refine List.filterMap_congr fun key _ => ?_
        rw [stillClock, reportValue_still, Option.map_map]
        rfl
      simp only [copyBatch, hpreserve, Bool.false_eq_true, if_false, hitems]
      cases hempty : (valueItems s now collection
          ((key :: keys).take options.chunkSize)).isEmpty with
      | true =>
          refine .of_step ?_ (hnext _ t)
          simp only [Copy.step, hpreserve, Bool.false_eq_true, if_false,
            readCall_getMany now order hsetup, Copy.readThen, Response.found,
            filterMap_zip, hempty, if_true, hsame]
      | false =>
          have hput (items : List (String × Value)) :
              target.putMany (fun _ => now) items name t =
                (target.calls now).putMany (items.map Prod.fst)
                  (items.map Prod.snd) name none t := by
            simp only [EntryTarget.calls, mapM_ofTtl_none,
              EntryTarget.putMany, List.map_map, List.zip_map',
              Function.comp_def]
          simp only [stillClock, hput, Bool.false_eq_true, if_false,
            whenOk_whenOk]
          refine .of_step ?_ (ends_putMany _ { report with
            scanned := report.scanned +
              ((key :: keys).take options.chunkSize).length
            skippedExpired := report.skippedExpired +
              (((key :: keys).take options.chunkSize).length -
                (valueItems s now collection
                  ((key :: keys).take options.chunkSize)).length) } t hnext)
          simp only [Copy.step, hpreserve, Bool.false_eq_true, if_false,
            readCall_getMany now order hsetup, Copy.readThen, Response.found,
            filterMap_zip, hempty, hsame]

theorem ends_copyBatches (hsetup : s.setupComplete = true)
    (hcol : (s.collection collection).isSome = true) (batches : Nat)
    (keys : List String) (hbatches : keys.length ≤ batches)
    (report : MigrationReport) (t : τ)
    (hnext : ∀ report t, Ends config rng options target now order
      ⟨s, t, .enumerating rest, report⟩ (next report t)) :
    Ends config rng options target now order
      ⟨s, t, .reading collection name keys rest, report⟩
      (whenOk (copyBatches options target (stillClock now) s collection name
        batches keys report t) next) := by
  induction batches generalizing keys report t with
  | zero =>
      rw [List.length_eq_zero_iff.mp (Nat.le_zero.mp hbatches)]
      exact .of_step rfl (hnext report t)
  | succ batches ih =>
      by_cases hkeys : keys = []
      · rw [hkeys]
        exact .of_step rfl (hnext report t)
      · have hempty : keys.isEmpty = false := by simpa using hkeys
        simp only [copyBatches, hempty, Bool.false_eq_true, if_false,
          whenOk_whenOk]
        refine ends_copyBatch hsetup hcol hkeys report t fun report t => ?_
        apply ih
        have hchunk := options.chunkSize_pos
        rw [List.length_drop]
        omega

theorem ends_copyCollections (hsetup : s.setupComplete = true)
    (collections : List String)
    (hlisted : ∀ collection ∈ collections,
      (s.collection collection).isSome = true)
    (report : MigrationReport) (t : τ) :
    Ends config rng options target now order
      ⟨s, t, .enumerating collections, report⟩
      (copyCollections options target (stillClock now) s order collections
        report t) := by
  induction collections generalizing report t with
  | nil => exact .of_step rfl (.of_finished rfl rfl (by rintro _ ⟨⟩; rfl))
  | cons collection collections ih =>
      obtain ⟨hcol, hlisted⟩ := List.forall_mem_cons.mp hlisted
      cases hroute : route options collection with
      | none =>
          simp only [copyCollections, hroute]
          refine .of_step ?_ (ih hlisted report t)
          unfold route at hroute
          cases hselected : options.selected collection with
          | true =>
              rw [hselected, if_pos rfl] at hroute
              simp only [Copy.step, hselected, if_true, hroute]
          | false =>
              simp only [Copy.step, hselected, Bool.false_eq_true, if_false]
      | some name =>
          obtain ⟨hselected, hmapped⟩ := route_eq_some.mp hroute
          simp only [copyCollections, hroute]
          refine .of_step ?_ (ends_copyBatches hsetup hcol _ _ (Nat.le_refl _)
            report t (ih hlisted))
          simp only [Copy.step, hselected, if_true, hmapped,
            readCall_keys now order hsetup, Copy.readThen, Response.listed,
            ensureCollection_eq hcol]
          rfl

theorem copySnapshot_by_steps (hsetup : s.setupComplete = true) (t : τ) :
    Ends config rng options target now order ⟨s, t, .listing, .zero⟩
      (copySnapshot options target (stillClock now) s order t) := by
  refine .of_step rfl (ends_copyCollections hsetup _ ?_ _ t)
  intro collection hmem
  have hkey := (order.keys_perm "" _).mem_iff.mp (List.mem_of_mem_take hmem)
  obtain ⟨col, hcol⟩ := KeyedMap.mem_keys_iff.mp hkey
  exact Option.isSome_iff_exists.mpr ⟨col, hcol⟩

end Copy

section Change

variable (config : MemoryConfig) (rng : Nat → Option Revision)
  (options : MigrationOptions) (order : Order)

def LiveState.applyWhole (s : LiveState) (target : Target MemoryState)
    (stream : MemoryChangeStream) (change : StoreChange)
    (report : MigrationReport) : LiveState :=
  let s := s.apply config rng options order target stream change report
  match s.stage with
  | .writing stream change name value report =>
      s.write target stream change name value report
  | _ => s

def Stage.ofChange (stream : MemoryChangeStream) (report : MigrationReport) :
    Except Error MigrationReport → Stage
  | .ok applied => .awaiting stream (report.merge applied)
  | .error error => .failed error

theorem wrote_eq (s : LiveState) (stream : MemoryChangeStream)
    (report applied : MigrationReport)
    (reply : Except Error Unit × MemoryState) :
    let outcome := whenOk reply fun _ t => (.ok applied, t)
    (s.wrote reply (.awaiting stream (report.merge applied))).target =
        outcome.2 ∧
      (s.wrote reply (.awaiting stream (report.merge applied))).stage =
        .ofChange stream report outcome.1 := by
  obtain ⟨error | done, t⟩ := reply <;> exact ⟨rfl, rfl⟩

theorem readCall_change {s : MemoryState} (hsetup : s.setupComplete = true)
    (now : DateTime) (key name : String) :
    ∃ response, readCall config rng now order (if options.preserveTtl
        then .ttl key (some name) else .get key (some name)) s =
          (.ok response, s.ensureCollection name) ∧
      (if options.preserveTtl then response.remaining
        else response.single.map fun value => (value, none)) =
      if options.preserveTtl then
        reportTtl ⟨now, now, now⟩ (s.entry name key)
      else (reportValue ⟨now, now, now⟩ (s.entry name key)).map
        fun value => (value, none) := by
  cases options.preserveTtl with
  | true => exact ⟨_, readCall_ttl now order hsetup key name, rfl⟩
  | false => exact ⟨_, readCall_get now order hsetup key name, rfl⟩

theorem applyChange_by_steps {s : LiveState}
    (hsetup : s.source.state.setupComplete = true)
    (target : EntryTarget MemoryState) (stream : MemoryChangeStream)
    (change : StoreChange) (report : MigrationReport) :
    let outcome := applyChange options target (stillClock s.source.clock)
      s.source.state change s.target
    let s' := s.applyWhole config rng options order
      (target.calls s.source.clock) stream change report
    s'.target = outcome.2 ∧ s'.stage = .ofChange stream report outcome.1 := by
  cases hroute : route options change.collection with
  | none =>
      have happly : s.apply config rng options order
          (target.calls s.source.clock) stream change report =
            { s with stage := .awaiting stream report } := by
        unfold route at hroute
        cases hselected : options.selected change.collection with
        | true =>
            rw [hselected, if_pos rfl] at hroute
            simp only [LiveState.apply, hselected, if_true, hroute]
        | false =>
            simp only [LiveState.apply, hselected, Bool.false_eq_true, if_false]
      rw [LiveState.applyWhole, happly, applyChange, hroute]
      exact ⟨rfl, rfl⟩
  | some name =>
      obtain ⟨hselected, hmapped⟩ := route_eq_some.mp hroute
      cases hoperation : change.operation with
      | delete =>
          simp only [applyChange, hroute, hoperation, LiveState.applyWhole,
            LiveState.apply, hselected, if_true, hmapped]
          exact ⟨rfl, rfl⟩
      | put =>
          obtain ⟨response, hread, hfound⟩ := readCall_change config rng
            options order hsetup s.source.clock change.key change.collection
          simp only [applyChange, hroute, hoperation, LiveState.applyWhole,
            LiveState.apply, hselected, if_true, hmapped, hread, hfound,
            stillClock]
          generalize (if options.preserveTtl = true then _ else _ :
            Option (Value × Option F64)) = found
          cases found with
          | none => exact ⟨rfl, rfl⟩
          | some item => exact wrote_eq _ stream report _ _

end Change

end OpenKeyV.Memory
