import OpenKeyV.Memory.Contents
import OpenKeyV.Memory.SnapshotPages

/-!
# What a read leaves behind

Every read sets its collection up, also where there is none yet.  A copy of the
store meets that collection without keys and goes on to the next one, so that it
does what it does without it.
-/

namespace OpenKeyV.Memory

open OpenKeyV.Library

/-! ## The reads -/

def Call.readName (config : MemoryConfig) : Call → Option String
  | .get _ collection => some (config.collectionName collection)
  | .ttl _ collection => some (config.collectionName collection)
  | .getMany _ collection => some (config.collectionName collection)
  | .ttlMany _ collection => some (config.collectionName collection)
  | .getWithRevision _ collection => some (config.collectionName collection)
  | .keys collection _ => some (config.collectionName collection)
  | _ => none

section Reads

variable {config : MemoryConfig} {s : MemoryState} {call : Call} {name : String}

theorem runAlone_read (rng : Nat → Option Revision) (now : DateTime)
    (order : Order) (hread : call.readName config = some name)
    (hsetup : s.setupComplete = true) :
    (runAlone config rng now order call s).2 = s.ensureCollection name := by
  have hrun : ∀ call, start now call = .setup call →
      runAlone config rng now order call s =
        finish config now order (prepare config rng now order s call) := by
    intro call hstart
    rw [runAlone_eq hstart, setup_complete hsetup]
    rfl
  cases call <;> cases hread <;> rw [hrun _ rfl] <;> rfl

theorem keys_ensureCollection (h : s.collection name = none) :
    (s.ensureCollection name).collections.keys =
      name :: s.collections.keys := by
  have habsent : name ∉ s.collections.keys := by
    rw [mem_collections, h]
    exact Bool.false_ne_true
  rw [MemoryState.ensureCollection, h]
  exact (AList.keys_insert ..).trans
    (congrArg _ (List.erase_of_not_mem habsent))

theorem live_ensureCollection (s : MemoryState) (name : String)
    (now : DateTime) (other key : String) :
    (s.ensureCollection name).live now other key = s.live now other key := by
  simp only [MemoryState.live, MemoryState.entry_ensureCollection]

end Reads

/-! ## Copies beside an empty collection -/

def CopyPhase.without (name : String) : CopyPhase → CopyPhase
  | .opening => .opening
  | .listing => .listing
  | .enumerating collections => .enumerating (collections.filter (· ≠ name))
  | .reading collection target keys rest =>
      if collection = name then .enumerating (rest.filter (· ≠ name))
      else .reading collection target keys (rest.filter (· ≠ name))
  | .putting collection target items left rest =>
      .putting collection target items left (rest.filter (· ≠ name))
  | .puttingMany collection target items left rest =>
      .puttingMany collection target items left (rest.filter (· ≠ name))
  | .finished result => .finished result

def CopyPhase.About (name : String) : CopyPhase → Prop
  | .enumerating (collection :: _) => collection = name
  | .reading collection _ _ _ => collection = name
  | _ => False

section Copies

variable {τ : Type} (s : MemoryState) (name : String)

def Copy.without (m : Copy τ) : Copy τ :=
  { m with source := s, phase := m.phase.without name }

def CopyPhase.Beside : CopyPhase → Prop
  | .opening | .listing => False
  | .enumerating rest =>
      ∀ other ∈ rest, other ≠ name → (s.collection other).isSome = true
  | .reading collection _ keys rest =>
      (collection = name → keys = []) ∧
        ∀ other ∈ collection :: rest, other ≠ name →
          (s.collection other).isSome = true
  | .putting collection _ _ _ rest | .puttingMany collection _ _ _ rest =>
      collection ≠ name ∧
        ∀ other ∈ collection :: rest, other ≠ name →
          (s.collection other).isSome = true
  | .finished _ => True

def CopyPhase.turns : CopyPhase → Nat
  | .enumerating rest => 2 * rest.length
  | .reading _ _ _ rest => 2 * rest.length + 1
  | _ => 0

structure Copy.Beside (m : Copy τ) : Prop where
  source : m.source = s.ensureCollection name
  phase : m.phase.Beside s name

variable {s name} {config : MemoryConfig} {rng : Nat → Option Revision}
  {options : MigrationOptions} {target : Target τ} {m m' : Copy τ}
  {label : DateTime × Order}

theorem without_reading {collection : String} (hne : collection ≠ name)
    (targetName : String) (keys rest : List String) :
    (CopyPhase.reading collection targetName keys rest).without name =
      .reading collection targetName keys (rest.filter (· ≠ name)) :=
  if_neg hne

theorem both_step {outcome outcome' : Option (Copy τ)}
    (h : outcome = some m') (h' : outcome' = some (m'.without s name))
    (hbeside : m'.Beside s name) :
    outcome' = outcome.map (·.without s name) ∧
      ∀ m', outcome = some m' → m'.Beside s name := by
  subst h h'
  exact ⟨rfl, fun m' heq => Option.some.inj heq ▸ hbeside⟩

theorem step_without (hsetup : s.setupComplete = true) (h : m.Beside s name)
    (hother : ¬ m.phase.About name) :
    (m.without s name).step config rng options target label =
        (m.step config rng options target label).map (·.without s name) ∧
      ∀ m', m.step config rng options target label = some m' →
        m'.Beside s name := by
  obtain ⟨source, t, phase, report⟩ := m
  obtain ⟨now, order⟩ := label
  obtain ⟨rfl, hphase⟩ := h
  have hsetup' : (s.ensureCollection name).setupComplete = true := by
    simpa using hsetup
  have hcollection : ∀ {other}, other ≠ name →
      (s.ensureCollection name).collection other = s.collection other := by
    intro other hne
    rw [MemoryState.collection_ensureCollection, if_neg hne]
  have hensure : ∀ {other}, other ≠ name →
      (s.collection other).isSome = true →
        s.ensureCollection other = s ∧
          (s.ensureCollection name).ensureCollection other =
            s.ensureCollection name := fun {other} hne hthere =>
    ⟨ensureCollection_eq hthere,
      ensureCollection_eq (by rwa [hcollection hne])⟩
  cases phase with
  | opening => exact hphase.elim
  | listing => exact hphase.elim
  | finished result => exact ⟨rfl, fun m' h => by cases h⟩
  | enumerating collections =>
      cases collections with
      | nil => exact both_step rfl rfl ⟨rfl, trivial⟩
      | cons collection rest =>
          have hne : collection ≠ name := hother
          obtain ⟨hthere, hrest⟩ := List.forall_mem_cons.mp hphase
          have hkept : (collection :: rest).filter (· ≠ name) =
              collection :: rest.filter (· ≠ name) :=
            List.filter_cons_of_pos (by simpa using hne)
          obtain ⟨hsame, hsame'⟩ := hensure hne (hthere hne)
          simp only [Copy.without, CopyPhase.without, hkept, Copy.step,
            readCall_keys now order hsetup, readCall_keys now order hsetup',
            hcollection hne, hsame, hsame', Copy.readThen, Response.listed]
          cases options.selected collection with
          | false => exact both_step rfl rfl ⟨rfl, hrest⟩
          | true =>
              cases options.targetCollection collection with
              | none => exact both_step rfl rfl ⟨rfl, hrest⟩
              | some targetName =>
                  refine both_step rfl ?_ ⟨rfl, fun h => absurd h hne, hphase⟩
                  rw [Copy.without, without_reading hne]
                  rfl
  | reading collection targetName keys rest =>
      have hne : collection ≠ name := hother
      obtain ⟨-, hall⟩ := hphase
      obtain ⟨hthere, hrest⟩ := List.forall_mem_cons.mp hall
      obtain ⟨hsame, hsame'⟩ := hensure hne (hthere hne)
      rw [Copy.without, without_reading hne]
      cases keys with
      | nil => exact both_step rfl rfl ⟨rfl, hrest⟩
      | cons key keys =>
          simp only [Copy.step, readCall_ttlMany now order hsetup,
            readCall_ttlMany now order hsetup',
            readCall_getMany now order hsetup,
            readCall_getMany now order hsetup', live_ensureCollection, hsame,
            hsame', Copy.readThen, Response.withTtls, Response.found,
            filterMap_zip]
          cases options.preserveTtl with
          | true => exact both_step rfl rfl ⟨rfl, hne, hall⟩
          | false =>
              cases (valueItems s now collection
                ((key :: keys).take options.chunkSize)).isEmpty with
              | true =>
                  refine both_step rfl ?_ ⟨rfl, fun h => absurd h hne, hall⟩
                  rw [Copy.without]
                  simp only [if_true, without_reading hne]
                  rfl
              | false => exact both_step rfl rfl ⟨rfl, hne, hall⟩
  | putting collection targetName items left rest =>
      obtain ⟨hne, hall⟩ := hphase
      rcases items with _ | ⟨⟨key, _ | ⟨value, ttl⟩⟩, items⟩
      · refine both_step rfl ?_ ⟨rfl, fun h => absurd h hne, hall⟩
        rw [Copy.without, Copy.without, without_reading hne]
        rfl
      · exact both_step rfl rfl ⟨rfl, hne, hall⟩
      · simp only [Copy.without, CopyPhase.without, Copy.step]
        rcases target.put key value targetName ttl t with ⟨_ | _, t'⟩
        · exact both_step rfl rfl ⟨rfl, trivial⟩
        · exact both_step rfl rfl ⟨rfl, hne, hall⟩
  | puttingMany collection targetName items left rest =>
      obtain ⟨hne, hall⟩ := hphase
      simp only [Copy.without, CopyPhase.without, Copy.step]
      rcases target.putMany (items.map Prod.fst) (items.map Prod.snd)
        targetName none t with ⟨_ | _, t'⟩
      · exact both_step rfl rfl ⟨rfl, trivial⟩
      · simp only [Copy.writeThen]
        refine both_step rfl ?_ ⟨rfl, fun h => absurd h hne, hall⟩
        rw [Copy.without, without_reading hne]

theorem step_about (hsetup : s.setupComplete = true)
    (hnone : s.collection name = none) (h : m.Beside s name)
    (habout : m.phase.About name) :
    ∃ m', m.step config rng options target label = some m' ∧
      m'.phase.turns < m.phase.turns ∧
      m'.without s name = m.without s name ∧ m'.Beside s name := by
  obtain ⟨source, t, phase, report⟩ := m
  obtain ⟨now, order⟩ := label
  obtain ⟨rfl, hphase⟩ := h
  have hsetup' : (s.ensureCollection name).setupComplete = true := by
    simpa using hsetup
  cases phase with
  | enumerating collections =>
      cases collections with
      | nil => exact habout.elim
      | cons collection rest =>
          obtain rfl : collection = name := habout
          have hrest := (List.forall_mem_cons.mp hphase).2
          have hdropped : (collection :: rest).filter (· ≠ collection) =
              rest.filter (· ≠ collection) :=
            List.filter_cons_of_neg (by simp)
          have hsame : (s.ensureCollection collection).ensureCollection
              collection = s.ensureCollection collection :=
            ensureCollection_eq (by simp)
          have hempty : ((s.ensureCollection collection).collection
              collection).getD ∅ = ∅ := by
            rw [MemoryState.collection_ensureCollection, if_pos rfl, hnone]
            rfl
          have hfewer : (CopyPhase.reading collection "" [] rest).turns <
              (CopyPhase.enumerating (collection :: rest)).turns := by
            simp only [CopyPhase.turns, List.length_cons]
            omega
          simp only [Copy.step, readCall_keys now order hsetup', hsame, hempty,
            Copy.readThen, Response.listed, Copy.without, CopyPhase.without,
            hdropped]
          cases options.selected collection with
          | false =>
              exact ⟨_, rfl, Nat.lt_of_succ_lt hfewer, rfl, rfl, hrest⟩
          | true =>
              cases options.targetCollection collection with
              | none =>
                  exact ⟨_, rfl, Nat.lt_of_succ_lt hfewer, rfl, rfl, hrest⟩
              | some targetName =>
                  refine ⟨_, rfl, hfewer, ?_, rfl, fun _ => ?_, hphase⟩
                  · simp only [if_true]
                  · have hkeys := (order.keys_perm collection
                      (∅ : Collection).keys).eq_nil
                    rw [hkeys, List.take_nil]
  | reading collection targetName keys rest =>
      obtain rfl : collection = name := habout
      obtain ⟨hnil, hall⟩ := hphase
      obtain rfl := hnil rfl
      refine ⟨_, rfl, Nat.lt_succ_self _, ?_, rfl,
        (List.forall_mem_cons.mp hall).2⟩
      simp only [Copy.without, CopyPhase.without, if_true]
  | _ => exact habout.elim

theorem run_without (hsetup : s.setupComplete = true)
    (hnone : s.collection name = none) {labels : List (DateTime × Order)}
    (h : m.Beside s name)
    (hrun : run (Copy.step config rng options target) m labels = some m') :
    ∃ labels', run (Copy.step config rng options target) (m.without s name)
      labels' = some (m'.without s name) := by
  induction labels generalizing m with
  | nil =>
      cases hrun
      exact ⟨[], rfl⟩
  | cons label labels ih =>
      obtain ⟨m₁, hstep, hrun⟩ := run_cons_eq_some.mp hrun
      by_cases habout : m.phase.About name
      · obtain ⟨m₂, hstep', -, hsame, hbeside⟩ :=
          step_about hsetup hnone h habout
        obtain rfl := Option.some.inj (hstep.symm.trans hstep')
        rw [← hsame]
        exact ih hbeside hrun
      · obtain ⟨hsame, hbeside⟩ := step_without hsetup h habout
        obtain ⟨labels', hrun'⟩ := ih (hbeside m₁ hstep) hrun
        refine ⟨label :: labels', run_cons_eq_some.mpr ⟨_, ?_, hrun'⟩⟩
        rw [hsame, hstep]
        rfl

theorem exists_past (config : MemoryConfig) (rng : Nat → Option Revision)
    (options : MigrationOptions) (target : Target τ) (now : DateTime)
    (hsetup : s.setupComplete = true) (hnone : s.collection name = none)
    (h : m.Beside s name) :
    ∃ labels m', run (Copy.step config rng options target) m labels =
        some m' ∧ m'.without s name = m.without s name ∧ m'.Beside s name ∧
      ¬ m'.phase.About name := by
  induction hturns : m.phase.turns using Nat.strong_induction_on
    generalizing m with
  | h n ih =>
      by_cases habout : m.phase.About name
      · obtain ⟨m₁, hstep, hless, hsame, hbeside⟩ :=
          @step_about τ s name config rng options target m (now, .stored)
            hsetup hnone h habout
        obtain ⟨labels, m₂, hrun, hsame', hpast⟩ :=
          ih _ (hturns ▸ hless) hbeside rfl
        exact ⟨(now, .stored) :: labels, m₂,
          run_cons_eq_some.mpr ⟨m₁, hstep, hrun⟩, hsame'.trans hsame, hpast⟩
      · exact ⟨[], m, rfl, rfl, h, habout⟩

theorem run_with (hsetup : s.setupComplete = true)
    (hnone : s.collection name = none) {labels : List (DateTime × Order)}
    (h : m.Beside s name)
    (hrun : run (Copy.step config rng options target) (m.without s name)
      labels = some m') :
    ∃ labels' m'', run (Copy.step config rng options target) m labels' =
      some m'' ∧ m''.without s name = m' := by
  induction labels generalizing m with
  | nil =>
      cases hrun
      exact ⟨[], m, rfl, rfl⟩
  | cons label labels ih =>
      obtain ⟨past, m₁, hpast, hsame, hbeside, hother⟩ :=
        exists_past config rng options target label.1 hsetup hnone h
      rw [← hsame] at hrun
      obtain ⟨m₂, hstep, hrun⟩ := run_cons_eq_some.mp hrun
      obtain ⟨hboth, hkeeps⟩ := @step_without τ s name config rng options target
        m₁ label hsetup hbeside hother
      obtain ⟨m₃, hstep', rfl⟩ :=
        Option.map_eq_some_iff.mp (hboth.symm.trans hstep)
      obtain ⟨labels', m₄, hrun', heq⟩ := ih (hkeeps m₃ hstep') hrun
      refine ⟨past ++ label :: labels', m₄, ?_, heq⟩
      exact run_append_eq_some.mpr
        ⟨m₁, hpast, run_cons_eq_some.mpr ⟨m₃, hstep', hrun'⟩⟩

theorem finished_without {phase : CopyPhase} {result : Except Error Unit} :
    phase.without name = .finished result ↔ phase = .finished result := by
  constructor
  · intro h
    cases phase with
    | reading collection target keys rest =>
        rw [CopyPhase.without] at h
        split at h <;> cases h
    | finished => exact h
    | _ => cases h
  · rintro rfl
    rfl

def CopyEnds (config : MemoryConfig) (rng : Nat → Option Revision)
    (options : MigrationOptions) (target : Target τ) (t : τ)
    (result : Except Error Unit) (t' : τ) (report : MigrationReport)
    (s : MemoryState) : Prop :=
  ∃ labels m, run (Copy.step config rng options target) (Copy.start s t)
      labels = some m ∧ m.phase = .finished result ∧ m.target = t' ∧
    m.report = report

theorem copyEnds_iff_listed (hsetup : s.setupComplete = true) {t t' : τ}
    {result : Except Error Unit} {report : MigrationReport} :
    CopyEnds config rng options target t result t' report s ↔
      ∃ (label : DateTime × Order) (labels : List (DateTime × Order))
        (m : Copy τ),
        run (Copy.step config rng options target) (Copy.listed s label.2 t)
            labels = some m ∧ m.phase = .finished result ∧ m.target = t' ∧
          m.report = report := by
  constructor
  · rintro ⟨_ | ⟨first, labels⟩, m, hrun, hphase, hends⟩
    · cases hrun
      cases hphase
    · obtain ⟨label, rest, -, hlisted⟩ :=
        run_listed (setup_complete hsetup first.1 first.2) hrun hphase
      exact ⟨label, rest, m, hlisted, hphase, hends⟩
  · rintro ⟨label, labels, m, hrun, hends⟩
    exact ⟨_, m, listed_run (setup_complete hsetup label.1 label.2) hrun, hends⟩

theorem listed_beside (order : Order) (t : τ) :
    (Copy.listed (s.ensureCollection name) order t).Beside s name := by
  refine ⟨rfl, fun other hmem hne => ?_⟩
  have hthere := mem_collections.mp
    ((order.keys_perm _ _).mem_iff.mp (List.mem_of_mem_take hmem))
  rwa [MemoryState.collection_ensureCollection, if_neg hne] at hthere

theorem listed_without (hnone : s.collection name = none)
    (hpage : s.collections.size < pageLimit) {order order' : Order}
    (horder : order.keys "" s.collections.keys =
      (order'.keys "" (s.ensureCollection name).collections.keys).filter
        (· ≠ name)) (t : τ) :
    (Copy.listed (s.ensureCollection name) order' t).without s name =
      Copy.listed s order t := by
  have hlength : s.collections.keys.length < pageLimit := hpage
  have hlength' := congrArg List.length (keys_ensureCollection hnone)
  rw [List.length_cons] at hlength'
  simp only [Copy.listed, Copy.without, CopyPhase.without, collectionsPage]
  rw [List.take_of_length_le (by
      rw [(order'.keys_perm _ _).length_eq]
      omega), ← horder, List.take_of_length_le (by
      rw [(order.keys_perm _ _).length_eq]
      omega)]

theorem filter_keys_perm (hnone : s.collection name = none) :
    ((s.ensureCollection name).collections.keys.filter (· ≠ name)).Perm
      s.collections.keys := by
  have habsent : name ∉ s.collections.keys := by
    rw [mem_collections, hnone]
    exact Bool.false_ne_true
  rw [keys_ensureCollection hnone, List.filter_cons_of_neg (by simp),
    List.filter_eq_self.mpr fun other hmem => by
      simpa using fun h : other = name => habsent (h ▸ hmem)]

theorem copyEnds_ensureCollection (hsetup : s.setupComplete = true)
    (hnone : s.collection name = none)
    (hpage : s.collections.size < pageLimit) {t t' : τ}
    {result : Except Error Unit} {report : MigrationReport} :
    CopyEnds config rng options target t result t' report
        (s.ensureCollection name) ↔
      CopyEnds config rng options target t result t' report s := by
  have hsetup' : (s.ensureCollection name).setupComplete = true := by
    simpa using hsetup
  rw [copyEnds_iff_listed hsetup, copyEnds_iff_listed hsetup']
  constructor
  · rintro ⟨label, labels, m, hrun, hphase, htarget, hreport⟩
    obtain ⟨order, horder⟩ := exists_order_keys
      (((label.2.keys_perm "" _).filter _).trans (filter_keys_perm hnone)) ""
    obtain ⟨labels', hrun'⟩ :=
      run_without hsetup hnone (listed_beside label.2 t) hrun
    rw [listed_without hnone hpage horder] at hrun'
    exact ⟨(label.1, order), labels', _, hrun', finished_without.mpr hphase,
      htarget, hreport⟩
  · rintro ⟨label, labels, m, hrun, hphase, rfl, rfl⟩
    have habsent : name ∉ label.2.keys "" s.collections.keys := by
      rw [(label.2.keys_perm _ _).mem_iff, mem_collections, hnone]
      exact Bool.false_ne_true
    obtain ⟨order, horder⟩ := @exists_order_keys
      (s.ensureCollection name).collections.keys
      (name :: label.2.keys "" s.collections.keys) (by
        rw [keys_ensureCollection hnone]
        exact (label.2.keys_perm "" _).cons name) ""
    have hlisted : label.2.keys "" s.collections.keys =
        (order.keys "" (s.ensureCollection name).collections.keys).filter
          (· ≠ name) := by
      rw [horder, List.filter_cons_of_neg (by simp),
        List.filter_eq_self.mpr fun other hmem => by
          simpa using fun h : other = name => habsent (h ▸ hmem)]
    rw [← listed_without hnone hpage hlisted] at hrun
    obtain ⟨labels', m', hrun', rfl⟩ :=
      run_with hsetup hnone (listed_beside order t) hrun
    exact ⟨(label.1, order), labels', m', hrun', finished_without.mp hphase,
      rfl, rfl⟩

end Copies

/-! ## Observers -/

section Observers

variable (config : MemoryConfig) (rng : Nat → Option Revision)

def callAll : List (DateTime × Order × Call) → MemoryState → MemoryState
  | [], s => s
  | (now, order, call) :: calls, s =>
      callAll calls (runAlone config rng now order call s).2

/-- Whatever is called first, the observers answer of one store what they
answer of the other. -/
structure ObservedAlike (s s' : MemoryState) : Prop where
  collections : ∀ calls now order limit,
    (runAlone config rng now order (.collections limit)
        (callAll config rng calls s')).1 =
      (runAlone config rng now order (.collections limit)
        (callAll config rng calls s)).1
  destroyCollection : ∀ calls now order other,
    (runAlone config rng now order (.destroyCollection other)
        (callAll config rng calls s')).1 =
      (runAlone config rng now order (.destroyCollection other)
        (callAll config rng calls s)).1
  copySnapshot : ∀ {τ : Type} calls options (target : Target τ) t result t'
      report,
    CopyEnds config rng options target t result t' report
        (callAll config rng calls s') ↔
      CopyEnds config rng options target t result t' report
        (callAll config rng calls s)

/-- The second store has an empty collection that the first has not: what the
observers make of it. -/
structure ObservedBeside (name : String) (s s' : MemoryState) : Prop where
  collection : ∀ other, s'.collection other =
    if other = name then some ∅ else s.collection other
  collections : ∀ now order limit,
    Lists (name :: s.collections.keys) (pageLen limit)
        (runAlone config rng now order (.collections limit) s').1 ∧
      Lists s.collections.keys (pageLen limit)
        (runAlone config rng now order (.collections limit) s).1
  destroyed : ∀ now order,
    (runAlone config rng now order (.destroyCollection name) s').1 =
        .ok (.flag true) ∧
      (runAlone config rng now order (.destroyCollection name) s).1 =
        .ok (.flag false)
  destroyCollection : ∀ now order other, other ≠ name →
    (runAlone config rng now order (.destroyCollection other) s').1 =
      (runAlone config rng now order (.destroyCollection other) s).1
  copySnapshot : s.collections.size < pageLimit →
    ∀ {τ : Type} options (target : Target τ) t result t' report,
      CopyEnds config rng options target t result t' report s' ↔
        CopyEnds config rng options target t result t' report s

variable {config rng} {s : MemoryState} {name : String}

theorem collections_answer (now : DateTime) (order : Order)
    (hsetup : s.setupComplete = true) (limit : Option Nat) :
    Lists s.collections.keys (pageLen limit)
      (runAlone config rng now order (.collections limit) s).1 := by
  rw [runAlone_eq rfl, setup_complete hsetup]
  exact lists_take s.collections.keys_nodup (order.keys_perm _ _) _

theorem destroyCollection_answer (now : DateTime) (order : Order)
    (hsetup : s.setupComplete = true) (other : String) :
    (runAlone config rng now order (.destroyCollection other) s).1 =
      .ok (.flag (s.collection other).isSome) := by
  rw [runAlone_eq rfl, setup_complete hsetup]
  simp only [andThen, prepare, finish, perform, Memory.destroyCollection]
  cases s.collection other <;> rfl

theorem observedBeside_ensureCollection (hsetup : s.setupComplete = true)
    (hnone : s.collection name = none) :
    ObservedBeside config rng name s (s.ensureCollection name) := by
  have hsetup' : (s.ensureCollection name).setupComplete = true := by
    simpa using hsetup
  refine ⟨fun other => ?_, fun now order limit => ?_, fun now order => ?_,
    fun now order other hne => ?_, fun hpage {τ} options target t result t'
      report => copyEnds_ensureCollection hsetup hnone hpage⟩
  · rw [MemoryState.collection_ensureCollection, hnone, Option.getD_none]
  · have h := @collections_answer config rng _ now order hsetup' limit
    rw [keys_ensureCollection hnone] at h
    exact ⟨h, collections_answer now order hsetup limit⟩
  · rw [destroyCollection_answer now order hsetup',
      destroyCollection_answer now order hsetup, hnone,
      MemoryState.collection_ensureCollection, if_pos rfl]
    exact ⟨rfl, rfl⟩
  · rw [destroyCollection_answer now order hsetup',
      destroyCollection_answer now order hsetup,
      MemoryState.collection_ensureCollection, if_neg hne]

/-- No observer sees a read of a collection that is there.  Any other read adds
its collection, empty, and nothing else. -/
theorem reads_add_their_collection_only {call : Call} (now : DateTime)
    (order : Order) (hread : call.readName config = some name)
    (hsetup : s.setupComplete = true) :
    (ObservedAlike config rng s (runAlone config rng now order call s).2 ↔
        (s.collection name).isSome = true) ∧
      (s.collection name = none →
        ObservedBeside config rng name s
          (runAlone config rng now order call s).2) := by
  rw [runAlone_read rng now order hread hsetup]
  have hbeside := @observedBeside_ensureCollection config rng s name hsetup
  refine ⟨⟨fun h => ?_, fun h => ?_⟩, hbeside⟩
  · by_contra hnot
    obtain ⟨hyes, hno⟩ :=
      (hbeside (Option.not_isSome_iff_eq_none.mp hnot)).destroyed now order
    have hsame := h.destroyCollection [] now order name
    rw [callAll, callAll, hyes, hno] at hsame
    cases hsame
  · rw [ensureCollection_eq h]
    exact ⟨fun _ _ _ _ => rfl, fun _ _ _ _ => rfl,
      fun _ _ _ _ _ _ _ => Iff.rfl⟩

end Observers

def unboundedStore : MemoryConfig := ⟨none, "default_collection", none⟩

def listedStore : MemoryState :=
  (runAlone unboundedStore (fun _ => none) .epoch .stored (.collections none)
    .empty).2

theorem reads_add_their_collection_only_listed :
    ObservedAlike unboundedStore (fun _ => none)
        (listedStore.ensureCollection "c")
        (runAlone unboundedStore (fun _ => none) .epoch .stored
          (.get "k" (some "c")) (listedStore.ensureCollection "c")).2 ∧
      ObservedBeside unboundedStore (fun _ => none) "c" listedStore
        (runAlone unboundedStore (fun _ => none) .epoch .stored
          (.keys (some "c") none) listedStore).2 :=
  ⟨(reads_add_their_collection_only .epoch .stored rfl rfl).1.mpr rfl,
    (reads_add_their_collection_only .epoch .stored rfl rfl).2 rfl⟩

/-- A read of a collection that is not there is seen when it is destroyed. -/
theorem read_of_absent_collection_is_seen :
    listedStore.setupComplete = true ∧
      (Call.get "k" (some "c")).readName unboundedStore = some "c" ∧
      ¬ ObservedAlike unboundedStore (fun _ => none) listedStore
        (runAlone unboundedStore (fun _ => none) .epoch .stored
          (.get "k" (some "c")) listedStore).2 := by
  refine ⟨rfl, rfl, fun h => ?_⟩
  have hsame := h.destroyCollection [] .epoch .stored "c"
  revert hsame
  decide +kernel

end OpenKeyV.Memory
