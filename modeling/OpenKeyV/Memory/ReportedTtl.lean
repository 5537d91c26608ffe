import OpenKeyV.Entry.Lifetime
import OpenKeyV.Memory.SnapshotCopy

/-!
# Writing a reported TTL

`copy_snapshot` and `apply_change` give the TTL that the source reports to a
`put` of the target.  Three readings of the clock lie between an entry and
its copy: the test whether it has expired, the one that measures what
remains, and the one that the new deadline is counted from.
-/

namespace OpenKeyV.Memory

open Library ManagedEntry

structure TtlReadings where
  checked : DateTime
  measured : DateTime
  written : DateTime

abbrev CopyClock := String → String → TtlReadings

/-- A store whose `put` builds its entry first: what becomes of the entry. -/
structure EntryTarget (τ : Type) where
  insert : String → String → ManagedEntry → τ → τ
  insertMany : String → List (String × ManagedEntry) → τ → τ
  delete : String → String → τ → τ

section Copy

variable {τ : Type} (options : MigrationOptions) (target : EntryTarget τ)
  (clock : CopyClock) (s : MemoryState)

namespace EntryTarget

def put (written : DateTime) (key : String) (value : Value) (name : String)
    (ttl : Option F64) (t : τ) : Except Error Unit × τ :=
  match ManagedEntry.ofTtl written value ttl with
  | .ok entry => (.ok (), target.insert name key entry t)
  | .error error => (.error error, t)

def putMany (written : String → DateTime) (items : List (String × Value))
    (name : String) (t : τ) : Except Error Unit × τ :=
  (.ok (), target.insertMany name
    (items.map fun item => (item.1, .new (written item.1) item.2)) t)

end EntryTarget

def reportTtl (r : TtlReadings) (stored : Option RevisionedEntry) :
    Option (Value × Option F64) :=
  (stored.filter fun stored => !stored.isExpired r.checked).map
    fun stored => (stored.entry.value, stored.entry.ttl r.measured)

def reportValue (r : TtlReadings) (stored : Option RevisionedEntry) :
    Option Value :=
  (stored.filter fun stored => !stored.isExpired r.checked).map
    fun stored => stored.entry.value

def whenOk {α : Type} (result : Except Error α × τ)
    (next : α → τ → Except Error MigrationReport × τ) :
    Except Error MigrationReport × τ :=
  match result with
  | (.error error, t) => (.error error, t)
  | (.ok a, t) => next a t

def copyItems (collection name : String) :
    List (String × Option (Value × Option F64)) → MigrationReport → τ →
      Except Error MigrationReport × τ
  | [], report, t => (.ok report, t)
  | (_, none) :: items, report, t =>
      copyItems collection name items
        { report with skippedExpired := report.skippedExpired + 1 } t
  | (key, some (value, ttl)) :: items, report, t =>
      whenOk (target.put (clock collection key).written key value name ttl t)
        fun _ => copyItems collection name items
          { report with copied := report.copied + 1 }

def copyBatch (collection name : String) (keys : List String)
    (report : MigrationReport) (t : τ) : Except Error MigrationReport × τ :=
  let report := { report with scanned := report.scanned + keys.length }
  if options.preserveTtl then
    copyItems target clock collection name (keys.map fun key =>
      (key, reportTtl (clock collection key) (s.entry collection key)))
      report t
  else
    let items := keys.filterMap fun key =>
      (reportValue (clock collection key) (s.entry collection key)).map
        fun value => (key, value)
    let report := { report with
      skippedExpired := report.skippedExpired + (keys.length - items.length) }
    if items.isEmpty then (.ok report, t)
    else
      whenOk (target.putMany (fun key => (clock collection key).written) items
        name t) fun _ t =>
          (.ok { report with copied := report.copied + items.length }, t)

/-- `keys.chunks(batch_size(options))`; the number bounds the batches. -/
def copyBatches (collection name : String) :
    Nat → List String → MigrationReport → τ →
      Except Error MigrationReport × τ
  | 0, _, report, t => (.ok report, t)
  | batches + 1, keys, report, t =>
      if keys.isEmpty then (.ok report, t)
      else
        whenOk (copyBatch options target clock s collection name
          (keys.take options.chunkSize) report t)
          (copyBatches collection name batches (keys.drop options.chunkSize))

/-- The loop over the collections.  `order` is the order in which the source
meets the keys. -/
def copyCollections (order : Order) :
    List String → MigrationReport → τ → Except Error MigrationReport × τ
  | [], report, t => (.ok report, t)
  | collection :: collections, report, t =>
      match route options collection with
      | none => copyCollections order collections report t
      | some name =>
          let keys := page s order collection
          whenOk (copyBatches options target clock s collection name
            keys.length keys report t) (copyCollections order collections)

def listedCollections (order : Order) : List String :=
  (order.keys "" s.collections.keys).take pageLimit

def copySnapshot (order : Order) (t : τ) : Except Error MigrationReport × τ :=
  copyCollections options target clock s order (listedCollections s order)
    .zero t

def applyChange (change : StoreChange) (t : τ) :
    Except Error MigrationReport × τ :=
  match route options change.collection with
  | none => (.ok .zero, t)
  | some name =>
      let report := { MigrationReport.zero with replayed := 1 }
      let r := clock change.collection change.key
      let stored := s.entry change.collection change.key
      match change.operation with
      | .delete => (.ok report, target.delete name change.key t)
      | .put =>
          match (if options.preserveTtl then reportTtl r stored
            else (reportValue r stored).map fun value => (value, none)) with
          | some (value, ttl) =>
              whenOk (target.put r.written change.key value name ttl t)
                fun _ t => (.ok report, t)
          | none => (.ok { report with skippedExpired := 1 },
              target.delete name change.key t)

end Copy

/-! ## One entry -/

section Entry

/-- A millisecond remains when it is measured, and the new deadline is in
range. -/
def Fitting (r : TtlReadings) (entry : ManagedEntry) : Prop :=
  ∀ expires, entry.expiresAt = some expires →
    entry.isExpired r.checked = false →
    r.measured.nanos + nanosPerMilli ≤ expires.nanos ∧
      (r.written.nanos + (expires.nanos - r.measured.nanos) / nanosPerMilli *
        nanosPerMilli) / nanosPerMilli ≤ maxMillis

theorem exists_nanos {nanos : Int} :
    (∃ t : DateTime, t.nanos = nanos) ↔
      minMillis ≤ nanos / nanosPerMilli ∧ nanos / nanosPerMilli ≤ maxMillis :=
  ⟨fun ⟨t, ht⟩ => ht ▸ ⟨t.lower, t.upper⟩, fun h => ⟨⟨nanos, h.1, h.2⟩, rfl⟩⟩

theorem lifetimeMillis_div (millis : Int) :
    lifetimeMillis (millis / 1000) = millis := by
  rw [lifetimeMillis, div_mul_cancel₀ _ (by norm_num), Rat.floor_intCast]

theorem expirationAt_millis {written : DateTime} {millis : Int}
    (hsmall : millis ≤ 2 ^ 63) :
    (∃ expires, expirationAt written (.finite (millis / 1000)) =
        .ok expires) ↔
      0 < millis ∧
        (written.nanos + millis * nanosPerMilli) / nanosPerMilli ≤
          maxMillis := by
  have hpos : (0 : Rat) < (millis : Rat) / 1000 ↔ 0 < millis := by
    rw [lt_div_iff₀ (by norm_num), zero_mul]
    exact_mod_cast Iff.rfl
  have hbound : (millis : Rat) / 1000 * 1000 ≤ 2 ^ 63 := by
    rw [div_mul_cancel₀ _ (by norm_num)]
    exact_mod_cast hsmall
  have hlower := written.lower
  have hrange := @exists_nanos (written.nanos + millis * nanosPerMilli)
  constructor
  · rintro ⟨expires, h⟩
    obtain ⟨secs, heq, hsecs, -, hnanos⟩ := expirationAt_eq_ok.mp h
    cases heq
    rw [lifetimeMillis_div] at hnanos
    exact ⟨hpos.mp hsecs, (hrange.mp ⟨expires, hnanos⟩).2⟩
  · rintro ⟨hmillis, hupper⟩
    obtain ⟨expires, hnanos⟩ := hrange.mpr ⟨by
      simp only [nanosPerMilli] at hlower ⊢
      omega, hupper⟩
    refine ⟨expires, expirationAt_eq_ok.mpr ⟨_, rfl, hpos.mpr hmillis, hbound,
      ?_⟩⟩
    rw [lifetimeMillis_div, hnanos]

theorem expirationAt_remaining {entry : ManagedEntry} {expires : DateTime}
    (h : entry.expiresAt = some expires) (measured written : DateTime) :
    (∀ t, entry.ttl measured = some t →
      ∃ expires', expirationAt written t = .ok expires') ↔
    measured.nanos + nanosPerMilli ≤ expires.nanos ∧
      (written.nanos + (expires.nanos - measured.nanos) / nanosPerMilli *
        nanosPerMilli) / nanosPerMilli ≤ maxMillis := by
  have hmeasured := measured.lower
  have hexpires := expires.upper
  have hsmall : (expires.nanos - measured.nanos) / nanosPerMilli ≤ 2 ^ 63 := by
    simp only [nanosPerMilli, minMillis, maxMillis] at *
    omega
  have hmilli : 0 < (expires.nanos - measured.nanos) / nanosPerMilli ↔
      measured.nanos + nanosPerMilli ≤ expires.nanos := by
    simp only [nanosPerMilli]
    omega
  simp only [ManagedEntry.ttl, h]
  split
  · rename_i hle
    rw [DateTime.le_def] at hle
    constructor
    · intro haccept
      obtain ⟨_, hzero⟩ := haccept _ rfl
      obtain ⟨secs, heq, hpos, -⟩ := expirationAt_eq_ok.mp hzero
      cases heq
      exact absurd hpos (lt_irrefl _)
    · rintro ⟨hroom, -⟩
      simp only [nanosPerMilli] at hroom
      omega
  · simp only [Option.some.injEq, forall_eq']
    rw [expirationAt_millis hsmall, hmilli]

theorem reportTtl_eq_some {r : TtlReadings} {stored : RevisionedEntry}
    {value : Value} {ttl : Option F64} :
    reportTtl r (some stored) = some (value, ttl) ↔
      stored.entry.isExpired r.checked = false ∧ stored.entry.value = value ∧
        stored.entry.ttl r.measured = ttl := by
  unfold reportTtl RevisionedEntry.isExpired
  cases hexpired : stored.entry.isExpired r.checked <;>
    simp [Option.filter, hexpired]

theorem fitting_iff (r : TtlReadings) (stored : RevisionedEntry) :
    Fitting r stored.entry ↔
      ∀ value t, reportTtl r (some stored) = some (value, some t) →
        ∃ expires, expirationAt r.written t = .ok expires := by
  constructor
  · intro hfits value t hreport
    obtain ⟨hlive, -, httl⟩ := reportTtl_eq_some.mp hreport
    cases hexpires : stored.entry.expiresAt with
    | none =>
        rw [(ttl_eq_none ..).mpr hexpires] at httl
        cases httl
    | some expires =>
        exact (expirationAt_remaining hexpires _ _).mpr
          (hfits expires hexpires hlive) t httl
  · intro haccepts expires hexpires hlive
    refine (expirationAt_remaining hexpires _ _).mp fun t httl => ?_
    exact haccepts stored.entry.value t
      (reportTtl_eq_some.mpr ⟨hlive, rfl, httl⟩)

end Entry

/-! ## The loops -/

section Loops

variable {τ : Type} {options : MigrationOptions} {target : EntryTarget τ}
  {clock : CopyClock} {s : MemoryState} {collection name : String}

def FittingAt (clock : CopyClock) (s : MemoryState) (collection key : String) :
    Prop :=
  ∀ stored, s.entry collection key = some stored →
    Fitting (clock collection key) stored.entry

/-- The result is a report, or it is the refusal of a TTL and something has
no room. -/
structure Settles (fits : Prop) (result : Except Error MigrationReport) :
    Prop where
  reports : fits → ∃ report, result = .ok report
  refuses : ¬ fits → ∃ text, result = .error (.invalidTtl text)

theorem put_settles {r : TtlReadings} {stored : RevisionedEntry} {key : String}
    {value : Value} {ttl : Option F64} {t : τ}
    (h : reportTtl r (some stored) = some (value, ttl)) :
    (Fitting r stored.entry →
      ∃ t', target.put r.written key value name ttl t = (.ok (), t')) ∧
    (¬ Fitting r stored.entry → ∃ text t',
      target.put r.written key value name ttl t =
        (.error (.invalidTtl text), t')) := by
  have hentry : ∀ entry, ofTtl r.written value ttl = .ok entry →
      ∃ t', target.put r.written key value name ttl t = (.ok (), t') :=
    fun entry hentry => ⟨target.insert name key entry t, by
      simp only [EntryTarget.put, hentry]⟩
  cases ttl with
  | none =>
      obtain ⟨-, -, hnone⟩ := reportTtl_eq_some.mp h
      have hfits : Fitting r stored.entry := by
        intro expires hexpires
        rw [(ttl_eq_none ..).mp hnone] at hexpires
        cases hexpires
      exact ⟨fun _ => hentry _ rfl, fun hnot => absurd hfits hnot⟩
  | some seconds =>
      rw [fitting_iff]
      constructor
      · intro haccepts
        obtain ⟨expires, hexpires⟩ := haccepts value seconds h
        exact hentry _ (withTtl_eq_ok.mpr ⟨expires, hexpires, rfl⟩)
      · intro hnot
        cases hof : ofTtl r.written value (some seconds) with
        | error e =>
            obtain ⟨text, rfl⟩ := ofTtl_error hof
            exact ⟨text, t, by simp only [EntryTarget.put, hof]⟩
        | ok entry =>
            obtain ⟨expires, hexpires, -⟩ := withTtl_eq_ok.mp hof
            refine absurd ?_ hnot
            intro value' seconds' h'
            cases h.symm.trans h'
            exact ⟨expires, hexpires⟩

theorem fittingAt_iff {stored : RevisionedEntry} {key : String}
    (h : s.entry collection key = some stored) :
    FittingAt clock s collection key ↔
      Fitting (clock collection key) stored.entry := by
  unfold FittingAt
  rw [h]
  simp only [Option.some.injEq, forall_eq']

theorem fittingAt_of_unreported {key : String}
    (h : reportTtl (clock collection key) (s.entry collection key) = none) :
    FittingAt clock s collection key := by
  intro stored hstored expires _ hlive
  have hsome := reportTtl_eq_some.mpr ⟨hlive, rfl, rfl⟩
  rw [← hstored, h] at hsome
  cases hsome

variable (target name) in
theorem put_reported {key : String} {value : Value} {ttl : Option F64} (t : τ)
    (h : reportTtl (clock collection key) (s.entry collection key) =
      some (value, ttl)) :
    (FittingAt clock s collection key → ∃ t',
      target.put (clock collection key).written key value name ttl t =
        (.ok (), t')) ∧
    (¬ FittingAt clock s collection key → ∃ text t',
      target.put (clock collection key).written key value name ttl t =
        (.error (.invalidTtl text), t')) := by
  cases hstored : s.entry collection key with
  | none =>
      rw [hstored] at h
      cases h
  | some stored =>
      rw [hstored] at h
      rw [fittingAt_iff hstored]
      exact put_settles h

theorem copyItems_settles (keys : List String) (report : MigrationReport)
    (t : τ) :
    Settles (∀ key ∈ keys, FittingAt clock s collection key)
      (copyItems target clock collection name (keys.map fun key =>
        (key, reportTtl (clock collection key) (s.entry collection key)))
        report t).1 := by
  induction keys generalizing report t with
  | nil => exact ⟨fun _ => ⟨report, rfl⟩, fun h => absurd (by simp) h⟩
  | cons key keys ih =>
      rw [List.forall_mem_cons]
      have hskip : FittingAt clock s collection key →
          ∀ report' t', Settles (FittingAt clock s collection key ∧
            ∀ key ∈ keys, FittingAt clock s collection key)
            (copyItems target clock collection name (keys.map fun key =>
              (key, reportTtl (clock collection key)
                (s.entry collection key))) report' t').1 := by
        intro hfits report' t'
        obtain ⟨hreports, hrefuses⟩ := ih report' t'
        exact ⟨fun h => hreports h.2, fun h => hrefuses fun hrest =>
          h ⟨hfits, hrest⟩⟩
      cases hreport : reportTtl (clock collection key)
          (s.entry collection key) with
      | none =>
          simp only [List.map_cons, hreport, copyItems]
          exact hskip (fittingAt_of_unreported hreport) _ _
      | some item =>
          obtain ⟨value, ttl⟩ := item
          obtain ⟨haccepts, hrejects⟩ := put_reported target name t hreport
          simp only [List.map_cons, hreport, copyItems]
          by_cases hfits : FittingAt clock s collection key
          · obtain ⟨t', hput⟩ := haccepts hfits
            rw [hput]
            exact hskip hfits _ _
          · obtain ⟨text, t', hput⟩ := hrejects hfits
            rw [hput]
            exact ⟨fun h => absurd h.1 hfits, fun _ => ⟨text, rfl⟩⟩

/-- One part of a copy after another. -/
theorem Settles.and {first second : Prop}
    {result : Except Error MigrationReport × τ}
    {next : MigrationReport → τ → Except Error MigrationReport × τ}
    (h : Settles first result.1)
    (hnext : ∀ report t, Settles second (next report t).1) :
    Settles (first ∧ second) (whenOk result next).1 := by
  obtain ⟨result, t⟩ := result
  by_cases hfirst : first
  · obtain ⟨report, hreport⟩ := h.reports hfirst
    cases hreport
    obtain ⟨hreports, hrefuses⟩ := hnext report t
    exact ⟨fun hboth => hreports hboth.2,
      fun hnot => hrefuses fun hsecond => hnot ⟨hfirst, hsecond⟩⟩
  · obtain ⟨text, htext⟩ := h.refuses hfirst
    cases htext
    exact ⟨fun hboth => absurd hboth.1 hfirst, fun _ => ⟨text, rfl⟩⟩

theorem Settles.congr {fits fits' : Prop}
    {result : Except Error MigrationReport} (h : Settles fits result)
    (hiff : fits ↔ fits') : Settles fits' result :=
  ⟨fun hfits => h.reports (hiff.mpr hfits),
    fun hnot => h.refuses fun hfits => hnot (hiff.mp hfits)⟩

def Preserved (options : MigrationOptions) (fits : Prop) : Prop :=
  options.preserveTtl = true → fits

theorem copyBatch_settles (keys : List String) (report : MigrationReport)
    (t : τ) :
    Settles (Preserved options
        (∀ key ∈ keys, FittingAt clock s collection key))
      (copyBatch options target clock s collection name keys report t).1 := by
  simp only [copyBatch, Preserved]
  cases options.preserveTtl with
  | true =>
      simp only [if_true, forall_const]
      exact copyItems_settles keys _ t
  | false =>
      simp only [Bool.false_eq_true, if_false, IsEmpty.forall_iff]
      refine ⟨fun _ => ?_, fun h => absurd trivial h⟩
      split
      · exact ⟨_, rfl⟩
      · exact ⟨_, rfl⟩

theorem copyBatches_settles (batches : Nat) (keys : List String)
    (report : MigrationReport) (t : τ) (hbound : keys.length ≤ batches) :
    Settles (Preserved options
        (∀ key ∈ keys, FittingAt clock s collection key))
      (copyBatches options target clock s collection name batches keys report
        t).1 := by
  induction batches generalizing keys report t with
  | zero =>
      obtain rfl := List.length_eq_zero_iff.mp (Nat.le_zero.mp hbound)
      exact ⟨fun _ => ⟨report, rfl⟩, fun h => absurd (by simp [Preserved]) h⟩
  | succ batches ih =>
      rw [copyBatches]
      cases keys with
      | nil =>
          exact ⟨fun _ => ⟨report, rfl⟩, fun h => absurd (by simp [Preserved]) h⟩
      | cons key keys =>
          simp only [List.isEmpty_cons, Bool.false_eq_true, if_false]
          have hsize := options.chunkSize_pos
          have hrest : ((key :: keys).drop options.chunkSize).length ≤
              batches := by
            rw [List.length_drop]
            rw [List.length_cons] at hbound ⊢
            omega
          refine ((copyBatch_settles _ report t).and fun report' t' =>
            ih _ report' t' hrest).congr ?_
          rw [Preserved, Preserved, Preserved, ← imp_and,
            ← List.forall_mem_append, List.take_append_drop]

theorem copyCollections_settles (order : Order) (collections : List String)
    (report : MigrationReport) (t : τ) :
    Settles (Preserved options (∀ collection ∈ collections,
        route options collection ≠ none →
        ∀ key ∈ page s order collection, FittingAt clock s collection key))
      (copyCollections options target clock s order collections report t).1 := by
  induction collections generalizing report t with
  | nil => exact ⟨fun _ => ⟨report, rfl⟩, fun h => absurd (by simp [Preserved]) h⟩
  | cons collection collections ih =>
      rw [copyCollections]
      cases hroute : route options collection with
      | none =>
          refine (ih report t).congr ?_
          simp [Preserved, hroute]
      | some name =>
          refine ((copyBatches_settles _ _ report t (Nat.le_refl _)).and
            fun report' t' => ih report' t').congr ?_
          simp only [Preserved, List.forall_mem_cons, hroute, ne_eq,
            reduceCtorEq, not_false_eq_true, forall_const, imp_and]

end Loops

/-! ## What is refused -/

section Refused

variable {τ : Type} (options : MigrationOptions) (target : EntryTarget τ)
  (clock : CopyClock) (s : MemoryState) (t : τ)

theorem putReported_settles (change : StoreChange) (name : String)
    (report skipped : MigrationReport) (t' : τ) :
    Settles (FittingAt clock s change.collection change.key)
      (match reportTtl (clock change.collection change.key)
          (s.entry change.collection change.key) with
        | some (value, ttl) =>
            whenOk (target.put (clock change.collection change.key).written
              change.key value name ttl t) fun _ t => (.ok report, t)
        | none => (.ok skipped, t')).1 := by
  cases hreport : reportTtl (clock change.collection change.key)
      (s.entry change.collection change.key) with
  | none =>
      exact ⟨fun _ => ⟨skipped, rfl⟩, fun hnot =>
        absurd (fittingAt_of_unreported hreport) hnot⟩
  | some item =>
      obtain ⟨value, ttl⟩ := item
      obtain ⟨haccepts, hrejects⟩ := put_reported target name t hreport
      by_cases hfits : FittingAt clock s change.collection change.key
      · obtain ⟨t', hput⟩ := haccepts hfits
        simp only [hput]
        exact ⟨fun _ => ⟨report, rfl⟩, fun hnot => absurd hfits hnot⟩
      · obtain ⟨text, t', hput⟩ := hrejects hfits
        simp only [hput]
        exact ⟨fun h => absurd h hfits, fun _ => ⟨text, rfl⟩⟩

theorem applyChange_settles (change : StoreChange) :
    Settles (Preserved options (route options change.collection ≠ none →
        change.operation = .put →
        FittingAt clock s change.collection change.key))
      (applyChange options target clock s change t).1 := by
  unfold applyChange Preserved
  cases hroute : route options change.collection with
  | none => exact ⟨fun _ => ⟨_, rfl⟩, fun h => absurd (by simp) h⟩
  | some name =>
      cases hoperation : change.operation with
      | delete => exact ⟨fun _ => ⟨_, rfl⟩, fun h => absurd (by simp) h⟩
      | put =>
          simp only [ne_eq, reduceCtorEq, not_false_eq_true, forall_const]
          cases options.preserveTtl with
          | true =>
              simp only [if_true, forall_const]
              exact putReported_settles target clock s t change name _ _ _
          | false =>
              simp only [Bool.false_eq_true, if_false, IsEmpty.forall_iff]
              refine ⟨fun _ => ?_, fun h => absurd trivial h⟩
              cases reportValue (clock change.collection change.key)
                  (s.entry change.collection change.key) with
              | none => exact ⟨_, rfl⟩
              | some value => exact ⟨_, rfl⟩

/-- A TTL that a store reports is accepted exactly if a millisecond remains
when it is measured and the new deadline is in range. -/
theorem reported_ttl_accepted_iff :
    (∀ (entry : ManagedEntry) now, entry.isExpired now = false →
      ((∀ ttl, entry.ttl now = some ttl →
          ∃ expires, expirationAt now ttl = .ok expires) ↔
        ∀ expires, entry.expiresAt = some expires →
          now.nanos + nanosPerMilli ≤ expires.nanos)) ∧
    (∀ order, Settles (Preserved options
        (∀ collection ∈ listedCollections s order,
          route options collection ≠ none →
          ∀ key ∈ page s order collection, FittingAt clock s collection key))
      (copySnapshot options target clock s order t).1) ∧
    ∀ change, Settles (Preserved options
        (route options change.collection ≠ none → change.operation = .put →
          FittingAt clock s change.collection change.key))
      (applyChange options target clock s change t).1 := by
  refine ⟨?_, fun order => copyCollections_settles order _ _ t,
    applyChange_settles options target clock s t⟩
  intro entry now _
  cases hexpires : entry.expiresAt with
  | none =>
      have hnone := (ttl_eq_none entry now).mpr hexpires
      simp [hnone]
  | some expires =>
      rw [expirationAt_remaining hexpires]
      simp only [Option.some.injEq, forall_eq']
      -- What remains leads back to the deadline, which is in range.
      have hupper := expires.upper
      simp only [nanosPerMilli] at hupper ⊢
      omega

end Refused

section HalfMillisecond

def entryTarget : EntryTarget MemoryState where
  insert name key entry s := (s.ensureCollection name).insertEntry name key
    ⟨entry, .fill 0⟩ .plain
  insertMany name items s := items.foldl
    (fun s item => s.insertEntry name item.1 ⟨item.2, .fill 0⟩ .plain)
    (s.ensureCollection name)
  delete name key s := s.removeEntry name key none

abbrev halfMilli : DateTime := ⟨500000, by decide, by decide⟩

abbrev oneMilli : DateTime := ⟨1000000, by decide, by decide⟩

abbrev shortEntry : ManagedEntry := ⟨.null, some .epoch, some oneMilli⟩

def shortSource : MemoryState :=
  entryTarget.insert "c" "k" shortEntry .empty

/-- An entry that is made with a TTL of one millisecond reports a TTL of zero
after half of it, which `put` refuses. -/
theorem reported_ttl_refused :
    withTtl .epoch .null (.finite (1 / 1000)) = .ok shortEntry ∧
      shortEntry.isExpired halfMilli = false ∧
      (∃ ttl, shortEntry.ttl halfMilli = some ttl ∧
        ∃ text, expirationAt halfMilli ttl = .error (.invalidTtl text)) ∧
      ∃ text, (copySnapshot .default entryTarget
        (fun _ _ => ⟨halfMilli, halfMilli, halfMilli⟩) shortSource .stored
        .empty).1 = .error (.invalidTtl text) := by
  refine ⟨by decide +kernel, by decide, ⟨.finite 0, by decide +kernel, _,
    rfl⟩, ?_⟩
  refine (copyCollections_settles .stored _ _ _).refuses fun hfits => ?_
  have hfit := hfits rfl "c" (by decide) (by decide) "k" (by decide)
    ⟨shortEntry, .fill 0⟩ rfl oneMilli rfl (by decide)
  exact absurd hfit.1 (by decide)

theorem reported_ttl_accepted_second :
    ∃ expires, expirationAt .epoch (.finite 1) = .ok expires := by
  have hiff := (reported_ttl_accepted_iff .default entryTarget
    (fun _ _ => ⟨.epoch, .epoch, .epoch⟩) shortSource .empty).1
    ⟨.null, some .epoch, some second⟩ .epoch (by decide)
  refine hiff.mpr ?_ (.finite 1) (by decide +kernel)
  intro expires h
  cases h
  decide

end HalfMillisecond

end OpenKeyV.Memory
