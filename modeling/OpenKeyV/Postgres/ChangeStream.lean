import OpenKeyV.Postgres.ChangeLog
import OpenKeyV.Library.Decimal
import OpenKeyV.Library.Machine

/-!
# `PostgresChangeStream` next to concurrent writers

Each query of `subscribe` and `recv` is one step, so writes fall between any
two of them.  Rows of a page that follow a delivered change are dropped and
queried again, as in the source.  The last four fields of `FeedState` only
observe the run: the position of the stream (the start it was opened at, then
the last change it delivered), what it has delivered, whether it has reported
an expired cursor since, and the rows committed since it was opened.
-/

namespace OpenKeyV.Postgres

open OpenKeyV.Library

def changeDrainLimit : Nat := 128

structure PostgresChangeStream where
  cursor : Nat
  filter : ChangeFilter
  deriving DecidableEq, Repr

/-- Where `recv` stands: not called, or about to run a query, or waiting for
a notification. -/
inductive RecvPoint where
  | idle
  | drain
  | check
  | wait
  deriving DecidableEq, Repr

inductive Subscriber where
  | closed
  | validating (requested : Nat) (cursor : ChangeCursor) (filter : ChangeFilter)
  | listening (stream : PostgresChangeStream) (point : RecvPoint)
  deriving DecidableEq, Repr

/-! ## The queries -/

def ChangeRow.decode (row : ChangeRow) : Except Error StoreChange :=
  match ChangeOperation.parse row.operation with
  | none => .error .corruptedData
  | some operation =>
      .ok ⟨⟨toString row.revision⟩, row.revision, row.collection, row.key,
        operation, row.occurredAt⟩

/-- The page query; the table is kept in the order of its revisions. -/
def drainQuery (cursor : Nat) (table : List ChangeRow) : List ChangeRow :=
  (ahead ChangeRow.revision cursor table).take changeDrainLimit

def drainRows (filter : ChangeFilter) :
    Nat → List ChangeRow → Nat × Except Error (Option StoreChange)
  | cursor, [] => (cursor, .ok none)
  | cursor, row :: rows =>
      match row.decode with
      | .error error => (cursor, .error error)
      | .ok change =>
          if filter.accepts change then (row.revision, .ok (some change))
          else drainRows filter row.revision rows

def drain (stream : PostgresChangeStream) (table : List ChangeRow) :
    Nat × Except Error (Option StoreChange) :=
  drainRows stream.filter stream.cursor (drainQuery stream.cursor table)

def gapCheck (cursor : Nat) (table : List ChangeRow) : Option Error :=
  if 0 < cursor then
    match minRetainedRevision table with
    | some min =>
        if cursor + 1 < min then
          some (.changeCursorExpired (toString cursor) (toString min))
        else none
    | none => none
  else none

def beginSubscribe (retention : Nat) (table : List ChangeRow)
    (request : ChangeFeedRequest) : Except Error Subscriber :=
  if retention = 0 then
    .error (.invalidOperation
      "change feed is disabled (change_retention = 0)")
  else
    match request.start with
    | .beginning => .ok (.listening ⟨0, request.filter⟩ .idle)
    | .latest => .ok (.listening ⟨maxRevision table, request.filter⟩ .idle)
    | .after cursor =>
        match parseUnsigned 64 cursor.text with
        | none => .error (.invalidChangeCursor cursor.text)
        | some requested =>
            if maxRevision table < requested then
              .error (.invalidChangeCursor cursor.text)
            else if 0 < requested then
              .ok (.validating requested cursor request.filter)
            else .ok (.listening ⟨requested, request.filter⟩ .idle)

def finishSubscribe (table : List ChangeRow) (requested : Nat)
    (cursor : ChangeCursor) (filter : ChangeFilter) :
    Except Error Subscriber :=
  match minRetainedRevision table with
  | some min =>
      if requested + 1 < min then
        .error (.changeCursorExpired cursor.text (toString min))
      else .ok (.listening ⟨requested, filter⟩ .idle)
  | none => .ok (.listening ⟨requested, filter⟩ .idle)

/-! ## The feed as a machine -/

structure FeedState where
  db : Database
  subscriber : Subscriber
  position : Nat
  delivered : List StoreChange
  reported : Bool
  since : List ChangeRow

def FeedState.init : FeedState := ⟨.empty, .closed, 0, [], false, []⟩

inductive Label where
  | write (w : Write)
  | subscribe (request : ChangeFeedRequest)
  | validate
  | recv
  | drain
  | check
  | wake
  | interrupt
  deriving DecidableEq, Repr

/-- The largest revision that has been trimmed. -/
def lastTrimmed (db : Database) : Nat :=
  maxRevision (db.history.filter fun r => !db.table.contains r)

/-- Where a stream stands before its first change: `Beginning` replays what
is still retained, so it starts above what has been trimmed. -/
def startPosition (db : Database) (request : ChangeFeedRequest)
    (cursor : Nat) : Nat :=
  match request.start with
  | .beginning => lastTrimmed db
  | _ => cursor

def FeedState.opened (s : FeedState) (subscriber : Subscriber)
    (position : Nat) : FeedState :=
  ⟨s.db, subscriber, position, [], false, []⟩

def FeedState.atPoint (s : FeedState) (stream : PostgresChangeStream)
    (point : RecvPoint) : FeedState :=
  { s with subscriber := .listening stream point }

def FeedState.drained (s : FeedState) (stream : PostgresChangeStream) :
    FeedState :=
  match Postgres.drain stream s.db.table with
  | (cursor, .ok (some change)) =>
      { s.atPoint { stream with cursor := cursor } .idle with
        position := change.revision
        delivered := s.delivered ++ [change]
        reported := false }
  | (cursor, .ok none) => s.atPoint { stream with cursor := cursor } .check
  | (cursor, .error _) => s.atPoint { stream with cursor := cursor } .idle

def FeedState.checked (s : FeedState) (stream : PostgresChangeStream) :
    FeedState :=
  match gapCheck stream.cursor s.db.table with
  | some _ => { s.atPoint stream .idle with reported := true }
  | none => s.atPoint stream .wait

def FeedState.subscribed (s : FeedState) (retention : Nat)
    (request : ChangeFeedRequest) : FeedState :=
  match beginSubscribe retention s.db.table request with
  | .ok (.listening stream point) =>
      s.opened (.listening stream point)
        (startPosition s.db request stream.cursor)
  | .ok subscriber => { s with subscriber := subscriber }
  | .error _ => s

def FeedState.validated (s : FeedState) (requested : Nat)
    (cursor : ChangeCursor) (filter : ChangeFilter) : FeedState :=
  match finishSubscribe s.db.table requested cursor filter with
  | .ok subscriber => s.opened subscriber requested
  | .error _ => { s with subscriber := .closed }

def Label.committing : Label → Option Nat
  | .write (.commit t) => some t
  | _ => none

def Label.trimming : Label → Option Nat
  | .write (.trim t) => some t
  | _ => none

def Subscriber.draining : Subscriber → Option PostgresChangeStream
  | .listening stream .drain => some stream
  | _ => none

def Subscriber.stream? : Subscriber → Option PostgresChangeStream
  | .listening stream _ => some stream
  | _ => none

def serves (stream : PostgresChangeStream) (table : List ChangeRow) :
    Option StoreChange :=
  (drain stream table).2.toOption.join

/-- One statement of a writer, or one query of the subscriber.  `interrupt`
is a failed query or a dropped `recv` future. -/
def FeedState.step (retention : Nat) (s : FeedState) :
    Label → Option FeedState
  | .write w =>
      (s.db.step retention w).map fun db =>
        { s with
          db := db
          since := s.since ++ db.history.drop s.db.history.length }
  | .subscribe request =>
      match s.subscriber with
      | .closed => some (s.subscribed retention request)
      | _ => none
  | .validate =>
      match s.subscriber with
      | .validating requested cursor filter =>
          some (s.validated requested cursor filter)
      | _ => none
  | .recv =>
      match s.subscriber with
      | .listening stream .idle => some (s.atPoint stream .drain)
      | _ => none
  | .drain =>
      match s.subscriber with
      | .listening stream .drain => some (s.drained stream)
      | _ => none
  | .check =>
      match s.subscriber with
      | .listening stream .check => some (s.checked stream)
      | _ => none
  | .wake =>
      match s.subscriber with
      | .listening stream .wait => some (s.atPoint stream .drain)
      | _ => none
  | .interrupt =>
      match s.subscriber with
      | .listening stream _ => some (s.atPoint stream .idle)
      | _ => none

def committed (t : Nat) (collection key : String)
    (operation : ChangeOperation) (now : DateTime) : List Label :=
  [.write (.begin t collection [key] operation now), .write (.insert t),
    .write (.trim t), .write (.commit t)]

@[simp] theorem mem_committing {a : Label} {t : Nat} :
    t ∈ a.committing ↔ a = .write (.commit t) := by
  unfold Label.committing
  split <;> simp_all

@[simp] theorem mem_stream? {subscriber : Subscriber}
    {stream : PostgresChangeStream} :
    stream ∈ subscriber.stream? ↔
      ∃ point, subscriber = .listening stream point := by
  unfold Subscriber.stream?
  split <;> simp_all

@[simp] theorem mem_draining {subscriber : Subscriber}
    {stream : PostgresChangeStream} :
    stream ∈ subscriber.draining ↔
      subscriber = .listening stream .drain := by
  unfold Subscriber.draining
  split <;> simp_all

@[simp] theorem mem_serves {stream : PostgresChangeStream}
    {table : List ChangeRow} {change : StoreChange} :
    change ∈ serves stream table ↔
      (drain stream table).2 = .ok (some change) := by
  unfold serves
  rcases (drain stream table).2 with error | _ | found <;>
    simp [Except.toOption]

/-! ## What a step can do -/

theorem step_write {retention : Nat} {s s' : FeedState} {w : Write}
    (h : s.step retention (.write w) = some s') :
    ∃ db, s.db.step retention w = some db ∧
      s' = { s with
        db := db
        since := s.since ++ db.history.drop s.db.history.length } := by
  obtain ⟨db, hdb, heq⟩ := Option.map_eq_some_iff.mp h
  exact ⟨db, hdb, heq.symm⟩

theorem step_subscribe {retention : Nat} {s s' : FeedState}
    {request : ChangeFeedRequest}
    (h : s.step retention (.subscribe request) = some s') :
    s.subscriber = .closed ∧ s' = s.subscribed retention request := by
  simp only [FeedState.step] at h
  split at h
  · exact ⟨by assumption, (Option.some.inj h).symm⟩
  · cases h

theorem step_validate {retention : Nat} {s s' : FeedState}
    (h : s.step retention .validate = some s') :
    ∃ requested cursor filter,
      s.subscriber = .validating requested cursor filter ∧
        s' = s.validated requested cursor filter := by
  simp only [FeedState.step] at h
  split at h
  · exact ⟨_, _, _, by assumption, (Option.some.inj h).symm⟩
  · cases h

theorem step_drain {retention : Nat} {s s' : FeedState}
    (h : s.step retention .drain = some s') :
    ∃ stream, s.subscriber = .listening stream .drain ∧
      s' = s.drained stream := by
  simp only [FeedState.step] at h
  split at h
  · exact ⟨_, by assumption, (Option.some.inj h).symm⟩
  · cases h

theorem step_check {retention : Nat} {s s' : FeedState}
    (h : s.step retention .check = some s') :
    ∃ stream, s.subscriber = .listening stream .check ∧
      s' = s.checked stream := by
  simp only [FeedState.step] at h
  split at h
  · exact ⟨_, by assumption, (Option.some.inj h).symm⟩
  · cases h

theorem step_move {retention : Nat} {s s' : FeedState} {a : Label}
    (ha : a = .recv ∨ a = .wake ∨ a = .interrupt)
    (h : s.step retention a = some s') :
    ∃ stream point point', s.subscriber = .listening stream point ∧
      s' = s.atPoint stream point' := by
  rcases ha with rfl | rfl | rfl <;>
    · simp only [FeedState.step] at h
      split at h
      · exact ⟨_, _, _, by assumption, (Option.some.inj h).symm⟩
      · cases h

theorem subscribed_cases (s : FeedState) (retention : Nat)
    (request : ChangeFeedRequest) :
    s.subscribed retention request = s ∨
      (∃ requested cursor,
        requested ≤ maxRevision s.db.table ∧
          s.subscribed retention request =
            { s with
              subscriber := .validating requested cursor request.filter }) ∨
      ∃ cursor, cursor ≤ maxRevision s.db.table ∧
        (request.start = .beginning → cursor = 0) ∧
        s.subscribed retention request =
          s.opened (.listening ⟨cursor, request.filter⟩ .idle)
            (startPosition s.db request cursor) := by
  unfold FeedState.subscribed beginSubscribe
  by_cases hretention : retention = 0
  · simp [hretention]
  rw [if_neg hretention]
  cases hstart : request.start with
  | beginning =>
      exact .inr (.inr ⟨0, Nat.zero_le _, fun _ => rfl, rfl⟩)
  | latest =>
      exact .inr (.inr ⟨maxRevision s.db.table, Nat.le_refl _, by simp, rfl⟩)
  | after cursor =>
      cases hparse : parseUnsigned 64 cursor.text with
      | none => simp only [hparse, true_or]
      | some requested =>
          simp only [hparse]
          by_cases hmax : maxRevision s.db.table < requested
          · simp only [hmax, if_true, true_or]
          · by_cases hpos : 0 < requested
            · refine .inr (.inl ⟨requested, cursor, by omega, ?_⟩)
              simp only [hmax, hpos, if_true, if_false]
            · refine .inr (.inr ⟨requested, by omega, by simp, ?_⟩)
              simp only [hmax, hpos, if_false]

theorem validated_cases (s : FeedState) (requested : Nat)
    (cursor : ChangeCursor) (filter : ChangeFilter) :
    s.validated requested cursor filter = { s with subscriber := .closed } ∨
      s.validated requested cursor filter =
        s.opened (.listening ⟨requested, filter⟩ .idle) requested := by
  unfold FeedState.validated finishSubscribe
  cases minRetainedRevision s.db.table with
  | none => exact .inr rfl
  | some min =>
      by_cases hmin : requested + 1 < min
      · simp [hmin]
      · simp [hmin]

theorem checked_cases (s : FeedState) (stream : PostgresChangeStream) :
    s.checked stream = { s.atPoint stream .idle with reported := true } ∨
      s.checked stream = s.atPoint stream .wait := by
  unfold FeedState.checked
  cases gapCheck stream.cursor s.db.table <;> simp

/-! ## What the drain query delivers -/

def wanted (filter : ChangeFilter) (row : ChangeRow) : Bool :=
  match row.decode with
  | .ok change => filter.accepts change
  | .error _ => false

theorem ChangeRow.Recorded.decode {row : ChangeRow} (h : row.Recorded) :
    ∃ change, row.decode = .ok change ∧ change.revision = row.revision := by
  obtain ⟨operation, hop⟩ := h
  simp [ChangeRow.decode, hop]

theorem decode_revision {row : ChangeRow} {change : StoreChange}
    (h : row.decode = .ok change) : change.revision = row.revision := by
  unfold ChangeRow.decode at h
  split at h
  · cases h
  · cases h
    rfl

private theorem drainRows_scan (filter : ChangeFilter) :
    ∀ (rows : List ChangeRow) (cursor : Nat), (∀ r ∈ rows, r.Recorded) →
      (drainRows filter cursor rows).1 =
          (scan ChangeRow.revision (wanted filter) cursor rows).1 ∧
        ((scan ChangeRow.revision (wanted filter) cursor rows).2 = none →
          (drainRows filter cursor rows).2 = .ok none) ∧
        ∀ r, (scan ChangeRow.revision (wanted filter) cursor rows).2 = some r →
          ∃ change, r.decode = .ok change ∧
            (drainRows filter cursor rows).2 = .ok (some change)
  | [], cursor, _ => by simp [drainRows, scan]
  | row :: rows, cursor, hrec => by
      obtain ⟨change, hdecode, -⟩ := (hrec row (by simp)).decode
      have hwanted : wanted filter row = filter.accepts change := by
        simp [wanted, hdecode]
      cases haccept : filter.accepts change with
      | true =>
          simp only [drainRows, hdecode, haccept, if_true, scan, hwanted,
            true_and]
          refine ⟨by simp, ?_⟩
          rintro r ⟨⟩
          exact ⟨change, hdecode, rfl⟩
      | false =>
          simp only [drainRows, hdecode, haccept, Bool.false_eq_true,
            if_false, scan, hwanted]
          exact drainRows_scan filter rows row.revision
            fun r hr => hrec r (by simp [hr])

/-- The drain query either passes unwanted rows only, or stops at the first
wanted row above the cursor and delivers its change. -/
theorem drain_spec {table : List ChangeRow} (stream : PostgresChangeStream)
    (hasc : Ascending ChangeRow.revision table)
    (hrec : ∀ r ∈ table, r.Recorded) :
    (∃ cursor, drain stream table = (cursor, .ok none) ∧
        stream.cursor ≤ cursor ∧
        (cursor = stream.cursor ∨ ∃ r ∈ table, cursor = r.revision) ∧
        ∀ r ∈ table, stream.cursor < r.revision → r.revision ≤ cursor →
          wanted stream.filter r = false) ∨
      ∃ r ∈ table, ∃ change, r.decode = .ok change ∧
        drain stream table = (r.revision, .ok (some change)) ∧
        stream.cursor < r.revision ∧ wanted stream.filter r = true ∧
        ∀ r' ∈ table, stream.cursor < r'.revision →
          r'.revision < r.revision → wanted stream.filter r' = false := by
  have hspec := scan_spec (wanted stream.filter) hasc stream.cursor
    changeDrainLimit
  have hpage : ∀ r ∈ drainQuery stream.cursor table, r.Recorded :=
    fun r hr => hrec r (mem_ahead.mp (List.mem_of_mem_take hr)).1
  obtain ⟨hcursor, hnone, hsome⟩ :=
    drainRows_scan stream.filter _ stream.cursor hpage
  have hdrain : drain stream table =
      ((drain stream table).1, (drain stream table).2) := rfl
  cases hfound : (scan ChangeRow.revision (wanted stream.filter) stream.cursor
      (drainQuery stream.cursor table)).2 with
  | none =>
      refine .inl ⟨_, ?_, hspec.cursor_le, hspec.cursor_mem, ?_⟩
      · rw [hdrain]
        exact Prod.ext hcursor (hnone hfound)
      · intro r hr hlt hle
        rcases hspec.passed r hr hlt hle with hr' | hr'
        · rw [drainQuery] at hfound
          rw [hfound] at hr'
          cases hr'
        · exact hr'
  | some r =>
      obtain ⟨change, hdecode, hout⟩ := hsome r hfound
      obtain ⟨hmem, hlt, hw, heq⟩ := hspec.found_mem r hfound
      refine .inr ⟨r, hmem, change, hdecode, ?_, hlt, hw, ?_⟩
      · rw [hdrain]
        exact Prod.ext (hcursor.trans heq) hout
      · intro r' hr' hlt' hless
        rcases hspec.passed r' hr' hlt' (by omega) with hfound' | hw'
        · rw [drainQuery] at hfound
          rw [hfound] at hfound'
          cases hfound'
          omega
        · exact hw'

theorem drained_of_none {s : FeedState} {stream : PostgresChangeStream}
    {cursor : Nat} (h : drain stream s.db.table = (cursor, .ok none)) :
    s.drained stream = s.atPoint { stream with cursor := cursor } .check := by
  simp only [FeedState.drained, h]

theorem drained_of_some {s : FeedState} {stream : PostgresChangeStream}
    {cursor : Nat} {change : StoreChange}
    (h : drain stream s.db.table = (cursor, .ok (some change))) :
    s.drained stream =
      { s.atPoint { stream with cursor := cursor } .idle with
        position := change.revision
        delivered := s.delivered ++ [change]
        reported := false } := by
  simp only [FeedState.drained, h]

theorem step_listening {retention : Nat} {s s' : FeedState} {a : Label}
    {stream : PostgresChangeStream} {point : RecvPoint}
    (hwf : s.db.WellFormed) (hs : s.subscriber = .listening stream point)
    (ha : ∀ w, a ≠ .write w) (h : s.step retention a = some s') :
    (∃ cursor point',
        s'.subscriber = .listening { stream with cursor := cursor } point' ∧
        s'.db = s.db ∧ s'.since = s.since ∧ s'.delivered = s.delivered ∧
        stream.cursor ≤ cursor ∧
        ∀ r ∈ s.db.table, stream.cursor < r.revision → r.revision ≤ cursor →
          wanted stream.filter r = false) ∨
      ∃ r ∈ s.db.table, ∃ change, r.decode = .ok change ∧
        s'.subscriber =
          .listening { stream with cursor := r.revision } .idle ∧
        s'.db = s.db ∧ s'.since = s.since ∧
        s'.delivered = s.delivered ++ [change] ∧
        stream.cursor < r.revision ∧
        ∀ r' ∈ s.db.table, stream.cursor < r'.revision →
          r'.revision < r.revision → wanted stream.filter r' = false := by
  have hnone : ∀ r ∈ s.db.table, stream.cursor < r.revision →
      r.revision ≤ stream.cursor → wanted stream.filter r = false := by
    intro r _ hlt hle
    omega
  have hsame : ∀ {stream' point₀}, s.subscriber = .listening stream' point₀ →
      stream' = stream := by
    intro stream' point₀ hs'
    rw [hs] at hs'
    cases hs'
    rfl
  cases a with
  | write w => exact absurd rfl (ha w)
  | subscribe request =>
      obtain ⟨hclosed, -⟩ := step_subscribe h
      rw [hs] at hclosed
      cases hclosed
  | validate =>
      obtain ⟨_, _, _, hvalidating, -⟩ := step_validate h
      rw [hs] at hvalidating
      cases hvalidating
  | drain =>
      obtain ⟨stream', hs', rfl⟩ := step_drain h
      obtain rfl := hsame hs'
      have hrec : ∀ r ∈ s.db.table, r.Recorded := fun r hr =>
        hwf.history_recorded r (hwf.table_history r hr)
      rcases drain_spec stream' hwf.ascending hrec with
        ⟨cursor, hdrain, hle, -, hunwanted⟩ |
        ⟨r, hr, change, hdecode, hdrain, hlt, -, hunwanted⟩
      · refine .inl ⟨cursor, .check, ?_⟩
        rw [drained_of_none hdrain]
        exact ⟨rfl, rfl, rfl, rfl, hle, hunwanted⟩
      · refine .inr ⟨r, hr, change, hdecode, ?_⟩
        rw [drained_of_some hdrain]
        exact ⟨rfl, rfl, rfl, rfl, hlt, hunwanted⟩
  | check =>
      obtain ⟨stream', hs', rfl⟩ := step_check h
      obtain rfl := hsame hs'
      rcases checked_cases s stream' with heq | heq <;> rw [heq]
      · exact .inl ⟨stream'.cursor, .idle, rfl, rfl, rfl, rfl, Nat.le_refl _,
          hnone⟩
      · exact .inl ⟨stream'.cursor, .wait, rfl, rfl, rfl, rfl, Nat.le_refl _,
          hnone⟩
  | recv | wake | interrupt =>
      obtain ⟨stream', point₀, point', hs', rfl⟩ := step_move (by simp) h
      obtain rfl := hsame hs'
      exact .inl ⟨stream'.cursor, point', rfl, rfl, rfl, rfl, Nat.le_refl _,
        hnone⟩

theorem step_not_listening {retention : Nat} {s s' : FeedState} {a : Label}
    (hs : s.subscriber.stream? = none) (ha : ∀ w, a ≠ .write w)
    (h : s.step retention a = some s') :
    s'.db = s.db ∧
      (s'.subscriber.stream? = none ∧ s'.since = s.since ∧
          s'.delivered = s.delivered ∨
        s'.since = [] ∧ s'.delivered = []) := by
  have hclosed : ∀ {stream point}, s.subscriber ≠ .listening stream point := by
    intro stream point hlistening
    simp [hlistening, Subscriber.stream?] at hs
  cases a with
  | write w => exact absurd rfl (ha w)
  | subscribe request =>
      obtain ⟨-, rfl⟩ := step_subscribe h
      rcases subscribed_cases s retention request with heq |
        ⟨requested, cursor, -, heq⟩ | ⟨cursor, -, -, heq⟩ <;> rw [heq]
      · exact ⟨rfl, .inl ⟨hs, rfl, rfl⟩⟩
      · exact ⟨rfl, .inl ⟨rfl, rfl, rfl⟩⟩
      · exact ⟨rfl, .inr ⟨rfl, rfl⟩⟩
  | validate =>
      obtain ⟨requested, cursor, filter, -, rfl⟩ := step_validate h
      rcases validated_cases s requested cursor filter with heq | heq <;>
        rw [heq]
      · exact ⟨rfl, .inl ⟨rfl, rfl, rfl⟩⟩
      · exact ⟨rfl, .inr ⟨rfl, rfl⟩⟩
  | drain => exact absurd (step_drain h).choose_spec.1 hclosed
  | check => exact absurd (step_check h).choose_spec.1 hclosed
  | recv | wake | interrupt =>
      obtain ⟨_, _, _, hlistening, -⟩ := step_move (by simp) h
      exact absurd hlistening hclosed

end OpenKeyV.Postgres
