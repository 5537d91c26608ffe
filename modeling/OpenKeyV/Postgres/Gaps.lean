import OpenKeyV.Postgres.ChangeStream

/-!
# Trimmed changes and the Postgres stream

`recv` compares its cursor with the oldest retained row only after a drain
query that found nothing to deliver.  A page that does deliver is never
checked, so a reader that falls behind the retention window moves on to the
retained rows without a word.  While every wanted change above the position
is still retained at each drain query, no change is skipped.
-/

namespace OpenKeyV.Postgres

open OpenKeyV.Library

/-- Write transactions commit in the order of their revisions. -/
def CommitsInOrder (s : FeedState) (a : Label) : Prop :=
  ∀ t ∈ a.committing, ∀ tx ∈ s.db.transactions t,
    ∀ r ∈ tx.rows, ∀ c ∈ s.db.history, c.revision < r.revision

/-- At a drain query, every wanted change above the position is in the table,
unless the expired cursor has been reported. -/
def WithinRetention (s : FeedState) (a : Label) : Prop :=
  a = .drain → ∀ stream ∈ s.subscriber.draining,
    s.reported = true ∨
      ∀ c ∈ s.db.history, s.position < c.revision →
        wanted stream.filter c = true → c ∈ s.db.table

/-- A change is delivered only when each wanted change committed between the
position and it has been delivered, or the gap has been reported. -/
def NoSilentGap (s : FeedState) (a : Label) : Prop :=
  a = .drain → ∀ stream ∈ s.subscriber.draining,
    ∀ change ∈ serves stream s.db.table,
      s.reported = true ∨
        ∀ c ∈ s.db.history, s.position < c.revision →
          c.revision < change.revision → wanted stream.filter c = true →
          ∃ d ∈ s.delivered, d.revision = c.revision

instance (s : FeedState) (a : Label) : Decidable (CommitsInOrder s a) := by
  unfold CommitsInOrder
  infer_instance

instance (s : FeedState) (a : Label) : Decidable (WithinRetention s a) := by
  unfold WithinRetention
  infer_instance

instance (s : FeedState) (a : Label) : Decidable (NoSilentGap s a) := by
  unfold NoSilentGap
  infer_instance

/-- The stream has passed no wanted change that was committed above its
position, unless it has reported the gap. -/
structure Tracking (s : FeedState) : Prop where
  wf : s.db.WellFormed
  validating : ∀ requested cursor filter,
    s.subscriber = .validating requested cursor filter →
      requested ≤ maxRevision s.db.history
  cursor : ∀ stream point, s.subscriber = .listening stream point →
    stream.cursor ≤ maxRevision s.db.history
  passed : ∀ stream point, s.subscriber = .listening stream point →
    s.reported = true ∨
      ∀ c ∈ s.db.history, s.position < c.revision →
        c.revision ≤ stream.cursor → wanted stream.filter c = false

theorem maxRevision_mono {rows rows' : List ChangeRow}
    (h : ∀ r ∈ rows, r ∈ rows') : maxRevision rows ≤ maxRevision rows' := by
  rcases maxRevision_mem rows with hzero | ⟨r, hr, heq⟩
  · omega
  · exact heq ▸ le_maxRevision (h r hr)

theorem tracking_init : Tracking FeedState.init where
  wf := wellFormed_empty
  validating := by simp [FeedState.init]
  cursor := by simp [FeedState.init]
  passed := by simp [FeedState.init]

private theorem tracking_write {retention : Nat} {s : FeedState} {w : Write}
    {db : Database} (h : Tracking s) (horder : CommitsInOrder s (.write w))
    (hdb : s.db.step retention w = some db) (since : List ChangeRow) :
    Tracking { s with db := db, since := since } := by
  have hwf := step_wellFormed h.wf hdb
  rcases step_history hdb with hsame | ⟨t, tx, rfl, htx, hgrown⟩
  · refine ⟨hwf, ?_, ?_, ?_⟩ <;> simp only [hsame]
    · exact h.validating
    · exact h.cursor
    · exact h.passed
  · have hmono : maxRevision s.db.history ≤ maxRevision db.history :=
      maxRevision_mono fun r hr => by
        rw [hgrown]
        exact List.mem_append_left _ hr
    refine ⟨hwf, ?_, ?_, ?_⟩
    · intro requested cursor filter hs
      exact Nat.le_trans (h.validating requested cursor filter hs) hmono
    · intro stream point hs
      exact Nat.le_trans (h.cursor stream point hs) hmono
    · intro stream point hs
      refine (h.passed stream point hs).imp id fun hpassed => ?_
      simp only [hgrown]
      intro c hc hpos hle
      rcases List.mem_append.mp hc with hc | hc
      · exact hpassed c hc hpos hle
      · -- the new row is above everything the stream can have passed
        have hcursor := h.cursor stream point hs
        rcases maxRevision_mem s.db.history with hzero | ⟨r, hr, heq⟩
        · omega
        · have := horder t rfl tx htx c hc r hr
          omega

private theorem tracking_atPoint {s : FeedState}
    {stream : PostgresChangeStream} {point : RecvPoint} (h : Tracking s)
    (hs : s.subscriber = .listening stream point) (point' : RecvPoint) :
    Tracking (s.atPoint stream point') where
  wf := h.wf
  validating := by simp [FeedState.atPoint]
  cursor := by
    rintro _ _ ⟨⟩
    exact h.cursor stream point hs
  passed := by
    rintro _ _ ⟨⟩
    exact h.passed stream point hs

private theorem tracking_subscribed {retention : Nat} {s : FeedState}
    (h : Tracking s) (request : ChangeFeedRequest) :
    Tracking (s.subscribed retention request) := by
  have htable : maxRevision s.db.table ≤ maxRevision s.db.history :=
    maxRevision_mono h.wf.table_history
  rcases subscribed_cases s retention request with heq |
    ⟨requested, cursor, hle, heq⟩ | ⟨cursor, hle, hbegin, heq⟩ <;> rw [heq]
  · exact h
  · refine ⟨h.wf, ?_, by simp, by simp⟩
    rintro _ _ _ ⟨⟩
    exact Nat.le_trans hle htable
  · refine ⟨h.wf, by simp [FeedState.opened], ?_, ?_⟩
    · rintro _ _ ⟨⟩
      exact Nat.le_trans hle htable
    · rintro _ _ ⟨⟩
      refine .inr fun c _ hpos hcursor => ?_
      have hcursor : c.revision ≤ cursor := hcursor
      have hpos : startPosition s.db request cursor < c.revision := hpos
      cases hstart : request.start <;>
        simp only [startPosition, hstart] at hpos hbegin
      · have := hbegin trivial
        omega
      · omega
      · omega

private theorem tracking_drained {s : FeedState}
    {stream : PostgresChangeStream} (h : Tracking s)
    (hs : s.subscriber = .listening stream .drain)
    (hretained : WithinRetention s .drain) : Tracking (s.drained stream) := by
  have hrec : ∀ r ∈ s.db.table, r.Recorded := fun r hr =>
    h.wf.history_recorded r (h.wf.table_history r hr)
  have hmax : ∀ r ∈ s.db.table, r.revision ≤ maxRevision s.db.history :=
    fun r hr => le_maxRevision (h.wf.table_history r hr)
  rcases drain_spec stream h.wf.ascending hrec with
    ⟨cursor, hdrain, hle, hcursor, hunwanted⟩ |
    ⟨r, hr, change, hdecode, hdrain, hlt, -, hunwanted⟩
  · rw [drained_of_none hdrain]
    refine ⟨h.wf, by simp [FeedState.atPoint], ?_, ?_⟩
    · rintro _ _ ⟨⟩
      rcases hcursor with heq | ⟨r, hr, heq⟩
      · exact heq ▸ h.cursor stream .drain hs
      · exact heq ▸ hmax r hr
    · rintro _ _ ⟨⟩
      rcases h.passed stream .drain hs with hreported | hpassed
      · exact .inl hreported
      rcases hretained rfl stream (mem_draining.mpr hs) with hreported | hretained
      · exact .inl hreported
      refine .inr fun c hc hpos hcle => ?_
      by_cases hold : c.revision ≤ stream.cursor
      · exact hpassed c hc hpos hold
      · by_contra hw
        have hw : wanted stream.filter c = true := by simpa using hw
        have hunw := hunwanted c (hretained c hc hpos hw) (by omega) hcle
        rw [hunw] at hw
        cases hw
  · rw [drained_of_some hdrain]
    refine ⟨h.wf, by simp [FeedState.atPoint], ?_, ?_⟩
    · rintro _ _ ⟨⟩
      exact hmax r hr
    · rintro _ _ ⟨⟩
      refine .inr fun c _ hpos hcle => ?_
      have hpos : change.revision < c.revision := hpos
      have hcle : c.revision ≤ r.revision := hcle
      rw [decode_revision hdecode] at hpos
      omega

theorem tracking_step {retention : Nat} (s : FeedState) (a : Label)
    (s' : FeedState) (h : Tracking s)
    (hcond : CommitsInOrder s a ∧ WithinRetention s a)
    (hstep : s.step retention a = some s') : Tracking s' := by
  cases a with
  | write w =>
      obtain ⟨db, hdb, rfl⟩ := step_write hstep
      exact tracking_write h hcond.1 hdb _
  | subscribe request =>
      obtain ⟨-, rfl⟩ := step_subscribe hstep
      exact tracking_subscribed h request
  | validate =>
      obtain ⟨requested, cursor, filter, hs, rfl⟩ := step_validate hstep
      rcases validated_cases s requested cursor filter with heq | heq <;>
        rw [heq]
      · exact ⟨h.wf, by simp, by simp, by simp⟩
      · refine ⟨h.wf, by simp [FeedState.opened], ?_, ?_⟩
        · rintro _ _ ⟨⟩
          exact h.validating requested cursor filter hs
        · rintro _ _ ⟨⟩
          refine .inr fun c _ hpos hcle => ?_
          have hpos : requested < c.revision := hpos
          have hcle : c.revision ≤ requested := hcle
          omega
  | drain =>
      obtain ⟨stream, hs, rfl⟩ := step_drain hstep
      exact tracking_drained h hs hcond.2
  | check =>
      obtain ⟨stream, hs, rfl⟩ := step_check hstep
      rcases checked_cases s stream with heq | heq <;> rw [heq]
      · obtain ⟨hwf, hval, hcursor, -⟩ := tracking_atPoint h hs .idle
        exact ⟨hwf, hval, hcursor, fun _ _ _ => .inl rfl⟩
      · exact tracking_atPoint h hs .wait
  | recv | wake | interrupt =>
      obtain ⟨stream, point, point', hs, rfl⟩ := step_move (by simp) hstep
      exact tracking_atPoint h hs point'

theorem noSilentGap_of_tracking (s : FeedState) (a : Label) (h : Tracking s)
    (hcond : WithinRetention s a) : NoSilentGap s a := by
  intro ha stream hs change hdelivered
  have hretained := hcond ha stream hs
  have hs := mem_draining.mp hs
  have hdelivered := mem_serves.mp hdelivered
  have hrec : ∀ r ∈ s.db.table, r.Recorded := fun r hr =>
    h.wf.history_recorded r (h.wf.table_history r hr)
  rcases hretained with hreported | hretained
  · exact .inl hreported
  rcases h.passed stream .drain hs with hreported | hpassed
  · exact .inl hreported
  refine .inr fun c hc hpos hless hw => ?_
  exfalso
  rcases drain_spec stream h.wf.ascending hrec with
    ⟨cursor, hdrain, -⟩ | ⟨r, -, change', hdecode, hdrain, -, -, hunwanted⟩
  · rw [hdrain] at hdelivered
    cases hdelivered
  · rw [hdrain] at hdelivered
    cases hdelivered
    rw [decode_revision hdecode] at hless
    have hunw : wanted stream.filter c = false := by
      by_cases hold : c.revision ≤ stream.cursor
      · exact hpassed c hc hpos hold
      · exact hunwanted c (hretained c hc hpos hw) (by omega) hless
    rw [hunw] at hw
    cases hw

/-- In every run whose commits keep the order of their revisions and whose
drain queries find the wanted changes above the position still retained,
`recv` never skips a wanted change silently. -/
theorem recv_reports_every_gap_within_retention (retention : Nat)
    (labels : List Label)
    (horder : Along (FeedState.step retention) CommitsInOrder
      FeedState.init labels)
    (hretained : Along (FeedState.step retention) WithinRetention
      FeedState.init labels) :
    Along (FeedState.step retention) NoSilentGap FeedState.init labels :=
  along_of_invariant tracking_step
    (fun s a h hcond => noSilentGap_of_tracking s a h hcond.2)
    tracking_init (horder.and hretained)

def twoWritesAhead : List Label :=
  committed 0 "c" "a" .put .epoch ++ [.subscribe ⟨.latest, .default⟩] ++
    committed 0 "c" "b" .put .epoch ++ committed 0 "c" "a" .put .epoch ++
    [.recv, .drain, .recv, .drain]

theorem recv_reports_every_gap_two_writes_ahead :
    Along (FeedState.step 2) NoSilentGap FeedState.init twoWritesAhead :=
  recv_reports_every_gap_within_retention 2 twoWritesAhead
    (by decide) (by decide)

/-- With one retained change the second write trims the first, and the next
`recv` delivers the second write without reporting the gap. -/
theorem recv_skips_a_trimmed_change :
    ¬ ∀ (retention : Nat) (labels : List Label), 0 < retention →
      Along (FeedState.step retention) CommitsInOrder FeedState.init labels →
      Along (FeedState.step retention) NoSilentGap FeedState.init labels := by
  intro h
  have hskip := h 1 twoWritesAhead (by decide) (by decide)
  revert hskip
  decide

end OpenKeyV.Postgres
