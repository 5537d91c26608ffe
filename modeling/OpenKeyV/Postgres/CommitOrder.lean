import OpenKeyV.Postgres.ChangeStream
import Mathlib.Data.List.Nodup

/-!
# Commit order and the Postgres stream

A BIGSERIAL revision is allocated at the insert and becomes visible at the
commit.  A transaction that commits behind the cursor is never read again, so
with nothing trimmed a stream delivers every change exactly when no wanted
change commits behind it.
-/

namespace OpenKeyV.Postgres

open OpenKeyV.Library

def TrimsNothing (retention : Nat) (s : FeedState) (a : Label) : Prop :=
  ∀ t ∈ a.trimming, ∀ tx ∈ s.db.transactions t,
    trimTargets retention (s.db.table ++ tx.rows) = []

/-- Wanted rows become visible above the cursor of the open stream. -/
def CommitsAhead (s : FeedState) (a : Label) : Prop :=
  ∀ t ∈ a.committing, ∀ tx ∈ s.db.transactions t,
    ∀ stream ∈ s.subscriber.stream?, ∀ r ∈ tx.rows,
      wanted stream.filter r = true → stream.cursor < r.revision

/-- Each wanted change committed since the subscription is delivered once. -/
def DeliveredOnce (s : FeedState) (filter : ChangeFilter) : Prop :=
  ∀ c ∈ s.since, wanted filter c = true →
    ∃ change, c.decode = .ok change ∧ s.delivered.count change = 1

def Quiescent (db : Database) : Prop := ∀ t, db.transactions t = none

def Drained (s : FeedState) (stream : PostgresChangeStream) : Prop :=
  drainQuery stream.cursor s.db.table = []

instance (retention : Nat) (s : FeedState) (a : Label) :
    Decidable (TrimsNothing retention s a) := by
  unfold TrimsNothing
  infer_instance

instance (s : FeedState) (a : Label) : Decidable (CommitsAhead s a) := by
  unfold CommitsAhead
  infer_instance

/-- Delivered changes are committed rows at or below the cursor, in order. -/
structure Ordered (s : FeedState) : Prop where
  wf : s.db.WellFormed
  since : ∀ c ∈ s.since, c ∈ s.db.history
  row : ∀ d ∈ s.delivered, ∃ r ∈ s.db.history, r.decode = .ok d
  ascending : Ascending StoreChange.revision s.delivered
  behind : ∀ stream ∈ s.subscriber.stream?,
    ∀ d ∈ s.delivered, d.revision ≤ stream.cursor

theorem ordered_init : Ordered FeedState.init where
  wf := wellFormed_empty
  since := by simp [FeedState.init]
  row := by simp [FeedState.init]
  ascending := by simp [FeedState.init, Ascending]
  behind := by simp [FeedState.init]

theorem step_write_since {retention : Nat} {s s' : FeedState} {w : Write}
    (h : s.step retention (.write w) = some s') :
    ∃ rows db, s.db.step retention w = some db ∧
      s' = { s with db := db, since := s.since ++ rows } ∧
      db.history = s.db.history ++ rows ∧
      (rows = [] ∨ ∃ t tx, w = .commit t ∧
        s.db.transactions t = some tx ∧ rows = tx.rows) := by
  obtain ⟨db, hdb, rfl⟩ := step_write h
  rcases step_history hdb with hsame | ⟨t, tx, hw, htx, hgrown⟩
  · exact ⟨[], db, hdb, by simp [hsame], by simp [hsame], .inl rfl⟩
  · exact ⟨tx.rows, db, hdb, by simp [hgrown], hgrown,
      .inr ⟨t, tx, hw, htx, rfl⟩⟩

theorem ordered_step {retention : Nat} {s s' : FeedState} {a : Label}
    (h : Ordered s) (hstep : s.step retention a = some s') : Ordered s' := by
  by_cases ha : ∃ w, a = .write w
  · obtain ⟨w, rfl⟩ := ha
    obtain ⟨rows, db, hdb, rfl, hhistory, -⟩ := step_write_since hstep
    refine ⟨step_wellFormed h.wf hdb, ?_, ?_, h.ascending, h.behind⟩
    · intro c hc
      show c ∈ db.history
      rw [hhistory]
      rcases List.mem_append.mp hc with hc | hc
      · exact List.mem_append_left _ (h.since c hc)
      · exact List.mem_append_right _ hc
    · intro d hd
      obtain ⟨r, hr, hdecode⟩ := h.row d hd
      exact ⟨r, hhistory ▸ List.mem_append_left _ hr, hdecode⟩
  have ha : ∀ w, a ≠ .write w := fun w hw => ha ⟨w, hw⟩
  cases hs : s.subscriber.stream? with
  | none =>
      obtain ⟨hdb, ⟨hsub, hsince, hdel⟩ | ⟨hsince, hdel⟩⟩ :=
        step_not_listening hs ha hstep
      · refine ⟨hdb ▸ h.wf, ?_, ?_, hdel ▸ h.ascending, by simp [hsub]⟩
        · rw [hsince, hdb]
          exact h.since
        · rw [hdel, hdb]
          exact h.row
      · refine ⟨hdb ▸ h.wf, ?_, ?_, ?_, ?_⟩ <;>
          simp [hsince, hdel, Ascending]
  | some stream =>
      obtain ⟨point, hlistening⟩ := mem_stream?.mp hs
      have hbehind := h.behind stream hs
      rcases step_listening h.wf hlistening ha hstep with
        ⟨cursor, point', hsub, hdb, hsince, hdel, hle, -⟩ |
        ⟨r, hr, change, hdecode, hsub, hdb, hsince, hdel, hlt, -⟩
      · refine ⟨hdb ▸ h.wf, ?_, ?_, hdel ▸ h.ascending, ?_⟩
        · rw [hsince, hdb]
          exact h.since
        · rw [hdel, hdb]
          exact h.row
        · rw [hsub, hdel]
          rintro _ ⟨⟩ d hd
          exact Nat.le_trans (hbehind d hd) hle
      · have hrev := decode_revision hdecode
        refine ⟨hdb ▸ h.wf, ?_, ?_, ?_, ?_⟩
        · rw [hsince, hdb]
          exact h.since
        · rw [hdel, hdb]
          intro d hd
          rcases List.mem_append.mp hd with hd | hd
          · exact h.row d hd
          · rw [List.mem_singleton.mp hd]
            exact ⟨r, h.wf.table_history r hr, hdecode⟩
        · rw [hdel]
          refine List.pairwise_append.mpr ⟨h.ascending, by simp, ?_⟩
          intro d hd d' hd'
          rw [List.mem_singleton.mp hd', hrev]
          exact Nat.lt_of_le_of_lt (hbehind d hd) hlt
        · rw [hsub, hdel]
          rintro _ ⟨⟩ d hd
          rcases List.mem_append.mp hd with hd | hd
          · exact Nat.le_of_lt (Nat.lt_of_le_of_lt (hbehind d hd) hlt)
          · rw [List.mem_singleton.mp hd, hrev]

/-- The row has been passed without being delivered. -/
structure Missed (filter : ChangeFilter) (r : ChangeRow) (s : FeedState) :
    Prop where
  since : r ∈ s.since
  passed : ∃ stream ∈ s.subscriber.stream?,
    stream.filter = filter ∧ r.revision ≤ stream.cursor
  undelivered : ∀ d ∈ s.delivered, d.revision ≠ r.revision

theorem missed_step {retention : Nat} {filter : ChangeFilter} {r : ChangeRow}
    {s s' : FeedState} {a : Label} (hordered : Ordered s)
    (h : Missed filter r s) (hstep : s.step retention a = some s') :
    Missed filter r s' := by
  obtain ⟨hsince, ⟨stream, hs, hfilter, hle⟩, hundelivered⟩ := h
  by_cases ha : ∃ w, a = .write w
  · obtain ⟨w, rfl⟩ := ha
    obtain ⟨rows, db, -, rfl, -⟩ := step_write_since hstep
    exact ⟨List.mem_append_left _ hsince, ⟨stream, hs, hfilter, hle⟩,
      hundelivered⟩
  have ha : ∀ w, a ≠ .write w := fun w hw => ha ⟨w, hw⟩
  obtain ⟨point, hlistening⟩ := mem_stream?.mp hs
  rcases step_listening hordered.wf hlistening ha hstep with
    ⟨cursor, point', hsub, -, hsince', hdel, hcursor, -⟩ |
    ⟨r', -, change, hdecode, hsub, -, hsince', hdel, hlt, -⟩
  · refine ⟨hsince' ▸ hsince, ?_, hdel ▸ hundelivered⟩
    exact ⟨_, mem_stream?.mpr ⟨point', hsub⟩, hfilter,
      Nat.le_trans hle hcursor⟩
  · refine ⟨hsince' ▸ hsince, ?_, ?_⟩
    · exact ⟨_, mem_stream?.mpr ⟨.idle, hsub⟩, hfilter,
        Nat.le_of_lt (Nat.lt_of_le_of_lt hle hlt)⟩
    · rw [hdel]
      intro d hd
      rcases List.mem_append.mp hd with hd | hd
      · exact hundelivered d hd
      · rw [List.mem_singleton.mp hd, decode_revision hdecode]
        omega

/-- A wanted row that commits at or below the cursor is missed at once. -/
theorem missed_of_commit_behind {retention t : Nat} {s s' : FeedState}
    {tx : Transaction} {stream : PostgresChangeStream} {r : ChangeRow}
    (h : Ordered s) (htx : s.db.transactions t = some tx)
    (hs : stream ∈ s.subscriber.stream?) (hr : r ∈ tx.rows)
    (hle : r.revision ≤ stream.cursor)
    (hstep : s.step retention (.write (.commit t)) = some s') :
    Missed stream.filter r s' := by
  obtain ⟨db, hdb, rfl⟩ := step_write hstep
  obtain ⟨tx', trimmed, htx', -, rfl⟩ := step_commit hdb
  obtain rfl : tx = tx' := Option.some.inj (htx.symm.trans htx')
  refine ⟨by simp [hr], ⟨stream, hs, rfl, hle⟩, ?_⟩
  intro d hd
  obtain ⟨c, hc, hdecode⟩ := h.row d hd
  rw [decode_revision hdecode]
  exact (h.wf.transaction t tx htx).fresh r hr c hc

/-- Nothing committed has left the table. -/
structure Untrimmed (db : Database) : Prop where
  visible : ∀ c ∈ db.history, c ∈ db.table
  targets : ∀ t tx, db.transactions t = some tx →
    ∀ trimmed, tx.trimmed = some trimmed → trimmed = []

theorem untrimmed_step {retention : Nat} {db db' : Database} {w : Write}
    (h : Untrimmed db)
    (hnothing : ∀ t, w = .trim t → ∀ tx, db.transactions t = some tx →
      trimTargets retention (db.table ++ tx.rows) = [])
    (hstep : db.step retention w = some db') : Untrimmed db' := by
  have hslot : ∀ t slot, (∀ tx, slot = some tx →
      ∀ trimmed, tx.trimmed = some trimmed → trimmed = []) →
      ∀ t' tx, (db.setTransaction t slot).transactions t' = some tx →
        ∀ trimmed, tx.trimmed = some trimmed → trimmed = [] := by
    intro t slot hok t' tx htx
    rw [setTransaction_transactions] at htx
    split at htx
    · exact hok tx htx
    · exact h.targets t' tx htx
  cases w with
  | begin t collection keys operation now =>
      rw [step_begin hstep]
      exact ⟨h.visible, hslot t _ (by rintro tx ⟨⟩; simp)⟩
  | insert t =>
      obtain ⟨tx, key, todo, htx, -, rfl⟩ := step_insert hstep
      exact ⟨h.visible, hslot t _ (by rintro _ ⟨⟩; exact h.targets t tx htx)⟩
  | trim t =>
      obtain ⟨tx, htx, rfl⟩ := step_trim hstep
      refine ⟨h.visible, hslot t _ ?_⟩
      rintro _ ⟨⟩ trimmed ⟨⟩
      exact hnothing t rfl tx htx
  | commit t =>
      obtain ⟨tx, trimmed, htx, htrimmed, rfl⟩ := step_commit hstep
      obtain rfl := h.targets t tx htx trimmed htrimmed
      refine ⟨?_, hslot t none (by simp)⟩
      intro c hc
      refine mem_publish.mpr ⟨?_, by simp⟩
      exact (List.mem_append.mp hc).imp (h.visible c) id
  | rollback t =>
      rw [step_rollback hstep]
      exact ⟨h.visible, hslot t none (by simp)⟩

/-- Each wanted change since the subscription is above the cursor or has been
delivered. -/
structure Complete (s : FeedState) : Prop where
  ordered : Ordered s
  untrimmed : Untrimmed s.db
  delivered : ∀ stream ∈ s.subscriber.stream?, ∀ c ∈ s.since,
    wanted stream.filter c = true → c.revision ≤ stream.cursor →
    ∃ d ∈ s.delivered, c.decode = .ok d

theorem complete_init : Complete FeedState.init where
  ordered := ordered_init
  untrimmed := ⟨by simp [FeedState.init, Database.empty],
    by simp [FeedState.init, Database.empty]⟩
  delivered := by simp [FeedState.init]

theorem complete_step {retention : Nat} (s : FeedState) (a : Label)
    (s' : FeedState) (h : Complete s)
    (hcond : TrimsNothing retention s a ∧ CommitsAhead s a)
    (hstep : s.step retention a = some s') : Complete s' := by
  have hordered := ordered_step h.ordered hstep
  by_cases ha : ∃ w, a = .write w
  · obtain ⟨w, rfl⟩ := ha
    obtain ⟨rows, db, hdb, rfl, -, hrows⟩ := step_write_since hstep
    refine ⟨hordered, untrimmed_step h.untrimmed ?_ hdb, ?_⟩
    · rintro t rfl tx htx
      exact hcond.1 t rfl tx htx
    · intro stream hs c hc hw hle
      rcases List.mem_append.mp hc with hc | hc
      · exact h.delivered stream hs c hc hw hle
      · rcases hrows with rfl | ⟨t, tx, rfl, htx, rfl⟩
        · simp at hc
        · have hlt := hcond.2 t rfl tx htx stream hs c hc hw
          omega
  have ha : ∀ w, a ≠ .write w := fun w hw => ha ⟨w, hw⟩
  cases hs : s.subscriber.stream? with
  | none =>
      obtain ⟨hdb, ⟨hsub, -⟩ | ⟨hsince, -⟩⟩ := step_not_listening hs ha hstep
      · exact ⟨hordered, hdb ▸ h.untrimmed, by simp [hsub]⟩
      · exact ⟨hordered, hdb ▸ h.untrimmed, by simp [hsince]⟩
  | some stream =>
      obtain ⟨point, hlistening⟩ := mem_stream?.mp hs
      have hold := h.delivered stream hs
      have htable : ∀ c ∈ s.since, c ∈ s.db.table := fun c hc =>
        h.untrimmed.visible c (h.ordered.since c hc)
      rcases step_listening h.ordered.wf hlistening ha hstep with
        ⟨cursor, point', hsub, hdb, hsince, hdel, -, hunwanted⟩ |
        ⟨r, hr, change, hdecode, hsub, hdb, hsince, hdel, -, hunwanted⟩
      · refine ⟨hordered, hdb ▸ h.untrimmed, ?_⟩
        rw [hsub, hsince, hdel]
        rintro _ ⟨⟩ c hc hw hle
        by_cases hpassed : c.revision ≤ stream.cursor
        · exact hold c hc hw hpassed
        · have hunw := hunwanted c (htable c hc) (by omega) hle
          exact absurd hw (by simp [hunw])
      · refine ⟨hordered, hdb ▸ h.untrimmed, ?_⟩
        rw [hsub, hsince, hdel]
        rintro _ ⟨⟩ c hc hw hle
        have hle : c.revision ≤ r.revision := hle
        by_cases hpassed : c.revision ≤ stream.cursor
        · obtain ⟨d, hd, hcd⟩ := hold c hc hw hpassed
          exact ⟨d, List.mem_append_left _ hd, hcd⟩
        · rcases Nat.lt_or_eq_of_le hle with hlt | heq
          · have hunw := hunwanted c (htable c hc) (by omega) hlt
            exact absurd hw (by simp [hunw])
          · obtain rfl := h.ordered.wf.ascending.eq_of_rev_eq (htable c hc) hr
              heq
            exact ⟨change, by simp, hdecode⟩

private theorem count_eq_one {delivered : List StoreChange}
    {change : StoreChange}
    (hasc : Ascending StoreChange.revision delivered)
    (hmem : change ∈ delivered) : delivered.count change = 1 := by
  have hnodup : delivered.Nodup := by
    refine hasc.imp ?_
    rintro a b hlt rfl
    exact Nat.lt_irrefl _ hlt
  exact List.count_eq_one_of_mem hnodup hmem

private theorem drained_le {s : FeedState} {stream : PostgresChangeStream}
    (h : Drained s stream) : ∀ r ∈ s.db.table, r.revision ≤ stream.cursor := by
  intro r hr
  by_contra hlt
  have hmem : r ∈ ahead ChangeRow.revision stream.cursor s.db.table :=
    mem_ahead.mpr ⟨hr, by omega⟩
  rcases List.take_eq_nil_iff.mp h with hlimit | hempty
  · cases hlimit
  · rw [hempty] at hmem
    simp at hmem

/-- In a run that trims nothing, a drained stream has delivered every wanted
change committed since it was opened, each once, exactly when no wanted change
committed behind its cursor. -/
theorem delivered_once_iff_commits_ahead (retention : Nat)
    (labels : List Label) (s : FeedState) (stream : PostgresChangeStream)
    (hrun : run (FeedState.step retention) FeedState.init labels = some s)
    (hnothing : Along (FeedState.step retention) (TrimsNothing retention)
      FeedState.init labels)
    (hs : stream ∈ s.subscriber.stream?) (hdrained : Drained s stream) :
    DeliveredOnce s stream.filter ↔
      Along (FeedState.step retention) CommitsAhead FeedState.init labels := by
  constructor
  · intro honce
    refine along_of_at_step fun as a bs x hsplit hx t ha tx htx stream' hs' r
      hr hw => ?_
    by_contra hbehind
    obtain rfl := mem_committing.mp ha
    have hordered : Ordered x :=
      reachable_invariant (fun _ _ _ => ordered_step) ordered_init ⟨as, hx⟩
    rw [hsplit] at hrun
    obtain ⟨x', hx', hrest⟩ := run_append_eq_some.mp hrun
    obtain rfl := Option.some.inj (hx.symm.trans hx')
    obtain ⟨y, hy, hrest⟩ := run_cons_eq_some.mp hrest
    have hmissed := missed_of_commit_behind hordered htx hs' hr (by omega) hy
    obtain ⟨-, hsince, ⟨stream'', hs'', hfilter, -⟩, hundelivered⟩ :=
      reachable_invariant
        (P := fun s => Ordered s ∧ Missed stream'.filter r s)
        (fun _ _ _ h hstep =>
          ⟨ordered_step h.1 hstep, missed_step h.1 h.2 hstep⟩)
        ⟨ordered_step hordered hy, hmissed⟩ ⟨bs, hrest⟩
    obtain rfl := Option.some.inj (hs''.symm.trans hs)
    obtain ⟨change, hdecode, hcount⟩ := honce r hsince (hfilter ▸ hw)
    have hmem : change ∈ s.delivered := List.count_pos_iff.mp (by omega)
    exact hundelivered change hmem (decode_revision hdecode)
  · intro hahead
    have hcomplete : Complete s :=
      run_invariant complete_step complete_init (hnothing.and hahead) hrun
    intro c hc hw
    have hvisible := hcomplete.untrimmed.visible c (hcomplete.ordered.since c hc)
    obtain ⟨d, hd, hdecode⟩ := hcomplete.delivered stream hs c hc hw
      (drained_le hdrained c hvisible)
    exact ⟨d, hdecode, count_eq_one hcomplete.ordered.ascending hd⟩

def overtaken : List Label :=
  [.subscribe ⟨.beginning, .default⟩,
    .write (.begin 0 "c" ["a"] .put .epoch), .write (.insert 0),
    .write (.begin 1 "c" ["b"] .put .epoch), .write (.insert 1),
    .write (.trim 1), .write (.commit 1), .recv, .drain,
    .write (.trim 0), .write (.commit 0), .recv, .drain]

def inTurn : List Label :=
  [.subscribe ⟨.beginning, .default⟩] ++ committed 0 "c" "a" .put .epoch ++
    committed 1 "c" "b" .delete .epoch ++ [.recv, .drain, .recv, .drain]

theorem delivered_once_in_turn :
    ∃ s stream, run (FeedState.step 10) FeedState.init inTurn = some s ∧
      stream ∈ s.subscriber.stream? ∧ Drained s stream ∧
      DeliveredOnce s stream.filter :=
  ⟨_, _, rfl, rfl, rfl,
    (delivered_once_iff_commits_ahead 10 inTurn _ _ rfl (by decide) rfl
      rfl).mpr (by decide)⟩

/-- The stream has read revision 2 when revision 1 commits, and never
delivers it. -/
theorem overtaken_change_is_lost :
    ¬ ∀ (retention : Nat) (labels : List Label) (s : FeedState)
      (stream : PostgresChangeStream),
      run (FeedState.step retention) FeedState.init labels = some s →
      Along (FeedState.step retention) (TrimsNothing retention)
        FeedState.init labels →
      Quiescent s.db → stream ∈ s.subscriber.stream? → Drained s stream →
      DeliveredOnce s stream.filter := by
  intro h
  have honce := h 10 overtaken _ _ rfl (by decide)
    (fun t => match t with | 0 | 1 | _ + 2 => rfl) rfl rfl
    ⟨1, "c", "a", "put", .epoch⟩ (by decide) (by decide)
  obtain ⟨change, hdecode, hcount⟩ := honce
  cases hdecode
  revert hcount
  decide

end OpenKeyV.Postgres
