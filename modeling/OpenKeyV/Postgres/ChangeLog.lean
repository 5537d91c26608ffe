import OpenKeyV.Change
import OpenKeyV.Library.CursorReader
import Mathlib.Logic.Function.Basic

/-!
# The Postgres change log

`PostgresStore::record_changes` runs inside the transaction of the mutation:
one `INSERT` allocates a BIGSERIAL revision for each key, one `DELETE` trims
the log, and both take effect when the transaction commits.  Statements read
the committed rows and the rows of their own transaction.  Row locks are not
modelled, so transactions interleave at least as freely as in the database.
-/

namespace OpenKeyV.Postgres

open OpenKeyV.Library

structure ChangeRow where
  revision : Nat
  collection : String
  key : String
  operation : String
  occurredAt : DateTime
  deriving DecidableEq, Repr

def asI64 (n : Nat) : Int := (BitVec.ofNat 64 n).toInt

def maxRevision (rows : List ChangeRow) : Nat :=
  (rows.map ChangeRow.revision).foldr max 0

def minRetainedRevision (rows : List ChangeRow) : Option Nat :=
  (rows.map ChangeRow.revision).min?

structure Transaction where
  collection : String
  operation : String
  occurredAt : DateTime
  todo : List String
  rows : List ChangeRow
  trimmed : Option (List Nat)
  deriving DecidableEq, Repr

structure Database where
  sequence : Nat
  table : List ChangeRow
  transactions : Nat → Option Transaction
  /-- Every row ever committed, trimmed or not; nothing reads it. -/
  history : List ChangeRow

def Database.empty : Database := ⟨0, [], fun _ => none, []⟩

def Database.setTransaction (db : Database) (t : Nat)
    (slot : Option Transaction) : Database :=
  { db with transactions := Function.update db.transactions t slot }

section SetTransaction

variable (db : Database) (t : Nat) (slot : Option Transaction)

@[simp] theorem setTransaction_sequence :
    (db.setTransaction t slot).sequence = db.sequence := rfl

@[simp] theorem setTransaction_table :
    (db.setTransaction t slot).table = db.table := rfl

@[simp] theorem setTransaction_history :
    (db.setTransaction t slot).history = db.history := rfl

@[simp] theorem setTransaction_transactions (t' : Nat) :
    (db.setTransaction t slot).transactions t' =
      if t' = t then slot else db.transactions t' := by
  simp [Database.setTransaction, Function.update_apply]

end SetTransaction

inductive Write where
  | begin (t : Nat) (collection : String) (keys : List String)
      (operation : ChangeOperation) (now : DateTime)
  | insert (t : Nat)
  | trim (t : Nat)
  | commit (t : Nat)
  | rollback (t : Nat)
  deriving DecidableEq, Repr

def Transaction.row (tx : Transaction) (revision : Nat) (key : String) :
    ChangeRow :=
  ⟨revision, tx.collection, key, tx.operation, tx.occurredAt⟩

/-- Revisions the trim statement deletes: those at most `MAX - retention`
among the rows it sees. -/
def trimTargets (retention : Nat) (visible : List ChangeRow) : List Nat :=
  (visible.filter fun r =>
      decide ((r.revision : Int) ≤ maxRevision visible - asI64 retention)).map
    ChangeRow.revision

def survives (trimmed : List Nat) (r : ChangeRow) : Bool :=
  !trimmed.contains r.revision

def publish (table rows : List ChangeRow) (trimmed : List Nat) :
    List ChangeRow :=
  (rows.filter (survives trimmed)).foldl
    (fun table r => insertRow ChangeRow.revision r table)
    (table.filter (survives trimmed))

/-- One statement of one transaction.  With `change_retention` zero, or no
changed key, `record_changes` returns before its first statement. -/
def Database.step (retention : Nat) (db : Database) : Write → Option Database
  | .begin t collection keys operation now =>
      if retention = 0 ∨ keys = [] then none
      else
        match db.transactions t with
        | some _ => none
        | none =>
            some (db.setTransaction t
              (some ⟨collection, operation.text, now, keys, [], none⟩))
  | .insert t =>
      match db.transactions t with
      | some tx =>
          match tx.todo with
          | [] => none
          | key :: todo =>
              some ({ db with sequence := db.sequence + 1 }.setTransaction t
                (some { tx with
                  todo := todo
                  rows := tx.rows ++ [tx.row (db.sequence + 1) key] }))
      | none => none
  | .trim t =>
      match db.transactions t with
      | some tx =>
          if tx.todo = [] ∧ tx.trimmed = none then
            some (db.setTransaction t
              (some { tx with
                trimmed := some
                  (trimTargets retention (db.table ++ tx.rows)) }))
          else none
      | none => none
  | .commit t =>
      match db.transactions t with
      | some tx =>
          match tx.trimmed with
          | some trimmed =>
              some { db.setTransaction t none with
                table := publish db.table tx.rows trimmed
                history := db.history ++ tx.rows }
          | none => none
      | none => none
  | .rollback t =>
      match db.transactions t with
      | some _ => some (db.setTransaction t none)
      | none => none

theorem step_begin {retention t : Nat} {db db' : Database}
    {collection : String} {keys : List String} {operation : ChangeOperation}
    {now : DateTime}
    (h : db.step retention (.begin t collection keys operation now) = some db') :
    db' = db.setTransaction t
      (some ⟨collection, operation.text, now, keys, [], none⟩) := by
  simp only [Database.step] at h
  split at h
  · cases h
  · split at h
    · cases h
    · exact (Option.some.inj h).symm

theorem step_insert {retention t : Nat} {db db' : Database}
    (h : db.step retention (.insert t) = some db') :
    ∃ tx key todo, db.transactions t = some tx ∧ tx.todo = key :: todo ∧
      db' = { db with sequence := db.sequence + 1 }.setTransaction t
        (some { tx with
          todo := todo
          rows := tx.rows ++ [tx.row (db.sequence + 1) key] }) := by
  simp only [Database.step] at h
  split at h
  · rename_i tx htx
    split at h
    · cases h
    · rename_i key todo htodo
      exact ⟨tx, key, todo, htx, htodo, (Option.some.inj h).symm⟩
  · cases h

theorem step_trim {retention t : Nat} {db db' : Database}
    (h : db.step retention (.trim t) = some db') :
    ∃ tx, db.transactions t = some tx ∧
      db' = db.setTransaction t
        (some { tx with
          trimmed := some (trimTargets retention (db.table ++ tx.rows)) }) := by
  simp only [Database.step] at h
  split at h
  · rename_i tx htx
    split at h
    · exact ⟨tx, htx, (Option.some.inj h).symm⟩
    · cases h
  · cases h

theorem step_commit {retention t : Nat} {db db' : Database}
    (h : db.step retention (.commit t) = some db') :
    ∃ tx trimmed, db.transactions t = some tx ∧ tx.trimmed = some trimmed ∧
      db' = { db.setTransaction t none with
        table := publish db.table tx.rows trimmed
        history := db.history ++ tx.rows } := by
  simp only [Database.step] at h
  split at h
  · rename_i tx htx
    split at h
    · rename_i trimmed htrimmed
      exact ⟨tx, trimmed, htx, htrimmed, (Option.some.inj h).symm⟩
    · cases h
  · cases h

theorem step_rollback {retention t : Nat} {db db' : Database}
    (h : db.step retention (.rollback t) = some db') :
    db' = db.setTransaction t none := by
  simp only [Database.step] at h
  split at h
  · exact (Option.some.inj h).symm
  · cases h

theorem step_history {retention : Nat} {db db' : Database} {w : Write}
    (h : db.step retention w = some db') :
    db'.history = db.history ∨
      ∃ t tx, w = .commit t ∧ db.transactions t = some tx ∧
        db'.history = db.history ++ tx.rows := by
  cases w with
  | begin t collection keys operation now =>
      rw [step_begin h]
      exact .inl rfl
  | insert t =>
      obtain ⟨tx, key, todo, -, -, rfl⟩ := step_insert h
      exact .inl rfl
  | trim t =>
      obtain ⟨tx, -, rfl⟩ := step_trim h
      exact .inl rfl
  | commit t =>
      obtain ⟨tx, trimmed, htx, -, rfl⟩ := step_commit h
      exact .inr ⟨t, tx, rfl, htx, rfl⟩
  | rollback t =>
      rw [step_rollback h]
      exact .inl rfl

theorem le_maxRevision {rows : List ChangeRow} {r : ChangeRow}
    (h : r ∈ rows) : r.revision ≤ maxRevision rows := by
  induction rows with
  | nil => simp at h
  | cons a rows ih =>
      simp only [maxRevision, List.map_cons, List.foldr_cons] at ih ⊢
      rcases List.mem_cons.mp h with rfl | h
      · exact Nat.le_max_left _ _
      · exact Nat.le_trans (ih h) (Nat.le_max_right _ _)

theorem maxRevision_mem (rows : List ChangeRow) :
    maxRevision rows = 0 ∨ ∃ r ∈ rows, r.revision = maxRevision rows := by
  induction rows with
  | nil => exact .inl rfl
  | cons a rows ih =>
      simp only [maxRevision, List.map_cons, List.foldr_cons] at ih ⊢
      rcases Nat.le_total a.revision
          (List.foldr max 0 (rows.map ChangeRow.revision)) with hle | hle
      · rw [Nat.max_eq_right hle]
        rcases ih with hzero | ⟨r, hr, heq⟩
        · exact .inl hzero
        · exact .inr ⟨r, List.mem_cons_of_mem a hr, heq⟩
      · rw [Nat.max_eq_left hle]
        exact .inr ⟨a, by simp, rfl⟩

private theorem mem_foldl_insertRow {r : ChangeRow} (rows : List ChangeRow) :
    ∀ table : List ChangeRow,
      r ∈ rows.foldl (fun table r => insertRow ChangeRow.revision r table)
          table ↔ r ∈ table ∨ r ∈ rows := by
  induction rows with
  | nil => simp
  | cons a rows ih =>
      intro table
      rw [List.foldl_cons, ih, mem_insertRow, List.mem_cons]
      tauto

@[simp] theorem mem_publish {table rows : List ChangeRow} {trimmed : List Nat}
    {r : ChangeRow} :
    r ∈ publish table rows trimmed ↔
      (r ∈ table ∨ r ∈ rows) ∧ r.revision ∉ trimmed := by
  simp only [publish, mem_foldl_insertRow, List.mem_filter, survives,
    Bool.not_eq_true', List.contains_eq_mem, decide_eq_false_iff_not]
  tauto

private theorem foldl_insertRow_ascending (rows : List ChangeRow) :
    ∀ table : List ChangeRow, Ascending ChangeRow.revision table →
      Ascending ChangeRow.revision rows →
      (∀ a ∈ table, ∀ r ∈ rows, a.revision ≠ r.revision) →
      Ascending ChangeRow.revision
        (rows.foldl (fun table r => insertRow ChangeRow.revision r table)
          table) := by
  induction rows with
  | nil => exact fun _ h _ _ => h
  | cons b rows ih =>
      intro table htable hrows hnew
      obtain ⟨hb, hrest⟩ := List.pairwise_cons.mp hrows
      refine ih _ (insertRow_ascending htable fun a ha =>
        hnew a ha b (by simp)) hrest ?_
      intro a ha r hr
      rcases mem_insertRow.mp ha with rfl | ha
      · exact Nat.ne_of_lt (hb r hr)
      · exact hnew a ha r (List.mem_cons_of_mem b hr)

theorem publish_ascending {table rows : List ChangeRow} {trimmed : List Nat}
    (htable : Ascending ChangeRow.revision table)
    (hrows : Ascending ChangeRow.revision rows)
    (hnew : ∀ a ∈ table, ∀ r ∈ rows, a.revision ≠ r.revision) :
    Ascending ChangeRow.revision (publish table rows trimmed) := by
  refine foldl_insertRow_ascending _ _ (htable.filter _) (hrows.filter _) ?_
  intro a ha r hr
  exact hnew a (List.mem_of_mem_filter ha) r (List.mem_of_mem_filter hr)

def ChangeRow.Recorded (r : ChangeRow) : Prop :=
  ∃ operation : ChangeOperation, r.operation = operation.text

/-- The inserted rows of an open transaction: in order, at most `sequence`,
and different from every committed row. -/
structure Transaction.WellFormed (tx : Transaction) (sequence : Nat)
    (history : List ChangeRow) : Prop where
  operation : ∃ operation : ChangeOperation, tx.operation = operation.text
  recorded : ∀ r ∈ tx.rows, r.Recorded
  ascending : Ascending ChangeRow.revision tx.rows
  le : ∀ r ∈ tx.rows, r.revision ≤ sequence
  fresh : ∀ r ∈ tx.rows, ∀ c ∈ history, c.revision ≠ r.revision

/-- Revisions are handed out once, and committed rows stay below the
sequence and in order. -/
structure Database.WellFormed (db : Database) : Prop where
  ascending : Ascending ChangeRow.revision db.table
  table_history : ∀ r ∈ db.table, r ∈ db.history
  history_le : ∀ r ∈ db.history, r.revision ≤ db.sequence
  history_inj : ∀ a ∈ db.history, ∀ b ∈ db.history,
    a.revision = b.revision → a = b
  history_recorded : ∀ r ∈ db.history, r.Recorded
  transaction : ∀ t tx, db.transactions t = some tx →
    tx.WellFormed db.sequence db.history
  disjoint : ∀ t t' tx tx', t ≠ t' → db.transactions t = some tx →
    db.transactions t' = some tx' →
    ∀ r ∈ tx.rows, ∀ r' ∈ tx'.rows, r.revision ≠ r'.revision

theorem wellFormed_empty : Database.empty.WellFormed := by
  constructor <;> simp [Database.empty, Ascending]

private theorem Database.WellFormed.update {db : Database}
    (h : db.WellFormed) (t : Nat) (slot : Option Transaction)
    (hok : ∀ tx, slot = some tx → tx.WellFormed db.sequence db.history)
    (hdisjoint : ∀ tx, slot = some tx → ∀ t' tx', t' ≠ t →
      db.transactions t' = some tx' →
      ∀ r ∈ tx.rows, ∀ r' ∈ tx'.rows, r.revision ≠ r'.revision) :
    (db.setTransaction t slot).WellFormed := by
  refine ⟨h.ascending, h.table_history, h.history_le, h.history_inj,
    h.history_recorded, ?_, ?_⟩
  · intro t' tx htx
    rw [setTransaction_transactions] at htx
    split at htx
    · exact hok tx htx
    · exact h.transaction t' tx htx
  · intro t₁ t₂ tx₁ tx₂ hne htx₁ htx₂
    rw [setTransaction_transactions] at htx₁ htx₂
    split at htx₁
    · subst t₁
      rw [if_neg hne.symm] at htx₂
      exact hdisjoint tx₁ htx₁ t₂ tx₂ hne.symm htx₂
    · rename_i h₁
      split at htx₂
      · intro r hr r' hr'
        exact (hdisjoint tx₂ htx₂ t₁ tx₁ h₁ htx₁ r' hr' r hr).symm
      · exact h.disjoint t₁ t₂ tx₁ tx₂ hne htx₁ htx₂

private theorem Database.WellFormed.grow {db : Database} (h : db.WellFormed) :
    Database.WellFormed { db with sequence := db.sequence + 1 } := by
  refine ⟨h.ascending, h.table_history, ?_, h.history_inj,
    h.history_recorded, ?_, h.disjoint⟩
  · exact fun r hr => Nat.le_succ_of_le (h.history_le r hr)
  · intro t tx htx
    obtain ⟨hop, hrec, hasc, hle, hfresh⟩ := h.transaction t tx htx
    exact ⟨hop, hrec, hasc, fun r hr => Nat.le_succ_of_le (hle r hr), hfresh⟩

private theorem insert_wellFormed {db : Database} (h : db.WellFormed)
    {t : Nat} {tx : Transaction} (htx : db.transactions t = some tx)
    (key : String) (todo : List String) :
    ({ db with sequence := db.sequence + 1 }.setTransaction t
      (some { tx with
        todo := todo
        rows := tx.rows ++ [tx.row (db.sequence + 1) key] })).WellFormed := by
  have hold := h.transaction t tx htx
  refine h.grow.update t _ ?_ ?_
  · rintro tx' ⟨⟩
    refine ⟨hold.operation, ?_, ?_, ?_, ?_⟩
    · intro r hr
      rcases List.mem_append.mp hr with hr | hr
      · exact hold.recorded r hr
      · rw [List.mem_singleton.mp hr]
        exact hold.operation
    · refine List.pairwise_append.mpr ⟨hold.ascending, by simp, ?_⟩
      intro r hr r' hr'
      rw [List.mem_singleton.mp hr']
      exact Nat.lt_succ_of_le (hold.le r hr)
    · intro r hr
      rcases List.mem_append.mp hr with hr | hr
      · exact Nat.le_succ_of_le (hold.le r hr)
      · rw [List.mem_singleton.mp hr]
        exact Nat.le_refl _
    · intro r hr c hc
      rcases List.mem_append.mp hr with hr | hr
      · exact hold.fresh r hr c hc
      · rw [List.mem_singleton.mp hr]
        exact Nat.ne_of_lt (Nat.lt_succ_of_le (h.history_le c hc))
  · rintro tx' ⟨⟩ t' tx'' hne htx'' r hr r' hr'
    rcases List.mem_append.mp hr with hr | hr
    · exact h.disjoint t t' tx tx'' hne.symm htx htx'' r hr r' hr'
    · rw [List.mem_singleton.mp hr]
      have hle := (h.transaction t' tx'' htx'').le r' hr'
      exact (Nat.ne_of_lt (Nat.lt_succ_of_le hle)).symm

private theorem commit_wellFormed {db : Database} (h : db.WellFormed)
    {t : Nat} {tx : Transaction} (htx : db.transactions t = some tx)
    (trimmed : List Nat) :
    Database.WellFormed
      { db.setTransaction t none with
        table := publish db.table tx.rows trimmed
        history := db.history ++ tx.rows } := by
  have hold := h.transaction t tx htx
  have hclosed : ∀ t' tx',
      (db.setTransaction t none).transactions t' = some tx' →
        t' ≠ t ∧ db.transactions t' = some tx' := by
    intro t' tx' htx'
    rw [setTransaction_transactions] at htx'
    split at htx'
    · cases htx'
    · exact ⟨by assumption, htx'⟩
  constructor
  · exact publish_ascending h.ascending hold.ascending fun a ha r hr =>
      hold.fresh r hr a (h.table_history a ha)
  · intro r hr
    rcases (mem_publish.mp hr).1 with hr | hr
    · exact List.mem_append_left _ (h.table_history r hr)
    · exact List.mem_append_right _ hr
  · intro r hr
    rcases List.mem_append.mp hr with hr | hr
    · exact h.history_le r hr
    · exact hold.le r hr
  · intro a ha b hb heq
    rcases List.mem_append.mp ha with ha | ha <;>
      rcases List.mem_append.mp hb with hb | hb
    · exact h.history_inj a ha b hb heq
    · exact absurd heq (hold.fresh b hb a ha)
    · exact absurd heq.symm (hold.fresh a ha b hb)
    · exact hold.ascending.eq_of_rev_eq ha hb heq
  · intro r hr
    rcases List.mem_append.mp hr with hr | hr
    · exact h.history_recorded r hr
    · exact hold.recorded r hr
  · intro t' tx' htx'
    obtain ⟨hne, htx'⟩ := hclosed t' tx' htx'
    obtain ⟨hop, hrec, hasc, hle, hfresh⟩ := h.transaction t' tx' htx'
    refine ⟨hop, hrec, hasc, hle, ?_⟩
    intro r hr c hc
    rcases List.mem_append.mp hc with hc | hc
    · exact hfresh r hr c hc
    · exact (h.disjoint t' t tx' tx hne htx' htx r hr c hc).symm
  · intro t₁ t₂ tx₁ tx₂ hne htx₁ htx₂
    exact h.disjoint t₁ t₂ tx₁ tx₂ hne (hclosed t₁ tx₁ htx₁).2
      (hclosed t₂ tx₂ htx₂).2

theorem step_wellFormed {retention : Nat} {db db' : Database} {w : Write}
    (h : db.WellFormed) (hstep : db.step retention w = some db') :
    db'.WellFormed := by
  cases w with
  | begin t collection keys operation now =>
      rw [step_begin hstep]
      refine h.update t _ ?_ ?_
      · rintro tx ⟨⟩
        exact ⟨⟨operation, rfl⟩, by simp, by simp [Ascending], by simp, by simp⟩
      · rintro tx ⟨⟩
        simp
  | insert t =>
      obtain ⟨tx, key, todo, htx, -, rfl⟩ := step_insert hstep
      exact insert_wellFormed h htx key todo
  | trim t =>
      obtain ⟨tx, htx, rfl⟩ := step_trim hstep
      obtain ⟨hop, hrec, hasc, hle, hfresh⟩ := h.transaction t tx htx
      refine h.update t _ ?_ ?_
      · rintro tx' ⟨⟩
        exact ⟨hop, hrec, hasc, hle, hfresh⟩
      · rintro tx' ⟨⟩ t' tx'' hne htx''
        exact h.disjoint t t' tx tx'' hne.symm htx htx''
  | commit t =>
      obtain ⟨tx, trimmed, htx, -, rfl⟩ := step_commit hstep
      exact commit_wellFormed h htx trimmed
  | rollback t =>
      rw [step_rollback hstep]
      exact h.update t none (by simp) (by simp)

end OpenKeyV.Postgres
