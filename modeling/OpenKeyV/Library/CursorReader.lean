import Mathlib.Data.List.Basic
import Mathlib.Data.List.Pairwise

/-!
# Reading a sorted log through a cursor

Rows are kept in strictly increasing order of a number `rev`.  A reader holds
the number of the last row it has passed, fetches the first `limit` rows
above it, and moves through them until one is wanted.  `scan_spec` says what
such a pass leaves behind: no wanted row below the new cursor was passed over.
-/

namespace OpenKeyV.Library

universe u

variable {ρ : Type u} (rev : ρ → Nat)

def Ascending (rows : List ρ) : Prop :=
  rows.Pairwise fun a b => rev a < rev b

def ahead (cursor : Nat) (rows : List ρ) : List ρ :=
  rows.filter fun r => decide (cursor < rev r)

/-- Rows of one page, and the cursor it moves to: up to the first wanted row,
or past the whole page. -/
def scan (wanted : ρ → Bool) : Nat → List ρ → Nat × Option ρ
  | cursor, [] => (cursor, none)
  | _, r :: rows =>
      if wanted r then (rev r, some r) else scan wanted (rev r) rows

def examined (wanted : ρ → Bool) : List ρ → List ρ
  | [] => []
  | r :: rows => r :: if wanted r then [] else examined wanted rows

def window (lo hi : Nat) (rows : List ρ) : List ρ :=
  rows.filter fun r => decide (lo < rev r ∧ rev r ≤ hi)

def insertRow (r : ρ) : List ρ → List ρ
  | [] => [r]
  | a :: rows => if rev r < rev a then r :: a :: rows else a :: insertRow r rows

variable {rev}

@[simp] theorem mem_ahead {cursor : Nat} {rows : List ρ} {r : ρ} :
    r ∈ ahead rev cursor rows ↔ r ∈ rows ∧ cursor < rev r := by
  simp [ahead]

theorem ahead_ascending {cursor : Nat} {rows : List ρ}
    (h : Ascending rev rows) : Ascending rev (ahead rev cursor rows) :=
  h.filter _

theorem ahead_append (cursor : Nat) (rows rows' : List ρ) :
    ahead rev cursor (rows ++ rows') =
      ahead rev cursor rows ++ ahead rev cursor rows' :=
  List.filter_append ..

theorem ahead_eq_nil {cursor : Nat} {rows : List ρ}
    (h : ∀ r ∈ rows, rev r ≤ cursor) : ahead rev cursor rows = [] := by
  refine List.filter_eq_nil_iff.mpr fun r hr => ?_
  simpa using h r hr

theorem ahead_eq_self {cursor : Nat} {rows : List ρ}
    (h : ∀ r ∈ rows, cursor < rev r) : ahead rev cursor rows = rows := by
  refine List.filter_eq_self.mpr fun r hr => ?_
  simpa using h r hr

@[simp] theorem mem_window {lo hi : Nat} {rows : List ρ} {r : ρ} :
    r ∈ window rev lo hi rows ↔ r ∈ rows ∧ lo < rev r ∧ rev r ≤ hi := by
  simp [window]

theorem window_cons (lo hi : Nat) (r : ρ) (rows : List ρ) :
    window rev lo hi (r :: rows) =
      if lo < rev r ∧ rev r ≤ hi then r :: window rev lo hi rows
      else window rev lo hi rows := by
  simp only [window, List.filter_cons, decide_eq_true_eq]

@[simp] theorem window_self (cursor : Nat) (rows : List ρ) :
    window rev cursor cursor rows = [] := by
  refine List.filter_eq_nil_iff.mpr fun r _ => ?_
  simp only [decide_eq_true_eq]
  omega

theorem window_append_above {lo hi : Nat} {rows rows' : List ρ}
    (h : ∀ r ∈ rows', hi < rev r) :
    window rev lo hi (rows ++ rows') = window rev lo hi rows := by
  have hnone : window rev lo hi rows' = [] := by
    refine List.filter_eq_nil_iff.mpr fun r hr => ?_
    have := h r hr
    simp only [decide_eq_true_eq]
    omega
  rw [window, List.filter_append, ← window, ← window, hnone, List.append_nil]

theorem window_split {lo mid hi : Nat} {rows : List ρ}
    (h : Ascending rev rows) (hlo : lo ≤ mid) (hhi : mid ≤ hi) :
    window rev lo hi rows = window rev lo mid rows ++ window rev mid hi rows := by
  induction rows with
  | nil => rfl
  | cons b rows ih =>
      obtain ⟨hb, hrows⟩ := List.pairwise_cons.mp h
      have ih := ih hrows
      by_cases hmid : rev b ≤ mid
      · have hout : ¬ (mid < rev b ∧ rev b ≤ hi) := by omega
        simp only [window_cons, if_neg hout, ih]
        by_cases hin : lo < rev b
        · rw [if_pos ⟨hin, Nat.le_trans hmid hhi⟩, if_pos ⟨hin, hmid⟩]
          rfl
        · rw [if_neg (fun h => hin h.1), if_neg (fun h => hin h.1)]
      · -- everything from here on lies above `mid`
        have hnone : window rev lo mid (b :: rows) = [] := by
          refine List.filter_eq_nil_iff.mpr fun r hr => ?_
          have hle : rev b ≤ rev r := by
            rcases List.mem_cons.mp hr with rfl | hr
            · exact Nat.le_refl _
            · exact Nat.le_of_lt (hb r hr)
          simp only [decide_eq_true_eq]
          omega
        rw [hnone, List.nil_append]
        refine List.filter_congr fun r hr => ?_
        have hle : rev b ≤ rev r := by
          rcases List.mem_cons.mp hr with rfl | hr
          · exact Nat.le_refl _
          · exact Nat.le_of_lt (hb r hr)
        have hiff : (lo < rev r ∧ rev r ≤ hi) ↔ (mid < rev r ∧ rev r ≤ hi) := by
          omega
        simp only [hiff]

@[simp] theorem mem_insertRow {r a : ρ} {rows : List ρ} :
    a ∈ insertRow rev r rows ↔ a = r ∨ a ∈ rows := by
  induction rows with
  | nil => simp [insertRow]
  | cons b rows ih =>
      simp only [insertRow]
      split
      · simp
      · simp only [List.mem_cons, ih]
        tauto

theorem insertRow_ascending {r : ρ} {rows : List ρ}
    (h : Ascending rev rows) (hnew : ∀ a ∈ rows, rev a ≠ rev r) :
    Ascending rev (insertRow rev r rows) := by
  induction rows with
  | nil => simp [insertRow, Ascending]
  | cons b rows ih =>
      obtain ⟨hb, hrows⟩ := List.pairwise_cons.mp h
      simp only [insertRow]
      split
      · rename_i hlt
        refine List.pairwise_cons.mpr ⟨?_, h⟩
        intro a ha
        rcases List.mem_cons.mp ha with rfl | ha
        · exact hlt
        · exact Nat.lt_trans hlt (hb a ha)
      · rename_i hlt
        refine List.pairwise_cons.mpr ⟨?_, ih hrows fun a ha =>
          hnew a (List.mem_cons_of_mem b ha)⟩
        intro a ha
        rcases mem_insertRow.mp ha with rfl | ha
        · have hne := hnew b (by simp)
          omega
        · exact hb a ha

theorem Ascending.eq_of_rev_eq {rows : List ρ} (h : Ascending rev rows)
    {a b : ρ} (ha : a ∈ rows) (hb : b ∈ rows) (heq : rev a = rev b) :
    a = b := by
  have hne : rows.Pairwise fun a b => rev a ≠ rev b :=
    h.imp fun hab => Nat.ne_of_lt hab
  have : Std.Symm fun a b => rev a ≠ rev b := ⟨fun _ _ hab => hab.symm⟩
  by_contra hab
  exact hne.forall ha hb hab heq

private theorem scan_page (wanted : ρ → Bool) {rows : List ρ}
    (h : Ascending rev rows) (cursor : Nat) (hlo : ∀ r ∈ rows, cursor < rev r) :
    cursor ≤ (scan rev wanted cursor rows).1 ∧
      (∀ r ∈ rows, rev r ≤ (scan rev wanted cursor rows).1 →
        (scan rev wanted cursor rows).2 = some r ∨ wanted r = false) ∧
      (∀ r, (scan rev wanted cursor rows).2 = some r →
        r ∈ rows ∧ wanted r = true ∧
          (scan rev wanted cursor rows).1 = rev r) ∧
      ((scan rev wanted cursor rows).1 = cursor ∨
        ∃ r ∈ rows, (scan rev wanted cursor rows).1 = rev r) := by
  induction rows generalizing cursor with
  | nil => simp [scan]
  | cons b rows ih =>
      obtain ⟨hb, hrows⟩ := List.pairwise_cons.mp h
      have hcb := hlo b (by simp)
      cases hw : wanted b with
      | true =>
          simp only [scan, hw, if_true]
          refine ⟨Nat.le_of_lt hcb, ?_, ?_, .inr ⟨b, by simp, rfl⟩⟩
          · intro r hr hle
            rcases List.mem_cons.mp hr with rfl | hr
            · exact .inl rfl
            · exact absurd (hb r hr) (by omega)
          · rintro r hr
            cases hr
            exact ⟨by simp, hw, rfl⟩
      | false =>
          simp only [scan, hw, Bool.false_eq_true, if_false]
          obtain ⟨hle, hpassed, hfound, hcursor⟩ := ih hrows (rev b) hb
          refine ⟨Nat.le_trans (Nat.le_of_lt hcb) hle, ?_, ?_, ?_⟩
          · intro r hr hrle
            rcases List.mem_cons.mp hr with rfl | hr
            · exact .inr hw
            · exact hpassed r hr hrle
          · intro r hr
            obtain ⟨hmem, hr'⟩ := hfound r hr
            exact ⟨List.mem_cons_of_mem b hmem, hr'⟩
          · rcases hcursor with heq | ⟨r, hr, heq⟩
            · exact .inr ⟨b, by simp, heq⟩
            · exact .inr ⟨r, List.mem_cons_of_mem b hr, heq⟩

variable (rev) in
structure ScanSpec (wanted : ρ → Bool) (rows : List ρ) (cursor : Nat)
    (cursor' : Nat) (found : Option ρ) : Prop where
  cursor_le : cursor ≤ cursor'
  passed : ∀ r ∈ rows, cursor < rev r → rev r ≤ cursor' →
    found = some r ∨ wanted r = false
  found_mem : ∀ r, found = some r →
    r ∈ rows ∧ cursor < rev r ∧ wanted r = true ∧ cursor' = rev r
  cursor_mem : cursor' = cursor ∨ ∃ r ∈ rows, cursor' = rev r

theorem scan_spec (wanted : ρ → Bool) {rows : List ρ}
    (h : Ascending rev rows) (cursor limit : Nat) :
    ScanSpec rev wanted rows cursor
      (scan rev wanted cursor ((ahead rev cursor rows).take limit)).1
      (scan rev wanted cursor ((ahead rev cursor rows).take limit)).2 := by
  have hasc : Ascending rev (ahead rev cursor rows) := ahead_ascending h
  have hpage : Ascending rev ((ahead rev cursor rows).take limit) :=
    hasc.sublist (List.take_sublist limit _)
  have hlo : ∀ r ∈ (ahead rev cursor rows).take limit, cursor < rev r :=
    fun r hr => (mem_ahead.mp (List.mem_of_mem_take hr)).2
  obtain ⟨hle, hpassed, hfound, hcursor⟩ :=
    scan_page wanted hpage cursor hlo
  refine ⟨hle, ?_, ?_, ?_⟩
  · intro r hr hlt hrle
    refine hpassed r ?_ hrle
    -- a row below the new cursor cannot lie behind the page
    by_contra hout
    have hmem : r ∈ ahead rev cursor rows := mem_ahead.mpr ⟨hr, hlt⟩
    rw [← List.take_append_drop limit (ahead rev cursor rows),
      List.mem_append] at hmem
    have hdrop := hmem.resolve_left hout
    have hsplit : ∀ a ∈ (ahead rev cursor rows).take limit,
        ∀ b ∈ (ahead rev cursor rows).drop limit, rev a < rev b := by
      have := (List.take_append_drop limit (ahead rev cursor rows)).symm ▸ hasc
      exact (List.pairwise_append.mp this).2.2
    rcases hcursor with heq | ⟨a, ha, heq⟩
    · omega
    · have := hsplit a ha r hdrop
      omega
  · intro r hr
    obtain ⟨hmem, hw, heq⟩ := hfound r hr
    have hrow := mem_ahead.mp (List.mem_of_mem_take hmem)
    exact ⟨hrow.1, hrow.2, hw, heq⟩
  · rcases hcursor with heq | ⟨r, hr, heq⟩
    · exact .inl heq
    · exact .inr ⟨r, (mem_ahead.mp (List.mem_of_mem_take hr)).1, heq⟩

/-- Of the rows that a pass leaves behind it, just the found one is wanted. -/
theorem ScanSpec.window_filter {wanted : ρ → Bool} {rows : List ρ}
    {cursor cursor' : Nat} {found : Option ρ} (hasc : Ascending rev rows)
    (h : ScanSpec rev wanted rows cursor cursor' found) :
    (window rev cursor cursor' rows).filter wanted = found.toList := by
  have hmem : ∀ r ∈ (window rev cursor cursor' rows).filter wanted,
      found = some r := by
    intro r hr
    obtain ⟨hr, hw⟩ := List.mem_filter.mp hr
    obtain ⟨hmem, hlo, hhi⟩ := mem_window.mp hr
    refine (h.passed r hmem hlo hhi).resolve_right fun hunwanted => ?_
    rw [hunwanted] at hw
    cases hw
  have hsub : Ascending rev ((window rev cursor cursor' rows).filter wanted) :=
    (hasc.filter _).filter _
  cases found with
  | none =>
      refine List.eq_nil_iff_forall_not_mem.mpr fun r hr => ?_
      cases hmem r hr
  | some r =>
      obtain ⟨hr, hlo, hw, rfl⟩ := h.found_mem r rfl
      have hin : r ∈ (window rev cursor (rev r) rows).filter wanted :=
        List.mem_filter.mpr ⟨mem_window.mpr ⟨hr, hlo, Nat.le_refl _⟩, hw⟩
      generalize (window rev cursor (rev r) rows).filter wanted = passed
        at hmem hsub hin
      match passed, hsub with
      | [], _ => cases hin
      | [a], _ => rw [Option.some.inj (hmem a (by simp)), Option.toList]
      | a :: b :: _, hsub =>
          have hlt := (List.pairwise_cons.mp hsub).1 b (by simp)
          have ha := Option.some.inj (hmem a (by simp))
          have hb := Option.some.inj (hmem b (by simp))
          rw [← ha, ← hb] at hlt
          omega

end OpenKeyV.Library
