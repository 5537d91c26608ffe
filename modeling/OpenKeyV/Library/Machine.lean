import Mathlib.Data.List.Basic
import Mathlib.Data.Option.Basic

/-!
# Runs of labelled machines

A machine is a partial step function over labels: `step s a = none` means that
label `a` is not enabled in state `s`.  `run` executes a list of labels, and
`Along` says that every step a run takes meets a condition on its state and
label.  The rules below turn one-step facts into facts about whole runs.
-/

namespace OpenKeyV.Library

universe u v

variable {σ : Type u} {α : Type v} {step : σ → α → Option σ}

def run (step : σ → α → Option σ) : σ → List α → Option σ
  | s, [] => some s
  | s, a :: as => (step s a).bind fun s' => run step s' as

/-- Every step that the labels take from `s` is taken in a state and with a
label that satisfy `cond`. -/
def Along (step : σ → α → Option σ) (cond : σ → α → Prop) :
    σ → List α → Prop
  | _, [] => True
  | s, a :: as =>
      cond s a ∧ ∀ s', step s a = some s' → Along step cond s' as

def Reachable (step : σ → α → Option σ) (start s : σ) : Prop :=
  ∃ labels, run step start labels = some s

@[simp] theorem run_nil (s : σ) : run step s [] = some s := rfl

@[simp] theorem along_nil (cond : σ → α → Prop) (s : σ) :
    Along step cond s [] := trivial

instance Along.decidable {cond : σ → α → Prop}
    [∀ s a, Decidable (cond s a)] :
    ∀ s as, Decidable (Along step cond s as)
  | _, [] => isTrue trivial
  | s, a :: as =>
      match h : step s a with
      | none => decidable_of_iff (cond s a) (by simp [Along, h])
      | some s' =>
          have : Decidable (Along step cond s' as) := Along.decidable s' as
          decidable_of_iff (cond s a ∧ Along step cond s' as)
            (by simp [Along, h])

theorem run_cons_eq_some {s t : σ} {a : α} {as : List α} :
    run step s (a :: as) = some t ↔
      ∃ s', step s a = some s' ∧ run step s' as = some t := by
  simp [run, Option.bind_eq_some_iff]

theorem run_append_eq_some {s t : σ} {as bs : List α} :
    run step s (as ++ bs) = some t ↔
      ∃ s', run step s as = some s' ∧ run step s' bs = some t := by
  induction as generalizing s with
  | nil => simp
  | cons a as ih =>
      simp only [List.cons_append, run_cons_eq_some, ih]
      constructor
      · rintro ⟨x, hx, y, hy, ht⟩
        exact ⟨y, ⟨x, hx, hy⟩, ht⟩
      · rintro ⟨y, ⟨x, hx, hy⟩, ht⟩
        exact ⟨x, hx, y, hy, ht⟩

theorem along_append {cond : σ → α → Prop} {s : σ} {as bs : List α} :
    Along step cond s (as ++ bs) ↔
      Along step cond s as ∧
        ∀ s', run step s as = some s' → Along step cond s' bs := by
  induction as generalizing s with
  | nil => simp
  | cons a as ih =>
      simp only [List.cons_append, Along, run_cons_eq_some, ih]
      constructor
      · rintro ⟨hcond, hrest⟩
        refine ⟨⟨hcond, fun s' hs' => (hrest s' hs').1⟩, ?_⟩
        rintro s'' ⟨s', hs', hrun⟩
        exact (hrest s' hs').2 s'' hrun
      · rintro ⟨⟨hcond, hfirst⟩, hsecond⟩
        exact ⟨hcond, fun s' hs' =>
          ⟨hfirst s' hs', fun s'' hrun => hsecond s'' ⟨s', hs', hrun⟩⟩⟩

theorem run_map {β : Type*} (f : β → α) (s : σ) (bs : List β) :
    run step s (bs.map f) = run (fun s b => step s (f b)) s bs := by
  induction bs generalizing s with
  | nil => rfl
  | cons b bs ih =>
      simp only [List.map_cons, run]
      exact Option.bind_congr fun s' _ => ih s'

theorem Along.at_step {cond : σ → α → Prop} {s x : σ} {as bs : List α}
    {a : α} (h : Along step cond s (as ++ a :: bs))
    (hrun : run step s as = some x) : cond x a :=
  ((along_append.mp h).2 x hrun).1

theorem along_of_at_step {cond : σ → α → Prop} {s : σ} {labels : List α}
    (h : ∀ as a bs x, labels = as ++ a :: bs → run step s as = some x →
      cond x a) : Along step cond s labels := by
  induction labels generalizing s with
  | nil => trivial
  | cons b labels ih =>
      refine ⟨h [] b labels s rfl rfl, fun s' hs' => ih ?_⟩
      rintro as a bs x rfl hrun
      exact h (b :: as) a bs x rfl (run_cons_eq_some.mpr ⟨s', hs', hrun⟩)

theorem Along.mono {cond cond' : σ → α → Prop} {s : σ} {as : List α}
    (himp : ∀ s a, cond s a → cond' s a) (h : Along step cond s as) :
    Along step cond' s as := by
  induction as generalizing s with
  | nil => trivial
  | cons a as ih => exact ⟨himp s a h.1, fun s' hs' => ih (h.2 s' hs')⟩

theorem Along.and {cond cond' : σ → α → Prop} {s : σ} {as : List α}
    (h : Along step cond s as) (h' : Along step cond' s as) :
    Along step (fun s a => cond s a ∧ cond' s a) s as := by
  induction as generalizing s with
  | nil => trivial
  | cons a as ih =>
      exact ⟨⟨h.1, h'.1⟩, fun s' hs' => ih (h.2 s' hs') (h'.2 s' hs')⟩

/-- An invariant that every step under `cond` preserves holds at the end of
every run whose steps meet `cond`. -/
theorem run_invariant {P : σ → Prop} {cond : σ → α → Prop}
    (hstep : ∀ s a s', P s → cond s a → step s a = some s' → P s')
    {s t : σ} {as : List α} (hs : P s) (hcond : Along step cond s as)
    (hrun : run step s as = some t) : P t := by
  induction as generalizing s with
  | nil =>
      cases hrun
      exact hs
  | cons a as ih =>
      obtain ⟨s', hs', hrest⟩ := run_cons_eq_some.mp hrun
      exact ih (hstep s a s' hs hcond.1 hs') (hcond.2 s' hs') hrest

theorem along_of_invariant {P : σ → Prop} {cond prop : σ → α → Prop}
    (hstep : ∀ s a s', P s → cond s a → step s a = some s' → P s')
    (hprop : ∀ s a, P s → cond s a → prop s a)
    {s : σ} {as : List α} (hs : P s) (hcond : Along step cond s as) :
    Along step prop s as := by
  induction as generalizing s with
  | nil => trivial
  | cons a as ih =>
      refine ⟨hprop s a hs hcond.1, fun s' hs' => ?_⟩
      exact ih (hstep s a s' hs hcond.1 hs') (hcond.2 s' hs')

/-- Where a condition decides whether a step keeps the invariant, the states
of a run keep it exactly if the steps meet the condition. -/
theorem along_keeps_iff {P : σ → Prop} {cond : σ → α → Prop}
    (hstep : ∀ s a, P s →
      ((∀ s', step s a = some s' → P s') ↔ cond s a))
    {s : σ} {as : List α} (hs : P s) :
    Along step (fun s a => ∀ s', step s a = some s' → P s') s as ↔
      Along step cond s as := by
  induction as generalizing s with
  | nil => exact Iff.rfl
  | cons a as ih =>
      rw [Along, Along, hstep s a hs]
      refine and_congr_right fun hcond => ?_
      exact forall₂_congr fun s' hs' => ih ((hstep s a hs).mpr hcond s' hs')

theorem along_congr {P : σ → Prop} {valid : α → Prop}
    {prop prop' : σ → α → Prop}
    (hstep : ∀ s a s', P s → valid a → step s a = some s' → P s')
    (hprop : ∀ s a, P s → valid a → (prop s a ↔ prop' s a))
    {s : σ} {as : List α} (hs : P s) (hvalid : ∀ a ∈ as, valid a) :
    Along step prop s as ↔ Along step prop' s as := by
  induction as generalizing s with
  | nil => exact Iff.rfl
  | cons a as ih =>
      have ha : valid a := hvalid a (List.mem_cons_self ..)
      rw [Along, Along, hprop s a hs ha]
      refine and_congr_right fun _ => forall₂_congr fun s' hs' => ?_
      exact ih (hstep s a s' hs ha hs') fun b hb =>
        hvalid b (List.mem_cons_of_mem _ hb)

theorem run_congr {step' : σ → α → Option σ} {s : σ} {as : List α}
    (h : Along step (fun s a => step s a = step' s a) s as) :
    run step s as = run step' s as := by
  induction as generalizing s with
  | nil => rfl
  | cons a as ih =>
      rw [run, run, ← h.1]
      exact Option.bind_congr fun s' hs' => ih (h.2 s' hs')

theorem along_of_labels {cond : α → Prop} (s : σ) {as : List α}
    (h : ∀ a ∈ as, cond a) : Along step (fun _ a => cond a) s as := by
  induction as generalizing s with
  | nil => trivial
  | cons a as ih =>
      exact ⟨h a (List.mem_cons_self ..), fun s' _ =>
        ih s' fun b hb => h b (List.mem_cons_of_mem _ hb)⟩

theorem along_true (s : σ) (as : List α) :
    Along step (fun _ _ => True) s as := by
  induction as generalizing s with
  | nil => trivial
  | cons a as ih => exact ⟨trivial, fun s' _ => ih s'⟩

/-- Where each step short of the goal can be one that brings a measure down,
some run ends at the goal. -/
theorem exists_run_to (P goal : σ → Prop) (measure : σ → Nat)
    (hstep : ∀ s, P s → ¬ goal s →
      ∃ a s', step s a = some s' ∧ P s' ∧ measure s' < measure s)
    (s : σ) (hs : P s) : ∃ as t, run step s as = some t ∧ P t ∧ goal t := by
  induction hn : measure s using Nat.strongRecOn generalizing s with
  | ind n ih =>
      by_cases hgoal : goal s
      · exact ⟨[], s, rfl, hs, hgoal⟩
      · obtain ⟨a, s', hs', hkept, hless⟩ := hstep s hs hgoal
        obtain ⟨as, t, hrun, hend⟩ := ih _ (hn ▸ hless) s' hkept rfl
        exact ⟨a :: as, t, run_cons_eq_some.mpr ⟨s', hs', hrun⟩, hend⟩

/-- An unconditional invariant holds in every reachable state. -/
theorem reachable_invariant {P : σ → Prop}
    (hstep : ∀ s a s', P s → step s a = some s' → P s')
    {s t : σ} (hs : P s) (hreach : Reachable step s t) : P t := by
  obtain ⟨as, hrun⟩ := hreach
  have htrue : Along step (fun _ _ => True) s as := along_true s as
  exact run_invariant (fun s a s' hs _ hstep' => hstep s a s' hs hstep') hs
    htrue hrun

theorem Reachable.refl (s : σ) : Reachable step s s := ⟨[], rfl⟩

end OpenKeyV.Library
