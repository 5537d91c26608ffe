import Mathlib.Order.Basic
import OpenKeyV.Library.Interaction

/-!
# Guarded deletions

Tasks read a clock, judge by it what they have found, and delete by a guard:
a deletion removes a cell only if the guard is that of the cell.  Whether a
cell is dead is a matter of its guard and the time, and the dead stay dead.
Then no deletion removes a cell that is alive, however the tasks interleave.
-/

namespace OpenKeyV.Library

open Interaction

structure Guarded {ι : Type} (ρ : ι → Type) (σ γ τ : Type) [Preorder τ] where
  clock : σ → τ
  reading : (a : ι) → ρ a → Option τ
  condemns : ι → List γ
  dead : γ → τ → Prop
  lasting : ∀ {g t t'}, t ≤ t' → dead g t → dead g t'

namespace Guarded

variable {ι σ γ τ κ α χ ω : Type} {ρ : ι → Type} [Preorder τ]
  (G : Guarded ρ σ γ τ)

def learn (seen : List τ) (a : ι) (answer : ρ a) : List τ :=
  (G.reading a answer).toList ++ seen

def may (seen : List τ) (a : ι) : Prop :=
  ∀ g ∈ G.condemns a, ∃ t ∈ seen, G.dead g t

def Judges (seen : List τ) (tree : Interaction ρ α) : Prop :=
  Respects G.learn G.may (fun _ _ => True) seen tree

section Calls

variable {G} {ε β : Type}

/-- The call deletes nothing that it has not found dead, and returns with what
`post` says of its readings by then, the earlier ones among them. -/
def Does (G : Guarded ρ σ γ τ) (seen : List τ) (call : Calls ε ρ α)
    (post : List τ → α → Prop) : Prop :=
  Meets G.learn G.may (fun _ _ => True) seen call fun seen' a =>
    seen ⊆ seen' ∧ post seen' a

def Harmless (G : Guarded ρ σ γ τ) (call : Calls ε ρ α) : Prop :=
  ∀ seen, G.Does seen call fun _ _ => True

variable {seen : List τ} {call : Calls ε ρ α} {post : List τ → α → Prop}

theorem Does.mono {post' : List τ → α → Prop} (h : G.Does seen call post)
    (himp : ∀ seen' a, seen ⊆ seen' → post seen' a → post' seen' a) :
    G.Does seen call post' :=
  Meets.mono (fun seen' a ha => ⟨ha.1, himp seen' a ha.1 ha.2⟩) h

theorem does_pure {a : α} (h : post seen a) :
    G.Does seen (pure a : Calls ε ρ α) post :=
  meets_pure ⟨List.Subset.refl _, h⟩

theorem does_attempt {r : Except ε α} (h : ∀ a, r = .ok a → post seen a) :
    G.Does seen (attempt r : Calls ε ρ α) post :=
  meets_attempt (fun a ha => ⟨List.Subset.refl _, h a ha⟩)
    fun _ _ => trivial

theorem Does.bind {post : List τ → α → Prop} {post' : List τ → β → Prop}
    {f : α → Calls ε ρ β} (h : G.Does seen call post)
    (hf : ∀ seen' a, seen ⊆ seen' → post seen' a → G.Does seen' (f a) post') :
    G.Does seen (call >>= f) post' := by
  refine Meets.bind h fun seen' a ha => ?_
  exact Meets.mono (fun seen'' b hb => ⟨List.Subset.trans ha.1 hb.1, hb.2⟩)
    (hf seen' a ha.1 ha.2)

theorem does_access {a : ι} {post : List τ → ρ a → Prop}
    (hmay : G.may seen a)
    (h : ∀ answer, post (G.learn seen a answer) answer) :
    G.Does seen (access a : Calls ε ρ (ρ a)) post :=
  meets_access hmay fun answer =>
    ⟨List.subset_append_right _ _, h answer⟩

theorem does_attempt_bind {r : Except ε α} {f : α → Calls ε ρ β}
    {post : List τ → β → Prop}
    (h : ∀ a, r = .ok a → G.Does seen (f a) post) :
    G.Does seen (attempt r >>= f) post := by
  cases r with
  | ok a => exact h a rfl
  | error e => exact trivial

theorem does_access_bind {a : ι} {f : ρ a → Calls ε ρ β}
    {post : List τ → β → Prop} (hmay : G.may seen a)
    (h : ∀ answer, G.Does (G.learn seen a answer) (f answer) post) :
    G.Does seen (access a >>= f) post :=
  meets_access_bind hmay fun answer => Meets.mono
    (fun _ _ hb => ⟨List.Subset.trans (List.subset_append_right _ _) hb.1,
      hb.2⟩)
    (h answer)

theorem may_of_nil {a : ι} (h : G.condemns a = []) : G.may seen a := by
  intro g hg
  rw [h] at hg
  cases hg

theorem harmless_pure (a : α) : G.Harmless (pure a : Calls ε ρ α) :=
  fun _ => does_pure trivial

theorem harmless_attempt (r : Except ε α) :
    G.Harmless (attempt r : Calls ε ρ α) :=
  fun _ => does_attempt fun _ _ => trivial

theorem harmless_access {a : ι} (h : G.condemns a = []) :
    G.Harmless (access a : Calls ε ρ (ρ a)) :=
  fun _ => does_access (may_of_nil h) fun _ => trivial

theorem Harmless.bind {f : α → Calls ε ρ β} (h : G.Harmless call)
    (hf : ∀ a, G.Harmless (f a)) : G.Harmless (call >>= f) :=
  fun seen => (h seen).bind fun seen' a _ _ => hf a seen'

theorem Harmless.judges {g : Except ε α → β} (h : G.Harmless call) :
    G.Judges [] (g <$> call.run) := by
  refine respects_map.mpr (Respects.mono ?_ (h []))
  exact fun _ _ _ => trivial

end Calls

def past (_ : Nat) (seen : List τ) (s : σ) : Prop := ∀ t ∈ seen, t ≤ G.clock s

/-- The clock does not go back, and a reading is not ahead of it. -/
structure Timed (handle : Nat → χ → (a : ι) → σ → Option (ρ a × σ))
    (happen : ω → σ → Option σ) : Prop where
  forward : ∀ {task choice a s answer s'},
    handle task choice a s = some (answer, s') → G.clock s ≤ G.clock s'
  truthful : ∀ {task choice a s answer s' t},
    handle task choice a s = some (answer, s') →
      G.reading a answer = some t → t ≤ G.clock s'
  outside : ∀ {event s s'}, happen event s = some s' → G.clock s ≤ G.clock s'

section Runs

variable {G} {program : κ → Interaction ρ α}
  {handle : Nat → χ → (a : ι) → σ → Option (ρ a × σ)}
  {happen : ω → σ → Option σ} {pool pool' : Pool σ κ ρ α}
  {labels : List (Pool.Label κ χ ω)}

abbrev Sober (G : Guarded ρ σ γ τ) (pool : Pool σ κ ρ α) : Prop :=
  Pool.Good G.learn G.may (fun _ _ _ => True) [] (fun _ => True) G.past pool

theorem sober_idle (s : σ) : Sober G (Pool.idle s : Pool σ κ ρ α) :=
  Pool.good_idle trivial fun _ _ h => absurd h List.not_mem_nil

theorem sober_run (hprogram : ∀ call, G.Judges [] (program call))
    (htimed : G.Timed handle happen) (h : Sober G pool)
    (hrun : run (Pool.step program handle happen) pool labels = some pool') :
    Sober G pool' := by
  refine @Pool.Good.run _ _ _ _ _ _ _ _ _ _ _ _ _ _ _ _ _ (fun _ _ _ => True)
    _ _ hprogram ?_ ?_ _ h ?_ hrun
  · intro task choice access s answer s' seen _ hpast _ _ hhandle
    have hforward := htimed.forward hhandle
    refine ⟨trivial, ?_, fun other m _ hm t ht => (hm t ht).trans hforward⟩
    intro t ht
    rcases List.mem_append.mp ht with hread | hseen
    · exact htimed.truthful hhandle (Option.mem_toList.mp hread)
    · exact (hpast t hseen).trans hforward
  · intro event s s' _ hhappen
    exact ⟨trivial, fun task seen hpast t ht =>
      (hpast t ht).trans (htimed.outside hhappen)⟩
  · exact along_of_at_step fun _ _ _ _ _ _ _ _ _ _ _ => trivial

theorem dead_of_condemned (h : Sober G pool) {task : Nat} {access : ι}
    (hnext : pool.next task = some access) {g : γ}
    (hcondemned : g ∈ G.condemns access) :
    G.dead g (G.clock pool.shared) := by
  cases htask : pool.tasks task with
  | none => simp [Pool.next, htask] at hnext
  | some entry =>
      obtain ⟨call, tree⟩ := entry
      cases tree with
      | done result => simp [Pool.next, htask] at hnext
      | request a next =>
          simp only [Pool.next, htask, Option.some.injEq] at hnext
          subst hnext
          obtain ⟨seen, hpast, hmay, -⟩ := h.tasks task call _ htask
          obtain ⟨t, ht, hdead⟩ := hmay g hcondemned
          exact G.lasting (hpast t ht) hdead

theorem clock_step (htimed : G.Timed handle happen)
    {label : Pool.Label κ χ ω}
    (hstep : Pool.step program handle happen pool label = some pool') :
    G.clock pool.shared ≤ G.clock pool'.shared := by
  cases label with
  | start task call =>
      obtain ⟨-, rfl⟩ := Pool.step_start hstep
      exact le_refl _
  | advance task choice =>
      obtain ⟨_, _, _, _, s, -, hhandle, rfl⟩ := Pool.step_advance hstep
      exact htimed.forward hhandle
  | outside event =>
      obtain ⟨s, hhappen, rfl⟩ := Pool.step_outside hstep
      exact htimed.outside hhappen

theorem clock_run (htimed : G.Timed handle happen)
    (hrun : run (Pool.step program handle happen) pool labels = some pool') :
    G.clock pool.shared ≤ G.clock pool'.shared := by
  induction labels generalizing pool with
  | nil =>
      cases hrun
      exact le_refl _
  | cons label labels ih =>
      obtain ⟨next, hstep, hrest⟩ := run_cons_eq_some.mp hrun
      exact (clock_step htimed hstep).trans (ih hrest)

end Runs

variable {A R : Type}

/-- An access leaves a cell that it is not made on, unless it deletes the cell
by its guard. -/
structure Cells (cell : σ → A → Option R) (guard : A → R → γ)
    (touches : ι → A → Prop)
    (handle : Nat → χ → (a : ι) → σ → Option (ρ a × σ))
    (happen : ω → σ → Option σ) : Prop where
  handled : ∀ {task choice a s answer s' address r},
    handle task choice a s = some (answer, s') → ¬ touches a address →
      cell s address = some r →
        cell s' address = some r ∨ guard address r ∈ G.condemns a
  outside : ∀ {event s s' address}, happen event s = some s' →
    cell s' address = cell s address

def Spares (touches : ι → A → Prop) (address : A) (pool : Pool σ κ ρ α)
    (label : Pool.Label κ χ ω) : Prop :=
  ∀ task choice access, label = .advance task choice →
    pool.next task = some access → ¬ touches access address

section Runs

variable {G} {program : κ → Interaction ρ α}
  {handle : Nat → χ → (a : ι) → σ → Option (ρ a × σ)}
  {happen : ω → σ → Option σ} {pool pool' : Pool σ κ ρ α}
  {labels : List (Pool.Label κ χ ω)} {cell : σ → A → Option R}
  {guard : A → R → γ} {touches : ι → A → Prop} {address : A} {r : R}

theorem cell_step (hcells : G.Cells cell guard touches handle happen)
    (h : Sober G pool) {label : Pool.Label κ χ ω}
    (hspares : Spares touches address pool label)
    (hstep : Pool.step program handle happen pool label = some pool')
    (hcell : cell pool.shared address = some r) :
    cell pool'.shared address = some r ∨
      G.dead (guard address r) (G.clock pool.shared) := by
  cases label with
  | start task call =>
      obtain ⟨-, rfl⟩ := Pool.step_start hstep
      exact .inl hcell
  | advance task choice =>
      obtain ⟨call, access, next, answer, s, htask, hhandle, rfl⟩ :=
        Pool.step_advance hstep
      have hnext : pool.next task = some access := by
        rw [Pool.next, htask]
      rcases hcells.handled hhandle (hspares task choice access rfl hnext)
        hcell with hkept | hcondemned
      · exact .inl hkept
      · exact .inr (dead_of_condemned h hnext hcondemned)
  | outside event =>
      obtain ⟨s, hhappen, rfl⟩ := Pool.step_outside hstep
      exact .inl ((hcells.outside hhappen).trans hcell)

/-- A cell that nothing else is made on is kept as long as it is alive. -/
theorem cell_kept (hprogram : ∀ call, G.Judges [] (program call))
    (htimed : G.Timed handle happen)
    (hcells : G.Cells cell guard touches handle happen) (h : Sober G pool)
    (hspares : Along (Pool.step program handle happen)
      (Spares touches address) pool labels)
    (hrun : run (Pool.step program handle happen) pool labels = some pool')
    (hcell : cell pool.shared address = some r)
    (halive : ¬ G.dead (guard address r) (G.clock pool'.shared)) :
    cell pool'.shared address = some r := by
  induction labels generalizing pool with
  | nil =>
      cases hrun
      exact hcell
  | cons label labels ih =>
      obtain ⟨next, hstep, hrest⟩ := run_cons_eq_some.mp hrun
      have hone : run (Pool.step program handle happen) pool [label] =
          some next := run_cons_eq_some.mpr ⟨next, hstep, rfl⟩
      have hsober : Sober G next := sober_run hprogram htimed h hone
      rcases cell_step hcells h hspares.1 hstep hcell with hkept | hdead
      · exact ih hsober (hspares.2 next hstep) hrest hkept
      · refine absurd (G.lasting ?_ hdead) halive
        exact (clock_step htimed hstep).trans (clock_run htimed hrest)

end Runs

end Guarded

end OpenKeyV.Library
