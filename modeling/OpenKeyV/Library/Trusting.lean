import OpenKeyV.Library.Interaction

/-!
# Calls that rely on their answers

What a call does while every answer is a sound one.  Where the shared state
has an invariant that makes answers sound, and that the accesses of the calls
keep, each of any number of calls can rely on it.
-/

namespace OpenKeyV.Library

namespace Interaction

variable {ι : Type} {ρ : ι → Type} {α β ε : Type}

/-- As long as the answers are sound, each access is one that may be made,
and the result is one that `post` allows. -/
def Trusts (may : ι → Prop) (sound : (a : ι) → ρ a → Prop)
    (post : α → Prop) : Interaction ρ α → Prop
  | .done a => post a
  | .request access next => may access ∧
      ∀ answer, sound access answer → Trusts may sound post (next answer)

variable {may : ι → Prop} {sound : (a : ι) → ρ a → Prop}

theorem trusts_bind {post : β → Prop} {tree : Interaction ρ α}
    {f : α → Interaction ρ β} :
    Trusts may sound post (tree.bind f) ↔
      Trusts may sound (fun a => Trusts may sound post (f a)) tree := by
  induction tree with
  | done a => exact Iff.rfl
  | request access next ih =>
      exact and_congr_right fun _ => forall₂_congr fun answer _ => ih answer

theorem Trusts.mono {post post' : α → Prop} {tree : Interaction ρ α}
    (himp : ∀ a, post a → post' a) (h : Trusts may sound post tree) :
    Trusts may sound post' tree := by
  induction tree with
  | done a => exact himp a h
  | request access next ih =>
      exact ⟨h.1, fun answer hsound => ih answer (h.2 answer hsound)⟩

def Behaves (may : ι → Prop) (sound : (a : ι) → ρ a → Prop)
    (fail : ε → Prop) (call : Calls ε ρ α) (post : α → Prop) : Prop :=
  Trusts may sound (fun r => match r with
    | .ok a => post a
    | .error e => fail e) call.run

variable {fail : ε → Prop} {post : α → Prop}

theorem behaves_pure {a : α} (h : post a) :
    Behaves may sound fail (pure a : Calls ε ρ α) post :=
  h

theorem behaves_attempt {r : Except ε α} (hok : ∀ a, r = .ok a → post a)
    (herror : ∀ e, r = .error e → fail e) :
    Behaves may sound fail (attempt r : Calls ε ρ α) post := by
  cases r with
  | ok a => exact hok a rfl
  | error e => exact herror e rfl

theorem behaves_access {a : ι} (h : may a) :
    Behaves may sound fail (access a : Calls ε ρ (ρ a)) (sound a) :=
  ⟨h, fun _ hsound => hsound⟩

theorem Behaves.bind {post' : β → Prop} {call : Calls ε ρ α}
    {f : α → Calls ε ρ β} (h : Behaves may sound fail call post)
    (hf : ∀ a, post a → Behaves may sound fail (f a) post') :
    Behaves may sound fail (call >>= f) post' := by
  rw [Behaves, bind_run, trusts_bind]
  refine Trusts.mono (fun r hr => ?_) h
  cases r with
  | ok a => exact hf a hr
  | error e => exact hr

theorem behaves_attempt_bind {r : Except ε α} {a : α} {f : α → Calls ε ρ β}
    {post : β → Prop} (hr : r = .ok a)
    (h : Behaves may sound fail (f a) post) :
    Behaves may sound fail (attempt r >>= f) post := by
  subst hr
  exact h

end Interaction

open Interaction

namespace Pool

variable {ι σ κ α χ ω : Type} {ρ : ι → Type}
  {program : κ → Interaction ρ α}
  {handle : Nat → χ → (a : ι) → σ → Option (ρ a × σ)}
  {happen : ω → σ → Option σ}
  {may : ι → Prop} {sound : (a : ι) → ρ a → Prop}
  {inv : σ → Prop} {post : κ → α → Prop} {pool pool' : Pool σ κ ρ α}

/-- The shared state is in order, and each task goes on as its call does. -/
structure Trusting (may : ι → Prop) (sound : (a : ι) → ρ a → Prop)
    (inv : σ → Prop) (post : κ → α → Prop) (pool : Pool σ κ ρ α) : Prop where
  shared : inv pool.shared
  tasks : ∀ task call tree, pool.tasks task = some (call, tree) →
    Trusts may sound (post call) tree

theorem trusting_idle {s : σ} (h : inv s) :
    Trusting may sound inv post (idle s : Pool σ κ ρ α) :=
  ⟨h, fun _ _ _ htask => by cases htask⟩

theorem Trusting.next (h : Trusting may sound inv post pool) {task : Nat}
    {access : ι} (hnext : pool.next task = some access) : may access := by
  unfold Pool.next at hnext
  split at hnext
  · rename_i call access' next htask
    cases hnext
    exact (h.tasks _ _ _ htask).1
  · cases hnext

/-- The access of a call keeps the shared state in order, and its answer is
sound. -/
def Served (handle : Nat → χ → (a : ι) → σ → Option (ρ a × σ))
    (may : ι → Prop) (sound : (a : ι) → ρ a → Prop) (inv : σ → Prop) : Prop :=
  ∀ task choice access s answer s', inv s → may access →
    handle task choice access s = some (answer, s') →
      inv s' ∧ sound access answer

theorem Trusting.step
    (hprogram : ∀ call, Trusts may sound (post call) (program call))
    (hserved : Served handle may sound inv)
    (hhappen : ∀ event s s', inv s → happen event s = some s' → inv s')
    {label : Label κ χ ω} (h : Trusting may sound inv post pool)
    (hstep : Pool.step program handle happen pool label = some pool') :
    Trusting may sound inv post pool' := by
  have hassign : ∀ {s task call tree}, inv s →
      Trusts may sound (post call) tree →
        Trusting may sound inv post (pool.assign s task call tree) := by
    intro s task call tree hinv htree
    refine ⟨hinv, fun other otherCall otherTree hother => ?_⟩
    by_cases hsame : other = task
    · subst hsame
      rw [assign_self] at hother
      cases hother
      exact htree
    · rw [assign_of_ne hsame] at hother
      exact h.tasks other otherCall otherTree hother
  cases label with
  | start task call =>
      obtain ⟨-, rfl⟩ := step_start hstep
      exact hassign h.shared (hprogram call)
  | advance task choice =>
      obtain ⟨call, access, next, answer, s, htask, hhandle, rfl⟩ :=
        step_advance hstep
      obtain ⟨hmay, hnext⟩ := h.tasks task call _ htask
      obtain ⟨hinv, hsound⟩ := hserved task choice access pool.shared answer s
        h.shared hmay hhandle
      exact hassign hinv (hnext answer hsound)
  | outside event =>
      obtain ⟨s, hevent, rfl⟩ := step_outside hstep
      exact ⟨hhappen event pool.shared s h.shared hevent, h.tasks⟩

end Pool

end OpenKeyV.Library
