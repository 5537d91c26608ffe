import OpenKeyV.Library.Machine
import Mathlib.Logic.Function.Basic

/-!
# Calls that share a state

An `Interaction` asks for one access at a time and goes on with its answer.
A `Pool` runs any number of calls against one shared state: each step starts
a call, makes the next access of one of them, or is an event outside of all
calls.  `Respects` is what a call does by itself, whatever answers it gets,
and `Pool.good_step` puts such facts about each call together.
-/

namespace OpenKeyV.Library

inductive Interaction {ι : Type} (ρ : ι → Type) (α : Type) where
  | done (result : α)
  | request (access : ι) (next : ρ access → Interaction ρ α)

namespace Interaction

variable {ι : Type} {ρ : ι → Type} {α β ε : Type}

protected def bind : Interaction ρ α → (α → Interaction ρ β) → Interaction ρ β
  | .done a, f => f a
  | .request access next, f => .request access fun answer =>
      (next answer).bind f

instance : Monad (Interaction ρ) where
  pure := .done
  bind := Interaction.bind

def ask (access : ι) : Interaction ρ (ρ access) := .request access .done

/-! ## Calls that fail -/

/-- A call that ends at its first error, and keeps what it did before. -/
abbrev Calls (ε : Type) (ρ : ι → Type) := ExceptT ε (Interaction ρ)

def access (a : ι) : Calls ε ρ (ρ a) := ExceptT.lift (ask a)

def attempt (result : Except ε α) : Calls ε ρ α :=
  ExceptT.mk (.done result)

def observe (call : Calls ε ρ α) : Calls ε ρ (Except ε α) :=
  ExceptT.lift call.run

def resume (f : α → Calls ε ρ β) : Except ε α → Interaction ρ (Except ε β)
  | .ok a => (f a).run
  | .error e => .done (.error e)

theorem bind_run (call : Calls ε ρ α) (f : α → Calls ε ρ β) :
    (call >>= f).run = call.run.bind (resume f) := by
  change call.run.bind _ = _
  congr 1
  funext r
  cases r <;> rfl

/-! ## What a call does, whatever the answers -/

section Respects

variable {κ : Type} (learn : κ → (a : ι) → ρ a → κ) (may : κ → ι → Prop)

/-- Whatever the answers are, each access is one that the caller may make
with what it has learned from the answers before, and the result is one that
`post` allows. -/
def Respects (post : κ → α → Prop) : κ → Interaction ρ α → Prop
  | k, .done a => post k a
  | k, .request access next => may k access ∧
      ∀ answer, Respects post (learn k access answer) (next answer)

variable {learn may} {post : κ → β → Prop} {k : κ}

theorem respects_bind {tree : Interaction ρ α} {f : α → Interaction ρ β} :
    Respects learn may post k (tree.bind f) ↔
      Respects learn may (fun k a => Respects learn may post k (f a)) k
        tree := by
  induction tree generalizing k with
  | done a => exact Iff.rfl
  | request access next ih =>
      exact and_congr_right fun _ => forall_congr' fun answer => ih answer

theorem Respects.mono {post post' : κ → α → Prop} {tree : Interaction ρ α}
    (himp : ∀ k a, post k a → post' k a)
    (h : Respects learn may post k tree) :
    Respects learn may post' k tree := by
  induction tree generalizing k with
  | done a => exact himp k a h
  | request access next ih => exact ⟨h.1, fun answer => ih answer (h.2 answer)⟩

variable {post : κ → Except ε β → Prop}

theorem respects_bind_run {call : Calls ε ρ α} {f : α → Calls ε ρ β} :
    Respects learn may post k (call >>= f).run ↔
      Respects learn may (fun k r => Respects learn may post k (resume f r))
        k call.run := by
  rw [bind_run]
  exact respects_bind

@[simp] theorem respects_access_bind {a : ι} {f : ρ a → Calls ε ρ β} :
    Respects learn may post k (access a >>= f).run ↔
      may k a ∧ ∀ answer, Respects learn may post (learn k a answer)
        (f answer).run :=
  Iff.rfl

theorem respects_attempt_bind {r : Except ε α} {f : α → Calls ε ρ β} :
    Respects learn may post k (attempt r >>= f).run ↔
      Respects learn may post k (resume f r) := by
  cases r <;> exact Iff.rfl

@[simp] theorem respects_pure {b : β} :
    Respects learn may post k (pure b : Calls ε ρ β).run ↔
      post k (.ok b) :=
  Iff.rfl

@[simp] theorem respects_attempt {r : Except ε β} :
    Respects learn may post k (attempt r : Calls ε ρ β).run ↔ post k r :=
  Iff.rfl

theorem respects_cons {first : Calls ε ρ α} {rest : Calls ε ρ (List α)}
    (hfirst : Respects learn may (fun _ _ => True) k first.run)
    (hrest : ∀ k, Respects learn may (fun _ _ => True) k rest.run) :
    Respects learn may (fun _ _ => True) k
      (first >>= fun a => rest >>= fun as => return a :: as).run := by
  refine respects_bind_run.mpr (hfirst.mono fun k r _ => ?_)
  cases r with
  | error error => trivial
  | ok a =>
      refine respects_bind_run.mpr ((hrest k).mono fun k r _ => ?_)
      cases r <;> trivial

@[simp] theorem respects_map {γ : Type} {post : κ → γ → Prop}
    {tree : Interaction ρ α} {g : α → γ} :
    Respects learn may post k (g <$> tree) ↔
      Respects learn may (fun k a => post k (g a)) k tree :=
  respects_bind

/-- The call makes accesses that it may make, and returns or fails with what
is allowed. -/
def Meets (learn : κ → (a : ι) → ρ a → κ) (may : κ → ι → Prop)
    (fail : κ → ε → Prop) (k : κ) (call : Calls ε ρ α)
    (post : κ → α → Prop) : Prop :=
  Respects learn may (fun k r =>
    match r with
    | .ok a => post k a
    | .error e => fail k e) k call.run

variable {fail : κ → ε → Prop}

theorem meets_pure {post : κ → α → Prop} {a : α} (h : post k a) :
    Meets learn may fail k (pure a : Calls ε ρ α) post :=
  h

theorem meets_attempt {post : κ → α → Prop} {r : Except ε α}
    (hok : ∀ a, r = .ok a → post k a)
    (herror : ∀ e, r = .error e → fail k e) :
    Meets learn may fail k (attempt r : Calls ε ρ α) post := by
  cases r with
  | ok a => exact hok a rfl
  | error e => exact herror e rfl

theorem meets_access {a : ι} {post : κ → ρ a → Prop} (hmay : may k a)
    (hpost : ∀ answer, post (learn k a answer) answer) :
    Meets learn may fail k (access a : Calls ε ρ (ρ a)) post :=
  ⟨hmay, hpost⟩

theorem Meets.mono {post post' : κ → α → Prop} {call : Calls ε ρ α}
    (himp : ∀ k a, post k a → post' k a)
    (h : Meets learn may fail k call post) :
    Meets learn may fail k call post' := by
  refine Respects.mono (fun k r hr => ?_) h
  cases r with
  | ok a => exact himp k a hr
  | error e => exact hr

theorem Meets.bind {post : κ → α → Prop} {post' : κ → β → Prop}
    {call : Calls ε ρ α} {f : α → Calls ε ρ β}
    (h : Meets learn may fail k call post)
    (hf : ∀ k a, post k a → Meets learn may fail k (f a) post') :
    Meets learn may fail k (call >>= f) post' := by
  refine respects_bind_run.mpr (Respects.mono (fun k r hr => ?_) h)
  cases r with
  | ok a => exact hf k a hr
  | error e => exact hr

theorem meets_access_bind {a : ι} {post : κ → β → Prop}
    {f : ρ a → Calls ε ρ β} (hmay : may k a)
    (hnext : ∀ answer, Meets learn may fail (learn k a answer) (f answer)
      post) :
    Meets learn may fail k (access a >>= f) post :=
  ⟨hmay, hnext⟩

theorem meets_observe {fail' : κ → ε → Prop} {post : κ → α → Prop}
    {call : Calls ε ρ α} (h : Meets learn may fail' k call post) :
    Meets learn may fail k (observe call) fun k r =>
      match r with
      | .ok a => post k a
      | .error e => fail' k e := by
  refine respects_bind.mpr (Respects.mono (fun k r hr => ?_) h)
  cases r with
  | ok a => exact hr
  | error e => exact hr

end Respects

/-! ## A call by itself -/

section Exec

variable {σ χ γ : Type}

/-- A run of one call alone: `choice` is what an answer depends on besides
the state, and each access is one that is allowed there. -/
inductive Exec (handle : χ → (a : ι) → σ → Option (ρ a × σ))
    (allowed : χ → ι → σ → Prop) : Interaction ρ α → σ → α → σ → Prop where
  | done {a : α} {s : σ} : Exec handle allowed (.done a) s a s
  | request {access : ι} {next : ρ access → Interaction ρ α} {s s' s'' : σ}
      {a : α} {answer : ρ access} (choice : χ)
      (hallowed : allowed choice access s)
      (hhandle : handle choice access s = some (answer, s'))
      (hnext : Exec handle allowed (next answer) s' a s'') :
      Exec handle allowed (.request access next) s a s''

variable (handle : χ → (a : ι) → σ → Option (ρ a × σ))
  (allowed : χ → ι → σ → Prop)

/-- Every run of the call from the state ends as `post` says. -/
def Ensures (post : α → σ → Prop) (tree : Interaction ρ α) (s : σ) : Prop :=
  ∀ a s', Exec handle allowed tree s a s' → post a s'

variable {handle allowed} {s : σ}

theorem ensures_done {post : α → σ → Prop} {a : α} (h : post a s) :
    Ensures handle allowed post (.done a) s := by
  intro b s' hexec
  cases hexec
  exact h

theorem ensures_request {post : α → σ → Prop} {access : ι}
    {next : ρ access → Interaction ρ α}
    (h : ∀ choice answer s', allowed choice access s →
      handle choice access s = some (answer, s') →
        Ensures handle allowed post (next answer) s') :
    Ensures handle allowed post (.request access next) s := by
  intro a s'' hexec
  cases hexec with
  | request choice hallowed hhandle hnext =>
      exact h choice _ _ hallowed hhandle a s'' hnext

theorem Ensures.mono {post post' : α → σ → Prop} {tree : Interaction ρ α}
    (himp : ∀ a s', post a s' → post' a s')
    (h : Ensures handle allowed post tree s) :
    Ensures handle allowed post' tree s :=
  fun a s' hexec => himp a s' (h a s' hexec)

theorem exec_bind {tree : Interaction ρ α} {f : α → Interaction ρ β} {b : β}
    {s'' : σ} (h : Exec handle allowed (tree.bind f) s b s'') :
    ∃ a s', Exec handle allowed tree s a s' ∧
      Exec handle allowed (f a) s' b s'' := by
  induction tree generalizing s with
  | done a => exact ⟨a, s, .done, h⟩
  | request access next ih =>
      cases h with
      | request choice hallowed hhandle hnext =>
          obtain ⟨a, s', hfirst, hsecond⟩ := ih _ hnext
          exact ⟨a, s', .request choice hallowed hhandle hfirst, hsecond⟩

theorem ensures_bind {post : β → σ → Prop} {tree : Interaction ρ α}
    {f : α → Interaction ρ β}
    (h : Ensures handle allowed (fun a s' => Ensures handle allowed post (f a)
      s') tree s) :
    Ensures handle allowed post (tree.bind f) s := by
  intro b s'' hexec
  obtain ⟨a, s', hfirst, hsecond⟩ := exec_bind hexec
  exact h a s' hfirst b s'' hsecond

theorem ensures_map {post : γ → σ → Prop} {tree : Interaction ρ α}
    {g : α → γ} (h : Ensures handle allowed (fun a => post (g a)) tree s) :
    Ensures handle allowed post (g <$> tree) s :=
  ensures_bind (h.mono fun _ _ ha => ensures_done ha)

variable {post : Except ε β → σ → Prop}

theorem ensures_bind_run {call : Calls ε ρ α} {f : α → Calls ε ρ β}
    (h : Ensures handle allowed (fun r s' =>
      Ensures handle allowed post (resume f r) s') call.run s) :
    Ensures handle allowed post (call >>= f).run s := by
  rw [bind_run]
  exact ensures_bind h

theorem ensures_cons {P : σ → Prop} {first : Calls ε ρ α}
    {rest : Calls ε ρ (List α)}
    (hfirst : Ensures handle allowed (fun _ s' => P s') first.run s)
    (hrest : ∀ s', P s' →
      Ensures handle allowed (fun _ s'' => P s'') rest.run s') :
    Ensures handle allowed (fun _ s' => P s')
      (first >>= fun a => rest >>= fun as => return a :: as).run s := by
  refine ensures_bind_run (hfirst.mono fun r s' hs' => ?_)
  cases r with
  | error error => exact ensures_done hs'
  | ok a =>
      refine ensures_bind_run ((hrest s' hs').mono fun r s'' hs'' => ?_)
      cases r with
      | error error => exact ensures_done hs''
      | ok results => exact ensures_done hs''

theorem ensures_access_bind {a : ι} {f : ρ a → Calls ε ρ β}
    (h : ∀ choice answer s', allowed choice a s →
      handle choice a s = some (answer, s') →
        Ensures handle allowed post (f answer).run s') :
    Ensures handle allowed post (access a >>= f).run s :=
  ensures_request h

variable {s' s'' : σ}

theorem Exec.bind {tree : Interaction ρ α} {f : α → Interaction ρ β} {a : α}
    {b : β} (h : Exec handle allowed tree s a s')
    (hrest : Exec handle allowed (f a) s' b s'') :
    Exec handle allowed (tree.bind f) s b s'' := by
  induction h with
  | done => exact hrest
  | request choice hallowed hhandle _ ih =>
      exact .request choice hallowed hhandle (ih hrest)

theorem Exec.bind_run {call : Calls ε ρ α} {f : α → Calls ε ρ β}
    {r : Except ε α} {b : Except ε β} (h : Exec handle allowed call.run s r s')
    (hrest : Exec handle allowed (resume f r) s' b s'') :
    Exec handle allowed (call >>= f).run s b s'' := by
  rw [Interaction.bind_run]
  exact h.bind hrest

theorem exec_access {a : ι} {answer : ρ a} (choice : χ)
    (hallowed : allowed choice a s)
    (hhandle : handle choice a s = some (answer, s')) :
    Exec handle allowed (access a : Calls ε ρ (ρ a)).run s (.ok answer) s' :=
  .request choice hallowed hhandle .done

theorem exec_attempt (r : Except ε α) :
    Exec handle allowed (attempt r : Calls ε ρ α).run s r s :=
  .done

theorem Exec.observe {call : Calls ε ρ α} {r : Except ε α}
    (h : Exec handle allowed call.run s r s') :
    Exec handle allowed (observe call).run s (.ok r) s' :=
  h.bind .done

end Exec

/-! ## A call whose answers are determined -/

section Play

variable {σ : Type} (handle : (a : ι) → σ → ρ a × σ)

def play : Interaction ρ α → σ → α × σ
  | .done a, s => (a, s)
  | .request access next, s =>
      play (next (handle access s).1) (handle access s).2

theorem play_bind (tree : Interaction ρ α) (f : α → Interaction ρ β) (s : σ) :
    play handle (tree.bind f) s =
      play handle (f (play handle tree s).1) (play handle tree s).2 := by
  induction tree generalizing s with
  | done a => rfl
  | request access next ih => exact ih _ _

def playCall (call : Calls ε ρ α) (s : σ) : Except ε α × σ :=
  play handle call.run s

@[simp] theorem playCall_pure (a : α) (s : σ) :
    playCall handle (pure a : Calls ε ρ α) s = (.ok a, s) := rfl

@[simp] theorem playCall_attempt (r : Except ε α) (s : σ) :
    playCall handle (attempt r : Calls ε ρ α) s = (r, s) := rfl

@[simp] theorem playCall_access (a : ι) (s : σ) :
    playCall handle (access a : Calls ε ρ (ρ a)) s =
      (.ok (handle a s).1, (handle a s).2) := rfl

theorem playCall_bind (call : Calls ε ρ α) (f : α → Calls ε ρ β) (s : σ) :
    playCall handle (call >>= f) s =
      match playCall handle call s with
      | (.ok a, s) => playCall handle (f a) s
      | (.error e, s) => (.error e, s) := by
  rw [playCall, bind_run, play_bind]
  change play handle (resume f (playCall handle call s).1)
    (playCall handle call s).2 = _
  rcases playCall handle call s with ⟨_ | _, _⟩ <;> rfl

theorem playCall_bind_ok {call : Calls ε ρ α} {f : α → Calls ε ρ β} {s s' : σ}
    {a : α} (h : playCall handle call s = (.ok a, s')) :
    playCall handle (call >>= f) s = playCall handle (f a) s' := by
  rw [playCall_bind, h]

theorem playCall_bind_error {call : Calls ε ρ α} {f : α → Calls ε ρ β}
    {s s' : σ} {e : ε} (h : playCall handle call s = (.error e, s')) :
    playCall handle (call >>= f) s = (.error e, s') := by
  rw [playCall_bind, h]

end Play

end Interaction

/-! ## Any number of calls -/

open Interaction

structure Pool {ι : Type} (σ κ : Type) (ρ : ι → Type) (α : Type) where
  shared : σ
  tasks : Nat → Option (κ × Interaction ρ α)

namespace Pool

inductive Label (κ χ ω : Type) where
  | start (task : Nat) (call : κ)
  | advance (task : Nat) (choice : χ)
  | outside (event : ω)

variable {ι σ κ α χ ω : Type} {ρ : ι → Type}

def assign (pool : Pool σ κ ρ α) (s : σ) (task : Nat) (call : κ)
    (tree : Interaction ρ α) : Pool σ κ ρ α :=
  ⟨s, Function.update pool.tasks task (some (call, tree))⟩

theorem assign_self {pool : Pool σ κ ρ α} {s : σ} {task : Nat} {call : κ}
    {tree : Interaction ρ α} :
    (pool.assign s task call tree).tasks task = some (call, tree) :=
  Function.update_self ..

theorem assign_of_ne {pool : Pool σ κ ρ α} {s : σ} {task other : Nat}
    {call : κ} {tree : Interaction ρ α} (h : other ≠ task) :
    (pool.assign s task call tree).tasks other = pool.tasks other :=
  Function.update_of_ne h ..

def next (pool : Pool σ κ ρ α) (task : Nat) : Option ι :=
  match pool.tasks task with
  | some (_, .request access _) => some access
  | _ => none

def idle (s : σ) : Pool σ κ ρ α := ⟨s, fun _ => none⟩

section Step

variable (program : κ → Interaction ρ α)
  (handle : Nat → χ → (a : ι) → σ → Option (ρ a × σ))
  (happen : ω → σ → Option σ)

def step (pool : Pool σ κ ρ α) : Label κ χ ω → Option (Pool σ κ ρ α)
  | .start task call =>
      match pool.tasks task with
      | none => some (pool.assign pool.shared task call (program call))
      | some _ => none
  | .advance task choice =>
      match pool.tasks task with
      | some (call, .request access next) =>
          (handle task choice access pool.shared).map fun (answer, s) =>
            pool.assign s task call (next answer)
      | _ => none
  | .outside event =>
      (happen event pool.shared).map fun s => ⟨s, pool.tasks⟩

variable {program handle happen} {pool pool' : Pool σ κ ρ α}

theorem step_start {task : Nat} {call : κ}
    (h : step program handle happen pool (.start task call) = some pool') :
    pool.tasks task = none ∧
      pool' = pool.assign pool.shared task call (program call) := by
  simp only [step] at h
  split at h
  · rename_i hnone
    cases h
    exact ⟨hnone, rfl⟩
  · cases h

theorem step_advance {task : Nat} {choice : χ}
    (h : step program handle happen pool (.advance task choice) =
      some pool') :
    ∃ call access next answer s,
      pool.tasks task = some (call, .request access next) ∧
        handle task choice access pool.shared = some (answer, s) ∧
        pool' = pool.assign s task call (next answer) := by
  simp only [step] at h
  split at h
  · rename_i call access next htask
    rw [Option.map_eq_some_iff] at h
    obtain ⟨⟨answer, s⟩, hhandle, rfl⟩ := h
    exact ⟨call, access, next, answer, s, htask, hhandle, rfl⟩
  · cases h

theorem step_start_of {task : Nat} {call : κ} {tree : Interaction ρ α}
    (hfree : pool.tasks task = none) (hprogram : program call = tree) :
    step program handle happen pool (.start task call) =
      some (pool.assign pool.shared task call tree) := by
  simp only [step, hfree, hprogram]

theorem step_advance_of {task : Nat} {call : κ} {access : ι}
    {next : ρ access → Interaction ρ α} {choice : χ} {answer : ρ access}
    {s : σ} {tree : Interaction ρ α}
    (htask : pool.tasks task = some (call, .request access next))
    (hnext : next answer = tree)
    (hhandle : handle task choice access pool.shared = some (answer, s)) :
    step program handle happen pool (.advance task choice) =
      some (pool.assign s task call tree) := by
  simp only [step, htask, hhandle, Option.map_some, hnext]

theorem step_outside {event : ω}
    (h : step program handle happen pool (.outside event) = some pool') :
    ∃ s, happen event pool.shared = some s ∧ pool' = ⟨s, pool.tasks⟩ := by
  rw [step, Option.map_eq_some_iff] at h
  obtain ⟨s, hhappen, rfl⟩ := h
  exact ⟨s, hhappen, rfl⟩

end Step

/-! ## Invariants of a pool -/

section Good

variable {program : κ → Interaction ρ α}
  {handle : Nat → χ → (a : ι) → σ → Option (ρ a × σ)}
  {happen : ω → σ → Option σ} {μ : Type}
  {learn : μ → (a : ι) → ρ a → μ} {may : μ → ι → Prop}
  {post : κ → μ → α → Prop} {blank : μ} {inv : σ → Prop}
  {valid : Nat → μ → σ → Prop} {allowed : σ → Nat → ι → Prop}
  {pool pool' : Pool σ κ ρ α}

/-- The shared state is in order, and what each task has learned is true of
it and enough for the rest of its call. -/
structure Good (learn : μ → (a : ι) → ρ a → μ) (may : μ → ι → Prop)
    (post : κ → μ → α → Prop) (blank : μ) (inv : σ → Prop)
    (valid : Nat → μ → σ → Prop) (pool : Pool σ κ ρ α) : Prop where
  shared : inv pool.shared
  free : ∀ task, pool.tasks task = none → valid task blank pool.shared
  tasks : ∀ task call tree, pool.tasks task = some (call, tree) →
    ∃ k, valid task k pool.shared ∧ Respects learn may (post call) k tree

theorem good_idle {s : σ} (hinv : inv s) (hvalid : ∀ task, valid task blank s) :
    Good learn may post blank inv valid (idle s : Pool σ κ ρ α) :=
  ⟨hinv, fun task _ => hvalid task, fun _ _ _ htask => by cases htask⟩

theorem Good.result {task : Nat} {call : κ} {result : α}
    (h : Good learn may post blank inv valid pool)
    (htask : pool.tasks task = some (call, .done result)) :
    ∃ k, valid task k pool.shared ∧ post call k result :=
  h.tasks task call _ htask

/-- An allowed access keeps the shared state in order, tells its task the
truth, and leaves true what the other tasks have learned. -/
def Sound (handle : Nat → χ → (a : ι) → σ → Option (ρ a × σ))
    (learn : μ → (a : ι) → ρ a → μ) (may : μ → ι → Prop) (inv : σ → Prop)
    (valid : Nat → μ → σ → Prop) (allowed : σ → Nat → ι → Prop) : Prop :=
  ∀ task choice access s answer s' k, inv s → valid task k s →
    may k access → allowed s task access →
    handle task choice access s = some (answer, s') →
      inv s' ∧ valid task (learn k access answer) s' ∧
        ∀ other m, other ≠ task → valid other m s → valid other m s'

def Silent (happen : ω → σ → Option σ) (inv : σ → Prop)
    (valid : Nat → μ → σ → Prop) : Prop :=
  ∀ event s s', inv s → happen event s = some s' →
    inv s' ∧ ∀ task k, valid task k s → valid task k s'

def Allows (allowed : σ → Nat → ι → Prop) (pool : Pool σ κ ρ α)
    (label : Label κ χ ω) : Prop :=
  ∀ task choice access, label = .advance task choice →
    pool.next task = some access → allowed pool.shared task access

instance Allows.decidable {allowed : σ → Nat → ι → Prop}
    [∀ s task access, Decidable (allowed s task access)]
    (pool : Pool σ κ ρ α) :
    ∀ label : Label κ χ ω, Decidable (Allows allowed pool label)
  | .start _ _ => isTrue fun _ _ _ hlabel => by cases hlabel
  | .outside _ => isTrue fun _ _ _ hlabel => by cases hlabel
  | .advance task _ =>
      decidable_of_iff
        (∀ access ∈ pool.next task, allowed pool.shared task access) (by
          constructor
          · rintro h _ _ access hlabel hnext
            cases hlabel
            exact h access hnext
          · intro h access hnext
            exact h task _ access rfl hnext)

theorem Good.step
    (hprogram : ∀ call, Respects learn may (post call) blank (program call))
    (hsound : Sound handle learn may inv valid allowed)
    (hsilent : Silent happen inv valid) {label : Label κ χ ω}
    (h : Good learn may post blank inv valid pool)
    (hallowed : Allows allowed pool label)
    (hstep : step program handle happen pool label = some pool') :
    Good learn may post blank inv valid pool' := by
  cases label with
  | start task call =>
      obtain ⟨hnone, rfl⟩ := step_start hstep
      refine ⟨h.shared, fun other hother => ?_,
        fun other otherCall tree hother => ?_⟩
      · by_cases hsame : other = task
        · subst hsame
          rw [assign_self] at hother
          cases hother
        · rw [assign_of_ne hsame] at hother
          exact h.free other hother
      · by_cases hsame : other = task
        · subst hsame
          rw [assign_self] at hother
          cases hother
          exact ⟨blank, h.free other hnone, hprogram call⟩
        · rw [assign_of_ne hsame] at hother
          exact h.tasks other otherCall tree hother
  | advance task choice =>
      obtain ⟨call, access, next, answer, s, htask, hhandle, rfl⟩ :=
        step_advance hstep
      obtain ⟨k, hvalid, hmay, hnext⟩ := h.tasks task call _ htask
      have hok : allowed pool.shared task access :=
        hallowed task choice access rfl (by rw [Pool.next, htask])
      obtain ⟨hinv, hown, hothers⟩ := hsound task choice access pool.shared
        answer s k h.shared hvalid hmay hok hhandle
      refine ⟨hinv, fun other hother => ?_,
        fun other otherCall tree hother => ?_⟩
      · by_cases hsame : other = task
        · subst hsame
          rw [assign_self] at hother
          cases hother
        · rw [assign_of_ne hsame] at hother
          exact hothers other blank hsame (h.free other hother)
      · by_cases hsame : other = task
        · subst hsame
          rw [assign_self] at hother
          cases hother
          exact ⟨_, hown, hnext answer⟩
        · rw [assign_of_ne hsame] at hother
          obtain ⟨m, hm, htree⟩ := h.tasks other otherCall tree hother
          exact ⟨m, hothers other m hsame hm, htree⟩
  | outside event =>
      obtain ⟨s, hhappen, rfl⟩ := step_outside hstep
      obtain ⟨hinv, hvalid⟩ := hsilent event pool.shared s h.shared hhappen
      refine ⟨hinv, fun task htask => hvalid task blank (h.free task htask),
        fun task call tree htask => ?_⟩
      obtain ⟨k, hk, htree⟩ := h.tasks task call tree htask
      exact ⟨k, hvalid task k hk, htree⟩

theorem Good.run
    (hprogram : ∀ call, Respects learn may (post call) blank (program call))
    (hsound : Sound handle learn may inv valid allowed)
    (hsilent : Silent happen inv valid) {labels : List (Label κ χ ω)}
    (h : Good learn may post blank inv valid pool)
    (hallowed : Along (Pool.step program handle happen) (Allows allowed) pool
      labels)
    (hrun : Library.run (Pool.step program handle happen) pool labels =
      some pool') :
    Good learn may post blank inv valid pool' :=
  run_invariant (fun _ _ _ hgood hok hstep =>
    hgood.step hprogram hsound hsilent hok hstep) h hallowed hrun

end Good

end Pool

end OpenKeyV.Library
