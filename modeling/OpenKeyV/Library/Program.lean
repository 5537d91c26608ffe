import Mathlib.Data.List.Basic

/-!
# Programs that fail without rolling back

A program runs over a state and returns a value or an error.  An error ends
the program and keeps what was written before it.  `eval` lemmas run a `do`
block command by command.
-/

namespace OpenKeyV.Library

universe u

abbrev Program (σ ε : Type u) := ExceptT ε (StateM σ)

namespace Program

variable {σ ε α β : Type u}

def ofFn (f : σ → Except ε α × σ) : Program σ ε α := ExceptT.mk f

def eval (program : Program σ ε α) (s : σ) : Except ε α × σ := program s

@[simp] theorem eval_ofFn (f : σ → Except ε α × σ) (s : σ) :
    eval (ofFn f) s = f s := rfl

@[simp] theorem eval_pure (a : α) (s : σ) :
    eval (pure a : Program σ ε α) s = (.ok a, s) := rfl

def resume (f : α → Program σ ε β) : Except ε α × σ → Except ε β × σ
  | (.ok a, s) => eval (f a) s
  | (.error e, s) => (.error e, s)

@[simp] theorem resume_ok (f : α → Program σ ε β) (a : α) (s : σ) :
    resume f (.ok a, s) = eval (f a) s := rfl

@[simp] theorem resume_error (f : α → Program σ ε β) (e : ε) (s : σ) :
    resume f (.error e, s) = (.error e, s) := rfl

@[simp] theorem eval_bind (program : Program σ ε α) (f : α → Program σ ε β)
    (s : σ) : eval (program >>= f) s = resume f (eval program s) := by
  change ExceptT.bindCont f (eval program s).1 (eval program s).2 = _
  rcases eval program s with ⟨_ | _, _⟩ <;> rfl

/-- Every run, failed or not, ends in a state related to the one before. -/
def Keeps (R : σ → σ → Prop) (program : Program σ ε α) : Prop :=
  ∀ s, R s (eval program s).2

theorem keeps_pure {R : σ → σ → Prop} (hrefl : ∀ s, R s s) (a : α) :
    Keeps R (pure a : Program σ ε α) :=
  hrefl

theorem Keeps.mono {R R' : σ → σ → Prop} {program : Program σ ε α}
    (himp : ∀ s s', R s s' → R' s s') (h : Keeps R program) :
    Keeps R' program :=
  fun s => himp s _ (h s)

theorem Keeps.bind {R : σ → σ → Prop} {program : Program σ ε α}
    {f : α → Program σ ε β} (htrans : ∀ a b c, R a b → R b c → R a c)
    (h : Keeps R program) (hf : ∀ a, Keeps R (f a)) :
    Keeps R (program >>= f) := by
  intro s
  have hfirst := h s
  rw [eval_bind]
  rcases heval : eval program s with ⟨_ | a, s'⟩
  · rw [heval] at hfirst
    exact hfirst
  · rw [heval] at hfirst
    exact htrans _ _ _ hfirst (hf a s')

end Program

end OpenKeyV.Library
