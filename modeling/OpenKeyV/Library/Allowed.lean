import OpenKeyV.Library.Interaction

/-!
# Calls that make allowed accesses only

What every allowed access preserves, such a call preserves.
-/

namespace OpenKeyV.Library

open Interaction

variable {ι σ α β ε : Type} {ρ : ι → Type} {may : ι → Prop}
  {call : Calls ε ρ α} {f : α → Calls ε ρ β}

/-- Whatever the answers are, each access is allowed. -/
def Allowed (may : ι → Prop) (call : Calls ε ρ α) : Prop :=
  Meets (fun (_ : Unit) _ _ => ()) (fun _ => may) (fun _ _ => True) () call
    fun _ _ => True

theorem allowed_pure (a : α) : Allowed may (pure a : Calls ε ρ α) :=
  meets_pure trivial

theorem allowed_attempt (r : Except ε α) :
    Allowed may (attempt r : Calls ε ρ α) :=
  meets_attempt (fun _ _ => trivial) fun _ _ => trivial

theorem allowed_access {a : ι} (h : may a) :
    Allowed may (access a : Calls ε ρ (ρ a)) :=
  meets_access h fun _ => trivial

theorem Allowed.bind (h : Allowed may call) (hf : ∀ a, Allowed may (f a)) :
    Allowed may (call >>= f) :=
  Meets.bind h fun _ a _ => hf a

theorem allowed_attempt_bind {r : Except ε α}
    (h : ∀ a, r = .ok a → Allowed may (f a)) :
    Allowed may (attempt r >>= f) := by
  cases r with
  | ok a => exact h a rfl
  | error e => exact trivial

theorem preserves_play {P : σ → Prop} {κ : Type}
    {learn : κ → (a : ι) → ρ a → κ} {post : κ → α → Prop}
    {handle : (a : ι) → σ → ρ a × σ}
    (hstep : ∀ a s, may a → P s → P (handle a s).2) {k : κ}
    {tree : Interaction ρ α}
    (h : Respects learn (fun _ => may) post k tree) {s : σ} (hs : P s) :
    P (play handle tree s).2 := by
  induction tree generalizing k s with
  | done a => exact hs
  | request access next ih =>
      exact ih _ (h.2 _) (hstep access s h.1 hs)

theorem Allowed.preserves {P : σ → Prop} {handle : (a : ι) → σ → ρ a × σ}
    (hstep : ∀ a s, may a → P s → P (handle a s).2)
    (h : Allowed may call) {s : σ} (hs : P s) :
    P (playCall handle call s).2 :=
  preserves_play hstep h hs

end OpenKeyV.Library
