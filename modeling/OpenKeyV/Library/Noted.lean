/-!
# Computations that take notes

A `Noted` computation returns or fails, and keeps a note of each event on the
way.  What all notes satisfy is found step by step (`all_bind`).
-/

namespace OpenKeyV.Library

structure Noted (δ ε α : Type) where
  notes : List δ
  result : Except ε α

namespace Noted

variable {δ ε α β : Type} {P : δ → Prop}

protected def bind (x : Noted δ ε α) (f : α → Noted δ ε β) : Noted δ ε β :=
  match x.result with
  | .error e => ⟨x.notes, .error e⟩
  | .ok a => ⟨x.notes ++ (f a).notes, (f a).result⟩

instance : Monad (Noted δ ε) where
  pure a := ⟨[], .ok a⟩
  bind := Noted.bind

def note (d : δ) : Noted δ ε Unit := ⟨[d], .ok ()⟩

def ofExcept (result : Except ε α) : Noted δ ε α := ⟨[], result⟩

def All (P : δ → Prop) (x : Noted δ ε α) : Prop := ∀ d ∈ x.notes, P d

@[simp] theorem result_pure (a : α) :
    (pure a : Noted δ ε α).result = .ok a := rfl

@[simp] theorem result_note (d : δ) :
    (note d : Noted δ ε Unit).result = .ok () := rfl

@[simp] theorem result_ofExcept (result : Except ε α) :
    (ofExcept result : Noted δ ε α).result = result := rfl

theorem result_bind (x : Noted δ ε α) (f : α → Noted δ ε β) :
    (x >>= f).result = x.result >>= fun a => (f a).result := by
  change (Noted.bind x f).result = _
  unfold Noted.bind
  cases x.result <;> rfl

theorem result_ite {c : Prop} [Decidable c] {x y : Noted δ ε α}
    {a b : Except ε α} (hx : x.result = a) (hy : y.result = b) :
    (if c then x else y).result = if c then a else b := by
  split
  · exact hx
  · exact hy

theorem all_ite {c : Prop} [Decidable c] {x y : Noted δ ε α} :
    All P (if c then x else y) ↔ (c → All P x) ∧ (¬ c → All P y) := by
  split
  · rename_i hc
    exact ⟨fun h => ⟨fun _ => h, fun hn => absurd hc hn⟩, fun h => h.1 hc⟩
  · rename_i hc
    exact ⟨fun h => ⟨fun hn => absurd hn hc, fun _ => h⟩, fun h => h.2 hc⟩

@[simp] theorem all_pure (a : α) : All P (pure a : Noted δ ε α) :=
  fun _ h => by cases h

@[simp] theorem all_ofExcept (result : Except ε α) :
    All P (ofExcept result : Noted δ ε α) :=
  fun _ h => by cases h

@[simp] theorem all_note (d : δ) : All P (note d : Noted δ ε Unit) ↔ P d :=
  ⟨fun h => h d (List.mem_singleton.mpr rfl), fun h _ hd => by
    rw [List.mem_singleton.mp hd]
    exact h⟩

theorem all_bind {x : Noted δ ε α} {f : α → Noted δ ε β} :
    All P (x >>= f) ↔ All P x ∧ ∀ a, x.result = .ok a → All P (f a) := by
  change All P (Noted.bind x f) ↔ _
  unfold Noted.bind All
  cases hresult : x.result with
  | error e => exact ⟨fun h => ⟨h, fun a ha => by cases ha⟩, fun h => h.1⟩
  | ok a =>
      simp only [List.forall_mem_append, Except.ok.injEq, forall_eq']

end Noted

end OpenKeyV.Library
