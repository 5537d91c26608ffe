import OpenKeyV.Library.Journal

/-!
# A replica that follows the log of its primary

A primary reports its changes in a log, one entry for each change of a key;
an entry either erases its key or not.  A replica goes through the log, and
reads the primary's present value instead of a past one.  So the replica is
only bound to have the primary's value where no entry is left about a key.
-/

namespace OpenKeyV.Library

universe u v w

variable {κ : Type u} {ε : Type v} {ν : Type w} [DecidableEq κ]
  (cell : ε → κ) (erases : ε → Bool)

/-- A key whose latest entry erases it has no value. -/
def Reported (log : List ε) (primary : κ → Option ν) : Prop :=
  ∀ k e, latestOf cell k log = some e → erases e = true → primary k = none

/-- The primary has changed as the entries say. -/
structure Reports (added : List ε) (primary primary' : κ → Option ν) :
    Prop where
  same : ∀ k, latestOf cell k added = none → primary' k = primary k
  erased : Reported cell erases added primary'

/-- A key without an entry left has the primary's value at the replica, or
else it has a value that the replica is going to get. -/
def Follows (log : List ε) (ahead : κ → Prop)
    (primary replica : κ → Option ν) : Prop :=
  ∀ k, latestOf cell k log = none →
    replica k = primary k ∨ ((primary k).isSome = true ∧ ahead k)

variable {cell erases} {log added : List ε} {ahead ahead' : κ → Prop}
  {primary primary' replica replica' : κ → Option ν}

theorem Reports.refl : Reports cell erases [] primary primary :=
  ⟨fun _ _ => rfl, fun _ _ h => by cases h⟩

theorem Reports.map {μ : Type*} (h : Reports cell erases added primary primary')
    (view : κ → Option ν → Option μ) (hview : ∀ k, view k none = none) :
    Reports cell erases added (fun k => view k (primary k))
      fun k => view k (primary' k) := by
  constructor
  · intro k hnone
    simp only [h.same k hnone]
  · intro k e hlatest herases
    simp only [h.erased k e hlatest herases, hview]

theorem Reported.append (h : Reported cell erases log primary)
    (hadded : Reports cell erases added primary primary') :
    Reported cell erases (log ++ added) primary' := by
  intro k e hlatest herases
  rw [latestOf_append] at hlatest
  cases hlast : latestOf cell k added with
  | some e' =>
      rw [hlast] at hlatest
      cases hlatest
      exact hadded.erased k e hlast herases
  | none =>
      rw [hlast] at hlatest
      rw [hadded.same k hlast]
      exact h k e hlatest herases

theorem Follows.append (h : Follows cell log ahead primary replica)
    (hadded : Reports cell erases added primary primary') :
    Follows cell (log ++ added) ahead primary' replica := by
  intro k hnone
  rw [latestOf_append, Option.or_eq_none_iff] at hnone
  rw [hadded.same k hnone.1]
  exact h k hnone.2

theorem latestOf_cons (e : ε) (log : List ε) (k : κ) :
    latestOf cell k (e :: log) =
      (latestOf cell k log).or (if cell e = k then some e else none) := by
  have hsingle := latestOf_concat cell k [] e
  rw [← List.singleton_append, latestOf_append]
  exact congrArg _ hsingle

theorem Reported.tail {e : ε} (h : Reported cell erases (e :: log) primary) :
    Reported cell erases log primary := by
  intro k e' hlatest
  apply h k e'
  rw [latestOf_cons, hlatest]
  rfl

theorem Reported.head {e : ε} (h : Reported cell erases (e :: log) primary)
    (herases : erases e = true) (hlast : latestOf cell (cell e) log = none) :
    primary (cell e) = none := by
  apply h (cell e) e _ herases
  rw [latestOf_cons, hlast, if_pos rfl]
  rfl

theorem Follows.pop {e : ε} (h : Follows cell (e :: log) ahead primary replica)
    (hsame : ∀ k, k ≠ cell e → replica' k = replica k)
    (hdone : latestOf cell (cell e) log = none →
      replica' (cell e) = primary (cell e)) :
    Follows cell log ahead primary replica' := by
  intro k hnone
  by_cases hk : k = cell e
  · subst hk
    exact .inl (hdone hnone)
  · rw [hsame k hk]
    apply h k
    rw [latestOf_cons, hnone, if_neg (Ne.symm hk)]
    rfl

theorem Follows.write (h : Follows cell log ahead primary replica)
    (hsame : ∀ k, latestOf cell k log = none →
      replica' k = replica k ∨ replica' k = primary k)
    (hahead : ∀ k, latestOf cell k log = none → (primary k).isSome = true →
      ahead k → ahead' k ∨ replica' k = primary k) :
    Follows cell log ahead' primary replica' := by
  intro k hnone
  rcases hsame k hnone with hkept | hwritten
  · rcases h k hnone with heq | ⟨hsome, hk⟩
    · exact .inl (hkept.trans heq)
    · exact (hahead k hnone hsome hk).symm.imp id fun hk => ⟨hsome, hk⟩
  · exact .inl hwritten

theorem Follows.eq (h : Follows cell [] (fun _ => False) primary replica)
    (k : κ) : replica k = primary k :=
  (h k rfl).elim id fun hahead => hahead.2.elim

end OpenKeyV.Library
