import Mathlib.Data.Finset.Erase
import Mathlib.Data.Finset.Insert
import Mathlib.Data.List.Induction
import Mathlib.Data.List.Nodup

/-!
# Journals of writes and removals

`latest` is the last entry of a log that passes a test.  A log of additions
and removals folds to a set of keys, in which a key is when its latest entry
adds it.  In a journal some entries write a token to their cell, and some
consume the token that the last entry of their cell wrote.  When no token is
written twice, none is consumed twice.
-/

namespace OpenKeyV.Library

universe u v

section Latest

variable {α : Type u} (about : α → Bool)

def latest (log : List α) : Option α := (log.filter about).getLast?

variable {about}

@[simp] theorem latest_nil : latest about [] = none := rfl

theorem latest_append (log log' : List α) :
    latest about (log ++ log') = (latest about log').or (latest about log) := by
  rw [latest, List.filter_append, List.getLast?_append]
  rfl

theorem latest_concat (log : List α) (a : α) :
    latest about (log ++ [a]) =
      if about a then some a else latest about log := by
  rw [latest_append]
  cases h : about a <;> simp [latest, h]

theorem latest_eq_none {log : List α} :
    latest about log = none ↔ ∀ a ∈ log, about a = false := by
  simp [latest]

theorem latest_eq_some {log : List α} {a : α}
    (h : latest about log = some a) :
    ∃ before after, log = before ++ a :: after ∧ about a = true ∧
      ∀ b ∈ after, about b = false := by
  induction log using List.reverseRecOn with
  | nil => cases h
  | append_singleton log b ih =>
      rw [latest_concat] at h
      cases hb : about b with
      | true =>
          rw [hb, if_pos rfl] at h
          cases h
          exact ⟨log, [], rfl, hb, by simp⟩
      | false =>
          rw [hb, if_neg (by simp)] at h
          obtain ⟨before, after, rfl, ha, hafter⟩ := ih h
          refine ⟨before, after ++ [b], by simp, ha, ?_⟩
          intro c hc
          rcases List.mem_append.mp hc with hc | hc
          · exact hafter c hc
          · rw [List.mem_singleton.mp hc, hb]

theorem latest_and {log : List α} {a : α} {also : α → Bool}
    (h : latest about log = some a) (halso : also a = true) :
    latest (fun b => about b && also b) log = some a := by
  obtain ⟨before, after, rfl, ha, hafter⟩ := latest_eq_some h
  have hnone : latest (fun b => about b && also b) after = none :=
    latest_eq_none.mpr fun b hb => by simp [hafter b hb]
  rw [← List.singleton_append, latest_append, latest_append, hnone]
  simp [latest, ha, halso]

theorem latest_map {β : Type v} {about : β → Bool} (f : α → β) (log : List α) :
    latest about (log.map f) = (latest (about ∘ f) log).map f := by
  simp only [latest, List.filter_map, List.getLast?_map]

end Latest

section Cells

variable {ε : Type u} {κ : Type v} [DecidableEq κ] (cell : ε → κ)

def latestOf (k : κ) (log : List ε) : Option ε :=
  latest (fun e => decide (cell e = k)) log

theorem latestOf_append (k : κ) (log log' : List ε) :
    latestOf cell k (log ++ log') =
      (latestOf cell k log').or (latestOf cell k log) :=
  latest_append log log'

theorem latestOf_concat (k : κ) (log : List ε) (e : ε) :
    latestOf cell k (log ++ [e]) =
      if cell e = k then some e else latestOf cell k log := by
  simp [latestOf, latest_concat]

variable (adds : ε → Bool)

def foldKeys (log : List ε) : Finset κ :=
  log.foldl (fun keys e =>
    if adds e then insert (cell e) keys else keys.erase (cell e)) ∅

variable {cell adds}

theorem mem_foldKeys {k : κ} {log : List ε} :
    k ∈ foldKeys cell adds log ↔ (latestOf cell k log).any adds = true := by
  induction log using List.reverseRecOn with
  | nil => simp [foldKeys, latestOf]
  | append_singleton log e ih =>
      rw [latestOf_concat, foldKeys, List.foldl_append, ← foldKeys]
      by_cases hcell : cell e = k
      · cases hadds : adds e <;> simp [hcell, hadds]
      · rw [if_neg hcell, ← ih]
        cases hadds : adds e <;> simp [hadds, Ne.symm hcell]

end Cells

section Coherent

variable {ε : Type u} {κ τ : Type v} [DecidableEq κ] (cell : ε → κ)
  (written consumed : ε → Option τ)

/-- An entry consumes what the last entry of its cell wrote. -/
def ConsumesLatest (log : List ε) : Prop :=
  ∀ before e after, log = before ++ e :: after →
    ∀ t, consumed e = some t →
      ∃ w, latestOf cell (cell e) before = some w ∧ written w = some t

/-- Moreover, no token is written twice. -/
structure Coherent (log : List ε) : Prop where
  writes_nodup : (log.filterMap written).Nodup
  consumes_latest : ConsumesLatest cell written consumed log

variable {cell written consumed}

theorem ConsumesLatest.nil : ConsumesLatest cell written consumed [] := by
  intro before e after h
  simp at h

theorem ConsumesLatest.concat {log : List ε} {e : ε}
    (h : ConsumesLatest cell written consumed log)
    (he : ∀ t, consumed e = some t →
      ∃ w, latestOf cell (cell e) log = some w ∧ written w = some t) :
    ConsumesLatest cell written consumed (log ++ [e]) := by
  intro before e' after heq
  rcases List.append_eq_append_iff.mp heq with
    ⟨mid, rfl, hmid⟩ | ⟨mid, rfl, hmid⟩
  · cases mid with
    | nil =>
        obtain ⟨rfl, -⟩ := List.cons.inj hmid
        simpa using he
    | cons a mid => simp at hmid
  · cases mid with
    | nil =>
        obtain ⟨rfl, -⟩ := List.cons.inj hmid
        simpa using he
    | cons a mid =>
        obtain ⟨rfl, -⟩ := List.cons.inj hmid
        exact h before _ mid rfl

theorem Coherent.of_append {log log' : List ε}
    (h : Coherent cell written consumed (log ++ log')) :
    Coherent cell written consumed log := by
  refine ⟨?_, ?_⟩
  · have hnodup := h.writes_nodup
    rw [List.filterMap_append] at hnodup
    exact (List.nodup_append.mp hnodup).1
  · rintro before e after rfl
    exact h.consumes_latest before e (after ++ log') (by simp)

private theorem not_nodup_of_two {log log' : List ε} {w w' : ε} {t : τ}
    (hw : written w = some t) (hw' : written w' = some t) (hmem : w' ∈ log') :
    ¬ ((log ++ w :: log').filterMap written).Nodup := by
  rw [List.filterMap_append, List.filterMap_cons_some hw]
  intro h
  have h := (List.nodup_append.mp h).2.1
  exact (List.nodup_cons.mp h).1 (List.mem_filterMap.mpr ⟨w', hmem, hw'⟩)

theorem Coherent.write_unique {before before' after after' : List ε} {w w' : ε}
    {t : τ} (h : Coherent cell written consumed (before ++ w :: after))
    (heq : before ++ w :: after = before' ++ w' :: after')
    (hw : written w = some t) (hw' : written w' = some t) :
    before = before' ∧ w = w' ∧ after = after' := by
  have hnodup := h.writes_nodup
  rcases List.append_eq_append_iff.mp heq with
    ⟨mid, rfl, hmid⟩ | ⟨mid, rfl, hmid⟩
  · cases mid with
    | nil => simpa using hmid
    | cons a mid =>
        obtain ⟨rfl, rfl⟩ := List.cons.inj hmid
        exact absurd hnodup (not_nodup_of_two hw hw' (by simp))
  · cases mid with
    | nil =>
        obtain ⟨rfl, rfl⟩ := List.cons.inj hmid
        simp
    | cons a mid =>
        obtain ⟨rfl, rfl⟩ := List.cons.inj hmid
        rw [heq] at hnodup
        exact absurd hnodup (not_nodup_of_two hw' hw (by simp))

theorem Coherent.consumed_nodup {log : List ε}
    (h : Coherent cell written consumed log) :
    (log.filterMap consumed).Nodup := by
  induction log using List.reverseRecOn with
  | nil => simp
  | append_singleton log e ih =>
      have ih := ih h.of_append
      rw [List.filterMap_append]
      cases hc : consumed e with
      | none => simpa [hc] using ih
      | some t =>
          refine List.nodup_append.mpr ⟨ih, by simp [hc], ?_⟩
          rintro t' ht' _ hlast rfl
          obtain rfl : t = t' := by simpa [hc, eq_comm] using hlast
          obtain ⟨e', he', hc'⟩ := List.mem_filterMap.mp ht'
          obtain ⟨before, after, rfl⟩ := List.append_of_mem he'
          -- both entries consume the token of one write
          obtain ⟨w, hlatest, hw⟩ := h.consumes_latest _ e [] rfl t hc
          obtain ⟨w', hlatest', hw'⟩ :=
            h.consumes_latest before e' (after ++ [e]) (by simp) t hc'
          obtain ⟨pre, post, hsplit, hcell, hpost⟩ := latest_eq_some hlatest
          obtain ⟨pre', post', rfl, hcell', -⟩ := latest_eq_some hlatest'
          have heq : pre' ++ w' :: (post' ++ e' :: after) = pre ++ w :: post := by
            rw [← hsplit]
            simp
          have hcoherent := h.of_append
          rw [List.append_assoc, List.cons_append] at hcoherent
          obtain ⟨-, rfl, rfl⟩ := hcoherent.write_unique heq hw' hw
          -- so the first one stands behind that write in its cell
          have hmiss := hpost e' (by simp)
          simp only [decide_eq_true_eq, decide_eq_false_iff_not] at hcell hcell' hmiss
          exact hmiss (hcell'.symm.trans hcell)

end Coherent

end OpenKeyV.Library
