import Mathlib.Data.List.Induction

/-!
# Delivery of a log to one reader

A reader goes through a log and is handed the items it accepts, or a notice
that it lags behind and how many items it has lost.  `Delivered` relates the
part of the log that it has been through to what it was handed.
-/

namespace OpenKeyV.Library

universe u

section Numbered

variable {α : Type u} {number : α → Nat}

private theorem drop_eq_filter_from (base : Nat) {log : List α}
    (h : ∀ i a, log[i]? = some a → number a = base + i + 1) (n : Nat) :
    log.drop (n - base) = log.filter fun a => decide (n < number a) := by
  induction log generalizing base with
  | nil => simp
  | cons a log ih =>
      have hhead : number a = base + 1 := h 0 a rfl
      have htail := ih (base + 1) fun i b hb => by
        have hnumber := h (i + 1) b (by simpa using hb)
        omega
      by_cases hn : n ≤ base
      · have hkept : decide (n < number a) = true := by
          rw [hhead, decide_eq_true_eq]
          omega
        simp only [List.filter_cons, hkept, if_true, ← htail]
        rw [Nat.sub_eq_zero_of_le hn, Nat.sub_eq_zero_of_le (by omega)]
        rfl
      · have hdropped : decide (n < number a) = false := by
          rw [hhead, decide_eq_false_iff_not]
          omega
        have hstep : n - base = (n - (base + 1)) + 1 := by omega
        simp only [List.filter_cons, hdropped, Bool.false_eq_true, if_false,
          ← htail]
        rw [hstep, List.drop_succ_cons]

theorem drop_eq_filter {log : List α}
    (h : ∀ i a, log[i]? = some a → number a = i + 1) (n : Nat) :
    log.drop n = log.filter fun a => decide (n < number a) :=
  drop_eq_filter_from 0 (by simpa using h) n

theorem numbered_pairwise {log : List α}
    (h : ∀ i a, log[i]? = some a → number a = i + 1) :
    log.Pairwise fun a b => number a < number b := by
  rw [List.pairwise_iff_getElem]
  intro i j hi hj hlt
  rw [h i _ (List.getElem?_eq_getElem hi), h j _ (List.getElem?_eq_getElem hj)]
  omega

theorem numbered_take {log : List α}
    (h : ∀ i a, log[i]? = some a → number a = i + 1) (n : Nat) :
    ∀ i a, (log.take n)[i]? = some a → number a = i + 1 := by
  intro i a ha
  rw [List.getElem?_take] at ha
  split at ha
  · exact h i a ha
  · cases ha

theorem take_eq_filter {log : List α}
    (h : ∀ i a, log[i]? = some a → number a = i + 1) (n : Nat) :
    log.take n = log.filter fun a => decide (number a ≤ n) := by
  have htake : (log.take n).filter (fun a => decide (number a ≤ n)) =
      log.take n := by
    apply List.filter_eq_self.mpr
    intro a ha
    obtain ⟨i, hlt, rfl⟩ := List.mem_iff_getElem.mp ha
    have hnumber := numbered_take h n i _ (List.getElem?_eq_getElem hlt)
    rw [List.length_take] at hlt
    rw [hnumber, decide_eq_true_eq]
    omega
  have hdrop : (log.drop n).filter (fun a => decide (number a ≤ n)) = [] := by
    apply List.filter_eq_nil_iff.mpr
    intro a ha
    rw [drop_eq_filter h n, List.mem_filter, decide_eq_true_eq] at ha
    rw [decide_eq_true_eq]
    omega
  conv_rhs =>
    rw [← List.take_append_drop n log, List.filter_append, htake, hdrop,
      List.append_nil]

end Numbered

inductive Delivery (α : Type u) where
  | item (a : α)
  | lagged (skipped : Nat)
  deriving DecidableEq, Repr

namespace Delivery

variable {α : Type u}

def item? : Delivery α → Option α
  | .item a => some a
  | .lagged _ => none

def items (deliveries : List (Delivery α)) : List α :=
  deliveries.filterMap item?

@[simp] theorem items_append (first second : List (Delivery α)) :
    items (first ++ second) = items first ++ items second :=
  List.filterMap_append

@[simp] theorem items_item (a : α) : items [.item a] = [a] := rfl

@[simp] theorem items_lagged (skipped : Nat) :
    items [(.lagged skipped : Delivery α)] = [] := rfl

end Delivery

/-- The items of the log are handed over in order, each once, if the reader
accepts them, but for the runs of items that a notice counts. -/
inductive Delivered {α : Type u} (accepts : α → Bool) :
    List α → List (Delivery α) → Prop where
  | nil : Delivered accepts [] []
  | item {log : List α} {deliveries : List (Delivery α)} (a : α) :
      Delivered accepts log deliveries → accepts a = true →
      Delivered accepts (log ++ [a]) (deliveries ++ [.item a])
  | passed {log : List α} {deliveries : List (Delivery α)} (a : α) :
      Delivered accepts log deliveries → accepts a = false →
      Delivered accepts (log ++ [a]) deliveries
  | lost {log : List α} {deliveries : List (Delivery α)} (skipped : List α) :
      Delivered accepts log deliveries → skipped ≠ [] →
      Delivered accepts (log ++ skipped)
        (deliveries ++ [.lagged skipped.length])

namespace Delivered

variable {α : Type u} {accepts : α → Bool} {log : List α}
  {deliveries : List (Delivery α)}

theorem sublist (h : Delivered accepts log deliveries) :
    (Delivery.items deliveries).Sublist (log.filter accepts) := by
  induction h with
  | nil => exact List.Sublist.refl _
  | item a _ haccepts ih =>
      rw [Delivery.items_append, List.filter_append]
      apply ih.append
      simp [haccepts]
  | passed a _ hrejects ih =>
      rw [List.filter_append]
      simpa [hrejects] using ih
  | lost skipped _ _ ih =>
      rw [Delivery.items_append, List.filter_append, Delivery.items_lagged,
        List.append_nil]
      exact ih.trans (List.sublist_append_left _ _)

theorem pairwise {r : α → α → Prop} (h : Delivered accepts log deliveries)
    (hlog : log.Pairwise r) : (Delivery.items deliveries).Pairwise r :=
  (hlog.sublist List.filter_sublist).sublist h.sublist

end Delivered

end OpenKeyV.Library
