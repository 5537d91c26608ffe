import Mathlib.Algebra.BigOperators.Group.List.Basic
import Mathlib.Algebra.GroupWithZero.Nat
import Mathlib.Data.List.Infix

/-!
# The longest start of a list that fits

Every member of a list has a weight.  `fitting` takes members from the front
while their weights stay within a budget, and `bisect` finds the last
candidate that passes a test by halving an interval.
-/

namespace OpenKeyV.Library

variable {α β : Type}

section Fitting

variable (weight : α → Nat)

def total (items : List α) : Nat := (items.map weight).sum

def fitting : Nat → List α → List α
  | _, [] => []
  | budget, item :: items =>
      if weight item ≤ budget then
        item :: fitting (budget - weight item) items
      else []

variable {weight} {budget : Nat} {items start : List α}

@[simp] theorem total_nil : total weight [] = 0 := rfl

@[simp] theorem total_cons (item : α) (items : List α) :
    total weight (item :: items) = weight item + total weight items :=
  rfl

@[simp] theorem total_append (first second : List α) :
    total weight (first ++ second) =
      total weight first + total weight second := by
  rw [total, List.map_append, List.sum_append]
  rfl

theorem total_eq_length (h : ∀ item ∈ items, weight item = 1) :
    total weight items = items.length := by
  induction items with
  | nil => rfl
  | cons item items ih =>
      rw [total_cons, h item List.mem_cons_self,
        ih fun other ho => h other (List.mem_cons_of_mem _ ho),
        List.length_cons, Nat.add_comm]

theorem total_le_of_start (h : start <+: items) :
    total weight start ≤ total weight items := by
  obtain ⟨rest, rfl⟩ := h
  rw [total_append]
  exact Nat.le_add_right _ _

theorem fitting_start : fitting weight budget items <+: items := by
  induction items generalizing budget with
  | nil => exact List.nil_prefix
  | cons item items ih =>
      rw [fitting]
      split
      · exact (List.prefix_cons_inj item).mpr ih
      · exact List.nil_prefix

theorem total_fitting :
    total weight (fitting weight budget items) ≤ budget := by
  induction items generalizing budget with
  | nil => exact Nat.zero_le _
  | cons item items ih =>
      rw [fitting]
      split
      · have hrest := @ih (budget - weight item)
        rw [total_cons]
        omega
      · exact Nat.zero_le _

theorem prefix_fitting (h : start <+: items)
    (hfits : total weight start ≤ budget) :
    start <+: fitting weight budget items := by
  induction items generalizing budget start with
  | nil => exact h
  | cons item items ih =>
      cases start with
      | nil => exact List.nil_prefix
      | cons first rest =>
          obtain ⟨rfl, hrest⟩ := List.cons_prefix_cons.mp h
          rw [total_cons] at hfits
          rw [fitting, if_pos (by omega)]
          exact (List.prefix_cons_inj first).mpr (ih hrest (by omega))

theorem fitting_eq_take (h : ∀ item ∈ items, weight item = 1) :
    fitting weight budget items = items.take budget := by
  induction items generalizing budget with
  | nil => rw [fitting, List.take_nil]
  | cons item items ih =>
      rw [fitting, h item List.mem_cons_self]
      cases budget with
      | zero => rfl
      | succ n =>
          rw [if_pos (Nat.le_add_left 1 n), List.take_succ_cons]
          exact congrArg (item :: ·)
            (ih fun other ho => h other (List.mem_cons_of_mem _ ho))

theorem fitting_map (f : β → α) (items : List β) :
    fitting weight budget (items.map f) =
      (fitting (fun item => weight (f item)) budget items).map f := by
  induction items generalizing budget with
  | nil => rfl
  | cons item items ih =>
      rw [List.map_cons, fitting, fitting]
      split
      · rw [ih, List.map_cons]
      · rfl

theorem total_take_le_iff {n : Nat} (hn : n ≤ items.length) :
    total weight (items.take n) ≤ budget ↔
      n ≤ (fitting weight budget items).length := by
  constructor
  · intro hfits
    have hlength := (prefix_fitting (List.take_prefix n items) hfits).length_le
    rwa [List.length_take, Nat.min_eq_left hn] at hlength
  · intro hlength
    have htake : items.take n <+: fitting weight budget items :=
      List.prefix_of_prefix_length_le (List.take_prefix n items)
        fitting_start (by
          rw [List.length_take]
          exact (Nat.min_le_left _ _).trans hlength)
    exact (total_le_of_start htake).trans total_fitting

theorem take_length_fitting :
    items.take (fitting weight budget items).length =
      fitting weight budget items :=
  (List.prefix_iff_eq_take.mp fitting_start).symm

theorem fitting_eq_self (h : total weight items ≤ budget) :
    fitting weight budget items = items :=
  (fitting_start.eq_of_length_le
    (prefix_fitting (List.prefix_refl items) h).length_le)

end Fitting

/-- The last candidate of the interval that passes, or `result`. -/
def bisect (candidate : Int → β) (passes : β → Bool) (left right : Int)
    (result : β) : β :=
  if left ≤ right then
    let mid := (left + right) / 2
    if passes (candidate mid) then
      bisect candidate passes (mid + 1) right (candidate mid)
    else bisect candidate passes left (mid - 1) result
  else result
termination_by (right + 1 - left).toNat

variable {candidate : Int → β} {passes : β → Bool}

/-- In an interval where just the candidates up to `last` pass, the search
finds `last`. -/
theorem bisect_eq {left right last : Int} {result : β}
    (hleft : left - 1 ≤ last) (hright : last ≤ right)
    (h : ∀ i, left ≤ i → i ≤ right → (passes (candidate i) = true ↔ i ≤ last)) :
    bisect candidate passes left right result =
      if left ≤ last then candidate last else result := by
  fun_induction bisect candidate passes left right result with
  | case1 left right result hle mid hpasses ih =>
      have hmid : mid ≤ last := (h mid (by omega) (by omega)).mp hpasses
      rw [ih (by omega) hright fun i hi hi' => h i (by omega) hi',
        if_pos (by omega : left ≤ last)]
      split
      · rfl
      · rw [show mid = last by omega]
  | case2 left right result hle mid hpasses ih =>
      have hmid : ¬ mid ≤ last := fun hmid =>
        hpasses ((h mid (by omega) (by omega)).mpr hmid)
      exact ih hleft (by omega) fun i hi hi' => h i hi (by omega)
  | case3 left right result hle =>
      rw [if_neg (by omega)]

end OpenKeyV.Library
