import OpenKeyV.Error
import OpenKeyV.Memory.Store
import Mathlib.Data.Finset.Card

/-!
# What an enumeration owes its caller

A store answers an enumeration with one page of the names that it holds.  An
enumeration over several stores honours its limit if it lists distinct names,
no more than asked for, and none that no store has.
-/

namespace OpenKeyV

open Memory

abbrev Answer := Except Error (List String)

def Page (found : Finset String) (limit : Option Nat) (answer : Answer) :
    Prop :=
  ∃ names, answer = .ok names ∧ names.Nodup ∧ names.toFinset ⊆ found ∧
    names.length = min (pageLen limit) found.card

/-- How many of `total` names a limit lets through. -/
def within (limit : Option Nat) (total : Nat) : Nat :=
  limit.elim total fun n => min n total

/-- The names are distinct, within the limit and among those `found`; they are
as many as the limit lets through if nothing exceeds a page. -/
def Honours (limit : Option Nat) (found : Finset String) (fits : Prop)
    (answer : Answer) : Prop :=
  ∃ names, answer = .ok names ∧ names.Nodup ∧
    (∀ n, limit = some n → names.length ≤ n) ∧
    (∀ name ∈ names, name ∈ found) ∧
    (fits → names.length = within limit found.card)

section Pages

variable {found : Finset String} {limit : Option Nat}

theorem toFinset_of_fits {names : List String} (hnodup : names.Nodup)
    (hsub : names.toFinset ⊆ found)
    (hlength : names.length = min pageLimit found.card)
    (hfits : found.card ≤ pageLimit) : names.toFinset = found := by
  apply Finset.eq_of_subset_of_card_le hsub
  rw [List.toFinset_card_of_nodup hnodup, hlength]
  omega

theorem eq_nil_of_honours {fits : Prop} {names : List String}
    (h : Honours (some 0) found fits (.ok names)) : names = [] := by
  obtain ⟨_, heq, -, hlength, -⟩ := h
  cases heq
  exact List.length_eq_zero_iff.mp (Nat.le_zero.mp (hlength 0 rfl))

theorem honours_nil (limit : Option Nat) (fits : Prop) :
    Honours limit ∅ fits (.ok []) := by
  refine ⟨[], rfl, .nil, by simp, by simp, fun _ => ?_⟩
  cases limit <;> simp [within]

theorem Honours.perm {fits : Prop} {names names' : List String}
    (h : Honours limit found fits (.ok names)) (hperm : names.Perm names') :
    Honours limit found fits (.ok names') := by
  obtain ⟨_, heq, hnodup, hlength, hknown, hexact⟩ := h
  cases heq
  rw [hperm.length_eq] at hlength hexact
  exact ⟨names', rfl, hperm.nodup_iff.mp hnodup, hlength,
    fun name hname => hknown name (hperm.mem_iff.mpr hname), hexact⟩

/-- A store that obeys the limit itself honours it. -/
theorem Page.honours {answer : Answer} (h : Page found limit answer) :
    Honours limit found (found.card ≤ pageLimit) answer := by
  obtain ⟨names, rfl, hnodup, hsub, hlength⟩ := h
  refine ⟨names, rfl, hnodup, ?_, fun name hname =>
    hsub (List.mem_toFinset.mpr hname), fun hfits => ?_⟩
  · rintro n rfl
    rw [hlength, pageLen, Option.getD_some]
    omega
  · rw [hlength]
    cases limit with
    | none =>
        simp only [pageLen, Option.getD_none, within, Option.elim_none,
          defaultPageSize, pageLimit] at hfits ⊢
        omega
    | some n =>
        simp only [pageLen, Option.getD_some, within, Option.elim_some]
        omega

end Pages

structure Lister where
  keys : Option String → Option Nat → Answer
  collections : Option Nat → Answer
  keySet : Option String → Finset String
  collectionSet : Finset String
  keys_page : ∀ collection limit,
    Page (keySet collection) limit (keys collection limit)
  collections_page : ∀ limit, Page collectionSet limit (collections limit)

def union (sets : List (Finset String)) : Finset String :=
  sets.foldr (· ∪ ·) ∅

theorem mem_union {sets : List (Finset String)} {name : String} :
    name ∈ union sets ↔ ∃ found ∈ sets, name ∈ found := by
  induction sets with
  | nil => simp [union]
  | cons found sets ih =>
      rw [union, List.foldr_cons, ← union, Finset.mem_union, ih]
      simp

theorem union_eq_empty {sets : List (Finset String)} :
    union sets = ∅ ↔ ∀ found ∈ sets, found = ∅ := by
  constructor
  · intro h found hfound
    refine Finset.eq_empty_of_forall_notMem fun name hname => ?_
    have hmem := mem_union.mpr ⟨found, hfound, hname⟩
    rw [h] at hmem
    exact Finset.notMem_empty name hmem
  · intro h
    refine Finset.eq_empty_of_forall_notMem fun name hname => ?_
    obtain ⟨found, hfound, hmem⟩ := mem_union.mp hname
    rw [h found hfound] at hmem
    exact Finset.notMem_empty name hmem

end OpenKeyV
