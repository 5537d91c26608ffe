import Mathlib.Data.List.Lex
import Mathlib.Data.List.Perm.Basic
import Mathlib.Data.List.Sort

/-!
# Lists sorted by a key

`sortBy key` sorts by a key from a linear order.  Lists whose keys are distinct
have one sorted order, whatever order they are listed in.
-/

namespace OpenKeyV.Library

variable {α β κ : Type*} [LinearOrder κ] (key : α → κ)

def sortBy (items : List α) : List α :=
  items.insertionSort fun a b => key a ≤ key b

def SortedBy (items : List α) : Prop :=
  items.Pairwise fun a b => key a ≤ key b

def StrictBy (items : List α) : Prop :=
  items.Pairwise fun a b => key a < key b

theorem sortBy_perm (items : List α) : (sortBy key items).Perm items :=
  List.perm_insertionSort _ items

@[simp] theorem mem_sortBy {items : List α} {a : α} :
    a ∈ sortBy key items ↔ a ∈ items :=
  (sortBy_perm key items).mem_iff

@[simp] theorem length_sortBy (items : List α) :
    (sortBy key items).length = items.length :=
  (sortBy_perm key items).length_eq

theorem sortBy_sorted (items : List α) : SortedBy key (sortBy key items) := by
  have : Std.Total fun a b : α => key a ≤ key b :=
    ⟨fun a b => le_total (key a) (key b)⟩
  have : IsTrans α fun a b => key a ≤ key b := ⟨fun _ _ _ => le_trans⟩
  exact List.pairwise_insertionSort _ items

variable {key} {items items' : List α}

theorem SortedBy.sortBy_eq (h : SortedBy key items) : sortBy key items = items :=
  List.Pairwise.insertionSort_eq h

theorem StrictBy.sorted (h : StrictBy key items) : SortedBy key items :=
  h.imp le_of_lt

theorem StrictBy.nodup (h : StrictBy key items) : (items.map key).Nodup :=
  List.pairwise_map.mpr (h.imp ne_of_lt)

theorem SortedBy.strict (h : SortedBy key items)
    (hnodup : (items.map key).Nodup) : StrictBy key items :=
  (h.and (List.pairwise_map.mp hnodup)).imp fun hboth =>
    lt_of_le_of_ne hboth.1 hboth.2

theorem SortedBy.strict_of_chain (h : SortedBy key items)
    (hchain : items.IsChain fun a b => key a ≠ key b) : StrictBy key items := by
  have htrans : IsTrans α fun a b => key a < key b := ⟨fun _ _ _ => lt_trans⟩
  refine List.isChain_iff_pairwise.mp ?_
  induction items with
  | nil => exact List.IsChain.nil
  | cons a items ih =>
      cases items with
      | nil => exact List.IsChain.singleton a
      | cons b items =>
          rw [List.isChain_cons_cons] at hchain ⊢
          have hle := (List.pairwise_cons.mp h).1 b (List.mem_cons_self ..)
          exact ⟨lt_of_le_of_ne hle hchain.1, ih h.of_cons hchain.2⟩

theorem StrictBy.eq_of_perm (h : StrictBy key items) (h' : StrictBy key items')
    (hperm : items.Perm items') : items = items' :=
  hperm.eq_of_pairwise (fun _ _ _ _ hab hba => absurd hba (lt_asymm hab)) h h'

theorem sortBy_strict (h : (items.map key).Nodup) :
    StrictBy key (sortBy key items) :=
  (sortBy_sorted key items).strict
    (((sortBy_perm key items).map key).nodup_iff.mpr h)

theorem sortBy_eq_of_perm (h : (items.map key).Nodup)
    (hperm : items.Perm items') : sortBy key items = sortBy key items' := by
  have h' : (items'.map key).Nodup := (hperm.map key).nodup_iff.mp h
  exact (sortBy_strict h).eq_of_perm (sortBy_strict h')
    ((sortBy_perm key items).trans (hperm.trans (sortBy_perm key items').symm))

theorem map_sortBy {key' : β → κ} {f : α → β}
    (hkey : ∀ a, key' (f a) = key a) (items : List α) :
    (sortBy key items).map f = sortBy key' (items.map f) :=
  List.map_insertionSort _ _ f items fun a _ b _ => by rw [hkey, hkey]

end OpenKeyV.Library
