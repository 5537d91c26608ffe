import Mathlib.Data.List.Dedup
import Mathlib.Data.List.Perm.Basic
import Mathlib.Data.Finset.Card
import Mathlib.Data.List.Count

/-!
# Pages of a collection in no particular order

A page is the first `n` elements in an order that is not known.  What every
page shows of a property, or of the values of a function, is decided by how
many of the other elements there are.
-/

namespace OpenKeyV.Library.Page

variable {α β : Type} {l l' : List α} {n : Nat}

theorem length_filter_take (p : α → Bool) (n : Nat) (h : l'.Perm l) :
    min n l.length ≤ ((l'.take n).filter p).length +
      (l.filter fun a => !p a).length := by
  have hsplit : (l'.take n).length = ((l'.take n).filter p).length +
      ((l'.take n).filter fun a => !p a).length :=
    List.length_eq_length_filter_add p
  have hrest : ((l'.take n).filter fun a => !p a).length ≤
      (l.filter fun a => !p a).length := by
    have hsub := ((List.take_sublist n l').filter fun a => !p a).length_le
    rwa [(h.filter fun a => !p a).length_eq] at hsub
  rw [List.length_take, h.length_eq] at hsplit
  omega

def last (p : α → Bool) (l : List α) : List α :=
  (l.filter fun a => !p a) ++ l.filter p

theorem last_perm (p : α → Bool) (l : List α) : (last p l).Perm l :=
  List.perm_append_comm.trans (List.filter_append_perm p l)

theorem length_filter_take_last (p : α → Bool) (n : Nat) (l : List α) :
    (((last p l).take n).filter p).length =
      min (n - (l.filter fun a => !p a).length) (l.filter p).length := by
  have hothers : ((l.filter fun a => !p a).take n).filter p = [] := by
    refine List.filter_eq_nil_iff.mpr fun a ha => ?_
    have := (List.mem_filter.mp (List.mem_of_mem_take ha)).2
    simpa using this
  have hsame : ((l.filter p).take
      (n - (l.filter fun a => !p a).length)).filter p =
      (l.filter p).take (n - (l.filter fun a => !p a).length) := by
    refine List.filter_eq_self.mpr fun a ha => ?_
    exact (List.mem_filter.mp (List.mem_of_mem_take ha)).2
  rw [last, List.take_append, List.filter_append, hothers, hsame,
    List.nil_append, List.length_take]

/-- Every page shows `m` elements with the property exactly if they fit
behind all others. -/
theorem forall_page_filter {p : α → Bool} {m : Nat}
    (hm : m ≤ (l.filter p).length) :
    (∀ l' : List α, l'.Perm l → m ≤ ((l'.take n).filter p).length) ↔
      m = 0 ∨ m + (l.filter fun a => !p a).length ≤ n := by
  have hsplit : l.length = (l.filter p).length +
      (l.filter fun a => !p a).length := List.length_eq_length_filter_add p
  constructor
  · intro h
    have hlast := h (last p l) (last_perm p l)
    rw [length_filter_take_last] at hlast
    omega
  · intro h l' hperm
    have hpage := length_filter_take p n hperm
    omega

theorem take_filterMap (f : α → Option β) (l : List α)
    (h : ∀ a ∈ l, (f a).isSome = true) (n : Nat) :
    (l.take n).filterMap f = (l.filterMap f).take n := by
  induction l generalizing n with
  | nil => simp
  | cons a l ih =>
      obtain ⟨hfirst, hrest⟩ := List.forall_mem_cons.mp h
      obtain ⟨b, hb⟩ := Option.isSome_iff_exists.mp hfirst
      cases n with
      | zero => rfl
      | succ n =>
          simp only [List.take_succ_cons, List.filterMap_cons, hb, ih hrest]

theorem filterMap_filter_isSome (f : α → Option β) (l : List α) :
    (l.filter fun a => (f a).isSome).filterMap f = l.filterMap f := by
  induction l with
  | nil => rfl
  | cons a l ih =>
      cases h : f a with
      | none => simp [h, ih]
      | some b => simp [h, ih]

theorem take_filterMap_page (f : α → Option β) {k : Nat}
    (h : min k (min n (l.filterMap f).length) = 0 ∨
      min k (min n (l.filterMap f).length) +
        (l.filter fun a => !(f a).isSome).length ≤ n) :
    ((l.take n).filterMap f).take k =
      (((l.filter fun a => (f a).isSome).take n).filterMap f).take k := by
  let own := l.filter fun a => (f a).isSome
  have hown : ∀ a ∈ own, (f a).isSome = true := fun a ha =>
    (List.mem_filter.mp ha).2
  have hlength : own.length = (l.filterMap f).length := by
    rw [← filterMap_filter_isSome]
    exact (List.filterMap_length_eq_length.mpr hown).symm
  -- What a page shows of its own is the beginning of a page of its own.
  have hcut : (l.take n).filter (fun a => (f a).isSome) =
      own.take ((l.take n).filter fun a => (f a).isSome).length :=
    List.prefix_iff_eq_take.mp ((List.take_prefix n l).filter _)
  have hpage := length_filter_take (fun a => (f a).isSome) n (.refl l)
  have hfew : ((l.take n).filter fun a => (f a).isSome).length ≤ own.length :=
    ((List.take_sublist n l).filter _).length_le
  have hshort : ((l.take n).filter fun a => (f a).isSome).length ≤ n :=
    (List.length_filter_le ..).trans (List.length_take_le ..)
  have hsplit : l.length = own.length +
      (l.filter fun a => !(f a).isSome).length :=
    List.length_eq_length_filter_add _
  rw [← filterMap_filter_isSome f (l.take n), hcut, take_filterMap f own hown,
    take_filterMap f own hown, List.take_take, List.take_take,
    List.take_eq_take_iff, filterMap_filter_isSome]
  omega

section Distinct

variable [DecidableEq β] (f : α → β)

/-- Every page shows `m` values exactly if fewer values never fill it. -/
theorem forall_page_distinct {m : Nat} :
    (∀ l' : List α, l'.Perm l → m ≤ ((l'.take n).map f).dedup.length) ↔
      ∀ values : List β, values.length < m →
        (l.filter fun a => f a ∈ values).length < min n l.length := by
  constructor
  · intro h values hfew
    by_contra hfull
    let p := fun a => !decide (f a ∈ values)
    have hshown := h (last p l) (last_perm p l)
    have hinside : ∀ a ∈ (last p l).take n, f a ∈ values := by
      intro a ha
      have hsplit : l.length = (l.filter fun a => f a ∈ values).length +
          (l.filter p).length := List.length_eq_length_filter_add _
      have hfirst : (l.filter fun a => !p a) =
          l.filter fun a => f a ∈ values := by simp [p]
      rw [last, hfirst, List.take_append] at ha
      rcases List.mem_append.mp ha with ha | ha
      · simpa using (List.mem_filter.mp (List.mem_of_mem_take ha)).2
      · have hlen := List.length_pos_of_mem ha
        rw [List.length_take] at hlen
        omega
    have hle : (((last p l).take n).map f).dedup.length ≤ values.length := by
      refine (List.subperm_of_subset (List.nodup_dedup _) ?_).length_le
      intro b hb
      obtain ⟨a, ha, rfl⟩ := List.mem_map.mp (List.mem_dedup.mp hb)
      exact hinside a ha
    omega
  · intro h l' hperm
    by_contra hfew
    have hless := h ((l'.take n).map f).dedup (by omega)
    have hself : (l'.take n).filter
        (fun a => f a ∈ ((l'.take n).map f).dedup) = l'.take n := by
      refine List.filter_eq_self.mpr fun a ha => ?_
      exact decide_eq_true (List.mem_dedup.mpr (List.mem_map_of_mem ha))
    have hsub := ((List.take_sublist n l').filter
      fun a => f a ∈ ((l'.take n).map f).dedup).length_le
    rw [hself, List.length_take, hperm.length_eq,
      (hperm.filter _).length_eq] at hsub
    omega

end Distinct

end OpenKeyV.Library.Page
