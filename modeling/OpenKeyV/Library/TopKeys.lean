import Mathlib.Data.Finset.Max

/-!
# The largest members of a finite set

`topKeys n keys` are the members with fewer than `n` others above them.  It is
what is left when the smallest member is removed for as long as there are more
than `n`, and it comes out the same if it is taken in between of insertions.
-/

namespace OpenKeyV.Library

variable {α : Type*} [LinearOrder α]

def rank (keys : Finset α) (key : α) : Nat := (keys.filter (key < ·)).card

def topKeys (n : Nat) (keys : Finset α) : Finset α :=
  keys.filter fun key => rank keys key < n

section Rank

variable {keys kept : Finset α} {key other : α}

theorem rank_mono (h : kept ⊆ keys) (key : α) : rank kept key ≤ rank keys key :=
  Finset.card_le_card (Finset.filter_subset_filter _ h)

theorem rank_anti (h : key ≤ other) : rank keys other ≤ rank keys key := by
  apply Finset.card_le_card
  intro above habove
  rw [Finset.mem_filter] at habove ⊢
  exact ⟨habove.1, lt_of_le_of_lt h habove.2⟩

theorem rank_lt_card (h : key ∈ keys) : rank keys key < keys.card := by
  apply Finset.card_lt_card
  refine ⟨Finset.filter_subset _ _, fun hsub => ?_⟩
  exact lt_irrefl key (Finset.mem_filter.mp (hsub h)).2

theorem rank_insert_self (h : ∀ other ∈ keys, key < other) :
    rank (insert key keys) key = keys.card := by
  rw [rank, Finset.filter_insert, if_neg (lt_irrefl key),
    Finset.filter_true_of_mem h]

theorem rank_insert_below (h : key < other) :
    rank (insert key keys) other = rank keys other := by
  rw [rank, Finset.filter_insert, if_neg (lt_asymm h), rank]

end Rank

section Top

variable {n : Nat} {keys kept : Finset α} {key : α}

theorem mem_topKeys : key ∈ topKeys n keys ↔ key ∈ keys ∧ rank keys key < n :=
  Finset.mem_filter

theorem topKeys_subset (n : Nat) (keys : Finset α) : topKeys n keys ⊆ keys :=
  Finset.filter_subset _ _

theorem topKeys_of_card_le (h : keys.card ≤ n) : topKeys n keys = keys :=
  Finset.filter_true_of_mem fun _ hkey =>
    Nat.lt_of_lt_of_le (rank_lt_card hkey) h

theorem topKeys_insert_below (h : ∀ other ∈ keys, key < other) :
    topKeys n (insert key keys) =
      if keys.card < n then insert key (topKeys n keys)
      else topKeys n keys := by
  rw [topKeys, Finset.filter_insert, rank_insert_self h]
  have hrest : keys.filter (fun other => rank (insert key keys) other < n) =
      topKeys n keys :=
    Finset.filter_congr fun other hother => by
      rw [rank_insert_below (h other hother)]
  rw [hrest]

theorem card_topKeys (n : Nat) (keys : Finset α) :
    (topKeys n keys).card = min n keys.card := by
  induction keys using Finset.induction_on_min with
  | empty => simp [topKeys]
  | insert key keys hbelow ih =>
      have habsent : key ∉ keys := fun hmem => lt_irrefl key (hbelow key hmem)
      rw [topKeys_insert_below hbelow, Finset.card_insert_of_notMem habsent]
      split
      · rw [Finset.card_insert_of_notMem fun hmem =>
          habsent (topKeys_subset n keys hmem), ih]
        omega
      · omega

theorem lt_of_mem_topKeys {top : α} (htop : top ∈ topKeys n keys)
    (hkey : n ≤ rank keys key) : key < top := by
  by_contra hnot
  have hrank := @rank_anti _ _ keys _ _ (not_lt.mp hnot)
  exact absurd (mem_topKeys.mp htop).2 (by omega)

/-- Members may be lost between taking the top and all of them. -/
theorem topKeys_eq_of_between (hsub : topKeys n keys ⊆ kept)
    (hsup : kept ⊆ keys) : topKeys n kept = topKeys n keys := by
  ext key
  constructor
  · intro h
    obtain ⟨hkept, hrank⟩ := mem_topKeys.mp h
    by_contra hnot
    have hkey := hsup hkept
    have hlow : n ≤ rank keys key := by
      by_contra hlt
      exact hnot (mem_topKeys.mpr ⟨hkey, not_le.mp hlt⟩)
    have habove : topKeys n keys ⊆ kept.filter (key < ·) := fun top htop =>
      Finset.mem_filter.mpr ⟨hsub htop, lt_of_mem_topKeys htop hlow⟩
    have hcard := Finset.card_le_card habove
    have hlt := rank_lt_card hkey
    rw [card_topKeys] at hcard
    simp only [rank] at hrank
    omega
  · intro h
    have hrank := (mem_topKeys.mp h).2
    exact mem_topKeys.mpr
      ⟨hsub h, Nat.lt_of_le_of_lt (rank_mono hsup key) hrank⟩

theorem topKeys_topKeys_union (n : Nat) (keys added : Finset α) :
    topKeys n (topKeys n keys ∪ added) = topKeys n (keys ∪ added) := by
  apply topKeys_eq_of_between
  · intro key h
    obtain ⟨hmem, hrank⟩ := mem_topKeys.mp h
    rcases Finset.mem_union.mp hmem with hkey | hkey
    · exact Finset.mem_union_left _ (mem_topKeys.mpr ⟨hkey,
        Nat.lt_of_le_of_lt (rank_mono Finset.subset_union_left key) hrank⟩)
    · exact Finset.mem_union_right _ hkey
  · exact Finset.union_subset_union_left (topKeys_subset n keys)

/-- The top may be taken before members are removed exactly if none of them is
at the top, or all that is left is. -/
theorem topKeys_sdiff_iff (n : Nat) (keys removed : Finset α) :
    topKeys n keys \ removed = topKeys n (keys \ removed) ↔
      Disjoint (topKeys n keys) removed ∨
        keys \ removed ⊆ topKeys n keys := by
  constructor
  · intro h
    by_contra hneither
    obtain ⟨hmeet, hleft⟩ := not_or.mp hneither
    obtain ⟨left, hleft, hlow⟩ := Finset.not_subset.mp hleft
    -- What is left does not fill the top, although there is more of it.
    have hfewer : (topKeys n keys \ removed).card < (topKeys n keys).card := by
      apply Finset.card_lt_card
      refine ⟨Finset.sdiff_subset, fun hsub => hmeet ?_⟩
      exact Finset.disjoint_left.mpr fun key htop hremoved =>
        (Finset.mem_sdiff.mp (hsub htop)).2 hremoved
    have hmore : (topKeys n keys \ removed).card < (keys \ removed).card := by
      apply Finset.card_lt_card
      refine ⟨Finset.sdiff_subset_sdiff (topKeys_subset n keys) le_rfl, ?_⟩
      exact fun hsub => hlow (Finset.mem_sdiff.mp (hsub hleft)).1
    rw [h, card_topKeys, card_topKeys] at hfewer
    rw [h, card_topKeys] at hmore
    omega
  · rintro (hapart | hsub)
    · rw [sdiff_eq_left.mpr hapart]
      refine (topKeys_eq_of_between (fun key hkey => ?_)
        Finset.sdiff_subset).symm
      exact Finset.mem_sdiff.mpr ⟨topKeys_subset n keys hkey,
        Finset.disjoint_left.mp hapart hkey⟩
    · have hsame : topKeys n keys \ removed = keys \ removed := by
        apply Finset.Subset.antisymm
        · exact Finset.sdiff_subset_sdiff (topKeys_subset n keys) le_rfl
        · exact fun key hkey => Finset.mem_sdiff.mpr
            ⟨hsub hkey, (Finset.mem_sdiff.mp hkey).2⟩
      have hcard := Finset.card_le_card hsub
      rw [card_topKeys] at hcard
      rw [hsame, topKeys_of_card_le (by omega)]

end Top

end OpenKeyV.Library
