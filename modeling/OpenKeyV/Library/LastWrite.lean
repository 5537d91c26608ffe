import OpenKeyV.Library.KeyedMap

/-!
# The last write of each key

A batch that writes each key once, with the item that comes last in its list,
leaves what the items leave one after the other, in whatever order it writes
them.
-/

namespace OpenKeyV.Library

universe u v w x

variable {ι : Type u} {κ : Type v} {α : Type w} [DecidableEq κ]

section LastWith

variable (key : ι → κ)

def lastWith : List ι → κ → Option ι
  | [], _ => none
  | item :: items, k =>
      (lastWith items k).or (if key item = k then some item else none)

variable {key}

theorem lastWith_eq_none {items : List ι} {k : κ} :
    lastWith key items k = none ↔ k ∉ items.map key := by
  induction items with
  | nil => simp [lastWith]
  | cons item items ih =>
      rw [lastWith, Option.or_eq_none_iff, ih, List.map_cons, List.mem_cons,
        not_or]
      by_cases hkey : key item = k
      · simp [hkey]
      · simp [hkey, Ne.symm hkey]

theorem lastWith_mem {items : List ι} {k : κ} {item : ι}
    (h : lastWith key items k = some item) : item ∈ items ∧ key item = k := by
  induction items with
  | nil => cases h
  | cons first items ih =>
      rw [lastWith, Option.or_eq_some_iff] at h
      rcases h with h | ⟨-, h⟩
      · exact ⟨List.mem_cons_of_mem _ (ih h).1, (ih h).2⟩
      · split at h
        · cases h
          exact ⟨List.mem_cons_self, by assumption⟩
        · cases h

theorem lookup_foldl_insert (f : ι → α) (items : List ι) (m : KeyedMap κ α)
    (k : κ) :
    (items.foldl (fun m item => m.insert (key item) (f item)) m).lookup k =
      ((lastWith key items k).map f).or (m.lookup k) := by
  induction items generalizing m with
  | nil => simp [lastWith]
  | cons item items ih =>
      rw [List.foldl_cons, ih, KeyedMap.lookup_insert_eq, lastWith]
      cases lastWith key items k with
      | some last => simp
      | none =>
          by_cases hkey : k = key item
          · simp [hkey]
          · simp [hkey, Ne.symm hkey]

variable {μ : Type x} [DecidableEq μ] {g : κ → μ}

theorem lastWith_comp (hg : g.Injective) (items : List ι) (k : κ) :
    lastWith (fun item => g (key item)) items (g k) =
      lastWith key items k := by
  induction items with
  | nil => rfl
  | cons item items ih => simp only [lastWith, ih, hg.eq_iff]

theorem lastWith_forall₂ {ι' : Type*} {key' : ι' → μ} {R : ι → ι' → Prop}
    {items : List ι} {items' : List ι'} (h : List.Forall₂ R items items')
    {k : κ} {k' : μ} (hkey : ∀ item item', R item item' →
      (key item = k ↔ key' item' = k')) :
    Option.Rel R (lastWith key items k) (lastWith key' items' k') := by
  induction h with
  | nil => exact .none
  | @cons item item' items items' hfirst _ ih =>
      rw [lastWith, lastWith]
      rcases hlast : lastWith key items k with _ | last <;>
        rcases hlast' : lastWith key' items' k' with _ | last' <;>
        rw [hlast, hlast'] at ih <;> cases ih
      · by_cases heq : key item = k
        · rw [if_pos heq, if_pos ((hkey item item' hfirst).mp heq)]
          exact .some hfirst
        · rw [if_neg heq, if_neg fun h => heq ((hkey item item' hfirst).mpr h)]
          exact .none
      · rename_i hrel
        exact .some hrel

end LastWith

/-- The chosen items are the last ones of their keys, each of them once. -/
structure LastWrites (key : ι → κ) (items chosen : List ι) : Prop where
  nodup : (chosen.map key).Nodup
  mem_iff : ∀ item,
    item ∈ chosen ↔ lastWith key items (key item) = some item

namespace LastWrites

variable {key : ι → κ} {items chosen chosen' : List ι}

theorem nil : LastWrites key [] [] :=
  ⟨.nil, fun item => by simp [lastWith]⟩

theorem perm (h : LastWrites key items chosen) (hperm : chosen'.Perm chosen) :
    LastWrites key items chosen' :=
  ⟨(hperm.map key).nodup_iff.mpr h.nodup, fun item =>
    hperm.mem_iff.trans (h.mem_iff item)⟩

theorem subset (h : LastWrites key items chosen) : chosen ⊆ items :=
  fun item hitem => (lastWith_mem ((h.mem_iff item).mp hitem)).1

theorem cons_skip {item : ι} (h : LastWrites key items chosen)
    (hlater : key item ∈ items.map key) :
    LastWrites key (item :: items) chosen := by
  refine ⟨h.nodup, fun item' => (h.mem_iff item').trans ?_⟩
  rw [lastWith]
  cases hlast : lastWith key items (key item') with
  | some last => rfl
  | none =>
      rw [lastWith_eq_none] at hlast
      have hne : key item ≠ key item' := fun heq => hlast (heq ▸ hlater)
      simp [hne]

theorem cons_keep {item : ι} (h : LastWrites key items chosen)
    (hlast : key item ∉ items.map key) :
    LastWrites key (item :: items) (item :: chosen) := by
  constructor
  · rw [List.map_cons, List.nodup_cons]
    refine ⟨fun hmem => hlast ?_, h.nodup⟩
    obtain ⟨other, hother, heq⟩ := List.mem_map.mp hmem
    exact List.mem_map.mpr ⟨other, h.subset hother, heq⟩
  · intro item'
    rw [List.mem_cons, h.mem_iff, lastWith]
    by_cases hkey : key item = key item'
    · have hnone : lastWith key items (key item') = none :=
        lastWith_eq_none.mpr (hkey ▸ hlast)
      simp [hnone, hkey, eq_comm]
    · have hne : item' ≠ item := fun heq => hkey (heq ▸ rfl)
      simp [hkey, hne]

theorem self_of_nodup (h : (items.map key).Nodup) :
    LastWrites key items items := by
  induction items with
  | nil => exact nil
  | cons item items ih =>
      rw [List.map_cons, List.nodup_cons] at h
      exact (ih h.2).cons_keep h.1

theorem lastWith_eq (h : LastWrites key items chosen) (k : κ) :
    lastWith key chosen k = lastWith key items k := by
  have hself := self_of_nodup h.nodup
  cases hlast : lastWith key items k with
  | some item =>
      obtain ⟨-, rfl⟩ := lastWith_mem hlast
      exact (hself.mem_iff item).mp ((h.mem_iff item).mpr hlast)
  | none =>
      rw [lastWith_eq_none] at hlast ⊢
      intro hmem
      obtain ⟨item, hitem, rfl⟩ := List.mem_map.mp hmem
      exact hlast (List.mem_map.mpr ⟨item, h.subset hitem, rfl⟩)

theorem comp {μ : Type x} [DecidableEq μ] {g : κ → μ}
    (h : LastWrites key items chosen) (hg : g.Injective) :
    LastWrites (fun item => g (key item)) items chosen := by
  constructor
  · have hmap := h.nodup.map hg
    rwa [List.map_map] at hmap
  · intro item
    rw [lastWith_comp hg]
    exact h.mem_iff item

/-- The batch leaves what all items leave in their order. -/
theorem lookup_eq (h : LastWrites key items chosen) (f : ι → α)
    (m : KeyedMap κ α) (k : κ) :
    (chosen.foldl (fun m item => m.insert (key item) (f item)) m).lookup k =
      (items.foldl (fun m item => m.insert (key item) (f item)) m).lookup
        k := by
  rw [lookup_foldl_insert, lookup_foldl_insert, h.lastWith_eq]

end LastWrites

section Distinct

variable (key : ι → κ)

def distinctFrom : List κ → List ι → List ι
  | _, [] => []
  | seen, item :: items =>
      if key item ∈ seen then distinctFrom seen items
      else item :: distinctFrom (key item :: seen) items

variable {key}

theorem mem_distinctFrom {seen : List κ} {items : List ι} {item : ι}
    (h : item ∈ distinctFrom key seen items) :
    item ∈ items ∧ key item ∉ seen := by
  induction items generalizing seen with
  | nil => cases h
  | cons first items ih =>
      rw [distinctFrom] at h
      split at h
      · exact ⟨List.mem_cons_of_mem _ (ih h).1, (ih h).2⟩
      · rename_i hnew
        rcases List.mem_cons.mp h with rfl | h
        · exact ⟨List.mem_cons_self, hnew⟩
        · exact ⟨List.mem_cons_of_mem _ (ih h).1, fun hmem =>
            (ih h).2 (List.mem_cons_of_mem _ hmem)⟩

theorem distinctFrom_nodup (seen : List κ) (items : List ι) :
    ((distinctFrom key seen items).map key).Nodup := by
  induction items generalizing seen with
  | nil => exact .nil
  | cons item items ih =>
      rw [distinctFrom]
      split
      · exact ih seen
      · rw [List.map_cons, List.nodup_cons]
        refine ⟨fun hmem => ?_, ih _⟩
        obtain ⟨other, hother, heq⟩ := List.mem_map.mp hmem
        exact (mem_distinctFrom hother).2 (heq ▸ List.mem_cons_self)

theorem keys_distinctFrom (seen : List κ) (items : List ι) (k : κ) :
    k ∈ (distinctFrom key seen items).map key ↔
      k ∈ items.map key ∧ k ∉ seen := by
  induction items generalizing seen with
  | nil => simp [distinctFrom]
  | cons item items ih =>
      rw [distinctFrom, List.map_cons, List.mem_cons]
      split
      · rename_i hseen
        rw [ih]
        constructor
        · exact fun h => ⟨.inr h.1, h.2⟩
        · rintro ⟨rfl | h, hnot⟩
          · exact absurd hseen hnot
          · exact ⟨h, hnot⟩
      · rename_i hnew
        rw [List.map_cons, List.mem_cons, ih, List.mem_cons, not_or]
        by_cases hk : k = key item
        · simp [hk, hnew]
        · simp [hk]

theorem lastWith_append (first second : List ι) (k : κ) :
    lastWith key (first ++ second) k =
      (lastWith key second k).or (lastWith key first k) := by
  induction first with
  | nil => simp [lastWith]
  | cons item first ih => rw [List.cons_append, lastWith, ih, lastWith,
      Option.or_assoc]

theorem lastWrites_distinct (items : List ι) :
    LastWrites key items (distinctFrom key [] items.reverse).reverse := by
  have hkept : ∀ (seen : List κ) (rest : List ι) (item : ι),
      item ∈ distinctFrom key seen rest ↔ key item ∉ seen ∧
        lastWith key rest.reverse (key item) = some item := by
    intro seen rest
    induction rest generalizing seen with
    | nil => simp [distinctFrom, lastWith]
    | cons first rest ih =>
        intro item
        rw [distinctFrom, List.reverse_cons, lastWith_append]
        simp only [lastWith, Option.none_or]
        split
        · rename_i hseen
          rw [ih]
          by_cases hkey : key first = key item
          · simp [hkey ▸ hseen]
          · simp [hkey]
        · rename_i hnew
          rw [List.mem_cons, ih, List.mem_cons, not_or]
          by_cases hkey : key first = key item
          · simp [hkey, hkey ▸ hnew, eq_comm]
          · have hne : item ≠ first := fun heq => hkey (heq ▸ rfl)
            simp [hkey, hne, Ne.symm hkey]
  refine ⟨?_, fun item => ?_⟩
  · rw [List.map_reverse, List.nodup_reverse]
    exact distinctFrom_nodup [] items.reverse
  · rw [List.mem_reverse, hkept, List.reverse_reverse]
    simp

end Distinct

end OpenKeyV.Library
