import Mathlib.Data.List.AList

/-!
# Finite maps with pruning

Non-dependent association lists without repeated keys.  Mathlib supplies
lookup, insertion and erasure; this file adds the number of entries and the
removal of every entry that fails a test, with the lemmas that describe both
through `lookup`.
-/

namespace OpenKeyV.Library

universe u v

abbrev KeyedMap (κ : Type u) (α : Type v) := AList (fun _ : κ => α)

namespace KeyedMap

variable {κ : Type u} {α : Type v}

def size (m : KeyedMap κ α) : Nat := m.keys.length

def retain (p : κ → α → Bool) (m : KeyedMap κ α) : KeyedMap κ α :=
  ⟨m.entries.filter fun e => p e.1 e.2,
    m.nodupKeys.sublist List.filter_sublist⟩

def mapValues {β : Type v} (f : α → β) (m : KeyedMap κ α) : KeyedMap κ β :=
  ⟨m.entries.map fun e => ⟨e.1, f e.2⟩, by
    rw [List.NodupKeys, List.keys, List.map_map]
    exact m.nodupKeys⟩

@[simp] theorem size_empty : size (∅ : KeyedMap κ α) = 0 := rfl

theorem keys_retain_sublist (p : κ → α → Bool) (m : KeyedMap κ α) :
    (retain p m).keys.Sublist m.keys :=
  List.filter_sublist.map _

theorem size_congr {m m' : KeyedMap κ α} (h : ∀ k, k ∈ m.keys ↔ k ∈ m'.keys) :
    size m = size m' :=
  ((List.perm_ext_iff_of_nodup m.keys_nodup m'.keys_nodup).mpr h).length_eq

theorem keys_retain (p : κ → Bool) (m : KeyedMap κ α) :
    (retain (fun k _ => p k) m).keys = m.keys.filter p := by
  simp only [retain, AList.keys, List.keys, List.filter_map]
  rfl

variable [DecidableEq κ]

@[simp] theorem lookup_insert_eq (m : KeyedMap κ α) (k k' : κ) (v : α) :
    (m.insert k v).lookup k' = if k' = k then some v else m.lookup k' := by
  split
  · subst k'
    exact AList.lookup_insert m
  · exact AList.lookup_insert_ne (by assumption)

@[simp] theorem lookup_erase_eq (m : KeyedMap κ α) (k k' : κ) :
    (m.erase k).lookup k' = if k' = k then none else m.lookup k' := by
  split
  · subst k'
    exact AList.lookup_erase k m
  · exact AList.lookup_erase_ne (by assumption)

private theorem dlookup_filter (p : κ → α → Bool) (k : κ) :
    ∀ entries : List (Sigma fun _ : κ => α), entries.NodupKeys →
      (entries.filter fun e => p e.1 e.2).dlookup k =
        (entries.dlookup k).filter (p k)
  | [], _ => rfl
  | ⟨k', v⟩ :: rest, h => by
      have hrest := dlookup_filter p k rest (List.nodupKeys_cons.mp h).2
      by_cases hk : k = k'
      · subst k'
        have habsent : rest.dlookup k = none :=
          List.dlookup_eq_none.mpr (List.nodupKeys_cons.mp h).1
        cases hp : p k v <;> simp [hp, hrest, habsent, Option.filter]
      · have hskip (l : List (Sigma fun _ : κ => α)) :
            (⟨k', v⟩ :: l).dlookup k = l.dlookup k :=
          List.dlookup_cons_ne l ⟨k', v⟩ hk
        cases hp : p k' v <;> simp [hp, hskip, hrest]

@[simp] theorem lookup_retain (p : κ → α → Bool) (m : KeyedMap κ α) (k : κ) :
    (retain p m).lookup k = (m.lookup k).filter (p k) :=
  dlookup_filter p k m.entries m.nodupKeys

private theorem dlookup_map {β : Type v} (f : α → β) (k : κ) :
    ∀ entries : List (Sigma fun _ : κ => α),
      (entries.map fun e => (⟨e.1, f e.2⟩ : Sigma fun _ : κ => β)).dlookup k =
        (entries.dlookup k).map f
  | [] => rfl
  | ⟨k', v⟩ :: rest => by
      have hrest := dlookup_map f k rest
      by_cases hk : k = k'
      · subst hk
        simp
      · have hskip (γ : Type v) (l : List (Sigma fun _ : κ => γ)) (w : γ) :
            (⟨k', w⟩ :: l).dlookup k = l.dlookup k :=
          List.dlookup_cons_ne l ⟨k', w⟩ hk
        rw [List.map_cons, hskip, hskip]
        exact hrest

@[simp] theorem lookup_mapValues {β : Type v} (f : α → β) (m : KeyedMap κ α)
    (k : κ) : (mapValues f m).lookup k = (m.lookup k).map f :=
  dlookup_map f k m.entries

theorem mem_keys_iff {m : KeyedMap κ α} {k : κ} :
    k ∈ m.keys ↔ ∃ v, m.lookup k = some v := by
  rw [← AList.mem_keys, ← AList.lookup_isSome, Option.isSome_iff_exists]

def eraseAll (m : KeyedMap κ α) (ks : List κ) : KeyedMap κ α :=
  ks.foldl (fun m k => m.erase k) m

theorem mem_keys_eraseAll {m : KeyedMap κ α} {ks : List κ} {k : κ} :
    k ∈ (m.eraseAll ks).keys ↔ k ∈ m.keys ∧ k ∉ ks := by
  induction ks generalizing m with
  | nil => simp [eraseAll]
  | cons k' ks ih =>
      rw [eraseAll, List.foldl_cons, ← eraseAll, ih, AList.keys_erase,
        m.keys_nodup.mem_erase_iff, List.mem_cons, not_or]
      constructor
      · rintro ⟨⟨hne, hmem⟩, hrest⟩
        exact ⟨hmem, hne, hrest⟩
      · rintro ⟨hmem, hne, hrest⟩
        exact ⟨⟨hne, hmem⟩, hrest⟩

theorem mem_keys_retain {p : κ → α → Bool} {m : KeyedMap κ α} {k : κ} :
    k ∈ (retain p m).keys ↔ k ∈ m.keys ∧ (m.lookup k).any (p k) = true := by
  rw [mem_keys_iff, mem_keys_iff, lookup_retain]
  cases m.lookup k <;> simp [Option.filter_eq_some_iff]

theorem lookup_eraseAll {m : KeyedMap κ α} {ks : List κ} {k : κ} :
    (m.eraseAll ks).lookup k = if k ∈ ks then none else m.lookup k := by
  induction ks generalizing m with
  | nil => rfl
  | cons k' ks ih =>
      rw [eraseAll, List.foldl_cons, ← eraseAll, ih, lookup_erase_eq]
      by_cases hrest : k ∈ ks
      · rw [if_pos hrest, if_pos (List.mem_cons_of_mem _ hrest)]
      · rw [if_neg hrest]
        by_cases hfirst : k = k'
        · rw [if_pos hfirst, if_pos (hfirst ▸ List.mem_cons_self ..)]
        · rw [if_neg hfirst, if_neg]
          exact fun hmem => hrest ((List.mem_cons.mp hmem).resolve_left hfirst)

theorem size_insert_of_mem {m : KeyedMap κ α} {k : κ} (v : α)
    (h : k ∈ m.keys) : size (m.insert k v) = size m := by
  have hpos : 0 < m.keys.length := List.length_pos_of_mem h
  simp only [size, AList.keys_insert, List.length_cons,
    List.length_erase_of_mem h]
  omega

theorem size_insert_of_notMem {m : KeyedMap κ α} {k : κ} (v : α)
    (h : k ∉ m.keys) : size (m.insert k v) = size m + 1 := by
  simp [size, AList.keys_insert, List.erase_of_not_mem h]

theorem size_erase_of_mem {m : KeyedMap κ α} {k : κ} (h : k ∈ m.keys) :
    size (m.erase k) = size m - 1 := by
  simp [size, AList.keys_erase, List.length_erase_of_mem h]

theorem size_erase_le (m : KeyedMap κ α) (k : κ) :
    size (m.erase k) ≤ size m := by
  simpa [size, AList.keys_erase] using List.erase_sublist.length_le

end KeyedMap

end OpenKeyV.Library
