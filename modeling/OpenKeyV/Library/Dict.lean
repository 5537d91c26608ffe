import Mathlib.Data.List.Basic

/-!
# Dictionaries in the order of insertion

A dictionary is the list of its items.  Assigning to a key that is there
keeps its place.
-/

namespace OpenKeyV.Library

universe u v

abbrev Dict (κ : Type u) (α : Type v) := List (κ × α)

namespace Dict

variable {κ : Type u} {α : Type v} [DecidableEq κ]

def set (key : κ) (value : α) (dict : Dict κ α) : Dict κ α :=
  if dict.any fun item => item.1 = key then
    dict.map fun item => if item.1 = key then (key, value) else item
  else dict ++ [(key, value)]

def update : List (κ × α) → Dict κ α → Dict κ α
  | [], dict => dict
  | item :: items, dict => update items (dict.set item.1 item.2)

def fromKeys (keys : List κ) (value : α) : Dict κ α :=
  update (keys.map fun key => (key, value)) []

def get? (dict : Dict κ α) (key : κ) : Option α :=
  (dict.find? fun item => item.1 = key).map Prod.snd

theorem mem_set {key other : κ} {value a : α} {dict : Dict κ α} :
    (other, a) ∈ dict.set key value ↔
      other = key ∧ a = value ∨ other ≠ key ∧ (other, a) ∈ dict := by
  unfold set
  split
  · rename_i hany
    obtain ⟨item, hitem, hkey⟩ := List.any_eq_true.mp hany
    rw [decide_eq_true_iff] at hkey
    rw [List.mem_map]
    constructor
    · rintro ⟨item', hitem', hsame⟩
      split at hsame
      · cases hsame
        exact .inl ⟨rfl, rfl⟩
      · rename_i hne
        subst hsame
        exact .inr ⟨hne, hitem'⟩
    · rintro (⟨rfl, rfl⟩ | ⟨hne, hmem⟩)
      · exact ⟨item, hitem, if_pos hkey⟩
      · exact ⟨(other, a), hmem, if_neg hne⟩
  · rename_i hany
    rw [List.mem_append, List.mem_singleton, Prod.mk.injEq, or_comm]
    refine or_congr_right (iff_and_self.mpr fun hmem => ?_)
    rintro rfl
    exact hany (List.any_eq_true.mpr ⟨_, hmem, decide_eq_true rfl⟩)

end Dict

end OpenKeyV.Library
