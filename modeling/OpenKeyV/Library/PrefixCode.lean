import Mathlib.Data.List.Basic

/-!
# Prefix-free codes

A code is prefix-free when no code word begins another one, so a word can be
cut off the front of any text in one way only.
-/

namespace OpenKeyV.Library

variable {α β : Type*}

/-- The words of `a` and `b` begin one text only when they are the same. -/
def PrefixFreeAt (code : α → List β) (a b : α) : Prop :=
  ∀ x y, code a ++ x = code b ++ y → a = b ∧ x = y

theorem prefixFreeAt_flatMap {code : α → List β} {as bs : List α}
    (hlength : as.length = bs.length)
    (h : ∀ a ∈ as, ∀ b ∈ bs, PrefixFreeAt code a b) :
    PrefixFreeAt (fun items => items.flatMap code) as bs := by
  intro x y heq
  induction as generalizing bs with
  | nil =>
      obtain rfl := List.eq_nil_of_length_eq_zero hlength.symm
      exact ⟨rfl, heq⟩
  | cons a as ih =>
      cases bs with
      | nil => cases hlength
      | cons b bs =>
          simp only [List.flatMap_cons, List.append_assoc] at heq
          obtain ⟨rfl, htail⟩ := h a (List.mem_cons_self ..) b
            (List.mem_cons_self ..) _ _ heq
          obtain ⟨rfl, hrest⟩ := ih (Nat.succ.inj hlength)
            (fun a ha b hb => h a (List.mem_cons_of_mem _ ha) b
              (List.mem_cons_of_mem _ hb)) htail
          exact ⟨rfl, hrest⟩

end OpenKeyV.Library
