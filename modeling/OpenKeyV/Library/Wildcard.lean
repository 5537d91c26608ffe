import Mathlib.Data.List.Infix

/-!
# Wildcard patterns

The pattern language of index expressions: `*` stands for any text, every
other character for itself.
-/

namespace OpenKeyV.Library

def wildcardChars : List Char → List Char → Bool
  | [], text => text.isEmpty
  | '*' :: pattern, text => text.tails.any (wildcardChars pattern)
  | c :: pattern, d :: text => decide (c = d) && wildcardChars pattern text
  | _ :: _, [] => false

def wildcardMatch (pattern text : String) : Bool :=
  wildcardChars pattern.toList text.toList

theorem wildcardChars_star (text : List Char) :
    wildcardChars ['*'] text = true := by
  rw [wildcardChars, List.any_eq_true]
  exact ⟨[], (List.mem_tails _ _).mpr List.nil_suffix, rfl⟩

theorem wildcardChars_lead {lead : List Char} (h : '*' ∉ lead)
    (text : List Char) :
    wildcardChars (lead ++ ['*']) text = lead.isPrefixOf text := by
  induction lead generalizing text with
  | nil => exact wildcardChars_star text
  | cons c lead ih =>
      rw [List.mem_cons, not_or] at h
      cases text with
      | nil =>
          rw [List.cons_append, wildcardChars]
          · rfl
          · exact fun hc => h.1 hc.symm
      | cons d text =>
          rw [List.cons_append, wildcardChars, ih h.2, List.isPrefixOf]
          · rfl
          · exact fun hc => h.1 hc.symm

theorem wildcardMatch_lead {lead : String} (h : '*' ∉ lead.toList)
    (text : String) :
    wildcardMatch (lead ++ "*") text = true ↔
      lead.toList <+: text.toList := by
  rw [wildcardMatch, String.toList_append,
    show "*".toList = ['*'] from rfl, wildcardChars_lead h,
    List.isPrefixOf_iff_prefix]

end OpenKeyV.Library
