import OpenKeyV.Library.Utf8
import Mathlib.Data.List.Lex
import Mathlib.Order.Lattice

/-!
# Scans of sorted keys

In lexicographic order the keys that begin alike follow each other, and a scan
from the common beginning meets them first.
-/

namespace OpenKeyV.Library

theorem takeWhile_eq_filter {α : Type*} {p : α → Bool} {l : List α}
    (h : l.Pairwise fun a b => p b = true → p a = true) :
    l.takeWhile p = l.filter p := by
  induction l with
  | nil => rfl
  | cons a l ih =>
      obtain ⟨hhead, htail⟩ := List.pairwise_cons.mp h
      by_cases ha : p a = true
      · rw [List.takeWhile_cons_of_pos ha, List.filter_cons_of_pos ha, ih htail]
      · rw [List.takeWhile_cons_of_neg ha, List.filter_cons_of_neg ha]
        exact (List.filter_eq_nil_iff.mpr fun b hb hpass =>
          ha (hhead b hb hpass)).symm

variable {α : Type*} [LinearOrder α]

theorem lt_of_not_isPrefix {lead key other : List α} (hfrom : ¬ key < lead)
    (hkey : ¬ lead <+: key) (hother : lead <+: other) : other < key := by
  induction lead generalizing key other with
  | nil => exact absurd List.nil_prefix hkey
  | cons a lead ih =>
      obtain ⟨rest, rfl⟩ := hother
      cases key with
      | nil => exact absurd (List.nil_lt_cons a lead) hfrom
      | cons b key =>
          rw [List.cons_lt_cons_iff, not_or, not_and] at hfrom
          rw [List.cons_append, List.cons_lt_cons_iff]
          rcases lt_or_eq_of_le (not_lt.mp hfrom.1) with hless | rfl
          · exact .inl hless
          · refine .inr ⟨rfl, ih (hfrom.2 rfl) (fun hprefix => hkey ?_) ?_⟩
            · exact List.cons_prefix_cons.mpr ⟨rfl, hprefix⟩
            · exact List.prefix_append lead rest

theorem not_lt_of_isPrefix {lead key : List α} (h : lead <+: key) :
    ¬ key < lead := by
  obtain ⟨rest, rfl⟩ := h
  induction lead with
  | nil => exact List.not_lt_nil _
  | cons a lead ih =>
      rw [List.cons_append, List.cons_lt_cons_iff, not_or, not_and]
      exact ⟨lt_irrefl a, fun _ => ih⟩

theorem exists_append_of_utf8_prefix {lead text : String}
    (h : utf8 lead <+: utf8 text) : ∃ rest, text = lead ++ rest := by
  obtain ⟨bytes, hbytes⟩ := h
  have hencode : lead.toList.utf8Encode ++ ⟨bytes.toArray⟩ =
      text.toList.utf8Encode := by
    rw [String.utf8Encode_toList, String.utf8Encode_toList]
    apply ByteArray.ext
    apply Array.toList_inj.mp
    simpa [utf8] using hbytes
  obtain ⟨chars, hchars⟩ :=
    List.isPrefix_of_utf8Encode_append_eq_utf8Encode _ hencode
  refine ⟨String.ofList chars, String.toList_injective ?_⟩
  rw [String.toList_append, String.toList_ofList, hchars]

end OpenKeyV.Library
