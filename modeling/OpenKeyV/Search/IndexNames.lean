import OpenKeyV.Library.Hex
import OpenKeyV.Library.Text
import OpenKeyV.Library.Utf8
import OpenKeyV.Library.Wildcard

/-!
# Index names

`OpenSearchStore` and the Python `ElasticsearchStore` name the index of a
collection alike: the prefix of the store, a marker, and the bytes of the
collection in hexadecimal.  The digits hold no dash, so that the marker is
found from the right.
-/

namespace OpenKeyV.Search

open Library

def marker : String := "-okv1-"

def indexName (lead collection : String) : String :=
  lead ++ marker ++ Hex.encode (utf8 collection)

theorem dash_notMem_hex (bytes : List UInt8) :
    '-' ∉ Hex.encodeChars bytes := by
  intro hmem
  exact absurd (Hex.mem_alphabet_of_mem_encodeChars hmem) (by decide)

theorem cut_last {α : Type} {a : α} {x y z w : List α} (hz : a ∉ z)
    (hw : a ∉ w) (h : x ++ a :: z = y ++ a :: w) : x = y ∧ z = w := by
  obtain ⟨c, hy, hc⟩ | ⟨c, hx, hc⟩ := List.append_eq_append_iff.mp h
  · cases c with
    | nil =>
        rw [List.append_nil] at hy
        exact ⟨hy.symm, (List.cons.inj hc).2⟩
    | cons b c =>
        have hmem : a ∈ z := by
          rw [(List.cons.inj hc).2]
          exact List.mem_append_right _ (List.mem_cons_self ..)
        exact absurd hmem hz
  · cases c with
    | nil =>
        rw [List.append_nil] at hx
        exact ⟨hx, (List.cons.inj hc).2.symm⟩
    | cons b c =>
        have hmem : a ∈ w := by
          rw [(List.cons.inj hc).2]
          exact List.mem_append_right _ (List.mem_cons_self ..)
        exact absurd hmem hw

theorem toList_indexName (lead collection : String) :
    (indexName lead collection).toList =
      (lead ++ "-okv1").toList ++ '-' :: Hex.encodeChars (utf8 collection) := by
  simp only [indexName, Hex.encode, String.toList_append, String.toList_ofList,
    List.append_assoc]
  rfl

theorem append_hex_inj {lead other : String} {bytes digits : List UInt8}
    (h : lead ++ marker ++ Hex.encode bytes =
      other ++ marker ++ Hex.encode digits) :
    lead = other ∧ bytes = digits := by
  have hchars : (lead ++ "-okv1").toList ++ '-' :: Hex.encodeChars bytes =
      (other ++ "-okv1").toList ++ '-' :: Hex.encodeChars digits := by
    have htext := congrArg String.toList h
    simp only [Hex.encode, String.toList_append, String.toList_ofList,
      List.append_assoc] at htext ⊢
    exact htext
  obtain ⟨hlead, hhex⟩ := cut_last (dash_notMem_hex _) (dash_notMem_hex _)
    hchars
  refine ⟨String.append_left_inj _ |>.mp (String.toList_injective hlead), ?_⟩
  exact Hex.encode_injective (congrArg String.ofList hhex)

theorem indexName_inj {lead other collection name : String} :
    indexName lead collection = indexName other name ↔
      lead = other ∧ collection = name := by
  constructor
  · intro h
    obtain ⟨hlead, hbytes⟩ := append_hex_inj h
    exact ⟨hlead, utf8_injective hbytes⟩
  · rintro ⟨rfl, rfl⟩
    rfl

/-- A text with a dash behind it begins an index name where the dash is one
of the prefix or one of the two in the marker. -/
theorem dash_lead_iff {text lead collection : String} :
    (text ++ "-").toList <+: (indexName lead collection).toList ↔
      text = lead ∨ (∃ rest, lead = text ++ "-" ++ rest) ∨
        text = lead ++ "-okv1" := by
  constructor
  · rintro ⟨tail, htail⟩
    have hdash : "-".toList = ['-'] := rfl
    rw [toList_indexName, String.toList_append, List.append_assoc,
      String.toList_append, List.append_assoc, hdash] at htail
    obtain ⟨c, hlead, hc⟩ | ⟨c, htext, hc⟩ :=
      List.append_eq_append_iff.mp htail
    · cases c with
      | nil =>
          rw [List.append_nil] at hlead
          exact .inl (String.toList_injective hlead.symm)
      | cons d c =>
          obtain ⟨rfl, -⟩ := List.cons.inj hc
          refine .inr (.inl ⟨String.ofList c, String.toList_injective ?_⟩)
          rw [hlead, String.toList_append, String.toList_append,
            String.toList_ofList, List.append_assoc, List.singleton_append,
            String.toList_ofList]
    · -- The text ends inside the marker or the digits, in front of a dash.
      have hplace : c = [] ∨ c = "-okv1".toList := by
        obtain ⟨e, hmarker, he⟩ | ⟨e, hover, he⟩ :=
          List.append_eq_append_iff.mp hc
        · cases e with
          | nil =>
              rw [List.append_nil] at hmarker
              exact .inr hmarker
          | cons d e =>
              have hmem : '-' ∈ Hex.encodeChars (utf8 collection) := by
                rw [(List.cons.inj he).2]
                exact List.mem_append_right _ (List.mem_cons_self ..)
              exact absurd hmem (dash_notMem_hex _)
        · cases e with
          | nil =>
              rw [List.append_nil] at hover
              exact .inr hover.symm
          | cons d e =>
              obtain ⟨rfl, -⟩ := List.cons.inj he
              cases c with
              | nil => exact .inl rfl
              | cons d c =>
                  have htail : "okv1".toList = c ++ '-' :: e :=
                    (List.cons.inj hover).2
                  have hmem : '-' ∈ "okv1".toList := by
                    rw [htail]
                    exact List.mem_append_right _ (List.mem_cons_self ..)
                  exact absurd hmem (by decide)
      obtain rfl | rfl := hplace
      · rw [List.append_nil] at htext
        exact .inl (String.toList_injective htext)
      · refine .inr (.inr (String.toList_injective ?_))
        rw [htext, String.toList_append]
  · rintro (rfl | ⟨rest, rfl⟩ | rfl)
    · refine ⟨"okv1".toList ++ '-' :: Hex.encodeChars (utf8 collection), ?_⟩
      rw [toList_indexName]
      simp only [String.toList_append, List.append_assoc]
      rfl
    · refine ⟨rest.toList ++ "-okv1".toList ++
        '-' :: Hex.encodeChars (utf8 collection), ?_⟩
      rw [toList_indexName]
      simp only [String.toList_append, List.append_assoc]
    · refine ⟨Hex.encodeChars (utf8 collection), ?_⟩
      rw [toList_indexName]
      simp only [String.toList_append, List.append_assoc]
      rfl

end OpenKeyV.Search
