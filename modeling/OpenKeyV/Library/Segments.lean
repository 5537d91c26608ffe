import Mathlib.Data.String.Lemmas
import Mathlib.Data.List.Basic

/-!
# Texts cut at a separator or into chunks

`splitOn` and `joinWith` undo each other where no part has the separator in
it.  `chunks` cuts a list into pieces of one length, except for the last.
-/

namespace OpenKeyV.Library

/-- `str::split` at a character. -/
def splitOn (separator : Char) (text : String) : List String :=
  (text.toList.splitOn separator).map String.ofList

/-- `[String]::join`. -/
def joinWith (separator : Char) (parts : List String) : String :=
  String.ofList ([separator].intercalate (parts.map String.toList))

section Separator

variable {separator : Char}

variable (separator) in
@[simp] theorem joinWith_splitOn (text : String) :
    joinWith separator (splitOn separator text) = text := by
  simp [joinWith, splitOn, Function.comp_def]

variable (separator) in
theorem splitOn_append (first second : String) :
    splitOn separator (first ++ separator.toString ++ second) =
      splitOn separator first ++ splitOn separator second := by
  have hlist : (first ++ separator.toString ++ second).toList =
      first.toList ++ separator :: second.toList := by
    simp [Char.toString]
  rw [splitOn, hlist, List.splitOn_append_cons_self, List.map_append]
  rfl

theorem splitOn_joinWith {parts : List String} (hne : parts ≠ [])
    (hparts : ∀ part ∈ parts, separator ∉ part.toList) :
    splitOn separator (joinWith separator parts) = parts := by
  rw [splitOn, joinWith, String.toList_ofList, List.splitOn_intercalate]
  · simp [Function.comp_def]
  · simpa using hparts
  · simpa using hne

@[simp] theorem joinWith_singleton (part : String) :
    joinWith separator [part] = part := by
  simp [joinWith]

theorem joinWith_cons {parts : List String} (part : String)
    (hne : parts ≠ []) :
    joinWith separator (part :: parts) =
      part ++ separator.toString ++ joinWith separator parts := by
  apply String.toList_injective
  rw [joinWith, List.map_cons, List.intercalate_cons_of_ne_nil (by simpa)]
  simp [joinWith, Char.toString]

theorem joinWith_append {first second : List String} (hfirst : first ≠ [])
    (hsecond : second ≠ []) :
    joinWith separator (first ++ second) =
      joinWith separator first ++ separator.toString ++
        joinWith separator second := by
  induction first with
  | nil => exact absurd rfl hfirst
  | cons part first ih =>
      rw [List.cons_append]
      cases first with
      | nil => rw [List.nil_append, joinWith_cons part hsecond,
          joinWith_singleton]
      | cons next first =>
          rw [joinWith_cons part (by simp), joinWith_cons part (by simp),
            ih (by simp)]
          simp only [String.append_assoc]

end Separator

section Chunks

variable {α : Type*} {n : Nat}

def chunks (n : Nat) (items : List α) : List (List α) :=
  (List.range ((items.length + n - 1) / n)).map fun i =>
    (items.drop (i * n)).take n

@[simp] theorem length_chunks (n : Nat) (items : List α) :
    (chunks n items).length = (items.length + n - 1) / n := by
  simp [chunks]

theorem chunks_nil (hn : 0 < n) : chunks n ([] : List α) = [] := by
  have hzero : (0 + n - 1) / n = 0 := Nat.div_eq_of_lt (by omega)
  rw [chunks, List.length_nil, hzero]
  rfl

theorem chunks_of_ne_nil (hn : 0 < n) {items : List α} (hne : items ≠ []) :
    chunks n items = items.take n :: chunks n (items.drop n) := by
  have hpos := List.length_pos_of_ne_nil hne
  have hcount : (items.length + n - 1) / n =
      ((items.drop n).length + n - 1) / n + 1 := by
    rw [List.length_drop]
    rcases Nat.le_total items.length n with hle | hle
    · have hone : (items.length + n - 1) / n = 1 :=
        Nat.div_eq_of_lt_le (by omega) (by omega)
      rw [hone, Nat.sub_eq_zero_of_le hle, Nat.div_eq_of_lt (by omega)]
    · rw [← Nat.add_div_right _ hn]
      congr 1
      omega
  rw [chunks, hcount, List.range_succ_eq_map, List.map_cons, List.map_map]
  simp only [chunks, Nat.zero_mul, List.drop_zero, Function.comp_def,
    List.drop_drop, Nat.succ_eq_add_one, Nat.add_mul, Nat.one_mul,
    Nat.add_comm]

theorem flatten_chunks (hn : 0 < n) (items : List α) :
    (chunks n items).flatten = items := by
  induction hlength : items.length using Nat.strongRecOn generalizing items with
  | ind length ih =>
      by_cases hne : items = []
      · rw [hne, chunks_nil hn, List.flatten_nil]
      · have hpos := List.length_pos_of_ne_nil hne
        rw [chunks_of_ne_nil hn hne, List.flatten_cons,
          ih (items.drop n).length (by rw [List.length_drop]; omega) _ rfl,
          List.take_append_drop]

def Chunked (n : Nat) : List (List α) → Prop
  | [] => True
  | [last] => 0 < last.length ∧ last.length ≤ n
  | part :: parts => part.length = n ∧ Chunked n parts

theorem Chunked.congr {β : Type*} {parts : List (List α)}
    {parts' : List (List β)} (h : Chunked n parts)
    (hlength : parts.map List.length = parts'.map List.length) :
    Chunked n parts' := by
  induction parts generalizing parts' with
  | nil =>
      cases parts' with
      | nil => trivial
      | cons part' parts' => cases hlength
  | cons part parts ih =>
      cases parts' with
      | nil => cases hlength
      | cons part' parts' =>
          obtain ⟨hpart, hparts⟩ := List.cons.inj hlength
          cases parts with
          | nil =>
              cases parts' with
              | nil => exact ⟨hpart ▸ h.1, hpart ▸ h.2⟩
              | cons next' parts' => cases hparts
          | cons next parts =>
              cases parts' with
              | nil => cases hparts
              | cons next' parts' => exact ⟨hpart ▸ h.1, ih h.2 hparts⟩

theorem chunked_chunks (hn : 0 < n) (items : List α) :
    Chunked n (chunks n items) := by
  induction hlength : items.length using Nat.strongRecOn generalizing items with
  | ind length ih =>
      by_cases hne : items = []
      · rw [hne, chunks_nil hn]
        trivial
      · have hpos := List.length_pos_of_ne_nil hne
        have hrest := ih (items.drop n).length
          (by rw [List.length_drop]; omega) _ rfl
        rw [chunks_of_ne_nil hn hne]
        by_cases hmore : items.drop n = []
        · rw [hmore, chunks_nil hn]
          rw [List.drop_eq_nil_iff] at hmore
          refine ⟨?_, ?_⟩ <;> rw [List.length_take] <;> omega
        · rw [List.drop_eq_nil_iff] at hmore
          rw [chunks_of_ne_nil hn (by rwa [Ne, List.drop_eq_nil_iff])]
            at hrest ⊢
          refine ⟨?_, hrest⟩
          rw [List.length_take]
          omega

theorem chunks_flatten (hn : 0 < n) {parts : List (List α)}
    (h : Chunked n parts) : chunks n parts.flatten = parts := by
  induction parts with
  | nil => exact chunks_nil hn
  | cons part parts ih =>
      cases parts with
      | nil =>
          obtain ⟨hpos, hle⟩ := h
          rw [List.flatten_cons, List.flatten_nil, List.append_nil,
            chunks_of_ne_nil hn (List.ne_nil_of_length_pos hpos),
            List.take_of_length_le hle, List.drop_of_length_le hle,
            chunks_nil hn]
      | cons next parts =>
          obtain ⟨hlength, hrest⟩ := h
          have hne : part ++ (next :: parts).flatten ≠ [] := by
            intro hnil
            have hpart := (List.append_eq_nil_iff.mp hnil).1
            rw [hpart, List.length_nil] at hlength
            omega
          rw [List.flatten_cons, chunks_of_ne_nil hn hne,
            List.take_left' hlength, List.drop_left' hlength, ih hrest]

end Chunks

end OpenKeyV.Library
