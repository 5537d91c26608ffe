import Mathlib.Data.List.Basic
import Mathlib.Data.String.Lemmas

/-!
# Cutting strings

`splitOnce` and `stripPrefix` behave like the `str` methods of the same name;
`splitAtByte n` cuts after `n` bytes of UTF-8 when a character ends there.
-/

namespace OpenKeyV.Library

def splitOnce (separator : Char) (text : String) : Option (String × String) :=
  match text.toList.dropWhile (· != separator) with
  | [] => none
  | _ :: rest =>
      some (String.ofList (text.toList.takeWhile (· != separator)),
        String.ofList rest)

def stripPrefix (lead text : String) : Option String :=
  (lead.toList.isPrefixOf? text.toList).map String.ofList

def startsWith (lead text : String) : Bool :=
  lead.toList.isPrefixOf text.toList

def takeBytes : Nat → List Char → Option (List Char × List Char)
  | 0, rest => some ([], rest)
  | _ + 1, [] => none
  | n + 1, c :: rest =>
      if c.utf8Size ≤ n + 1 then
        (takeBytes (n + 1 - c.utf8Size) rest).map fun cut =>
          (c :: cut.1, cut.2)
      else none
termination_by _ text => text.length

def splitAtByte (n : Nat) (text : String) : Option (String × String) :=
  (takeBytes n text.toList).map fun cut =>
    (String.ofList cut.1, String.ofList cut.2)

theorem splitOnce_append {separator : Char} {first second : String}
    (h : separator ∉ first.toList) :
    splitOnce separator (first ++ separator.toString ++ second) =
      some (first, second) := by
  have hall : ∀ c ∈ first.toList, (c != separator) = true := by
    intro c hc
    simp only [bne_iff_ne, ne_eq]
    rintro rfl
    exact h hc
  simp only [splitOnce, String.toList_append, Char.toString,
    String.toList_singleton, List.append_assoc, List.singleton_append]
  rw [List.dropWhile_append_of_pos hall, List.takeWhile_append_of_pos hall]
  simp

@[simp] theorem stripPrefix_append (lead text : String) :
    stripPrefix lead (lead ++ text) = some text := by
  have hlist (l r : List Char) : l.isPrefixOf? (l ++ r) = some r := by
    induction l with
    | nil => rfl
    | cons c l ih => simp [List.isPrefixOf?, ih]
  simp [stripPrefix, hlist]

theorem takeBytes_append (l r : List Char) :
    takeBytes (String.ofList l).utf8ByteSize (l ++ r) = some (l, r) := by
  induction l with
  | nil => simp [takeBytes]
  | cons c l ih =>
      have hsize : (String.ofList (c :: l)).utf8ByteSize =
          (String.ofList l).utf8ByteSize + c.utf8Size := by
        rw [show c :: l = [c] ++ l from rfl, String.ofList_append,
          String.utf8ByteSize_append, ← String.singleton_eq_ofList,
          String.utf8ByteSize_singleton, Nat.add_comm]
      have hpos := c.utf8Size_pos
      obtain ⟨n, hn⟩ : ∃ n, (String.ofList (c :: l)).utf8ByteSize = n + 1 :=
        ⟨_, (Nat.succ_pred_eq_of_pos (by omega)).symm⟩
      have hrest : n + 1 - c.utf8Size = (String.ofList l).utf8ByteSize := by
        omega
      rw [hn, List.cons_append, takeBytes, if_pos (by omega), hrest, ih]
      rfl

@[simp] theorem splitAtByte_append (first second : String) :
    splitAtByte first.utf8ByteSize (first ++ second) =
      some (first, second) := by
  have h := takeBytes_append first.toList second.toList
  rw [String.ofList_toList] at h
  simp [splitAtByte, h]

theorem stripPrefix_eq_some {lead text rest : String} :
    stripPrefix lead text = some rest ↔ text = lead ++ rest := by
  constructor
  · intro h
    simp only [stripPrefix, Option.map_eq_some_iff] at h
    obtain ⟨chars, hchars, rfl⟩ := h
    apply String.toList_injective
    rw [String.toList_append, String.toList_ofList]
    exact (List.isPrefixOf?_eq_some_iff_append_eq.mp hchars).symm
  · rintro rfl
    exact stripPrefix_append lead rest

theorem startsWith_iff {lead text : String} :
    startsWith lead text = true ↔ ∃ rest, text = lead ++ rest := by
  rw [startsWith, List.isPrefixOf_iff_prefix]
  constructor
  · rintro ⟨rest, h⟩
    refine ⟨String.ofList rest, String.toList_injective ?_⟩
    rw [String.toList_append, String.toList_ofList, h]
  · rintro ⟨rest, rfl⟩
    exact ⟨rest.toList, String.toList_append.symm⟩

theorem splitOnce_eq_some {separator : Char} {text first second : String}
    (h : splitOnce separator text = some (first, second)) :
    text = first ++ separator.toString ++ second := by
  unfold splitOnce at h
  have hall := List.takeWhile_append_dropWhile
    (p := (· != separator)) (l := text.toList)
  split at h
  · cases h
  · rename_i c rest hdrop
    simp only [Option.some.injEq, Prod.mk.injEq] at h
    obtain ⟨rfl, rfl⟩ := h
    have hc : c = separator := by
      have hne : text.toList.dropWhile (· != separator) ≠ [] := by
        simp [hdrop]
      have hhead := List.head_dropWhile_not (· != separator) hne
      simpa [hdrop] using hhead
    apply String.toList_injective
    rw [String.toList_append, String.toList_append, String.toList_ofList,
      String.toList_ofList, Char.toString, String.toList_singleton]
    rw [hdrop, hc] at hall
    simpa using hall.symm

theorem takeBytes_eq_some {n : Nat} {text l r : List Char}
    (h : takeBytes n text = some (l, r)) :
    text = l ++ r ∧ (String.ofList l).utf8ByteSize = n := by
  induction n, text using takeBytes.induct generalizing l with
  | case1 rest =>
      simp only [takeBytes, Option.some.injEq, Prod.mk.injEq] at h
      obtain ⟨rfl, rfl⟩ := h
      exact ⟨rfl, rfl⟩
  | case2 n => simp [takeBytes] at h
  | case3 n c rest hle ih =>
      rw [takeBytes, if_pos hle, Option.map_eq_some_iff] at h
      obtain ⟨⟨l', r'⟩, hcut, heq⟩ := h
      simp only [Prod.mk.injEq] at heq
      obtain ⟨rfl, rfl⟩ := heq
      obtain ⟨rfl, hsize⟩ := ih hcut
      refine ⟨rfl, ?_⟩
      rw [show c :: l' = [c] ++ l' from rfl, String.ofList_append,
        String.utf8ByteSize_append, ← String.singleton_eq_ofList,
        String.utf8ByteSize_singleton, hsize]
      omega
  | case4 n c rest hlt =>
      rw [takeBytes, if_neg hlt] at h
      cases h

theorem splitAtByte_eq_some {n : Nat} {text first second : String}
    (h : splitAtByte n text = some (first, second)) :
    text = first ++ second ∧ first.utf8ByteSize = n := by
  simp only [splitAtByte, Option.map_eq_some_iff] at h
  obtain ⟨⟨l, r⟩, hcut, heq⟩ := h
  simp only [Prod.mk.injEq] at heq
  obtain ⟨rfl, rfl⟩ := heq
  obtain ⟨htext, hsize⟩ := takeBytes_eq_some hcut
  refine ⟨?_, hsize⟩
  apply String.toList_injective
  rw [String.toList_append, String.toList_ofList, String.toList_ofList, htext]

theorem append_ne_append {first second : String} (n : Nat)
    (hfirst : n < first.toList.length) (hsecond : n < second.toList.length)
    (hne : first.toList[n]? ≠ second.toList[n]?) (x y : String) :
    first ++ x ≠ second ++ y := by
  intro h
  have hchars : first.toList ++ x.toList = second.toList ++ y.toList := by
    rw [← String.toList_append, h, String.toList_append]
  apply hne
  rw [← List.getElem?_append_left hfirst, hchars,
    List.getElem?_append_left hsecond]

theorem utf8ByteSize_ofList {chars : List Char}
    (h : ∀ c ∈ chars, c.utf8Size = 1) :
    (String.ofList chars).utf8ByteSize = chars.length := by
  induction chars with
  | nil => rfl
  | cons c chars ih =>
      have hc := h c (List.mem_cons_self ..)
      rw [show c :: chars = [c] ++ chars from rfl, String.ofList_append,
        String.utf8ByteSize_append, ← String.singleton_eq_ofList,
        String.utf8ByteSize_singleton, hc,
        ih fun d hd => h d (List.mem_cons_of_mem _ hd)]
      simp [Nat.add_comm]

end OpenKeyV.Library
