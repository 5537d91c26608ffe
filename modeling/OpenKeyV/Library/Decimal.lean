import Mathlib.Algebra.Group.Int.Defs
import Mathlib.Algebra.GroupWithZero.Nat
import Mathlib.Data.List.Basic
import Mathlib.Data.List.Induction

/-!
# Decimal text of integers

`parseUnsigned bits` and `parseSigned bits` read the text of a machine
integer of the given width the way `str::parse` does: an optional sign, then
digits only.
-/

namespace OpenKeyV.Library

def allDigits (text : List Char) : Bool :=
  !text.isEmpty && text.all Char.isDigit

def stripPlus : List Char → List Char
  | '+' :: rest => rest
  | text => text

def parseUnsigned (bits : Nat) (text : String) : Option Nat :=
  let digits := stripPlus text.toList
  if allDigits digits = true ∧ Nat.ofDigitChars 10 digits 0 < 2 ^ bits then
    some (Nat.ofDigitChars 10 digits 0)
  else none

def parseSigned (bits : Nat) (text : String) : Option Int :=
  match text.toList with
  | '-' :: digits =>
      if allDigits digits = true ∧
          Nat.ofDigitChars 10 digits 0 ≤ 2 ^ (bits - 1) then
        some (-Nat.ofDigitChars 10 digits 0)
      else none
  | _ => (parseUnsigned (bits - 1) text).map Int.ofNat

@[simp] theorem allDigits_toDigits (n : Nat) :
    allDigits (Nat.toDigits 10 n) = true := by
  simp only [allDigits, Bool.and_eq_true, Bool.not_eq_true',
    List.isEmpty_eq_false_iff, List.all_eq_true]
  refine ⟨Nat.toDigits_ne_nil, fun c hc => ?_⟩
  exact Nat.isDigit_of_mem_toDigits (by omega) (by omega) hc

theorem head_toDigits_ne_zero (n : Nat) (h : 0 < n) :
    (Nat.toDigits 10 n).head? ≠ some '0' := by
  induction n using Nat.strongRecOn with
  | ind n ih =>
      by_cases hlt : n < 10
      · rw [Nat.toDigits_of_lt_base hlt]
        simp only [List.head?_cons, ne_eq, Option.some.injEq,
          Nat.digitChar_eq_zero]
        omega
      · rw [Nat.toDigits_of_base_le (by omega) (by omega),
          List.head?_append_of_ne_nil _ Nat.toDigits_ne_nil]
        exact ih (n / 10) (by omega) (by omega)

private theorem toDigits_digit {c : Char} (h : c.isDigit = true) :
    Nat.toDigits 10 (c.toNat - '0'.toNat) = [c] ∧ c.toNat - '0'.toNat < 10 := by
  have hbounds : 48 ≤ c.toNat ∧ c.toNat ≤ 57 := by
    simp only [Char.isDigit, Bool.and_eq_true, decide_eq_true_eq] at h
    exact ⟨h.1, h.2⟩
  have hlt : c.toNat - '0'.toNat < 10 := by
    have : '0'.toNat = 48 := rfl
    omega
  refine ⟨?_, hlt⟩
  rw [Nat.toDigits_of_lt_base hlt]
  congr 1
  apply Char.toNat_inj.mp
  have hdigit := Nat.toNat_digitChar_sub_48_of_lt_ten hlt
  have hpos : 48 ≤ (c.toNat - '0'.toNat).digitChar.toNat := by
    have hvalue : (c.toNat - '0'.toNat).digitChar.isDigit = true := by
      apply Nat.isDigit_of_mem_toDigits (b := 10)
        (n := c.toNat - '0'.toNat) (by omega) (by omega)
      rw [Nat.toDigits_of_lt_base hlt]
      exact List.mem_singleton_self _
    simp only [Char.isDigit, Bool.and_eq_true, decide_eq_true_eq] at hvalue
    exact hvalue.1
  have : '0'.toNat = 48 := rfl
  omega

private theorem ofDigitChars_pos {text : List Char} {c : Char}
    (h : c.isDigit = true) (hzero : c ≠ '0') :
    0 < Nat.ofDigitChars 10 (c :: text) 0 := by
  have hdigit := (toDigits_digit h).1
  have hpos : 0 < c.toNat - '0'.toNat := by
    apply Nat.pos_of_ne_zero
    intro h0
    rw [h0, Nat.toDigits_zero, List.cons.injEq] at hdigit
    exact hzero hdigit.1.symm
  rw [Nat.ofDigitChars_cons, Nat.ofDigitChars_eq_ofDigitChars_zero]
  have := Nat.mul_pos (Nat.pow_pos (n := text.length) (by omega : 0 < 10))
    (by omega : 0 < 10 * 0 + (c.toNat - '0'.toNat))
  omega

theorem toDigits_ofDigitChars {text : List Char}
    (hdigits : allDigits text = true)
    (hcanonical : ¬ (1 < text.length ∧ text.head? = some '0')) :
    Nat.toDigits 10 (Nat.ofDigitChars 10 text 0) = text := by
  induction text using List.reverseRecOn with
  | nil => simp [allDigits] at hdigits
  | append_singleton text c ih =>
      have hall : ∀ d ∈ text ++ [c], d.isDigit = true := by
        simp only [allDigits, Bool.and_eq_true, List.all_eq_true] at hdigits
        exact hdigits.2
      obtain ⟨hc, hlt⟩ := toDigits_digit (hall c (by simp))
      rw [Nat.ofDigitChars_append, Nat.ofDigitChars_cons, Nat.ofDigitChars_nil]
      cases text with
      | nil =>
          rw [Nat.ofDigitChars_nil, Nat.mul_zero, Nat.zero_add]
          exact hc
      | cons d text =>
          have hhead : d ≠ '0' := by
            rintro rfl
            apply hcanonical
            simp
          have hd := hall d (by simp)
          rw [← Nat.toDigits_append_toDigits (by omega)
            (ofDigitChars_pos hd hhead) hlt, hc]
          congr 1
          apply ih
          · simp only [allDigits, Bool.and_eq_true, List.all_eq_true]
            exact ⟨rfl, fun e he => hall e (List.mem_append_left _ he)⟩
          · rintro ⟨-, hzero⟩
            exact hhead (Option.some.inj hzero)

private theorem stripPlus_toDigits (n : Nat) :
    stripPlus (Nat.toDigits 10 n) = Nat.toDigits 10 n := by
  unfold stripPlus
  split
  · rename_i rest h
    have hdigit : Char.isDigit '+' = true :=
      Nat.isDigit_of_mem_toDigits (b := 10) (n := n) (by omega) (by omega)
        (by simp [h])
    exact absurd hdigit (by decide)
  · rfl

theorem toList_toString_nat (n : Nat) :
    (toString n).toList = Nat.toDigits 10 n := by
  simp

theorem parseUnsigned_toString_eq (bits n : Nat) :
    parseUnsigned bits (toString n) = if n < 2 ^ bits then some n else none := by
  simp only [parseUnsigned, toList_toString_nat, stripPlus_toDigits,
    allDigits_toDigits, Nat.ofDigitChars_ten_toDigits, true_and]

theorem parseUnsigned_toString {bits n : Nat} (h : n < 2 ^ bits) :
    parseUnsigned bits (toString n) = some n := by
  rw [parseUnsigned_toString_eq, if_pos h]

theorem toString_nat_inj {n m : Nat} (h : toString n = toString m) :
    n = m := by
  have hparse := parseUnsigned_toString
    (Nat.lt_pow_self (n := n) (by omega : 1 < 2))
  rw [h, parseUnsigned_toString_eq] at hparse
  split at hparse
  · exact (Option.some.inj hparse).symm
  · cases hparse

theorem toString_of_parseUnsigned {bits n : Nat} {text : String}
    (hdigits : allDigits text.toList = true)
    (hcanonical : ¬ (1 < text.length ∧ text.toList.head? = some '0'))
    (h : parseUnsigned bits text = some n) :
    toString n = text ∧ n < 2 ^ bits := by
  have hplain : stripPlus text.toList = text.toList := by
    unfold stripPlus
    split
    · rename_i rest heq
      rw [heq] at hdigits
      simp [allDigits] at hdigits
    · rfl
  simp only [parseUnsigned, hplain] at h
  split at h
  · rename_i hvalid
    obtain rfl := Option.some.inj h
    refine ⟨?_, hvalid.2⟩
    apply String.toList_injective
    rw [toList_toString_nat]
    apply toDigits_ofDigitChars hdigits
    rwa [String.length_toList]
  · cases h

theorem parseSigned_toString {bits : Nat} {i : Int}
    (hlow : -2 ^ (bits - 1) ≤ i) (hhigh : i < 2 ^ (bits - 1)) :
    parseSigned bits (toString i) = some i := by
  cases i with
  | ofNat n =>
      have htext : toString (Int.ofNat n) = toString n := rfl
      have hcast : (n : Int) < 2 ^ (bits - 1) := hhigh
      have hn : n < 2 ^ (bits - 1) := by exact_mod_cast hcast
      unfold parseSigned
      split
      · rename_i digits h
        rw [htext, toList_toString_nat] at h
        have hdigit : Char.isDigit '-' = true :=
          Nat.isDigit_of_mem_toDigits (b := 10) (n := n) (by omega) (by omega)
            (by simp [h])
        exact absurd hdigit (by decide)
      · rw [htext, parseUnsigned_toString hn]
        rfl
  | negSucc n =>
      have htext : (toString (Int.negSucc n)).toList =
          '-' :: Nat.toDigits 10 (n + 1) := by
        have : toString (Int.negSucc n) = "-" ++ toString (n + 1) := rfl
        rw [this, String.toList_append, toList_toString_nat]
        rfl
      have hn : n + 1 ≤ 2 ^ (bits - 1) := by
        have : (n : Int) + 1 ≤ 2 ^ (bits - 1) := by omega
        exact_mod_cast this
      unfold parseSigned
      rw [htext]
      simp only [allDigits_toDigits, Nat.ofDigitChars_ten_toDigits, true_and,
        if_pos hn]
      rfl

end OpenKeyV.Library
