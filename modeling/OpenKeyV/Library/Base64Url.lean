import Mathlib.Data.List.Basic
import Mathlib.Data.String.Lemmas

/-!
# Base64 for URLs, without padding

Three bytes become four digits.  `decode` refuses whatever `encode` does not
write: a foreign character, a lone last digit, and unused bits that are set.
-/

namespace OpenKeyV.Library.Base64Url

def alphabet : List Char :=
  "ABCDEFGHIJKLMNOPQRSTUVWXYZabcdefghijklmnopqrstuvwxyz0123456789-_".toList

def digit (n : Nat) : Char := alphabet.getD n 'A'

def value (c : Char) : Option Nat := alphabet.idxOf? c

def encodeChars : List UInt8 → List Char
  | a :: b :: c :: rest =>
      digit (a.toNat / 4) :: digit (a.toNat % 4 * 16 + b.toNat / 16) ::
        digit (b.toNat % 16 * 4 + c.toNat / 64) :: digit (c.toNat % 64) ::
          encodeChars rest
  | [a, b] =>
      [digit (a.toNat / 4), digit (a.toNat % 4 * 16 + b.toNat / 16),
        digit (b.toNat % 16 * 4)]
  | [a] => [digit (a.toNat / 4), digit (a.toNat % 4 * 16)]
  | [] => []

def decodeChars : List Char → Option (List UInt8)
  | w :: x :: y :: z :: rest => do
      let w ← value w
      let x ← value x
      let y ← value y
      let z ← value z
      let bytes ← decodeChars rest
      return .ofNat (w * 4 + x / 16) :: .ofNat (x % 16 * 16 + y / 4) ::
        .ofNat (y % 4 * 64 + z) :: bytes
  | [w, x, y] => do
      let w ← value w
      let x ← value x
      let y ← value y
      if y % 4 = 0 then
        some [.ofNat (w * 4 + x / 16), .ofNat (x % 16 * 16 + y / 4)]
      else none
  | [w, x] => do
      let w ← value w
      let x ← value x
      if x % 16 = 0 then some [.ofNat (w * 4 + x / 16)] else none
  | [_] => none
  | [] => some []

def encode (bytes : List UInt8) : String := String.ofList (encodeChars bytes)

def decode (text : String) : Option (List UInt8) := decodeChars text.toList

private theorem alphabet_spec : 'A' ∈ alphabet ∧
    (alphabet.all fun c => c.isAlphanum || c == '-' || c == '_') = true := by
  decide +kernel

theorem value_digit {n : Nat} (h : n < 64) : value (digit n) = some n := by
  have hall : ((List.range 64).all fun n =>
      value (digit n) == some n) = true := by
    decide +kernel
  exact eq_of_beq (List.all_eq_true.mp hall n (List.mem_range.mpr h))

private theorem ofNat_eq {n : Nat} {b : UInt8} (h : n = b.toNat) :
    UInt8.ofNat n = b := by
  rw [h, UInt8.ofNat_toNat]

theorem decodeChars_encodeChars (bytes : List UInt8) :
    decodeChars (encodeChars bytes) = some bytes := by
  induction bytes using encodeChars.induct with
  | case1 a b c rest ih =>
      have ha := a.toNat_lt
      have hb := b.toNat_lt
      have hc := c.toNat_lt
      rw [encodeChars, decodeChars, value_digit (by omega),
        value_digit (by omega), value_digit (by omega), value_digit (by omega),
        ih]
      simp only [bind, Option.bind, pure]
      rw [ofNat_eq (b := a) (by omega), ofNat_eq (b := b) (by omega),
        ofNat_eq (b := c) (by omega)]
  | case2 a b =>
      have ha := a.toNat_lt
      have hb := b.toNat_lt
      rw [encodeChars, decodeChars, value_digit (by omega),
        value_digit (by omega), value_digit (by omega)]
      simp only [bind, Option.bind]
      rw [if_pos (by omega), ofNat_eq (b := a) (by omega),
        ofNat_eq (b := b) (by omega)]
  | case3 a =>
      have ha := a.toNat_lt
      rw [encodeChars, decodeChars, value_digit (by omega),
        value_digit (by omega)]
      simp only [bind, Option.bind]
      rw [if_pos (by omega), ofNat_eq (b := a) (by omega)]
  | case4 => rfl

@[simp] theorem decode_encode (bytes : List UInt8) :
    decode (encode bytes) = some bytes := by
  rw [decode, encode, String.toList_ofList, decodeChars_encodeChars]

example : decode (encode [0, 255]) = some [0, 255] := by decide +kernel

theorem encode_injective : Function.Injective encode := by
  intro first second h
  have hboth := decode_encode first
  rw [h, decode_encode] at hboth
  exact (Option.some.inj hboth).symm

theorem digit_mem (n : Nat) : digit n ∈ alphabet := by
  rw [digit, List.getD_eq_getElem?_getD]
  cases hdigit : alphabet[n]? with
  | none =>
      rw [Option.getD_none]
      exact alphabet_spec.1
  | some c => exact List.mem_of_getElem? hdigit

theorem alphabet_cases {c : Char} (h : c ∈ alphabet) :
    c.isAlphanum = true ∨ c = '-' ∨ c = '_' := by
  have hc := List.all_eq_true.mp alphabet_spec.2 c h
  simpa [or_assoc] using hc

theorem mem_alphabet_of_mem_encodeChars (bytes : List UInt8) :
    ∀ c ∈ encodeChars bytes, c ∈ alphabet := by
  induction bytes using encodeChars.induct with
  | case1 a b c rest ih =>
      intro d hd
      simp only [encodeChars, List.mem_cons] at hd
      rcases hd with rfl | rfl | rfl | rfl | hd
      · exact digit_mem _
      · exact digit_mem _
      · exact digit_mem _
      · exact digit_mem _
      · exact ih d hd
  | case2 a b =>
      intro d hd
      simp only [encodeChars, List.mem_cons, List.not_mem_nil, or_false] at hd
      rcases hd with rfl | rfl | rfl <;> exact digit_mem _
  | case3 a =>
      intro d hd
      simp only [encodeChars, List.mem_cons, List.not_mem_nil, or_false] at hd
      rcases hd with rfl | rfl <;> exact digit_mem _
  | case4 => simp [encodeChars]

theorem utf8Size_of_isAlphanum {c : Char} (h : c.isAlphanum = true) :
    c.utf8Size = 1 := by
  delta Char.isAlphanum Char.isAlpha Char.isUpper Char.isLower
    Char.isDigit at h
  simp only [Bool.or_eq_true, Bool.and_eq_true, decide_eq_true_eq] at h
  rw [Char.utf8Size_eq_one_iff, UInt32.le_iff_toNat_le]
  simp only [UInt32.le_iff_toNat_le, ge_iff_le] at h
  rcases h with (⟨-, h⟩ | ⟨-, h⟩) | ⟨-, h⟩
  · exact Nat.le_trans h (by decide)
  · exact Nat.le_trans h (by decide)
  · exact Nat.le_trans h (by decide)

theorem encodeChars_plain (bytes : List UInt8) :
    ∀ c ∈ encodeChars bytes, c ≠ '/' ∧ c.utf8Size = 1 := by
  intro c hc
  rcases alphabet_cases (mem_alphabet_of_mem_encodeChars bytes c hc) with
    halpha | rfl | rfl
  · refine ⟨?_, utf8Size_of_isAlphanum halpha⟩
    rintro rfl
    exact absurd halpha (by decide)
  · decide
  · decide

theorem length_le_encodeChars (bytes : List UInt8) :
    bytes.length ≤ (encodeChars bytes).length := by
  induction bytes using encodeChars.induct with
  | case1 a b c rest ih =>
      simp only [encodeChars, List.length_cons]
      omega
  | case2 | case3 => simp [encodeChars]
  | case4 => exact Nat.le_refl 0

end OpenKeyV.Library.Base64Url
