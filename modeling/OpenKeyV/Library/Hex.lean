import OpenKeyV.Library.Text

/-!
# Lowercase hexadecimal text

One byte becomes two digits, the high half first.  `decode` refuses an odd
length and whatever is not one of the sixteen digits.
-/

namespace OpenKeyV.Library.Hex

def alphabet : List Char := "0123456789abcdef".toList

def digit (n : Nat) : Char := alphabet.getD n '0'

def value (c : Char) : Option Nat := alphabet.idxOf? c

def encodeChars (bytes : List UInt8) : List Char :=
  bytes.flatMap fun byte => [digit (byte.toNat / 16), digit (byte.toNat % 16)]

def decodeChars : List Char → Option (List UInt8)
  | high :: low :: rest => do
      let high ← value high
      let low ← value low
      let bytes ← decodeChars rest
      return .ofNat (high * 16 + low) :: bytes
  | [_] => none
  | [] => some []

def encode (bytes : List UInt8) : String := String.ofList (encodeChars bytes)

def decode (text : String) : Option (List UInt8) := decodeChars text.toList

theorem value_digit {n : Nat} (h : n < 16) : value (digit n) = some n := by
  have hall : ∀ n : Fin 16, value (digit n) = some n.val := by
    decide +kernel
  exact hall ⟨n, h⟩

theorem digit_mem {n : Nat} (h : n < 16) : digit n ∈ alphabet := by
  have hall : ∀ n : Fin 16, digit n ∈ alphabet := by
    decide +kernel
  exact hall ⟨n, h⟩

theorem encodeChars_cons (byte : UInt8) (bytes : List UInt8) :
    encodeChars (byte :: bytes) =
      digit (byte.toNat / 16) :: digit (byte.toNat % 16) ::
        encodeChars bytes :=
  rfl

theorem decodeChars_encodeChars (bytes : List UInt8) :
    decodeChars (encodeChars bytes) = some bytes := by
  induction bytes with
  | nil => rfl
  | cons byte bytes ih =>
      have hbyte := byte.toNat_lt
      rw [encodeChars_cons, decodeChars, value_digit (by omega),
        value_digit (by omega), ih]
      simp only [bind, Option.bind, pure]
      rw [show byte.toNat / 16 * 16 + byte.toNat % 16 = byte.toNat by omega,
        UInt8.ofNat_toNat]

@[simp] theorem decode_encode (bytes : List UInt8) :
    decode (encode bytes) = some bytes := by
  rw [decode, encode, String.toList_ofList, decodeChars_encodeChars]

theorem encode_injective : Function.Injective encode := by
  intro first second h
  have hboth := decode_encode first
  rw [h, decode_encode] at hboth
  exact (Option.some.inj hboth).symm

theorem mem_alphabet_of_mem_encodeChars {bytes : List UInt8} {c : Char}
    (h : c ∈ encodeChars bytes) : c ∈ alphabet := by
  obtain ⟨byte, -, hc⟩ := List.mem_flatMap.mp h
  have hbyte := byte.toNat_lt
  simp only [List.mem_cons, List.not_mem_nil, or_false] at hc
  obtain rfl | rfl := hc
  · exact digit_mem (by omega)
  · exact digit_mem (by omega)

theorem length_encodeChars (bytes : List UInt8) :
    (encodeChars bytes).length = bytes.length * 2 := by
  induction bytes with
  | nil => rfl
  | cons byte bytes ih =>
      simp only [encodeChars_cons, List.length_cons, ih]
      omega

theorem utf8Size_of_mem {c : Char} (h : c ∈ alphabet) : c.utf8Size = 1 := by
  have hall : (alphabet.all fun c => c.utf8Size == 1) = true := by decide
  exact eq_of_beq (List.all_eq_true.mp hall c h)

theorem utf8ByteSize_encode (bytes : List UInt8) :
    (encode bytes).utf8ByteSize = bytes.length * 2 := by
  rw [encode, utf8ByteSize_ofList fun c hc =>
    utf8Size_of_mem (mem_alphabet_of_mem_encodeChars hc), length_encodeChars]

end OpenKeyV.Library.Hex
