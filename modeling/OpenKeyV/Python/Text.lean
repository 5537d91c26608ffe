import OpenKeyV.Library.Bisection
import OpenKeyV.Library.Hex
import OpenKeyV.Library.Utf8

/-!
# Python strings

A `str` is a list of code points.  Surrogates are among them, and a string
with one of them has no UTF-8 encoding.
-/

namespace OpenKeyV.Python

open Library

inductive CodePoint where
  | scalar (c : Char)
  | surrogate (n : Fin 2048)
  deriving DecidableEq, Repr

abbrev PyStr := List CodePoint

def str (text : String) : PyStr := text.toList.map .scalar

inductive TextError where
  | unicodeEncodeError
  | valueError (message : String)
  | invalidKeyError (message : PyStr)
  deriving DecidableEq, Repr

/-- `items[:stop]`, where a negative `stop` counts from the end. -/
def sliceTo {α : Type} (stop : Int) (items : List α) : List α :=
  if 0 ≤ stop then items.take stop.toNat
  else items.take (items.length + stop).toNat

def scalars : PyStr → Option (List Char)
  | [] => some []
  | .scalar c :: rest => (scalars rest).map (c :: ·)
  | .surrogate _ :: _ => none

def encode (value : PyStr) : Except TextError (List UInt8) :=
  match scalars value with
  | none => .error .unicodeEncodeError
  | some chars => .ok (utf8 (String.ofList chars))

def byteWidth : CodePoint → Nat
  | .scalar c => c.utf8Size
  | .surrogate _ => 0

theorem sliceTo_start {α : Type} (stop : Int) (items : List α) :
    sliceTo stop items <+: items := by
  unfold sliceTo
  split
  · exact List.take_prefix _ _
  · exact List.take_prefix _ _

theorem length_sliceTo {α : Type} (stop : Int) (items : List α) :
    ((sliceTo stop items).length : Int) =
      if 0 ≤ stop then min stop items.length
      else max 0 (items.length + stop) := by
  unfold sliceTo
  split
  · rw [List.length_take]
    omega
  · rw [List.length_take]
    omega

@[simp] theorem sliceTo_natCast {α : Type} (n : Nat) (items : List α) :
    sliceTo (n : Int) items = items.take n := by
  rw [sliceTo, if_pos (Int.natCast_nonneg n), Int.toNat_natCast]

theorem scalars_eq_some {value : PyStr} {chars : List Char} :
    scalars value = some chars ↔ value = chars.map .scalar := by
  induction value generalizing chars with
  | nil => cases chars <;> simp [scalars]
  | cons point rest ih =>
      cases point with
      | surrogate n => cases chars <;> simp [scalars]
      | scalar c =>
          simp only [scalars, Option.map_eq_some_iff, ih]
          constructor
          · rintro ⟨tail, rfl, rfl⟩
            rfl
          · intro h
            cases chars with
            | nil => cases h
            | cons first tail =>
                obtain ⟨hfirst, htail⟩ := List.cons.inj h
                cases hfirst
                exact ⟨tail, htail, rfl⟩

theorem encode_eq_ok {value : PyStr} {bytes : List UInt8} :
    encode value = .ok bytes ↔
      ∃ chars, value = chars.map .scalar ∧
        bytes = utf8 (String.ofList chars) := by
  unfold encode
  constructor
  · intro h
    split at h
    · cases h
    · rename_i chars hchars
      cases h
      exact ⟨chars, scalars_eq_some.mp hchars, rfl⟩
  · rintro ⟨chars, hvalue, rfl⟩
    rw [scalars_eq_some.mpr hvalue]

theorem length_utf8_ofList (chars : List Char) :
    (utf8 (String.ofList chars)).length = total Char.utf8Size chars := by
  induction chars with
  | nil => rfl
  | cons c chars ih =>
      rw [show c :: chars = [c] ++ chars from rfl, String.ofList_append,
        utf8_append, List.length_append, ih, ← String.singleton_eq_ofList,
        length_utf8, String.utf8ByteSize_singleton, total_append]
      rfl

theorem total_byteWidth_scalars (chars : List Char) :
    total byteWidth (chars.map .scalar) = total Char.utf8Size chars := by
  rw [total, List.map_map]
  rfl

theorem length_of_encode {value : PyStr} {bytes : List UInt8}
    (h : encode value = .ok bytes) :
    bytes.length = total byteWidth value := by
  obtain ⟨chars, rfl, rfl⟩ := encode_eq_ok.mp h
  rw [length_utf8_ofList, total_byteWidth_scalars]

theorem encode_of_start {value start : PyStr} {bytes : List UInt8}
    (h : encode value = .ok bytes) (hstart : start <+: value) :
    ∃ bytes', encode start = .ok bytes' := by
  obtain ⟨chars, rfl, -⟩ := encode_eq_ok.mp h
  obtain ⟨chars', -, rfl⟩ := List.prefix_map_iff.mp hstart
  exact ⟨_, encode_eq_ok.mpr ⟨chars', rfl, rfl⟩⟩

theorem encode_append {first second : PyStr} {bytes bytes' : List UInt8}
    (hfirst : encode first = .ok bytes) (hsecond : encode second = .ok bytes') :
    encode (first ++ second) = .ok (bytes ++ bytes') := by
  obtain ⟨chars, rfl, rfl⟩ := encode_eq_ok.mp hfirst
  obtain ⟨chars', rfl, rfl⟩ := encode_eq_ok.mp hsecond
  exact encode_eq_ok.mpr ⟨chars ++ chars', (List.map_append ..).symm, by
    rw [String.ofList_append, utf8_append]⟩

structure HexDigest where
  digits : List Char
  length_digits : digits.length = 64
  hex_digits : ∀ c ∈ digits, c ∈ Hex.alphabet

namespace HexDigest

variable (digest : HexDigest)

def fragment (stop : Int) : PyStr :=
  sliceTo stop (digest.digits.map .scalar)

theorem length_fragment (stop : Int) :
    ((digest.fragment stop).length : Int) =
      if 0 ≤ stop then min stop 64 else max 0 (64 + stop) := by
  rw [fragment, length_sliceTo, List.length_map, digest.length_digits]
  rfl

theorem total_fragment (stop : Int) :
    total byteWidth (digest.fragment stop) = (digest.fragment stop).length := by
  refine total_eq_length fun point hpoint => ?_
  obtain ⟨c, hc, rfl⟩ := List.mem_map.mp
    ((sliceTo_start stop _).subset hpoint)
  exact Hex.utf8Size_of_mem (digest.hex_digits c hc)

theorem encode_fragment (stop : Int) :
    ∃ bytes, encode (digest.fragment stop) = .ok bytes :=
  encode_of_start (encode_eq_ok.mpr ⟨digest.digits, rfl, rfl⟩)
    (sliceTo_start stop _)

end HexDigest

end OpenKeyV.Python
