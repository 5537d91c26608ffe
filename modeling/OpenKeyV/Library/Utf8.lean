import Mathlib.Data.String.Lemmas

/-!
# UTF-8 bytes of strings

`utf8` gives the bytes of a string, as `str::as_bytes`; `ofUtf8` reads them
back and refuses everything else, as `str::from_utf8`.
-/

namespace OpenKeyV.Library

def utf8 (text : String) : List UInt8 := text.toByteArray.data.toList

def ofUtf8 (bytes : List UInt8) : Option String :=
  String.fromUTF8? ⟨bytes.toArray⟩

@[simp] theorem length_utf8 (text : String) :
    (utf8 text).length = text.utf8ByteSize := by
  rw [utf8, Array.length_toList]
  rfl

@[simp] theorem utf8_append (first second : String) :
    utf8 (first ++ second) = utf8 first ++ utf8 second := by
  simp [utf8]

theorem utf8_injective : Function.Injective utf8 := by
  intro first second h
  apply String.toByteArray_inj.mp
  exact ByteArray.ext (Array.toList_inj.mp h)

@[simp] theorem ofUtf8_utf8 (text : String) : ofUtf8 (utf8 text) = some text := by
  have hbytes : (⟨(utf8 text).toArray⟩ : ByteArray) = text.toByteArray := by
    simp [utf8]
  rw [ofUtf8, hbytes, String.fromUTF8?, dif_pos text.isValidUTF8]
  rfl

theorem ofUtf8_eq_some {bytes : List UInt8} {text : String} :
    ofUtf8 bytes = some text ↔ utf8 text = bytes := by
  constructor
  · intro h
    unfold ofUtf8 String.fromUTF8? at h
    split at h
    · cases h
      rfl
    · cases h
  · rintro rfl
    exact ofUtf8_utf8 text

end OpenKeyV.Library
