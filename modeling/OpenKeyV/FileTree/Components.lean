import OpenKeyV.Error
import OpenKeyV.Library.Hex
import OpenKeyV.Library.Text
import OpenKeyV.Library.Utf8

/-!
# File names of `FileTreeStore`

`encode_component` and `decode_component` of `store/filetree/store.rs`.  The
name of a directory or a file comes from the operating system as bytes.
-/

namespace OpenKeyV.FileTree

open Library

def componentPrefix : String := "okv1-"

def maxComponentBytes : Nat := 255

/-- The `checked_add` and `checked_mul` of the lengths do not overflow: no
string is so long. -/
def encodeComponent (value kind : String) : Except Error String :=
  let encodedLen := componentPrefix.utf8ByteSize + value.utf8ByteSize * 2
  if maxComponentBytes < encodedLen then
    .error (.invalidKey (s!"FileTree {kind} encodes to {encodedLen} bytes " ++
      s!"(max {maxComponentBytes})"))
  else .ok (componentPrefix ++ Hex.encode (utf8 value))

def decodeComponent (component : List UInt8) (kind : String) :
    Except Error String :=
  match ofUtf8 component with
  | none => .error (.invalidKey
      s!"FileTree physical {kind} is not valid UTF-8")
  | some component =>
      if maxComponentBytes < component.utf8ByteSize then
        .error (.invalidKey (s!"FileTree physical {kind} is " ++
          s!"{component.utf8ByteSize} bytes (max {maxComponentBytes})"))
      else
        match stripPrefix componentPrefix component with
        | none => .error (.invalidKey (s!"FileTree physical {kind} is " ++
            s!"missing the {componentPrefix} prefix"))
        | some hex =>
            if hex.utf8ByteSize % 2 ≠ 0 then
              .error (.invalidKey (s!"FileTree physical {kind} has an odd " ++
                "hexadecimal length"))
            else
              match Hex.decode hex with
              | none => .error (.invalidKey (s!"FileTree physical {kind} " ++
                  "is not canonical lowercase hexadecimal"))
              | some bytes =>
                  match ofUtf8 bytes with
                  | none => .error (.invalidKey
                      s!"FileTree physical {kind} is not valid UTF-8")
                  | some decoded => do
                      let canonical ← encodeComponent decoded kind
                      if canonical ≠ component then
                        .error (.invalidKey
                          s!"FileTree physical {kind} is not canonical")
                      else return decoded

section Components

variable {value kind component : String}

theorem encodeComponent_eq_ok :
    encodeComponent value kind = .ok component ↔
      component = componentPrefix ++ Hex.encode (utf8 value) ∧
        component.utf8ByteSize ≤ maxComponentBytes := by
  have hsize : (componentPrefix ++ Hex.encode (utf8 value)).utf8ByteSize =
      componentPrefix.utf8ByteSize + value.utf8ByteSize * 2 := by
    rw [String.utf8ByteSize_append, Hex.utf8ByteSize_encode, length_utf8]
  simp only [encodeComponent]
  constructor
  · intro h
    split at h
    · cases h
    · rename_i hlong
      cases h
      exact ⟨rfl, by rw [hsize]; exact Nat.not_lt.mp hlong⟩
  · rintro ⟨rfl, hshort⟩
    rw [hsize] at hshort
    exact if_neg (Nat.not_lt.mpr hshort)

theorem decodeComponent_eq_ok {bytes : List UInt8} :
    decodeComponent bytes kind = .ok value ↔
      ∃ component, encodeComponent value kind = .ok component ∧
        bytes = utf8 component := by
  constructor
  · intro h
    unfold decodeComponent at h
    split at h
    · cases h
    · rename_i component hcomponent
      refine ⟨component, ?_, (ofUtf8_eq_some.mp hcomponent).symm⟩
      split at h
      · cases h
      · split at h
        · cases h
        · split at h
          · cases h
          · split at h
            · cases h
            · split at h
              · cases h
              · obtain ⟨canonical, hcanonical, h⟩ := bind_eq_ok.mp h
                split at h
                · cases h
                · rename_i hsame
                  cases h
                  rw [hcanonical, not_ne_iff.mp hsame]
  · rintro ⟨component, hencode, rfl⟩
    obtain ⟨hcomponent, hsize⟩ := encodeComponent_eq_ok.mp hencode
    have hstrip : stripPrefix componentPrefix component =
        some (Hex.encode (utf8 value)) := by
      rw [hcomponent, stripPrefix_append]
    have heven : (Hex.encode (utf8 value)).utf8ByteSize % 2 = 0 := by
      rw [Hex.utf8ByteSize_encode]
      omega
    simp only [decodeComponent, ofUtf8_utf8, if_neg (Nat.not_lt.mpr hsize),
      hstrip, heven, Hex.decode_encode, hencode, ne_eq, not_true_eq_false,
      if_false, bind, Except.bind, pure, Except.pure]

theorem mem_component {c : Char} (h : encodeComponent value kind =
    .ok component) (hc : c ∈ component.toList) :
    c ∈ "okv1-".toList ++ Hex.alphabet := by
  rw [(encodeComponent_eq_ok.mp h).1, String.toList_append] at hc
  rcases List.mem_append.mp hc with hlead | hhex
  · exact List.mem_append_left _ hlead
  · rw [Hex.encode, String.toList_ofList] at hhex
    exact List.mem_append_right _ (Hex.mem_alphabet_of_mem_encodeChars hhex)

end Components

end OpenKeyV.FileTree
