import OpenKeyV.Value

/-!
# Revisions and conditional-write results

The data types of `protocol.rs`.  A revision is an opaque sixteen-byte token.
-/

namespace OpenKeyV

structure Revision where
  bytes : Vector UInt8 16
  deriving DecidableEq, Repr

namespace Revision

def byteLen : Nat := 16

def asBytes (revision : Revision) : List UInt8 := revision.bytes.toList

@[simp] theorem length_asBytes (revision : Revision) :
    revision.asBytes.length = byteLen := by
  simp [asBytes, byteLen]

theorem asBytes_ne_nil (revision : Revision) : revision.asBytes ≠ [] := by
  intro hnil
  have hlen := congrArg List.length hnil
  simp [byteLen] at hlen

theorem asBytes_injective : Function.Injective asBytes := by
  rintro ⟨first⟩ ⟨second⟩ h
  exact congrArg Revision.mk (Vector.toList_inj.mp h)

def fromBytes (bytes : List UInt8) : Revision :=
  ⟨Vector.ofFn fun i => bytes[i.val]?.getD 0⟩

theorem asBytes_fromBytes {bytes : List UInt8} (h : byteLen ≤ bytes.length) :
    (fromBytes bytes).asBytes = bytes.take byteLen := by
  have hlen : (fromBytes bytes).asBytes.length =
      (bytes.take byteLen).length := by
    rw [length_asBytes, List.length_take, Nat.min_eq_left h]
  refine List.ext_getElem hlen fun i hi hi' => ?_
  have hlt : i < bytes.length := by
    simp only [length_asBytes] at hi
    omega
  simp [asBytes, fromBytes, hlt]

@[simp] theorem fromBytes_asBytes_append (revision : Revision)
    (rest : List UInt8) : fromBytes (revision.asBytes ++ rest) = revision := by
  apply asBytes_injective
  rw [asBytes_fromBytes (by simp)]
  exact List.take_left' (length_asBytes revision)

def fill (byte : UInt8) : Revision := ⟨Vector.replicate 16 byte⟩

end Revision

structure RevisionedValue where
  value : Value
  revision : Revision
  ttl : Option F64
  deriving DecidableEq, Repr

inductive CompareAndSwapResult where
  | applied (revision : Revision)
  | conflict (current : Option RevisionedValue)
  deriving DecidableEq, Repr

inductive CompareAndDeleteResult where
  | deleted
  | conflict (current : Option RevisionedValue)
  deriving DecidableEq, Repr

end OpenKeyV
