import Mathlib.Algebra.Group.Int.Defs
import Mathlib.Algebra.GroupWithZero.Nat
import Mathlib.Data.List.Basic

/-!
# Little-endian integers

Fixed-width little-endian bytes of natural numbers, and of 64-bit signed
integers through their two's complement.
-/

namespace OpenKeyV.Library

def fromLeBytes : List UInt8 → Nat
  | [] => 0
  | byte :: rest => byte.toNat + 256 * fromLeBytes rest

def toLeBytes : Nat → Nat → List UInt8
  | 0, _ => []
  | width + 1, n => UInt8.ofNat n :: toLeBytes width (n / 256)

def signed64 (n : Nat) : Int := (BitVec.ofNat 64 n).toInt

def unsigned64 (i : Int) : Nat := (BitVec.ofInt 64 i).toNat

@[simp] theorem length_toLeBytes (width n : Nat) :
    (toLeBytes width n).length = width := by
  induction width generalizing n with
  | zero => rfl
  | succ width ih => simp [toLeBytes, ih]

theorem fromLeBytes_toLeBytes (width n : Nat) :
    fromLeBytes (toLeBytes width n) = n % 256 ^ width := by
  induction width generalizing n with
  | zero => simp [toLeBytes, fromLeBytes, Nat.mod_one]
  | succ width ih =>
      have hbyte : (UInt8.ofNat n).toNat = n % 256 := by simp
      rw [toLeBytes, fromLeBytes, ih, hbyte, Nat.pow_succ, Nat.mul_comm _ 256,
        Nat.mod_mul]

theorem fromLeBytes_toLeBytes_of_lt {width n : Nat} (h : n < 256 ^ width) :
    fromLeBytes (toLeBytes width n) = n := by
  rw [fromLeBytes_toLeBytes, Nat.mod_eq_of_lt h]

theorem fromLeBytes_lt (bytes : List UInt8) :
    fromLeBytes bytes < 256 ^ bytes.length := by
  induction bytes with
  | nil => exact Nat.one_pos
  | cons byte bytes ih =>
      have hbyte := byte.toNat_lt
      rw [fromLeBytes, List.length_cons, Nat.pow_succ]
      omega

theorem toLeBytes_fromLeBytes (bytes : List UInt8) :
    toLeBytes bytes.length (fromLeBytes bytes) = bytes := by
  induction bytes with
  | nil => rfl
  | cons byte bytes ih =>
      have hbyte := byte.toNat_lt
      have hdiv : (byte.toNat + 256 * fromLeBytes bytes) / 256 =
          fromLeBytes bytes := by omega
      have hhead : UInt8.ofNat (byte.toNat + 256 * fromLeBytes bytes) =
          byte := by
        apply UInt8.toNat_inj.mp
        simp
      rw [List.length_cons, fromLeBytes, toLeBytes, hdiv, ih, hhead]

theorem toLeBytes_inj {width n m : Nat} (hn : n < 256 ^ width)
    (hm : m < 256 ^ width) (h : toLeBytes width n = toLeBytes width m) :
    n = m := by
  rw [← fromLeBytes_toLeBytes_of_lt hn, h, fromLeBytes_toLeBytes_of_lt hm]

theorem unsigned64_lt (i : Int) : unsigned64 i < 256 ^ 8 :=
  (BitVec.ofInt 64 i).isLt

theorem signed64_unsigned64 {i : Int} (hlow : -2 ^ 63 ≤ i)
    (hhigh : i < 2 ^ 63) : signed64 (unsigned64 i) = i := by
  simp only [signed64, unsigned64, BitVec.ofNat_toNat, BitVec.setWidth_eq,
    BitVec.toInt_ofInt]
  exact Int.bmod_eq_of_le (by omega) (by omega)

theorem unsigned64_signed64 {n : Nat} (h : n < 256 ^ 8) :
    unsigned64 (signed64 n) = n := by
  simp only [signed64, unsigned64, BitVec.ofInt_toInt, BitVec.toNat_ofNat]
  exact Nat.mod_eq_of_lt h

end OpenKeyV.Library
