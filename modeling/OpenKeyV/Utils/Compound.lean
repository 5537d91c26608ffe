import OpenKeyV.Error
import OpenKeyV.Library.Decimal
import OpenKeyV.Library.Text

/-!
# Compound identities

Backends without collections store `(collection, key)` under one string: the
collection behind its length in bytes, then the key, all inside the frame of
the keyspace.
-/

namespace OpenKeyV

open Library

structure Subspace where
  name : String
  deriving DecidableEq, Repr

namespace Subspace

def isEmpty (subspace : Subspace) : Bool := subspace.name.isEmpty

def frame (subspace : Subspace) : String :=
  if subspace.isEmpty then ""
  else toString subspace.name.utf8ByteSize ++ ":" ++ subspace.name

def scope (subspace : Subspace) (key : String) : String :=
  subspace.frame ++ key

end Subspace

def collectionFrame (collection : String) : String :=
  toString collection.utf8ByteSize ++ ":" ++ collection

def compoundKey (collection key : String) : String :=
  collectionFrame collection ++ key

def subspaceCompoundKey (subspace : Subspace) (collection key : String) :
    String :=
  subspace.scope (compoundKey collection key)

def decompoundKey (compound : String) : Except Error (String × String) :=
  match splitOnce ':' compound with
  | none => .error (.invalidKey
      "compound identity is missing its length delimiter")
  | some (length, payload) =>
      if allDigits length.toList = false then
        .error (.invalidKey
          "compound identity has an invalid collection length")
      else if 1 < length.length ∧ length.toList.head? = some '0' then
        .error (.invalidKey
          "compound identity has a non-canonical collection length")
      else
        match parseUnsigned 64 length with
        | none => .error (.invalidKey
            "compound identity collection length is too large")
        | some collectionLen =>
            match splitAtByte collectionLen payload with
            | none => .error (.invalidKey
                ("compound identity collection length is outside a " ++
                  "UTF-8 boundary"))
            | some cut => .ok cut

private theorem colon_notMem_toString (n : Nat) : ':' ∉ (toString n).toList := by
  intro h
  rw [toList_toString_nat] at h
  have hdigit : Char.isDigit ':' = true :=
    Nat.isDigit_of_mem_toDigits (b := 10) (n := n) (by omega) (by omega) h
  exact absurd hdigit (by decide)

theorem length_canonical (n : Nat) :
    ¬ (1 < (toString n).length ∧ (toString n).toList.head? = some '0') := by
  rintro ⟨hlen, hhead⟩
  rw [← String.length_toList] at hlen
  rw [toList_toString_nat] at hlen hhead
  rcases Nat.eq_zero_or_pos n with rfl | hpos
  · simp at hlen
  · exact head_toDigits_ne_zero n hpos hhead

theorem splitOnce_compoundKey (collection key : String) :
    splitOnce ':' (compoundKey collection key) =
      some (toString collection.utf8ByteSize, collection ++ key) := by
  have := @splitOnce_append ':' _ (collection ++ key)
    (colon_notMem_toString collection.utf8ByteSize)
  simpa [compoundKey, collectionFrame, String.append_assoc] using this

theorem decompoundKey_compoundKey (collection key : String) :
    decompoundKey (compoundKey collection key) =
      if collection.utf8ByteSize < 2 ^ 64 then .ok (collection, key)
      else .error (.invalidKey
        "compound identity collection length is too large") := by
  simp only [decompoundKey, splitOnce_compoundKey, toList_toString_nat, allDigits_toDigits,
    Bool.true_eq_false, if_false, parseUnsigned_toString_eq]
  rw [← toList_toString_nat, if_neg (length_canonical _)]
  by_cases hsize : collection.utf8ByteSize < 2 ^ 64
  · simp only [if_pos hsize, splitAtByte_append]
  · simp only [if_neg hsize]

def subspaceDecompoundKey (subspace : Subspace) (compound : String) :
    Option (String × String) :=
  (stripPrefix subspace.frame compound).bind fun identity =>
    (decompoundKey identity).toOption

theorem compoundKey_of_decompoundKey {compound collection key : String}
    (h : decompoundKey compound = .ok (collection, key)) :
    compound = compoundKey collection key ∧
      collection.utf8ByteSize < 2 ^ 64 := by
  unfold decompoundKey at h
  split at h
  · cases h
  · rename_i length payload hsplit
    split at h
    · cases h
    · rename_i hdigits
      split at h
      · cases h
      · rename_i hcanonical
        split at h
        · cases h
        · rename_i collectionLen hparse
          split at h
          · cases h
          · rename_i cut hcut
            cases h
            have htext := splitOnce_eq_some hsplit
            obtain ⟨hlength, hbound⟩ := toString_of_parseUnsigned
              (by simpa using hdigits) hcanonical hparse
            obtain ⟨hpayload, hsize⟩ := splitAtByte_eq_some hcut
            refine ⟨?_, by rwa [hsize]⟩
            rw [htext, hpayload, ← hlength, ← hsize]
            simp [compoundKey, collectionFrame, String.append_assoc]

theorem decompoundKey_eq_ok {compound collection key : String} :
    decompoundKey compound = .ok (collection, key) ↔
      compound = compoundKey collection key ∧
        collection.utf8ByteSize < 2 ^ 64 := by
  constructor
  · exact compoundKey_of_decompoundKey
  · rintro ⟨rfl, hsize⟩
    rw [decompoundKey_compoundKey, if_pos hsize]

theorem collectionFrame_append_inj {first second x y : String}
    (h : collectionFrame first ++ x = collectionFrame second ++ y) :
    first = second ∧ x = y := by
  have hboth := splitOnce_compoundKey first x
  rw [compoundKey, h] at hboth
  rw [← compoundKey, splitOnce_compoundKey] at hboth
  simp only [Option.some.injEq, Prod.mk.injEq] at hboth
  obtain ⟨htext, hrest⟩ := hboth
  have hsize := toString_nat_inj htext
  have hcut := splitAtByte_append first x
  rw [← hrest, ← hsize, splitAtByte_append] at hcut
  simp only [Option.some.injEq, Prod.mk.injEq] at hcut
  exact ⟨hcut.1.symm, hcut.2.symm⟩

theorem compoundKey_inj {collection key collection' key' : String} :
    compoundKey collection key = compoundKey collection' key' ↔
      collection = collection' ∧ key = key' := by
  constructor
  · exact collectionFrame_append_inj
  · rintro ⟨rfl, rfl⟩
    rfl

namespace Subspace

variable {subspace other : Subspace}

theorem frame_eq (h : subspace.isEmpty = false) :
    subspace.frame = collectionFrame subspace.name := by
  simp [frame, h, collectionFrame]

theorem scope_inj {a b : String} :
    subspace.scope a = subspace.scope b ↔ a = b := by
  constructor
  · intro h
    have hlist := congrArg String.toList h
    simp only [scope, String.toList_append] at hlist
    exact String.toList_injective (List.append_cancel_left hlist)
  · rintro rfl
    rfl

theorem scope_ne_scope (hsubspace : subspace.isEmpty = false)
    (hother : other.isEmpty = false) (hne : subspace ≠ other) (a b : String) :
    subspace.scope a ≠ other.scope b := by
  intro h
  rw [scope, scope, frame_eq hsubspace, frame_eq hother] at h
  obtain ⟨hname, -⟩ := collectionFrame_append_inj h
  apply hne
  cases subspace
  cases other
  exact congrArg Subspace.mk hname

theorem scope_eq_compoundKey (h : subspace.isEmpty = false) (key : String) :
    subspace.scope key = compoundKey subspace.name key := by
  rw [scope, frame_eq h, compoundKey]

end Subspace

theorem subspaceCompoundKey_inj {subspace : Subspace}
    {collection key collection' key' : String} :
    subspaceCompoundKey subspace collection key =
        subspaceCompoundKey subspace collection' key' ↔
      collection = collection' ∧ key = key' := by
  rw [subspaceCompoundKey, subspaceCompoundKey, Subspace.scope_inj,
    compoundKey_inj]

theorem subspaceDecompoundKey_eq_some {subspace : Subspace}
    {compound collection key : String} :
    subspaceDecompoundKey subspace compound = some (collection, key) ↔
      compound = subspaceCompoundKey subspace collection key ∧
        collection.utf8ByteSize < 2 ^ 64 := by
  have htoOption (r : Except Error (String × String)) :
      r.toOption = some (collection, key) ↔ r = .ok (collection, key) := by
    cases r <;> simp [Except.toOption]
  simp only [subspaceDecompoundKey, Option.bind_eq_some_iff,
    stripPrefix_eq_some, htoOption, decompoundKey_eq_ok]
  constructor
  · rintro ⟨identity, rfl, rfl, hsize⟩
    exact ⟨rfl, hsize⟩
  · rintro ⟨rfl, hsize⟩
    exact ⟨_, rfl, rfl, hsize⟩

theorem subspaceCompoundKey_ne_scope (subspace : Subspace)
    (collection key name : String) (h : name.toList.head? = some '_') :
    subspaceCompoundKey subspace collection key ≠ subspace.scope name := by
  intro heq
  have hcompound : compoundKey collection key = name := by
    have hlist := congrArg String.toList heq
    simp only [subspaceCompoundKey, Subspace.scope, String.toList_append] at hlist
    exact String.toList_injective (List.append_cancel_left hlist)
  have hhead : (Nat.toDigits 10 collection.utf8ByteSize).head? = some '_' := by
    rw [← hcompound] at h
    simpa [compoundKey, collectionFrame, toList_toString_nat,
      List.head?_append_of_ne_nil _ Nat.toDigits_ne_nil] using h
  have hdigit : Char.isDigit '_' = true :=
    Nat.isDigit_of_mem_toDigits (b := 10) (by omega) (by omega)
      (List.mem_of_mem_head? hhead)
  exact absurd hdigit (by decide)

end OpenKeyV
