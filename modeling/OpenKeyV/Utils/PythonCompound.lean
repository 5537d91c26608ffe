import OpenKeyV.Utils.Compound
import OpenKeyV.Library.Utf8

/-!
# The identity codec of the Python package

`_utils/compound.py` reads and writes the same identities as
`utils/compound.rs`.  It cuts the bytes of the payload and decodes both parts,
where the other one looks for a character boundary.
-/

namespace OpenKeyV.Python

open Library

/-- `int(digits)`.  The limit is `sys.get_int_max_str_digits()`: zero, or a
number of digits beyond which `int` raises `ValueError`. -/
def int (limit : Nat) (digits : String) : Option Nat :=
  if limit ≠ 0 ∧ limit < digits.length then none
  else some (Nat.ofDigitChars 10 digits.toList 0)

def collectionPrefix (collection : String) : String :=
  toString (utf8 collection).length ++ ":" ++ collection

def compoundKey (collection key : String) : String :=
  collectionPrefix collection ++ key

/-- `uncompound_key`: the pair, or the message of the `TypeError`. -/
def uncompoundKey (limit : Nat) (compound : String) :
    Except String (String × String) :=
  match splitOnce ':' compound with
  | none =>
      .error s!"String {compound} is not a canonical compound identifier"
  | some (lengthText, payload) =>
      if lengthText.toList.isEmpty ||
          !lengthText.toList.all fun c => decide ('0' ≤ c ∧ c ≤ '9') then
        .error s!"String {compound} has an invalid collection length"
      else if 1 < lengthText.length ∧ lengthText.toList.head? = some '0' then
        .error s!"String {compound} has a non-canonical collection length"
      else
        match int limit lengthText with
        | none => .error s!"String {compound} has an invalid collection length"
        | some collectionLength =>
            let payloadBytes := utf8 payload
            if payloadBytes.length < collectionLength then
              .error
                s!"String {compound} has a collection length outside the payload"
            else
              match ofUtf8 (payloadBytes.take collectionLength),
                ofUtf8 (payloadBytes.drop collectionLength) with
              | some collection, some key => .ok (collection, key)
              | _, _ =>
                  .error (s!"String {compound} has a collection length " ++
                    "outside a UTF-8 boundary")

theorem compoundKey_eq (collection key : String) :
    compoundKey collection key = OpenKeyV.compoundKey collection key := by
  simp [compoundKey, collectionPrefix, OpenKeyV.compoundKey, collectionFrame]

theorem digits_eq (text : List Char) :
    (text.isEmpty || !text.all fun c => decide ('0' ≤ c ∧ c ≤ '9')) =
      !allDigits text := by
  have hdigit : (fun c : Char => decide ('0' ≤ c ∧ c ≤ '9')) = Char.isDigit := by
    funext c
    simp only [Char.isDigit, Bool.decide_and]
    rfl
  rw [allDigits, hdigit, Bool.not_and, Bool.not_not]

theorem compoundKey_of_uncompoundKey {limit : Nat}
    {compound collection key : String}
    (h : uncompoundKey limit compound = .ok (collection, key)) :
    compound = OpenKeyV.compoundKey collection key := by
  unfold uncompoundKey at h
  simp only [digits_eq] at h
  split at h
  · cases h
  · rename_i lengthText payload hsplit
    split at h
    · cases h
    · rename_i hdigits
      split at h
      · cases h
      · rename_i hcanonical
        split at h
        · cases h
        · rename_i collectionLength hint
          split at h
          · cases h
          · rename_i hshort
            split at h
            · rename_i collection' key' htake hdrop
              cases h
              have hlength : lengthText = toString collectionLength := by
                unfold int at hint
                split at hint
                · cases hint
                · cases hint
                  apply String.toList_injective
                  rw [toList_toString_nat, toDigits_ofDigitChars]
                  · simpa using hdigits
                  · rwa [String.length_toList]
              have hsize : collection.utf8ByteSize = collectionLength := by
                rw [← length_utf8, ofUtf8_eq_some.mp htake, List.length_take]
                omega
              have hpayload : payload = collection ++ key := by
                apply utf8_injective
                rw [utf8_append, ofUtf8_eq_some.mp htake,
                  ofUtf8_eq_some.mp hdrop, List.take_append_drop]
              rw [splitOnce_eq_some hsplit, hlength, hpayload, ← hsize]
              simp [OpenKeyV.compoundKey, collectionFrame, String.append_assoc]
            · cases h

theorem int_toString {limit n : Nat} (hlimit : limit = 0 ∨ 640 ≤ limit)
    (hn : n < 2 ^ 64) : int limit (toString n) = some n := by
  have hlength : (toString n).length ≤ 20 := by
    rw [← String.length_toList, toList_toString_nat,
      Nat.length_toDigits_le_iff (by decide) (by decide)]
    omega
  rw [int, if_neg (by omega), toList_toString_nat,
    Nat.ofDigitChars_ten_toDigits]

theorem uncompoundKey_compoundKey {limit : Nat}
    (hlimit : limit = 0 ∨ 640 ≤ limit) {collection : String}
    (hsize : collection.utf8ByteSize < 2 ^ 64) (key : String) :
    uncompoundKey limit (OpenKeyV.compoundKey collection key) =
      .ok (collection, key) := by
  have htake : (utf8 (collection ++ key)).take collection.utf8ByteSize =
      utf8 collection := by
    rw [utf8_append, List.take_left' (length_utf8 collection)]
  have hdrop : (utf8 (collection ++ key)).drop collection.utf8ByteSize =
      utf8 key := by
    rw [utf8_append, List.drop_left' (length_utf8 collection)]
  have hlong : ¬ (utf8 (collection ++ key)).length <
      collection.utf8ByteSize := by
    simp
  unfold uncompoundKey
  rw [splitOnce_compoundKey]
  simp only [digits_eq, toList_toString_nat, allDigits_toDigits, Bool.not_true,
    Bool.false_eq_true, if_false]
  rw [← toList_toString_nat, if_neg (length_canonical _)]
  simp only [int_toString hlimit hsize, if_neg hlong, htake, hdrop,
    ofUtf8_utf8]

/-- Both decoders accept the same texts and read the same pairs, and both
encoders write the same text. -/
theorem python_identities_agree (limit : Nat)
    (hlimit : limit = 0 ∨ 640 ≤ limit) :
    (∀ text : String, text.utf8ByteSize < 2 ^ 64 → ∀ collection key,
      decompoundKey text = .ok (collection, key) ↔
        uncompoundKey limit text = .ok (collection, key)) ∧
    ∀ collection key, OpenKeyV.compoundKey collection key =
      compoundKey collection key := by
  refine ⟨fun text hsize collection key => ?_,
    fun collection key => (compoundKey_eq collection key).symm⟩
  rw [decompoundKey_eq_ok]
  constructor
  · rintro ⟨rfl, hcollection⟩
    exact uncompoundKey_compoundKey hlimit hcollection key
  · intro h
    obtain rfl := compoundKey_of_uncompoundKey h
    refine ⟨rfl, ?_⟩
    simp only [OpenKeyV.compoundKey, collectionFrame,
      String.utf8ByteSize_append] at hsize
    omega

theorem python_identities_agree_unlimited :
    (∀ text : String, text.utf8ByteSize < 2 ^ 64 → ∀ collection key,
      decompoundKey text = .ok (collection, key) ↔
        uncompoundKey 0 text = .ok (collection, key)) ∧
    ∀ collection key, OpenKeyV.compoundKey collection key =
      compoundKey collection key :=
  python_identities_agree 0 (.inl rfl)

end OpenKeyV.Python
