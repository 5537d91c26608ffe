import OpenKeyV.Error
import OpenKeyV.Library.Text
import OpenKeyV.Library.Utf8

/-!
# Names that are too long

`HashExcessLengthStrategy` of `utils/sanitize.rs` keeps the first bytes of a
name and puts a hash of the others behind them.
-/

namespace OpenKeyV

open Library

structure HashExcessLengthStrategy where
  maxLength : Nat

namespace HashExcessLengthStrategy

variable (strategy : HashExcessLengthStrategy)

def validate (value : String) : Except Error Unit :=
  if value.isEmpty then .error (.invalidKey "empty value") else .ok ()

/-- `sanitize`, or `none` where a slice inside a character panics; `blake3` is
the hash of some bytes in hexadecimal. -/
def sanitize (blake3 : List UInt8 → String) (value : String) : Option String :=
  if value.utf8ByteSize ≤ strategy.maxLength then some value
  else
    match splitAtByte strategy.maxLength value with
    | none => none
    | some (lead, suffix) => some (lead ++ "_" ++ blake3 (utf8 suffix))

/-- The name is short, or a character ends at the limit. -/
def Sliceable (value : String) : Prop :=
  value.utf8ByteSize ≤ strategy.maxLength ∨
    ∃ lead suffix, value = lead ++ suffix ∧
      lead.utf8ByteSize = strategy.maxLength

def excess (value : String) : List UInt8 :=
  (utf8 value).drop strategy.maxLength

/-- The hash tells the excess bytes of two names apart. -/
def NoCollision (blake3 : List UInt8 → String) (u v : String) : Prop :=
  blake3 (strategy.excess u) = blake3 (strategy.excess v) →
    strategy.excess u = strategy.excess v

variable {strategy} {blake3 : List UInt8 → String} {u v value r : String}

theorem noCollision_of_injective (h : Function.Injective blake3)
    (u v : String) : strategy.NoCollision blake3 u v :=
  fun hsame => h hsame

theorem excess_append {lead suffix : String}
    (hlead : lead.utf8ByteSize = strategy.maxLength) :
    strategy.excess (lead ++ suffix) = utf8 suffix := by
  rw [excess, utf8_append, ← hlead, ← length_utf8, List.drop_left]

theorem sanitize_eq_some (h : strategy.sanitize blake3 value = some r) :
    value.utf8ByteSize ≤ strategy.maxLength ∧ r = value ∨
      strategy.maxLength < value.utf8ByteSize ∧ ∃ lead suffix,
        value = lead ++ suffix ∧ lead.utf8ByteSize = strategy.maxLength ∧
        r = lead ++ "_" ++ blake3 (strategy.excess value) := by
  unfold sanitize at h
  split at h
  · rename_i hshort
    cases h
    exact .inl ⟨hshort, rfl⟩
  · rename_i hlong
    split at h
    · cases h
    · rename_i lead suffix hsplit
      cases h
      obtain ⟨rfl, hlead⟩ := splitAtByte_eq_some hsplit
      refine .inr ⟨Nat.not_le.mp hlong, lead, suffix, rfl, hlead, ?_⟩
      rw [excess_append hlead]

theorem sanitize_returns_iff :
    (∃ r, strategy.sanitize blake3 value = some r) ↔
      strategy.Sliceable value := by
  constructor
  · rintro ⟨r, h⟩
    rcases sanitize_eq_some h with ⟨hshort, -⟩ | ⟨-, lead, suffix, h, hlead, -⟩
    · exact .inl hshort
    · exact .inr ⟨lead, suffix, h, hlead⟩
  · rintro (hshort | ⟨lead, suffix, rfl, hlead⟩)
    · exact ⟨value, if_pos hshort⟩
    · unfold sanitize
      split
      · exact ⟨_, rfl⟩
      · rw [← hlead, splitAtByte_append]
        exact ⟨_, rfl⟩

theorem append_inj_of_size {lead lead' rest rest' : String}
    (hsize : lead.utf8ByteSize = lead'.utf8ByteSize)
    (h : lead ++ rest = lead' ++ rest') : lead = lead' ∧ rest = rest' := by
  have hbytes : utf8 lead ++ utf8 rest = utf8 lead' ++ utf8 rest' := by
    rw [← utf8_append, h, utf8_append]
  obtain ⟨hlead, hrest⟩ := List.append_inj hbytes (by
    rw [length_utf8, length_utf8, hsize])
  exact ⟨utf8_injective hlead, utf8_injective hrest⟩

theorem size_of_hashed {lead hash : String}
    (hlead : lead.utf8ByteSize = strategy.maxLength) :
    strategy.maxLength < (lead ++ "_" ++ hash).utf8ByteSize := by
  have hunderscore : "_".utf8ByteSize = 1 := rfl
  rw [String.utf8ByteSize_append, String.utf8ByteSize_append, hlead,
    hunderscore]
  omega

theorem sanitize_injective (hcollision : strategy.NoCollision blake3 u v)
    (hu : strategy.sanitize blake3 u = some r)
    (hv : strategy.sanitize blake3 v = some r) : u = v := by
  rcases sanitize_eq_some hu with
    ⟨hushort, rfl⟩ | ⟨hulong, lead, suffix, rfl, hlead, rfl⟩
  · rcases sanitize_eq_some hv with ⟨-, h⟩ | ⟨-, lead, suffix, rfl, hlead, h⟩
    · exact h
    · have hsize := @size_of_hashed strategy lead
        (blake3 (strategy.excess (lead ++ suffix))) hlead
      rw [← h] at hsize
      exact absurd hushort (Nat.not_le.mpr hsize)
  · rcases sanitize_eq_some hv with
      ⟨hvshort, h⟩ | ⟨-, lead', suffix', rfl, hlead', h⟩
    · have hsize := @size_of_hashed strategy lead
        (blake3 (strategy.excess (lead ++ suffix))) hlead
      rw [h] at hsize
      exact absurd hvshort (Nat.not_le.mpr hsize)
    · rw [String.append_assoc, String.append_assoc] at h
      obtain ⟨rfl, hrest⟩ := append_inj_of_size (hlead.trans hlead'.symm) h
      have hhash := (append_inj_of_size rfl hrest).2
      have hexcess := hcollision hhash
      rw [excess_append hlead, excess_append hlead] at hexcess
      rw [utf8_injective hexcess]

end HashExcessLengthStrategy

open HashExcessLengthStrategy in
/-- When a name is sanitised at all, and that two of these stay apart. -/
theorem sanitize_total_injective_iff (strategy : HashExcessLengthStrategy)
    (blake3 : List UInt8 → String) :
    (∀ value, (∃ r, strategy.sanitize blake3 value = some r) ↔
      strategy.Sliceable value) ∧
    ∀ u v, validate u = .ok () → validate v = .ok () → u ≠ v →
      strategy.NoCollision blake3 u v →
        ((∃ r r', strategy.sanitize blake3 u = some r ∧
            strategy.sanitize blake3 v = some r' ∧ r ≠ r') ↔
          strategy.Sliceable u ∧ strategy.Sliceable v) := by
  refine ⟨fun value => sanitize_returns_iff, ?_⟩
  intro u v _ _ hne hcollision
  constructor
  · rintro ⟨r, r', hu, hv, -⟩
    exact ⟨sanitize_returns_iff.mp ⟨r, hu⟩, sanitize_returns_iff.mp ⟨r', hv⟩⟩
  · rintro ⟨hu, hv⟩
    obtain ⟨r, hr⟩ := sanitize_returns_iff.mpr hu
    obtain ⟨r', hr'⟩ := sanitize_returns_iff.mpr hv
    refine ⟨r, r', hr, hr', ?_⟩
    rintro rfl
    exact hne (sanitize_injective hcollision hr hr')

/-- The first byte of two is no character. -/
theorem sanitize_slices_character :
    ¬ ∃ r, (HashExcessLengthStrategy.mk 1).sanitize (fun _ => "") "é" =
      some r := by
  have hnone : (HashExcessLengthStrategy.mk 1).sanitize (fun _ => "") "é" =
      none := by decide +kernel
  rintro ⟨r, h⟩
  rw [hnone] at h
  cases h

def hashOfLetter (bytes : List UInt8) : String :=
  if bytes = [98] then
    "10e5cf3d3c8a4f9f3468c8cc58eea84892a22fdadbc1acb22410190044c1d553"
  else "ea7aa1fc9efdbe106dbb70369a75e9671fa29d52bd55536711bf197477b8f021"

theorem sanitize_total_injective_iff_letters :
    (∃ r r', (HashExcessLengthStrategy.mk 1).sanitize hashOfLetter "ab" =
        some r ∧
      (HashExcessLengthStrategy.mk 1).sanitize hashOfLetter "ac" = some r' ∧
        r ≠ r') ↔
      (HashExcessLengthStrategy.mk 1).Sliceable "ab" ∧
        (HashExcessLengthStrategy.mk 1).Sliceable "ac" := by
  refine (sanitize_total_injective_iff ⟨1⟩ hashOfLetter).2 "ab" "ac" rfl rfl
    (by decide) fun hsame => ?_
  revert hsame
  decide +kernel

end OpenKeyV
