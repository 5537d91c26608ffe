import OpenKeyV.Entry.Exact
import Mathlib.Algebra.Order.Field.Rat
import Mathlib.Tactic.Linarith
import Mathlib.Tactic.NormNum

/-!
# The lifetime that a TTL gives

`expirationAt` adds the whole milliseconds of a TTL to the instant of
creation.  A TTL below one millisecond is accepted and adds nothing.
-/

namespace OpenKeyV

namespace F64

def scale (factor : Rat) : F64 → F64
  | .finite value => .finite (value * factor)
  | value => value

def ceil : F64 → F64
  | .finite value => .finite value.ceil
  | value => value

def max (bound : Rat) : F64 → F64
  | .finite value => .finite (Max.max value bound)
  | .infinity false => .infinity false
  | .infinity true | .nan => .finite bound

/-- `as u64` or `as u32`: cut to an integer and saturated. -/
def toUnsigned (bits : Nat) : F64 → Nat
  | .nan => 0
  | .infinity negative => if negative then 0 else 2 ^ bits - 1
  | .finite value => min value.floor.toNat (2 ^ bits - 1)

end F64

namespace ManagedEntry

open Library

def lifetimeMillis (secs : Rat) : Int := (secs * 1000).floor

section Expiration

variable {created expires : DateTime} {secs : Rat}

theorem checkedAddMillis_eq_some {millis : Int} :
    created.checkedAddMillis millis = some expires ↔
      expires.nanos = created.nanos + millis * nanosPerMilli :=
  DateTime.ofNanos_eq_some

/-- The cast to `i64` changes no result that is in range. -/
theorem checkedAddMillis_saturated {millis : Int} :
    created.checkedAddMillis (min millis (2 ^ 63 - 1)) = some expires ↔
      expires.nanos = created.nanos + millis * nanosPerMilli := by
  rw [checkedAddMillis_eq_some]
  have hcreated := created.lower
  have hexpires := expires.upper
  simp only [nanosPerMilli, minMillis, maxMillis] at *
  omega

theorem expirationAt_eq_ok {ttlSecs : F64} :
    expirationAt created ttlSecs = .ok expires ↔
      ∃ secs, ttlSecs = .finite secs ∧ 0 < secs ∧ secs * 1000 ≤ 2 ^ 63 ∧
        expires.nanos = created.nanos +
          lifetimeMillis secs * nanosPerMilli := by
  cases ttlSecs with
  | nan => simp [expirationAt]
  | infinity negative => simp [expirationAt]
  | finite secs =>
      simp only [expirationAt, F64.finite.injEq, exists_eq_left']
      split
      · rename_i hneg
        simp [not_lt.mpr hneg]
      · rename_i hpos
        split
        · rename_i hlarge
          simp [not_le.mpr hlarge]
        · rename_i hsmall
          rw [not_le] at hpos
          rw [not_lt] at hsmall
          simp only [hpos, hsmall, true_and]
          rw [lifetimeMillis, ← checkedAddMillis_saturated]
          cases created.checkedAddMillis
              (min (secs * 1000).floor (2 ^ 63 - 1)) with
          | none => simp
          | some other => simp

theorem lifetimeMillis_nonneg (hpos : 0 < secs) : 0 ≤ lifetimeMillis secs := by
  rw [lifetimeMillis, Rat.le_floor_iff]
  simp only [Int.cast_zero]
  linarith

theorem lifetimeMillis_pos : 0 < lifetimeMillis secs ↔ 1 ≤ secs * 1000 := by
  have hone := @Rat.le_floor_iff 1 (secs * 1000)
  rw [Int.cast_one] at hone
  exact hone

theorem lifetimeMillis_mono {other : Rat} (h : secs ≤ other) :
    lifetimeMillis secs ≤ lifetimeMillis other :=
  Rat.floor_monotone (by linarith)

theorem withTtl_eq_ok {value : Value} {ttlSecs : F64} {entry : ManagedEntry} :
    withTtl created value ttlSecs = .ok entry ↔
      ∃ expires, expirationAt created ttlSecs = .ok expires ∧
        entry = ⟨value, some created, some expires⟩ := by
  rw [withTtl, bind_eq_ok]
  exact exists_congr fun expires =>
    and_congr_right fun _ => ⟨fun h => by cases h; rfl, fun h => h ▸ rfl⟩

theorem truncMillis_nanos {millis : Int}
    (h : expires.nanos = created.nanos + millis * nanosPerMilli) :
    expires.truncMillis.nanos =
      created.truncMillis.nanos + millis * nanosPerMilli := by
  simp only [DateTime.truncMillis, DateTime.timestampMillis, h]
  rw [Int.add_mul_ediv_right _ _ (by decide : nanosPerMilli ≠ 0)]
  exact Int.add_mul ..

end Expiration

structure LivesWithin (entry : ManagedEntry) (secs : Rat) : Prop where
  live : ∃ created expires, entry.createdAt = some created ∧
    entry.expiresAt = some expires ∧ created < expires ∧
    (expires.nanos : Rat) ≤ created.nanos + secs * 1000000000
  stored : ∃ read created expires, decode entry.encode = .ok read ∧
    read.createdAt = some created ∧ read.expiresAt = some expires ∧
    created < expires

theorem nanos_le {created expires : DateTime} {secs : Rat}
    (h : expires.nanos = created.nanos +
      lifetimeMillis secs * nanosPerMilli) :
    (expires.nanos : Rat) ≤ created.nanos + secs * 1000000000 := by
  have hfloor : (lifetimeMillis secs : Rat) ≤ secs * 1000 := Rat.floor_le _
  have hcast : (expires.nanos : Rat) =
      created.nanos + lifetimeMillis secs * 1000000 := by
    rw [h]
    push_cast [nanosPerMilli]
    rfl
  rw [hcast]
  linarith

theorem livesWithin_iff {created : DateTime} {value : Value} {secs : Rat}
    {entry : ManagedEntry} (hstorable : value.Storable)
    (h : withTtl created value (.finite secs) = .ok entry) :
    entry.LivesWithin secs ↔ 1 ≤ secs * 1000 := by
  obtain ⟨expires, hexpires, rfl⟩ := withTtl_eq_ok.mp h
  obtain ⟨secs', hsecs, hpos, -, hnanos⟩ := expirationAt_eq_ok.mp hexpires
  cases hsecs
  rw [← lifetimeMillis_pos]
  constructor
  · rintro ⟨⟨created', expires', hcreated, hexpires', hlt, -⟩, -⟩
    cases hcreated
    cases hexpires'
    rw [DateTime.lt_def, hnanos, nanosPerMilli] at hlt
    omega
  · intro hmillis
    have hdecode := decode_encode ⟨value, some created, some expires⟩
      hstorable.1 hstorable.2
    refine ⟨⟨created, expires, rfl, rfl, ?_, nanos_le hnanos⟩,
      ⟨_, _, _, hdecode, rfl, rfl, ?_⟩⟩
    · rw [DateTime.lt_def, hnanos, nanosPerMilli]
      omega
    · rw [DateTime.lt_def, truncMillis_nanos hnanos, nanosPerMilli]
      omega

theorem expirationAt_mono {created later expires expires' : DateTime}
    {secs secs' : Rat} (hcreated : created ≤ later) (hsecs : secs ≤ secs')
    (h : expirationAt created (.finite secs) = .ok expires)
    (h' : expirationAt later (.finite secs') = .ok expires') :
    expires ≤ expires' := by
  obtain ⟨_, heq, -, -, hnanos⟩ := expirationAt_eq_ok.mp h
  cases heq
  obtain ⟨_, heq, -, -, hnanos'⟩ := expirationAt_eq_ok.mp h'
  cases heq
  have hmono := lifetimeMillis_mono hsecs
  rw [DateTime.le_def] at hcreated ⊢
  rw [hnanos, hnanos', nanosPerMilli]
  omega

/-- An accepted TTL gives a lifetime exactly from one millisecond on, and the
deadline grows with the TTL and with the instant of creation. -/
theorem lifetime_iff_millisecond {created : DateTime} {value : Value}
    {ttlSecs : F64} {entry : ManagedEntry} (hstorable : value.Storable)
    (h : withTtl created value ttlSecs = .ok entry) :
    ∃ secs, ttlSecs = .finite secs ∧
      (entry.LivesWithin secs ↔ 1 ≤ secs * 1000) ∧
      ∀ later secs' value' entry' expires expires', created ≤ later →
        secs ≤ secs' → withTtl later value' (.finite secs') = .ok entry' →
        entry.expiresAt = some expires → entry'.expiresAt = some expires' →
        expires ≤ expires' := by
  obtain ⟨expires, hexpires, rfl⟩ := withTtl_eq_ok.mp h
  obtain ⟨secs, rfl, -, -, -⟩ := expirationAt_eq_ok.mp hexpires
  refine ⟨secs, rfl, livesWithin_iff hstorable h, ?_⟩
  intro later secs' value' entry' expires₁ expires₂ hlater hsecs h' hsome hsome'
  obtain ⟨expires', hexpires', rfl⟩ := withTtl_eq_ok.mp h'
  cases hsome
  cases hsome'
  exact expirationAt_mono hlater hsecs hexpires hexpires'

abbrev second : DateTime := ⟨1000000000, by decide, by decide⟩

theorem lifetime_iff_millisecond_second :
    ∃ secs, F64.finite 1 = .finite secs ∧
      (ManagedEntry.LivesWithin ⟨.null, some .epoch, some second⟩ secs ↔
        1 ≤ secs * 1000) ∧
      ∀ later secs' value' entry' expires expires', DateTime.epoch ≤ later →
        secs ≤ secs' → withTtl later value' (.finite secs') = .ok entry' →
        some second = some expires → entry'.expiresAt = some expires' →
        expires ≤ expires' := by
  refine @lifetime_iff_millisecond _ .null _ _ ⟨rfl, by decide⟩ ?_
  decide +kernel

/-- Half a millisecond is accepted, and the entry has expired at once. -/
theorem half_millisecond_expires_at_once :
    ¬ ∀ (created : DateTime) (value : Value) (secs : Rat)
      (entry : ManagedEntry), value.Storable →
      withTtl created value (.finite secs) = .ok entry →
      entry.LivesWithin secs := by
  intro h
  have hentry : withTtl .epoch .null (.finite (1 / 2000)) =
      .ok ⟨.null, some .epoch, some .epoch⟩ := by decide +kernel
  have hlives := h _ _ _ _ ⟨rfl, by decide⟩ hentry
  have hmillis := (livesWithin_iff ⟨rfl, by decide⟩ hentry).mp hlives
  norm_num at hmillis

end ManagedEntry

end OpenKeyV
