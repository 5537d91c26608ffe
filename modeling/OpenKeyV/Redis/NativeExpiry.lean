import OpenKeyV.DynamoDB.Items
import OpenKeyV.Entry.Lifetime
import OpenKeyV.Redis.Store

/-!
# Deadlines that a server keeps

`RedisStore` rounds a TTL up to the milliseconds of `PSETEX` while the entry
rounds it down, and `"0"` stands for no deadline.  `DynamoDBStore` rounds the
deadline of an entry up to a second.
-/

namespace OpenKeyV.Redis

open ManagedEntry

def millisecondsArg (ttl : Option F64) : String :=
  (ttl.map fun seconds =>
    toString ((seconds.scale 1000).ceil.toUnsigned 64)).getD "0"

section Rounding

variable {secs : Rat}

theorem ceil_pos (hpos : 0 < secs) : 0 < (secs * 1000).ceil := by
  rw [Rat.lt_ceil_iff, Int.cast_zero]
  linarith

theorem lifetimeMillis_le_ceil (secs : Rat) :
    lifetimeMillis secs ≤ (secs * 1000).ceil := by
  have hfloor : (lifetimeMillis secs : Rat) ≤ secs * 1000 := Rat.floor_le _
  exact_mod_cast hfloor.trans Rat.le_ceil

theorem ceil_le (hsmall : secs * 1000 ≤ 2 ^ 63) :
    (secs * 1000).ceil ≤ 2 ^ 63 := by
  rw [Rat.ceil_le_iff]
  exact_mod_cast hsmall

theorem toUnsigned_ceil (hsmall : secs * 1000 ≤ 2 ^ 63) :
    ((F64.finite secs).scale 1000).ceil.toUnsigned 64 =
      ttlMilliseconds (some (.finite secs)) := by
  have hle := ceil_le hsmall
  simp only [F64.scale, F64.ceil, F64.toUnsigned, ttlMilliseconds,
    Rat.floor_intCast]
  omega

end Rounding

/-- A deadline that the server keeps is not before the one in the entry, and
a TTL never becomes the absence of one. -/
theorem native_deadlines_cover :
    (∀ created value ttl entry, withTtl created value ttl = .ok entry →
      ∃ expires, entry.expiresAt = some expires ∧
        millisecondsArg (some ttl) =
          toString (ttlMilliseconds (some ttl)) ∧
        0 < ttlMilliseconds (some ttl) ∧
        ttlMilliseconds (some ttl) < 2 ^ 64 ∧
        millisecondsArg (some ttl) ≠ "0" ∧
        expires.nanos ≤ created.nanos +
          ttlMilliseconds (some ttl) * nanosPerMilli) ∧
      ∀ millis : Int, -2 ^ 63 ≤ millis → millis < 2 ^ 63 →
        -2 ^ 63 ≤ DynamoDB.nativeTtlSeconds millis ∧
          DynamoDB.nativeTtlSeconds millis < 2 ^ 63 ∧
          millis ≤ DynamoDB.nativeTtlSeconds millis * 1000 ∧
          DynamoDB.nativeTtlSeconds millis * 1000 < millis + 1000 := by
  constructor
  · intro created value ttl entry h
    obtain ⟨expires, hexpires, rfl⟩ := withTtl_eq_ok.mp h
    obtain ⟨secs, rfl, hpos, hsmall, hnanos⟩ := expirationAt_eq_ok.mp hexpires
    have hceil := ceil_pos hpos
    have hle := ceil_le hsmall
    have hcover := lifetimeMillis_le_ceil secs
    have harg : millisecondsArg (some (.finite secs)) =
        toString (ttlMilliseconds (some (.finite secs))) :=
      congrArg toString (toUnsigned_ceil hsmall)
    have hmillis : 0 < ttlMilliseconds (some (.finite secs)) := by
      simp only [ttlMilliseconds]
      omega
    refine ⟨expires, rfl, harg, hmillis, ?_, ?_, ?_⟩
    · simp only [ttlMilliseconds]
      omega
    · rw [harg]
      intro hzero
      have := Library.toString_nat_inj (m := 0) hzero
      omega
    · simp only [hnanos, ttlMilliseconds, nanosPerMilli]
      omega
  · intro millis hlow hhigh
    obtain ⟨hlower, hupper⟩ := DynamoDB.nativeTtlSeconds_range millis hlow hhigh
    obtain ⟨hcover, hclose⟩ := DynamoDB.nativeTtlSeconds_bounds millis
    exact ⟨hlower, hupper, hcover, hclose⟩

/-- Half a millisecond is one millisecond for the server, and a millisecond
before the epoch is covered by second zero. -/
theorem native_deadlines_cover_half :
    (∃ expires, some DateTime.epoch = some expires ∧
      millisecondsArg (some (.finite (1 / 2000))) =
        toString (ttlMilliseconds (some (.finite (1 / 2000)))) ∧
      0 < ttlMilliseconds (some (.finite (1 / 2000))) ∧
      ttlMilliseconds (some (.finite (1 / 2000))) < 2 ^ 64 ∧
      millisecondsArg (some (.finite (1 / 2000))) ≠ "0" ∧
      expires.nanos ≤ DateTime.epoch.nanos +
        ttlMilliseconds (some (.finite (1 / 2000))) * nanosPerMilli) ∧
      -2 ^ 63 ≤ DynamoDB.nativeTtlSeconds (-1) ∧
        DynamoDB.nativeTtlSeconds (-1) < 2 ^ 63 ∧
        -1 ≤ DynamoDB.nativeTtlSeconds (-1) * 1000 ∧
        DynamoDB.nativeTtlSeconds (-1) * 1000 < -1 + 1000 := by
  constructor
  · refine native_deadlines_cover.1 .epoch .null (.finite (1 / 2000))
      ⟨.null, some .epoch, some .epoch⟩ ?_
    decide +kernel
  · exact native_deadlines_cover.2 (-1) (by decide) (by decide)

end OpenKeyV.Redis
