import OpenKeyV.Error
import Mathlib.Data.Rat.Defs

/-!
# Instants and `f64` durations

`DateTime` is an instant of `chrono::DateTime<Utc>`: nanoseconds since the
Unix epoch, between the first and the last instant that `chrono` represents.
A TTL argument of type `f64` is a NaN, an infinity or an exact rational: the
rounding of floating-point products is not modelled.
-/

namespace OpenKeyV

def nanosPerMilli : Int := 1000000

/-- First and last millisecond that `chrono` represents. -/
def minMillis : Int := -8334601228800000

def maxMillis : Int := 8210266876799999

structure DateTime where
  nanos : Int
  lower : minMillis ≤ nanos / nanosPerMilli
  upper : nanos / nanosPerMilli ≤ maxMillis
  deriving DecidableEq, Repr

namespace DateTime

instance : LE DateTime := ⟨fun a b => a.nanos ≤ b.nanos⟩

instance : LT DateTime := ⟨fun a b => a.nanos < b.nanos⟩

instance (a b : DateTime) : Decidable (a ≤ b) :=
  inferInstanceAs (Decidable (a.nanos ≤ b.nanos))

instance (a b : DateTime) : Decidable (a < b) :=
  inferInstanceAs (Decidable (a.nanos < b.nanos))

theorem le_def {a b : DateTime} : a ≤ b ↔ a.nanos ≤ b.nanos := Iff.rfl

theorem lt_def {a b : DateTime} : a < b ↔ a.nanos < b.nanos := Iff.rfl

def ofNanos (nanos : Int) : Option DateTime :=
  if h : minMillis ≤ nanos / nanosPerMilli ∧
      nanos / nanosPerMilli ≤ maxMillis then
    some ⟨nanos, h.1, h.2⟩
  else none

theorem ofNanos_eq_some {nanos : Int} {t : DateTime} :
    ofNanos nanos = some t ↔ t.nanos = nanos := by
  unfold ofNanos
  split
  · rw [Option.some.injEq]
    constructor
    · rintro rfl
      rfl
    · intro h
      cases t
      cases h
      rfl
  · rename_i hrange
    constructor
    · intro h
      cases h
    · rintro rfl
      exact absurd ⟨t.lower, t.upper⟩ hrange

def epoch : DateTime := ⟨0, by decide, by decide⟩

-- One second and half a millisecond after the epoch are in the range.

theorem second_lower : minMillis ≤ 1000000000 / nanosPerMilli := by decide

theorem second_upper : 1000000000 / nanosPerMilli ≤ maxMillis := by decide

theorem halfMilli_lower : minMillis ≤ 500000 / nanosPerMilli := by decide

theorem halfMilli_upper : 500000 / nanosPerMilli ≤ maxMillis := by decide

def timestampMillis (t : DateTime) : Int := t.nanos / nanosPerMilli

/-- `Utc.timestamp_millis_opt(millis).single()`, also the behaviour of
`DateTime::from_timestamp_millis`. -/
def timestampMillisOpt (millis : Int) : Option DateTime :=
  ofNanos (millis * nanosPerMilli)

/-- `checked_add_signed` of a whole number of milliseconds. -/
def checkedAddMillis (t : DateTime) (millis : Int) : Option DateTime :=
  ofNanos (t.nanos + millis * nanosPerMilli)

def truncMillis (t : DateTime) : DateTime :=
  ⟨t.timestampMillis * nanosPerMilli,
    by simpa [timestampMillis, nanosPerMilli] using t.lower,
    by simpa [timestampMillis, nanosPerMilli] using t.upper⟩

/-- The instant with its part below a microsecond dropped, which is what a
driver binds to a `TIMESTAMPTZ`. -/
def truncMicros (t : DateTime) : DateTime :=
  have hmillis : t.nanos / 1000 * 1000 / nanosPerMilli =
      t.nanos / nanosPerMilli := by
    unfold nanosPerMilli
    omega
  ⟨t.nanos / 1000 * 1000, hmillis ▸ t.lower, hmillis ▸ t.upper⟩

@[simp] theorem timestampMillis_truncMillis (t : DateTime) :
    t.truncMillis.timestampMillis = t.timestampMillis := by
  simp [truncMillis, timestampMillis, nanosPerMilli]

@[simp] theorem timestampMillis_truncMicros (t : DateTime) :
    t.truncMicros.timestampMillis = t.timestampMillis := by
  simp only [truncMicros, timestampMillis, nanosPerMilli]
  omega

theorem truncMillis_truncMicros (t : DateTime) :
    t.truncMicros.truncMillis = t.truncMillis := by
  simp only [truncMillis, timestampMillis_truncMicros]

@[simp] theorem timestampMillisOpt_timestampMillis (t : DateTime) :
    timestampMillisOpt t.timestampMillis = some t.truncMillis := by
  unfold timestampMillisOpt ofNanos
  exact dif_pos ⟨t.truncMillis.lower, t.truncMillis.upper⟩

end DateTime

inductive F64 where
  | nan
  | infinity (negative : Bool)
  | finite (value : Rat)
  deriving DecidableEq, Repr

instance : ToString F64 where
  toString
    | .nan => "NaN"
    | .infinity false => "inf"
    | .infinity true => "-inf"
    | .finite value => toString value

end OpenKeyV
