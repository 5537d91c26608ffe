import OpenKeyV.Python.Value
import OpenKeyV.Wrapper.TtlClamp

/-!
# TTL arguments and instants of the Python package

`_utils/time_to_live.py`, with `_prepare_entry_timestamps` of `py/entry.rs`.
A `datetime` lies in the years 1 to 9999, to the millisecond here.
-/

namespace OpenKeyV.Python

def isFloatError (kind : PyErrorKind) : Bool :=
  kind = .typeError || kind = .valueError || kind = .overflowError

structure SupportsFloat where
  float : Except PyError F64
  raises : ∀ error, float = .error error → isFloatError error.kind = true
  isBool : Bool
  str : String
  typeName : String

def SupportsFloat.ofF64 (seconds : F64) : SupportsFloat :=
  ⟨.ok seconds, (fun _ h => by cases h), false, toString seconds, "float"⟩

def invalidTtlError (ttl : Option SupportsFloat) : PyError :=
  let str := (ttl.map (·.str)).getD "None"
  let typeName := (ttl.map (·.typeName)).getD "NoneType"
  ⟨.invalidTtlError, s!"A TTL is invalid.: (ttl: {str};type: {typeName})"⟩

def corePrepareEntryTimestamps (now : DateTime) (ttl : Option F64) :
    Except PyError (Int × Option Int) := do
  let entry ← (ManagedEntry.ofTtl now .null ttl).mapError valueErrorToPy
  match entry.createdAt with
  | some createdAt =>
      return (createdAt.timestampMillis,
        entry.expiresAt.map (·.timestampMillis))
  | none => .error ⟨.runtimeError, "entry has no creation timestamp"⟩

def prepareTtl (now : DateTime) :
    Option SupportsFloat → Except PyError (Option F64)
  | none => .ok none
  | some t =>
      if t.isBool then .error (invalidTtlError (some t))
      else
        except isFloatError (fun _ => invalidTtlError (some t)) do
          let ttl ← t.float
          let _ ← corePrepareEntryTimestamps now (some ttl)
          return some ttl

def minDatetimeMillis : Int := -62135596800000

def maxDatetimeMillis : Int := 253402300799999

structure PyDatetime where
  millis : Int
  lower : minDatetimeMillis ≤ millis
  upper : millis ≤ maxDatetimeMillis

structure OutOfRange where
  error : Int → PyError
  raises : ∀ millis, (error millis).kind = .valueError ∨
    (error millis).kind = .overflowError

def fromTimestamp (outOfRange : OutOfRange) (millis : Int) :
    Except PyError PyDatetime :=
  if h : minDatetimeMillis ≤ millis ∧ millis ≤ maxDatetimeMillis then
    .ok ⟨millis, h.1, h.2⟩
  else .error (outOfRange.error millis)

def fromTimestamp? (outOfRange : OutOfRange) :
    Option Int → Except PyError (Option PyDatetime)
  | none => .ok none
  | some millis => (fromTimestamp outOfRange millis).map some

def prepareEntryTimestamps (outOfRange : OutOfRange) (now : DateTime)
    (ttl : Option SupportsFloat) :
    Except PyError (PyDatetime × Option F64 × Option PyDatetime) :=
  if ttl.any (·.isBool) then .error (invalidTtlError ttl)
  else do
    let (ttlSeconds, createdAtMillis, expiresAtMillis) ←
      except isFloatError (fun _ => invalidTtlError ttl) do
        let ttlSeconds ← match ttl with
          | none => .ok none
          | some t => t.float.map some
        let millis ← corePrepareEntryTimestamps now ttlSeconds
        return (ttlSeconds, millis)
    let createdAt ← fromTimestamp outOfRange createdAtMillis
    let expiresAt ← fromTimestamp? outOfRange expiresAtMillis
    return (createdAt, ttlSeconds, expiresAt)

section Accepted

variable {now : DateTime}

theorem corePrepare_ok {seconds : F64} {expires : DateTime}
    (h : ManagedEntry.expirationAt now seconds = .ok expires) :
    corePrepareEntryTimestamps now (some seconds) =
      .ok (now.timestampMillis, some expires.timestampMillis) := by
  simp only [corePrepareEntryTimestamps, ManagedEntry.ofTtl,
    ManagedEntry.withTtl, h, bind, Except.bind, pure, Except.pure,
    Except.mapError, Option.map_some]

theorem corePrepare_invalid {seconds : F64} (h : ¬ ValidTtl now seconds) :
    ∃ message, corePrepareEntryTimestamps now (some seconds) =
      .error ⟨.valueError, message⟩ := by
  obtain ⟨text, htext⟩ := Memory.expirationAt_of_invalid h
  refine ⟨(Error.invalidTtl text).text, ?_⟩
  simp only [corePrepareEntryTimestamps, ManagedEntry.ofTtl,
    ManagedEntry.withTtl, htext, bind, Except.bind, Except.mapError,
    valueErrorToPy]

theorem prepareTtl_cases (now : DateTime) (ttl : SupportsFloat) :
    (ttl.isBool = false ∧ ∃ seconds, ttl.float = .ok seconds ∧
      ValidTtl now seconds ∧
        prepareTtl now (some ttl) = .ok (some seconds)) ∨
    (∀ seconds, ttl.isBool = false → ttl.float = .ok seconds →
        ¬ ValidTtl now seconds) ∧
      prepareTtl now (some ttl) = .error (invalidTtlError (some ttl)) := by
  cases hbool : ttl.isBool with
  | true =>
      refine .inr ⟨?_, by rw [prepareTtl, if_pos hbool]⟩
      intro _ h
      cases h
  | false =>
      rw [prepareTtl, if_neg (by simp [hbool])]
      cases hfloat : ttl.float with
      | error error =>
          refine .inr ⟨?_, ?_⟩
          · intro _ _ h
            cases h
          · simp only [bind, Except.bind, except, ttl.raises error hfloat,
              if_true]
      | ok seconds =>
          by_cases hvalid : ValidTtl now seconds
          · obtain ⟨expires, hexpires⟩ := hvalid
            refine .inl ⟨rfl, seconds, rfl, ⟨expires, hexpires⟩, ?_⟩
            simp only [corePrepare_ok hexpires, bind, Except.bind, except,
              pure, Except.pure]
          · obtain ⟨message, hmessage⟩ := corePrepare_invalid hvalid
            refine .inr ⟨?_, ?_⟩
            · rintro _ - ⟨⟩
              exact hvalid
            · simp only [hmessage, bind, Except.bind, except, isFloatError]
              rfl

theorem prepareTtl_ofF64 {seconds : F64} (h : ValidTtl now seconds) :
    prepareTtl now (some (.ofF64 seconds)) = .ok (some seconds) := by
  rcases prepareTtl_cases now (.ofF64 seconds) with
    ⟨-, _, hfloat, -, hprepare⟩ | ⟨hinvalid, -⟩
  · cases hfloat
    exact hprepare
  · exact absurd h (hinvalid seconds rfl rfl)

theorem prepareTtl_ofF64_invalid {seconds : F64}
    (h : ¬ ValidTtl now seconds) :
    prepareTtl now (some (.ofF64 seconds)) =
      .error (invalidTtlError (some (.ofF64 seconds))) := by
  rcases prepareTtl_cases now (.ofF64 seconds) with
    ⟨-, _, hfloat, hvalid, -⟩ | ⟨-, hprepare⟩
  · cases hfloat
    exact absurd hvalid h
  · exact hprepare

end Accepted

end OpenKeyV.Python
