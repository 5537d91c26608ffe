import OpenKeyV.Value

/-!
# Managed entries

Values are stored with their creation and expiration instants.  Functions of
`entry/mod.rs` that call `Utc::now()` take the reading as an argument.
-/

namespace OpenKeyV

structure ManagedEntry where
  value : Value
  createdAt : Option DateTime
  expiresAt : Option DateTime
  deriving DecidableEq, Repr

namespace ManagedEntry

def new (now : DateTime) (value : Value) : ManagedEntry :=
  ⟨value, some now, none⟩

def expirationAt (createdAt : DateTime) (ttlSecs : F64) :
    Except Error DateTime :=
  match ttlSecs with
  | .finite secs =>
      if secs ≤ 0 then
        .error (.invalidTtl
          s!"must be finite and greater than zero, got {ttlSecs}")
      else
        let ttlMillis := secs * 1000
        if 2 ^ 63 < ttlMillis then
          .error (.invalidTtl s!"exceeds the supported range: {ttlSecs}")
        else
          match createdAt.checkedAddMillis (min ttlMillis.floor (2 ^ 63 - 1)) with
          | some expires => .ok expires
          | none =>
              .error (.invalidTtl s!"exceeds the supported range: {ttlSecs}")
  | .nan | .infinity _ =>
      .error (.invalidTtl
        s!"must be finite and greater than zero, got {ttlSecs}")

def withTtl (now : DateTime) (value : Value) (ttlSecs : F64) :
    Except Error ManagedEntry := do
  let expiresAt ← expirationAt now ttlSecs
  return ⟨value, some now, some expiresAt⟩

def validateTtl (now : DateTime) (ttlSecs : F64) : Except Error Unit := do
  let _ ← expirationAt now ttlSecs

def ofTtl (now : DateTime) (value : Value) :
    Option F64 → Except Error ManagedEntry
  | some seconds => withTtl now value seconds
  | none => .ok (new now value)

def isExpired (entry : ManagedEntry) (now : DateTime) : Bool :=
  match entry.expiresAt with
  | none => false
  | some expires => decide (expires ≤ now)

/-- Remaining TTL in seconds, at millisecond resolution. -/
def ttl (entry : ManagedEntry) (now : DateTime) : Option F64 :=
  match entry.expiresAt with
  | none => none
  | some expires =>
      if expires ≤ now then some (.finite 0)
      else
        let millis := (expires.nanos - now.nanos) / nanosPerMilli
        some (.finite (millis / 1000))

theorem ttl_eq_none (entry : ManagedEntry) (now : DateTime) :
    entry.ttl now = none ↔ entry.expiresAt = none := by
  unfold ttl
  cases entry.expiresAt with
  | none => simp
  | some expires => simp only [reduceCtorEq, iff_false]; split <;> simp

theorem value_of_ofTtl {now : DateTime} {value : Value} {ttl : Option F64}
    {entry : ManagedEntry} (h : ofTtl now value ttl = .ok entry) :
    entry.value = value := by
  cases ttl with
  | none =>
      cases h
      rfl
  | some seconds =>
      simp only [ofTtl, withTtl, bind, Except.bind, pure, Except.pure] at h
      split at h
      · cases h
      · cases h
        rfl

theorem expirationAt_error {now : DateTime} {seconds : F64} {e : Error}
    (h : expirationAt now seconds = .error e) :
    ∃ text, e = .invalidTtl text := by
  unfold expirationAt at h
  split at h
  · split at h
    · cases h
      exact ⟨_, rfl⟩
    · simp only at h
      split at h
      · cases h
        exact ⟨_, rfl⟩
      · split at h
        · cases h
        · cases h
          exact ⟨_, rfl⟩
  · cases h
    exact ⟨_, rfl⟩
  · cases h
    exact ⟨_, rfl⟩

theorem ofTtl_error {now : DateTime} {value : Value} {ttl : Option F64}
    {e : Error}
    (h : ofTtl now value ttl = .error e) :
    ∃ text, e = .invalidTtl text := by
  cases ttl with
  | none => cases h
  | some seconds =>
      unfold ofTtl withTtl at h
      cases hexpires : expirationAt now seconds with
      | ok expires => simp [hexpires, bind, Except.bind, pure, Except.pure] at h
      | error e' =>
          simp only [hexpires, bind, Except.bind, Except.error.injEq] at h
          exact h ▸ expirationAt_error hexpires

/-- Whether a TTL is accepted does not depend on the value. -/
theorem ofTtl_cases (now : DateTime) (ttl : Option F64) :
    ((∀ value, ∃ entry, ofTtl now value ttl = .ok entry) ∧
        ∀ seconds, ttl = some seconds →
          validateTtl now seconds = .ok ()) ∨
      ∃ error, (∀ value, ofTtl now value ttl = .error error) ∧
        ∃ seconds, ttl = some seconds ∧
          validateTtl now seconds = .error error := by
  cases ttl with
  | none => exact .inl ⟨fun value => ⟨_, rfl⟩, by simp⟩
  | some seconds =>
      simp only [ofTtl, withTtl, validateTtl]
      cases hat : expirationAt now seconds with
      | error error =>
          refine .inr ⟨error, fun _ => rfl, seconds, rfl, ?_⟩
          rw [hat]
          rfl
      | ok expires =>
          refine .inl ⟨fun _ => ⟨_, rfl⟩, ?_⟩
          rintro _ ⟨⟩
          rw [hat]
          rfl

theorem isExpired_mono {entry : ManagedEntry} {now later : DateTime}
    (hle : now ≤ later) (h : entry.isExpired now = true) :
    entry.isExpired later = true := by
  unfold isExpired at *
  cases hexpires : entry.expiresAt with
  | none => simp [hexpires] at h
  | some expires =>
      simp only [hexpires, decide_eq_true_eq, DateTime.le_def] at h hle ⊢
      omega

end ManagedEntry

end OpenKeyV
