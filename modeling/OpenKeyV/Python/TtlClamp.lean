import OpenKeyV.Python.TimeToLive

/-!
# The two TTL clamps

`TTLClampWrapper` of the Python package validates a TTL before it clamps it;
the wrapper in Rust clamps it first.
-/

namespace OpenKeyV.Python

open Wrapper

def pyMax (first second : F64) : F64 :=
  if first.lt second then second else first

def pyMin (first second : F64) : F64 :=
  if second.lt first then second else first

def isFinite : F64 → Bool
  | .finite _ => true
  | _ => false

structure TTLClampWrapper where
  minTtl : F64
  maxTtl : F64
  missingTtl : Option F64

namespace TTLClampWrapper

def init (minTtl maxTtl : SupportsFloat) (missingTtl : Option SupportsFloat) :
    Except PyError TTLClampWrapper :=
  if minTtl.isBool || maxTtl.isBool || missingTtl.any (·.isBool) then
    .error ⟨.typeError, "TTL clamp values must be finite numbers"⟩
  else do
    let minTtl ← minTtl.float
    let maxTtl ← maxTtl.float
    let missingTtl ← match missingTtl with
      | some missingTtl => missingTtl.float.map some
      | none => .ok none
    if !isFinite minTtl || minTtl.lt (.finite 0) then
      .error ⟨.valueError,
        "min_ttl must be finite and greater than or equal to zero"⟩
    else if !isFinite maxTtl || !(F64.finite 0).lt maxTtl then
      .error ⟨.valueError, "max_ttl must be finite and greater than zero"⟩
    else if maxTtl.lt minTtl then
      .error ⟨.valueError, "min_ttl must be less than or equal to max_ttl"⟩
    else if missingTtl.any fun missingTtl =>
        !isFinite missingTtl || !(F64.finite 0).lt missingTtl then
      .error ⟨.valueError, "missing_ttl must be finite and greater than zero"⟩
    else .ok ⟨minTtl, maxTtl, missingTtl⟩

def ttlClamp (w : TTLClampWrapper) (now : DateTime)
    (ttl : Option SupportsFloat) : Except PyError (Option F64) :=
  let missing := w.missingTtl.map SupportsFloat.ofF64
  match ttl.or missing with
  | none => .ok none
  | some ttl => do
      let ttl ← prepareTtl now (some ttl)
      return ttl.map fun ttl => pyMax w.minTtl (pyMin ttl w.maxTtl)

end TTLClampWrapper

section Bounds

variable {low high : Rat}

theorem bounds_of_init {minTtl maxTtl : SupportsFloat} {w : TTLClampWrapper}
    (h : TTLClampWrapper.init minTtl maxTtl none = .ok w) :
    ∃ low high : Rat, w = ⟨.finite low, .finite high, none⟩ ∧
      0 ≤ low ∧ 0 < high ∧ low ≤ high := by
  unfold TTLClampWrapper.init at h
  split at h
  · cases h
  · obtain ⟨low, -, high, -, h⟩ : ∃ low, minTtl.float = .ok low ∧ ∃ high,
        maxTtl.float = .ok high ∧ _ := by
      obtain ⟨low, hlow, h⟩ := bind_eq_ok.mp h
      obtain ⟨high, hhigh, h⟩ := bind_eq_ok.mp h
      exact ⟨low, hlow, high, hhigh, h⟩
    simp only [bind, Except.bind, Option.any_none, Bool.false_eq_true,
      if_false] at h
    split at h
    · cases h
    · rename_i hmin
      split at h
      · cases h
      · rename_i hmax
        split at h
        · cases h
        · rename_i horder
          cases h
          cases low with
          | nan | infinity => simp [isFinite] at hmin
          | finite low =>
              cases high with
              | nan | infinity => simp [isFinite] at hmax
              | finite high =>
                  refine ⟨low, high, rfl, ?_, ?_, ?_⟩
                  · simpa [isFinite, F64.lt] using hmin
                  · simpa [isFinite, F64.lt] using hmax
                  · simpa [F64.lt] using horder

def rustClamped (low high : Rat) (seconds : F64) : F64 :=
  (seconds.maxNum (.finite low)).minNum (.finite high)

theorem clampTtl_some (seconds : F64) :
    (TtlClampWrapper.withRange (.finite low) (.finite high)).clampTtl
      (some seconds) = some (rustClamped low high seconds) := rfl

theorem rustClamped_low {seconds : F64} (horder : low ≤ high)
    (h : seconds = .nan ∨ seconds = .infinity true) :
    rustClamped low high seconds = .finite low := by
  rcases h with rfl | rfl <;>
    simp [rustClamped, F64.maxNum, F64.minNum, F64.lt, not_lt.mpr horder]

theorem rustClamped_infinity :
    rustClamped low high (.infinity false) = .finite high := by
  simp [rustClamped, F64.maxNum, F64.minNum, F64.lt]

theorem rustClamped_finite (seconds : Rat) :
    rustClamped low high (.finite seconds) =
      .finite (min (max seconds low) high) := by
  rw [rustClamped, F64.maxNum_finite, F64.minNum_finite]

theorem pyMin_finite (first second : Rat) :
    pyMin (.finite first) (.finite second) = .finite (min first second) := by
  simp only [pyMin, F64.lt_finite, decide_eq_true_eq]
  split
  · rename_i h
    rw [min_eq_right h.le]
  · rename_i h
    rw [min_eq_left (not_lt.mp h)]

theorem pyMax_finite (first second : Rat) :
    pyMax (.finite first) (.finite second) = .finite (max first second) := by
  simp only [pyMax, F64.lt_finite, decide_eq_true_eq]
  split
  · rename_i h
    rw [max_eq_right h.le]
  · rename_i h
    rw [max_eq_left (not_lt.mp h)]

theorem pyClamped_finite (seconds : Rat) (horder : low ≤ high) :
    pyMax (.finite low) (pyMin (.finite seconds) (.finite high)) =
      rustClamped low high (.finite seconds) := by
  rw [rustClamped_finite, pyMin_finite, pyMax_finite, max_min_distrib_left,
    max_eq_right horder, max_comm]

variable {checked now : DateTime}

/-- The bound that a TTL outside of the numbers above zero is clamped to, or
one that is too large. -/
def boundFor (w : TTLClampWrapper) (seconds : F64) : F64 :=
  if (F64.finite 0).lt seconds then w.maxTtl else w.minTtl

theorem validTtl_clamped (hlow : 0 ≤ low) (horder : low ≤ high)
    (hclock : checked ≤ now) {seconds : F64}
    (hinvalid : ¬ ValidTtl checked seconds) :
    ValidTtl now (rustClamped low high seconds) ↔
      ValidTtl now (boundFor ⟨.finite low, .finite high, none⟩ seconds) := by
  cases seconds with
  | nan => rw [rustClamped_low horder (.inl rfl)]; rfl
  | infinity negative =>
      cases negative with
      | true => rw [rustClamped_low horder (.inr rfl)]; rfl
      | false => rw [rustClamped_infinity]; rfl
  | finite seconds =>
      rw [rustClamped_finite, boundFor, F64.lt_finite]
      by_cases hpos : 0 < seconds
      · rw [if_pos (by simpa using hpos)]
        by_cases hle : high ≤ seconds
        · rw [min_eq_right (le_max_of_le_left hle)]
        · have hlt : seconds < high := not_le.mp hle
          have hbelow : ∀ longer, seconds ≤ longer →
              ¬ ValidTtl now (.finite longer) :=
            fun longer hlonger hvalid =>
              hinvalid (hvalid.anti hclock hpos hlonger)
          exact iff_of_false
            (hbelow _ (le_min (le_max_left _ _) hlt.le)) (hbelow _ hlt.le)
      · rw [if_neg (by simpa using hpos),
          max_eq_right ((not_lt.mp hpos).trans hlow), min_eq_left horder]

end Bounds

section Agreement

variable (config : Memory.MemoryConfig) (rng : Nat → Option Revision)
  (order : Memory.Order) (s : Memory.MemoryState)

def PutAccepted (w : TTLClampWrapper) (checked now : DateTime) (key : String)
    (value : OpenKeyV.Value) (collection : Option String) (ttl : Option F64) :
    Prop :=
  ∃ effective, w.ttlClamp checked (ttl.map SupportsFloat.ofF64) =
      .ok effective ∧
    ¬ Memory.Refused config rng now order s
      (.put key value collection effective)

def NoTtl : F64 → Prop
  | .finite seconds => seconds ≤ 0
  | _ => True

/-- The write through the wrapper in Rust and the put through the one of
Python are accepted together, with one effective TTL. -/
structure SameClamp (w : TTLClampWrapper) (checked now : DateTime)
    (write : Memory.Call) (key : String) (value : OpenKeyV.Value)
    (collection : Option String) (ttl : Option F64) : Prop where
  together : ¬ Memory.Refused config rng now order s
      ((TtlClampWrapper.withRange w.minTtl w.maxTtl).forward write) ↔
    PutAccepted config rng order s w checked now key value collection ttl
  effective : PutAccepted config rng order s w checked now key value
      collection ttl →
    w.ttlClamp checked (ttl.map SupportsFloat.ofF64) =
      .ok ((TtlClampWrapper.withRange w.minTtl w.maxTtl).clampTtl ttl)
  invalid : ∀ seconds, ttl = some seconds → NoTtl seconds →
    Memory.Refused config rng now order s
        ((TtlClampWrapper.withRange w.minTtl w.maxTtl).forward write) ∧
      ¬ PutAccepted config rng order s w checked now key value collection ttl
  within : PutAccepted config rng order s w checked now key value
      collection ttl →
    ∀ seconds, (TtlClampWrapper.withRange w.minTtl w.maxTtl).clampTtl ttl =
        some seconds →
      ∃ low n high : Rat, w.minTtl = .finite low ∧ seconds = .finite n ∧
        w.maxTtl = .finite high ∧ low ≤ n ∧ n ≤ high

variable {config rng order s} {w : TTLClampWrapper} {checked now : DateTime}
  {write : Memory.Call} {key : String} {value : OpenKeyV.Value}
  {collection : Option String} {ttl : Option F64} {low high : Rat}

theorem forward_refused (hsetup : s.setupComplete = true)
    (hwrite : write.ttl? = some ttl) (hsized : write.Sized)
    (clamp : TtlClampWrapper) :
    Memory.Refused config rng now order s (clamp.forward write) ↔
      ¬ ∀ seconds, clamp.clampTtl ttl = some seconds →
        ValidTtl now seconds := by
  cases write with
  | put | putMany | compareAndSwap =>
      cases hwrite
      exact Memory.refused_iff hsetup rfl hsized
  | get | ttl | delete | getMany | ttlMany | deleteMany | getWithRevision
  | compareAndDelete | subscribe | cull | keys | collections
  | destroyCollection | destroy => cases hwrite

theorem putAccepted_iff (hsetup : s.setupComplete = true) :
    PutAccepted config rng order s w checked now key value collection ttl ↔
      ∃ effective, w.ttlClamp checked (ttl.map SupportsFloat.ofF64) =
          .ok effective ∧
        ∀ seconds, effective = some seconds → ValidTtl now seconds := by
  have hrefused : ∀ effective, Memory.Refused config rng now order s
      (.put key value collection effective) ↔ _ :=
    fun effective => Memory.refused_iff hsetup rfl trivial
  simp only [PutAccepted, hrefused, not_not]

theorem not_noTtl_of_valid {seconds : F64} (h : ValidTtl now seconds) :
    ¬ NoTtl seconds := by
  cases seconds with
  | nan => exact absurd h not_validTtl_nan
  | infinity negative => exact absurd h (not_validTtl_infinity negative)
  | finite seconds => exact not_le.mpr (validTtl_finite.mp h).1

theorem sameClamp_absent (hsetup : s.setupComplete = true)
    (hwrite : write.ttl? = some none) (hsized : write.Sized) :
    SameClamp config rng order s ⟨.finite low, .finite high, none⟩ checked now
      write key value collection none := by
  have hrust := @forward_refused config rng order s now write none hsetup
    hwrite hsized (.withRange (.finite low) (.finite high))
  have hpython : PutAccepted config rng order s
      ⟨.finite low, .finite high, none⟩ checked now key value collection
      none := (putAccepted_iff hsetup).mpr ⟨none, rfl, fun _ h => by cases h⟩
  constructor
  · rw [hrust, not_not]
    exact iff_of_true (fun _ h => by cases h) hpython
  · exact fun _ => rfl
  · intro _ h
    cases h
  · intro _ _ h
    cases h

theorem sameClamp_valid (hsetup : s.setupComplete = true) (horder : low ≤ high)
    {seconds : F64} (hwrite : write.ttl? = some (some seconds))
    (hsized : write.Sized) (hvalid : ValidTtl checked seconds) :
    SameClamp config rng order s ⟨.finite low, .finite high, none⟩ checked now
      write key value collection (some seconds) := by
  obtain ⟨n, rfl⟩ : ∃ n, seconds = .finite n := by
    cases seconds with
    | nan => exact absurd hvalid not_validTtl_nan
    | infinity negative =>
        exact absurd hvalid (not_validTtl_infinity negative)
    | finite n => exact ⟨n, rfl⟩
  have hclamp : TTLClampWrapper.ttlClamp ⟨.finite low, .finite high, none⟩
      checked (some (.ofF64 (.finite n))) =
        .ok (some (rustClamped low high (.finite n))) := by
    rw [← pyClamped_finite n horder]
    simp only [TTLClampWrapper.ttlClamp, Option.some_or,
      prepareTtl_ofF64 hvalid, bind, Except.bind, pure, Except.pure,
      Option.map_some]
  have hpython := @putAccepted_iff config rng order s
    ⟨.finite low, .finite high, none⟩ checked now key value collection
    (some (.finite n)) hsetup
  have hrust := @forward_refused config rng order s now write _ hsetup
    hwrite hsized (.withRange (.finite low) (.finite high))
  constructor
  · rw [hrust, hpython, Option.map_some, hclamp, not_not]
    simp only [clampTtl_some, Except.ok.injEq, exists_eq_left']
  · exact fun _ => hclamp
  · intro _ h hno
    cases h
    exact absurd hno (not_noTtl_of_valid hvalid)
  · intro _ seconds h
    rw [clampTtl_some, rustClamped_finite] at h
    cases h
    exact ⟨low, _, high, rfl, rfl, rfl,
      le_min (le_max_right _ _) horder, min_le_right _ _⟩

theorem sameClamp_invalid (hsetup : s.setupComplete = true) (hlow : 0 ≤ low)
    (horder : low ≤ high) (hclock : checked ≤ now) {seconds : F64}
    (hwrite : write.ttl? = some (some seconds)) (hsized : write.Sized)
    (hinvalid : ¬ ValidTtl checked seconds) :
    SameClamp config rng order s ⟨.finite low, .finite high, none⟩ checked now
      write key value collection (some seconds) ↔
      ¬ ValidTtl now
        (boundFor ⟨.finite low, .finite high, none⟩ seconds) := by
  have hrust := @forward_refused config rng order s now write _ hsetup
    hwrite hsized (.withRange (.finite low) (.finite high))
  have hpython : ¬ PutAccepted config rng order s
      ⟨.finite low, .finite high, none⟩ checked now key value collection
      (some seconds) := by
    rintro ⟨effective, heffective, -⟩
    simp only [TTLClampWrapper.ttlClamp, Option.map_some, Option.some_or,
      prepareTtl_ofF64_invalid hinvalid, bind, Except.bind] at heffective
    cases heffective
  simp only [clampTtl_some, Option.some.injEq, forall_eq',
    validTtl_clamped hlow horder hclock hinvalid] at hrust
  constructor
  · intro h hbound
    exact hpython (h.together.mp fun hrefused => hrust.mp hrefused hbound)
  · intro hbound
    exact {
      together := iff_of_false
        (fun haccepted => haccepted (hrust.mpr hbound)) hpython
      effective := fun h => absurd h hpython
      invalid := fun _ _ _ => ⟨hrust.mpr hbound, hpython⟩
      within := fun h => absurd h hpython }

/-- The two wrappers agree on a TTL exactly if it is absent or valid on its
own, or the bound that it is clamped to is not valid either. -/
theorem clamps_agree (minTtl maxTtl : SupportsFloat) (w : TTLClampWrapper)
    (hinit : TTLClampWrapper.init minTtl maxTtl none = .ok w)
    (config : Memory.MemoryConfig) (rng : Nat → Option Revision)
    (order : Memory.Order) (s : Memory.MemoryState)
    (hsetup : s.setupComplete = true) (checked now : DateTime)
    (hclock : checked ≤ now) (write : Memory.Call) (ttl : Option F64)
    (hwrite : write.ttl? = some ttl) (hsized : write.Sized) (key : String)
    (value : OpenKeyV.Value) (collection : Option String) :
    SameClamp config rng order s w checked now write key value collection
      ttl ↔
      ∀ seconds, ttl = some seconds →
        ValidTtl checked seconds ∨ ¬ ValidTtl now (boundFor w seconds) := by
  obtain ⟨low, high, rfl, hlow, -, horder⟩ := bounds_of_init hinit
  cases ttl with
  | none =>
      exact iff_of_true (sameClamp_absent hsetup hwrite hsized)
        fun _ h => by cases h
  | some seconds =>
      simp only [Option.some.injEq, forall_eq']
      by_cases hvalid : ValidTtl checked seconds
      · exact iff_of_true (sameClamp_valid hsetup horder hwrite hsized hvalid)
          (.inl hvalid)
      · rw [sameClamp_invalid hsetup hlow horder hclock hwrite hsized hvalid]
        exact ⟨.inr, fun h => h.resolve_left hvalid⟩

def readyStore : Memory.MemoryState :=
  { Memory.MemoryState.empty with setupComplete := true }

def plainConfig : Memory.MemoryConfig := ⟨none, "default", none⟩

theorem init_ten_twenty :
    TTLClampWrapper.init (.ofF64 (.finite 10)) (.ofF64 (.finite 20)) none =
      .ok ⟨.finite 10, .finite 20, none⟩ := by
  rfl

theorem validTtl_five : ValidTtl .epoch (.finite 5) :=
  validTtl_finite.mpr ⟨by decide, by norm_num, by decide +kernel⟩

theorem validTtl_ten : ValidTtl .epoch (.finite 10) :=
  validTtl_finite.mpr ⟨by decide, by norm_num, by decide +kernel⟩

theorem clamps_agree_on_five :
    SameClamp plainConfig (fun _ => none) .stored readyStore
      ⟨.finite 10, .finite 20, none⟩ .epoch .epoch
      (.put "k" .null none (some (.finite 5))) "k" .null none
      (some (.finite 5)) := by
  refine (clamps_agree (.ofF64 (.finite 10)) (.ofF64 (.finite 20)) _
    init_ten_twenty plainConfig (fun _ => none) .stored readyStore rfl .epoch
    .epoch (le_refl DateTime.epoch.nanos)
    (.put "k" .null none (some (.finite 5))) (some (.finite 5)) rfl trivial
    "k" .null none).mpr ?_
  rintro _ ⟨⟩
  exact .inl validTtl_five

/-- A NaN becomes a TTL of ten seconds in Rust, and an error in Python. -/
theorem nan_becomes_minimum :
    TTLClampWrapper.init (.ofF64 (.finite 10)) (.ofF64 (.finite 20)) none =
        .ok ⟨.finite 10, .finite 20, none⟩ ∧
      (TtlClampWrapper.withRange (.finite 10) (.finite 20)).clampTtl
        (some .nan) = some (.finite 10) ∧
      ¬ SameClamp plainConfig (fun _ => none) .stored readyStore
        ⟨.finite 10, .finite 20, none⟩ .epoch .epoch
        (.put "k" .null none (some .nan)) "k" .null none (some .nan) := by
  refine ⟨init_ten_twenty, by decide, fun h => ?_⟩
  have hrefuted := @sameClamp_invalid plainConfig (fun _ => none) .stored
    readyStore .epoch .epoch (.put "k" .null none (some .nan)) "k" .null none
    10 20 rfl (by decide) (by decide) (le_refl DateTime.epoch.nanos) .nan rfl
    trivial not_validTtl_nan
  exact hrefuted.mp h validTtl_ten

end Agreement

end OpenKeyV.Python
