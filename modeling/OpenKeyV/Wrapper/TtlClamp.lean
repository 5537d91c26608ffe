import OpenKeyV.Memory.Expired
import Mathlib.Data.Rat.Floor
import Mathlib.Tactic.Linarith

/-!
# The TTL clamp

`TtlClampWrapper` of `wrapper/ttl_clamp.rs` brings the TTL of a write into a
range and leaves it to the store to reject what is no TTL.
-/

namespace OpenKeyV

namespace F64

def lt : F64 → F64 → Bool
  | .nan, _ | _, .nan => false
  | .infinity first, .infinity second => first && !second
  | .infinity negative, .finite _ => negative
  | .finite _, .infinity negative => !negative
  | .finite first, .finite second => decide (first < second)

/-- `f64::max`, which drops a NaN. -/
def maxNum (first second : F64) : F64 :=
  if first = .nan then second
  else if second = .nan then first
  else if first.lt second then second else first

/-- `f64::min`, which drops a NaN. -/
def minNum (first second : F64) : F64 :=
  if first = .nan then second
  else if second = .nan then first
  else if second.lt first then second else first

@[simp] theorem lt_finite (first second : Rat) :
    (F64.finite first).lt (.finite second) = decide (first < second) := rfl

@[simp] theorem maxNum_finite (first second : Rat) :
    (F64.finite first).maxNum (.finite second) =
      .finite (Max.max first second) := by
  simp only [maxNum, reduceCtorEq, if_false, lt_finite, decide_eq_true_eq]
  split
  · rename_i h
    rw [max_eq_right h.le]
  · rename_i h
    rw [max_eq_left (not_lt.mp h)]

@[simp] theorem minNum_finite (first second : Rat) :
    (F64.finite first).minNum (.finite second) =
      .finite (min first second) := by
  simp only [minNum, reduceCtorEq, if_false, lt_finite, decide_eq_true_eq]
  split
  · rename_i h
    rw [min_eq_right h.le]
  · rename_i h
    rw [min_eq_left (not_lt.mp h)]

end F64

namespace Wrapper

structure TtlClampWrapper where
  minTtl : Option F64
  maxTtl : Option F64
  missingTtl : Option F64

namespace TtlClampWrapper

def new : TtlClampWrapper := ⟨none, none, none⟩

def withMin (minTtl : F64) : TtlClampWrapper := ⟨some minTtl, none, none⟩

def withMax (maxTtl : F64) : TtlClampWrapper := ⟨none, some maxTtl, none⟩

def withRange (minTtl maxTtl : F64) : TtlClampWrapper :=
  ⟨some minTtl, some maxTtl, none⟩

def withMissingTtl (missingTtl : F64) : TtlClampWrapper :=
  ⟨none, none, some missingTtl⟩

def clampTtl (w : TtlClampWrapper) (ttl : Option F64) : Option F64 :=
  match ttl.or w.missingTtl with
  | some seconds =>
      let clamped := match w.minTtl with
        | some min => seconds.maxNum min
        | none => seconds
      match w.maxTtl with
      | some max => some (clamped.minNum max)
      | none => some clamped
  | none => none

def forward (w : TtlClampWrapper) : Memory.Call → Memory.Call
  | .put key value collection ttl =>
      .put key value collection (w.clampTtl ttl)
  | .putMany keys values collection ttl =>
      .putMany keys values collection (w.clampTtl ttl)
  | .compareAndSwap key expected value collection ttl =>
      .compareAndSwap key expected value collection (w.clampTtl ttl)
  | call => call

end TtlClampWrapper

end Wrapper

/-- A TTL with which an entry can be created at this instant. -/
def ValidTtl (now : DateTime) (ttl : F64) : Prop :=
  ∃ expires, ManagedEntry.expirationAt now ttl = .ok expires

section ValidTtl

variable {now : DateTime}

theorem not_validTtl_nan : ¬ ValidTtl now .nan := by
  rintro ⟨_, h⟩
  cases h

theorem not_validTtl_infinity (negative : Bool) :
    ¬ ValidTtl now (.infinity negative) := by
  rintro ⟨_, h⟩
  cases h

theorem validTtl_finite {seconds : Rat} :
    ValidTtl now (.finite seconds) ↔ 0 < seconds ∧ seconds * 1000 ≤ 2 ^ 63 ∧
      (now.nanos + min (seconds * 1000).floor (2 ^ 63 - 1) * nanosPerMilli) /
        nanosPerMilli ≤ maxMillis := by
  unfold ValidTtl ManagedEntry.expirationAt
  simp only
  split
  · rename_i hneg
    constructor
    · rintro ⟨_, h⟩
      cases h
    · intro h
      exact absurd h.1 (Rat.not_lt.mpr hneg)
  · rename_i hpos
    split
    · rename_i hlarge
      constructor
      · rintro ⟨_, h⟩
        cases h
      · intro h
        exact absurd h.2.1 (not_le.mpr hlarge)
    · rename_i hsmall
      have hfloor : 0 ≤ (seconds * 1000).floor := by
        rw [Rat.le_floor_iff]
        push_cast
        linarith
      have hlower := now.lower
      have hrange : minMillis ≤ (now.nanos +
          min (seconds * 1000).floor (2 ^ 63 - 1) * nanosPerMilli) /
            nanosPerMilli := by
        simp only [nanosPerMilli] at hlower ⊢
        omega
      by_cases hupper : (now.nanos +
          min (seconds * 1000).floor (2 ^ 63 - 1) * nanosPerMilli) /
            nanosPerMilli ≤ maxMillis
      · have hadd : ∃ t, now.checkedAddMillis
            (min (seconds * 1000).floor (2 ^ 63 - 1)) = some t :=
          ⟨_, dif_pos ⟨hrange, hupper⟩⟩
        obtain ⟨t, ht⟩ := hadd
        exact iff_of_true ⟨t, by rw [ht]⟩
          ⟨not_le.mp hpos, not_lt.mp hsmall, hupper⟩
      · have hadd : now.checkedAddMillis
            (min (seconds * 1000).floor (2 ^ 63 - 1)) = none :=
          dif_neg fun h => hupper h.2
        refine iff_of_false ?_ fun h => hupper h.2.2
        rintro ⟨_, h⟩
        rw [hadd] at h
        cases h

theorem ValidTtl.anti {later : DateTime} {seconds longer : Rat}
    (h : ValidTtl later (.finite longer)) (hnow : now ≤ later)
    (hpos : 0 < seconds) (hle : seconds ≤ longer) :
    ValidTtl now (.finite seconds) := by
  rw [validTtl_finite] at h ⊢
  obtain ⟨-, hsmall, hupper⟩ := h
  have hfloor : (seconds * 1000).floor ≤ (longer * 1000).floor :=
    Rat.floor_monotone (by linarith)
  rw [DateTime.le_def] at hnow
  refine ⟨hpos, by linarith, ?_⟩
  simp only [nanosPerMilli] at hupper ⊢
  omega

end ValidTtl

namespace Memory

def Call.ttl? : Call → Option (Option F64)
  | .put _ _ _ lifetime => some lifetime
  | .putMany _ _ _ lifetime => some lifetime
  | .compareAndSwap _ _ _ _ lifetime => some lifetime
  | _ => none

def Call.Sized : Call → Prop
  | .putMany named values _ _ => named.length = values.length
  | _ => True

section Refused

variable (config : MemoryConfig) (rng : Nat → Option Revision)
  (now : DateTime) (order : Order) (s : MemoryState)

def Refused (call : Call) : Prop :=
  ∃ text, (runAlone config rng now order call s).1 =
    .error (.invalidTtl text)

variable {config rng now order s}

theorem ofTtl_eq_ok (value : Value) {ttl : Option F64} :
    (∃ entry, ManagedEntry.ofTtl now value ttl = .ok entry) ↔
      ∀ seconds, ttl = some seconds → ValidTtl now seconds := by
  cases ttl with
  | none => exact iff_of_true ⟨_, rfl⟩ fun _ h => by cases h
  | some seconds =>
      simp only [ManagedEntry.ofTtl, ManagedEntry.withTtl, bind_eq_ok,
        Option.some.injEq, forall_eq', ValidTtl]
      constructor
      · rintro ⟨_, expires, hexpires, -⟩
        exact ⟨expires, hexpires⟩
      · rintro ⟨expires, hexpires⟩
        exact ⟨_, expires, hexpires, rfl⟩

theorem validateTtl_eq_ok {seconds : F64} :
    ManagedEntry.validateTtl now seconds = .ok () ↔ ValidTtl now seconds := by
  simp only [ManagedEntry.validateTtl, ValidTtl, bind_eq_ok]
  constructor
  · rintro ⟨expires, hexpires, -⟩
    exact ⟨expires, hexpires⟩
  · rintro ⟨expires, hexpires⟩
    exact ⟨expires, hexpires, rfl⟩

theorem validate_of_valid {ttl : Option F64}
    (h : ∀ seconds, ttl = some seconds → ValidTtl now seconds) :
    ttl.map (ManagedEntry.validateTtl now) = none ∨
      ttl.map (ManagedEntry.validateTtl now) = some (.ok ()) := by
  cases ttl with
  | none => exact .inl rfl
  | some seconds => exact .inr (congrArg some (validateTtl_eq_ok.mpr (h _ rfl)))

theorem expirationAt_of_invalid {seconds : F64}
    (h : ¬ ValidTtl now seconds) :
    ∃ text, ManagedEntry.expirationAt now seconds =
      .error (.invalidTtl text) := by
  cases hexpires : ManagedEntry.expirationAt now seconds with
  | ok expires => exact absurd ⟨expires, hexpires⟩ h
  | error e =>
      obtain ⟨text, rfl⟩ := ManagedEntry.expirationAt_error hexpires
      exact ⟨text, rfl⟩

theorem mapM_ofTtl (values : List Value) {ttl : Option F64}
    (h : ∀ seconds, ttl = some seconds → ValidTtl now seconds) :
    ∃ entries, (values.mapM fun value => ManagedEntry.ofTtl now value ttl) =
      .ok entries := by
  induction values with
  | nil => exact ⟨[], rfl⟩
  | cons value values ih =>
      obtain ⟨entry, hentry⟩ := (ofTtl_eq_ok value).mpr h
      obtain ⟨entries, hentries⟩ := ih
      exact ⟨entry :: entries, by
        simp only [List.mapM_cons, hentry, hentries, bind, Except.bind, pure,
          Except.pure]⟩

variable (rng) in
theorem fresh_accepts (s : MemoryState) (text : String) :
    (s.fresh rng).1 ≠ .error (.invalidTtl text) := by
  simp only [MemoryState.fresh]
  split <;> simp

variable (rng) in
theorem freshMany_accepts (n : Nat) (s : MemoryState) (text : String) :
    (freshMany rng n s).1 ≠ .error (.invalidTtl text) := by
  induction n generalizing s with
  | zero => simp [freshMany]
  | succ n ih =>
      have hfirst := fresh_accepts rng s text
      simp only [freshMany]
      revert hfirst
      rcases s.fresh rng with ⟨_ | revision, t⟩
      · intro hfirst
        simpa using hfirst
      · intro _
        have hrest := ih t
        simp only
        revert hrest
        rcases freshMany rng n t with ⟨_ | revisions, t'⟩
        · intro hrest
          simpa using hrest
        · simp

theorem put_accepts (name key : String) (stored : RevisionedEntry)
    (text : String) :
    (put config now order name s key stored).result ≠
      .error (.invalidTtl text) := by
  unfold put
  split <;> simp

theorem putMany_accepts (name : String) (keys : List String)
    (entries : List RevisionedEntry) (text : String) :
    (putMany config now order name s keys entries).result ≠
      .error (.invalidTtl text) := by
  unfold putMany
  simp only
  split <;> simp

theorem compareAndSwap_accepts (name key : String)
    (expected : Option Revision) (stored : RevisionedEntry) (text : String) :
    (compareAndSwap now name s key expected stored).result ≠
      .error (.invalidTtl text) := by
  have hcases := compareAndSwap_cases now s name key expected stored
  generalize compareAndSwap now name s key expected stored = locked at hcases ⊢
  cases hcases with
  | missing => simp [collectionNotFound]
  | rejected => simp
  | swept => simp
  | created => simp
  | swapped => simp

theorem prepare_accepts {call : Call} {ttl : Option F64}
    (hcall : call.ttl? = some ttl)
    (h : ∀ seconds, ttl = some seconds → ValidTtl now seconds)
    (text : String) :
    (finish config now order (prepare config rng now order s call)).1 ≠
      .error (.invalidTtl text) := by
  cases call with
  | get | ttl | delete | getMany | ttlMany | deleteMany | getWithRevision
  | compareAndDelete | subscribe | cull | keys | collections
  | destroyCollection | destroy => cases hcall
  | put key value collection ttl =>
      cases hcall
      obtain ⟨entry, hentry⟩ := (ofTtl_eq_ok value).mpr h
      simp only [prepare, hentry]
      have hfresh := fresh_accepts rng
        (s.ensureCollection (config.collectionName collection)) text
      revert hfresh
      rcases (s.ensureCollection (config.collectionName collection)).fresh rng
        with ⟨_ | revision, t⟩
      · intro hfresh
        simpa [finish] using hfresh
      · intro _
        simp only [finish, perform]
        exact put_accepts _ _ _ _
  | putMany keys values collection ttl =>
      cases hcall
      obtain ⟨entries, hentries⟩ := mapM_ofTtl values h
      simp only [prepare, hentries]
      have hfresh := freshMany_accepts rng entries.length
        (s.ensureCollection (config.collectionName collection)) text
      revert hfresh
      rcases freshMany rng entries.length
        (s.ensureCollection (config.collectionName collection))
        with ⟨_ | revisions, t⟩
      · intro hfresh
        simpa [finish] using hfresh
      · intro _
        simp only [finish, perform]
        exact putMany_accepts _ _ _ _
  | compareAndSwap key expected value collection ttl =>
      cases hcall
      obtain ⟨entry, hentry⟩ := (ofTtl_eq_ok value).mpr h
      simp only [prepare, hentry]
      have hfresh := fresh_accepts rng
        (s.ensureCollection (config.collectionName collection)) text
      revert hfresh
      rcases (s.ensureCollection (config.collectionName collection)).fresh rng
        with ⟨_ | revision, t⟩
      · intro hfresh
        simpa [finish] using hfresh
      · intro _
        simp only [finish, perform]
        exact compareAndSwap_accepts _ _ _ _ _

theorem refused_iff (hsetup : s.setupComplete = true) {call : Call}
    {ttl : Option F64} (hcall : call.ttl? = some ttl) (hsized : call.Sized) :
    Refused config rng now order s call ↔
      ¬ ∀ seconds, ttl = some seconds → ValidTtl now seconds := by
  have hready : start now call = .setup call →
      runAlone config rng now order call s =
        finish config now order (prepare config rng now order s call) := by
    intro hstart
    rw [runAlone_eq hstart, setup_complete hsetup]
    rfl
  constructor
  · rintro ⟨text, htext⟩ hvalid
    have hstart : start now call = .setup call := by
      cases call with
      | put => rfl
      | putMany keys values collection ttl =>
          cases hcall
          have hlength : keys.length = values.length := hsized
          rw [start, if_neg (not_not_intro hlength)]
          rcases validate_of_valid hvalid with hnone | hsome
          · rw [hnone]
          · rw [hsome]
      | compareAndSwap key expected value collection ttl =>
          cases hcall
          rw [start]
          rcases validate_of_valid hvalid with hnone | hsome
          · rw [hnone]
          · rw [hsome]
      | get | ttl | delete | getMany | ttlMany | deleteMany
      | getWithRevision | compareAndDelete | subscribe | cull | keys
      | collections | destroyCollection | destroy => cases hcall
    rw [hready hstart] at htext
    exact prepare_accepts hcall hvalid text htext
  · intro hinvalid
    obtain ⟨seconds, rfl, hseconds⟩ : ∃ seconds, ttl = some seconds ∧
        ¬ ValidTtl now seconds := by
      simpa only [not_forall, exists_prop] using hinvalid
    obtain ⟨text, htext⟩ := expirationAt_of_invalid hseconds
    cases call with
    | put key value collection ttl =>
        cases hcall
        refine ⟨text, ?_⟩
        rw [hready rfl]
        simp only [prepare, ManagedEntry.ofTtl, ManagedEntry.withTtl, htext,
          bind, Except.bind, finish]
    | putMany keys values collection ttl =>
        cases hcall
        have hlength : keys.length = values.length := hsized
        refine ⟨text, ?_⟩
        simp only [runAlone, start, if_neg (not_not_intro hlength),
          Option.map_some, ManagedEntry.validateTtl, htext, bind, Except.bind,
          finish]
    | compareAndSwap key expected value collection ttl =>
        cases hcall
        refine ⟨text, ?_⟩
        simp only [runAlone, start, Option.map_some, ManagedEntry.validateTtl,
          htext, bind, Except.bind, finish]
    | get | ttl | delete | getMany | ttlMany | deleteMany | getWithRevision
    | compareAndDelete | subscribe | cull | keys | collections
    | destroyCollection | destroy => cases hcall

end Refused

end Memory

end OpenKeyV
