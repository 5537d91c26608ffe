import OpenKeyV.Redis.Completeness

/-!
# Expired entries under conditional writes

A reader counts an entry as absent from its expiration instant on.  The
conditional scripts see what is physically stored, and Redis drops an entry
by a deadline of its own, so an expired entry can still be in the way.
-/

namespace OpenKeyV.Redis

open Library Program RedisStore

def liveEntry (now : DateTime) (stored : Option Cas.CasEntry) :
    Option Cas.CasEntry :=
  stored.filter fun cas => !cas.entry.isExpired now

@[simp] theorem liveEntry_none (now : DateTime) : liveEntry now none = none :=
  rfl

@[simp] theorem liveEntry_some (now : DateTime) (cas : Cas.CasEntry) :
    liveEntry now (some cas) =
      if cas.entry.isExpired now then none else some cas := by
  cases hexpired : cas.entry.isExpired now <;>
    simp [liveEntry, Option.filter, hexpired]

/-- An expired entry is stored and carries the expected revision, or no
revision is expected. -/
def ExpiredInTheWay (now : DateTime) (stored : Option Cas.CasEntry)
    (expected : Option Revision) : Prop :=
  ∃ cas ∈ stored, cas.entry.isExpired now = true ∧
    (expected = none ∨ expected = some cas.revision)

section Rule

variable (config : RedisConfig) (readings : Readings) (key : String)
  (collection : Option String) (s : Server)

def RedisConfig.value : Option Bytes :=
  s.value config.keyspace (config.collectionName collection) key

/-- The protocol's rule for `compare_and_swap`: it is applied when the live
entry has the expected revision, or none is expected and none is live;
otherwise it reports the live entry and writes nothing. -/
def SwapFollowsRule (expected : Option Revision) (value : Value)
    (ttl : Option F64) (live : Option Cas.CasEntry) : Prop :=
  let outcome :=
    compareAndSwap config readings key expected value collection ttl s
  match newEnvelope readings value ttl with
  | .error error => outcome = (.error error, s)
  | .ok (envelope, revision) =>
      if live.map (·.revision) = expected then
        outcome.1 = .ok (.applied revision) ∧
          config.value key collection outcome.2 = some envelope
      else outcome = (.ok (.conflict
        (live.bind (Cas.toRevisionedValue readings.decoded))), s)

def RemoveFollowsRule (expected : Revision) (live : Option Cas.CasEntry) :
    Prop :=
  let outcome := compareAndDelete config readings key expected collection s
  if live.map (·.revision) = some expected then
    outcome.1 = .ok .deleted ∧ config.value key collection outcome.2 = none
  else outcome = (.ok (.conflict
    (live.bind (Cas.toRevisionedValue readings.decoded))), s)

end Rule

section Stored

variable {bytes : Bytes} {cas : Cas.CasEntry}

theorem comparesEqual_asBytes (h : Cas.decode (some bytes) = .ok (some cas))
    (revision : Revision) :
    comparesEqual revision.asBytes bytes = decide (revision = cas.revision) := by
  obtain ⟨hlen, hrevision⟩ := Cas.revisionBytes_of_decode h
  have hsub : luaSub bytes 6 Cas.prefixLen = cas.revision.asBytes := hrevision
  simp only [comparesEqual, hlen, decide_true, Bool.true_and, hsub,
    Revision.asBytes_injective.eq_iff]

theorem comparesEqual_nil (h : Cas.decode (some bytes) = .ok (some cas)) :
    comparesEqual [] bytes = false := by
  obtain ⟨hlen, hrevision⟩ := Cas.revisionBytes_of_decode h
  have hsub : luaSub bytes 6 Cas.prefixLen = cas.revision.asBytes := hrevision
  simp [comparesEqual, hsub, (Revision.asBytes_ne_nil cas.revision).symm]

variable {value : Option Bytes} {stored : Option Cas.CasEntry}

theorem swaps_of_decode (h : Cas.decode value = .ok stored)
    (expected : Option Revision) :
    swaps ((expected.map Revision.asBytes).getD []) value =
      decide (stored.map (·.revision) = expected) := by
  cases value with
  | none =>
      cases h
      cases expected with
      | none => rfl
      | some revision => simp [swaps, Revision.asBytes_ne_nil]
  | some bytes =>
      obtain ⟨cas, rfl⟩ := Option.isSome_iff_exists.mp (Cas.isSome_of_decode h)
      cases expected with
      | none => simpa [swaps] using comparesEqual_nil h
      | some revision => simp [swaps, comparesEqual_asBytes h, eq_comm]

theorem removes_of_decode (h : Cas.decode value = .ok stored)
    (expected : Revision) :
    removes expected.asBytes value =
      decide (stored.map (·.revision) = some expected) := by
  cases value with
  | none =>
      cases h
      rfl
  | some bytes =>
      obtain ⟨cas, rfl⟩ := Option.isSome_iff_exists.mp (Cas.isSome_of_decode h)
      simp [removes, comparesEqual_asBytes h, eq_comm]

theorem decodeCurrent_conflictSlot (h : Cas.decode value = .ok stored)
    (now : DateTime) :
    decodeCurrent now (some (conflictSlot value)) =
      .ok (stored.bind (Cas.toRevisionedValue now)) := by
  cases value with
  | none =>
      cases h
      rfl
  | some bytes =>
      obtain ⟨cas, rfl⟩ := Option.isSome_iff_exists.mp (Cas.isSome_of_decode h)
      have hlong : ¬ bytes.length < Cas.prefixLen :=
        Nat.not_lt.mpr (Cas.revisionBytes_of_decode h).1
      simp only [conflictSlot, if_neg hlong, decodeCurrent, h, bind,
        Except.bind, pure, Except.pure, Option.bind_some]

theorem bind_toRevisionedValue_liveEntry (now : DateTime) :
    (liveEntry now stored).bind (Cas.toRevisionedValue now) =
      stored.bind (Cas.toRevisionedValue now) := by
  cases stored with
  | none => rfl
  | some cas =>
      cases hexpired : cas.entry.isExpired now <;>
        simp [Cas.toRevisionedValue, hexpired]

theorem same_answer_iff (now : DateTime) (expected : Option Revision) :
    (stored.map (·.revision) = expected ↔
        (liveEntry now stored).map (·.revision) = expected) ↔
      ¬ ExpiredInTheWay now stored expected := by
  cases stored with
  | none => simp [ExpiredInTheWay]
  | some cas =>
      cases hexpired : cas.entry.isExpired now with
      | false => simp [ExpiredInTheWay, hexpired]
      | true =>
          cases expected with
          | none => simp [ExpiredInTheWay, hexpired]
          | some revision =>
              have hcomm : revision = cas.revision ↔ cas.revision = revision :=
                eq_comm
              simp [ExpiredInTheWay, hexpired, hcomm]

end Stored

section Operations

variable {config : RedisConfig} (readings : Readings) {s : Server}
  {key : String} {collection : Option String} {stored : Option Cas.CasEntry}

theorem fetch_eq (h : WellTyped config.keyspace s)
    (hstored : Cas.decode (config.value key collection s) = .ok stored) :
    fetch config key collection s = (.ok stored, s) := by
  simp only [fetch, invoke, eval_get_entry h, Except.mapError, Except.bind]
  exact congrArg (·, s) hstored

theorem get_eq_liveEntry (h : WellTyped config.keyspace s)
    (hstored : Cas.decode (config.value key collection s) = .ok stored)
    (now : DateTime) :
    RedisStore.get config now key collection s =
      (.ok ((liveEntry now stored).map (·.entry.value)), s) := by
  simp only [RedisStore.get, fetch_eq h hstored, Except.map, liveEntry]

theorem compareAndSwap_eq (h : WellTyped config.keyspace s)
    (hstored : Cas.decode (config.value key collection s) = .ok stored)
    (expected : Option Revision) {value : Value} {ttl : Option F64}
    {envelope : Bytes} {revision : Revision}
    (hbuilt : newEnvelope readings value ttl = .ok (envelope, revision)) :
    ∃ s', compareAndSwap config readings key expected value collection ttl s =
        (if stored.map (·.revision) = expected then .ok (.applied revision)
          else .ok (.conflict (stored.bind
            (Cas.toRevisionedValue readings.decoded))), s') ∧
      if stored.map (·.revision) = expected then
        config.value key collection s' = some envelope
      else s' = s := by
  obtain ⟨s', heval, -, -, -, houtcome⟩ := eval_compareAndSwapScript h
    (config.collectionName collection) key
    ((expected.map Revision.asBytes).getD []) envelope (ttlMilliseconds ttl)
  have hswaps := swaps_of_decode hstored expected
  rw [RedisConfig.value] at hswaps
  simp only [hswaps, decide_eq_true_eq] at houtcome
  refine ⟨s', ?_, houtcome⟩
  rw [Cas.prefixLen] at heval
  simp only [compareAndSwap, hbuilt, invoke, heval, Except.mapError,
    Except.bind, decodeCasOutcome_swapReply, hswaps]
  rw [← RedisConfig.value, decodeCurrent_conflictSlot hstored]
  simp [Except.map]

theorem compareAndDelete_eq (h : WellTyped config.keyspace s)
    (hstored : Cas.decode (config.value key collection s) = .ok stored)
    (expected : Revision) :
    ∃ s', compareAndDelete config readings key expected collection s =
        (if stored.map (·.revision) = some expected then .ok .deleted
          else .ok (.conflict (stored.bind
            (Cas.toRevisionedValue readings.decoded))), s') ∧
      if stored.map (·.revision) = some expected then
        config.value key collection s' = none
      else s' = s := by
  obtain ⟨s', heval, -, -, -, houtcome⟩ := eval_compareAndDeleteScript h
    (config.collectionName collection) key expected.asBytes
  have hremoves := removes_of_decode hstored expected
  rw [RedisConfig.value] at hremoves
  simp only [hremoves, decide_eq_true_eq] at houtcome
  refine ⟨s', ?_, houtcome⟩
  rw [Cas.prefixLen] at heval
  simp only [compareAndDelete, invoke, heval, Except.mapError,
    Except.bind, decodeCadOutcome_removeReply, hremoves]
  rw [← RedisConfig.value, decodeCurrent_conflictSlot hstored]
  simp [Except.map]

end Operations

section Rule

variable {config : RedisConfig} {readings : Readings} {s : Server}
  {key : String} {collection : Option String} {stored : Option Cas.CasEntry}

private theorem decision_agrees {p q : Prop} [Decidable p] [Decidable q]
    {applied refused : Prop} (hp : if p then applied else refused)
    (hexclusive : applied → ¬ refused) :
    (if q then applied else refused) ↔ (p ↔ q) := by
  by_cases hp' : p <;> by_cases hq : q <;> simp_all

theorem swapFollowsRule_iff (h : WellTyped config.keyspace s)
    (hstored : Cas.decode (config.value key collection s) = .ok stored)
    (expected : Option Revision) (value : Value) (ttl : Option F64) :
    SwapFollowsRule config readings key collection s expected value ttl
        (liveEntry readings.decoded stored) ↔
      ((newEnvelope readings value ttl).isOk = true →
        ¬ ExpiredInTheWay readings.decoded stored expected) := by
  unfold SwapFollowsRule
  cases hbuilt : newEnvelope readings value ttl with
  | error error => simp [compareAndSwap, hbuilt, Except.isOk, Except.toBool]
  | ok built =>
      obtain ⟨envelope, revision⟩ := built
      obtain ⟨s', heval, hvalue⟩ := compareAndSwap_eq readings h hstored expected hbuilt
      simp only [heval, bind_toRevisionedValue_liveEntry, Except.isOk,
        Except.toBool, forall_const, ← same_answer_iff]
      refine decision_agrees ?_ (fun happlied hrefused => ?_)
      · by_cases hsame : stored.map (·.revision) = expected
        · rw [if_pos hsame] at hvalue ⊢
          exact ⟨by rw [if_pos hsame], hvalue⟩
        · rw [if_neg hsame] at hvalue ⊢
          rw [if_neg hsame, hvalue]
      · have hconflict := congrArg Prod.fst hrefused
        rw [happlied.1] at hconflict
        cases hconflict

theorem removeFollowsRule_iff (h : WellTyped config.keyspace s)
    (hstored : Cas.decode (config.value key collection s) = .ok stored)
    (expected : Revision) :
    RemoveFollowsRule config readings key collection s expected
        (liveEntry readings.decoded stored) ↔
      ¬ ExpiredInTheWay readings.decoded stored (some expected) := by
  unfold RemoveFollowsRule
  obtain ⟨s', heval, hvalue⟩ :=
    compareAndDelete_eq readings h hstored expected
  simp only [heval, bind_toRevisionedValue_liveEntry, ← same_answer_iff]
  refine decision_agrees ?_ (fun happlied hrefused => ?_)
  · by_cases hsame : stored.map (·.revision) = some expected
    · rw [if_pos hsame] at hvalue ⊢
      exact ⟨by rw [if_pos hsame], hvalue⟩
    · rw [if_neg hsame] at hvalue ⊢
      rw [if_neg hsame, hvalue]
  · have hconflict := congrArg Prod.fst hrefused
    rw [happlied.1] at hconflict
    cases hconflict

/-- Creating an entry reports a conflict with nothing exactly when an expired
entry is still stored. -/
theorem create_conflicts_with_nothing_iff (h : WellTyped config.keyspace s)
    (hstored : Cas.decode (config.value key collection s) = .ok stored)
    (value : Value) (ttl : Option F64) :
    (compareAndSwap config readings key none value collection ttl s).1 =
        .ok (.conflict none) ↔
      (newEnvelope readings value ttl).isOk = true ∧
        ∃ cas ∈ stored, cas.entry.isExpired readings.decoded = true := by
  cases hbuilt : newEnvelope readings value ttl with
  | error error => simp [compareAndSwap, hbuilt, Except.isOk, Except.toBool]
  | ok built =>
      obtain ⟨envelope, revision⟩ := built
      obtain ⟨s', heval, -⟩ := compareAndSwap_eq readings h hstored none hbuilt
      rw [heval]
      cases stored with
      | none => simp
      | some cas =>
          cases hexpired : cas.entry.isExpired readings.decoded <;>
            simp [Cas.toRevisionedValue, hexpired, Except.isOk, Except.toBool]

end Rule

/-- On any stored envelope, or none, the conditional writes follow the rule of
the protocol exactly when no expired entry is in the way. -/
theorem conditional_writes_follow_rule_iff (config : RedisConfig)
    (readings : Readings) (key : String) (collection : Option String)
    (s : Server) (stored : Option Cas.CasEntry) (expected : Option Revision)
    (revision : Revision) (value : Value) (ttl : Option F64)
    (h : WellTyped config.keyspace s)
    (hstored : Cas.decode (config.value key collection s) = .ok stored) :
    (SwapFollowsRule config readings key collection s expected value ttl
        (liveEntry readings.decoded stored) ↔
      ((newEnvelope readings value ttl).isOk = true →
        ¬ ExpiredInTheWay readings.decoded stored expected)) ∧
    (RemoveFollowsRule config readings key collection s revision
        (liveEntry readings.decoded stored) ↔
      ¬ ExpiredInTheWay readings.decoded stored (some revision)) ∧
    ((compareAndSwap config readings key none value collection ttl s).1 =
        .ok (.conflict none) ↔
      (newEnvelope readings value ttl).isOk = true ∧
        ∃ cas ∈ stored, cas.entry.isExpired readings.decoded = true) :=
  ⟨swapFollowsRule_iff h hstored expected value ttl,
    removeFollowsRule_iff h hstored revision,
    create_conflicts_with_nothing_iff h hstored value ttl⟩

def shortLived : Cas.CasEntry :=
  ⟨⟨.binary [1], some .epoch,
      some ⟨1000000000, DateTime.second_lower, DateTime.second_upper⟩⟩,
    .fill 7⟩

/-- Its script runs five milliseconds after the entry is built; the entry is
looked at two milliseconds after its expiration, before Redis drops it. -/
def afterExpiry : Server :=
  let put := Call.put "k" (.binary [1]) none (some (.finite 1))
  { (put.run sampleConfig sampleReadings (.empty 5)).2 with clock := 1002 }

def lateReadings : Readings :=
  { sampleReadings with decoded := ⟨1002000000, by decide, by decide⟩ }

theorem afterExpiry_wellTyped : WellTyped ⟨"app"⟩ afterExpiry :=
  (run_wellTyped sampleConfig sampleReadings
    (.put "k" (.binary [1]) none (some (.finite 1)))
    (wellTyped_empty ⟨"app"⟩ 5)).tick (by decide +kernel)

theorem decode_afterExpiry :
    Cas.decode (sampleConfig.value "k" none afterExpiry) =
      .ok (some shortLived) := by
  have hvalue : sampleConfig.value "k" none afterExpiry =
      some (Cas.encode shortLived.entry shortLived.revision) := by
    decide +kernel
  rw [hvalue, Cas.decode_encode _ _ rfl (by decide)]
  rfl

theorem conditional_writes_after_expiry :
    ¬ SwapFollowsRule sampleConfig lateReadings "k" none afterExpiry
        (some (.fill 7)) (.binary [2]) none none ∧
      RemoveFollowsRule sampleConfig lateReadings "k" none afterExpiry
        (.fill 8) none := by
  obtain ⟨hswap, hremove, -⟩ := conditional_writes_follow_rule_iff
    sampleConfig lateReadings "k" none afterExpiry (some shortLived)
    (some (.fill 7)) (.fill 8) (.binary [2]) none afterExpiry_wellTyped
    decode_afterExpiry
  refine ⟨fun hfollows => hswap.mp hfollows rfl ?_, hremove.mpr ?_⟩
  · exact ⟨shortLived, rfl, by decide, .inr rfl⟩
  · rintro ⟨cas, hstored, -, hexpected⟩
    cases hstored
    exact absurd hexpected (by decide)

/-- Creating the key whose entry has just expired conflicts with nothing. -/
theorem create_after_expiry_conflicts :
    ¬ ∀ (config : RedisConfig) (readings : Readings) (key : String)
      (collection : Option String) (s : Server) (stored : Option Cas.CasEntry)
      (expected : Option Revision) (revision : Revision) (value : Value)
      (ttl : Option F64), WellTyped config.keyspace s →
      Cas.decode (config.value key collection s) = .ok stored →
      SwapFollowsRule config readings key collection s expected value ttl
          (liveEntry readings.decoded stored) ∧
        RemoveFollowsRule config readings key collection s revision
          (liveEntry readings.decoded stored) ∧
        (compareAndSwap config readings key none value collection ttl s).1 ≠
          .ok (.conflict none) := by
  intro h
  obtain ⟨-, -, hnever⟩ := h sampleConfig lateReadings "k" none afterExpiry
    (some shortLived) none (.fill 7) (.binary [2]) none afterExpiry_wellTyped
    decode_afterExpiry
  refine hnever ((create_conflicts_with_nothing_iff afterExpiry_wellTyped
    decode_afterExpiry (.binary [2]) none).mpr ⟨rfl, shortLived, rfl, ?_⟩)
  decide

end OpenKeyV.Redis
