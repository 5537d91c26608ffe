import OpenKeyV.Entry.Exact
import OpenKeyV.Redis.Expiry

/-!
# Envelopes, as the client and the scripts see them

`Cas.decode` and `string.sub(value, 6, 21)` pick the same revision out of every
envelope.  A stored value that is no envelope is refused with an error only
when the script hands it back.
-/

namespace OpenKeyV.Cas

theorem encode_of_decode {b : Bytes} {cas : CasEntry}
    (h : decode (some b) = .ok (some cas)) :
    encode cas.entry cas.revision = b := by
  obtain ⟨hlen, hrevision⟩ := revisionBytes_of_decode h
  simp only [decode] at h
  split at h
  · cases h
  · split at h
    · cases h
    · rename_i hmagic
      rw [not_ne_iff] at hmagic
      obtain ⟨entry, hentry, h⟩ := bind_eq_ok.mp h
      cases h
      have hbytes := (ManagedEntry.encode_of_decode hentry).1
      rw [encode, ← hrevision, hbytes, ← hmagic, revisionBytes]
      have hlead : (b.take prefixLen).take magicLen =
          b.take magicLen := by
        rw [List.take_take]
        rfl
      rw [← hlead, List.take_append_drop, List.take_append_drop]

theorem not_entry {b : Bytes} {stored : Option CasEntry}
    (h : decode (some b) = .ok stored) (entry : ManagedEntry) :
    ManagedEntry.decode b ≠ .ok entry := by
  intro hentry
  obtain ⟨cas, rfl⟩ := Option.isSome_iff_exists.mp (isSome_of_decode h)
  obtain ⟨hbytes, _⟩ := ManagedEntry.encode_of_decode hentry
  have hmagic := ManagedEntry.take_encode entry
  rw [hbytes, ← encode_of_decode h] at hmagic
  cases hmagic

theorem decode_encode_eq_map (entry : ManagedEntry)
    (revision : Revision) :
    decode (some (encode entry revision)) =
      (ManagedEntry.decode entry.encode).map fun entry =>
        some ⟨entry, revision⟩ := by
  have hmagic : (encode entry revision).take magicLen = magic :=
    rfl
  have hrest : (encode entry revision).drop magicLen =
      revision.asBytes ++ entry.encode := rfl
  have hdrop : (encode entry revision).drop prefixLen =
      entry.encode :=
    List.drop_left' (by
      simp [magic, prefixLen, magicLen, Revision.byteLen])
  have hlong : ¬ (encode entry revision).length < prefixLen := by
    simp [encode, magic, prefixLen, magicLen]
    omega
  simp only [decode, if_neg hlong, hmagic, ne_eq, not_true_eq_false,
    if_false, hdrop, hrest, Revision.fromBytes_asBytes_append]
  cases ManagedEntry.decode entry.encode <;> rfl

end OpenKeyV.Cas

namespace OpenKeyV.Redis

open Library Program RedisStore

/-- Envelopes and what they hold determine each other, the scripts compare the
revision that the client decodes, and no envelope is an entry. -/
theorem envelope_agrees :
    (∀ entry revision, Cas.decode (some (Cas.encode entry revision)) =
      (ManagedEntry.decode entry.encode).map fun entry =>
        some ⟨entry, revision⟩) ∧
      (∀ (entry : ManagedEntry) revision, entry.value.Storable →
        Cas.decode (some (Cas.encode entry revision)) =
          .ok (some ⟨entry.truncMillis, revision⟩)) ∧
      (∀ b cas, Cas.decode (some b) = .ok (some cas) →
        Cas.encode cas.entry cas.revision = b ∧
          luaSub b 6 21 = cas.revision.asBytes) ∧
      ∀ b stored entry, Cas.decode (some b) = .ok stored →
        ManagedEntry.decode b ≠ .ok entry := by
  refine ⟨Cas.decode_encode_eq_map, fun entry revision hstorable => ?_,
    fun b cas h => ⟨Cas.encode_of_decode h, ?_⟩,
    fun b stored entry h => Cas.not_entry h entry⟩
  · exact Cas.decode_encode entry revision hstorable.1 hstorable.2
  · exact (Cas.revisionBytes_of_decode h).2

theorem envelope_agrees_null :
    let b := Cas.encode ⟨.null, none, none⟩ (.fill 7)
    Cas.decode (some b) = .ok (some ⟨⟨.null, none, none⟩, .fill 7⟩) ∧
      luaSub b 6 21 = (Revision.fill 7).asBytes ∧
      ManagedEntry.decode b ≠ .ok ⟨.null, none, none⟩ := by
  obtain ⟨_, hround, hexact, hapart⟩ := envelope_agrees
  have hdecode := hround ⟨.null, none, none⟩ (.fill 7) ⟨rfl, by decide⟩
  exact ⟨hdecode, (hexact _ _ hdecode).2, hapart _ _ _ hdecode⟩

section Malformed

variable {config : RedisConfig} {readings : Readings} {s : Server}
  {key : String} {collection : Option String} {b : Bytes} {error : Error}

theorem decodeCurrent_malformed (hmalformed : Cas.decode (some b) = .error error)
    (now : DateTime) :
    decodeCurrent now (some (conflictSlot (some b))) =
      if b.length < Cas.prefixLen then .ok none else .error error := by
  by_cases hshort : b.length < Cas.prefixLen
  · rw [conflictSlot, if_pos hshort, if_pos hshort]
    rfl
  · rw [conflictSlot, if_neg hshort, if_neg hshort]
    simp only [decodeCurrent, hmalformed, bind, Except.bind]

theorem refused_iff {α : Type} {applied : α} {conflict : Option RevisionedValue → α}
    (hmalformed : Cas.decode (some b) = .error error) (now : DateTime)
    (same : Bool) :
    (if same then .ok applied
      else (decodeCurrent now (some (conflictSlot (some b)))).map conflict :
        Except Error α) = .error error ↔
      same = false ∧ Cas.prefixLen ≤ b.length := by
  rw [decodeCurrent_malformed hmalformed]
  cases same with
  | true => simp
  | false =>
      by_cases hshort : b.length < Cas.prefixLen
      · simp [hshort, Except.map]
      · simp [hshort, Except.map, Nat.not_lt.mp hshort]

theorem compareAndSwap_malformed (h : WellTyped config.keyspace s)
    (hvalue : config.value key collection s = some b)
    (hmalformed : Cas.decode (some b) = .error error)
    (expected : Option Revision) {value : Value} {ttl : Option F64}
    {envelope : Bytes} {revision : Revision}
    (hbuilt : newEnvelope readings value ttl = .ok (envelope, revision)) :
    ((compareAndSwap config readings key expected value collection ttl s).1 =
        .error error ∧
      config.value key collection (compareAndSwap config readings key expected
        value collection ttl s).2 = some b) ↔
      Cas.prefixLen ≤ b.length ∧
        (expected.map Revision.asBytes).getD [] ≠
          luaSub b 6 Cas.prefixLen := by
  obtain ⟨s', heval, -, -, -, houtcome⟩ := eval_compareAndSwapScript h
    (config.collectionName collection) key
    ((expected.map Revision.asBytes).getD []) envelope (ttlMilliseconds ttl)
  have hsame := hvalue
  rw [RedisConfig.value] at hvalue
  rw [hvalue] at heval houtcome
  rw [Cas.prefixLen] at heval
  simp only [compareAndSwap, hbuilt, invoke, heval, Except.mapError,
    Except.bind, decodeCasOutcome_swapReply, refused_iff hmalformed]
  constructor
  · rintro ⟨⟨hno, hlong⟩, _⟩
    refine ⟨hlong, fun hmatch => ?_⟩
    simp [swaps, comparesEqual, hlong, hmatch] at hno
  · rintro ⟨hlong, hdiffer⟩
    have hno : swaps ((expected.map Revision.asBytes).getD []) (some b) =
        false := by
      simp [swaps, comparesEqual, hdiffer]
    rw [hno] at houtcome
    exact ⟨⟨hno, hlong⟩, houtcome ▸ hsame⟩

theorem compareAndDelete_malformed (h : WellTyped config.keyspace s)
    (hvalue : config.value key collection s = some b)
    (hmalformed : Cas.decode (some b) = .error error) (expected : Revision) :
    ((compareAndDelete config readings key expected collection s).1 =
        .error error ∧
      config.value key collection
        (compareAndDelete config readings key expected collection s).2 =
          some b) ↔
      Cas.prefixLen ≤ b.length ∧
        expected.asBytes ≠ luaSub b 6 Cas.prefixLen := by
  obtain ⟨s', heval, -, -, -, houtcome⟩ := eval_compareAndDeleteScript h
    (config.collectionName collection) key expected.asBytes
  have hsame := hvalue
  rw [RedisConfig.value] at hvalue
  rw [hvalue] at heval houtcome
  rw [Cas.prefixLen] at heval
  simp only [compareAndDelete, invoke, heval, Except.mapError, Except.bind,
    decodeCadOutcome_removeReply, refused_iff hmalformed]
  constructor
  · rintro ⟨⟨hno, hlong⟩, _⟩
    refine ⟨hlong, fun hmatch => ?_⟩
    simp [removes, comparesEqual, hlong, hmatch] at hno
  · rintro ⟨hlong, hdiffer⟩
    have hno : removes expected.asBytes (some b) = false := by
      simp [removes, comparesEqual, hdiffer]
    rw [hno] at houtcome
    exact ⟨⟨hno, hlong⟩, houtcome ▸ hsame⟩

end Malformed

section Kept

variable (config : RedisConfig) (readings : Readings) (key : String)
  (collection : Option String) (s : Server) (b : Bytes) (error : Error)

/-- A swap reports the error of the decoder and leaves the bytes stored. -/
def SwapKeeps (expected : Option Revision) (value : Value)
    (ttl : Option F64) : Prop :=
  let outcome :=
    compareAndSwap config readings key expected value collection ttl s
  outcome.1 = .error error ∧ config.value key collection outcome.2 = some b

def RemoveKeeps (expected : Revision) : Prop :=
  let outcome := compareAndDelete config readings key expected collection s
  outcome.1 = .error error ∧ config.value key collection outcome.2 = some b

end Kept

def HasToken (b : Bytes) (revision : Revision) : Prop :=
  luaSub b 6 21 = revision.asBytes

/-- A conditional write refuses a malformed value and keeps it exactly when the
value has the length of a prefix and not the expected token. -/
theorem malformed_value_kept_iff (config : RedisConfig) (readings : Readings)
    (key : String) (collection : Option String) (s : Server) (b : Bytes)
    (error : Error) (expected : Option Revision) (revision : Revision)
    (value : Value) (ttl : Option F64) (built : Bytes × Revision)
    (h : WellTyped config.keyspace s)
    (hvalue : config.value key collection s = some b)
    (hmalformed : Cas.decode (some b) = .error error)
    (hbuilt : newEnvelope readings value ttl = .ok built) :
    (SwapKeeps config readings key collection s b error expected value ttl ↔
        21 ≤ b.length ∧ ∀ r, expected = some r → ¬ HasToken b r) ∧
      (RemoveKeeps config readings key collection s b error revision ↔
        21 ≤ b.length ∧ ¬ HasToken b revision) := by
  have hprefix : Cas.prefixLen = 21 := rfl
  constructor
  · rw [SwapKeeps, compareAndSwap_malformed h hvalue hmalformed expected hbuilt,
      hprefix]
    refine and_congr_right fun hlong => ?_
    cases expected with
    | none =>
        have hlength : (luaSub b 6 21).length = 16 := by
          rw [luaSub, List.length_drop, List.length_take]
          omega
        have hne : [] ≠ luaSub b 6 21 := by
          intro hnil
          rw [← hnil] at hlength
          cases hlength
        simpa using hne
    | some r => simp [HasToken, eq_comm]
  · rw [RemoveKeeps, compareAndDelete_malformed h hvalue hmalformed, hprefix,
      HasToken, ne_comm]

def foreignValue : Bytes := List.replicate 21 7

def foreignServer : Server :=
  (Server.empty 5).store (subspaceCompoundKey ⟨"app"⟩ "default" "k")
    ⟨.string foreignValue, none⟩

theorem foreignServer_wellTyped : WellTyped ⟨"app"⟩ foreignServer :=
  (wellTyped_empty ⟨"app"⟩ 5).store_entry _ _ _ _

theorem decode_foreignValue : Cas.decode (some foreignValue) =
    .error (.deserialization "invalid CAS envelope magic") := rfl

theorem malformed_value_kept_other :
    SwapKeeps sampleConfig sampleReadings "k" none foreignServer foreignValue
        (.deserialization "invalid CAS envelope magic") none (.binary [2])
        none ∧
      RemoveKeeps sampleConfig sampleReadings "k" none foreignServer
        foreignValue (.deserialization "invalid CAS envelope magic")
        (.fill 8) := by
  obtain ⟨hswap, hremove⟩ := malformed_value_kept_iff sampleConfig
    sampleReadings "k" none foreignServer foreignValue _ none (.fill 8)
    (.binary [2]) none _ foreignServer_wellTyped (by decide +kernel)
    decode_foreignValue rfl
  exact ⟨hswap.mpr ⟨by decide, by simp⟩,
    hremove.mpr ⟨by decide, by unfold HasToken; decide +kernel⟩⟩

/-- The expected token happens to stand in the malformed value. -/
theorem malformed_value_deleted :
    ¬ ∀ (config : RedisConfig) (readings : Readings) (key : String)
      (collection : Option String) (s : Server) (b : Bytes) (error : Error)
      (expected : Option Revision) (revision : Revision) (value : Value)
      (ttl : Option F64) (built : Bytes × Revision),
      WellTyped config.keyspace s →
      config.value key collection s = some b →
      Cas.decode (some b) = .error error →
      newEnvelope readings value ttl = .ok built →
        SwapKeeps config readings key collection s b error expected value ttl ∧
          RemoveKeeps config readings key collection s b error revision := by
  intro h
  have hvalue : sampleConfig.value "k" none foreignServer =
      some foreignValue := by decide +kernel
  obtain ⟨_, hremove⟩ := h sampleConfig sampleReadings "k" none foreignServer
    foreignValue _ none (.fill 7) (.binary [2]) none _ foreignServer_wellTyped
    hvalue decode_foreignValue rfl
  obtain ⟨_, hdiffer⟩ := (compareAndDelete_malformed foreignServer_wellTyped
    hvalue decode_foreignValue (.fill 7)).mp hremove
  exact hdiffer (by decide +kernel)

end OpenKeyV.Redis
