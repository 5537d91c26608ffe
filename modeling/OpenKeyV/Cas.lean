import OpenKeyV.Entry.Codec
import OpenKeyV.Protocol

/-!
# The `OKVC1` envelope

Redis and Valkey store the revision in front of the entry, at a fixed offset,
so that a script can compare it without decoding the rest.
-/

namespace OpenKeyV.Cas

def magic : Bytes := [0x4f, 0x4b, 0x56, 0x43, 0x31]

def magicLen : Nat := 5

def prefixLen : Nat := magicLen + Revision.byteLen

structure CasEntry where
  entry : ManagedEntry
  revision : Revision
  deriving DecidableEq, Repr

def encode (entry : ManagedEntry) (revision : Revision) : Bytes :=
  magic ++ revision.asBytes ++ entry.encode

def decode : Option Bytes → Except Error (Option CasEntry)
  | none => .ok none
  | some bytes =>
      if bytes.length < prefixLen then
        .error (.deserialization
          s!"CAS envelope too short: {bytes.length} bytes (minimum {prefixLen})")
      else if bytes.take magicLen ≠ magic then
        .error (.deserialization "invalid CAS envelope magic")
      else do
        let entry ← ManagedEntry.decode (bytes.drop prefixLen)
        return some ⟨entry, Revision.fromBytes (bytes.drop magicLen)⟩

/-- `None` when the entry has expired. -/
def toRevisionedValue (now : DateTime) (cas : CasEntry) :
    Option RevisionedValue :=
  if cas.entry.isExpired now then none
  else some ⟨cas.entry.value, cas.revision, cas.entry.ttl now⟩

theorem isSome_of_decode {bytes : Bytes} {stored : Option CasEntry}
    (h : decode (some bytes) = .ok stored) : stored.isSome = true := by
  simp only [decode] at h
  split at h
  · cases h
  · split at h
    · cases h
    · cases hentry : ManagedEntry.decode (bytes.drop prefixLen) with
      | error error =>
          simp only [hentry, bind, Except.bind] at h
          cases h
      | ok entry =>
          simp only [hentry, bind, Except.bind, pure, Except.pure] at h
          cases h
          rfl

/-- What the scripts compare: `string.sub(value, 6, prefix_len)`. -/
def revisionBytes (bytes : Bytes) : Bytes :=
  (bytes.take prefixLen).drop magicLen

/-- A stored envelope carries its revision where the scripts look for it. -/
theorem revisionBytes_of_decode {bytes : Bytes} {cas : CasEntry}
    (h : decode (some bytes) = .ok (some cas)) :
    prefixLen ≤ bytes.length ∧ revisionBytes bytes = cas.revision.asBytes := by
  simp only [decode] at h
  split at h
  · cases h
  · rename_i hlen
    split at h
    · cases h
    · cases hentry : ManagedEntry.decode (bytes.drop prefixLen) with
      | error error =>
          simp only [hentry, bind, Except.bind] at h
          cases h
      | ok entry =>
          simp only [hentry, bind, Except.bind, pure, Except.pure] at h
          cases h
          refine ⟨by omega, ?_⟩
          rw [Revision.asBytes_fromBytes (by
            simp only [List.length_drop, prefixLen] at *
            omega)]
          simp only [revisionBytes, prefixLen, List.drop_take]
          rw [Nat.add_sub_cancel_left]

theorem decode_encode (entry : ManagedEntry) (revision : Revision)
    (hvalid : Value.validatePayload entry.value.kind entry.value.bytes = .ok ())
    (hlen : entry.value.bytes.length + 31 < 2 ^ 64) :
    decode (some (encode entry revision)) =
      .ok (some ⟨entry.truncMillis, revision⟩) := by
  have hmagic : (encode entry revision).take magicLen = magic := rfl
  have hrest : (encode entry revision).drop magicLen =
      revision.asBytes ++ entry.encode := rfl
  have hdrop : (encode entry revision).drop prefixLen = entry.encode :=
    List.drop_left' (by simp [magic, prefixLen, magicLen, Revision.byteLen])
  have hlong : ¬ (encode entry revision).length < prefixLen := by
    simp [encode, magic, prefixLen, magicLen]
    omega
  simp only [decode, if_neg hlong, hmagic, ne_eq, not_true_eq_false, if_false,
    hdrop, ManagedEntry.decode_encode entry hvalid hlen, bind, Except.bind,
    hrest, Revision.fromBytes_asBytes_append]
  rfl

end OpenKeyV.Cas
