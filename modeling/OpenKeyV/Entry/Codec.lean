import OpenKeyV.Entry

/-!
# The `OKVE1` entry format

Magic, kind tag, flags, eight bytes of value length, the timestamps that the
flags announce, and the value bytes.  `decode_encode` is the round trip, up
to the part of an instant below a millisecond.
-/

namespace OpenKeyV.ManagedEntry

open Library

def magic : Bytes := [0x4f, 0x4b, 0x56, 0x45, 0x31]

def flagCreatedAt : UInt8 := 1

def flagExpiresAt : UInt8 := 2

def flags (entry : ManagedEntry) : UInt8 :=
  (if entry.createdAt.isSome then flagCreatedAt else 0) |||
    (if entry.expiresAt.isSome then flagExpiresAt else 0)

def encodeDateTime (t : DateTime) : Bytes :=
  toLeBytes 8 (unsigned64 t.timestampMillis)

def encodeOptional (t : Option DateTime) : Bytes :=
  (t.map encodeDateTime).getD []

def fixedHeader (entry : ManagedEntry) : Bytes :=
  magic ++ [entry.value.kind.tag, entry.flags] ++
    toLeBytes 8 entry.value.bytes.length

def encode (entry : ManagedEntry) : Bytes :=
  entry.fixedHeader ++ encodeOptional entry.createdAt ++
    encodeOptional entry.expiresAt ++ entry.value.bytes

def readArray (len : Nat) (bytes : Bytes) (offset : Nat) :
    Except Error (Bytes × Nat) :=
  let finish := offset + len
  if 2 ^ 64 ≤ finish then
    .error (.deserialization "OpenKeyV entry offset overflow")
  else if bytes.length < finish then
    .error (.deserialization "unexpected end of OpenKeyV entry")
  else .ok ((bytes.drop offset).take len, finish)

def readU8 (bytes : Bytes) (offset : Nat) : Except Error (UInt8 × Nat) :=
  match bytes[offset]? with
  | some value => .ok (value, offset + 1)
  | none => .error (.deserialization "unexpected end of OpenKeyV entry")

def readDatetime (bytes : Bytes) (offset : Nat) :
    Except Error (DateTime × Nat) := do
  let (payload, offset) ← readArray 8 bytes offset
  let millis := signed64 (fromLeBytes payload)
  match DateTime.timestampMillisOpt millis with
  | some t => return (t, offset)
  | none =>
      .error (.deserialization s!"invalid OpenKeyV entry timestamp: {millis}")

def readOptional (present : Bool) (bytes : Bytes) (offset : Nat) :
    Except Error (Option DateTime × Nat) :=
  if present then do
    let (t, offset) ← readDatetime bytes offset
    return (some t, offset)
  else .ok (none, offset)

def decode (bytes : Bytes) : Except Error ManagedEntry := do
  let (magicBytes, offset) ← readArray 5 bytes 0
  if magicBytes ≠ magic then
    .error (.deserialization "invalid OpenKeyV entry magic")
  else do
    let (kindTag, offset) ← readU8 bytes offset
    match ValueKind.fromTag kindTag with
    | none =>
        .error (.deserialization
          s!"invalid OpenKeyV entry value kind: {kindTag}")
    | some kind => do
        let (flags, offset) ← readU8 bytes offset
        if flags &&& ~~~(flagCreatedAt ||| flagExpiresAt) ≠ 0 then
          .error (.deserialization s!"invalid OpenKeyV entry flags: {flags}")
        else do
          let (lenBytes, offset) ← readArray 8 bytes offset
          let valueLen := fromLeBytes lenBytes
          let (createdAt, offset) ←
            readOptional (flags &&& flagCreatedAt != 0) bytes offset
          let (expiresAt, offset) ←
            readOptional (flags &&& flagExpiresAt != 0) bytes offset
          let finish := offset + valueLen
          if 2 ^ 64 ≤ finish then
            .error (.deserialization "OpenKeyV entry length overflow")
          else if finish ≠ bytes.length then
            .error (.deserialization
              "OpenKeyV entry length does not match payload")
          else do
            let value ← Value.new kind (bytes.drop offset)
            return ⟨value, createdAt, expiresAt⟩

/-- The entry as a reader of its bytes sees it. -/
def truncMillis (entry : ManagedEntry) : ManagedEntry :=
  ⟨entry.value, entry.createdAt.map DateTime.truncMillis,
    entry.expiresAt.map DateTime.truncMillis⟩

private theorem readArray_middle {len : Nat} (before chunk after : Bytes)
    (hlen : chunk.length = len) (hbound : before.length + len < 2 ^ 64) :
    readArray len (before ++ (chunk ++ after)) before.length =
      .ok (chunk, before.length + len) := by
  have hshort : ¬ (before ++ (chunk ++ after)).length < before.length + len := by
    simp only [List.length_append]
    omega
  simp only [readArray, if_neg (Nat.not_le_of_lt hbound), if_neg hshort]
  rw [List.drop_left, List.take_left' hlen]

private theorem readU8_middle (before : Bytes) (byte : UInt8) (after : Bytes) :
    readU8 (before ++ (byte :: after)) before.length =
      .ok (byte, before.length + 1) := by
  simp [readU8]

theorem timestampMillis_bounds (t : DateTime) :
    -2 ^ 63 ≤ t.timestampMillis ∧ t.timestampMillis < 2 ^ 63 := by
  have hlower := t.lower
  have hupper := t.upper
  simp only [DateTime.timestampMillis, minMillis, maxMillis] at *
  omega

theorem signed64_encodeDateTime (t : DateTime) :
    signed64 (fromLeBytes (encodeDateTime t)) = t.timestampMillis := by
  obtain ⟨hlow, hhigh⟩ := timestampMillis_bounds t
  rw [encodeDateTime, fromLeBytes_toLeBytes_of_lt (unsigned64_lt _),
    signed64_unsigned64 hlow hhigh]

private theorem readDatetime_middle (before : Bytes) (t : DateTime)
    (after : Bytes) (hbound : before.length + 8 < 2 ^ 64) :
    readDatetime (before ++ (encodeDateTime t ++ after)) before.length =
      .ok (t.truncMillis, before.length + 8) := by
  have hlen : (encodeDateTime t).length = 8 := length_toLeBytes _ _
  have hread := readArray_middle before (encodeDateTime t) after hlen hbound
  simp only [readDatetime, hread, bind, Except.bind, signed64_encodeDateTime,
    DateTime.timestampMillisOpt_timestampMillis]
  rfl

private theorem readOptional_middle (before : Bytes) (t : Option DateTime)
    (after : Bytes) (hbound : before.length + 8 < 2 ^ 64) :
    readOptional t.isSome (before ++ (encodeOptional t ++ after))
        before.length =
      .ok (t.map DateTime.truncMillis,
        before.length + (encodeOptional t).length) := by
  cases t with
  | none => rfl
  | some t =>
      have hread := readDatetime_middle before t after hbound
      simp only [readOptional, encodeOptional, Option.isSome_some, if_true,
        Option.map_some, Option.getD_some, hread, bind, Except.bind]
      simp [encodeDateTime, pure, Except.pure]

private theorem length_encodeOptional_le (t : Option DateTime) :
    (encodeOptional t).length ≤ 8 := by
  cases t <;> simp [encodeOptional, encodeDateTime]

theorem length_fixedHeader (entry : ManagedEntry) :
    entry.fixedHeader.length = 15 := by
  simp [fixedHeader, magic]

theorem flags_known (entry : ManagedEntry) :
    entry.flags &&& ~~~(flagCreatedAt ||| flagExpiresAt) = 0 ∧
      (entry.flags &&& flagCreatedAt != 0) = entry.createdAt.isSome ∧
      (entry.flags &&& flagExpiresAt != 0) = entry.expiresAt.isSome := by
  unfold flags
  cases entry.createdAt.isSome <;> cases entry.expiresAt.isSome <;> decide

private theorem read_fixedHeader (entry : ManagedEntry) (rest : Bytes) :
    readArray 5 (entry.fixedHeader ++ rest) 0 = .ok (magic, 5) ∧
      readU8 (entry.fixedHeader ++ rest) 5 = .ok (entry.value.kind.tag, 6) ∧
      readU8 (entry.fixedHeader ++ rest) 6 = .ok (entry.flags, 7) ∧
      readArray 8 (entry.fixedHeader ++ rest) 7 =
        .ok (toLeBytes 8 entry.value.bytes.length, 15) := by
  have hheader : entry.fixedHeader ++ rest =
      magic ++ (entry.value.kind.tag :: entry.flags ::
        (toLeBytes 8 entry.value.bytes.length ++ rest)) := by
    simp [fixedHeader]
  rw [hheader]
  refine ⟨?_, ?_, ?_, ?_⟩
  · exact readArray_middle [] magic _ rfl (by decide)
  · exact readU8_middle magic entry.value.kind.tag _
  · exact readU8_middle (magic ++ [entry.value.kind.tag]) entry.flags _
  · exact readArray_middle (magic ++ [entry.value.kind.tag, entry.flags])
      (toLeBytes 8 entry.value.bytes.length) rest (length_toLeBytes _ _)
      (by simp [magic])

private theorem read_timestamps (entry : ManagedEntry) :
    readOptional entry.createdAt.isSome entry.encode 15 =
        .ok (entry.createdAt.map DateTime.truncMillis,
          15 + (encodeOptional entry.createdAt).length) ∧
      readOptional entry.expiresAt.isSome entry.encode
          (15 + (encodeOptional entry.createdAt).length) =
        .ok (entry.expiresAt.map DateTime.truncMillis,
          15 + (encodeOptional entry.createdAt).length +
            (encodeOptional entry.expiresAt).length) := by
  have hcreated := length_encodeOptional_le entry.createdAt
  have hheader := length_fixedHeader entry
  constructor
  · have hread := readOptional_middle entry.fixedHeader entry.createdAt
      (encodeOptional entry.expiresAt ++ entry.value.bytes) (by omega)
    simpa only [encode, hheader, List.append_assoc] using hread
  · have hread := readOptional_middle
      (entry.fixedHeader ++ encodeOptional entry.createdAt) entry.expiresAt
      entry.value.bytes (by
        rw [List.length_append]
        omega)
    simpa only [encode, List.length_append, hheader, List.append_assoc]
      using hread

/-- An entry with a valid value that fits in memory reads back, its instants
cut to milliseconds. -/
theorem decode_encode (entry : ManagedEntry)
    (hvalid : Value.validatePayload entry.value.kind entry.value.bytes = .ok ())
    (hlen : entry.value.bytes.length + 31 < 2 ^ 64) :
    decode entry.encode = .ok entry.truncMillis := by
  obtain ⟨hunknown, hcreated, hexpires⟩ := flags_known entry
  obtain ⟨hmagic, hkind, hflags, hlength⟩ := read_fixedHeader entry
    (encodeOptional entry.createdAt ++ encodeOptional entry.expiresAt ++
      entry.value.bytes)
  obtain ⟨hcreatedAt, hexpiresAt⟩ := read_timestamps entry
  have hencode : entry.fixedHeader ++ (encodeOptional entry.createdAt ++
      encodeOptional entry.expiresAt ++ entry.value.bytes) = entry.encode := by
    simp [encode]
  rw [hencode] at hmagic hkind hflags hlength
  have hvalue : fromLeBytes (toLeBytes 8 entry.value.bytes.length) =
      entry.value.bytes.length :=
    fromLeBytes_toLeBytes_of_lt (by omega)
  have hfinish : 15 + (encodeOptional entry.createdAt).length +
      (encodeOptional entry.expiresAt).length + entry.value.bytes.length =
        entry.encode.length := by
    simp only [encode, List.length_append, length_fixedHeader]
  have hbound : ¬ 2 ^ 64 ≤ entry.encode.length := by
    have := length_encodeOptional_le entry.createdAt
    have := length_encodeOptional_le entry.expiresAt
    omega
  have hdrop : entry.encode.drop (15 + (encodeOptional entry.createdAt).length +
      (encodeOptional entry.expiresAt).length) = entry.value.bytes :=
    List.drop_left' (by simp only [List.length_append, length_fixedHeader])
  have hnew : Value.new entry.value.kind entry.value.bytes =
      .ok entry.value := by
    simp only [Value.new, hvalid, bind, Except.bind]
    rfl
  simp only [decode, hmagic, bind, Except.bind, ne_eq, not_true_eq_false,
    if_false, hkind, ValueKind.fromTag_tag, hflags, hunknown, hlength,
    hcreated, hcreatedAt, hexpires, hexpiresAt, hvalue, hfinish, hbound,
    hdrop, hnew]
  rfl

end OpenKeyV.ManagedEntry
