import OpenKeyV.Entry.Codec

/-!
# Exactly the encodings are accepted

Whatever `decode` accepts is the encoding of the entry it returns.  The header
fixes the length, so no encoding is a part of another one.
-/

namespace OpenKeyV.ManagedEntry

open Library

section Reads

variable {bytes chunk : Bytes} {offset next len : Nat}

theorem readArray_eq_ok (h : readArray len bytes offset = .ok (chunk, next)) :
    chunk.length = len ∧ next = offset + len ∧ next ≤ bytes.length ∧
      bytes.drop offset = chunk ++ bytes.drop next := by
  unfold readArray at h
  simp only at h
  split at h
  · cases h
  · split at h
    · cases h
    · cases h
      refine ⟨?_, rfl, by omega, ?_⟩
      · rw [List.length_take, List.length_drop]
        omega
      · rw [← List.drop_drop, List.take_append_drop]

theorem readU8_eq_ok {byte : UInt8}
    (h : readU8 bytes offset = .ok (byte, next)) :
    next = offset + 1 ∧ bytes.drop offset = byte :: bytes.drop next := by
  unfold readU8 at h
  split at h
  · rename_i value hvalue
    cases h
    obtain ⟨hlt, rfl⟩ := List.getElem?_eq_some_iff.mp hvalue
    exact ⟨rfl, List.drop_eq_getElem_cons hlt⟩
  · cases h

theorem timestampMillis_of_timestampMillisOpt {millis : Int} {t : DateTime}
    (h : DateTime.timestampMillisOpt millis = some t) :
    t.timestampMillis = millis := by
  unfold DateTime.timestampMillisOpt DateTime.ofNanos at h
  split at h
  · cases h
    simp [DateTime.timestampMillis, nanosPerMilli]
  · cases h

theorem readDatetime_eq_ok {t : DateTime}
    (h : readDatetime bytes offset = .ok (t, next)) :
    next = offset + 8 ∧ next ≤ bytes.length ∧
      bytes.drop offset = encodeDateTime t ++ bytes.drop next := by
  obtain ⟨⟨payload, behind⟩, hpayload, h⟩ := bind_eq_ok.mp h
  simp only at h
  split at h
  · rename_i t' ht
    cases h
    obtain ⟨hlen, hnext, hbound, hdrop⟩ := readArray_eq_ok hpayload
    have hlt := fromLeBytes_lt payload
    have hcode := toLeBytes_fromLeBytes payload
    rw [hlen] at hlt hcode
    rw [encodeDateTime, timestampMillis_of_timestampMillisOpt ht,
      unsigned64_signed64 hlt, hcode]
    exact ⟨hnext, hbound, hdrop⟩
  · cases h

theorem readOptional_eq_ok {present : Bool} {t : Option DateTime}
    (hoffset : offset ≤ bytes.length)
    (h : readOptional present bytes offset = .ok (t, next)) :
    t.isSome = present ∧ next = offset + (encodeOptional t).length ∧
      next ≤ bytes.length ∧
      bytes.drop offset = encodeOptional t ++ bytes.drop next := by
  cases present with
  | false =>
      cases h
      exact ⟨rfl, rfl, hoffset, rfl⟩
  | true =>
      obtain ⟨⟨t', behind⟩, ht, h⟩ := bind_eq_ok.mp h
      cases h
      obtain ⟨hnext, hbound, hdrop⟩ := readDatetime_eq_ok ht
      refine ⟨rfl, ?_, hbound, hdrop⟩
      rw [hnext, encodeOptional, Option.map_some, Option.getD_some,
        encodeDateTime, length_toLeBytes]

end Reads

set_option maxRecDepth 4096 in
theorem flags_eq {flags : UInt8}
    (h : flags &&& ~~~(flagCreatedAt ||| flagExpiresAt) = 0) :
    ((if flags &&& flagCreatedAt != 0 then flagCreatedAt else 0) |||
      (if flags &&& flagExpiresAt != 0 then flagExpiresAt else 0)) = flags := by
  revert h
  cases flags with
  | ofBitVec flags =>
      cases flags with
      | ofFin flags =>
          revert flags
          decide

theorem tag_of_fromTag {tag : UInt8} {kind : ValueKind}
    (h : ValueKind.fromTag tag = some kind) : kind.tag = tag := by
  unfold ValueKind.fromTag at h
  repeat' split at h
  all_goals first
    | (cases h; done)
    | (rename_i htag; cases h; exact htag.symm)

theorem new_eq_ok {kind : ValueKind} {bytes : Bytes} {value : Value} :
    Value.new kind bytes = .ok value ↔
      Value.validatePayload kind bytes = .ok () ∧ value = ⟨kind, bytes⟩ := by
  rw [Value.new, bind_eq_ok]
  constructor
  · rintro ⟨_, hvalid, h⟩
    cases h
    exact ⟨hvalid, rfl⟩
  · rintro ⟨hvalid, rfl⟩
    exact ⟨(), hvalid, rfl⟩

/-- What is accepted is the encoding of what is returned. -/
theorem encode_of_decode {bytes : Bytes} {entry : ManagedEntry}
    (h : decode bytes = .ok entry) :
    entry.encode = bytes ∧
      Value.validatePayload entry.value.kind entry.value.bytes = .ok () ∧
      bytes.length < 2 ^ 64 := by
  obtain ⟨⟨magicBytes, o1⟩, hmagic, h1⟩ := bind_eq_ok.mp h
  simp only at h1
  split at h1
  · cases h1
  rename_i hmagicBytes
  rw [not_ne_iff] at hmagicBytes
  obtain ⟨⟨kindTag, o2⟩, hkind, h2⟩ := bind_eq_ok.mp h1
  simp only at h2
  split at h2
  · cases h2
  rename_i kind hfromTag
  obtain ⟨⟨flags, o3⟩, hflags, h3⟩ := bind_eq_ok.mp h2
  simp only at h3
  split at h3
  · cases h3
  rename_i hknown
  rw [not_ne_iff] at hknown
  obtain ⟨⟨lenBytes, o4⟩, hlen, h4⟩ := bind_eq_ok.mp h3
  obtain ⟨⟨createdAt, o5⟩, hcreated, h5⟩ := bind_eq_ok.mp h4
  obtain ⟨⟨expiresAt, o6⟩, hexpires, h6⟩ := bind_eq_ok.mp h5
  simp only at h6
  split at h6
  · cases h6
  rename_i hshort
  split at h6
  · cases h6
  rename_i hfinish
  rw [not_ne_iff] at hfinish
  obtain ⟨value, hvalue, h7⟩ := bind_eq_ok.mp h6
  cases h7
  obtain ⟨hvalid, rfl⟩ := new_eq_ok.mp hvalue
  obtain ⟨_, ho1, _, hdrop1⟩ := readArray_eq_ok hmagic
  obtain ⟨ho2, hdrop2⟩ := readU8_eq_ok hkind
  obtain ⟨ho3, hdrop3⟩ := readU8_eq_ok hflags
  obtain ⟨hlenBytes, ho4, hbound4, hdrop4⟩ := readArray_eq_ok hlen
  obtain ⟨hcreatedSome, ho5, hbound5, hdrop5⟩ :=
    readOptional_eq_ok hbound4 hcreated
  obtain ⟨hexpiresSome, ho6, hbound6, hdrop6⟩ :=
    readOptional_eq_ok hbound5 hexpires
  refine ⟨?_, hvalid, by omega⟩
  have hsize : (bytes.drop o6).length = fromLeBytes lenBytes := by
    rw [List.length_drop]
    omega
  have hcode := toLeBytes_fromLeBytes lenBytes
  rw [hlenBytes] at hcode
  have hentryFlags : ManagedEntry.flags
      ⟨⟨kind, bytes.drop o6⟩, createdAt, expiresAt⟩ = flags := by
    rw [ManagedEntry.flags, hcreatedSome, hexpiresSome]
    exact flags_eq hknown
  have hbytes : bytes = magicBytes ++ kindTag :: flags :: (lenBytes ++
      (encodeOptional createdAt ++ (encodeOptional expiresAt ++
        bytes.drop o6))) := by
    rw [← hdrop6, ← hdrop5, ← hdrop4, ← hdrop3, ← hdrop2, ← hdrop1,
      List.drop_zero]
  conv_rhs => rw [hbytes]
  simp only [encode, fixedHeader, hentryFlags, hsize, hcode, hmagicBytes,
    tag_of_fromTag hfromTag]
  simp

section Fields

variable (entry : ManagedEntry)

theorem length_encodeOptional (t : Option DateTime) :
    (encodeOptional t).length = if t.isSome then 8 else 0 := by
  cases t with
  | none => rfl
  | some t => simp [encodeOptional, encodeDateTime]

theorem encode_eq_append : entry.encode = entry.fixedHeader ++
    (encodeOptional entry.createdAt ++ (encodeOptional entry.expiresAt ++
      entry.value.bytes)) := by
  simp [encode]

theorem take_encode : entry.encode.take 5 = magic := rfl

theorem kindTag_encode : entry.encode[5]? = some entry.value.kind.tag := rfl

theorem flags_encode : entry.encode[6]? = some entry.flags := rfl

theorem lenBytes_encode : (entry.encode.drop 7).take 8 =
    toLeBytes 8 entry.value.bytes.length := by
  have hdrop : entry.encode.drop 7 = toLeBytes 8 entry.value.bytes.length ++
      (encodeOptional entry.createdAt ++ (encodeOptional entry.expiresAt ++
        entry.value.bytes)) := by
    rw [encode_eq_append, fixedHeader, List.append_assoc]
    rfl
  rw [hdrop, List.take_left' (length_toLeBytes _ _)]

def createdEnd (flags : UInt8) : Nat :=
  15 + if flags &&& flagCreatedAt != 0 then 8 else 0

def expiresEnd (flags : UInt8) : Nat :=
  createdEnd flags + if flags &&& flagExpiresAt != 0 then 8 else 0

theorem drop_encode : entry.encode.drop 15 =
    encodeOptional entry.createdAt ++ (encodeOptional entry.expiresAt ++
      entry.value.bytes) := by
  rw [encode_eq_append, List.drop_left' (length_fixedHeader entry)]

theorem drop_createdEnd : entry.encode.drop (createdEnd entry.flags) =
    encodeOptional entry.expiresAt ++ entry.value.bytes := by
  obtain ⟨_, hcreated, _⟩ := flags_known entry
  rw [createdEnd, hcreated, ← length_encodeOptional, ← List.drop_drop,
    drop_encode, List.drop_left]

theorem drop_expiresEnd :
    entry.encode.drop (expiresEnd entry.flags) = entry.value.bytes := by
  obtain ⟨_, _, hexpires⟩ := flags_known entry
  rw [expiresEnd, hexpires, ← length_encodeOptional, ← List.drop_drop,
    drop_createdEnd, List.drop_left]

theorem length_encode : entry.encode.length =
    expiresEnd entry.flags + entry.value.bytes.length := by
  obtain ⟨_, hcreated, hexpires⟩ := flags_known entry
  rw [encode_eq_append, expiresEnd, createdEnd, hcreated, hexpires,
    ← length_encodeOptional, ← length_encodeOptional]
  simp only [List.length_append, length_fixedHeader]
  omega

end Fields

def Rejected (bytes : Bytes) : Prop := ∀ entry, decode bytes ≠ .ok entry

/-- A field that no encoding has. -/
inductive Malformed (bytes : Bytes) : Prop
  | magic (h : bytes.take 5 ≠ magic)
  | kind {tag : UInt8} (htag : bytes[5]? = some tag)
      (h : ValueKind.fromTag tag = none)
  | flags {flags : UInt8} (hflags : bytes[6]? = some flags)
      (h : flags &&& ~~~(flagCreatedAt ||| flagExpiresAt) ≠ 0)
  | createdAt {flags : UInt8} (hflags : bytes[6]? = some flags)
      (hpresent : (flags &&& flagCreatedAt != 0) = true)
      (h : DateTime.timestampMillisOpt
        (signed64 (fromLeBytes ((bytes.drop 15).take 8))) = none)
  | expiresAt {flags : UInt8} (hflags : bytes[6]? = some flags)
      (hpresent : (flags &&& flagExpiresAt != 0) = true)
      (h : DateTime.timestampMillisOpt (signed64
        (fromLeBytes ((bytes.drop (createdEnd flags)).take 8))) = none)
  | length {flags : UInt8} (hflags : bytes[6]? = some flags)
      (h : expiresEnd flags + fromLeBytes ((bytes.drop 7).take 8) ≠
        bytes.length)
  | payload {tag flags : UInt8} {kind : ValueKind}
      (htag : bytes[5]? = some tag) (hkind : ValueKind.fromTag tag = some kind)
      (hflags : bytes[6]? = some flags)
      (h : Value.validatePayload kind (bytes.drop (expiresEnd flags)) ≠ .ok ())

theorem timestampMillisOpt_encodeOptional {t : Option DateTime} (rest : Bytes)
    (h : t.isSome = true) :
    DateTime.timestampMillisOpt
      (signed64 (fromLeBytes ((encodeOptional t ++ rest).take 8))) ≠ none := by
  obtain ⟨t, rfl⟩ := Option.isSome_iff_exists.mp h
  have htake : (encodeOptional (some t) ++ rest).take 8 = encodeDateTime t :=
    List.take_left' (length_toLeBytes _ _)
  rw [htake, signed64_encodeDateTime,
    DateTime.timestampMillisOpt_timestampMillis]
  simp

theorem Malformed.rejected {bytes : Bytes} (h : Malformed bytes) :
    Rejected bytes := by
  intro entry hdecode
  obtain ⟨rfl, hvalid, hbound⟩ := encode_of_decode hdecode
  obtain ⟨hknown, hcreated, hexpires⟩ := flags_known entry
  have hlength := length_encode entry
  cases h with
  | magic h => exact h (take_encode entry)
  | kind htag h =>
      cases htag.symm.trans (kindTag_encode entry)
      simp at h
  | flags hflags h =>
      cases hflags.symm.trans (flags_encode entry)
      exact h hknown
  | createdAt hflags hpresent h =>
      cases hflags.symm.trans (flags_encode entry)
      rw [drop_encode] at h
      exact timestampMillisOpt_encodeOptional _ (hcreated ▸ hpresent) h
  | expiresAt hflags hpresent h =>
      cases hflags.symm.trans (flags_encode entry)
      rw [drop_createdEnd] at h
      exact timestampMillisOpt_encodeOptional _ (hexpires ▸ hpresent) h
  | length hflags h =>
      cases hflags.symm.trans (flags_encode entry)
      rw [lenBytes_encode, fromLeBytes_toLeBytes_of_lt (by omega)] at h
      exact h hlength.symm
  | payload htag hkind hflags h =>
      cases hflags.symm.trans (flags_encode entry)
      cases htag.symm.trans (kindTag_encode entry)
      rw [ValueKind.fromTag_tag, Option.some.injEq] at hkind
      subst hkind
      rw [drop_expiresEnd] at h
      exact h hvalid

theorem eq_nil_of_decode_append {bytes rest : Bytes}
    {entry entry' : ManagedEntry} (h : decode bytes = .ok entry)
    (h' : decode (bytes ++ rest) = .ok entry') : rest = [] := by
  obtain ⟨hbytes, _, hbound⟩ := encode_of_decode h
  obtain ⟨hall, _, hbound'⟩ := encode_of_decode h'
  have hlength := length_encode entry
  have hlength' := length_encode entry'
  have hlong : 15 ≤ bytes.length := by
    rw [← hbytes, hlength, expiresEnd, createdEnd]
    omega
  have hflags : entry'.flags = entry.flags := by
    have hsixth := flags_encode entry'
    rw [hall, List.getElem?_append_left (by omega), ← hbytes,
      flags_encode] at hsixth
    exact (Option.some.inj hsixth).symm
  have hlen : entry'.value.bytes.length = entry.value.bytes.length := by
    have hbytes' := lenBytes_encode entry'
    rw [hall, List.drop_append_of_le_length (by omega),
      List.take_append_of_le_length (by rw [List.length_drop]; omega),
      ← hbytes, lenBytes_encode] at hbytes'
    rw [hbytes] at hlength
    rw [hall] at hlength'
    exact (toLeBytes_inj (by omega) (by omega) hbytes').symm
  rw [hall, hflags, hlen, ← hlength, hbytes, List.length_append] at hlength'
  exact List.eq_nil_of_length_eq_zero (by omega)

theorem truncMillis_le (t : DateTime) : t.truncMillis ≤ t := by
  simp only [DateTime.le_def, DateTime.truncMillis, DateTime.timestampMillis,
    nanosPerMilli]
  omega

theorem isExpired_truncMillis {entry : ManagedEntry} {now : DateTime}
    (h : entry.isExpired now = true) :
    entry.truncMillis.isExpired now = true := by
  obtain ⟨value, createdAt, expiresAt⟩ := entry
  cases expiresAt with
  | none => cases h
  | some expires =>
      have hle := truncMillis_le expires
      simp only [isExpired, truncMillis, Option.map_some, decide_eq_true_eq,
        DateTime.le_def] at h hle ⊢
      omega

/-- Encoding and decoding undo each other, up to the part of an instant below
a millisecond, and no other bytes are accepted. -/
theorem entry_format_exact :
    (∀ entry : ManagedEntry, entry.value.Storable →
      decode entry.encode = .ok entry.truncMillis ∧
        (∀ now, entry.isExpired now = true →
          entry.truncMillis.isExpired now = true) ∧
        (∀ rest, rest ≠ [] → Rejected (entry.encode ++ rest)) ∧
        ∀ before rest, before ++ rest = entry.encode → rest ≠ [] →
          Rejected before) ∧
      (∀ bytes entry, decode bytes = .ok entry → entry.encode = bytes) ∧
      ∀ bytes, Malformed bytes → Rejected bytes := by
  refine ⟨fun entry hstorable => ?_, fun bytes entry h => (encode_of_decode h).1,
    fun bytes => Malformed.rejected⟩
  have hdecode := decode_encode entry hstorable.1 hstorable.2
  refine ⟨hdecode, fun now => isExpired_truncMillis, ?_, ?_⟩
  · intro rest hrest entry' h
    exact hrest (eq_nil_of_decode_append hdecode h)
  · intro before rest hsplit hrest entry' h
    rw [← hsplit] at hdecode
    exact hrest (eq_nil_of_decode_append h hdecode)

/-- An entry of one byte that expires a millisecond after the epoch. -/
theorem entry_format_exact_one :
    let entry : ManagedEntry := ⟨.binary [7], none,
      some ⟨1000001, by decide, by decide⟩⟩
    decode entry.encode =
        .ok ⟨.binary [7], none, some ⟨1000000, by decide, by decide⟩⟩ ∧
      Rejected (entry.encode ++ [0]) ∧ Rejected [] := by
  obtain ⟨hvalid, _, hmalformed⟩ := entry_format_exact
  obtain ⟨hdecode, _, hextension, _⟩ := hvalid ⟨.binary [7], none,
    some ⟨1000001, by decide, by decide⟩⟩ ⟨rfl, by decide⟩
  exact ⟨hdecode, hextension [0] (by decide), hmalformed [] (.magic (by decide))⟩

end OpenKeyV.ManagedEntry
