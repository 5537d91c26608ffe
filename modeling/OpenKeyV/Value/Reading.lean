import OpenKeyV.Value.Wire

/-!
# What the decoder reads

`decode` accepts the wire forms of valid values and nothing else.  That a
reader is `Sound` needs no bound on the payload; `Complete` is stated for the
payloads whose offsets fit into 64 bits.
-/

namespace OpenKeyV.StructuredValue

open Library

/-! ## Cursors -/

structure Reads (cursor : Cursor) (chunk : Bytes) (next : Cursor) : Prop where
  bytes : next.bytes = cursor.bytes
  pos : next.pos = cursor.pos + chunk.length
  rest : cursor.bytes.drop cursor.pos =
    chunk ++ cursor.bytes.drop next.pos
  bound : next.pos ≤ cursor.bytes.length

section Reads

variable {cursor next last : Cursor} {chunk first second : Bytes}

theorem Reads.append (hfirst : Reads cursor first next)
    (hsecond : Reads next second last) :
    Reads cursor (first ++ second) last := by
  have hrest := hsecond.rest
  have hbound := hsecond.bound
  rw [hfirst.bytes] at hrest hbound
  constructor
  · rw [hsecond.bytes, hfirst.bytes]
  · rw [hsecond.pos, hfirst.pos, List.length_append, Nat.add_assoc]
  · rw [hfirst.rest, hrest, List.append_assoc]
  · exact hbound

theorem Reads.split (h : Reads cursor (first ++ second) last) :
    ∃ next, Reads cursor first next ∧ Reads next second last := by
  have hpos := h.pos
  have hbound := h.bound
  have hdrop : cursor.bytes.drop (cursor.pos + first.length) =
      second ++ cursor.bytes.drop last.pos := by
    rw [← List.drop_drop, h.rest, List.append_assoc, List.drop_left]
  rw [List.length_append] at hpos
  refine ⟨⟨cursor.bytes, cursor.pos + first.length⟩, ⟨rfl, rfl, ?_, ?_⟩,
    ⟨h.bytes, ?_, hdrop, hbound⟩⟩
  · rw [h.rest, List.append_assoc, hdrop]
  · simp only
    omega
  · simp only
    omega

theorem Reads.eq_nil (h : Reads cursor [] next) : next = cursor := by
  obtain ⟨hbytes, hpos, _, _⟩ := h
  cases cursor
  cases next
  simp_all

theorem readBytes_sound {len : Nat}
    (h : cursor.readBytes len = .ok (chunk, next)) :
    chunk.length = len ∧ Reads cursor chunk next := by
  unfold Cursor.readBytes at h
  simp only at h
  split at h
  · cases h
  · split at h
    · cases h
    · rename_i _ hshort
      cases h
      have hlen : ((cursor.bytes.drop cursor.pos).take len).length = len := by
        rw [List.length_take, List.length_drop]
        omega
      refine ⟨hlen, rfl, by simp only [hlen], ?_, by simp only; omega⟩
      simp only
      rw [← List.drop_drop, List.take_append_drop]

theorem readBytes_complete (hbytes : cursor.bytes.length < 2 ^ 64)
    (h : Reads cursor chunk next) :
    cursor.readBytes chunk.length = .ok (chunk, next) := by
  obtain ⟨hsame, hpos, hrest, hbound⟩ := h
  unfold Cursor.readBytes
  simp only
  rw [if_neg (by omega), if_neg (by omega), hrest, List.take_left]
  cases next
  simp_all

/-- What a reader returns lies between the cursors, as `code` writes it. -/
def Sound {α : Type} (read : Cursor → Except Error (α × Cursor))
    (valid : α → Prop) (code : α → Bytes) : Prop :=
  ∀ cursor a next, read cursor = .ok (a, next) →
    valid a ∧ Reads cursor (code a) next

def Complete {α : Type} (read : Cursor → Except Error (α × Cursor))
    (valid : α → Prop) (code : α → Bytes) : Prop :=
  ∀ cursor a next, cursor.bytes.length < 2 ^ 64 → valid a →
    Reads cursor (code a) next → read cursor = .ok (a, next)

theorem readU8_sound : Sound Cursor.readU8 (fun _ => True) fun tag => [tag] := by
  intro cursor tag next h
  obtain ⟨⟨chunk, behind⟩, hread, h⟩ := bind_eq_ok.mp h
  cases h
  obtain ⟨hlen, hreads⟩ := readBytes_sound hread
  obtain ⟨byte, rfl⟩ := List.length_eq_one_iff.mp hlen
  exact ⟨trivial, hreads⟩

theorem readU8_complete :
    Complete Cursor.readU8 (fun _ => True) fun tag => [tag] := by
  intro cursor tag next hbytes _ h
  have hread := readBytes_complete hbytes h
  rw [List.length_singleton] at hread
  rw [Cursor.readU8, hread]
  rfl

theorem readLen_sound :
    Sound Cursor.readLen (fun len => len < 2 ^ 32) (toLeBytes 4) := by
  intro cursor len next h
  obtain ⟨⟨chunk, behind⟩, hread, h⟩ := bind_eq_ok.mp h
  cases h
  obtain ⟨hlen, hreads⟩ := readBytes_sound hread
  have hlt := fromLeBytes_lt chunk
  have hcode := toLeBytes_fromLeBytes chunk
  rw [hlen] at hlt hcode
  rw [hcode]
  exact ⟨by omega, hreads⟩

theorem readLen_complete :
    Complete Cursor.readLen (fun len => len < 2 ^ 32) (toLeBytes 4) := by
  intro cursor len next hbytes hlen h
  have hread := readBytes_complete hbytes h
  rw [length_toLeBytes] at hread
  rw [Cursor.readLen, hread]
  simp only [bind, Except.bind, pure, Except.pure]
  rw [fromLeBytes_toLeBytes_of_lt (by omega)]

theorem readEight_sound (h : cursor.readBytes 8 = .ok (chunk, next)) :
    Reads cursor
      (toLeBytes 8 (UInt64.ofNat (fromLeBytes chunk)).toNat) next := by
  obtain ⟨hlen, hreads⟩ := readBytes_sound h
  have hlt := fromLeBytes_lt chunk
  have hcode := toLeBytes_fromLeBytes chunk
  rw [hlen] at hlt hcode
  have hnat : (UInt64.ofNat (fromLeBytes chunk)).toNat = fromLeBytes chunk :=
    UInt64.toNat_ofNat_of_lt' hlt
  rwa [hnat, hcode]

theorem readEight_complete {n : UInt64}
    (hbytes : cursor.bytes.length < 2 ^ 64)
    (h : Reads cursor (toLeBytes 8 n.toNat) next) :
    cursor.readBytes 8 = .ok (toLeBytes 8 n.toNat, next) := by
  have hread := readBytes_complete hbytes h
  rwa [length_toLeBytes] at hread

theorem ofNat_fromLeBytes (n : UInt64) :
    UInt64.ofNat (fromLeBytes (toLeBytes 8 n.toNat)) = n := by
  rw [fromLeBytes_toLeBytes_of_lt n.toNat_lt, UInt64.ofNat_toNat]

end Reads

/-! ## Lists and dictionaries -/

section Loops

variable {read : Cursor → Except Error (StructuredValue × Cursor)}
  {valid : StructuredValue → Prop} {cursor next : Cursor}

theorem decodeValues_sound (hread : Sound read valid wire) {len : Nat}
    {values : List StructuredValue}
    (h : decodeValues read len cursor = .ok (values, next)) :
    values.length = len ∧ (∀ value ∈ values, valid value) ∧
      (cursor.pos ≤ cursor.bytes.length →
        Reads cursor (values.flatMap wire) next) := by
  induction len generalizing cursor values with
  | zero =>
      cases h
      exact ⟨rfl, by simp, fun hpos => ⟨rfl, rfl, rfl, hpos⟩⟩
  | succ len ih =>
      obtain ⟨⟨value, middle⟩, hvalue, h⟩ := bind_eq_ok.mp h
      obtain ⟨⟨rest, last⟩, hrest, h⟩ := bind_eq_ok.mp h
      cases h
      obtain ⟨hvalid, hreads⟩ := hread _ _ _ hvalue
      obtain ⟨hlen, hall, hbehind⟩ := ih hrest
      have hbound := hreads.bound
      rw [← hreads.bytes] at hbound
      refine ⟨by rw [List.length_cons, hlen],
        List.forall_mem_cons.mpr ⟨hvalid, hall⟩, fun _ => ?_⟩
      rw [List.flatMap_cons]
      exact hreads.append (hbehind hbound)

theorem decodeValues_complete {values : List StructuredValue}
    (hread : Complete read valid wire)
    (hbytes : cursor.bytes.length < 2 ^ 64)
    (hvalid : ∀ value ∈ values, valid value)
    (h : Reads cursor (values.flatMap wire) next) :
    decodeValues read values.length cursor = .ok (values, next) := by
  induction values generalizing cursor with
  | nil =>
      rw [List.flatMap_nil] at h
      rw [h.eq_nil]
      rfl
  | cons value values ih =>
      obtain ⟨hvalue, hvalues⟩ := List.forall_mem_cons.mp hvalid
      rw [List.flatMap_cons] at h
      obtain ⟨middle, hfirst, hrest⟩ := h.split
      rw [List.length_cons, decodeValues, hread _ _ _ hbytes hvalue hfirst]
      simp only [bind, Except.bind]
      rw [ih (hfirst.bytes ▸ hbytes) hvalues hrest]
      rfl

theorem decodeEntries_sound (hread : Sound read valid wire) {len : Nat}
    {keys : List String} {entries : List Entry}
    (h : decodeEntries read len keys cursor = .ok (entries, next)) :
    entries.length = len ∧
      ((entries.map Prod.fst).Nodup ∧
        ∀ entry ∈ entries, entry.1 ∉ keys) ∧
      (∀ entry ∈ entries, entry.1.utf8ByteSize < 2 ^ 32 ∧ valid entry.2) ∧
      (cursor.pos ≤ cursor.bytes.length →
        Reads cursor (entries.flatMap entryWire) next) := by
  induction len generalizing cursor keys entries with
  | zero =>
      cases h
      exact ⟨rfl, by simp, by simp, fun hpos => ⟨rfl, rfl, rfl, hpos⟩⟩
  | succ len ih =>
      obtain ⟨⟨keyLen, behindLen⟩, hlen, h⟩ := bind_eq_ok.mp h
      obtain ⟨⟨keyBytes, behindKey⟩, hkey, h⟩ := bind_eq_ok.mp h
      simp only at h
      split at h
      · cases h
      · rename_i key hutf8
        split at h
        · cases h
        · rename_i hfresh
          obtain ⟨⟨value, behindValue⟩, hvalue, h⟩ := bind_eq_ok.mp h
          obtain ⟨⟨rest, last⟩, hrest, h⟩ := bind_eq_ok.mp h
          cases h
          obtain ⟨hsmall, hreadsLen⟩ := readLen_sound _ _ _ hlen
          obtain ⟨rfl, hreadsKey⟩ := readBytes_sound hkey
          obtain rfl := ofUtf8_eq_some.mp hutf8
          obtain ⟨hvalid, hreadsValue⟩ := hread _ _ _ hvalue
          obtain ⟨hcount, ⟨hnodup, hapart⟩, hall, hbehind⟩ := ih hrest
          rw [length_utf8] at hsmall hreadsLen
          have hbound := hreadsValue.bound
          rw [← hreadsValue.bytes] at hbound
          have hnew : key ∉ rest.map Prod.fst := by
            intro hmem
            obtain ⟨entry, hentry, rfl⟩ := List.mem_map.mp hmem
            exact hapart entry hentry (List.mem_cons_self ..)
          refine ⟨by rw [List.length_cons, hcount],
            ⟨List.nodup_cons.mpr ⟨hnew, hnodup⟩,
              List.forall_mem_cons.mpr ⟨hfresh, fun entry hentry hmem =>
                hapart entry hentry (List.mem_cons_of_mem _ hmem)⟩⟩,
            List.forall_mem_cons.mpr ⟨⟨hsmall, hvalid⟩, hall⟩, fun _ => ?_⟩
          rw [List.flatMap_cons]
          exact ((hreadsLen.append hreadsKey).append hreadsValue).append
            (hbehind hbound)

theorem decodeEntries_complete {keys : List String} {entries : List Entry}
    (hread : Complete read valid wire)
    (hbytes : cursor.bytes.length < 2 ^ 64)
    (hnodup : (entries.map Prod.fst).Nodup)
    (hfresh : ∀ entry ∈ entries, entry.1 ∉ keys)
    (hvalid : ∀ entry ∈ entries,
      entry.1.utf8ByteSize < 2 ^ 32 ∧ valid entry.2)
    (h : Reads cursor (entries.flatMap entryWire) next) :
    decodeEntries read entries.length keys cursor = .ok (entries, next) := by
  induction entries generalizing cursor keys with
  | nil =>
      rw [List.flatMap_nil] at h
      rw [h.eq_nil]
      rfl
  | cons entry entries ih =>
      obtain ⟨key, value⟩ := entry
      obtain ⟨⟨hsmall, hvalue⟩, hvalues⟩ := List.forall_mem_cons.mp hvalid
      obtain ⟨hnew, hrestFresh⟩ := List.forall_mem_cons.mp hfresh
      obtain ⟨hapart, hrestNodup⟩ := List.nodup_cons.mp hnodup
      rw [List.flatMap_cons, entryWire] at h
      obtain ⟨_, hentryWire, hrest⟩ := h.split
      obtain ⟨_, hhead, hreadsValue⟩ := hentryWire.split
      obtain ⟨_, hreadsLen, hreadsKey⟩ := hhead.split
      have hbytesKey := hreadsLen.bytes ▸ hbytes
      have hbytesValue := hreadsKey.bytes ▸ hbytesKey
      have hbytesRest := hreadsValue.bytes ▸ hbytesValue
      have hkey := readBytes_complete hbytesKey hreadsKey
      rw [length_utf8] at hkey
      have hutf8 : fromUtf8 (utf8 key) = some key := ofUtf8_utf8 key
      rw [List.length_cons, decodeEntries,
        readLen_complete _ _ _ hbytes hsmall hreadsLen]
      simp only [bind, Except.bind, hkey, hutf8, if_neg hnew,
        hread _ _ _ hbytesValue hvalue hreadsValue]
      rw [ih hbytesRest hrestNodup (fun other hother hmem => ?_) hvalues hrest]
      · rfl
      · rcases List.mem_cons.mp hmem with hsame | hmem
        · exact hapart (List.mem_map.mpr ⟨other, hother, hsame⟩)
        · exact hrestFresh other hother hmem

end Loops

/-! ## Values -/

def decodeBody (fuel : Nat) (tag : UInt8) (cursor : Cursor) :
    Except Error (StructuredValue × Cursor) :=
  if tag = tagNull then return (.null, cursor)
  else if tag = tagFalse then return (.bool false, cursor)
  else if tag = tagTrue then return (.bool true, cursor)
  else if tag = tagInt then do
    let (payload, cursor) ← cursor.readBytes 8
    return (.integer (UInt64.ofNat (fromLeBytes payload)).toInt64, cursor)
  else if tag = tagUint then do
    let (payload, cursor) ← cursor.readBytes 8
    return (.unsignedInteger (UInt64.ofNat (fromLeBytes payload)), cursor)
  else if tag = tagFloat then do
    let (payload, cursor) ← cursor.readBytes 8
    return (.float (UInt64.ofNat (fromLeBytes payload)), cursor)
  else if tag = tagStr then do
    let (len, cursor) ← cursor.readLen
    let (payload, cursor) ← cursor.readBytes len
    match fromUtf8 payload with
    | none => .error (.deserialization "invalid structured UTF-8")
    | some text => return (.string text, cursor)
  else if tag = tagBytes then do
    let (len, cursor) ← cursor.readLen
    let (payload, cursor) ← cursor.readBytes len
    return (.bytes payload, cursor)
  else if tag = tagList then do
    let (len, cursor) ← cursor.readLen
    let (values, cursor) ← decodeValues (decodeValue fuel) len cursor
    return (.list values, cursor)
  else if tag = tagDict then do
    let (len, cursor) ← cursor.readLen
    let (entries, cursor) ← decodeEntries (decodeValue fuel) len [] cursor
    return (.dict entries, cursor)
  else
    .error (.deserialization s!"unknown structured value tag: {tag}")

theorem decodeValue_succ (fuel : Nat) (cursor : Cursor) :
    decodeValue (fuel + 1) cursor = (do
      let (tag, cursor) ← cursor.readU8
      decodeBody fuel tag cursor) := rfl

theorem decodeBody_sound {fuel : Nat}
    (hread : Sound (decodeValue fuel) Valid wire) {tag : UInt8}
    {cursor next : Cursor} {value : StructuredValue}
    (hpos : cursor.pos ≤ cursor.bytes.length)
    (h : decodeBody fuel tag cursor = .ok (value, next)) :
    Valid value ∧ value.tag = tag ∧ Reads cursor value.body next := by
  have hstay : Reads cursor [] cursor := ⟨rfl, rfl, rfl, hpos⟩
  unfold decodeBody at h
  by_cases htag : tag = tagNull
  · rw [if_pos htag] at h
    cases h
    exact ⟨(valid_leaf rfl).mpr trivial, htag.symm, hstay⟩
  rw [if_neg htag] at h
  by_cases htag : tag = tagFalse
  · rw [if_pos htag] at h
    cases h
    exact ⟨(valid_leaf rfl).mpr trivial, htag.symm, hstay⟩
  rw [if_neg htag] at h
  by_cases htag : tag = tagTrue
  · rw [if_pos htag] at h
    cases h
    exact ⟨(valid_leaf rfl).mpr trivial, htag.symm, hstay⟩
  rw [if_neg htag] at h
  by_cases htag : tag = tagInt
  · rw [if_pos htag] at h
    obtain ⟨⟨payload, behind⟩, hpayload, h⟩ := bind_eq_ok.mp h
    cases h
    exact ⟨(valid_leaf rfl).mpr trivial, htag.symm, readEight_sound hpayload⟩
  rw [if_neg htag] at h
  by_cases htag : tag = tagUint
  · rw [if_pos htag] at h
    obtain ⟨⟨payload, behind⟩, hpayload, h⟩ := bind_eq_ok.mp h
    cases h
    exact ⟨(valid_leaf rfl).mpr trivial, htag.symm, readEight_sound hpayload⟩
  rw [if_neg htag] at h
  by_cases htag : tag = tagFloat
  · rw [if_pos htag] at h
    obtain ⟨⟨payload, behind⟩, hpayload, h⟩ := bind_eq_ok.mp h
    cases h
    exact ⟨(valid_leaf rfl).mpr trivial, htag.symm, readEight_sound hpayload⟩
  rw [if_neg htag] at h
  by_cases htag : tag = tagStr
  · rw [if_pos htag] at h
    obtain ⟨⟨len, behindLen⟩, hlen, h⟩ := bind_eq_ok.mp h
    obtain ⟨⟨payload, behind⟩, hpayload, h⟩ := bind_eq_ok.mp h
    simp only at h
    split at h
    · cases h
    · rename_i text htext
      cases h
      obtain ⟨hsmall, hreadsLen⟩ := readLen_sound _ _ _ hlen
      obtain ⟨rfl, hreads⟩ := readBytes_sound hpayload
      obtain rfl := ofUtf8_eq_some.mp htext
      rw [length_utf8] at hsmall hreadsLen
      exact ⟨(valid_leaf rfl).mpr hsmall, htag.symm, hreadsLen.append hreads⟩
  rw [if_neg htag] at h
  by_cases htag : tag = tagBytes
  · rw [if_pos htag] at h
    obtain ⟨⟨len, behindLen⟩, hlen, h⟩ := bind_eq_ok.mp h
    obtain ⟨⟨payload, behind⟩, hpayload, h⟩ := bind_eq_ok.mp h
    cases h
    obtain ⟨hsmall, hreadsLen⟩ := readLen_sound _ _ _ hlen
    obtain ⟨rfl, hreads⟩ := readBytes_sound hpayload
    exact ⟨(valid_leaf rfl).mpr hsmall, htag.symm, hreadsLen.append hreads⟩
  rw [if_neg htag] at h
  by_cases htag : tag = tagList
  · rw [if_pos htag] at h
    obtain ⟨⟨len, behindLen⟩, hlen, h⟩ := bind_eq_ok.mp h
    obtain ⟨⟨values, behind⟩, hvalues, h⟩ := bind_eq_ok.mp h
    cases h
    obtain ⟨hsmall, hreadsLen⟩ := readLen_sound _ _ _ hlen
    obtain ⟨rfl, hall, hreads⟩ := decodeValues_sound hread hvalues
    have hbound := hreadsLen.bound
    rw [← hreadsLen.bytes] at hbound
    exact ⟨valid_list.mpr ⟨hsmall, hall⟩, htag.symm,
      hreadsLen.append (hreads hbound)⟩
  rw [if_neg htag] at h
  by_cases htag : tag = tagDict
  · rw [if_pos htag] at h
    obtain ⟨⟨len, behindLen⟩, hlen, h⟩ := bind_eq_ok.mp h
    obtain ⟨⟨entries, behind⟩, hentries, h⟩ := bind_eq_ok.mp h
    cases h
    obtain ⟨hsmall, hreadsLen⟩ := readLen_sound _ _ _ hlen
    obtain ⟨rfl, ⟨hnodup, _⟩, hall, hreads⟩ :=
      decodeEntries_sound hread hentries
    have hbound := hreadsLen.bound
    rw [← hreadsLen.bytes] at hbound
    exact ⟨valid_dict.mpr ⟨hsmall, hnodup, hall⟩, htag.symm,
      hreadsLen.append (hreads hbound)⟩
  rw [if_neg htag] at h
  cases h

theorem decodeValue_sound (fuel : Nat) :
    Sound (decodeValue fuel) Valid wire := by
  induction fuel with
  | zero =>
      intro cursor value next h
      cases h
  | succ fuel ih =>
      intro cursor value next h
      rw [decodeValue_succ] at h
      obtain ⟨⟨tag, behind⟩, htag, h⟩ := bind_eq_ok.mp h
      obtain ⟨_, hreadsTag⟩ := readU8_sound _ _ _ htag
      have hbound := hreadsTag.bound
      rw [← hreadsTag.bytes] at hbound
      obtain ⟨hvalid, rfl, hreads⟩ := decodeBody_sound ih hbound h
      rw [wire_eq_cons]
      exact ⟨hvalid, hreadsTag.append hreads⟩

theorem length_wire_le_flatMap {values : List StructuredValue}
    {value : StructuredValue} (h : value ∈ values) :
    (wire value).length ≤ (values.flatMap wire).length := by
  obtain ⟨before, after, rfl⟩ := List.append_of_mem h
  rw [List.flatMap_append, List.flatMap_cons, List.length_append,
    List.length_append]
  omega

theorem length_entryWire_le_flatMap {entries : List Entry} {entry : Entry}
    (h : entry ∈ entries) :
    (wire entry.2).length ≤ (entries.flatMap entryWire).length := by
  obtain ⟨before, after, rfl⟩ := List.append_of_mem h
  rw [List.flatMap_append, List.flatMap_cons, entryWire]
  simp only [List.length_append]
  omega

theorem decodeBody_complete {fuel : Nat}
    (hread : Complete (decodeValue fuel)
      (fun value => Valid value ∧ (wire value).length ≤ fuel) wire)
    {cursor next : Cursor} {value : StructuredValue}
    (hbytes : cursor.bytes.length < 2 ^ 64) (hvalid : Valid value)
    (hfuel : value.body.length ≤ fuel)
    (h : Reads cursor value.body next) :
    decodeBody fuel value.tag cursor = .ok (value, next) := by
  cases value with
  | null =>
      rw [h.eq_nil]
      rfl
  | bool value =>
      rw [h.eq_nil]
      cases value <;> rfl
  | integer value =>
      have hbody : decodeBody fuel (tag (.integer value)) cursor = (do
        let (payload, cursor) ← cursor.readBytes 8
        return (.integer (UInt64.ofNat (fromLeBytes payload)).toInt64,
          cursor)) := rfl
      rw [hbody, readEight_complete hbytes h]
      simp only [bind, Except.bind, ofNat_fromLeBytes]
      rfl
  | unsignedInteger value =>
      have hbody : decodeBody fuel (tag (.unsignedInteger value)) cursor = (do
        let (payload, cursor) ← cursor.readBytes 8
        return (.unsignedInteger (UInt64.ofNat (fromLeBytes payload)),
          cursor)) := rfl
      rw [hbody, readEight_complete hbytes h]
      simp only [bind, Except.bind, ofNat_fromLeBytes]
      rfl
  | float bits =>
      have hbody : decodeBody fuel (tag (.float bits)) cursor = (do
        let (payload, cursor) ← cursor.readBytes 8
        return (.float (UInt64.ofNat (fromLeBytes payload)), cursor)) := rfl
      rw [hbody, readEight_complete hbytes h]
      simp only [bind, Except.bind, ofNat_fromLeBytes]
      rfl
  | string text =>
      have hbody : decodeBody fuel (tag (.string text)) cursor = (do
        let (len, cursor) ← cursor.readLen
        let (payload, cursor) ← cursor.readBytes len
        match fromUtf8 payload with
        | none => .error (.deserialization "invalid structured UTF-8")
        | some text => return (.string text, cursor)) := rfl
      have hsmall : text.utf8ByteSize < 2 ^ 32 := (valid_leaf rfl).mp hvalid
      obtain ⟨middle, hreadsLen, hreads⟩ := h.split
      have htext := readBytes_complete (hreadsLen.bytes ▸ hbytes) hreads
      rw [length_utf8] at htext
      have hutf8 : fromUtf8 (utf8 text) = some text := ofUtf8_utf8 text
      rw [hbody, readLen_complete _ _ _ hbytes hsmall hreadsLen]
      simp only [bind, Except.bind, htext, hutf8]
      rfl
  | bytes payload =>
      have hbody : decodeBody fuel (tag (.bytes payload)) cursor = (do
        let (len, cursor) ← cursor.readLen
        let (payload, cursor) ← cursor.readBytes len
        return (.bytes payload, cursor)) := rfl
      have hsmall : payload.length < 2 ^ 32 := (valid_leaf rfl).mp hvalid
      obtain ⟨middle, hreadsLen, hreads⟩ := h.split
      rw [hbody, readLen_complete _ _ _ hbytes hsmall hreadsLen]
      simp only [bind, Except.bind,
        readBytes_complete (hreadsLen.bytes ▸ hbytes) hreads]
      rfl
  | list values =>
      have hbody : decodeBody fuel (tag (.list values)) cursor = (do
        let (len, cursor) ← cursor.readLen
        let (values, cursor) ← decodeValues (decodeValue fuel) len cursor
        return (.list values, cursor)) := rfl
      obtain ⟨hsmall, hall⟩ := valid_list.mp hvalid
      obtain ⟨middle, hreadsLen, hreads⟩ := h.split
      have hinside : ∀ value ∈ values,
          Valid value ∧ (wire value).length ≤ fuel := by
        intro value hmem
        have hle := length_wire_le_flatMap hmem
        rw [body, List.length_append] at hfuel
        exact ⟨hall value hmem, by omega⟩
      rw [hbody, readLen_complete _ _ _ hbytes hsmall hreadsLen]
      simp only [bind, Except.bind, decodeValues_complete hread
        (hreadsLen.bytes ▸ hbytes) hinside hreads]
      rfl
  | dict entries =>
      have hbody : decodeBody fuel (tag (.dict entries)) cursor = (do
        let (len, cursor) ← cursor.readLen
        let (entries, cursor) ←
          decodeEntries (decodeValue fuel) len [] cursor
        return (.dict entries, cursor)) := rfl
      obtain ⟨hsmall, hnodup, hall⟩ := valid_dict.mp hvalid
      obtain ⟨middle, hreadsLen, hreads⟩ := h.split
      have hinside : ∀ entry ∈ entries, entry.1.utf8ByteSize < 2 ^ 32 ∧
          Valid entry.2 ∧ (wire entry.2).length ≤ fuel := by
        intro entry hmem
        have hle := length_entryWire_le_flatMap hmem
        rw [body, List.length_append] at hfuel
        exact ⟨(hall entry hmem).1, (hall entry hmem).2, by omega⟩
      have hfresh : ∀ entry ∈ entries, entry.1 ∉ ([] : List String) :=
        fun _ _ => List.not_mem_nil
      rw [hbody, readLen_complete _ _ _ hbytes hsmall hreadsLen]
      simp only [bind, Except.bind, decodeEntries_complete hread
        (hreadsLen.bytes ▸ hbytes) hnodup hfresh hinside hreads]
      rfl

theorem decodeValue_complete (fuel : Nat) :
    Complete (decodeValue fuel)
      (fun value => Valid value ∧ (wire value).length ≤ fuel) wire := by
  induction fuel with
  | zero =>
      rintro cursor value next _ ⟨_, hfuel⟩ _
      rw [wire_eq_cons] at hfuel
      cases hfuel
  | succ fuel ih =>
      rintro cursor value next hbytes ⟨hvalid, hfuel⟩ h
      rw [wire_eq_cons] at h
      rw [wire_eq_cons, List.length_cons] at hfuel
      obtain ⟨middle, htag, hbody⟩ := Reads.split
        (show Reads cursor ([value.tag] ++ value.body) next from h)
      rw [decodeValue_succ, readU8_complete _ _ _ hbytes trivial htag]
      exact decodeBody_complete ih (htag.bytes ▸ hbytes) hvalid (by omega)
        hbody

/-! ## The accepted payloads -/

theorem decode_sound {b : Bytes} {value : StructuredValue}
    (h : decode b = .ok value) : Valid value ∧ b = magic ++ wire value := by
  unfold decode at h
  split at h
  · rename_i hmagic
    obtain ⟨payload, rfl⟩ := List.isPrefixOf_iff_prefix.mp hmagic
    rw [List.drop_left] at h
    obtain ⟨⟨value', last⟩, hvalue, h⟩ := bind_eq_ok.mp h
    simp only at h
    split at h
    · cases h
    · rename_i hremaining
      cases h
      obtain ⟨hvalid, hreads⟩ := decodeValue_sound _ _ _ _ hvalue
      have hrest := hreads.rest
      have hnone : payload.drop last.pos = [] := by
        rw [List.drop_eq_nil_iff]
        have hbytes : last.bytes = payload := hreads.bytes
        rw [Cursor.remaining, hbytes] at hremaining
        omega
      change payload = wire value ++ payload.drop last.pos at hrest
      rw [hnone, List.append_nil] at hrest
      rw [hrest]
      exact ⟨hvalid, rfl⟩
  · cases h

theorem decode_complete {value : StructuredValue} (hvalid : Valid value)
    (hbytes : (magic ++ wire value).length < 2 ^ 64) :
    decode (magic ++ wire value) = .ok value := by
  have hreads : Reads (.new (wire value)) (wire value)
      ⟨wire value, (wire value).length⟩ :=
    ⟨rfl, by simp [Cursor.new], by simp [Cursor.new], Nat.le_refl _⟩
  rw [List.length_append] at hbytes
  have hvalue := decodeValue_complete ((wire value).length + 1) _ _ _
    (by simp only [Cursor.new]; omega) ⟨hvalid, by omega⟩ hreads
  unfold decode
  rw [if_pos (List.isPrefixOf_iff_prefix.mpr (List.prefix_append _ _)),
    List.drop_left]
  simp only [hvalue, bind, Except.bind, Cursor.remaining, Nat.sub_self]
  rfl

end OpenKeyV.StructuredValue
