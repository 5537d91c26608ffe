import OpenKeyV.Library.Noted
import OpenKeyV.Value.Reading

/-!
# What the decoder asks for

`decode` cuts slices out of its input and reserves room for the elements that
a list or a dictionary announces.  `noteDecode` is `decode` with a note of
each such demand and of the bytes that were unread then.
-/

namespace OpenKeyV.StructuredValue

open Library

/-- So many bytes or elements, with so many bytes unread. -/
structure Demand where
  size : Nat
  unread : Nat
  deriving DecidableEq, Repr

abbrev Demands := Noted Demand Error

namespace Cursor

def noteBytes (cursor : Cursor) (len : Nat) : Demands (Bytes × Cursor) := do
  let read ← .ofExcept (cursor.readBytes len)
  .note ⟨len, cursor.remaining⟩
  return read

def noteU8 (cursor : Cursor) : Demands (UInt8 × Cursor) := do
  let (bytes, cursor) ← cursor.noteBytes 1
  return (bytes.headD 0, cursor)

def noteLen (cursor : Cursor) : Demands (Nat × Cursor) := do
  let (bytes, cursor) ← cursor.noteBytes 4
  return (fromLeBytes bytes, cursor)

def withCapacity (cursor : Cursor) (len : Nat) : Demands Unit :=
  .note ⟨len, cursor.remaining⟩

end Cursor

def noteValues (noteValue : Cursor → Demands (StructuredValue × Cursor)) :
    Nat → Cursor → Demands (List StructuredValue × Cursor)
  | 0, cursor => return ([], cursor)
  | len + 1, cursor => do
      let (value, cursor) ← noteValue cursor
      let (values, cursor) ← noteValues noteValue len cursor
      return (value :: values, cursor)

def noteEntries (noteValue : Cursor → Demands (StructuredValue × Cursor)) :
    Nat → List String → Cursor →
      Demands (List (String × StructuredValue) × Cursor)
  | 0, _, cursor => return ([], cursor)
  | len + 1, keys, cursor => do
      let (keyLen, cursor) ← cursor.noteLen
      let (keyBytes, cursor) ← cursor.noteBytes keyLen
      match fromUtf8 keyBytes with
      | none =>
          .ofExcept (.error (.deserialization "invalid structured dict key"))
      | some key =>
          if key ∈ keys then
            .ofExcept (.error
              (.deserialization s!"duplicate structured dict key: {key}"))
          else do
            let (value, cursor) ← noteValue cursor
            let (entries, cursor) ←
              noteEntries noteValue len (key :: keys) cursor
            return ((key, value) :: entries, cursor)

def noteBody (noteValue : Cursor → Demands (StructuredValue × Cursor))
    (tag : UInt8) (cursor : Cursor) : Demands (StructuredValue × Cursor) :=
  if tag = tagNull then return (.null, cursor)
  else if tag = tagFalse then return (.bool false, cursor)
  else if tag = tagTrue then return (.bool true, cursor)
  else if tag = tagInt then do
    let (payload, cursor) ← cursor.noteBytes 8
    return (.integer (UInt64.ofNat (fromLeBytes payload)).toInt64, cursor)
  else if tag = tagUint then do
    let (payload, cursor) ← cursor.noteBytes 8
    return (.unsignedInteger (UInt64.ofNat (fromLeBytes payload)), cursor)
  else if tag = tagFloat then do
    let (payload, cursor) ← cursor.noteBytes 8
    return (.float (UInt64.ofNat (fromLeBytes payload)), cursor)
  else if tag = tagStr then do
    let (len, cursor) ← cursor.noteLen
    let (payload, cursor) ← cursor.noteBytes len
    match fromUtf8 payload with
    | none => .ofExcept (.error (.deserialization "invalid structured UTF-8"))
    | some text => return (.string text, cursor)
  else if tag = tagBytes then do
    let (len, cursor) ← cursor.noteLen
    let (payload, cursor) ← cursor.noteBytes len
    return (.bytes payload, cursor)
  else if tag = tagList then do
    let (len, cursor) ← cursor.noteLen
    cursor.withCapacity len
    let (values, cursor) ← noteValues noteValue len cursor
    return (.list values, cursor)
  else if tag = tagDict then do
    let (len, cursor) ← cursor.noteLen
    cursor.withCapacity len
    let (entries, cursor) ← noteEntries noteValue len [] cursor
    return (.dict entries, cursor)
  else
    .ofExcept (.error
      (.deserialization s!"unknown structured value tag: {tag}"))

def noteValue : Nat → Cursor → Demands (StructuredValue × Cursor)
  | 0, _ => .ofExcept (.error
      (.deserialization "structured value nesting too deep"))
  | fuel + 1, cursor => do
      let (tag, cursor) ← cursor.noteU8
      noteBody (noteValue fuel) tag cursor

def noteDecode (wire : Bytes) : Demands StructuredValue :=
  if magic.isPrefixOf wire then do
    let payload := wire.drop magic.length
    let (value, cursor) ← noteValue (payload.length + 1) (.new payload)
    if cursor.remaining ≠ 0 then
      .ofExcept (.error
        (.deserialization "trailing bytes in structured value"))
    else return value
  else
    .ofExcept (.error (.deserialization "invalid structured value header"))

/-! ## The notes change nothing -/

section Result

open Noted

@[simp] theorem result_noteBytes (cursor : Cursor) (len : Nat) :
    (cursor.noteBytes len).result = cursor.readBytes len := by
  simp only [Cursor.noteBytes, result_bind, result_ofExcept, result_note,
    result_pure]
  cases cursor.readBytes len <;> rfl

@[simp] theorem result_noteU8 (cursor : Cursor) :
    cursor.noteU8.result = cursor.readU8 := by
  simp only [Cursor.noteU8, result_bind, result_noteBytes, result_pure]
  rfl

@[simp] theorem result_noteLen (cursor : Cursor) :
    cursor.noteLen.result = cursor.readLen := by
  simp only [Cursor.noteLen, result_bind, result_noteBytes, result_pure]
  rfl

@[simp] theorem result_withCapacity (cursor : Cursor) (len : Nat) :
    (cursor.withCapacity len).result = .ok () := rfl

variable {fuel : Nat}
  {read : Cursor → Except Error (StructuredValue × Cursor)}
  {noted : Cursor → Demands (StructuredValue × Cursor)}

theorem result_noteValues (h : ∀ cursor, (noted cursor).result = read cursor)
    (len : Nat) (cursor : Cursor) :
    (noteValues noted len cursor).result = decodeValues read len cursor := by
  induction len generalizing cursor with
  | zero => rfl
  | succ len ih =>
      simp only [noteValues, decodeValues, result_bind, result_pure, h, ih]
      rfl

theorem result_noteEntries (h : ∀ cursor, (noted cursor).result = read cursor)
    (len : Nat) (keys : List String) (cursor : Cursor) :
    (noteEntries noted len keys cursor).result =
      decodeEntries read len keys cursor := by
  induction len generalizing keys cursor with
  | zero => rfl
  | succ len ih =>
      simp only [noteEntries, decodeEntries, result_bind, result_noteLen,
        result_noteBytes]
      congr 1
      funext lenAt
      obtain ⟨keyLen, behindLen⟩ := lenAt
      congr 1
      funext bytesAt
      obtain ⟨keyBytes, behindKey⟩ := bytesAt
      dsimp only
      cases fromUtf8 keyBytes with
      | none => rfl
      | some key =>
          dsimp only
          split
          · rfl
          · simp only [result_bind, result_pure, h, ih]
            rfl

theorem result_noteBody (h : ∀ cursor, (noted cursor).result =
    decodeValue fuel cursor) (tag : UInt8) (cursor : Cursor) :
    (noteBody noted tag cursor).result = decodeBody fuel tag cursor := by
  unfold noteBody decodeBody
  refine result_ite rfl (result_ite rfl (result_ite rfl ?_))
  refine result_ite ?_ (result_ite ?_ (result_ite ?_ ?_))
  · simp only [result_bind, result_noteBytes, result_pure]
    rfl
  · simp only [result_bind, result_noteBytes, result_pure]
    rfl
  · simp only [result_bind, result_noteBytes, result_pure]
    rfl
  refine result_ite ?_ (result_ite ?_ ?_)
  · simp only [result_bind, result_noteBytes, result_noteLen]
    congr 1
    funext lenAt
    obtain ⟨len, behindLen⟩ := lenAt
    congr 1
    funext payloadAt
    obtain ⟨payload, behind⟩ := payloadAt
    dsimp only
    cases fromUtf8 payload with
    | none => rfl
    | some text => rfl
  · simp only [result_bind, result_noteBytes, result_noteLen, result_pure]
    rfl
  refine result_ite ?_ (result_ite ?_ rfl)
  · simp only [result_bind, result_noteLen, result_withCapacity, result_pure,
      result_noteValues h]
    rfl
  · simp only [result_bind, result_noteLen, result_withCapacity, result_pure,
      result_noteEntries h]
    rfl

theorem result_noteValue (fuel : Nat) (cursor : Cursor) :
    (noteValue fuel cursor).result = decodeValue fuel cursor := by
  induction fuel generalizing cursor with
  | zero => rfl
  | succ fuel ih =>
      rw [noteValue, decodeValue_succ, result_bind, result_noteU8]
      congr 1
      funext ⟨tag, behind⟩
      exact result_noteBody ih tag behind

theorem result_noteDecode (wire : Bytes) :
    (noteDecode wire).result = decode wire := by
  unfold noteDecode decode
  split
  · simp only [result_bind, result_noteValue]
    congr 1
    funext ⟨value, cursor⟩
    dsimp only
    split
    · rfl
    · rfl
  · rfl

end Result

/-! ## Where the decoder can stand -/

/-- A list or dictionary that was opened, with what was read of it.  A
dictionary goes on with the value of `key`. -/
inductive Frame where
  | list (len : Nat) (values : List StructuredValue)
  | dict (len : Nat) (entries : List Entry) (key : String)

namespace Frame

def bytes : Frame → Bytes
  | .list len values => tagList :: (toLeBytes 4 len ++ values.flatMap wire)
  | .dict len entries key =>
      tagDict :: (toLeBytes 4 len ++ (entries.flatMap entryWire ++
        (toLeBytes 4 key.utf8ByteSize ++ utf8 key)))

/-- Fewer elements than announced, and no key twice. -/
def Open : Frame → Prop
  | .list len values => len < 2 ^ 32 ∧ values.length < len ∧
      ∀ value ∈ values, Valid value
  | .dict len entries key => len < 2 ^ 32 ∧ entries.length < len ∧
      ((entries.map Prod.fst).Nodup ∧ key ∉ entries.map Prod.fst) ∧
      (∀ entry ∈ entries, entry.1.utf8ByteSize < 2 ^ 32 ∧ Valid entry.2) ∧
      key.utf8ByteSize < 2 ^ 32

end Frame

/-- Behind open lists and dictionaries, none announces more elements than
there are bytes to come. -/
def Modest (payload : Bytes) : Prop :=
  ∀ (frames : List Frame) (tag : UInt8) (len : Nat) (rest : Bytes),
    (∀ frame ∈ frames, frame.Open) → tag = tagList ∨ tag = tagDict →
      len < 2 ^ 32 →
        payload = frames.flatMap Frame.bytes ++
          tag :: (toLeBytes 4 len ++ rest) →
          len ≤ rest.length

theorem modest_of_tag {tag : UInt8} {payload : Bytes} (hlist : tag ≠ tagList)
    (hdict : tag ≠ tagDict) : Modest (tag :: payload) := by
  intro frames tag' len rest _ htag _ heq
  cases frames with
  | nil =>
      obtain ⟨rfl, -⟩ := List.cons.inj heq
      rcases htag with rfl | rfl
      · exact absurd rfl hlist
      · exact absurd rfl hdict
  | cons frame frames =>
      cases frame with
      | list _ _ => exact absurd (List.cons.inj heq).1 hlist
      | dict _ _ _ => exact absurd (List.cons.inj heq).1 hdict

theorem modest_of_short {tag : UInt8} {payload : Bytes}
    (h : payload.length < 4) : Modest (tag :: payload) := by
  intro frames tag' len rest _ _ _ heq
  have hlength := congrArg List.length heq
  cases frames with
  | nil =>
      simp only [List.flatMap_nil, List.nil_append, List.length_cons,
        List.length_append, length_toLeBytes] at hlength
      omega
  | cons frame frames =>
      simp only [List.flatMap_cons, List.length_cons, List.length_append,
        length_toLeBytes] at hlength
      omega

theorem modest_nil : Modest [] := by
  intro frames tag len rest _ _ _ heq
  exact absurd heq.symm (List.append_ne_nil_of_right_ne_nil _ nofun)

theorem modest_list {len : Nat} {payload : Bytes} (hlen : len < 2 ^ 32) :
    Modest (tagList :: (toLeBytes 4 len ++ payload)) ↔
      len ≤ payload.length ∧
        ∀ (values : List StructuredValue) (rest : Bytes),
          values.length < len → (∀ value ∈ values, Valid value) →
            payload = values.flatMap wire ++ rest → Modest rest := by
  constructor
  · intro h
    refine ⟨h [] tagList len payload nofun (.inl rfl) hlen rfl, ?_⟩
    rintro values rest hopen hvalid rfl frames tag len' rest' hframes htag
      hlen' rfl
    refine h (.list len values :: frames) tag len' rest'
      (List.forall_mem_cons.mpr ⟨⟨hlen, hopen, hvalid⟩, hframes⟩) htag hlen' ?_
    simp only [List.flatMap_cons, Frame.bytes, List.cons_append,
      List.append_assoc]
  · rintro ⟨hroom, hinside⟩ frames tag len' rest hframes htag hlen' heq
    cases frames with
    | nil =>
        obtain ⟨-, heq⟩ := List.cons.inj heq
        obtain ⟨rfl, rfl⟩ := toLeBytes_four_append_inj hlen hlen' heq
        exact hroom
    | cons frame frames =>
        obtain ⟨hframe, hbehind⟩ := List.forall_mem_cons.mp hframes
        cases frame with
        | dict _ _ _ => exact absurd (List.cons.inj heq).1 (by decide)
        | list len'' values =>
            obtain ⟨hlen'', hopen, hvalid⟩ := hframe
            simp only [List.flatMap_cons, Frame.bytes, List.cons_append,
              List.append_assoc, List.cons.injEq, true_and] at heq
            obtain ⟨rfl, hrest⟩ := toLeBytes_four_append_inj hlen hlen'' heq
            exact hinside values _ hopen hvalid hrest frames tag len' rest
              hbehind htag hlen' rfl

theorem modest_dict {len : Nat} {payload : Bytes} (hlen : len < 2 ^ 32) :
    Modest (tagDict :: (toLeBytes 4 len ++ payload)) ↔
      len ≤ payload.length ∧
        ∀ entries key rest, (Frame.dict len entries key).Open →
          payload = entries.flatMap entryWire ++
            (toLeBytes 4 key.utf8ByteSize ++ utf8 key) ++ rest →
            Modest rest := by
  constructor
  · intro h
    refine ⟨h [] tagDict len payload nofun (.inr rfl) hlen rfl, ?_⟩
    rintro entries key rest hopen rfl frames tag len' rest' hframes htag
      hlen' rfl
    refine h (.dict len entries key :: frames) tag len' rest'
      (List.forall_mem_cons.mpr ⟨hopen, hframes⟩) htag hlen' ?_
    simp only [List.flatMap_cons, Frame.bytes, List.cons_append,
      List.append_assoc]
  · rintro ⟨hroom, hinside⟩ frames tag len' rest hframes htag hlen' heq
    cases frames with
    | nil =>
        obtain ⟨-, heq⟩ := List.cons.inj heq
        obtain ⟨rfl, rfl⟩ := toLeBytes_four_append_inj hlen hlen' heq
        exact hroom
    | cons frame frames =>
        obtain ⟨hframe, hbehind⟩ := List.forall_mem_cons.mp hframes
        cases frame with
        | list _ _ => exact absurd (List.cons.inj heq).1 (by decide)
        | dict len'' entries key =>
            simp only [List.flatMap_cons, Frame.bytes, List.cons_append,
              List.append_assoc, List.cons.injEq, true_and] at heq
            obtain ⟨rfl, hrest⟩ :=
              toLeBytes_four_append_inj hlen hframe.1 heq
            refine hinside entries key _ hframe ?_ frames tag len' rest hbehind
              htag hlen' rfl
            rw [hrest, List.append_assoc, List.append_assoc]

/-! ## The demands of a decoder -/

section Bounded

open Noted

/-- Every demand is at most what is unread. -/
def Bounded {α : Type} (x : Demands α) : Prop :=
  x.All fun demand => demand.size ≤ demand.unread

namespace Cursor

def unread (cursor : Cursor) : Bytes := cursor.bytes.drop cursor.pos

def Inside (cursor : Cursor) : Prop :=
  cursor.pos ≤ cursor.bytes.length ∧ cursor.bytes.length < 2 ^ 64

theorem length_unread (cursor : Cursor) :
    cursor.unread.length = cursor.remaining := List.length_drop

end Cursor

variable {cursor next : Cursor} {chunk rest : Bytes} {fuel len : Nat}

theorem Reads.unread (h : Reads cursor chunk next) :
    cursor.unread = chunk ++ next.unread := by
  rw [Cursor.unread, Cursor.unread, h.bytes]
  exact h.rest

theorem Reads.inside (h : Reads cursor chunk next) (hinside : cursor.Inside) :
    next.Inside := by
  rw [Cursor.Inside, h.bytes]
  exact ⟨h.bound, hinside.2⟩

theorem exists_reads (hinside : cursor.Inside)
    (h : cursor.unread = chunk ++ rest) :
    ∃ next, Reads cursor chunk next ∧ next.unread = rest := by
  have hdrop : cursor.bytes.drop (cursor.pos + chunk.length) = rest := by
    rw [← List.drop_drop]
    change cursor.unread.drop chunk.length = rest
    rw [h, List.drop_left]
  have hlength := congrArg List.length h
  rw [Cursor.length_unread, Cursor.remaining, List.length_append] at hlength
  refine ⟨⟨cursor.bytes, cursor.pos + chunk.length⟩, ⟨rfl, rfl, ?_, ?_⟩, hdrop⟩
  · rw [hdrop]
    exact h
  · have hpos := hinside.1
    simp only
    omega

theorem bounded_noteBytes : Bounded (cursor.noteBytes len) := by
  refine all_bind.mpr ⟨all_ofExcept _, fun ⟨chunk, next⟩ h => all_bind.mpr
    ⟨(all_note _).mpr ?_, fun _ _ => all_pure _⟩⟩
  obtain ⟨hlen, hreads⟩ := readBytes_sound h
  have hpos := hreads.pos
  have hbound := hreads.bound
  change len ≤ cursor.bytes.length - cursor.pos
  omega

theorem bounded_noteU8 : Bounded cursor.noteU8 :=
  all_bind.mpr ⟨bounded_noteBytes, fun _ _ => all_pure _⟩

theorem bounded_noteLen : Bounded cursor.noteLen :=
  all_bind.mpr ⟨bounded_noteBytes, fun _ _ => all_pure _⟩

theorem reads_nil (hinside : cursor.Inside) : Reads cursor [] cursor :=
  ⟨rfl, rfl, rfl, hinside.1⟩

theorem noteValue_complete {value : StructuredValue} (hinside : cursor.Inside)
    (hfuel : cursor.unread.length ≤ fuel) (hvalid : Valid value)
    (h : Reads cursor (wire value) next) :
    (noteValue fuel cursor).result = .ok (value, next) := by
  have hlength := congrArg List.length h.unread
  rw [List.length_append] at hlength
  rw [result_noteValue]
  exact decodeValue_complete fuel _ _ _ hinside.2 ⟨hvalid, by omega⟩ h

theorem bounded_noteValues (hinside : cursor.Inside)
    (hfuel : cursor.unread.length ≤ fuel) :
    Bounded (noteValues (noteValue fuel) len cursor) ↔
      ∀ (values : List StructuredValue) (next : Cursor), values.length < len →
        (∀ value ∈ values, Valid value) →
          Reads cursor (values.flatMap wire) next →
            Bounded (noteValue fuel next) := by
  induction len generalizing cursor with
  | zero =>
      exact iff_of_true (all_pure _) fun _ _ h => absurd h (Nat.not_lt_zero _)
  | succ len ih =>
      have hshorter {chunk : Bytes} {next : Cursor}
          (h : Reads cursor chunk next) : next.unread.length ≤ fuel := by
        have hlength := congrArg List.length h.unread
        rw [List.length_append] at hlength
        omega
      constructor
      · intro hbounded values next hopen hvalid hreads
        obtain ⟨hfirst, hbehind⟩ := all_bind.mp hbounded
        cases values with
        | nil =>
            rw [hreads.eq_nil]
            exact hfirst
        | cons value values =>
            obtain ⟨hvalue, hvalues⟩ := List.forall_mem_cons.mp hvalid
            rw [List.flatMap_cons] at hreads
            obtain ⟨middle, hreadsValue, hreads⟩ := hreads.split
            have hnext := (all_bind.mp (hbehind (value, middle)
              (noteValue_complete hinside hfuel hvalue hreadsValue))).1
            exact (ih (hreadsValue.inside hinside) (hshorter hreadsValue)).mp
              hnext values next (Nat.lt_of_succ_lt_succ hopen) hvalues hreads
      · intro h
        refine all_bind.mpr ⟨h [] cursor (Nat.succ_pos _) nofun
          (reads_nil hinside), fun ⟨value, middle⟩ hvalue => all_bind.mpr
            ⟨?_, fun _ _ => all_pure _⟩⟩
        rw [result_noteValue] at hvalue
        obtain ⟨hvalid, hreads⟩ := decodeValue_sound _ _ _ _ hvalue
        refine (ih (hreads.inside hinside) (hshorter hreads)).mpr
          fun values next hopen hvalids hbehind => ?_
        refine h (value :: values) next (Nat.succ_lt_succ hopen)
          (List.forall_mem_cons.mpr ⟨hvalid, hvalids⟩) ?_
        rw [List.flatMap_cons]
        exact hreads.append hbehind

def ReadsKey (keys : List String) (len : Nat) (cursor : Cursor)
    (entries : List Entry) (key : String) (next : Cursor) : Prop :=
  entries.length < len ∧
    ((entries.map Prod.fst).Nodup ∧ key ∉ entries.map Prod.fst) ∧
    (∀ entry ∈ entries, entry.1 ∉ keys) ∧ key ∉ keys ∧
    (∀ entry ∈ entries, entry.1.utf8ByteSize < 2 ^ 32 ∧ Valid entry.2) ∧
    key.utf8ByteSize < 2 ^ 32 ∧
    Reads cursor (entries.flatMap entryWire ++
      (toLeBytes 4 key.utf8ByteSize ++ utf8 key)) next

theorem bounded_noteEntries_succ {keys : List String} {key : String}
    (hinside : cursor.Inside)
    (h : Bounded (noteEntries (noteValue fuel) (len + 1) keys cursor))
    (hsmall : key.utf8ByteSize < 2 ^ 32) (hnew : key ∉ keys)
    (hreads : Reads cursor (toLeBytes 4 key.utf8ByteSize ++ utf8 key) next) :
    Bounded (noteValue fuel next) ∧ ∀ value behind,
      (noteValue fuel next).result = .ok (value, behind) →
        Bounded (noteEntries (noteValue fuel) len (key :: keys) behind) := by
  obtain ⟨middle, hreadsLen, hreadsKey⟩ := hreads.split
  have hlen : cursor.noteLen.result = .ok (key.utf8ByteSize, middle) := by
    rw [result_noteLen]
    exact readLen_complete _ _ _ hinside.2 hsmall hreadsLen
  have hkey : (middle.noteBytes key.utf8ByteSize).result =
      .ok (utf8 key, next) := by
    rw [result_noteBytes, ← length_utf8]
    exact readBytes_complete (hreadsLen.inside hinside).2 hreadsKey
  have hutf8 : fromUtf8 (utf8 key) = some key := ofUtf8_utf8 key
  have hbehind := (all_bind.mp ((all_bind.mp h).2 _ hlen)).2 _ hkey
  simp only [hutf8] at hbehind
  have hvalue := all_bind.mp ((all_ite.mp hbehind).2 hnew)
  exact ⟨hvalue.1, fun value behind hresult =>
    (all_bind.mp (hvalue.2 _ hresult)).1⟩

theorem bounded_noteEntries {keys : List String} (hinside : cursor.Inside)
    (hfuel : cursor.unread.length ≤ fuel) :
    Bounded (noteEntries (noteValue fuel) len keys cursor) ↔
      ∀ entries key next, ReadsKey keys len cursor entries key next →
        Bounded (noteValue fuel next) := by
  induction len generalizing cursor keys with
  | zero =>
      exact iff_of_true (all_pure _) fun _ _ _ h =>
        absurd h.1 (Nat.not_lt_zero _)
  | succ len ih =>
      have hshorter {chunk : Bytes} {next : Cursor}
          (h : Reads cursor chunk next) : next.unread.length ≤ fuel := by
        have hlength := congrArg List.length h.unread
        rw [List.length_append] at hlength
        omega
      constructor
      · rintro hbounded entries key next
          ⟨hopen, ⟨hnodup, hapart⟩, hfresh, hnew, hvalid, hsmall, hreads⟩
        cases entries with
        | nil =>
            exact (bounded_noteEntries_succ hinside hbounded hsmall hnew
              hreads).1
        | cons entry entries =>
            obtain ⟨key', value⟩ := entry
            obtain ⟨⟨hsmall', hvalue⟩, hvalids⟩ :=
              List.forall_mem_cons.mp hvalid
            obtain ⟨hnew', hfresh⟩ := List.forall_mem_cons.mp hfresh
            obtain ⟨hapart', hnodup⟩ := List.nodup_cons.mp hnodup
            obtain ⟨hdiffer, hapart⟩ := not_or.mp
              (mt List.mem_cons.mpr hapart)
            rw [List.flatMap_cons, entryWire, List.append_assoc] at hreads
            obtain ⟨behind, hentry, hreads⟩ := hreads.split
            obtain ⟨middle, hreadsKey, hreadsValue⟩ := hentry.split
            have hnext := (bounded_noteEntries_succ hinside hbounded hsmall'
              hnew' hreadsKey).2 value behind (noteValue_complete
                (hreadsKey.inside hinside) (hshorter hreadsKey) hvalue
                hreadsValue)
            refine (ih (hentry.inside hinside) (hshorter hentry)).mp hnext
              entries key next ⟨Nat.lt_of_succ_lt_succ hopen,
                ⟨hnodup, hapart⟩, fun other hother hmem => ?_, fun hmem => ?_,
                hvalids, hsmall, hreads⟩
            · rcases List.mem_cons.mp hmem with hsame | hmem
              · exact hapart' (List.mem_map.mpr ⟨other, hother, hsame⟩)
              · exact hfresh other hother hmem
            · rcases List.mem_cons.mp hmem with hsame | hmem
              · exact hdiffer hsame
              · exact hnew hmem
      · intro h
        refine all_bind.mpr ⟨bounded_noteLen, ?_⟩
        rintro ⟨keyLen, behindLen⟩ hlen
        refine all_bind.mpr ⟨bounded_noteBytes, ?_⟩
        rintro ⟨keyBytes, behindKey⟩ hkey
        rw [result_noteLen] at hlen
        rw [result_noteBytes] at hkey
        obtain ⟨hsmall, hreadsLen⟩ := readLen_sound _ _ _ hlen
        obtain ⟨rfl, hreadsKey⟩ := readBytes_sound hkey
        dsimp only
        cases hutf8 : fromUtf8 keyBytes with
        | none => exact all_ofExcept _
        | some key =>
            obtain rfl := ofUtf8_eq_some.mp hutf8
            rw [length_utf8] at hsmall hreadsLen
            have hreads := hreadsLen.append hreadsKey
            refine all_ite.mpr ⟨fun _ => all_ofExcept _, fun hnew => ?_⟩
            refine all_bind.mpr ⟨?_, ?_⟩
            · exact h [] key behindKey ⟨Nat.succ_pos _, ⟨List.nodup_nil,
                List.not_mem_nil⟩, List.forall_mem_nil _, hnew,
                List.forall_mem_nil _, hsmall, hreads⟩
            · rintro ⟨value, behindValue⟩ hvalue
              refine all_bind.mpr ⟨?_, fun _ _ => all_pure _⟩
              rw [result_noteValue] at hvalue
              obtain ⟨hvalid, hreadsValue⟩ := decodeValue_sound _ _ _ _ hvalue
              have hentry := hreads.append hreadsValue
              refine (ih (hentry.inside hinside) (hshorter hentry)).mpr ?_
              rintro entries key' next ⟨hopen, ⟨hnodup, hapart⟩, hfresh, hnew',
                hvalids, hsmall', hbehind⟩
              refine h ((key, value) :: entries) key' next
                ⟨Nat.succ_lt_succ hopen, ⟨List.nodup_cons.mpr ⟨fun hmem => ?_,
                  hnodup⟩, fun hmem => ?_⟩,
                  List.forall_mem_cons.mpr ⟨hnew, fun other hother hmem =>
                    hfresh other hother (List.mem_cons_of_mem _ hmem)⟩,
                  fun hmem => hnew' (List.mem_cons_of_mem _ hmem),
                  List.forall_mem_cons.mpr ⟨⟨hsmall, hvalid⟩, hvalids⟩,
                  hsmall', ?_⟩
              · obtain ⟨other, hother, hsame⟩ := List.mem_map.mp hmem
                exact hfresh other hother (hsame ▸ List.mem_cons_self)
              · rcases List.mem_cons.mp hmem with hsame | hmem
                · exact hnew' (hsame ▸ List.mem_cons_self)
                · exact hapart hmem
              · rw [List.flatMap_cons, entryWire, List.append_assoc]
                exact hentry.append hbehind

theorem bounded_noteBody_leaf {tag : UInt8} (hlist : tag ≠ tagList)
    (hdict : tag ≠ tagDict)
    (noted : Cursor → Demands (StructuredValue × Cursor)) :
    Bounded (noteBody noted tag cursor) := by
  have height (f : Bytes × Cursor → StructuredValue × Cursor) :
      Bounded (cursor.noteBytes 8 >>= fun read => pure (f read)) :=
    all_bind.mpr ⟨bounded_noteBytes, fun _ _ => all_pure _⟩
  unfold noteBody
  refine all_ite.mpr ⟨fun _ => all_pure _, fun _ => ?_⟩
  refine all_ite.mpr ⟨fun _ => all_pure _, fun _ => ?_⟩
  refine all_ite.mpr ⟨fun _ => all_pure _, fun _ => ?_⟩
  refine all_ite.mpr ⟨fun _ => height _, fun _ => ?_⟩
  refine all_ite.mpr ⟨fun _ => height _, fun _ => ?_⟩
  refine all_ite.mpr ⟨fun _ => height _, fun _ => ?_⟩
  refine all_ite.mpr ⟨fun _ => ?_, fun _ => ?_⟩
  · refine all_bind.mpr ⟨bounded_noteLen, fun _ _ => all_bind.mpr
      ⟨bounded_noteBytes, fun ⟨payload, behind⟩ _ => ?_⟩⟩
    dsimp only
    cases fromUtf8 payload with
    | none => exact all_ofExcept _
    | some text => exact all_pure _
  refine all_ite.mpr ⟨fun _ => all_bind.mpr ⟨bounded_noteLen, fun _ _ =>
    all_bind.mpr ⟨bounded_noteBytes, fun _ _ => all_pure _⟩⟩, fun _ => ?_⟩
  rw [if_neg hlist, if_neg hdict]
  exact all_ofExcept _

theorem readLen_cases (hinside : cursor.Inside) :
    cursor.unread.length < 4 ∧ (∃ error, cursor.readLen = .error error) ∨
      ∃ len behind, len < 2 ^ 32 ∧ cursor.readLen = .ok (len, behind) ∧
        Reads cursor (toLeBytes 4 len) behind := by
  by_cases hshort : cursor.unread.length < 4
  · refine .inl ⟨hshort, ?_⟩
    cases hread : cursor.readLen with
    | error error => exact ⟨error, rfl⟩
    | ok read =>
        obtain ⟨-, hreads⟩ := readLen_sound _ _ _ hread
        have hlength := congrArg List.length hreads.unread
        rw [List.length_append, length_toLeBytes] at hlength
        omega
  · right
    have hchunk : (cursor.unread.take 4).length = 4 := by
      rw [List.length_take]
      omega
    obtain ⟨behind, hreads, -⟩ := exists_reads hinside
      (List.take_append_drop 4 cursor.unread).symm
    have hlt := fromLeBytes_lt (cursor.unread.take 4)
    have hcode := toLeBytes_fromLeBytes (cursor.unread.take 4)
    rw [hchunk] at hlt hcode
    rw [← hcode] at hreads
    exact ⟨_, behind, by omega, readLen_complete _ _ _ hinside.2 (by omega)
      hreads, hreads⟩

def announced {α : Type} (f : Nat → Cursor → Demands α) (cursor : Cursor) :
    Demands α := do
  let (len, cursor) ← cursor.noteLen
  cursor.withCapacity len
  f len cursor

theorem bounded_announced {α : Type} {f : Nat → Cursor → Demands α}
    {len : Nat} (h : cursor.readLen = .ok (len, next)) :
    Bounded (announced f cursor) ↔
      len ≤ next.unread.length ∧ Bounded (f len next) := by
  have hroom : Bounded (next.withCapacity len) ↔ len ≤ next.unread.length := by
    rw [Cursor.length_unread]
    exact all_note _
  rw [← hroom]
  constructor
  · intro hbounded
    have hbehind := (all_bind.mp hbounded).2 (len, next)
      (by rw [result_noteLen, h])
    obtain ⟨hroom, hbehind⟩ := all_bind.mp hbehind
    exact ⟨hroom, hbehind () rfl⟩
  · rintro ⟨hroom, hbehind⟩
    refine all_bind.mpr ⟨bounded_noteLen, fun read hread => ?_⟩
    rw [result_noteLen, h] at hread
    cases hread
    exact all_bind.mpr ⟨hroom, fun _ _ => hbehind⟩

theorem bounded_of_readLen_error {α : Type} {f : Nat → Cursor → Demands α}
    {error : Error} (h : cursor.readLen = .error error) :
    Bounded (announced f cursor) := by
  refine all_bind.mpr ⟨bounded_noteLen, fun read hread => ?_⟩
  rw [result_noteLen, h] at hread
  cases hread

theorem bounded_noteBody {tag : UInt8} (hinside : cursor.Inside)
    (hfuel : cursor.unread.length ≤ fuel)
    (ih : ∀ cursor : Cursor, cursor.Inside → cursor.unread.length < fuel →
      (Bounded (noteValue fuel cursor) ↔ Modest cursor.unread)) :
    Bounded (noteBody (noteValue fuel) tag cursor) ↔
      Modest (tag :: cursor.unread) := by
  by_cases hlist : tag = tagList
  · subst hlist
    have hbody : noteBody (noteValue fuel) tagList cursor =
        announced (fun len cursor =>
          noteValues (noteValue fuel) len cursor >>= fun read =>
            pure (StructuredValue.list read.1, read.2)) cursor := rfl
    rw [hbody]
    rcases readLen_cases hinside with
      ⟨hshort, error, hread⟩ | ⟨len, behind, hlen, hread, hreads⟩
    · exact iff_of_true (bounded_of_readLen_error hread)
        (modest_of_short hshort)
    · have hshorter : behind.unread.length < fuel := by
        have hlength := congrArg List.length hreads.unread
        rw [List.length_append, length_toLeBytes] at hlength
        omega
      have hbehind := hreads.inside hinside
      rw [bounded_announced hread, hreads.unread, modest_list hlen]
      refine and_congr_right fun _ => ?_
      have hloop : Bounded (noteValues (noteValue fuel) len behind >>=
            fun read => pure (StructuredValue.list read.1, read.2)) ↔
          Bounded (noteValues (noteValue fuel) len behind) :=
        all_bind.trans (and_iff_left fun _ _ => all_pure _)
      refine hloop.trans ((bounded_noteValues hbehind hshorter.le).trans ?_)
      have hnext {values : List StructuredValue} {next : Cursor}
          (h : Reads behind (values.flatMap wire) next) :
          Bounded (noteValue fuel next) ↔ Modest next.unread := by
        have hlength := congrArg List.length h.unread
        rw [List.length_append] at hlength
        exact ih next (h.inside hbehind) (by omega)
      constructor
      · intro h values rest hopen hvalid heq
        obtain ⟨next, hreadsValues, rfl⟩ := exists_reads hbehind heq
        exact (hnext hreadsValues).mp (h values next hopen hvalid hreadsValues)
      · intro h values next hopen hvalid hreadsValues
        exact (hnext hreadsValues).mpr
          (h values _ hopen hvalid hreadsValues.unread)
  by_cases hdict : tag = tagDict
  · subst hdict
    have hbody : noteBody (noteValue fuel) tagDict cursor =
        announced (fun len cursor =>
          noteEntries (noteValue fuel) len [] cursor >>= fun read =>
            pure (StructuredValue.dict read.1, read.2)) cursor := rfl
    rw [hbody]
    rcases readLen_cases hinside with
      ⟨hshort, error, hread⟩ | ⟨len, behind, hlen, hread, hreads⟩
    · exact iff_of_true (bounded_of_readLen_error hread)
        (modest_of_short hshort)
    · have hshorter : behind.unread.length < fuel := by
        have hlength := congrArg List.length hreads.unread
        rw [List.length_append, length_toLeBytes] at hlength
        omega
      have hbehind := hreads.inside hinside
      rw [bounded_announced hread, hreads.unread, modest_dict hlen]
      refine and_congr_right fun _ => ?_
      have hloop : Bounded (noteEntries (noteValue fuel) len [] behind >>=
            fun read => pure (StructuredValue.dict read.1, read.2)) ↔
          Bounded (noteEntries (noteValue fuel) len [] behind) :=
        all_bind.trans (and_iff_left fun _ _ => all_pure _)
      refine hloop.trans ((bounded_noteEntries hbehind hshorter.le).trans ?_)
      have hnext {chunk : Bytes} {next : Cursor} (h : Reads behind chunk next) :
          Bounded (noteValue fuel next) ↔ Modest next.unread := by
        have hlength := congrArg List.length h.unread
        rw [List.length_append] at hlength
        exact ih next (h.inside hbehind) (by omega)
      constructor
      · rintro h entries key rest ⟨-, hopen, hnodup, hvalid, hsmall⟩ heq
        obtain ⟨next, hreadsKey, rfl⟩ := exists_reads hbehind heq
        exact (hnext hreadsKey).mp (h entries key next ⟨hopen, hnodup,
          fun _ _ => List.not_mem_nil, List.not_mem_nil, hvalid, hsmall,
          hreadsKey⟩)
      · rintro h entries key next ⟨hopen, hnodup, -, -, hvalid, hsmall,
          hreadsKey⟩
        exact (hnext hreadsKey).mpr (h entries key _ ⟨hlen, hopen, hnodup,
          hvalid, hsmall⟩ hreadsKey.unread)
  · exact iff_of_true (bounded_noteBody_leaf hlist hdict _)
      (modest_of_tag hlist hdict)

theorem bounded_noteValue (hinside : cursor.Inside)
    (hfuel : cursor.unread.length < fuel) :
    Bounded (noteValue fuel cursor) ↔ Modest cursor.unread := by
  induction fuel generalizing cursor with
  | zero => exact absurd hfuel (Nat.not_lt_zero _)
  | succ fuel ih =>
      cases hunread : cursor.unread with
      | nil =>
          refine iff_of_true (all_bind.mpr ⟨bounded_noteU8,
            fun read hread => ?_⟩) modest_nil
          rw [result_noteU8] at hread
          have hreads := (readU8_sound _ _ _ hread).2.unread
          rw [hunread] at hreads
          cases hreads
      | cons tag rest =>
          obtain ⟨next, hreads, rfl⟩ := exists_reads hinside
            (show cursor.unread = [tag] ++ rest from hunread)
          have hread : cursor.noteU8.result = .ok (tag, next) := by
            rw [result_noteU8]
            exact readU8_complete _ _ _ hinside.2 trivial hreads
          have hlength := congrArg List.length hunread
          rw [List.length_cons] at hlength
          rw [← bounded_noteBody (hreads.inside hinside) (by omega)
            fun cursor hinside hfuel => ih hinside hfuel]
          constructor
          · intro h
            exact (all_bind.mp h).2 _ hread
          · intro h
            refine all_bind.mpr ⟨bounded_noteU8, fun read hread' => ?_⟩
            rw [hread] at hread'
            cases hread'
            exact h

section Accepted

variable {noted : Cursor → Demands (StructuredValue × Cursor)}
  (h : ∀ cursor read, (noted cursor).result = .ok read →
    Bounded (noted cursor))
include h

theorem bounded_noteValues_of_ok
    {read : List StructuredValue × Cursor}
    (hread : (noteValues noted len cursor).result = .ok read) :
    Bounded (noteValues noted len cursor) := by
  induction len generalizing cursor read with
  | zero => exact all_pure _
  | succ len ih =>
      rw [noteValues, result_bind] at hread
      obtain ⟨⟨value, middle⟩, hvalue, hread⟩ := bind_eq_ok.mp hread
      rw [result_bind] at hread
      obtain ⟨rest, hrest, -⟩ := bind_eq_ok.mp hread
      refine all_bind.mpr ⟨h _ _ hvalue, fun other hother => ?_⟩
      rw [hvalue] at hother
      cases hother
      exact all_bind.mpr ⟨ih hrest, fun _ _ => all_pure _⟩

theorem bounded_noteEntries_of_ok {keys : List String}
    {read : List (String × StructuredValue) × Cursor}
    (hread : (noteEntries noted len keys cursor).result = .ok read) :
    Bounded (noteEntries noted len keys cursor) := by
  induction len generalizing cursor keys read with
  | zero => exact all_pure _
  | succ len ih =>
      rw [noteEntries, result_bind] at hread
      obtain ⟨⟨keyLen, behindLen⟩, hlen, hread⟩ := bind_eq_ok.mp hread
      rw [result_bind] at hread
      obtain ⟨⟨keyBytes, behindKey⟩, hkey, hread⟩ := bind_eq_ok.mp hread
      refine all_bind.mpr ⟨bounded_noteLen, fun other hother => ?_⟩
      rw [hlen] at hother
      cases hother
      refine all_bind.mpr ⟨bounded_noteBytes, fun other hother => ?_⟩
      rw [hkey] at hother
      cases hother
      dsimp only at hread ⊢
      cases hutf8 : fromUtf8 keyBytes with
      | none => exact all_ofExcept _
      | some key =>
          simp only [hutf8] at hread
          refine all_ite.mpr ⟨fun _ => all_ofExcept _, fun hnew => ?_⟩
          rw [if_neg hnew, result_bind] at hread
          obtain ⟨⟨value, behindValue⟩, hvalue, hread⟩ := bind_eq_ok.mp hread
          rw [result_bind] at hread
          obtain ⟨rest, hrest, -⟩ := bind_eq_ok.mp hread
          refine all_bind.mpr ⟨h _ _ hvalue, fun other hother => ?_⟩
          rw [hvalue] at hother
          cases hother
          exact all_bind.mpr ⟨ih hrest, fun _ _ => all_pure _⟩

end Accepted

theorem length_le_flatMap {α : Type} {code : α → Bytes} {items : List α}
    (h : ∀ item ∈ items, 0 < (code item).length) :
    items.length ≤ (items.flatMap code).length := by
  induction items with
  | nil => exact Nat.zero_le _
  | cons item items ih =>
      have hitem := h item List.mem_cons_self
      have hrest := ih fun other ho => h other (List.mem_cons_of_mem _ ho)
      rw [List.flatMap_cons, List.length_append, List.length_cons]
      omega

theorem announced_eq_ok {α : Type} {f : Nat → Cursor → Demands α} {a : α}
    (h : (announced f cursor).result = .ok a) :
    ∃ len next, cursor.readLen = .ok (len, next) ∧
      (f len next).result = .ok a ∧ next.pos ≤ next.bytes.length := by
  rw [announced, result_bind, result_noteLen] at h
  obtain ⟨⟨len, next⟩, hlen, h⟩ := bind_eq_ok.mp h
  rw [result_bind, result_withCapacity] at h
  have hbound := (readLen_sound _ _ _ hlen).2.bound
  rw [← (readLen_sound _ _ _ hlen).2.bytes] at hbound
  exact ⟨len, next, hlen, h, hbound⟩

theorem wire_length_pos (value : StructuredValue) :
    0 < (wire value).length := by
  rw [wire_eq_cons, List.length_cons]
  exact Nat.succ_pos _

theorem entryWire_length_pos (entry : Entry) :
    0 < (entryWire entry).length := by
  rw [entryWire, List.length_append, List.length_append, length_toLeBytes]
  omega

theorem bounded_of_ok {read : StructuredValue × Cursor}
    (hread : (noteValue fuel cursor).result = .ok read) :
    Bounded (noteValue fuel cursor) := by
  induction fuel generalizing cursor read with
  | zero => exact all_ofExcept _
  | succ fuel ih =>
      rw [noteValue, result_bind] at hread
      obtain ⟨⟨tag, behind⟩, htag, hread⟩ := bind_eq_ok.mp hread
      refine all_bind.mpr ⟨bounded_noteU8, fun other hother => ?_⟩
      rw [htag] at hother
      cases hother
      dsimp only at hread ⊢
      by_cases hlist : tag = tagList
      · subst hlist
        have hbody : noteBody (noteValue fuel) tagList behind =
            announced (fun len cursor =>
              noteValues (noteValue fuel) len cursor >>= fun read =>
                pure (StructuredValue.list read.1, read.2)) behind := rfl
        rw [hbody] at hread ⊢
        obtain ⟨len, next, hlen, hread, hpos⟩ := announced_eq_ok hread
        rw [result_bind] at hread
        obtain ⟨⟨values, last⟩, hvalues, -⟩ := bind_eq_ok.mp hread
        refine (bounded_announced hlen).mpr ⟨?_, all_bind.mpr
          ⟨bounded_noteValues_of_ok (fun _ _ => ih) hvalues,
            fun _ _ => all_pure _⟩⟩
        rw [result_noteValues (result_noteValue fuel)] at hvalues
        obtain ⟨hcount, -, hreads⟩ :=
          decodeValues_sound (decodeValue_sound fuel) hvalues
        have hlength := congrArg List.length (hreads hpos).unread
        have hle := length_le_flatMap fun value (_ : value ∈ values) =>
          wire_length_pos value
        rw [List.length_append] at hlength
        omega
      by_cases hdict : tag = tagDict
      · subst hdict
        have hbody : noteBody (noteValue fuel) tagDict behind =
            announced (fun len cursor =>
              noteEntries (noteValue fuel) len [] cursor >>= fun read =>
                pure (StructuredValue.dict read.1, read.2)) behind := rfl
        rw [hbody] at hread ⊢
        obtain ⟨len, next, hlen, hread, hpos⟩ := announced_eq_ok hread
        rw [result_bind] at hread
        obtain ⟨⟨entries, last⟩, hentries, -⟩ := bind_eq_ok.mp hread
        refine (bounded_announced hlen).mpr ⟨?_, all_bind.mpr
          ⟨bounded_noteEntries_of_ok (fun _ _ => ih) hentries,
            fun _ _ => all_pure _⟩⟩
        rw [result_noteEntries (result_noteValue fuel)] at hentries
        obtain ⟨hcount, -, -, hreads⟩ :=
          decodeEntries_sound (decodeValue_sound fuel) hentries
        have hlength := congrArg List.length (hreads hpos).unread
        have hle := length_le_flatMap fun entry (_ : entry ∈ entries) =>
          entryWire_length_pos entry
        rw [List.length_append] at hlength
        omega
      · exact bounded_noteBody_leaf hlist hdict _

end Bounded

/-- The decoder asks for no more than is unread exactly if no list or
dictionary that it comes to announces more elements than bytes follow; those
of an accepted payload never do. -/
theorem decode_bounded_iff (b : Bytes) (h : b.length < 2 ^ 64) :
    (noteDecode b).result = decode b ∧
      (Bounded (noteDecode b) ↔
        ∀ payload, b = magic ++ payload → Modest payload) ∧
      ((∃ value, decode b = .ok value) → Bounded (noteDecode b)) := by
  refine ⟨result_noteDecode b, ?_⟩
  by_cases hmagic : magic.isPrefixOf b
  · obtain ⟨payload, rfl⟩ := List.isPrefixOf_iff_prefix.mp hmagic
    have hvalue : Bounded (noteDecode (magic ++ payload)) ↔
        Bounded (noteValue (payload.length + 1) (.new payload)) := by
      unfold noteDecode
      rw [if_pos hmagic, List.drop_left]
      exact Noted.all_bind.trans (and_iff_left fun _ _ =>
        Noted.all_ite.mpr ⟨fun _ => Noted.all_ofExcept _,
          fun _ => Noted.all_pure _⟩)
    have hinside : (Cursor.new payload).Inside := by
      rw [List.length_append] at h
      exact ⟨Nat.zero_le _, (by omega : payload.length < 2 ^ 64)⟩
    rw [hvalue]
    constructor
    · rw [bounded_noteValue hinside (Nat.lt_succ_self payload.length)]
      constructor
      · intro hmodest other heq
        rw [← List.append_cancel_left heq]
        exact hmodest
      · exact fun hall => hall payload rfl
    · rintro ⟨value, hdecode⟩
      rw [← result_noteDecode, noteDecode, if_pos hmagic, List.drop_left,
        Noted.result_bind] at hdecode
      obtain ⟨read, hread, -⟩ := bind_eq_ok.mp hdecode
      exact bounded_of_ok hread
  · have hnone : Bounded (noteDecode b) := by
      unfold noteDecode
      rw [if_neg hmagic]
      exact Noted.all_ofExcept _
    refine ⟨iff_of_true hnone fun payload heq => ?_, fun _ => hnone⟩
    rw [heq] at hmagic
    exact absurd (List.isPrefixOf_iff_prefix.mpr (List.prefix_append _ _))
      hmagic

def hugeList : Bytes := magic ++ [tagList, 255, 255, 255, 255]

theorem huge_list_reserved :
    ⟨2 ^ 32 - 1, 0⟩ ∈ (noteDecode hugeList).notes ∧
      ¬ Bounded (noteDecode hugeList) := by
  have hmem : ⟨2 ^ 32 - 1, 0⟩ ∈ (noteDecode hugeList).notes := by
    decide +kernel
  exact ⟨hmem, fun h => absurd (h _ hmem) (by decide)⟩

theorem decode_bounded_iff_empty :
    (noteDecode (magic ++ [tagList, 0, 0, 0, 0])).result =
        decode (magic ++ [tagList, 0, 0, 0, 0]) ∧
      Bounded (noteDecode (magic ++ [tagList, 0, 0, 0, 0])) := by
  obtain ⟨hresult, -, haccepted⟩ :=
    decode_bounded_iff (magic ++ [tagList, 0, 0, 0, 0]) (by decide)
  exact ⟨hresult, haccepted ⟨.list [], rfl⟩⟩

end OpenKeyV.StructuredValue
