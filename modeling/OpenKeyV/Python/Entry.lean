import OpenKeyV.Python.Value

/-!
# Entries at the Rust boundary

`_encode_entry` and `_decode_entry` of `py/entry.rs`, and the round trip of a
Python object through the entry format.
-/

namespace OpenKeyV.Python

open Library

def timestampFromPy (label : String) :
    Option Int64 → Except PyError (Option DateTime)
  | some millis =>
      match DateTime.timestampMillisOpt millis.toInt with
      | some t => .ok (some t)
      | none => .error ⟨.valueError,
          s!"invalid {label} timestamp milliseconds: {millis}"⟩
  | none => .ok none

def timestampToPy (t : Option DateTime) : Option Int64 :=
  t.map fun t => Int64.ofInt t.timestampMillis

def encodeEntry (value : PyValue)
    (createdAtMillis expiresAtMillis : Option Int64) :
    Except PyError Bytes := do
  let createdAt ← timestampFromPy "created_at" createdAtMillis
  let expiresAt ← timestampFromPy "expires_at" expiresAtMillis
  let value ← pyToValue value
  return (ManagedEntry.mk value createdAt expiresAt).encode

def decodeEntry (encoded : Bytes) :
    Except PyError (PyValue × Option Int64 × Option Int64) := do
  let entry ← (ManagedEntry.decode encoded).mapError valueErrorToPy
  let value ← valueToPy entry.value
  return (value, timestampToPy entry.createdAt, timestampToPy entry.expiresAt)

section Values

/-- A value that its kind allows, and the object it is read back as. -/
structure Reads (value : Value) (obj : PyValue) : Prop where
  valid : Value.validatePayload value.kind value.bytes = .ok ()
  back : valueToPy value = .ok obj

theorem reads_integer (i : Int64) :
    Reads (.integer i) (.int i.toInt) := by
  have hlength : (toLeBytes 8 i.toUInt64.toNat).length = 8 :=
    length_toLeBytes ..
  constructor
  · simp [Value.integer, Value.newUnchecked, Value.validatePayload,
      Value.validateFixedWidth, hlength]
  · simp only [valueToPy, Value.integer, Value.newUnchecked, fixedBytes,
      hlength, if_true, bind, Except.bind, pure, Except.pure,
      StructuredValue.ofNat_fromLeBytes, Int64.toInt64_toUInt64]

theorem reads_unsignedInteger (u : UInt64) :
    Reads (.unsignedInteger u) (.int u.toNat) := by
  have hlength : (toLeBytes 8 u.toNat).length = 8 := length_toLeBytes ..
  constructor
  · simp [Value.unsignedInteger, Value.newUnchecked, Value.validatePayload,
      Value.validateFixedWidth, hlength]
  · simp only [valueToPy, Value.unsignedInteger, Value.newUnchecked,
      fixedBytes, hlength, if_true, bind, Except.bind, pure, Except.pure,
      StructuredValue.ofNat_fromLeBytes]

theorem reads_float (bits : UInt64) : Reads (.float bits) (.float bits) := by
  have hlength : (toLeBytes 8 bits.toNat).length = 8 := length_toLeBytes ..
  constructor
  · simp [Value.float, Value.newUnchecked, Value.validatePayload,
      Value.validateFixedWidth, hlength]
  · simp only [valueToPy, Value.float, Value.newUnchecked, fixedBytes,
      hlength, if_true, bind, Except.bind, pure, Except.pure,
      StructuredValue.ofNat_fromLeBytes]

theorem reads_utf8 (text : String) : Reads (.utf8 text) (.str text) := by
  have hback : fromUtf8 (utf8 text) = some text := ofUtf8_utf8 text
  constructor
  · simp [Value.utf8, Value.newUnchecked, Value.validatePayload, hback]
  · simp [valueToPy, Value.utf8, Value.newUnchecked, hback]

theorem reads_bool (b : Bool) : Reads (.bool b) (.bool b) := by
  cases b with
  | false => exact ⟨rfl, rfl⟩
  | true => exact ⟨rfl, rfl⟩

theorem reads_structured {obj : PyValue} (h : Converts obj) :
    ∃ value, (do
        let structured ← structuredFromPy obj
        (Value.fromStructured structured).mapError valueErrorToPy) =
          .ok value ∧
      (value.bytes.length < 2 ^ 64 →
        ∃ obj', Reads value obj' ∧ obj.UpToOrder obj') := by
  obtain ⟨structured, hfrom, hvalid, hback⟩ := h
  let bytes := StructuredValue.magic ++ structured.canonical.wire
  have hencode : structured.encode = .ok bytes :=
    StructuredValue.encode_eq_ok.mpr ⟨hvalid, rfl⟩
  refine ⟨⟨.structured, bytes⟩, ?_, fun hmemory => ?_⟩
  · simp only [hfrom, Value.fromStructured, hencode, bind, Except.bind, pure,
      Except.pure]
    rfl
  · have hcanonical := (StructuredValue.valid_canonical structured).mpr hvalid
    have hdecode : StructuredValue.decode bytes = .ok structured.canonical :=
      StructuredValue.decode_complete hcanonical hmemory
    refine ⟨structuredToPy structured.canonical, ⟨?_, ?_⟩, ?_⟩
    · simp only [Value.validatePayload, hdecode]
    · simp only [valueToPy, Value.decodeStructured, hdecode]
      rfl
    · rw [← hback]
      exact upToOrder_toPy ((StructuredValue.upToOrder_iff hvalid).mpr
        (StructuredValue.canonical_canonical hvalid).symm) hvalid hcanonical

def FitsMemory (obj : PyValue) : Prop :=
  ∀ value, pyToValue obj = .ok value → value.bytes.length + 31 < 2 ^ 64

theorem validatePayload_structured {structured : StructuredValue}
    {value : Value} (hmemory : value.bytes.length < 2 ^ 64)
    (h : (Value.fromStructured structured).mapError valueErrorToPy =
      .ok value) :
    Value.validatePayload value.kind value.bytes = .ok () := by
  cases hencode : structured.encode with
  | error error =>
      simp only [Value.fromStructured, hencode, bind, Except.bind,
        Except.mapError] at h
      cases h
  | ok bytes =>
      simp only [Value.fromStructured, hencode, bind, Except.bind, pure,
        Except.pure, Except.mapError, Except.ok.injEq] at h
      subst h
      obtain ⟨hvalid, rfl⟩ := StructuredValue.encode_eq_ok.mp hencode
      have hdecode := StructuredValue.decode_complete
        ((StructuredValue.valid_canonical structured).mpr hvalid) hmemory
      simp only [Value.newUnchecked, Value.validatePayload, hdecode]

theorem storable_of_pyToValue {obj : PyValue} {value : Value}
    (h : pyToValue obj = .ok value) (hmemory : FitsMemory obj) :
    value.Storable := by
  have hsize := hmemory value h
  refine ⟨?_, hsize⟩
  cases obj with
  | none | bytes =>
      cases h
      rfl
  | bool b =>
      cases h
      exact (reads_bool b).valid
  | float bits =>
      cases h
      exact (reads_float bits).valid
  | str text =>
      cases h
      exact (reads_utf8 text).valid
  | int n =>
      rw [pyToValue] at h
      split at h
      · rename_i i hi
        cases h
        exact (reads_integer i).valid
      · split at h
        · rename_i u hu
          cases h
          exact (reads_unsignedInteger u).valid
        · cases h
  | list values | dict entries =>
      obtain ⟨structured, -, hstructured⟩ := bind_eq_ok.mp h
      exact validatePayload_structured (by omega) hstructured
  | other => cases h

theorem pyToValue_of_fits {obj : PyValue} (hplain : obj.Plain)
    (hfits : obj.IntsFit) :
    ∃ value, pyToValue obj = .ok value ∧
      (value.bytes.length < 2 ^ 64 →
        ∃ obj', Reads value obj' ∧ obj.UpToOrder obj') := by
  have hconverts := converts_of_fits obj hplain hfits
  cases obj with
  | none => exact ⟨_, rfl, fun _ => ⟨_, ⟨rfl, rfl⟩, .refl _⟩⟩
  | bytes b => exact ⟨_, rfl, fun _ => ⟨_, ⟨rfl, rfl⟩, .refl _⟩⟩
  | bool b => exact ⟨_, rfl, fun _ => ⟨_, reads_bool b, .refl _⟩⟩
  | float bits => exact ⟨_, rfl, fun _ => ⟨_, reads_float bits, .refl _⟩⟩
  | str text => exact ⟨_, rfl, fun _ => ⟨_, reads_utf8 text, .refl _⟩⟩
  | int n =>
      rcases extract_cases n with ⟨i, hi, hback⟩ | ⟨hi, u, hu, hback⟩ |
        ⟨-, -, hout⟩
      · refine ⟨.integer i, by rw [pyToValue, hi], fun _ =>
          ⟨_, reads_integer i, ?_⟩⟩
        rw [hback]
        exact .refl _
      · refine ⟨.unsignedInteger u, by rw [pyToValue, hi, hu], fun _ =>
          ⟨_, reads_unsignedInteger u, ?_⟩⟩
        rw [hback]
        exact .refl _
      · exact absurd (everywhere_py_iff.mp hfits).1 hout
  | list values => exact reads_structured hconverts
  | dict entries => exact reads_structured hconverts
  | other => cases (everywhere_py_iff.mp hplain).1

theorem pyToValue_overflow {obj : PyValue} (hplain : obj.Plain)
    (hbad : ¬ obj.IntsFit) : pyToValue obj = .error overflow := by
  have hfrom := overflow_of_not_fits obj hplain hbad
  cases obj with
  | int n =>
      rw [pyToValue]
      rw [structuredFromPy] at hfrom
      rcases extract_cases n with ⟨i, hi, -⟩ | ⟨hi, u, hu, -⟩ | ⟨hi, hu, -⟩
      · rw [hi] at hfrom
        cases hfrom
      · rw [hi, hu] at hfrom
        cases hfrom
      · rw [hi, hu]
  | list values =>
      simp only [pyToValue, hfrom, bind, Except.bind]
  | dict entries =>
      simp only [pyToValue, hfrom, bind, Except.bind]
  | none | bool | float | str | bytes => cases hfrom
  | other => cases (everywhere_py_iff.mp hplain).1

end Values

def Representable (timestamp : Option Int64) : Prop :=
  ∀ millis, timestamp = some millis →
    minMillis ≤ millis.toInt ∧ millis.toInt ≤ maxMillis

section Entries

variable {label : String} {timestamp : Option Int64} {t : Option DateTime}

theorem nanos_millis (n : Int) : n * nanosPerMilli / nanosPerMilli = n :=
  Int.mul_ediv_cancel n (by decide)

theorem timestampMillisOpt_some {n : Int} {t : DateTime}
    (h : DateTime.timestampMillisOpt n = some t) : t.timestampMillis = n := by
  rw [DateTime.timestampMillis, DateTime.ofNanos_eq_some.mp h, nanos_millis]

theorem timestampMillisOpt_ok {n : Int} :
    (∃ t, DateTime.timestampMillisOpt n = some t) ↔
      minMillis ≤ n ∧ n ≤ maxMillis := by
  constructor
  · rintro ⟨t, ht⟩
    rw [← timestampMillisOpt_some ht]
    exact ⟨t.lower, t.upper⟩
  · intro h
    rw [← nanos_millis n] at h
    exact ⟨_, dif_pos h⟩

theorem timestampFromPy_ok :
    (∃ t, timestampFromPy label timestamp = .ok t) ↔
      Representable timestamp := by
  cases timestamp with
  | none => exact iff_of_true ⟨none, rfl⟩ fun _ h => by cases h
  | some millis =>
      rw [timestampFromPy]
      constructor
      · rintro ⟨t, ht⟩ _ ⟨⟩
        split at ht
        · rename_i t' heq
          exact timestampMillisOpt_ok.mp ⟨t', heq⟩
        · cases ht
      · intro h
        obtain ⟨t, ht⟩ := timestampMillisOpt_ok.mpr (h millis rfl)
        exact ⟨some t, by rw [ht]⟩

theorem timestampToPy_fromPy (h : timestampFromPy label timestamp = .ok t) :
    timestampToPy (t.map DateTime.truncMillis) = timestamp := by
  cases timestamp with
  | none =>
      cases h
      rfl
  | some millis =>
      rw [timestampFromPy] at h
      split at h
      · rename_i t' heq
        cases h
        simp only [timestampToPy, Option.map_some,
          DateTime.timestampMillis_truncMillis, timestampMillisOpt_some heq,
          Int64.ofInt_toInt]
      · cases h

theorem decodeEntry_encodeEntry {obj obj' : PyValue} {value : Value}
    {createdAt expiresAt : Option Int64} {bytes : Bytes}
    (hvalue : pyToValue obj = .ok value) (hreads : Reads value obj')
    (hmemory : value.bytes.length + 31 < 2 ^ 64)
    (h : encodeEntry obj createdAt expiresAt = .ok bytes) :
    decodeEntry bytes = .ok (obj', createdAt, expiresAt) := by
  simp only [encodeEntry, bind_eq_ok, hvalue] at h
  obtain ⟨created, hcreated, expires, hexpires, _, hsame, hbytes⟩ := h
  cases hsame
  cases hbytes
  have hdecode := ManagedEntry.decode_encode ⟨value, created, expires⟩
    hreads.valid hmemory
  simp only [decodeEntry, hdecode, Except.mapError, bind, Except.bind,
    ManagedEntry.truncMillis, hreads.back, pure, Except.pure,
    timestampToPy_fromPy hcreated, timestampToPy_fromPy hexpires]

theorem encodeEntry_ok {obj : PyValue} {value : Value}
    (hvalue : pyToValue obj = .ok value)
    (createdAt expiresAt : Option Int64) :
    (∃ bytes, encodeEntry obj createdAt expiresAt = .ok bytes) ↔
      Representable createdAt ∧ Representable expiresAt := by
  rw [← @timestampFromPy_ok "created_at", ← @timestampFromPy_ok "expires_at"]
  simp only [encodeEntry, bind_eq_ok, hvalue]
  constructor
  · rintro ⟨_, created, hcreated, expires, hexpires, -⟩
    exact ⟨⟨created, hcreated⟩, expires, hexpires⟩
  · rintro ⟨⟨created, hcreated⟩, expires, hexpires⟩
    exact ⟨_, created, hcreated, expires, hexpires, value, rfl, rfl⟩

end Entries

/-- An object of the built-in types crosses the boundary and comes back, alone
and in an entry, exactly if its integers are in range.  The payload fits in
memory together with the header of an entry. -/
theorem python_round_trip (obj : PyValue) (hplain : obj.Plain)
    (hmemory : ∀ value, pyToValue obj = .ok value →
      value.bytes.length + 31 < 2 ^ 64) :
    (obj.IntsFit → ∃ value obj', pyToValue obj = .ok value ∧
      valueToPy value = .ok obj' ∧ obj.UpToOrder obj' ∧
      ∀ createdAt expiresAt,
        ((∃ bytes, encodeEntry obj createdAt expiresAt = .ok bytes) ↔
          Representable createdAt ∧ Representable expiresAt) ∧
        ∀ bytes, encodeEntry obj createdAt expiresAt = .ok bytes →
          decodeEntry bytes = .ok (obj', createdAt, expiresAt)) ∧
      (¬ obj.IntsFit → pyToValue obj = .error overflow) := by
  refine ⟨fun hfits => ?_, pyToValue_overflow hplain⟩
  obtain ⟨value, hvalue, hback⟩ := pyToValue_of_fits hplain hfits
  have hsize := hmemory value hvalue
  obtain ⟨obj', hreads, hsame⟩ := hback (by omega)
  exact ⟨value, obj', hvalue, hreads.back, hsame, fun createdAt expiresAt =>
    ⟨encodeEntry_ok hvalue createdAt expiresAt, fun bytes hbytes =>
      decodeEntry_encodeEntry hvalue hreads hsize hbytes⟩⟩

def sample : PyValue :=
  .dict [(.str "b", .list [.int (2 ^ 63), .float 1]), (.str "a", .int (-1))]

theorem everywhere_leaf {prop : PyValue → Prop} {obj : PyValue}
    (hnone : obj.children = []) (h : prop obj) : obj.Everywhere prop :=
  .intro obj h (by simp [hnone])

theorem plain_sample : sample.Plain := by
  refine .intro _ ⟨by decide, by decide, ?_⟩ ?_
  · simp only [List.forall_mem_cons]
    exact ⟨⟨"b", rfl, by decide +kernel⟩, ⟨"a", rfl, by decide +kernel⟩,
      by simp⟩
  · simp only [sample, PyValue.children, List.map_cons, List.map_nil,
      List.forall_mem_cons]
    refine ⟨.intro _ (by simp [PyValue.BuiltIn]) ?_,
      everywhere_leaf rfl trivial, by simp⟩
    simp only [PyValue.children, List.forall_mem_cons]
    exact ⟨everywhere_leaf rfl trivial, everywhere_leaf rfl trivial, by simp⟩

theorem intsFit_sample : sample.IntsFit := by
  refine .intro _ trivial ?_
  simp only [sample, PyValue.children, List.map_cons, List.map_nil,
    List.forall_mem_cons]
  refine ⟨.intro _ trivial ?_, everywhere_leaf rfl ⟨by decide, by decide⟩,
    by simp⟩
  simp only [PyValue.children, List.forall_mem_cons]
  exact ⟨everywhere_leaf rfl ⟨by decide, by decide⟩,
    everywhere_leaf rfl trivial, by simp⟩

theorem python_round_trip_sample :
    ∃ value obj', pyToValue sample = .ok value ∧ valueToPy value = .ok obj' ∧
      sample.UpToOrder obj' := by
  have hmemory : ∀ value, pyToValue sample = .ok value →
      value.bytes.length + 31 < 2 ^ 64 := by
    intro value h
    have hsize : (pyToValue sample).toOption.all
        (fun value => decide (value.bytes.length + 31 < 2 ^ 64)) = true := by
      decide +kernel
    rw [h] at hsize
    exact of_decide_eq_true hsize
  obtain ⟨value, obj', hvalue, hback, hsame, -⟩ :=
    (python_round_trip sample plain_sample hmemory).1 intsFit_sample
  exact ⟨value, obj', hvalue, hback, hsame⟩

end OpenKeyV.Python
