import OpenKeyV.Entry.Exact
import OpenKeyV.Python.Entry
import OpenKeyV.Python.TimeToLive
import OpenKeyV.Python.Transforming
import OpenKeyV.Library.Base64Standard

/-!
# Documents of Elasticsearch, and the years of a `datetime`

`ElasticsearchDocumentCodec.load_dict` reads an entry out of a document.  The
core knows more instants than a `datetime`: where one of them becomes a
`datetime`, an error of another class can be raised.
-/

namespace OpenKeyV.Python

open Library

structure Base64 where
  decode : String → Except PyError Bytes
  canonical : ∀ bytes, decode (Base64Standard.encode bytes) = .ok bytes
  raises : ∀ text error, decode text = .error error →
    error.kind = .valueError

structure PyManagedEntry where
  value : PyValue
  createdAt : Option PyDatetime
  expiresAt : Option PyDatetime

def isEntryError (kind : PyErrorKind) : Bool :=
  kind = .valueError || kind = .typeError

def loadDict (base64 : Base64) (outOfRange : OutOfRange)
    (data : List (PyKey × PyValue)) : Except PyError PyManagedEntry :=
  match getItem "entry" data with
  | some (.str encoded) => do
      let (value, createdAtMillis, expiresAtMillis) ←
        except isEntryError (fun error => ⟨.deserializationError,
          s!"Invalid Elasticsearch entry: {error.message}"⟩) do
            let raw ← base64.decode encoded
            decodeEntry raw
      let createdAt ← fromTimestamp? outOfRange
        (createdAtMillis.map Int64.toInt)
      let expiresAt ← fromTimestamp? outOfRange
        (expiresAtMillis.map Int64.toInt)
      return ⟨value, createdAt, expiresAt⟩
  | _ => .error ⟨.deserializationError,
      "Elasticsearch document entry must be a base64 string"⟩

def InYears (t : Option DateTime) : Prop :=
  ∀ instant, t = some instant →
    minDatetimeMillis ≤ instant.timestampMillis ∧
      instant.timestampMillis ≤ maxDatetimeMillis

section Instants

variable {outOfRange : OutOfRange} {t : Option DateTime}

def Converted {α : Type} (years : Prop) (result : Except PyError α) : Prop :=
  (years ∧ ∃ a, result = .ok a) ∨
    ¬ years ∧ ∃ error, result = .error error ∧
      (error.kind = .valueError ∨ error.kind = .overflowError)

theorem converted_fromTimestamp (outOfRange : OutOfRange) (t : DateTime) :
    Converted (InYears (some t))
      (fromTimestamp outOfRange t.timestampMillis) := by
  have hyears : InYears (some t) ↔ minDatetimeMillis ≤ t.timestampMillis ∧
      t.timestampMillis ≤ maxDatetimeMillis := by
    simp only [InYears, Option.some.injEq, forall_eq']
  simp only [Converted, hyears, fromTimestamp]
  split
  · rename_i h
    exact .inl ⟨h, _, rfl⟩
  · rename_i h
    exact .inr ⟨h, _, rfl, outOfRange.raises _⟩

theorem converted_fromTimestamp? (outOfRange : OutOfRange)
    (t : Option DateTime) :
    Converted (InYears t)
      (fromTimestamp? outOfRange (t.map (·.timestampMillis))) := by
  cases t with
  | none => exact .inl ⟨(fun _ h => by cases h), none, rfl⟩
  | some t =>
      rw [Option.map_some, fromTimestamp?]
      rcases converted_fromTimestamp outOfRange t with
        ⟨hyears, datetime, h⟩ | ⟨hyears, error, h, hkind⟩
      · exact .inl ⟨hyears, some datetime, by rw [h]; rfl⟩
      · exact .inr ⟨hyears, error, by rw [h]; rfl, hkind⟩

theorem Converted.both {α β γ : Type} {first second : Prop}
    {x : Except PyError α} {y : Except PyError β} (hx : Converted first x)
    (hy : Converted second y) (f : α → β → γ) :
    Converted (first ∧ second) (do
      let a ← x
      let b ← y
      return f a b) := by
  rcases hx with ⟨hfirst, a, rfl⟩ | ⟨hfirst, error, rfl, hkind⟩
  · rcases hy with ⟨hsecond, b, rfl⟩ | ⟨hsecond, error, rfl, hkind⟩
    · exact .inl ⟨⟨hfirst, hsecond⟩, f a b, rfl⟩
    · exact .inr ⟨fun h => hsecond h.2, error, rfl, hkind⟩
  · exact .inr ⟨fun h => hfirst h.1, error, rfl, hkind⟩

end Instants

section Prepare

variable {outOfRange : OutOfRange} {now : DateTime}
  {ttl : Option SupportsFloat}

def Denotes (ttl : Option SupportsFloat) (seconds : Option F64) : Prop :=
  (ttl = none ∧ seconds = none) ∨
    ∃ t n, ttl = some t ∧ t.isBool = false ∧ t.float = .ok n ∧
      seconds = some n

def Creates (now : DateTime) (ttl : Option SupportsFloat)
    (entry : ManagedEntry) : Prop :=
  ∃ seconds, Denotes ttl seconds ∧
    ManagedEntry.ofTtl now .null seconds = .ok entry

theorem createdAt_of_ofTtl {seconds : Option F64} {entry : ManagedEntry}
    (h : ManagedEntry.ofTtl now .null seconds = .ok entry) :
    entry.createdAt = some now := by
  cases seconds with
  | none =>
      cases h
      rfl
  | some n =>
      obtain ⟨_, -, hentry⟩ := bind_eq_ok.mp h
      cases hentry
      rfl

theorem prepareEntryTimestamps_cases (outOfRange : OutOfRange)
    (now : DateTime) (ttl : Option SupportsFloat) :
    (∃ seconds entry, Denotes ttl seconds ∧
      ManagedEntry.ofTtl now .null seconds = .ok entry ∧
      prepareTtl now ttl = .ok seconds ∧
      prepareEntryTimestamps outOfRange now ttl = do
        let createdAt ← fromTimestamp outOfRange now.timestampMillis
        let expiresAt ← fromTimestamp? outOfRange
          (entry.expiresAt.map (·.timestampMillis))
        return (createdAt, seconds, expiresAt)) ∨
    (∀ entry, ¬ Creates now ttl entry) ∧
      prepareTtl now ttl = .error (invalidTtlError ttl) ∧
      prepareEntryTimestamps outOfRange now ttl =
        .error (invalidTtlError ttl) := by
  cases ttl with
  | none => exact .inl ⟨none, .new now .null, .inl ⟨rfl, rfl⟩, rfl, rfl, rfl⟩
  | some t =>
      rcases prepareTtl_cases now t with
        ⟨hbool, n, hfloat, ⟨expires, hexpires⟩, hprepare⟩ |
          ⟨hinvalid, hprepare⟩
      · refine .inl ⟨some n, ⟨.null, some now, some expires⟩,
          .inr ⟨t, n, rfl, hbool, hfloat, rfl⟩, ?_, hprepare, ?_⟩
        · simp only [ManagedEntry.ofTtl, ManagedEntry.withTtl, hexpires, bind,
            Except.bind, pure, Except.pure]
        · simp only [prepareEntryTimestamps, Option.any_some, hbool,
            Bool.false_eq_true, if_false, hfloat, corePrepare_ok hexpires,
            Except.map, except, bind, Except.bind, pure, Except.pure,
            Option.map_some]
      · refine .inr ⟨?_, hprepare, ?_⟩
        · rintro entry ⟨seconds, hdenotes, hentry⟩
          rcases hdenotes with ⟨hnone, -⟩ | ⟨t', n, ht, hbool, hfloat, rfl⟩
          · cases hnone
          · cases ht
            obtain ⟨expires, hexpires, -⟩ := bind_eq_ok.mp hentry
            exact hinvalid n hbool hfloat ⟨expires, hexpires⟩
        · rw [prepareEntryTimestamps, Option.any_some]
          cases hbool : t.isBool with
          | true => rfl
          | false =>
              cases hfloat : t.float with
              | error error =>
                  simp only [Bool.false_eq_true, if_false, hfloat, Except.map,
                    bind, Except.bind, except, t.raises error hfloat, if_true]
              | ok n =>
                  obtain ⟨message, hmessage⟩ :=
                    corePrepare_invalid (hinvalid n hbool hfloat)
                  simp only [Bool.false_eq_true, if_false, hfloat, Except.map,
                    hmessage, bind, Except.bind, except, isFloatError]
                  rfl

/-- The two functions return together and raise `InvalidTTLError` only. -/
def ClosedFor (outOfRange : OutOfRange) (now : DateTime)
    (ttl : Option SupportsFloat) : Prop :=
  ((∃ seconds, prepareTtl now ttl = .ok seconds) ↔
    ∃ timestamps, prepareEntryTimestamps outOfRange now ttl =
      .ok timestamps) ∧
  (∀ error, prepareTtl now ttl = .error error →
    error.kind = .invalidTtlError) ∧
  ∀ error, prepareEntryTimestamps outOfRange now ttl = .error error →
    error.kind = .invalidTtlError

theorem closedFor_iff (outOfRange : OutOfRange) (now : DateTime)
    (ttl : Option SupportsFloat) :
    ClosedFor outOfRange now ttl ↔ ∀ entry, Creates now ttl entry →
      InYears entry.createdAt ∧ InYears entry.expiresAt := by
  rcases prepareEntryTimestamps_cases outOfRange now ttl with
    ⟨seconds, entry, hdenotes, hentry, hprepare, htimestamps⟩ |
      ⟨hcreates, hprepare, htimestamps⟩
  · have honly : ∀ entry', Creates now ttl entry' → entry' = entry := by
      rintro entry' ⟨seconds', hdenotes', hentry'⟩
      have hsame : seconds' = seconds := by
        rcases hdenotes with ⟨rfl, rfl⟩ | ⟨t, n, rfl, -, hfloat, rfl⟩
        · rcases hdenotes' with ⟨-, rfl⟩ | ⟨_, _, ht, -⟩
          · rfl
          · cases ht
        · rcases hdenotes' with ⟨ht, -⟩ | ⟨t', n', ht, -, hfloat', rfl⟩
          · cases ht
          · cases ht
            rw [Except.ok.inj (hfloat'.symm.trans hfloat)]
      rw [hsame, hentry] at hentry'
      exact (Except.ok.inj hentry').symm
    have hcreated := createdAt_of_ofTtl hentry
    have hcondition : (∀ entry, Creates now ttl entry →
        InYears entry.createdAt ∧ InYears entry.expiresAt) ↔
          InYears (some now) ∧ InYears entry.expiresAt := by
      rw [← hcreated]
      constructor
      · exact fun h => h entry ⟨seconds, hdenotes, hentry⟩
      · intro h entry' hcreates
        rw [honly entry' hcreates]
        exact h
    rw [hcondition]
    rcases (converted_fromTimestamp outOfRange now).both
        (converted_fromTimestamp? outOfRange entry.expiresAt)
        (fun createdAt expiresAt => (createdAt, seconds, expiresAt)) with
      ⟨hyears, timestamps, hok⟩ | ⟨hyears, error, herror, hkind⟩
    · refine iff_of_true ⟨iff_of_true ⟨seconds, hprepare⟩
        ⟨timestamps, htimestamps.trans hok⟩, ?_, ?_⟩ hyears
      · intro error h
        rw [hprepare] at h
        cases h
      · intro error h
        rw [htimestamps, hok] at h
        cases h
    · refine iff_of_false (fun h => ?_) hyears
      have hinvalid := h.2.2 error (htimestamps.trans herror)
      rcases hkind with hkind | hkind <;> rw [hkind] at hinvalid <;>
        cases hinvalid
  · refine iff_of_true ⟨iff_of_false ?_ ?_, ?_, ?_⟩
      fun entry h => absurd h (hcreates entry)
    · rintro ⟨_, h⟩
      rw [hprepare] at h
      cases h
    · rintro ⟨_, h⟩
      rw [htimestamps] at h
      cases h
    · intro error h
      rw [hprepare] at h
      cases h
      rfl
    · intro error h
      rw [htimestamps] at h
      cases h
      rfl

end Prepare

section Documents

variable {base64 : Base64} {outOfRange : OutOfRange}
  {data : List (PyKey × PyValue)} {raw : Bytes} {entry : ManagedEntry}

theorem valueToPy_of_payload {value : OpenKeyV.Value}
    (h : Value.validatePayload value.kind value.bytes = .ok ()) :
    ∃ obj, valueToPy value = .ok obj := by
  obtain ⟨kind, bytes⟩ := value
  have hfixed : ∀ label, Value.validateFixedWidth bytes 8 label = .ok () →
      bytes.length = 8 := by
    intro label hwidth
    unfold Value.validateFixedWidth at hwidth
    split at hwidth
    · assumption
    · cases hwidth
  cases kind with
  | binary => exact ⟨_, rfl⟩
  | utf8 =>
      simp only [Value.validatePayload] at h
      simp only [valueToPy]
      cases hutf : fromUtf8 bytes with
      | none => simp [hutf] at h
      | some text => exact ⟨.str text, rfl⟩
  | integer | unsignedInteger | float =>
      simp only [valueToPy, fixedBytes, hfixed _ h, if_true, bind,
        Except.bind, pure, Except.pure]
      exact ⟨_, rfl⟩
  | bool =>
      simp only [Value.validatePayload] at h
      split at h
      · rename_i hbytes
        rcases hbytes with rfl | rfl
        · exact ⟨.bool false, rfl⟩
        · exact ⟨.bool true, rfl⟩
      · cases h
  | null =>
      simp only [Value.validatePayload] at h
      split at h
      · rename_i hempty
        exact ⟨.none, by rw [valueToPy, if_pos hempty]⟩
      · cases h
  | structured =>
      simp only [Value.validatePayload] at h
      split at h
      · rename_i structured heq
        exact ⟨structuredToPy structured, by
          simp only [valueToPy, Value.decodeStructured, heq, ne_eq,
            not_true, if_false, Except.mapError, Except.map]⟩
      · cases h

theorem millis_of_timestampToPy (t : Option DateTime) :
    (timestampToPy t).map Int64.toInt = t.map (·.timestampMillis) := by
  cases t with
  | none => rfl
  | some t =>
      have hlower := t.lower
      have hupper := t.upper
      simp only [minMillis, maxMillis] at hlower hupper
      simp only [timestampToPy, Option.map_some, Option.some.injEq]
      have hrange : -2 ^ 63 ≤ t.timestampMillis ∧
          t.timestampMillis < 2 ^ 63 := by
        simp only [DateTime.timestampMillis]
        omega
      exact Int64.toInt_ofInt_of_le hrange.1 hrange.2

def Holds (base64 : Base64) (data : List (PyKey × PyValue))
    (entry : ManagedEntry) : Prop :=
  ∃ encoded raw, getItem "entry" data = some (.str encoded) ∧
    base64.decode encoded = .ok raw ∧ ManagedEntry.decode raw = .ok entry

theorem loadDict_cases (base64 : Base64) (outOfRange : OutOfRange)
    (data : List (PyKey × PyValue)) :
    (∃ entry, Holds base64 data entry ∧
      (∀ entry', Holds base64 data entry' → entry' = entry) ∧
      Converted (InYears entry.createdAt ∧ InYears entry.expiresAt)
        (loadDict base64 outOfRange data)) ∨
    (∀ entry, ¬ Holds base64 data entry) ∧
      ∃ error, loadDict base64 outOfRange data = .error error ∧
        error.kind = .deserializationError := by
  have hother : (∀ encoded, getItem "entry" data ≠ some (.str encoded)) →
      ∃ error, loadDict base64 outOfRange data = .error error ∧
        error.kind = .deserializationError := by
    intro h
    unfold loadDict
    split
    · rename_i encoded hentry
      exact absurd hentry (h encoded)
    · exact ⟨_, rfl, rfl⟩
  by_cases htext : ∃ encoded, getItem "entry" data = some (.str encoded)
  · obtain ⟨encoded, hencoded⟩ := htext
    have hsame : ∀ {text}, getItem "entry" data = some (.str text) →
        text = encoded := by
      intro text h
      rw [hencoded] at h
      cases h
      rfl
    unfold loadDict
    rw [hencoded]
    cases hraw : base64.decode encoded with
    | error error =>
        refine .inr ⟨?_, _, by
          simp only [hraw, bind, Except.bind, except, isEntryError,
            base64.raises _ _ hraw, decide_true, Bool.true_or, if_true]; rfl,
          rfl⟩
        rintro entry ⟨text, raw, hdata, hdecode, -⟩
        rw [hsame hdata, hraw] at hdecode
        cases hdecode
    | ok raw =>
        cases hentry : ManagedEntry.decode raw with
        | error error =>
            refine .inr ⟨?_, _, by
              simp only [hraw, decodeEntry, hentry, Except.mapError,
                valueErrorToPy, bind, Except.bind, except, isEntryError,
                decide_true, Bool.true_or, if_true]; rfl, rfl⟩
            rintro entry ⟨text, raw', hdata, hdecode, hmanaged⟩
            rw [hsame hdata, hraw] at hdecode
            cases hdecode
            rw [hentry] at hmanaged
            cases hmanaged
        | ok entry =>
            obtain ⟨value, hvalue⟩ :=
              valueToPy_of_payload (ManagedEntry.encode_of_decode hentry).2.1
            refine .inl ⟨entry, ⟨encoded, raw, hencoded, hraw, hentry⟩, ?_, ?_⟩
            · rintro entry' ⟨text, raw', hdata, hdecode, hmanaged⟩
              rw [hsame hdata, hraw] at hdecode
              cases hdecode
              rw [hentry] at hmanaged
              cases hmanaged
              rfl
            · have hconverted := (converted_fromTimestamp? outOfRange
                entry.createdAt).both
                (converted_fromTimestamp? outOfRange entry.expiresAt)
                (PyManagedEntry.mk value)
              rw [← millis_of_timestampToPy, ← millis_of_timestampToPy]
                at hconverted
              simp only [hraw, decodeEntry, hentry, hvalue, Except.mapError,
                bind, Except.bind, except, pure, Except.pure] at hconverted ⊢
              exact hconverted
  · rw [not_exists] at htext
    refine .inr ⟨?_, hother htext⟩
    rintro entry ⟨text, -, hdata, -⟩
    exact htext text hdata

/-- `load_dict` returns an entry or raises `DeserializationError`, and
returns where the document holds one in canonical Base64. -/
def ClosedOn (base64 : Base64) (outOfRange : OutOfRange)
    (data : List (PyKey × PyValue)) : Prop :=
  (∀ error, loadDict base64 outOfRange data = .error error →
    error.kind = .deserializationError) ∧
  ∀ raw entry,
    getItem "entry" data = some (.str (Base64Standard.encode raw)) →
    ManagedEntry.decode raw = .ok entry →
      ∃ loaded, loadDict base64 outOfRange data = .ok loaded

theorem closedOn_iff (base64 : Base64) (outOfRange : OutOfRange)
    (data : List (PyKey × PyValue)) :
    ClosedOn base64 outOfRange data ↔ ∀ entry, Holds base64 data entry →
      InYears entry.createdAt ∧ InYears entry.expiresAt := by
  rcases loadDict_cases base64 outOfRange data with
    ⟨entry, hholds, honly, hconverted⟩ | ⟨hnone, error, herror, hkind⟩
  · have hcondition : (∀ entry, Holds base64 data entry →
        InYears entry.createdAt ∧ InYears entry.expiresAt) ↔
          InYears entry.createdAt ∧ InYears entry.expiresAt := by
      constructor
      · exact fun h => h entry hholds
      · intro h entry' hentry'
        rw [honly entry' hentry']
        exact h
    rw [hcondition]
    rcases hconverted with ⟨hyears, loaded, hok⟩ |
      ⟨hyears, error, herror, hkind⟩
    · refine iff_of_true ⟨?_, fun _ _ _ _ => ⟨loaded, hok⟩⟩ hyears
      intro error h
      rw [hok] at h
      cases h
    · refine iff_of_false (fun h => ?_) hyears
      have hother := h.1 error herror
      rcases hkind with hkind | hkind <;> rw [hkind] at hother <;> cases hother
  · refine iff_of_true ⟨?_, ?_⟩ fun entry h => absurd h (hnone entry)
    · intro error' h
      rw [herror] at h
      cases h
      exact hkind
    · intro raw entry hdata hdecode
      exact absurd ⟨_, raw, hdata, base64.canonical raw, hdecode⟩ (hnone entry)

end Documents

/-- The timestamp boundary is closed exactly for instants in the years of a
`datetime`. -/
theorem timestamp_boundary (base64 : Base64) (outOfRange : OutOfRange)
    (now : DateTime) (ttl : Option SupportsFloat)
    (data : List (PyKey × PyValue)) :
    (ClosedFor outOfRange now ttl ↔ ∀ entry, Creates now ttl entry →
      InYears entry.createdAt ∧ InYears entry.expiresAt) ∧
    (ClosedOn base64 outOfRange data ↔ ∀ entry, Holds base64 data entry →
      InYears entry.createdAt ∧ InYears entry.expiresAt) :=
  ⟨closedFor_iff outOfRange now ttl, closedOn_iff base64 outOfRange data⟩

def farAway : DateTime :=
  ⟨300000000000000 * nanosPerMilli, by decide, by decide⟩

def farEntry : ManagedEntry := ⟨.null, some .epoch, some farAway⟩

def strictBase64 : Base64 where
  decode text :=
    match Base64Standard.decode text with
    | some bytes => .ok bytes
    | none => .error ⟨.valueError, "Only base64 data is allowed"⟩
  canonical bytes := by rw [Base64Standard.decode_encode]
  raises text error h := by
    split at h
    · cases h
    · cases h
      rfl

def yearError : OutOfRange :=
  ⟨fun _ => ⟨.valueError, "year is out of range"⟩, fun _ => .inl rfl⟩

theorem not_inYears_farAway : ¬ InYears (some farAway) := by
  intro h
  exact absurd (h farAway rfl).2 (by decide)

theorem far_away_escapes :
    ¬ ClosedFor yearError .epoch (some (.ofF64 (.finite 300000000000))) ∧
      ¬ ClosedOn strictBase64 yearError
        [(.str "entry", .str (Base64Standard.encode farEntry.encode))] := by
  constructor
  · rw [closedFor_iff]
    intro h
    have hentry : ManagedEntry.ofTtl .epoch .null
        (some (.finite 300000000000)) = .ok farEntry := by
      have hexpires : (ManagedEntry.expirationAt .epoch
          (.finite 300000000000)).toOption = some farAway := by
        decide +kernel
      cases hresult : ManagedEntry.expirationAt .epoch
          (.finite 300000000000) with
      | error error =>
          rw [hresult] at hexpires
          cases hexpires
      | ok expires =>
          rw [hresult] at hexpires
          cases hexpires
          simp only [ManagedEntry.ofTtl, ManagedEntry.withTtl, hresult, bind,
            Except.bind, pure, Except.pure]
          rfl
    exact not_inYears_farAway (h farEntry ⟨_, .inr
      ⟨_, _, rfl, rfl, rfl, rfl⟩, hentry⟩).2
  · rw [closedOn_iff]
    intro h
    have hdecode : ManagedEntry.decode farEntry.encode = .ok farEntry :=
      ManagedEntry.decode_encode farEntry rfl (by decide)
    exact not_inYears_farAway (h farEntry
      ⟨_, _, rfl, strictBase64.canonical _, hdecode⟩).2

end OpenKeyV.Python
