import OpenKeyV.Python.Stacks
import OpenKeyV.Python.Entry
import OpenKeyV.Library.Base64Standard
import Mathlib.Logic.Equiv.List

/-!
# The values that a stack carries

The envelope of a compressed value is a dictionary like any other.  A stack
whose outermost wrapper compresses reads a dictionary with the reserved key as
an envelope of its own.
-/

namespace OpenKeyV.Python

open Library

namespace PyValue

def finite (bits : UInt64) : Prop := bits.toNat / 2 ^ 52 % 2 ^ 11 ≠ 2047

/-- What `orjson` writes and reads back, without what is inside. -/
def Json : PyValue → Prop
  | .int value => -2 ^ 63 ≤ value ∧ value < 2 ^ 64
  | .float bits => finite bits
  | .dict entries => (entries.map Prod.fst).Nodup ∧
      ∀ entry ∈ entries, ∃ key, entry.1 = .str key
  | .bytes _ => False
  | .other _ => False
  | _ => True

def Jsonable : PyValue → Prop := Everywhere Json

end PyValue

structure Codecs.RoundTrips (codecs : Codecs) : Prop where
  json : ∀ value : PyValue, value.Jsonable →
    ∃ bytes, codecs.dumps value = .ok bytes ∧ codecs.loads bytes = .ok value
  loaded : ∀ bytes value, codecs.loads bytes = .ok value → value.Jsonable
  /-- An integer outside of 64 bits is an error. -/
  range : ∀ value bytes, codecs.dumps value = .ok bytes → value.IntsFit
  gzip : ∀ bytes, codecs.decompress (codecs.compress bytes) = .ok bytes
  base64 : ∀ bytes, codecs.b64decode (codecs.b64encode bytes) = .ok bytes
  recursion : 2 ≤ codecs.recursionLimit

namespace Layer

def RoundTrips : Layer → Prop
  | .compression _ => True
  | .encryption encryptionFn decryptionFn version =>
      ∀ bytes, ∃ encrypted, encryptionFn bytes = .ok encrypted ∧
        decryptionFn encrypted version = .ok bytes

/-- The version of the envelope fits into the integers of JSON. -/
def InRange : Layer → Prop
  | .compression _ => True
  | .encryption _ _ version => -2 ^ 63 ≤ version ∧ version < 2 ^ 64

end Layer

def Ranged (layers : List Layer) : Prop :=
  ∀ layer ∈ layers.dropLast, layer.InRange

def Clear (layers : List Layer) (value : PyValue) : Prop :=
  Ranged layers ∧ ∀ minSizeToCompress,
    layers.head? = some (.compression minSizeToCompress) →
      CompressionWrapper.isEnvelope value = false

section Envelopes

open CompressionWrapper

variable {codecs : Codecs} {value : PyValue} {layers : List Layer}

theorem jsonable_dict {entries : List (PyKey × PyValue)} :
    (PyValue.dict entries).Jsonable ↔ (entries.map Prod.fst).Nodup ∧
      (∀ entry ∈ entries, ∃ key, entry.1 = .str key) ∧
      ∀ entry ∈ entries, entry.2.Jsonable := by
  rw [PyValue.Jsonable, everywhere_py_iff, PyValue.Json, PyValue.children,
    List.forall_mem_map, and_assoc]

theorem jsonable_str (text : String) : (PyValue.str text).Jsonable :=
  everywhere_leaf rfl trivial

theorem jsonable_int {n : Int} (h : -2 ^ 63 ≤ n ∧ n < 2 ^ 64) :
    (PyValue.int n).Jsonable :=
  everywhere_leaf rfl h

theorem jsonable_compressed (data : String) :
    (CompressionWrapper.envelope data).Jsonable := by
  rw [CompressionWrapper.envelope, jsonable_dict]
  simp only [List.forall_mem_cons, List.map_cons, List.map_nil]
  exact ⟨by decide, ⟨⟨_, rfl⟩, ⟨_, rfl⟩, ⟨_, rfl⟩, by simp⟩, jsonable_str _,
    jsonable_int (by decide), jsonable_str _, by simp⟩

theorem jsonable_encrypted (data : String) {version : Int}
    (h : -2 ^ 63 ≤ version ∧ version < 2 ^ 64) :
    (BaseEncryptionWrapper.envelope data version).Jsonable := by
  rw [BaseEncryptionWrapper.envelope, jsonable_dict]
  simp only [List.forall_mem_cons, List.map_cons, List.map_nil]
  exact ⟨by decide, ⟨⟨_, rfl⟩, ⟨_, rfl⟩, by simp⟩, jsonable_str _,
    jsonable_int h, by simp⟩

/-! ## Compression -/

theorem decompressValue_of_clear (h : isEnvelope value = false) :
    decompressValue codecs value = .ok value := by
  cases value with
  | dict entries =>
      rw [isEnvelope, Option.isSome_eq_false_iff,
        Option.isNone_iff_eq_none] at h
      rw [decompressValue, h]
  | none | bool | int | float | str | bytes | list | other => rfl

theorem decompressed_loads {data : String}
    (h : decompressed codecs data = .ok value) :
    ∃ bytes, codecs.loads bytes = .ok value := by
  obtain ⟨_, -, hrest⟩ := bind_eq_ok.mp (except_eq_ok.mp h)
  obtain ⟨bytes, -, hloads⟩ := bind_eq_ok.mp hrest
  exact ⟨bytes, except_eq_ok.mp hloads⟩

theorem decompressValue_loads {inside : PyValue}
    (hvalue : isEnvelope value = true)
    (h : decompressValue codecs value = .ok inside) :
    ∃ bytes, codecs.loads bytes = .ok inside := by
  cases value with
  | none | bool | int | float | str | bytes | list | other => cases hvalue
  | dict entries =>
      rw [decompressValue] at h
      obtain ⟨data, hdata⟩ := Option.isSome_iff_exists.mp hvalue
      rw [hdata] at h
      dsimp only at h
      split at h
      · cases h
      · split at h
        · split at h
          · split at h
            · exact decompressed_loads h
            · cases h
          · cases h
        · cases h

theorem decompressValue_envelope (hcodecs : codecs.RoundTrips) {bytes : Bytes}
    (h : codecs.loads bytes = .ok value) :
    decompressValue codecs
      (CompressionWrapper.envelope (codecs.b64encode (codecs.compress bytes))) =
        .ok value := by
  have hinside : decompressed codecs
      (codecs.b64encode (codecs.compress bytes)) = .ok value := by
    simp only [decompressed, hcodecs.base64, hcodecs.gzip, loadFromJson, h,
      except, bind, Except.bind]
  rw [← hinside]
  rfl

/-- An object, and the value that a `CompressionWrapper` takes it for. -/
structure Form (codecs : Codecs) (shown inside : PyValue) : Prop where
  jsonable : shown.Jsonable
  insideJsonable : inside.Jsonable
  clear : isEnvelope inside = false
  reads : decompressValue codecs shown = .ok inside

theorem Form.of_clear (hvalue : value.Jsonable)
    (h : isEnvelope value = false) : Form codecs value value :=
  ⟨hvalue, hvalue, h, decompressValue_of_clear h⟩

theorem Form.encrypted (data : String) {version : Int}
    (h : -2 ^ 63 ≤ version ∧ version < 2 ^ 64) :
    Form codecs (BaseEncryptionWrapper.envelope data version)
      (BaseEncryptionWrapper.envelope data version) :=
  .of_clear (jsonable_encrypted data h) rfl

variable {shown inside : PyValue} {minSizeToCompress : Int}

theorem compressValue_clear (minSizeToCompress : Int)
    (hcodecs : codecs.RoundTrips) (hvalue : value.Jsonable)
    (hclear : isEnvelope value = false) (fuel : Nat) :
    ∃ shown, compressValue codecs minSizeToCompress (fuel + 1) value =
      .ok shown ∧ Form codecs shown value := by
  obtain ⟨bytes, hdumps, hloads⟩ := hcodecs.json value hvalue
  simp only [compressValue, hclear, Bool.false_eq_true, if_false,
    dumpToJsonBytes, hdumps, except, bind, Except.bind]
  split
  · exact ⟨value, rfl, .of_clear hvalue hclear⟩
  · exact ⟨_, rfl, jsonable_compressed _, hvalue, hclear,
      decompressValue_envelope hcodecs hloads⟩

theorem compressValue_form (minSizeToCompress : Int)
    (hcodecs : codecs.RoundTrips) (h : Form codecs shown inside) :
    ∃ shown', compressValue codecs minSizeToCompress codecs.recursionLimit
      shown = .ok shown' ∧ Form codecs shown' inside := by
  obtain ⟨fuel, hfuel⟩ := Nat.exists_eq_add_of_le hcodecs.recursion
  rw [hfuel, Nat.add_comm]
  by_cases henvelope : isEnvelope shown = true
  · rw [compressValue, if_pos henvelope, h.reads]
    exact compressValue_clear minSizeToCompress hcodecs h.insideJsonable
      h.clear fuel
  · rw [Bool.not_eq_true] at henvelope
    have hsame : shown = inside := Except.ok.inj
      ((decompressValue_of_clear henvelope).symm.trans h.reads)
    rw [hsame]
    exact compressValue_clear minSizeToCompress hcodecs h.insideJsonable
      h.clear (fuel + 1)

theorem form_of_compressValue (hcodecs : codecs.RoundTrips) {fuel : Nat}
    (hvalue : value.Jsonable)
    (h : compressValue codecs minSizeToCompress fuel value = .ok shown) :
    ∃ inside, Form codecs shown inside := by
  induction fuel generalizing value with
  | zero => cases h
  | succ fuel ih =>
      by_cases henvelope : isEnvelope value = true
      · rw [compressValue, if_pos henvelope] at h
        obtain ⟨inside, hinside, hrest⟩ := bind_eq_ok.mp h
        obtain ⟨bytes, hloads⟩ := decompressValue_loads henvelope hinside
        exact ih (hcodecs.loaded bytes inside hloads) hrest
      · rw [Bool.not_eq_true] at henvelope
        obtain ⟨shown', hshown, hform⟩ :=
          compressValue_clear minSizeToCompress hcodecs hvalue henvelope fuel
        rw [h] at hshown
        cases hshown
        exact ⟨value, hform⟩

/-! ## Encryption -/

theorem encryptValue_ok (hcodecs : codecs.RoundTrips)
    {encryptionFn : Bytes → Except PyError Bytes}
    {decryptionFn : Bytes → Int → Except PyError Bytes} {version : Int}
    (hlayer : (Layer.encryption encryptionFn decryptionFn version).RoundTrips)
    (hvalue : value.Jsonable) :
    ∃ data, BaseEncryptionWrapper.encryptValue codecs encryptionFn version
        value = .ok (BaseEncryptionWrapper.envelope data version) ∧
      BaseEncryptionWrapper.decryptValue codecs decryptionFn
        (BaseEncryptionWrapper.envelope data version) = .ok value := by
  obtain ⟨bytes, hdumps, hloads⟩ := hcodecs.json value hvalue
  obtain ⟨encrypted, hencrypt, hdecrypt⟩ := hlayer bytes
  refine ⟨codecs.b64encode encrypted, ?_, ?_⟩
  · simp only [BaseEncryptionWrapper.encryptValue, dumpToJsonBytes, hdumps,
      hencrypt, except, bind, Except.bind, pure, Except.pure]
  · have hpayload : BaseEncryptionWrapper.validateEncryptedPayload codecs
        [(.str BaseEncryptionWrapper.encryptedDataKey,
            .str (codecs.b64encode encrypted)),
          (.str BaseEncryptionWrapper.encryptionVersionKey, .int version)] =
        .ok (version, codecs.b64encode encrypted) := rfl
    simp only [BaseEncryptionWrapper.decryptValue,
      BaseEncryptionWrapper.envelope, hpayload, hcodecs.base64, hdecrypt,
      loadFromJson, hloads, except, bind, Except.bind]

theorem encryptValue_shape {encryptionFn : Bytes → Except PyError Bytes}
    {version : Int} {encoded : PyValue}
    (h : BaseEncryptionWrapper.encryptValue codecs encryptionFn version value =
      .ok encoded) :
    ∃ data, encoded = BaseEncryptionWrapper.envelope data version := by
  obtain ⟨_, -, hrest⟩ := bind_eq_ok.mp h
  obtain ⟨_, -, hshape⟩ := bind_eq_ok.mp hrest
  exact ⟨_, (Except.ok.inj hshape).symm⟩

/-! ## Stacks -/

theorem ranged_tail {layer : Layer} (h : Ranged (layer :: layers)) :
    Ranged layers := by
  cases layers with
  | nil => exact fun _ hmem => by cases hmem
  | cons next layers =>
      exact fun other hmem => h other (List.mem_cons_of_mem _ hmem)

theorem ranged_head {layer next : Layer}
    (h : Ranged (layer :: next :: layers)) : layer.InRange :=
  h layer List.mem_cons_self

theorem carries_encrypted (hcodecs : codecs.RoundTrips)
    {encryptionFn : Bytes → Except PyError Bytes}
    {decryptionFn : Bytes → Int → Except PyError Bytes} {version : Int}
    (hlayer : (Layer.encryption encryptionFn decryptionFn version).RoundTrips)
    (hranged : Ranged (.encryption encryptionFn decryptionFn version :: layers))
    (hinner : ∀ value, Form codecs value value → Carries codecs layers value)
    (hvalue : value.Jsonable) :
    Carries codecs (.encryption encryptionFn decryptionFn version :: layers)
      value := by
  obtain ⟨data, hencrypt, hdecrypt⟩ := encryptValue_ok hcodecs hlayer hvalue
  have hcarries : Carries codecs layers
      (BaseEncryptionWrapper.envelope data version) := by
    cases layers with
    | nil => exact ⟨_, rfl, rfl⟩
    | cons next layers => exact hinner _ (.encrypted data (ranged_head hranged))
  obtain ⟨encoded, hencode, hdecode⟩ := hcarries
  refine ⟨encoded, ?_, ?_⟩
  · simp only [encodeAll, Layer.encode, hencrypt, hencode, bind, Except.bind]
  · simp only [decodeAll, Layer.decode, hdecode, hdecrypt, bind, Except.bind]

/-- The induction over the stack: an object comes back as it is or as what a
`CompressionWrapper` takes it for. -/
theorem carries_form (hcodecs : codecs.RoundTrips)
    (hlayers : ∀ layer ∈ layers, layer.RoundTrips) (hranged : Ranged layers)
    {shown inside : PyValue} (h : Form codecs shown inside) :
    ∃ encoded decoded, encodeAll codecs layers shown = .ok encoded ∧
      decodeAll codecs layers encoded = .ok decoded ∧
      (decoded = shown ∨ decoded = inside) := by
  induction layers generalizing shown inside with
  | nil => exact ⟨shown, shown, rfl, rfl, .inl rfl⟩
  | cons layer layers ih =>
      obtain ⟨hlayer, hrest⟩ := List.forall_mem_cons.mp hlayers
      have hinner := @ih hrest (ranged_tail hranged)
      cases layer with
      | compression minSizeToCompress =>
          obtain ⟨shown', hshown, hform⟩ :=
            compressValue_form minSizeToCompress hcodecs h
          obtain ⟨encoded, decoded, hencode, hdecode, hsame⟩ := hinner hform
          have hreads : decompressValue codecs decoded = .ok inside := by
            rcases hsame with rfl | rfl
            · exact hform.reads
            · exact decompressValue_of_clear h.clear
          refine ⟨encoded, inside, ?_, ?_, .inr rfl⟩
          · simp only [encodeAll, Layer.encode, hshown, hencode, bind,
              Except.bind]
          · simp only [decodeAll, Layer.decode, hdecode, hreads, bind,
              Except.bind]
      | encryption encryptionFn decryptionFn version =>
          have hcarries : ∀ value, Form codecs value value →
              Carries codecs layers value := by
            intro value hform
            obtain ⟨encoded, decoded, hencode, hdecode, hsame⟩ := hinner hform
            obtain rfl : decoded = value := by simpa using hsame
            exact ⟨encoded, hencode, hdecode⟩
          obtain ⟨encoded, hencode, hdecode⟩ := carries_encrypted hcodecs
            hlayer hranged hcarries h.jsonable
          exact ⟨encoded, shown, hencode, hdecode, .inl rfl⟩

theorem carries_clear (hcodecs : codecs.RoundTrips)
    (hlayers : ∀ layer ∈ layers, layer.RoundTrips) (hranged : Ranged layers)
    (value : PyValue) (h : Form codecs value value) :
    Carries codecs layers value := by
  obtain ⟨encoded, decoded, hencode, hdecode, hsame⟩ :=
    carries_form hcodecs hlayers hranged h
  obtain rfl : decoded = value := by simpa using hsame
  exact ⟨encoded, hencode, hdecode⟩

theorem dumps_of_encode {layer : Layer} {encoded : PyValue}
    (hclear : isEnvelope value = false)
    (h : layer.encode codecs value = .ok encoded) :
    ∃ bytes, codecs.dumps value = .ok bytes := by
  cases layer with
  | encryption encryptionFn decryptionFn version =>
      obtain ⟨bytes, hdumps, -⟩ := bind_eq_ok.mp h
      exact ⟨bytes, except_eq_ok.mp hdumps⟩
  | compression minSizeToCompress =>
      rw [Layer.encode] at h
      cases hlimit : codecs.recursionLimit with
      | zero =>
          rw [hlimit] at h
          cases h
      | succ fuel =>
          rw [hlimit, compressValue, if_neg (by simp [hclear])] at h
          obtain ⟨bytes, hdumps, -⟩ := bind_eq_ok.mp h
          exact ⟨bytes, except_eq_ok.mp hdumps⟩

theorem ranged_of_encodeAll (hcodecs : codecs.RoundTrips) {encoded : PyValue}
    (h : encodeAll codecs layers value = .ok encoded) : Ranged layers := by
  induction layers generalizing value with
  | nil => exact fun _ hmem => by cases hmem
  | cons layer layers ih =>
      obtain ⟨shown, hshown, hrest⟩ := bind_eq_ok.mp h
      cases layers with
      | nil => exact fun _ hmem => by cases hmem
      | cons next layers =>
          refine List.forall_mem_cons.mpr ⟨?_, ih hrest⟩
          cases layer with
          | compression => exact trivial
          | encryption encryptionFn decryptionFn version =>
              obtain ⟨data, rfl⟩ := encryptValue_shape hshown
              obtain ⟨_, hnext, -⟩ := bind_eq_ok.mp hrest
              obtain ⟨bytes, hdumps⟩ := dumps_of_encode rfl hnext
              have hfits := hcodecs.range _ _ hdumps
              have hchild := (everywhere_py_iff.mp hfits).2 (.int version)
                (by simp [BaseEncryptionWrapper.envelope, PyValue.children])
              exact (everywhere_py_iff.mp hchild).1

theorem clear_of_carries (hcodecs : codecs.RoundTrips)
    (hlayers : ∀ layer ∈ layers, layer.RoundTrips) (hvalue : value.Jsonable)
    (h : Carries codecs (.compression minSizeToCompress :: layers) value) :
    isEnvelope value = false := by
  obtain ⟨encoded, hencode, hdecode⟩ := h
  obtain ⟨shown, hshown, hrest⟩ := bind_eq_ok.mp hencode
  obtain ⟨inside, hform⟩ := form_of_compressValue hcodecs hvalue hshown
  obtain ⟨encoded', decoded, hencode', hdecode', hsame⟩ :=
    carries_form hcodecs hlayers (ranged_of_encodeAll hcodecs hrest) hform
  obtain rfl : encoded = encoded' :=
    Except.ok.inj (hrest.symm.trans hencode')
  obtain ⟨decoded', hbelow, hback⟩ := bind_eq_ok.mp hdecode
  obtain rfl : decoded' = decoded :=
    Except.ok.inj (hbelow.symm.trans hdecode')
  have hinside : decompressValue codecs decoded' = .ok inside := by
    rcases hsame with rfl | rfl
    · exact hform.reads
    · exact decompressValue_of_clear hform.clear
  obtain rfl : value = inside := Except.ok.inj (hback.symm.trans hinside)
  exact hform.clear

theorem carries_iff_clear (hcodecs : codecs.RoundTrips)
    (hlayers : ∀ layer ∈ layers, layer.RoundTrips)
    (hvalue : value.Jsonable) :
    Carries codecs layers value ↔ Clear layers value := by
  constructor
  · intro h
    refine ⟨ranged_of_encodeAll hcodecs h.choose_spec.1, ?_⟩
    intro minSizeToCompress hhead
    obtain ⟨rest, rfl⟩ := List.head?_eq_some_iff.mp hhead
    exact clear_of_carries hcodecs (List.forall_mem_cons.mp hlayers).2 hvalue h
  · rintro ⟨hranged, hhead⟩
    cases layers with
    | nil => exact ⟨value, rfl, rfl⟩
    | cons layer layers =>
        cases layer with
        | compression minSizeToCompress =>
            exact carries_clear hcodecs hlayers hranged value
              (.of_clear hvalue (hhead minSizeToCompress rfl))
        | encryption encryptionFn decryptionFn version =>
            obtain ⟨hlayer, hrest⟩ := List.forall_mem_cons.mp hlayers
            exact carries_encrypted hcodecs hlayer hranged
              (carries_clear hcodecs hrest (ranged_tail hranged)) hvalue

end Envelopes

/-! ## An instance -/

def textCode (text : String) : Nat :=
  Encodable.encode (text.toList.map Char.toNat)

def bytesCode (bytes : Bytes) : Nat :=
  Encodable.encode (bytes.map UInt8.toNat)

def keyCode : PyKey → Nat
  | .str text => textCode text * 2
  | .other id => id * 2 + 1

mutual

def code : PyValue → Nat
  | .none => Nat.pair 0 0
  | .bool value => Nat.pair 1 (Encodable.encode value)
  | .int value => Nat.pair 2 (Encodable.encode value)
  | .float bits => Nat.pair 3 bits.toNat
  | .str value => Nat.pair 4 (textCode value)
  | .bytes value => Nat.pair 5 (bytesCode value)
  | .list values => Nat.pair 6 (codeList values)
  | .dict entries => Nat.pair 7 (codeEntries entries)
  | .other id => Nat.pair 8 id

def codeList : List PyValue → Nat
  | [] => 0
  | value :: values => Nat.pair (code value) (codeList values) + 1

def codeEntries : List (PyKey × PyValue) → Nat
  | [] => 0
  | (key, value) :: entries =>
      Nat.pair (Nat.pair (keyCode key) (code value)) (codeEntries entries) + 1

end

section Instance

theorem textCode_inj {first second : String}
    (h : textCode first = textCode second) : first = second :=
  String.toList_injective (List.map_injective_iff.mpr
    (fun _ _ => Char.toNat_inj.mp) (Encodable.encode_injective h))

theorem bytesCode_inj {first second : Bytes}
    (h : bytesCode first = bytesCode second) : first = second :=
  List.map_injective_iff.mpr (fun _ _ => UInt8.toNat_inj.mp)
    (Encodable.encode_injective h)

theorem keyCode_inj {first second : PyKey}
    (h : keyCode first = keyCode second) : first = second := by
  cases first <;> cases second <;> simp only [keyCode] at h
  · rw [PyKey.str.injEq]
    exact textCode_inj (by omega)
  · omega
  · omega
  · rw [PyKey.other.injEq]
    omega

mutual

theorem code_inj : ∀ first second : PyValue, code first = code second →
    first = second
  | .none, second, h => by
      cases second <;> simp_all [code, Nat.pair_eq_pair]
  | .bool value, second, h => by
      cases second <;> simp_all [code, Nat.pair_eq_pair]
  | .int value, second, h => by
      cases second <;> simp_all [code, Nat.pair_eq_pair]
  | .float bits, second, h => by
      cases second <;> simp_all [code, Nat.pair_eq_pair, UInt64.toNat_inj]
  | .str value, second, h => by
      cases second <;> simp_all [code, Nat.pair_eq_pair]
      exact textCode_inj h
  | .bytes value, second, h => by
      cases second <;> simp_all [code, Nat.pair_eq_pair]
      exact bytesCode_inj h
  | .list values, second, h => by
      cases second <;> simp_all [code, Nat.pair_eq_pair]
      exact codeList_inj values _ h
  | .dict entries, second, h => by
      cases second <;> simp_all [code, Nat.pair_eq_pair]
      exact codeEntries_inj entries _ h
  | .other id, second, h => by
      cases second <;> simp_all [code, Nat.pair_eq_pair]

theorem codeList_inj : ∀ first second : List PyValue,
    codeList first = codeList second → first = second
  | [], [], _ => rfl
  | [], _ :: _, h => by cases h
  | _ :: _, [], h => by cases h
  | value :: first, value' :: second, h => by
      rw [codeList, codeList, Nat.add_right_cancel_iff, Nat.pair_eq_pair] at h
      rw [code_inj value value' h.1, codeList_inj first second h.2]

theorem codeEntries_inj : ∀ first second : List (PyKey × PyValue),
    codeEntries first = codeEntries second → first = second
  | [], [], _ => rfl
  | [], _ :: _, h => by cases h
  | _ :: _, [], h => by cases h
  | (key, value) :: first, (key', value') :: second, h => by
      rw [codeEntries, codeEntries, Nat.add_right_cancel_iff,
        Nat.pair_eq_pair, Nat.pair_eq_pair] at h
      rw [keyCode_inj h.1.1, code_inj value value' h.1.2,
        codeEntries_inj first second h.2]

end

def jsonBytes : PyValue → Bytes
  | .none => utf8 "null"
  | value => List.replicate (code value + 5) 0

theorem jsonBytes_length {value : PyValue} (h : value ≠ .none) :
    (jsonBytes value).length = code value + 5 := by
  cases value with
  | none => exact absurd rfl h
  | bool | int | float | str | bytes | list | dict | other =>
      exact List.length_replicate

theorem length_null : (jsonBytes .none).length = 4 := by decide +kernel

theorem jsonBytes_inj {first second : PyValue}
    (h : jsonBytes first = jsonBytes second) : first = second := by
  have hlength := congrArg List.length h
  by_cases hfirst : first = .none
  · by_cases hsecond : second = .none
    · rw [hfirst, hsecond]
    · rw [hfirst, length_null, jsonBytes_length hsecond] at hlength
      omega
  · by_cases hsecond : second = .none
    · rw [hsecond, length_null, jsonBytes_length hfirst] at hlength
      omega
    · rw [jsonBytes_length hfirst, jsonBytes_length hsecond] at hlength
      exact code_inj first second (by omega)

open scoped Classical in
noncomputable def sampleCodecs : Codecs where
  dumps value :=
    if value.Jsonable then .ok (jsonBytes value)
    else .error ⟨.typeError, "Type is not JSON serializable"⟩
  loads bytes :=
    if h : ∃ value : PyValue, value.Jsonable ∧ jsonBytes value = bytes then
      .ok h.choose
    else .error ⟨.valueError, "unexpected character"⟩
  compress bytes := bytes
  decompress bytes := .ok bytes
  b64encode := Base64Standard.encode
  b64decode text :=
    match Base64Standard.decode text with
    | some bytes => .ok bytes
    | none => .error ⟨.valueError, "Only base64 data is allowed"⟩
  repr
    | .none => "None"
    | .int n => toString n
    | .str text => "'" ++ text ++ "'"
    | _ => "..."
  typeText
    | .none => "<class 'NoneType'>"
    | .bool _ => "<class 'bool'>"
    | .int _ => "<class 'int'>"
    | .float _ => "<class 'float'>"
    | .str _ => "<class 'str'>"
    | .bytes _ => "<class 'bytes'>"
    | .list _ => "<class 'list'>"
    | .dict _ => "<class 'dict'>"
    | .other _ => "<class 'object'>"
  recursionLimit := 1000

theorem jsonable_fits (value : PyValue) (h : value.Jsonable) :
    value.IntsFit := by
  induction value using PyValue.induction_on_children with
  | h value ih =>
      obtain ⟨hhere, hinside⟩ := everywhere_py_iff.mp h
      refine everywhere_py_iff.mpr ⟨?_, fun child hchild =>
        ih child hchild (hinside child hchild)⟩
      cases value with
      | int n => exact hhere
      | none | bool | float | str | bytes | list | dict | other =>
          exact trivial

theorem sampleCodecs_roundTrips : sampleCodecs.RoundTrips where
  json value h := by
    refine ⟨jsonBytes value, if_pos h, ?_⟩
    have hexists : ∃ other : PyValue, other.Jsonable ∧
        jsonBytes other = jsonBytes value := ⟨value, h, rfl⟩
    have hloads : sampleCodecs.loads (jsonBytes value) =
        .ok hexists.choose := dif_pos hexists
    rw [hloads, jsonBytes_inj hexists.choose_spec.2]
  loaded bytes value h := by
    simp only [sampleCodecs] at h
    split at h
    · rename_i hexists
      cases h
      exact hexists.choose_spec.1
    · cases h
  range value bytes h := by
    simp only [sampleCodecs] at h
    split at h
    · rename_i hvalue
      exact jsonable_fits value hvalue
    · cases h
  gzip _ := rfl
  base64 bytes := by
    simp only [sampleCodecs, Base64Standard.decode_encode]
  recursion := by decide

end Instance

/-! ## Transparency -/

/-- A stack over a store that returns what was put returns what was put,
exactly if it takes none of the values for an envelope of its own. -/
theorem stack_returns_what_was_put (codecs : Codecs)
    (hcodecs : codecs.RoundTrips) (layers : List Layer)
    (hlayers : ∀ layer ∈ layers, layer.RoundTrips) {σ : Type}
    (store : KeyValue σ) (s : σ) (lifetimes : Option F64 → Prop)
    (hnone : lifetimes none)
    (hstore : Returns store s (fun _ => True) lifetimes)
    (values : PyValue → Prop)
    (hvalues : ∀ value, values value → value.Jsonable) :
    Returns (stacked codecs store layers) s values lifetimes ↔
      ∀ value, values value → Clear layers value := by
  rw [returns_iff_carries hnone hstore]
  exact forall₂_congr fun value hvalue =>
    carries_iff_clear hcodecs hlayers (hvalues value hvalue)

theorem contents_putAll {collection : Option String} {ttl : Option F64}
    {items : List (String × PyValue)} {slots : Slots} {contents : Contents}
    (h : ∀ place, (slots.read place).1 = contents place) (place : Place) :
    ((slots.putAll collection ttl items).read place).1 =
      contents.putAll collection items place := by
  induction items generalizing slots contents with
  | nil => exact h place
  | cons item items ih =>
      apply ih
      intro other
      by_cases heq : other = (collection, item.1)
      · simp only [Slots.read, heq, Function.update_self, Option.getD_some]
      · simp only [Slots.read, Function.update_of_ne heq]
        exact h other

theorem contents_deleteAll {collection : Option String} {names : List String}
    {slots : Slots} {contents : Contents}
    (h : ∀ place, (slots.read place).1 = contents place) (place : Place) :
    ((slots.deleteAll collection names).2.read place).1 =
      contents.deleteAll collection names place := by
  induction names generalizing slots contents with
  | nil => exact h place
  | cons name names ih =>
      apply ih
      intro other
      by_cases heq : other = (collection, name)
      · simp only [Slots.read, heq, Function.update_self, Option.getD_none]
      · simp only [Slots.read, Function.update_of_ne heq]
        exact h other

theorem slots_answer {ops : List Op} {slots : Slots} {contents : Contents}
    (h : ∀ place, (slots.read place).1 = contents place) :
    Answers Slots.call contents slots ops := by
  induction ops generalizing slots contents with
  | nil => exact trivial
  | cons op ops ih =>
      cases op with
      | get key collection =>
          refine ⟨?_, ih h⟩
          simp only [Contents.Right, Slots.call, h, Contents.read]
      | getMany names collection =>
          refine ⟨?_, ih h⟩
          simp only [Contents.Right, Slots.call, h]
          rfl
      | ttl key collection =>
          refine ⟨⟨(slots.read (collection, key)).2, ?_⟩, ih h⟩
          simp only [Slots.call, h, Contents.read]
      | ttlMany names collection =>
          refine ⟨⟨_, rfl, ?_⟩, ih h⟩
          rw [List.map_map]
          exact List.map_congr_left fun key _ => h (collection, key)
      | put key value collection ttl =>
          exact ⟨rfl, ih (@contents_putAll collection ttl [(key, value)] _ _ h)⟩
      | putMany names values collection ttl =>
          by_cases hlength : names.length = values.length
          · simp only [Answers, Contents.Right, Contents.after, Slots.call,
              hlength, ne_eq, not_true, if_false, if_true, true_and]
            exact ih (contents_putAll h)
          · simp only [Answers, Contents.Right, Contents.after, Slots.call,
              hlength, ne_eq, not_false_eq_true, if_true, if_false]
            exact ⟨⟨_, rfl⟩, ih h⟩
      | delete key collection =>
          exact ⟨⟨_, rfl⟩, ih (@contents_deleteAll collection [key] _ _ h)⟩
      | deleteMany names collection =>
          exact ⟨⟨_, rfl⟩, ih (contents_deleteAll h)⟩

theorem slots_return :
    Returns Slots.call .empty (fun _ => True) (fun _ => True) :=
  fun _ _ => slots_answer fun _ => rfl

def mirrored : Layer :=
  .encryption (fun bytes => .ok bytes.reverse)
    (fun encrypted _ => .ok encrypted.reverse) 1

def sampleList : PyValue := .list [.str "a", .int 5]

theorem jsonable_sampleList : sampleList.Jsonable := by
  refine everywhere_py_iff.mpr ⟨trivial, ?_⟩
  simp only [sampleList, PyValue.children, List.forall_mem_cons]
  exact ⟨jsonable_str _, jsonable_int (by decide), by simp⟩

theorem encode_compression_one {value : PyValue} (h : value.Jsonable)
    (hplain : CompressionWrapper.isEnvelope value = false) :
    ∃ data, (Layer.compression 1).encode sampleCodecs value =
      .ok (CompressionWrapper.envelope data) := by
  have hdumps : sampleCodecs.dumps value = .ok (jsonBytes value) := if_pos h
  have hlong : ¬ ((jsonBytes value).length : Int) < 1 := by
    by_cases hnone : value = .none
    · rw [hnone, length_null]
      decide
    · rw [jsonBytes_length hnone]
      omega
  have hencode : ∀ fuel, CompressionWrapper.compressValue sampleCodecs 1
      (fuel + 1) value = .ok (CompressionWrapper.envelope
        (sampleCodecs.b64encode (sampleCodecs.compress (jsonBytes value)))) := by
    intro fuel
    simp only [CompressionWrapper.compressValue, hplain, Bool.false_eq_true,
      if_false, dumpToJsonBytes, hdumps, except, bind, Except.bind, pure,
      Except.pure, if_neg hlong]
  exact ⟨_, hencode 999⟩

/-- A list that is compressed, and encrypted below, comes back. -/
theorem stack_returns_list :
    (∃ data, (Layer.compression 1).encode sampleCodecs sampleList =
      .ok (CompressionWrapper.envelope data)) ∧
    Returns (stacked sampleCodecs Slots.call [.compression 1, mirrored]) .empty
      (fun value => value = sampleList) (fun _ => True) := by
  refine ⟨encode_compression_one jsonable_sampleList rfl, ?_⟩
  refine (stack_returns_what_was_put sampleCodecs sampleCodecs_roundTrips
    [.compression 1, mirrored] ?_ Slots.call .empty (fun _ => True) trivial
    slots_return (fun value => value = sampleList) ?_).mpr ?_
  · simp [Layer.RoundTrips, mirrored]
  · rintro _ rfl
    exact jsonable_sampleList
  · rintro _ rfl
    exact ⟨by simp [Ranged, Layer.InRange], fun _ _ => rfl⟩

def imitation : PyValue := .dict [(.str "__compressed_data__", .str "x")]

theorem imitation_is_refused :
    imitation.Jsonable ∧ sampleCodecs.RoundTrips ∧
      Returns Slots.call .empty (fun _ => True) (fun _ => True) ∧
      ¬ Returns (stacked sampleCodecs Slots.call [.compression 1024]) .empty
        (fun value => value = imitation) (fun _ => True) := by
  refine ⟨?_, sampleCodecs_roundTrips, slots_return, fun h => ?_⟩
  · rw [imitation, jsonable_dict]
    simp only [List.forall_mem_cons]
    exact ⟨by decide, ⟨⟨_, rfl⟩, by simp⟩, jsonable_str _, by simp⟩
  · obtain ⟨hput, -⟩ := h [.put "k" imitation none none] (by
      simp only [List.forall_mem_cons]
      exact ⟨⟨rfl, trivial⟩, by simp⟩)
    cases hput

end OpenKeyV.Python
