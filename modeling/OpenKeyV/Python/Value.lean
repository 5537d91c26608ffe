import OpenKeyV.Entry.Codec
import OpenKeyV.Value.RoundTrip

/-!
# Python values at the Rust boundary

`py_to_value` and `value_to_py` of `py/value.rs`.  A Python object is one of
the built-in types, with the exact class, or something else; integers have any
size and floats are bit patterns.
-/

namespace OpenKeyV.Python

open Library

inductive PyErrorKind where
  | overflowError
  | typeError
  | valueError
  | osError
  | eofError
  | recursionError
  | serializationError
  | deserializationError
  | decompressionError
  | encryptionError
  | decryptionError
  | corruptedDataError
  | encryptionVersionError
  | runtimeError
  | invalidTtlError
  deriving DecidableEq, Repr

structure PyError where
  kind : PyErrorKind
  message : String
  deriving DecidableEq, Repr

def except {α : Type} (caught : PyErrorKind → Bool)
    (raised : PyError → PyError) : Except PyError α → Except PyError α
  | .ok a => .ok a
  | .error error => .error (if caught error.kind then raised error else error)

theorem except_eq_ok {α : Type} {caught : PyErrorKind → Bool}
    {raised : PyError → PyError} {result : Except PyError α} {a : α} :
    except caught raised result = .ok a ↔ result = .ok a := by
  cases result with
  | error error => simp [except]
  | ok a => rfl

/-- A key of a dictionary: a text without surrogates, or something else. -/
inductive PyKey where
  | str (text : String)
  | other (id : Nat)
  deriving DecidableEq, Repr

inductive PyValue where
  | none
  | bool (value : Bool)
  | int (value : Int)
  | float (bits : UInt64)
  | str (value : String)
  | bytes (value : Bytes)
  | list (values : List PyValue)
  | dict (entries : List (PyKey × PyValue))
  /-- An object of another class, or a text with a surrogate. -/
  | other (id : Nat)
  deriving Repr

def overflow : PyError :=
  ⟨.overflowError,
    "Python int is outside the supported i64::MIN..=u64::MAX range"⟩

def valueErrorToPy (error : Error) : PyError := ⟨.valueError, error.text⟩

def extractI64 (n : Int) : Option Int64 :=
  if -2 ^ 63 ≤ n ∧ n < 2 ^ 63 then some (Int64.ofInt n) else none

def extractU64 (n : Int) : Option UInt64 :=
  if 0 ≤ n ∧ n < 2 ^ 64 then some (UInt64.ofNat n.toNat) else none

/-! ## From Python -/

mutual

/-- `structured_from_py`.  A `bool` is an `int` and is tested first. -/
def structuredFromPy : PyValue → Except PyError StructuredValue
  | .none => .ok .null
  | .bytes value => .ok (.bytes value)
  | .bool value => .ok (.bool value)
  | .int value =>
      match extractI64 value with
      | some value => .ok (.integer value)
      | none =>
          match extractU64 value with
          | some value => .ok (.unsignedInteger value)
          | none => .error overflow
  | .float bits => .ok (.float bits)
  | .str value => .ok (.string value)
  | .list values => do
      let values ← valuesFromPy values
      return .list values
  | .dict entries => do
      let entries ← entriesFromPy entries
      return .dict entries
  | .other _ => .error ⟨.typeError, "unsupported nested value type; " ++
      "expected dict, list, str, bytes, int, float, bool, or None"⟩

def valuesFromPy : List PyValue → Except PyError (List StructuredValue)
  | [] => .ok []
  | value :: values => do
      let value ← structuredFromPy value
      let values ← valuesFromPy values
      return value :: values

def entriesFromPy :
    List (PyKey × PyValue) → Except PyError (List StructuredValue.Entry)
  | [] => .ok []
  | (.other _, _) :: _ => .error ⟨.typeError, "dict keys must be str"⟩
  | (.str key, value) :: entries => do
      let value ← structuredFromPy value
      let entries ← entriesFromPy entries
      return (key, value) :: entries

end

def pyToValue : PyValue → Except PyError Value
  | .none => .ok .null
  | .bytes value => .ok (.binary value)
  | .bool value => .ok (.bool value)
  | .int value =>
      match extractI64 value with
      | some value => .ok (.integer value)
      | none =>
          match extractU64 value with
          | some value => .ok (.unsignedInteger value)
          | none => .error overflow
  | .float bits => .ok (.float bits)
  | .str value => .ok (.utf8 value)
  | .other _ => .error ⟨.typeError, "unsupported value type; expected " ++
      "dict, list, str, bytes, int, float, bool, or None"⟩
  | obj => do
      let structured ← structuredFromPy obj
      (Value.fromStructured structured).mapError valueErrorToPy

/-! ## To Python -/

def setItem (key : PyKey) (value : PyValue) :
    List (PyKey × PyValue) → List (PyKey × PyValue)
  | [] => [(key, value)]
  | entry :: entries =>
      if entry.1 = key then (key, value) :: entries
      else entry :: setItem key value entries

mutual

def structuredToPy : StructuredValue → PyValue
  | .null => .none
  | .bool value => .bool value
  | .integer value => .int value.toInt
  | .unsignedInteger value => .int value.toNat
  | .float bits => .float bits
  | .string value => .str value
  | .bytes value => .bytes value
  | .list values => .list (valuesToPy values)
  | .dict entries => .dict (entriesToPy [] entries)

def valuesToPy : List StructuredValue → List PyValue
  | [] => []
  | value :: values => structuredToPy value :: valuesToPy values

def entriesToPy (dict : List (PyKey × PyValue)) :
    List StructuredValue.Entry → List (PyKey × PyValue)
  | [] => dict
  | (key, value) :: entries =>
      entriesToPy (setItem (.str key) (structuredToPy value) dict) entries

end

def fixedBytes (bytes : Bytes) (len : Nat) (label : String) :
    Except PyError Nat :=
  if bytes.length = len then .ok (fromLeBytes bytes)
  else .error ⟨.valueError, s!"invalid {label} payload length"⟩

def valueToPy (value : Value) : Except PyError PyValue :=
  match value.kind with
  | .binary => .ok (.bytes value.bytes)
  | .utf8 =>
      match fromUtf8 value.bytes with
      | some text => .ok (.str text)
      | none => .error ⟨.valueError, "invalid UTF-8 value: "⟩
  | .integer => do
      let bits ← fixedBytes value.bytes 8 "integer"
      return .int (UInt64.ofNat bits).toInt64.toInt
  | .unsignedInteger => do
      let bits ← fixedBytes value.bytes 8 "unsigned integer"
      return .int (UInt64.ofNat bits).toNat
  | .float => do
      let bits ← fixedBytes value.bytes 8 "float"
      return .float (UInt64.ofNat bits)
  | .bool =>
      if value.bytes = [0] then .ok (.bool false)
      else if value.bytes = [1] then .ok (.bool true)
      else .error ⟨.valueError, "invalid bool payload"⟩
  | .null =>
      if value.bytes.isEmpty then .ok .none
      else .error ⟨.valueError, "invalid null payload"⟩
  | .structured =>
      (value.decodeStructured.mapError valueErrorToPy).map structuredToPy

/-! ## Values of the built-in types -/

namespace PyValue

def children : PyValue → List PyValue
  | .list values => values
  | .dict entries => entries.map Prod.snd
  | _ => []

inductive Everywhere (prop : PyValue → Prop) : PyValue → Prop
  | intro (value : PyValue) (here : prop value)
      (inside : ∀ child ∈ value.children, Everywhere prop child) :
      Everywhere prop value

/-- One of the built-in types, with a length that fits into four bytes; the
length of a text is that of its UTF-8 form. -/
def BuiltIn : PyValue → Prop
  | .str value => value.utf8ByteSize < 2 ^ 32
  | .bytes value => value.length < 2 ^ 32
  | .list values => values.length < 2 ^ 32
  | .dict entries => entries.length < 2 ^ 32 ∧
      (entries.map Prod.fst).Nodup ∧
      ∀ entry ∈ entries, ∃ key, entry.1 = .str key ∧ key.utf8ByteSize < 2 ^ 32
  | .other _ => False
  | _ => True

def Plain : PyValue → Prop := Everywhere BuiltIn

def InRange : PyValue → Prop
  | .int value => -2 ^ 63 ≤ value ∧ value < 2 ^ 64
  | _ => True

def IntsFit : PyValue → Prop := Everywhere InRange

/-- Equal, with the same types, up to the order of dictionaries. -/
inductive UpToOrder : PyValue → PyValue → Prop
  | refl (value : PyValue) : UpToOrder value value
  | list {values values' : List PyValue}
      (hlength : values.length = values'.length)
      (h : ∀ pair ∈ values.zip values', UpToOrder pair.1 pair.2) :
      UpToOrder (.list values) (.list values')
  | dict {entries listed entries' : List (PyKey × PyValue)}
      (hperm : entries.Perm listed)
      (hkeys : listed.map Prod.fst = entries'.map Prod.fst)
      (h : ∀ pair ∈ listed.zip entries', UpToOrder pair.1.2 pair.2.2) :
      UpToOrder (.dict entries) (.dict entries')

theorem induction_on_children {prop : PyValue → Prop}
    (h : ∀ value, (∀ child ∈ value.children, prop child) → prop value) :
    ∀ value, prop value := by
  have leaf : ∀ value, value.children = [] → prop value := by
    intro value hleaf
    apply h
    rw [hleaf]
    simp
  exact @PyValue.rec prop (fun values => ∀ value ∈ values, prop value)
    (fun entries => ∀ value ∈ entries.map Prod.snd, prop value)
    (fun entry => prop entry.2)
    (leaf _ rfl) (fun _ => leaf _ rfl) (fun _ => leaf _ rfl)
    (fun _ => leaf _ rfl) (fun _ => leaf _ rfl) (fun _ => leaf _ rfl)
    (fun values => h (.list values)) (fun entries => h (.dict entries))
    (fun _ => leaf _ rfl) (by simp)
    (fun value values hvalue hvalues => by simpa using ⟨hvalue, hvalues⟩)
    (by simp)
    (fun entry entries hentry hentries => List.forall_mem_cons.mpr
      ⟨hentry, hentries⟩)
    (fun _ _ hvalue => hvalue)

end PyValue

/-! ## Through the structured form -/

section RoundTrip

open StructuredValue

theorem everywhere_py_iff {prop : PyValue → Prop} {value : PyValue} :
    PyValue.Everywhere prop value ↔
      prop value ∧ ∀ child ∈ value.children, PyValue.Everywhere prop child := by
  constructor
  · rintro ⟨_, here, inside⟩
    exact ⟨here, inside⟩
  · rintro ⟨here, inside⟩
    exact .intro value here inside

@[simp] theorem valuesToPy_eq (values : List StructuredValue) :
    valuesToPy values = values.map structuredToPy := by
  induction values with
  | nil => rfl
  | cons value values ih => rw [valuesToPy, ih, List.map_cons]

def entryToPy (entry : StructuredValue.Entry) : PyKey × PyValue :=
  (.str entry.1, structuredToPy entry.2)

theorem setItem_new {key : PyKey} (value : PyValue)
    {dict : List (PyKey × PyValue)} (h : key ∉ dict.map Prod.fst) :
    setItem key value dict = dict ++ [(key, value)] := by
  induction dict with
  | nil => rfl
  | cons entry dict ih =>
      obtain ⟨hne, hrest⟩ := not_or.mp (mt List.mem_cons.mpr h)
      rw [setItem, if_neg (Ne.symm hne), ih hrest, List.cons_append]

theorem entriesToPy_eq {entries : List StructuredValue.Entry}
    {dict : List (PyKey × PyValue)} (hnodup : (entries.map Prod.fst).Nodup)
    (hnew : ∀ entry ∈ entries, .str entry.1 ∉ dict.map Prod.fst) :
    entriesToPy dict entries = dict ++ entries.map entryToPy := by
  induction entries generalizing dict with
  | nil => simp [entriesToPy]
  | cons entry entries ih =>
      obtain ⟨hfirst, hrest⟩ := List.nodup_cons.mp hnodup
      obtain ⟨hnewFirst, hnewRest⟩ := List.forall_mem_cons.mp hnew
      rw [entriesToPy, setItem_new _ hnewFirst, ih hrest ?_]
      · simp [entryToPy]
      · intro other hother
        rw [List.map_append, List.mem_append, not_or]
        refine ⟨hnewRest other hother, fun hmem => hfirst ?_⟩
        rw [List.map_singleton, List.mem_singleton, PyKey.str.injEq] at hmem
        exact hmem ▸ List.mem_map_of_mem hother

theorem structuredToPy_dict {entries : List StructuredValue.Entry}
    (hnodup : (entries.map Prod.fst).Nodup) :
    structuredToPy (.dict entries) = .dict (entries.map entryToPy) := by
  rw [structuredToPy, entriesToPy_eq hnodup (by simp), List.nil_append]

def Converts (value : PyValue) : Prop :=
  ∃ structured, structuredFromPy value = .ok structured ∧
    structured.Valid ∧ structuredToPy structured = value

theorem valuesFromPy_ok {values : List PyValue}
    (h : ∀ value ∈ values, Converts value) :
    ∃ structured, valuesFromPy values = .ok structured ∧
      (∀ value ∈ structured, value.Valid) ∧
      structured.map structuredToPy = values := by
  induction values with
  | nil => exact ⟨[], rfl, by simp, rfl⟩
  | cons value values ih =>
      obtain ⟨⟨first, hfirst, hvalid, hback⟩, hrest⟩ :=
        List.forall_mem_cons.mp h
      obtain ⟨rest, hrest, hvalids, hbacks⟩ := ih hrest
      refine ⟨first :: rest, ?_, List.forall_mem_cons.mpr ⟨hvalid, hvalids⟩,
        by rw [List.map_cons, hback, hbacks]⟩
      simp only [valuesFromPy, hfirst, hrest, bind, Except.bind, pure,
        Except.pure]

theorem entriesFromPy_ok {entries : List (PyKey × PyValue)}
    (hkeys : ∀ entry ∈ entries, ∃ key, entry.1 = .str key)
    (h : ∀ entry ∈ entries, Converts entry.2) :
    ∃ structured, entriesFromPy entries = .ok structured ∧
      (∀ entry ∈ structured, entry.2.Valid) ∧
      structured.map entryToPy = entries := by
  induction entries with
  | nil => exact ⟨[], rfl, by simp, rfl⟩
  | cons entry entries ih =>
      obtain ⟨⟨first, hfirst, hvalid, hback⟩, hrest⟩ :=
        List.forall_mem_cons.mp h
      obtain ⟨⟨key, hkey⟩, hkeys⟩ := List.forall_mem_cons.mp hkeys
      obtain ⟨rest, hrest, hvalids, hbacks⟩ := ih hkeys hrest
      obtain ⟨k, value⟩ := entry
      obtain rfl : k = .str key := hkey
      refine ⟨(key, first) :: rest, ?_,
        List.forall_mem_cons.mpr ⟨hvalid, hvalids⟩, ?_⟩
      · simp only [entriesFromPy, hfirst, hrest, bind, Except.bind, pure,
          Except.pure]
      · rw [List.map_cons, hbacks, entryToPy, hback]

theorem extract_cases (n : Int) :
    (∃ i, extractI64 n = some i ∧ i.toInt = n) ∨
      (extractI64 n = none ∧ ∃ u, extractU64 n = some u ∧ (u.toNat : Int) = n) ∨
      (extractI64 n = none ∧ extractU64 n = none ∧
        ¬ (-2 ^ 63 ≤ n ∧ n < 2 ^ 64)) := by
  by_cases hsigned : -2 ^ 63 ≤ n ∧ n < 2 ^ 63
  · refine .inl ⟨_, if_pos hsigned, ?_⟩
    exact Int64.toInt_ofInt_of_le (by omega) (by omega)
  · by_cases hunsigned : 0 ≤ n ∧ n < 2 ^ 64
    · refine .inr (.inl ⟨if_neg hsigned, _, if_pos hunsigned, ?_⟩)
      rw [UInt64.toNat_ofNat_of_lt' (by simp [UInt64.size]; omega)]
      omega
    · exact .inr (.inr ⟨if_neg hsigned, if_neg hunsigned, by omega⟩)

theorem converts_of_fits (value : PyValue) :
    value.Plain → value.IntsFit → Converts value := by
  induction value using PyValue.induction_on_children with
  | h value ih =>
      intro hplain hfits
      obtain ⟨hbuilt, hchildren⟩ := everywhere_py_iff.mp hplain
      obtain ⟨hrange, hints⟩ := everywhere_py_iff.mp hfits
      have hconverts : ∀ child ∈ value.children, Converts child :=
        fun child hchild => ih child hchild (hchildren child hchild)
          (hints child hchild)
      cases value with
      | none => exact ⟨.null, rfl, (valid_leaf rfl).mpr trivial, rfl⟩
      | bool b => exact ⟨.bool b, rfl, (valid_leaf rfl).mpr trivial, rfl⟩
      | float bits => exact ⟨.float bits, rfl, (valid_leaf rfl).mpr trivial, rfl⟩
      | str text => exact ⟨.string text, rfl, (valid_leaf rfl).mpr hbuilt, rfl⟩
      | bytes b => exact ⟨.bytes b, rfl, (valid_leaf rfl).mpr hbuilt, rfl⟩
      | other => cases hbuilt
      | int n =>
          rcases extract_cases n with ⟨i, hi, hback⟩ | ⟨hi, u, hu, hback⟩ |
            ⟨-, -, hout⟩
          · refine ⟨.integer i, by rw [structuredFromPy, hi],
              (valid_leaf rfl).mpr trivial, ?_⟩
            rw [structuredToPy, hback]
          · refine ⟨.unsignedInteger u, by rw [structuredFromPy, hi, hu],
              (valid_leaf rfl).mpr trivial, ?_⟩
            rw [structuredToPy, hback]
          · exact absurd hrange hout
      | list values =>
          have hvalues : ∀ value ∈ values, Converts value := hconverts
          obtain ⟨structured, hfrom, hvalids, hback⟩ :=
            valuesFromPy_ok hvalues
          refine ⟨.list structured, ?_, valid_list.mpr ⟨?_, hvalids⟩, ?_⟩
          · simp only [structuredFromPy, hfrom, bind, Except.bind, pure,
              Except.pure]
          · have hlength := congrArg List.length hback
            rw [List.length_map] at hlength
            rw [hlength]
            exact hbuilt
          · rw [structuredToPy, valuesToPy_eq, hback]
      | dict entries =>
          obtain ⟨hlength, hnodup, hkeys⟩ := hbuilt
          obtain ⟨structured, hfrom, hvalids, hback⟩ := entriesFromPy_ok
            (fun entry hentry => (hkeys entry hentry).imp fun _ h => h.1)
            fun entry hentry => hconverts entry.2 (List.mem_map_of_mem hentry)
          have hfst : (structured.map Prod.fst).map PyKey.str =
              entries.map Prod.fst := by
            rw [← hback, List.map_map, List.map_map]
            rfl
          have hdistinct : (structured.map Prod.fst).Nodup :=
            List.Nodup.of_map _ (hfst ▸ hnodup)
          refine ⟨.dict structured, ?_, valid_dict.mpr ⟨?_, hdistinct,
            fun entry hentry => ⟨?_, hvalids entry hentry⟩⟩, ?_⟩
          · simp only [structuredFromPy, hfrom, bind, Except.bind, pure,
              Except.pure]
          · have hsame := congrArg List.length hback
            rw [List.length_map] at hsame
            rw [hsame]
            exact hlength
          · obtain ⟨key, hkey, hsize⟩ := hkeys (entryToPy entry)
              (hback ▸ List.mem_map_of_mem hentry)
            cases hkey
            exact hsize
          · rw [structuredToPy_dict hdistinct, hback]

theorem valuesFromPy_overflow {values : List PyValue}
    (h : ∀ value ∈ values, Converts value ∨
      structuredFromPy value = .error overflow)
    (hbad : ∃ value ∈ values, structuredFromPy value = .error overflow) :
    valuesFromPy values = .error overflow := by
  induction values with
  | nil => simp at hbad
  | cons value values ih =>
      obtain ⟨hfirst, hrest⟩ := List.forall_mem_cons.mp h
      rcases hfirst with ⟨structured, hfrom, -⟩ | herror
      · have hbad' : ∃ value ∈ values,
            structuredFromPy value = .error overflow := by
          obtain ⟨bad, hmem, hbad⟩ := hbad
          rcases List.mem_cons.mp hmem with rfl | hmem
          · rw [hfrom] at hbad
            cases hbad
          · exact ⟨bad, hmem, hbad⟩
        simp only [valuesFromPy, hfrom, ih hrest hbad', bind, Except.bind]
      · simp only [valuesFromPy, herror, bind, Except.bind]

theorem entriesFromPy_overflow {entries : List (PyKey × PyValue)}
    (hkeys : ∀ entry ∈ entries, ∃ key, entry.1 = .str key)
    (h : ∀ entry ∈ entries, Converts entry.2 ∨
      structuredFromPy entry.2 = .error overflow)
    (hbad : ∃ entry ∈ entries, structuredFromPy entry.2 = .error overflow) :
    entriesFromPy entries = .error overflow := by
  induction entries with
  | nil => simp at hbad
  | cons entry entries ih =>
      obtain ⟨hfirst, hrest⟩ := List.forall_mem_cons.mp h
      obtain ⟨⟨key, hkey⟩, hstrs⟩ := List.forall_mem_cons.mp hkeys
      obtain ⟨k, value⟩ := entry
      obtain rfl : k = .str key := hkey
      rcases hfirst with ⟨structured, hfrom, -⟩ | herror
      · have hbad' : ∃ entry ∈ entries,
            structuredFromPy entry.2 = .error overflow := by
          obtain ⟨bad, hmem, hbad⟩ := hbad
          rcases List.mem_cons.mp hmem with rfl | hmem
          · rw [hfrom] at hbad
            cases hbad
          · exact ⟨bad, hmem, hbad⟩
        simp only [entriesFromPy, hfrom, ih hstrs hrest hbad', bind,
          Except.bind]
      · simp only [entriesFromPy, herror, bind, Except.bind]

theorem overflow_of_not_fits (value : PyValue) :
    value.Plain → ¬ value.IntsFit →
      structuredFromPy value = .error overflow := by
  induction value using PyValue.induction_on_children with
  | h value ih =>
      intro hplain hbad
      obtain ⟨hbuilt, hchildren⟩ := everywhere_py_iff.mp hplain
      have hcases : ∀ child ∈ value.children, Converts child ∨
          structuredFromPy child = .error overflow := by
        intro child hchild
        by_cases hfits : child.IntsFit
        · exact .inl (converts_of_fits child (hchildren child hchild) hfits)
        · exact .inr (ih child hchild (hchildren child hchild) hfits)
      have hinside : value.InRange →
          ∃ child ∈ value.children, structuredFromPy child = .error overflow := by
        intro hrange
        have hnot := mt (fun h => everywhere_py_iff.mpr ⟨hrange, h⟩) hbad
        obtain ⟨child, hchild⟩ := not_forall.mp hnot
        obtain ⟨hmem, hunfit⟩ := Classical.not_imp.mp hchild
        exact ⟨child, hmem, ih child hmem (hchildren child hmem) hunfit⟩
      cases value with
      | int n =>
          rcases extract_cases n with ⟨i, hi, hback⟩ | ⟨hi, u, hu, hback⟩ |
            ⟨hi, hu, -⟩
          · exact absurd (everywhere_py_iff.mpr ⟨by
              have := i.toInt_lt
              have := i.le_toInt
              simp only [PyValue.InRange]
              omega, by simp [PyValue.children]⟩) hbad
          · exact absurd (everywhere_py_iff.mpr ⟨by
              have := u.toNat_lt
              simp only [PyValue.InRange]
              omega, by simp [PyValue.children]⟩) hbad
          · rw [structuredFromPy, hi, hu]
      | list values =>
          have hvalues : ∀ value ∈ values, Converts value ∨
              structuredFromPy value = .error overflow := hcases
          simp only [structuredFromPy,
            valuesFromPy_overflow hvalues (hinside trivial), bind, Except.bind]
      | dict entries =>
          obtain ⟨-, -, hkeys⟩ := hbuilt
          have hbad' : ∃ entry ∈ entries,
              structuredFromPy entry.2 = .error overflow := by
            obtain ⟨child, hmem, hchild⟩ := hinside trivial
            obtain ⟨entry, hentry, rfl⟩ := List.mem_map.mp hmem
            exact ⟨entry, hentry, hchild⟩
          simp only [structuredFromPy, entriesFromPy_overflow
            (fun entry hentry => (hkeys entry hentry).imp fun _ h => h.1)
            (fun entry hentry => hcases entry.2 (List.mem_map_of_mem hentry))
            hbad', bind, Except.bind]
      | none | bool | float | str | bytes =>
          obtain ⟨child, hmem, -⟩ := hinside trivial
          cases hmem
      | other => cases hbuilt

theorem upToOrder_toPy {first second : StructuredValue}
    (h : StructuredValue.UpToOrder first second) :
    first.Valid → second.Valid →
      PyValue.UpToOrder (structuredToPy first) (structuredToPy second) := by
  induction h with
  | refl => exact fun _ _ => .refl _
  | @list values values' hlength _ ih =>
      intro hvalid hvalid'
      rw [structuredToPy, structuredToPy, valuesToPy_eq, valuesToPy_eq]
      refine .list (by simpa using hlength) fun pair hpair => ?_
      rw [List.zip_map] at hpair
      obtain ⟨source, hsource, rfl⟩ := List.mem_map.mp hpair
      have hmem := List.of_mem_zip hsource
      exact ih source hsource ((valid_list.mp hvalid).2 _ hmem.1)
        ((valid_list.mp hvalid').2 _ hmem.2)
  | @dict entries listed entries' hperm hkeys _ ih =>
      intro hvalid hvalid'
      obtain ⟨-, hnodup, hall⟩ := valid_dict.mp hvalid
      obtain ⟨-, hnodup', hall'⟩ := valid_dict.mp hvalid'
      rw [structuredToPy_dict hnodup, structuredToPy_dict hnodup']
      refine .dict (hperm.map entryToPy) ?_ fun pair hpair => ?_
      · have hfst : ∀ l : List StructuredValue.Entry,
            (l.map entryToPy).map Prod.fst = (l.map Prod.fst).map .str := by
          intro l
          rw [List.map_map, List.map_map]
          rfl
        rw [hfst, hfst, hkeys]
      · rw [List.zip_map] at hpair
        obtain ⟨source, hsource, rfl⟩ := List.mem_map.mp hpair
        have hmem := List.of_mem_zip hsource
        exact ih source hsource (hall _ (hperm.mem_iff.mpr hmem.1)).2
          (hall' _ hmem.2).2

end RoundTrip

end OpenKeyV.Python
