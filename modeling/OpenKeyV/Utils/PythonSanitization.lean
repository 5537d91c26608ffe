import OpenKeyV.Utils.PythonSanitize

/-!
# Naming strategies of the Python package

`_utils/sanitization.py`: a name that is changed gets a reserved start, `H_`
or `S_`, and names with such a start are not accepted.
-/

namespace OpenKeyV.Python

open Library

def validateReserved (value : PyStr) : Except TextError Unit :=
  if (str "H_").isPrefixOf value || (str "S_").isPrefixOf value then
    .error (.invalidKeyError
      (str "Keys cannot start with reserved prefixes 'H_' or 'S_': " ++ value))
  else .ok ()

structure HashExcessLengthStrategy where
  maxLength : Int := 240

namespace HashExcessLengthStrategy

variable (strategy : HashExcessLengthStrategy)

def sanitize (sha256 : Sha256) (value : PyStr) : Except TextError PyStr :=
  if (value.length : Int) > strategy.maxLength then do
    let encoded ← encode value
    return str "H_" ++ (sha256 encoded).fragment (strategy.maxLength - 2)
  else .ok value

def validate (value : PyStr) : Except TextError Unit := validateReserved value

end HashExcessLengthStrategy

structure HybridSanitizationStrategy where
  maxLength : Int := 240
  allowedCharacters : Option PyStr := none
  replacementCharacter : PyStr := str "_"
  hashFragmentMode : HashFragmentMode := .onlyIfChanged
  hashFragmentLength : Int := 8

namespace HybridSanitizationStrategy

variable (strategy : HybridSanitizationStrategy)

/-- No replacement without allowed characters, nor with an empty string. -/
def sanitizeCharacters (value : PyStr) : PyStr :=
  match strategy.allowedCharacters with
  | some (c :: rest) =>
      sanitizeCharactersInString value (c :: rest)
        strategy.replacementCharacter
  | some [] | none => value

def addHash (value : PyStr) : Bool :=
  strategy.hashFragmentMode = .always ∨
    strategy.hashFragmentMode = .onlyIfChanged ∧
      strategy.sanitizeCharacters value ≠ value

def hashed (hashFragment sanitized : PyStr) : PyStr :=
  let overhead := 2 + 1 + strategy.hashFragmentLength
  let maxValueLength := strategy.maxLength - overhead
  let sanitized :=
    if (sanitized.length : Int) > maxValueLength then
      sliceTo maxValueLength sanitized
    else sanitized
  str "S_" ++ sanitized ++ str "-" ++ hashFragment

def plain (value sanitized : PyStr) : PyStr :=
  let needsTruncation : Bool := (sanitized.length : Int) > strategy.maxLength
  let changed : Bool := needsTruncation || sanitized ≠ value
  let sanitized :=
    if needsTruncation then sliceTo strategy.maxLength sanitized
    else sanitized
  if changed then
    let prefixed := str "S_" ++ sanitized
    if (prefixed.length : Int) > strategy.maxLength then
      str "S_" ++ sliceTo (strategy.maxLength - 2) sanitized
    else prefixed
  else sanitized

def sanitize (sha256 : Sha256) (value : PyStr) : Except TextError PyStr :=
  let sanitized := strategy.sanitizeCharacters value
  if strategy.addHash value then do
    let encoded ← encode value
    return strategy.hashed
      ((sha256 encoded).fragment strategy.hashFragmentLength) sanitized
  else .ok (strategy.plain value sanitized)

def validate (value : PyStr) : Except TextError Unit := validateReserved value

end HybridSanitizationStrategy

theorem validateReserved_eq_ok {value : PyStr} :
    validateReserved value = .ok () ↔
      ¬ str "H_" <+: value ∧ ¬ str "S_" <+: value := by
  unfold validateReserved
  rw [← not_or, ← List.isPrefixOf_iff_prefix, ← List.isPrefixOf_iff_prefix,
    ← Bool.or_eq_true]
  split
  · rename_i h
    exact iff_of_false nofun (not_not.mpr h)
  · rename_i h
    exact iff_of_true rfl h

namespace HashExcessLengthStrategy

variable {strategy : HashExcessLengthStrategy} {sha256 : Sha256}
  {value r : PyStr}

def FitsLimit (strategy : HashExcessLengthStrategy) (value : PyStr) : Prop :=
  2 ≤ strategy.maxLength ∨ (value.length : Int) ≤ strategy.maxLength

theorem sanitize_eq_ok (h : strategy.sanitize sha256 value = .ok r) :
    (value.length : Int) ≤ strategy.maxLength ∧ r = value ∨
      strategy.maxLength < value.length ∧ ∃ encoded,
        encode value = .ok encoded ∧
        r = str "H_" ++
          (sha256 encoded).fragment (strategy.maxLength - 2) := by
  unfold sanitize at h
  split at h
  · rename_i hlong
    cases hencode : encode value with
    | error error =>
        rw [hencode] at h
        cases h
    | ok encoded =>
        rw [hencode] at h
        cases h
        exact .inr ⟨hlong, encoded, rfl, rfl⟩
  · rename_i hshort
    cases h
    exact .inl ⟨Int.not_lt.mp hshort, rfl⟩

theorem length_le_iff (h : strategy.sanitize sha256 value = .ok r) :
    (r.length : Int) ≤ strategy.maxLength ↔ strategy.FitsLimit value := by
  unfold FitsLimit
  rcases sanitize_eq_ok h with ⟨hshort, rfl⟩ | ⟨hlong, encoded, -, rfl⟩
  · exact iff_of_true hshort (.inr hshort)
  · have hdigits := (sha256 encoded).length_fragment (strategy.maxLength - 2)
    have hreserved : (str "H_").length = 2 := by decide
    rw [List.length_append, hreserved]
    split at hdigits
    · omega
    · omega

theorem unchanged_or_reserved (h : strategy.sanitize sha256 value = .ok r) :
    r = value ∨ str "H_" <+: r := by
  rcases sanitize_eq_ok h with ⟨-, rfl⟩ | ⟨-, encoded, -, rfl⟩
  · exact .inl rfl
  · exact .inr (List.prefix_append _ _)

theorem sanitize_returns {bytes : List UInt8} (h : encode value = .ok bytes) :
    ∃ r, strategy.sanitize sha256 value = .ok r := by
  unfold sanitize
  split
  · exact ⟨_, by rw [h]; rfl⟩
  · exact ⟨_, rfl⟩

end HashExcessLengthStrategy

namespace HybridSanitizationStrategy

variable {strategy : HybridSanitizationStrategy} {sha256 : Sha256}
  {value sanitized r : PyStr}

/-- With a hash, start, hyphen and fragment have room and nothing of the name
is counted from its end; without, a start of two characters has room, or is
not needed. -/
def FitsLimit (strategy : HybridSanitizationStrategy) (value : PyStr) : Prop :=
  let length := ((strategy.sanitizeCharacters value).length : Int)
  if strategy.addHash value then
    if 0 ≤ strategy.hashFragmentLength then
      3 + min strategy.hashFragmentLength 64 ≤ strategy.maxLength ∧
        (3 + strategy.hashFragmentLength ≤ strategy.maxLength ∨
          length + 64 ≤ strategy.hashFragmentLength)
    else
      length + 3 + max 0 (64 + strategy.hashFragmentLength) ≤
        strategy.maxLength
  else
    2 ≤ strategy.maxLength ∨
      strategy.sanitizeCharacters value = value ∧
        length ≤ strategy.maxLength

theorem length_hashed_le_iff (digest : HexDigest) :
    ((strategy.hashed (digest.fragment strategy.hashFragmentLength)
        sanitized).length : Int) ≤ strategy.maxLength ↔
      if 0 ≤ strategy.hashFragmentLength then
        3 + min strategy.hashFragmentLength 64 ≤ strategy.maxLength ∧
          (3 + strategy.hashFragmentLength ≤ strategy.maxLength ∨
            (sanitized.length : Int) + 64 ≤ strategy.hashFragmentLength)
      else
        (sanitized.length : Int) + 3 +
          max 0 (64 + strategy.hashFragmentLength) ≤ strategy.maxLength := by
  have hdigits := digest.length_fragment strategy.hashFragmentLength
  have hcut := length_sliceTo
    (strategy.maxLength - (2 + 1 + strategy.hashFragmentLength)) sanitized
  have hreserved : (str "S_").length = 2 := by decide
  have hhyphen : (str "-").length = 1 := by decide
  simp only [hashed, List.length_append, hreserved, hhyphen]
  by_cases hsize : 0 ≤ strategy.hashFragmentLength
  · rw [if_pos hsize] at hdigits ⊢
    split
    · split at hcut
      · omega
      · omega
    · omega
  · rw [if_neg hsize] at hdigits ⊢
    split
    · split at hcut
      · omega
      · omega
    · omega

theorem length_plain_le_iff :
    ((strategy.plain value sanitized).length : Int) ≤ strategy.maxLength ↔
      2 ≤ strategy.maxLength ∨
        sanitized = value ∧ (sanitized.length : Int) ≤ strategy.maxLength := by
  have hcut := length_sliceTo strategy.maxLength sanitized
  have hreserved : (str "S_").length = 2 := by decide
  have hrest (xs : PyStr) :
      ((str "S_" ++ xs).length : Int) = 2 + xs.length := by
    rw [List.length_append, hreserved]
    omega
  unfold plain
  by_cases hlong : (sanitized.length : Int) > strategy.maxLength
  · have hcut' := length_sliceTo (strategy.maxLength - 2)
      (sliceTo strategy.maxLength sanitized)
    simp only [hlong, decide_true, Bool.true_or, if_true]
    split
    · rw [hrest]
      split at hcut'
      · omega
      · omega
    · rw [hrest] at *
      omega
  · have hcut' := length_sliceTo (strategy.maxLength - 2) sanitized
    simp only [hlong, decide_false, Bool.false_or, Bool.false_eq_true, if_false]
    by_cases hsame : sanitized = value
    · simp only [hsame, ne_eq, not_true, decide_false, Bool.false_eq_true,
        if_false]
      rw [hsame] at hlong
      exact iff_of_true (by omega) (.inr ⟨trivial, by omega⟩)
    · simp only [hsame, ne_eq, not_false_iff, decide_true, if_true, false_and,
        or_false]
      split
      · rw [hrest]
        split at hcut'
        · omega
        · omega
      · rw [hrest] at *
        omega

theorem sanitize_eq_ok (h : strategy.sanitize sha256 value = .ok r) :
    strategy.addHash value = true ∧ (∃ encoded, encode value = .ok encoded ∧
        r = strategy.hashed
          ((sha256 encoded).fragment strategy.hashFragmentLength)
          (strategy.sanitizeCharacters value)) ∨
      ¬ strategy.addHash value = true ∧
        r = strategy.plain value (strategy.sanitizeCharacters value) := by
  unfold sanitize at h
  split at h
  · rename_i hhash
    cases hencode : encode value with
    | error error =>
        rw [hencode] at h
        cases h
    | ok encoded =>
        rw [hencode] at h
        cases h
        exact .inl ⟨hhash, encoded, rfl, rfl⟩
  · rename_i hhash
    cases h
    exact .inr ⟨hhash, rfl⟩

theorem length_le_iff (h : strategy.sanitize sha256 value = .ok r) :
    (r.length : Int) ≤ strategy.maxLength ↔ strategy.FitsLimit value := by
  unfold FitsLimit
  rcases sanitize_eq_ok h with ⟨hhash, encoded, -, rfl⟩ | ⟨hhash, rfl⟩
  · rw [if_pos hhash]
    exact length_hashed_le_iff (sha256 encoded)
  · rw [if_neg hhash]
    exact length_plain_le_iff

theorem plain_unchanged_or_reserved :
    strategy.plain value sanitized = value ∨
      str "S_" <+: strategy.plain value sanitized := by
  have hreserved (kept : PyStr) : str "S_" <+:
      if ((str "S_" ++ kept).length : Int) > strategy.maxLength then
        str "S_" ++ sliceTo (strategy.maxLength - 2) kept
      else str "S_" ++ kept := by
    split
    · exact List.prefix_append _ _
    · exact List.prefix_append _ _
  unfold plain
  dsimp only
  split
  · exact .inr (hreserved _)
  · rename_i hchanged
    rw [Bool.or_eq_true, not_or, decide_eq_true_iff, decide_eq_true_iff,
      not_not] at hchanged
    left
    rw [if_neg (by rw [decide_eq_true_iff]; exact hchanged.1)]
    exact hchanged.2

theorem unchanged_or_reserved (h : strategy.sanitize sha256 value = .ok r) :
    r = value ∨ str "S_" <+: r := by
  rcases sanitize_eq_ok h with ⟨-, encoded, -, rfl⟩ | ⟨-, rfl⟩
  · simp only [hashed, List.append_assoc]
    exact .inr (List.prefix_append _ _)
  · exact plain_unchanged_or_reserved

theorem sanitize_returns {bytes : List UInt8} (h : encode value = .ok bytes) :
    ∃ r, strategy.sanitize sha256 value = .ok r := by
  unfold sanitize
  split
  · exact ⟨_, by rw [h]; rfl⟩
  · exact ⟨_, rfl⟩

end HybridSanitizationStrategy

theorem ne_of_reserved {value r accepted : PyStr}
    (h : r = value ∨ str "H_" <+: r ∨ str "S_" <+: r) (hchanged : r ≠ value)
    (haccepted : validateReserved accepted = .ok ()) : r ≠ accepted := by
  rintro rfl
  obtain ⟨hhashed, hsanitized⟩ := validateReserved_eq_ok.mp haccepted
  rcases h with hsame | hstart | hstart
  · exact hchanged hsame
  · exact hhashed hstart
  · exact hsanitized hstart

/-- When the strategies keep their limits; they never change a name into one
that they accept. -/
theorem strategies_within_iff (sha256 : Sha256) (value : PyStr) :
    (∀ strategy : HashExcessLengthStrategy,
      ((∃ bytes, encode value = .ok bytes) →
        ∃ r, strategy.sanitize sha256 value = .ok r) ∧
      ∀ r, strategy.sanitize sha256 value = .ok r →
        ((r.length : Int) ≤ strategy.maxLength ↔ strategy.FitsLimit value) ∧
        (r = value ∨ str "H_" <+: r) ∧
        (r ≠ value → ∀ accepted,
          HashExcessLengthStrategy.validate accepted = .ok () →
            r ≠ accepted)) ∧
    ∀ strategy : HybridSanitizationStrategy,
      ((∃ bytes, encode value = .ok bytes) →
        ∃ r, strategy.sanitize sha256 value = .ok r) ∧
      ∀ r, strategy.sanitize sha256 value = .ok r →
        ((r.length : Int) ≤ strategy.maxLength ↔ strategy.FitsLimit value) ∧
        (r = value ∨ str "S_" <+: r) ∧
        (r ≠ value → ∀ accepted,
          HybridSanitizationStrategy.validate accepted = .ok () →
            r ≠ accepted) := by
  constructor
  · refine fun strategy => ⟨fun ⟨bytes, h⟩ =>
      HashExcessLengthStrategy.sanitize_returns h, fun r h => ?_⟩
    have hstart := HashExcessLengthStrategy.unchanged_or_reserved h
    exact ⟨HashExcessLengthStrategy.length_le_iff h, hstart,
      fun hchanged accepted =>
        ne_of_reserved (hstart.imp_right .inl) hchanged⟩
  · refine fun strategy => ⟨fun ⟨bytes, h⟩ =>
      HybridSanitizationStrategy.sanitize_returns h, fun r h => ?_⟩
    have hstart := HybridSanitizationStrategy.unchanged_or_reserved h
    exact ⟨HybridSanitizationStrategy.length_le_iff h, hstart,
      fun hchanged accepted =>
        ne_of_reserved (hstart.imp_right .inr) hchanged⟩

def digestOfAbc : HexDigest where
  digits :=
    "53e0eff3204626f3e256ca636572d7ccdf8eb5a190c9defa3fa567bc63866b76".toList
  length_digits := by decide
  hex_digits c hc := List.contains_iff_mem.mp
    (List.all_eq_true.mp (by decide +kernel : (List.all _ fun c =>
      Hex.alphabet.contains c) = true) c hc)

def narrowStrategy : HybridSanitizationStrategy where
  maxLength := 10
  allowedCharacters := some (str "abc")

/-- Start, hyphen and fragment take eleven characters. -/
theorem fragment_outgrows_limit :
    ∃ r, narrowStrategy.sanitize (fun _ => digestOfAbc) (str "abc!") = .ok r ∧
      r = str "S_abc-53e0eff3" ∧
      ¬ (r.length : Int) ≤ narrowStrategy.maxLength :=
  ⟨_, by decide +kernel, rfl, by decide⟩

theorem strategies_within_iff_narrow :
    (((str "S_abc-53e0eff3").length : Int) ≤ narrowStrategy.maxLength ↔
        narrowStrategy.FitsLimit (str "abc!")) ∧
      (str "S_abc-53e0eff3" = str "abc!" ∨
        str "S_" <+: str "S_abc-53e0eff3") := by
  have h := ((strategies_within_iff (fun _ => digestOfAbc) (str "abc!")).2
    narrowStrategy).2 (str "S_abc-53e0eff3") (by decide +kernel)
  exact ⟨h.1, h.2.1⟩

end OpenKeyV.Python
