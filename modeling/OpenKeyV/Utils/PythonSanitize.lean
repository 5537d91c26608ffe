import OpenKeyV.Python.Text

/-!
# Sanitised names of the Python package

`_utils/sanitize.py`: names are cut to a length, in characters or in bytes,
and a fragment of a hash can be put behind what is left.
-/

namespace OpenKeyV.Python

open Library

def minimumMaxLength : Int := 16

abbrev Sha256 := List UInt8 → HexDigest

def generateHashFragment (sha256 : Sha256) (value : PyStr) (size : Int) :
    Except TextError PyStr := do
  let encoded ← encode value
  return (sha256 encoded).fragment size

inductive HashFragmentMode where
  | always
  | never
  | onlyIfChanged
  deriving DecidableEq, Repr

def replaceEach (allowedCharacters replaceWith : PyStr) :
    PyStr → PyStr → Bool → PyStr × Bool
  | [], newValue, lastCharWasReplaced => (newValue, lastCharWasReplaced)
  | char :: rest, newValue, lastCharWasReplaced =>
      if char ∈ allowedCharacters then
        replaceEach allowedCharacters replaceWith rest (newValue ++ [char])
          false
      else if lastCharWasReplaced then
        replaceEach allowedCharacters replaceWith rest newValue true
      else
        replaceEach allowedCharacters replaceWith rest
          (newValue ++ replaceWith) true

def sanitizeCharactersInString (value allowedCharacters replaceWith : PyStr) :
    PyStr :=
  let (newValue, lastCharWasReplaced) :=
    replaceEach allowedCharacters replaceWith value [] false
  if newValue.length = 1 ∧ lastCharWasReplaced then [] else newValue

def truncateLoop (value : PyStr) (maxBytes left right : Int) (result : PyStr) :
    Except TextError PyStr :=
  if left ≤ right then
    let mid := (left + right) / 2
    let candidate := sliceTo mid value
    match encode candidate with
    | .error error => .error error
    | .ok encoded =>
        if (encoded.length : Int) ≤ maxBytes then
          truncateLoop value maxBytes (mid + 1) right candidate
        else truncateLoop value maxBytes left (mid - 1) result
  else .ok result
termination_by (right + 1 - left).toNat

def truncateToBytes (value : PyStr) (maxBytes : Int) :
    Except TextError PyStr := do
  let encoded ← encode value
  if (encoded.length : Int) ≤ maxBytes then return value
  else truncateLoop value maxBytes 0 value.length []

structure SanitizeArgs where
  maxLength : Int
  allowedCharacters : Option PyStr := none
  replacementCharacter : PyStr := str "_"
  hashFragmentSeparator : PyStr := str "-"
  hashFragmentMode : HashFragmentMode := .onlyIfChanged
  hashFragmentLength : Int := 8
  lengthIsBytes : Bool := false

def truncate (lengthIsBytes : Bool) (value : PyStr) (maxLength : Int) :
    Except TextError PyStr :=
  if lengthIsBytes then truncateToBytes value maxLength
  else .ok (sliceTo maxLength value)

def lengthIn (lengthIsBytes : Bool) (value : PyStr) : Except TextError Nat :=
  if lengthIsBytes then (encode value).map List.length else .ok value.length

namespace SanitizeArgs

variable (args : SanitizeArgs)

/-- No replacement without allowed characters, nor with an empty string. -/
def sanitizeCharacters (value : PyStr) : PyStr :=
  match args.allowedCharacters with
  | some (c :: rest) =>
      sanitizeCharactersInString value (c :: rest) args.replacementCharacter
  | some [] | none => value

def withFragment (hashFragment : PyStr) (hashFragmentSizeRequired : Nat)
    (sanitizedValue : PyStr) : Except TextError PyStr := do
  let actualMaxLength := args.maxLength - hashFragmentSizeRequired
  let kept ← truncate args.lengthIsBytes sanitizedValue actualMaxLength
  if kept = [] then return hashFragment
  else return kept ++ args.hashFragmentSeparator ++ hashFragment

end SanitizeArgs

def sanitizeString (sha256 : Sha256) (args : SanitizeArgs) (value : PyStr) :
    Except TextError PyStr := do
  if args.maxLength < minimumMaxLength then
    throw (.valueError s!"max_length must be greater than or equal to {
      minimumMaxLength}")
  else if args.hashFragmentLength > args.maxLength / 2 then
    throw (.valueError ("hash_fragment_length must be less than or equal to " ++
      "half of max_length"))
  else
    let hashFragment ← generateHashFragment sha256 value args.hashFragmentLength
    let hashFragmentSizeRequired ← lengthIn args.lengthIsBytes
      (args.hashFragmentSeparator ++ hashFragment)
    let sanitizedValue := args.sanitizeCharacters value
    match args.hashFragmentMode with
    | .always =>
        args.withFragment hashFragment hashFragmentSizeRequired sanitizedValue
    | .onlyIfChanged => do
        let sanitizedValue ←
          truncate args.lengthIsBytes sanitizedValue args.maxLength
        if value = sanitizedValue then return value
        else
          args.withFragment hashFragment hashFragmentSizeRequired sanitizedValue
    | .never =>
        if sanitizedValue = [] then
          throw (.valueError ("Entire value was sanitized and " ++
            "hash_fragment_mode is HashFragmentMode.NEVER"))
        else truncate args.lengthIsBytes sanitizedValue args.maxLength

def hashExcessLength (sha256 : Sha256) (value : PyStr) (maxLength : Int)
    (lengthIsBytes : Bool) : Except TextError PyStr := do
  if maxLength < minimumMaxLength then
    throw (.valueError s!"max_length must be greater than or equal to {
      minimumMaxLength}")
  else
    let currentLength ← lengthIn lengthIsBytes value
    if (currentLength : Int) ≤ maxLength then return value
    else
      let truncatedValue ← truncate lengthIsBytes value (maxLength - 8)
      let encoded ← encode value
      return truncatedValue ++ (sha256 encoded).fragment 8

/-! ## Cutting -/

section Truncate

variable {value start : PyStr} {bytes : List UInt8} {maxBytes : Int}

/-- The loop is a search among the starts of the value. -/
theorem truncateLoop_eq (h : encode value = .ok bytes) (left right : Int)
    (result : PyStr) :
    truncateLoop value maxBytes left right result =
      .ok (bisect (fun mid => sliceTo mid value)
        (fun candidate => decide ((total byteWidth candidate : Int) ≤ maxBytes))
        left right result) := by
  fun_induction truncateLoop value maxBytes left right result with
  | case1 left right result hle mid candidate error herror =>
      obtain ⟨bytes', hbytes'⟩ := encode_of_start h (sliceTo_start mid value)
      rw [hbytes'] at herror
      cases herror
  | case2 left right result hle mid candidate encoded hencoded hfits ih =>
      rw [length_of_encode hencoded] at hfits
      rw [ih]
      conv_rhs => rw [bisect, if_pos hle]
      simp only [mid, candidate] at hfits ⊢
      rw [if_pos (decide_eq_true hfits)]
  | case3 left right result hle mid candidate encoded hencoded hfits ih =>
      rw [length_of_encode hencoded] at hfits
      rw [ih]
      conv_rhs => rw [bisect, if_pos hle]
      simp only [mid, candidate] at hfits ⊢
      rw [if_neg fun hpasses => hfits (of_decide_eq_true hpasses)]
  | case4 left right result hle =>
      rw [bisect, if_neg hle]

theorem truncateToBytes_eq (h : encode value = .ok bytes) (n : Nat) :
    truncateToBytes value n = .ok (fitting byteWidth n value) := by
  simp only [truncateToBytes, h, bind, Except.bind, length_of_encode h]
  split
  · rename_i hfits
    rw [fitting_eq_self (Int.ofNat_le.mp hfits)]
    rfl
  · rename_i hfits
    have hlength := (@fitting_start _ byteWidth n value).length_le
    have hfound : bisect (fun mid => sliceTo mid value)
        (fun candidate => decide ((total byteWidth candidate : Int) ≤ n))
        0 value.length [] =
          if (0 : Int) ≤ (fitting byteWidth n value).length then
            sliceTo (fitting byteWidth n value).length value else [] := by
      refine bisect_eq (by omega) (by omega) fun i hi hi' => ?_
      obtain ⟨k, rfl⟩ := Int.eq_ofNat_of_zero_le hi
      rw [decide_eq_true_iff, sliceTo_natCast, Int.ofNat_le, Int.ofNat_le]
      exact total_take_le_iff (Int.ofNat_le.mp hi')
    rw [truncateLoop_eq h, hfound, if_pos (Int.natCast_nonneg _),
      sliceTo_natCast, take_length_fitting]

theorem truncateToBytes_of_neg (h : encode value = .ok bytes)
    (hneg : maxBytes < 0) : truncateToBytes value maxBytes = .ok [] := by
  have hfound : bisect (fun mid => sliceTo mid value)
      (fun candidate => decide ((total byteWidth candidate : Int) ≤ maxBytes))
      0 value.length [] =
        if (0 : Int) ≤ -1 then sliceTo (-1) value else [] := by
    refine bisect_eq (by omega) (by omega) fun i hi _ => ?_
    rw [decide_eq_true_iff]
    omega
  simp only [truncateToBytes, h, bind, Except.bind]
  rw [if_neg (by omega), truncateLoop_eq h, hfound]
  rfl

theorem truncate_to_bytes_exact (value : List Char) (maxBytes : Nat) :
    ∃ result : List Char,
      truncateToBytes (value.map .scalar) maxBytes =
        .ok (result.map .scalar) ∧
      result <+: value ∧
      (utf8 (String.ofList result)).length ≤ maxBytes ∧
      ∀ start : List Char, start <+: value →
        (utf8 (String.ofList start)).length ≤ maxBytes →
          start.length ≤ result.length := by
  have hencode : encode (value.map .scalar) =
      .ok (utf8 (String.ofList value)) := encode_eq_ok.mpr ⟨value, rfl, rfl⟩
  refine ⟨fitting Char.utf8Size maxBytes value, ?_, fitting_start, ?_, ?_⟩
  · rw [truncateToBytes_eq hencode, fitting_map]
    rfl
  · rw [length_utf8_ofList]
    exact total_fitting
  · intro start hstart hfits
    rw [length_utf8_ofList] at hfits
    exact (prefix_fitting hstart hfits).length_le

end Truncate

/-! ## Lengths -/

def unitWidth (lengthIsBytes : Bool) : CodePoint → Nat :=
  if lengthIsBytes then byteWidth else fun _ => 1

def Countable (lengthIsBytes : Bool) (value : PyStr) : Prop :=
  lengthIsBytes = true → ∃ bytes, encode value = .ok bytes

def Within (lengthIsBytes : Bool) (maxLength : Int) (value : PyStr) : Prop :=
  ∃ n, lengthIn lengthIsBytes value = .ok n ∧ (n : Int) ≤ maxLength

section Lengths

variable {lengthIsBytes : Bool} {value kept r : PyStr} {n : Nat}
  {maxLength : Int}

theorem lengthIn_eq_ok :
    lengthIn lengthIsBytes value = .ok n ↔
      Countable lengthIsBytes value ∧
        n = total (unitWidth lengthIsBytes) value := by
  cases lengthIsBytes with
  | false =>
      have hlength : total (unitWidth false) value = value.length :=
        total_eq_length fun _ _ => rfl
      rw [hlength]
      constructor
      · intro h
        cases h
        exact ⟨nofun, rfl⟩
      · rintro ⟨-, rfl⟩
        rfl
  | true =>
      constructor
      · intro h
        cases hencode : encode value with
        | error error =>
            simp only [lengthIn, hencode, Except.map, if_true] at h
            cases h
        | ok bytes =>
            simp only [lengthIn, hencode, Except.map, if_true] at h
            cases h
            exact ⟨fun _ => ⟨bytes, hencode⟩, length_of_encode hencode⟩
      · rintro ⟨hcountable, rfl⟩
        obtain ⟨bytes, hbytes⟩ := hcountable rfl
        rw [lengthIn, if_pos rfl, hbytes]
        exact congrArg Except.ok (length_of_encode hbytes)

theorem within_iff (h : Countable lengthIsBytes value) :
    Within lengthIsBytes maxLength value ↔
      (total (unitWidth lengthIsBytes) value : Int) ≤ maxLength := by
  constructor
  · rintro ⟨n, hn, hle⟩
    rwa [(lengthIn_eq_ok.mp hn).2] at hle
  · exact fun hle => ⟨_, lengthIn_eq_ok.mpr ⟨h, rfl⟩, hle⟩

theorem Countable.of_start (h : Countable lengthIsBytes value)
    (hstart : kept <+: value) : Countable lengthIsBytes kept := by
  intro hbytes
  obtain ⟨bytes, hencode⟩ := h hbytes
  exact encode_of_start hencode hstart

theorem Countable.append {first second : PyStr}
    (hfirst : Countable lengthIsBytes first)
    (hsecond : Countable lengthIsBytes second) :
    Countable lengthIsBytes (first ++ second) := by
  intro hbytes
  obtain ⟨bytes, hencode⟩ := hfirst hbytes
  obtain ⟨bytes', hencode'⟩ := hsecond hbytes
  exact ⟨_, encode_append hencode hencode'⟩

theorem Countable.of_append {first second : PyStr}
    (h : Countable lengthIsBytes (first ++ second)) :
    Countable lengthIsBytes first :=
  h.of_start (List.prefix_append _ _)

theorem fitting_characters :
    fitting (unitWidth false) n value = value.take n :=
  fitting_eq_take fun _ _ => rfl

theorem truncate_eq_ok
    (h : truncate lengthIsBytes value maxLength = .ok kept) :
    Countable lengthIsBytes value ∧
      kept = if 0 ≤ maxLength then
          fitting (unitWidth lengthIsBytes) maxLength.toNat value
        else if lengthIsBytes then []
        else value.take (value.length + maxLength).toNat := by
  cases lengthIsBytes with
  | false =>
      cases h
      refine ⟨nofun, ?_⟩
      unfold sliceTo
      split
      · exact fitting_characters.symm
      · rfl
  | true =>
      rw [truncate, if_pos rfl] at h
      cases hencode : encode value with
      | error error =>
          simp only [truncateToBytes, hencode] at h
          cases h
      | ok bytes =>
          refine ⟨fun _ => ⟨bytes, hencode⟩, ?_⟩
          split
          · rename_i hnonneg
            obtain ⟨n, rfl⟩ := Int.eq_ofNat_of_zero_le hnonneg
            rw [truncateToBytes_eq hencode] at h
            exact (Except.ok.inj h).symm
          · rename_i hneg
            rw [truncateToBytes_of_neg hencode (by omega)] at h
            exact (Except.ok.inj h).symm

theorem truncate_start
    (h : truncate lengthIsBytes value maxLength = .ok kept) :
    kept <+: value := by
  rw [(truncate_eq_ok h).2]
  split
  · exact fitting_start
  · split
    · exact List.nil_prefix
    · exact List.take_prefix _ _

theorem truncate_within (hlimit : 0 ≤ maxLength)
    (h : truncate lengthIsBytes value maxLength = .ok kept) :
    Within lengthIsBytes maxLength kept := by
  obtain ⟨hcountable, hkept⟩ := truncate_eq_ok h
  rw [if_pos hlimit] at hkept
  subst hkept
  rw [within_iff (hcountable.of_start fitting_start)]
  have hbudget := @total_fitting _ (unitWidth lengthIsBytes) maxLength.toNat
    value
  omega

end Lengths

/-! ## Where a fragment fits -/

def fragmentLength (size : Int) : Int :=
  if 0 ≤ size then min size 64 else max 0 (64 + size)

namespace SanitizeArgs

variable (args : SanitizeArgs)

def required : Int :=
  total (unitWidth args.lengthIsBytes) args.hashFragmentSeparator +
    fragmentLength args.hashFragmentLength

/-- There is room for the separator and the fragment, or for the fragment
alone where nothing is left of so many characters. -/
def FragmentFits (characters : Int) : Prop :=
  args.required ≤ args.maxLength ∨
    fragmentLength args.hashFragmentLength ≤ args.maxLength ∧
      (args.lengthIsBytes = true ∨
        characters + args.maxLength ≤ args.required)

def FitsLimit (value : PyStr) : Prop :=
  match args.hashFragmentMode with
  | .never => True
  | .always => args.FragmentFits (args.sanitizeCharacters value).length
  | .onlyIfChanged =>
      fitting (unitWidth args.lengthIsBytes) args.maxLength.toNat
          (args.sanitizeCharacters value) = value ∨
        args.FragmentFits
          (min (args.sanitizeCharacters value).length args.maxLength)

variable {args} {sha256 : Sha256} {value sanitized fragment r : PyStr}
  {size : Nat}

theorem total_unitWidth_fragment (digest : HexDigest) (lengthIsBytes : Bool)
    (stop : Int) :
    (total (unitWidth lengthIsBytes) (digest.fragment stop) : Int) =
      fragmentLength stop := by
  rw [fragmentLength, ← digest.length_fragment]
  cases lengthIsBytes with
  | false => exact congrArg Nat.cast (total_eq_length fun _ _ => rfl)
  | true => exact congrArg Nat.cast (digest.total_fragment stop)

theorem withFragment_eq_ok
    (h : args.withFragment fragment size sanitized = .ok r) :
    ∃ kept, truncate args.lengthIsBytes sanitized (args.maxLength - size) =
        .ok kept ∧
      (kept = [] ∧ r = fragment ∨
        kept ≠ [] ∧ r = kept ++ args.hashFragmentSeparator ++ fragment) := by
  unfold withFragment at h
  cases hkept : truncate args.lengthIsBytes sanitized
      (args.maxLength - size) with
  | error error =>
      simp only [hkept, bind, Except.bind] at h
      cases h
  | ok kept =>
      simp only [hkept, bind, Except.bind] at h
      refine ⟨kept, rfl, ?_⟩
      split at h
      · rename_i hempty
        cases h
        exact .inl ⟨hempty, rfl⟩
      · rename_i hkept
        cases h
        exact .inr ⟨hkept, rfl⟩

theorem withFragment_within (digest : HexDigest)
    (hsize : lengthIn args.lengthIsBytes (args.hashFragmentSeparator ++
      digest.fragment args.hashFragmentLength) = .ok size)
    (h : args.withFragment (digest.fragment args.hashFragmentLength) size
      sanitized = .ok r) :
    Within args.lengthIsBytes args.maxLength r ↔
      args.FragmentFits sanitized.length := by
  obtain ⟨hboth, hrequired⟩ := lengthIn_eq_ok.mp hsize
  have hdigits := total_unitWidth_fragment digest args.lengthIsBytes
    args.hashFragmentLength
  have hfragment : Countable args.lengthIsBytes
      (digest.fragment args.hashFragmentLength) :=
    fun _ => digest.encode_fragment _
  have hsum : args.required = size := by
    rw [hrequired, total_append, required, ← hdigits]
    exact (Int.natCast_add _ _).symm
  obtain ⟨kept, htruncate, hr⟩ := withFragment_eq_ok h
  obtain ⟨hsanitized, hkept⟩ := truncate_eq_ok htruncate
  have hprefix : kept <+: sanitized := truncate_start htruncate
  unfold FragmentFits
  rw [hsum]
  rcases hr with ⟨rfl, rfl⟩ | ⟨hne, rfl⟩
  · rw [within_iff hfragment, hdigits]
    constructor
    · intro hfits
      by_cases hroom : (size : Int) ≤ args.maxLength
      · exact .inl hroom
      · refine .inr ⟨hfits, ?_⟩
        rw [if_neg (by omega)] at hkept
        split at hkept
        · rename_i hbytes
          exact .inl hbytes
        · have hlength := congrArg List.length hkept
          rw [List.length_nil, List.length_take] at hlength
          exact .inr (by omega)
    · rintro (hroom | ⟨hfits, -⟩)
      · have hseparator := Int.natCast_nonneg (total
          (unitWidth args.lengthIsBytes) args.hashFragmentSeparator)
        rw [required] at hsum
        omega
      · exact hfits
  · have hcountable : Countable args.lengthIsBytes
        (kept ++ args.hashFragmentSeparator ++
          digest.fragment args.hashFragmentLength) :=
      (((hsanitized.of_start hprefix).append hboth.of_append).append
        hfragment)
    rw [within_iff hcountable, List.append_assoc, total_append, ← hrequired,
      Int.natCast_add]
    by_cases hroom : (size : Int) ≤ args.maxLength
    · rw [if_pos (by omega)] at hkept
      have hbudget := @total_fitting _ (unitWidth args.lengthIsBytes)
        (args.maxLength - size).toNat sanitized
      rw [← hkept] at hbudget
      exact iff_of_true (by omega) (.inl hroom)
    · rw [if_neg (by omega)] at hkept
      split at hkept
      · exact absurd hkept hne
      · rename_i hbytes
        have hone : total (unitWidth args.lengthIsBytes) kept =
            kept.length := by
          rw [Bool.not_eq_true] at hbytes
          rw [hbytes]
          exact total_eq_length fun _ _ => rfl
        have hlength := congrArg List.length hkept
        have hpos := List.length_pos_of_ne_nil hne
        rw [List.length_take] at hlength
        refine iff_of_false (by omega) ?_
        rintro (hfits | ⟨-, hbytes' | hfits⟩)
        · exact hroom hfits
        · exact hbytes hbytes'
        · omega

/-- What is kept is a start of the value with its characters replaced. -/
def KeepsStart (args : SanitizeArgs) (sha256 : Sha256) (value r : PyStr) :
    Prop :=
  ∃ encoded kept, encode value = .ok encoded ∧
    kept <+: args.sanitizeCharacters value ∧
    let fragment := (sha256 encoded).fragment args.hashFragmentLength
    (r = kept ∧ (args.hashFragmentMode = .never ∨ r = value) ∨
      args.hashFragmentMode ≠ .never ∧
        (kept = [] ∧ r = fragment ∨
          kept ≠ [] ∧ r = kept ++ args.hashFragmentSeparator ++ fragment))

theorem sanitizeString_eq_ok (h : sanitizeString sha256 args value = .ok r) :
    minimumMaxLength ≤ args.maxLength ∧ ∃ encoded size,
      encode value = .ok encoded ∧
      lengthIn args.lengthIsBytes (args.hashFragmentSeparator ++
        (sha256 encoded).fragment args.hashFragmentLength) = .ok size ∧
      match args.hashFragmentMode with
      | .always =>
          args.withFragment
            ((sha256 encoded).fragment args.hashFragmentLength) size
            (args.sanitizeCharacters value) = .ok r
      | .onlyIfChanged => ∃ sanitized,
          truncate args.lengthIsBytes (args.sanitizeCharacters value)
            args.maxLength = .ok sanitized ∧
          (value = sanitized ∧ r = value ∨ value ≠ sanitized ∧
            args.withFragment
              ((sha256 encoded).fragment args.hashFragmentLength) size
              sanitized = .ok r)
      | .never =>
          truncate args.lengthIsBytes (args.sanitizeCharacters value)
            args.maxLength = .ok r := by
  unfold sanitizeString at h
  split at h
  · cases h
  · rename_i hlimit
    refine ⟨Int.not_lt.mp hlimit, ?_⟩
    split at h
    · cases h
    · cases hencode : encode value with
      | error error =>
          simp only [generateHashFragment, hencode, bind, Except.bind] at h
          cases h
      | ok encoded =>
          simp only [generateHashFragment, hencode, bind, Except.bind,
            pure, Except.pure] at h
          cases hsize : lengthIn args.lengthIsBytes
              (args.hashFragmentSeparator ++
                (sha256 encoded).fragment args.hashFragmentLength) with
          | error error =>
              simp only [hsize] at h
              cases h
          | ok size =>
              simp only [hsize] at h
              refine ⟨encoded, size, rfl, hsize, ?_⟩
              cases hmode : args.hashFragmentMode with
              | always =>
                  simp only [hmode] at h
                  exact h
              | never =>
                  simp only [hmode] at h
                  split at h
                  · cases h
                  · exact h
              | onlyIfChanged =>
                  simp only [hmode] at h
                  cases hcut : truncate args.lengthIsBytes
                      (args.sanitizeCharacters value) args.maxLength with
                  | error error =>
                      simp only [hcut] at h
                      cases h
                  | ok sanitized =>
                      simp only [hcut] at h
                      refine ⟨sanitized, rfl, ?_⟩
                      split at h
                      · rename_i hsame
                        cases h
                        exact .inl ⟨hsame, rfl⟩
                      · rename_i hchanged
                        exact .inr ⟨hchanged, h⟩

theorem fragmentFits_congr {n m : Int}
    (h : args.lengthIsBytes = false → n = m) :
    args.FragmentFits n ↔ args.FragmentFits m := by
  unfold FragmentFits
  cases hbytes : args.lengthIsBytes with
  | false => rw [h hbytes]
  | true => simp only [true_or]

theorem within_iff_fitsLimit
    (h : sanitizeString sha256 args value = .ok r) :
    Within args.lengthIsBytes args.maxLength r ↔ args.FitsLimit value := by
  obtain ⟨hlimit, encoded, size, hencode, hsize, hmode⟩ :=
    sanitizeString_eq_ok h
  have hnonneg : 0 ≤ args.maxLength := by
    rw [minimumMaxLength] at hlimit
    omega
  unfold FitsLimit
  cases hcase : args.hashFragmentMode with
  | never =>
      simp only [hcase] at hmode
      exact iff_of_true (truncate_within hnonneg hmode) trivial
  | always =>
      simp only [hcase] at hmode
      exact withFragment_within (sha256 encoded) hsize hmode
  | onlyIfChanged =>
      simp only [hcase] at hmode
      obtain ⟨sanitized, htruncate, hresult⟩ := hmode
      have hsanitized := (truncate_eq_ok htruncate).2
      rw [if_pos hnonneg] at hsanitized
      rcases hresult with ⟨hsame, rfl⟩ | ⟨hchanged, hfragment⟩
      · have hwithin := truncate_within hnonneg htruncate
        rw [← hsame] at hwithin
        exact iff_of_true hwithin (.inl (hsanitized.symm.trans hsame.symm))
      · rw [withFragment_within (sha256 encoded) hsize hfragment,
          or_iff_right fun hsame => hchanged (hsame.symm.trans hsanitized.symm)]
        refine fragmentFits_congr fun hchars => ?_
        rw [hchars, fitting_characters] at hsanitized
        rw [hsanitized, List.length_take]
        omega

theorem keepsStart (h : sanitizeString sha256 args value = .ok r) :
    args.KeepsStart sha256 value r := by
  obtain ⟨-, encoded, size, hencode, hsize, hmode⟩ := sanitizeString_eq_ok h
  cases hcase : args.hashFragmentMode with
  | never =>
      simp only [hcase] at hmode
      exact ⟨encoded, r, hencode, truncate_start hmode,
        .inl ⟨rfl, .inl hcase⟩⟩
  | always =>
      simp only [hcase] at hmode
      obtain ⟨kept, htruncate, hr⟩ := withFragment_eq_ok hmode
      exact ⟨encoded, kept, hencode, truncate_start htruncate,
        .inr ⟨by rw [hcase]; decide, hr⟩⟩
  | onlyIfChanged =>
      simp only [hcase] at hmode
      obtain ⟨sanitized, htruncate, hresult⟩ := hmode
      have hstart := truncate_start htruncate
      rcases hresult with ⟨hsame, rfl⟩ | ⟨-, hfragment⟩
      · rw [← hsame] at hstart
        exact ⟨encoded, r, hencode, hstart, .inl ⟨rfl, .inr rfl⟩⟩
      · obtain ⟨kept, htruncate', hr⟩ := withFragment_eq_ok hfragment
        exact ⟨encoded, kept, hencode,
          (truncate_start htruncate').trans hstart,
          .inr ⟨by rw [hcase]; decide, hr⟩⟩

end SanitizeArgs

section HashExcessLength

variable {sha256 : Sha256} {value r : PyStr} {maxLength : Int}
  {lengthIsBytes : Bool}

theorem hashExcessLength_eq_ok
    (h : hashExcessLength sha256 value maxLength lengthIsBytes = .ok r) :
    Within lengthIsBytes maxLength r ∧
      (r = value ∨ ∃ encoded kept, encode value = .ok encoded ∧
        kept <+: value ∧ r = kept ++ (sha256 encoded).fragment 8) := by
  unfold hashExcessLength at h
  split at h
  · cases h
  · rename_i hlimit
    rw [minimumMaxLength] at hlimit
    cases hlength : lengthIn lengthIsBytes value with
    | error error =>
        simp only [hlength, bind, Except.bind] at h
        cases h
    | ok currentLength =>
        simp only [hlength, bind, Except.bind] at h
        split at h
        · rename_i hfits
          cases h
          exact ⟨⟨currentLength, hlength, hfits⟩, .inl rfl⟩
        · cases htruncate : truncate lengthIsBytes value (maxLength - 8) with
          | error error =>
              simp only [htruncate] at h
              cases h
          | ok kept =>
              cases hencode : encode value with
              | error error =>
                  simp only [htruncate, hencode] at h
                  cases h
              | ok encoded =>
                  simp only [htruncate, hencode] at h
                  cases h
                  have hstart := truncate_start htruncate
                  refine ⟨?_, .inr ⟨encoded, kept, rfl, hstart, rfl⟩⟩
                  obtain ⟨n, hn, hle⟩ := truncate_within (by omega) htruncate
                  obtain ⟨hcountable, rfl⟩ := lengthIn_eq_ok.mp hn
                  have hdigits := SanitizeArgs.total_unitWidth_fragment
                    (sha256 encoded) lengthIsBytes 8
                  have height : fragmentLength 8 = 8 := rfl
                  rw [within_iff (hcountable.append fun _ =>
                    (sha256 encoded).encode_fragment 8), total_append]
                  omega

end HashExcessLength

/-- When the result of `sanitize_string` is within its limit; that of
`hash_excess_length` always is. -/
theorem sanitize_string_within_iff (sha256 : Sha256) :
    (∀ (args : SanitizeArgs) (value r : PyStr),
      sanitizeString sha256 args value = .ok r →
        (Within args.lengthIsBytes args.maxLength r ↔ args.FitsLimit value) ∧
          args.KeepsStart sha256 value r) ∧
    ∀ (value r : PyStr) (maxLength : Int) (lengthIsBytes : Bool),
      hashExcessLength sha256 value maxLength lengthIsBytes = .ok r →
        Within lengthIsBytes maxLength r ∧
          (r = value ∨ ∃ encoded kept, encode value = .ok encoded ∧
            kept <+: value ∧ r = kept ++ (sha256 encoded).fragment 8) :=
  ⟨fun _ _ _ h => ⟨SanitizeArgs.within_iff_fitsLimit h,
    SanitizeArgs.keepsStart h⟩, fun _ _ _ _ h => hashExcessLength_eq_ok h⟩

def digestOfLetters : HexDigest where
  digits :=
    "b860666ee2966dd8f903be44ee605c6e1366f926d9f17a8f49937d11624eb99d".toList
  length_digits := by decide
  hex_digits c hc := List.contains_iff_mem.mp
    (List.all_eq_true.mp (by decide +kernel : (List.all _ fun c =>
      Hex.alphabet.contains c) = true) c hc)

/-- Fifteen letters are kept before a separator of nine characters and eight
digits, where the limit is sixteen. -/
theorem separator_outgrows_limit :
    ∃ r, sanitizeString (fun _ => digestOfLetters)
        { maxLength := 16, hashFragmentSeparator := str "---------" }
        (str "aaaaaaaaaaaaaaaaa") = .ok r ∧
      r = str "aaaaaaaaaaaaaaa---------b860666e" ∧ ¬ Within false 16 r := by
  refine ⟨_, ?_, rfl, ?_⟩
  · decide +kernel
  · rintro ⟨n, hn, hle⟩
    cases hn
    exact absurd hle (by decide)

/-- Seven letters, a hyphen and eight digits. -/
theorem sanitize_string_within_iff_letters :
    (Within false 16 (str "aaaaaaa-b860666e") ↔
      ({ maxLength := 16 } : SanitizeArgs).FitsLimit
        (str "aaaaaaaaaaaaaaaaa")) ∧
      ({ maxLength := 16 } : SanitizeArgs).KeepsStart
        (fun _ => digestOfLetters) (str "aaaaaaaaaaaaaaaaa")
        (str "aaaaaaa-b860666e") :=
  (sanitize_string_within_iff fun _ => digestOfLetters).1
    { maxLength := 16 } (str "aaaaaaaaaaaaaaaaa") (str "aaaaaaa-b860666e")
    (by decide +kernel)

end OpenKeyV.Python
