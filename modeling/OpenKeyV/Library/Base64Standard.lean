import OpenKeyV.Library.Base64Url

/-!
# Base64 with padding

The digits of Base64 for URLs, two of them replaced, and `=` up to a multiple
of four.  `decode` asks for the padding that `encode` writes.
-/

namespace OpenKeyV.Library.Base64Standard

def ofUrl (c : Char) : Char :=
  if c = '-' then '+' else if c = '_' then '/' else c

def toUrl (c : Char) : Option Char :=
  if c = '+' then some '-'
  else if c = '/' then some '_'
  else if c = '-' ∨ c = '_' then none
  else some c

def padding (digits : List Char) : List Char :=
  List.replicate ((4 - digits.length % 4) % 4) '='

def encodeChars (bytes : List UInt8) : List Char :=
  let digits := (Base64Url.encodeChars bytes).map ofUrl
  digits ++ padding digits

def decodeChars (text : List Char) : Option (List UInt8) := do
  let digits := text.takeWhile (· != '=')
  if text = digits ++ padding digits then
    let digits ← digits.mapM toUrl
    Base64Url.decodeChars digits
  else none

def encode (bytes : List UInt8) : String := String.ofList (encodeChars bytes)

def decode (text : String) : Option (List UInt8) := decodeChars text.toList

theorem toUrl_ofUrl {c : Char} (h : c ∈ Base64Url.alphabet) :
    toUrl (ofUrl c) = some c := by
  rcases Base64Url.alphabet_cases h with halpha | rfl | rfl
  · have hne : ∀ d : Char, d.isAlphanum = false → c ≠ d := by
      rintro d hd rfl
      simp [hd] at halpha
    simp [ofUrl, toUrl, hne '-' (by decide), hne '_' (by decide),
      hne '+' (by decide), hne '/' (by decide)]
  · decide
  · decide

theorem ofUrl_ne_padding {c : Char} (h : c ∈ Base64Url.alphabet) :
    ofUrl c ≠ '=' := by
  intro heq
  have hurl := toUrl_ofUrl h
  rw [heq] at hurl
  cases hurl
  rcases Base64Url.alphabet_cases h with halpha | hc | hc
  · exact absurd halpha (by decide)
  · exact absurd hc (by decide)
  · exact absurd hc (by decide)

theorem mapM_toUrl {digits : List Char}
    (h : ∀ c ∈ digits, c ∈ Base64Url.alphabet) :
    (digits.map ofUrl).mapM toUrl = some digits := by
  induction digits with
  | nil => rfl
  | cons c digits ih =>
      have hc := toUrl_ofUrl (h c (List.mem_cons_self ..))
      rw [List.map_cons, List.mapM_cons, hc,
        ih fun d hd => h d (List.mem_cons_of_mem _ hd)]
      rfl

theorem decodeChars_encodeChars (bytes : List UInt8) :
    decodeChars (encodeChars bytes) = some bytes := by
  have hdigits : ∀ c ∈ (Base64Url.encodeChars bytes).map ofUrl,
      (c != '=') = true := by
    intro c hc
    obtain ⟨d, hd, rfl⟩ := List.mem_map.mp hc
    exact bne_iff_ne.mpr (ofUrl_ne_padding
      (Base64Url.mem_alphabet_of_mem_encodeChars bytes d hd))
  have htake : (encodeChars bytes).takeWhile (· != '=') =
      (Base64Url.encodeChars bytes).map ofUrl := by
    rw [encodeChars, List.takeWhile_append_of_pos hdigits, padding]
    cases (4 - ((Base64Url.encodeChars bytes).map ofUrl).length % 4) % 4 with
    | zero => simp
    | succ n => simp [List.replicate_succ]
  unfold decodeChars
  rw [htake, if_pos (by rfl),
    mapM_toUrl (Base64Url.mem_alphabet_of_mem_encodeChars bytes)]
  exact Base64Url.decodeChars_encodeChars bytes

theorem decode_encode (bytes : List UInt8) :
    decode (encode bytes) = some bytes := by
  rw [decode, encode, String.toList_ofList]
  exact decodeChars_encodeChars bytes

example : encode [1, 255] = "Af8=" := by decide

end OpenKeyV.Library.Base64Standard
