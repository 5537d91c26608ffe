import Mathlib.Data.List.Infix

/-!
# Glob patterns

The pattern language of `SCAN … MATCH`: `*` for any text, `?` for one
character, a class in brackets, and a backslash before a literal character.
A pattern is read into tokens, and tokens match a text from the left.
-/

namespace OpenKeyV.Library.Glob

inductive ClassItem where
  | one (c : Char)
  | range (low high : Char)
  deriving DecidableEq, Repr

def ClassItem.accepts (c : Char) : ClassItem → Bool
  | .one d => decide (c = d)
  | .range low high =>
      decide (min low.toNat high.toNat ≤ c.toNat) &&
        decide (c.toNat ≤ max low.toNat high.toNat)

inductive Token where
  | any
  | single
  | literal (c : Char)
  | choice (negated : Bool) (items : List ClassItem)
  deriving DecidableEq, Repr

def Token.accepts (c : Char) : Token → Bool
  | .any => false
  | .single => true
  | .literal d => decide (c = d)
  | .choice negated items => (items.any (ClassItem.accepts c)) != negated

inductive Mode where
  | plain
  | bracket (negated : Bool) (items : List ClassItem)

/-- An unterminated class ends with the pattern. -/
def parse : Mode → List Char → List Token
  | .plain, [] => []
  | .plain, '*' :: rest => .any :: parse .plain rest
  | .plain, '?' :: rest => .single :: parse .plain rest
  | .plain, '[' :: '^' :: rest => parse (.bracket true []) rest
  | .plain, '[' :: rest => parse (.bracket false []) rest
  | .plain, '\\' :: c :: rest => .literal c :: parse .plain rest
  | .plain, c :: rest => .literal c :: parse .plain rest
  | .bracket negated items, [] => [.choice negated items]
  | .bracket negated items, '\\' :: c :: rest =>
      parse (.bracket negated (.one c :: items)) rest
  | .bracket negated items, ']' :: rest =>
      .choice negated items :: parse .plain rest
  | .bracket negated items, low :: '-' :: high :: rest =>
      parse (.bracket negated (.range low high :: items)) rest
  | .bracket negated items, c :: rest =>
      parse (.bracket negated (.one c :: items)) rest

def matchTokens : List Token → List Char → Bool
  | [], text => text.isEmpty
  | .any :: tokens, text => text.tails.any (matchTokens tokens)
  | token :: tokens, c :: text =>
      token.accepts c && matchTokens tokens text
  | _ :: _, [] => false

def globMatch (pattern text : String) : Bool :=
  matchTokens (parse .plain pattern.toList) text.toList

def special (c : Char) : Bool :=
  c == '*' || c == '?' || c == '[' || c == ']' || c == '\\'

def escape : List Char → List Char
  | [] => []
  | c :: rest =>
      if special c then '\\' :: c :: escape rest else c :: escape rest

theorem parse_escape_append (literal rest : List Char) :
    parse .plain (escape literal ++ rest) =
      literal.map .literal ++ parse .plain rest := by
  induction literal with
  | nil => rfl
  | cons c literal ih =>
      unfold escape
      split
      · simp [parse, ih]
      · rename_i hplain
        simp only [special, Bool.or_eq_true, beq_iff_eq, not_or] at hplain
        obtain ⟨⟨⟨⟨hstar, hmark⟩, hopen⟩, -⟩, hslash⟩ := hplain
        simp only [List.cons_append, List.map_cons]
        rw [parse]
        · rw [ih]
        all_goals
          intros
          simp_all

theorem matchTokens_literals (literal text : List Char)
    (tokens : List Token) :
    matchTokens (literal.map .literal ++ tokens) text = true ↔
      ∃ rest, text = literal ++ rest ∧ matchTokens tokens rest = true := by
  induction literal generalizing text with
  | nil => simp
  | cons c literal ih =>
      cases text with
      | nil =>
          constructor
          · intro h
            cases h
          · rintro ⟨rest, hrest, -⟩
            cases hrest
      | cons d text =>
          have hstep : matchTokens ((c :: literal).map .literal ++ tokens)
              (d :: text) = (decide (d = c) &&
                matchTokens (literal.map .literal ++ tokens) text) := rfl
          simp only [hstep, Bool.and_eq_true, decide_eq_true_eq, ih,
            List.cons_append, List.cons.injEq]
          constructor
          · rintro ⟨rfl, rest, rfl, hrest⟩
            exact ⟨rest, ⟨rfl, rfl⟩, hrest⟩
          · rintro ⟨rest, ⟨rfl, rfl⟩, hrest⟩
            exact ⟨rfl, rest, rfl, hrest⟩

theorem matchTokens_any (text : List Char) :
    matchTokens [.any] text = true := by
  rw [matchTokens, List.any_eq_true]
  exact ⟨[], (List.mem_tails _ _).mpr List.nil_suffix, rfl⟩

/-- An escaped literal and a star match exactly the texts that start with the
literal. -/
theorem globMatch_escape (literal text : String) :
    globMatch (String.ofList (escape literal.toList ++ ['*'])) text = true ↔
      ∃ rest, text = literal ++ rest := by
  unfold globMatch
  rw [String.toList_ofList, parse_escape_append, matchTokens_literals]
  constructor
  · rintro ⟨rest, htext, -⟩
    refine ⟨String.ofList rest, ?_⟩
    apply String.toList_injective
    rw [String.toList_append, String.toList_ofList, htext]
  · rintro ⟨rest, rfl⟩
    exact ⟨rest.toList, String.toList_append, matchTokens_any rest.toList⟩

end OpenKeyV.Library.Glob
