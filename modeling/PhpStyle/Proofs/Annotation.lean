import PhpStyle.Proofs.Lexing
import PhpStyle.Stream

/-!
# The tokens of a stream

Annotation turns each lexeme into one token. This file says what the token at an
index is: the lexeme at that index, with its settled kind and with its part of
the structure of the file. Nothing is added or left out, so the text of a stream
is the text that was lexed, and lexing loses none of the source either.
-/

namespace PhpStyle

namespace Kind

/-- Every token has one reading. -/
theorem length_settleWords (before : Option Kind) (kinds : List Kind) :
    (settleWords before kinds).length = kinds.length := by
  induction kinds generalizing before with
  | nil => rfl
  | cons kind following ih => simp [settleWords, ih]

theorem length_settleBrackets (before : Option Kind) (stillOpen kinds : List Kind) :
    (settleBrackets before stillOpen kinds).length = kinds.length := by
  fun_induction settleBrackets before stillOpen kinds <;> simp_all

end Kind

namespace Places

theorem length_conditions (opened : Nat → Option Condition) (enclosing : List (Option Condition))
    (places : Places) : (conditions opened enclosing places).length = places.length := by
  fun_induction conditions opened enclosing places <;> simp_all

end Places

namespace Stream

/-- The kinds of lexemes as their neighbours settle them. -/
def settledKinds (lexemes : List Lexeme) : List Kind :=
  (structureOf (lexemes.map Lexeme.kind)).kinds

theorem length_settledKinds (lexemes : List Lexeme) :
    (settledKinds lexemes).length = lexemes.length := by
  simp [settledKinds, structureOf, Kind.length_settleBrackets, Kind.length_settleWords]

theorem length_structureOf_conditions (kinds : List Kind) :
    (structureOf kinds).conditions.length = kinds.length := by
  simp [structureOf, Places.length_conditions, Kind.length_settleBrackets, Kind.length_settleWords]

theorem get?_ofLexemes {lexemes : List Lexeme} {index : Nat} {lexeme : Lexeme}
    (found : lexemes[index]? = some lexeme) :
    ∃ kind conditions, (settledKinds lexemes)[index]? = some kind ∧
      (ofLexemes lexemes).get? index = some ((structureOf (lexemes.map Lexeme.kind)).token lexeme
        kind conditions index) := by
  have inside : index < lexemes.length := (List.getElem?_eq_some_iff.mp found).1
  have kind_inside : index < (settledKinds lexemes).length := by
    simpa [length_settledKinds] using inside
  have conditions_inside :
      index < (structureOf (lexemes.map Lexeme.kind)).conditions.length := by
    simpa [length_structureOf_conditions] using inside
  refine ⟨(settledKinds lexemes)[index], (structureOf (lexemes.map Lexeme.kind)).conditions[index],
    List.getElem?_eq_getElem kind_inside, ?_⟩
  have kind_found := List.getElem?_eq_getElem kind_inside
  have conditions_found := List.getElem?_eq_getElem conditions_inside
  simp only [settledKinds] at kind_found
  simp [get?, ofLexemes, annotate, List.zip, List.getElem?_zipWith, found, kind_found,
    conditions_found, settledKinds]

theorem size_ofLexemes (lexemes : List Lexeme) : (ofLexemes lexemes).size = lexemes.length := by
  have kinds_length := length_settledKinds lexemes
  have conditions_length := length_structureOf_conditions (lexemes.map Lexeme.kind)
  simp only [settledKinds, List.length_map] at kinds_length conditions_length
  simp [size, ofLexemes, annotate, kinds_length, conditions_length]

theorem get?_ofLexemes_eq_none {lexemes : List Lexeme} {index : Nat}
    (outside : lexemes[index]? = none) : (ofLexemes lexemes).get? index = none := by
  have := size_ofLexemes lexemes
  simp only [List.getElem?_eq_none_iff] at outside
  simp only [get?, size] at this ⊢
  simp [this, outside]

theorem kind?_ofLexemes (lexemes : List Lexeme) (index : Nat) :
    (ofLexemes lexemes).kind? index = (settledKinds lexemes)[index]? := by
  cases found : lexemes[index]? with
  | none =>
    have outside : (settledKinds lexemes)[index]? = none := by
      simpa [length_settledKinds] using found
    simp [kind?, get?_ofLexemes_eq_none found, outside]
  | some lexeme =>
    rcases get?_ofLexemes found with ⟨kind, conditions, kind_found, token_found⟩
    simp [kind?, token_found, kind_found, Structure.token]

theorem line?_ofLexemes (lexemes : List Lexeme) (index : Nat) :
    (ofLexemes lexemes).line? index = lexemes[index]?.map Lexeme.line := by
  cases found : lexemes[index]? with
  | none => simp [line?, get?_ofLexemes_eq_none found]
  | some lexeme =>
    rcases get?_ofLexemes found with ⟨kind, conditions, kind_found, token_found⟩
    simp [line?, token_found, Structure.token]

theorem text_ofLexemes (lexemes : List Lexeme) :
    ((ofLexemes lexemes).tokens.toList.map fun token => token.text) =
      lexemes.map Lexeme.text := by
  apply List.ext_getElem?
  intro index
  cases found : lexemes[index]? with
  | none =>
    have outside := get?_ofLexemes_eq_none found
    simp only [get?] at outside
    simp [outside, found]
  | some lexeme =>
    rcases get?_ofLexemes found with ⟨kind, conditions, kind_found, token_found⟩
    simp only [get?] at token_found
    simp [token_found, found, Structure.token]

theorem source_ofLexemes (lexemes : List Lexeme) :
    (ofLexemes lexemes).source = lexemes.flatMap Lexeme.text := by
  simp only [source, List.flatMap_def, text_ofLexemes]

end Stream

/-- Lexing loses nothing and always gets on: every step takes exactly the characters that it
announces and at least one, and the texts of the lexemes and of the tokens join to the source. -/
theorem lex_lossless (source : List Char) :
    Lexeme.Cuts .html {} source (lex source) ∧
      (∀ lexeme ∈ lex source, lexeme.text ≠ []) ∧
      (lex source).length ≤ source.length ∧
      (lex source).flatMap Lexeme.text = source ∧
      (Stream.ofSource source).source = source := by
  have cuts := cuts_lex source
  refine ⟨cuts, cuts.text_ne_nil, cuts.length_le, cuts.flatMap_text, ?_⟩
  rw [Stream.ofSource, Stream.source_ofLexemes, cuts.flatMap_text]

end PhpStyle
