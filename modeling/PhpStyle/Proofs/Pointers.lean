import PhpStyle.Proofs.Matching
import PhpStyle.Stream.Scope

/-!
# Pointers of tokens

The tokens of a stream point at other tokens: at their brackets, and at the ends and
the tags of their doc comments. All of these are tokens of the same stream, whatever the
kinds of its lexemes are.

Doc comments come one after another, so a token belongs to one of them at most,
and both ends of a comment point at the same comment.
-/

namespace PhpStyle

namespace DocBlock

variable {kinds rest : List Kind} {index : Nat} {stillOpen : Option (Nat × List Nat)}
  {block : DocBlock}

/-- One block ends before another one begins. -/
def Precedes (first second : DocBlock) : Prop :=
  first.opener < second.opener ∧ ∀ closer, first.closer = some closer → closer < second.opener

theorem Precedes.lt {first second : DocBlock} {place : Nat} (precedes : Precedes first second)
    (bounds : first.opener = place ∨ first.closer = some place) : place < second.opener := by
  rcases bounds with rfl | closes
  · exact precedes.1
  · exact precedes.2 place closes

end DocBlock

namespace Stream

variable {lexemes : List Lexeme} {index : Nat} {token : Token} {span : Span}

theorem lt_size_of_get? {stream : Stream} (found : stream.get? index = some token) :
    index < stream.size :=
  (Array.getElem?_eq_some_iff.mp found).1

theorem exists_token {stream : Stream} (inside : index < stream.size) :
    ∃ found, stream.get? index = some found :=
  ⟨_, Array.getElem?_eq_getElem inside⟩

theorem bounds_of_bracketsAt? {family : Family}
    (points : (ofLexemes lexemes).bracketsAt? family index = some span) :
    span.opener < span.closer ∧ span.closer < (ofLexemes lexemes).size := by
  rcases pair_of_mem (mem_pairs_of_bracketsAt? points) with ⟨ordered, -, closes⟩
  refine ⟨ordered, ?_⟩
  have bound := (List.getElem?_eq_some_iff.mp closes).1
  rwa [Family.sides, List.length_map, ← size_ofLexemes] at bound

/-- The doc comments of a file. -/
def blocks (lexemes : List Lexeme) : List DocBlock :=
  DocBlock.collect none ((settledKinds lexemes).zipIdx 0)

theorem docBlock_eq_at? (found : (ofLexemes lexemes).get? index = some token) :
    token.docBlock = DocBlock.at? (blocks lexemes) index := by
  rcases of_get? found with ⟨lexeme, kind, conditions, -, rfl⟩
  rfl

section Blocks

variable {block : DocBlock} {closer : Nat} (listed : block ∈ blocks lexemes)

include listed

theorem enclosed_of_mem_blocks (closes : block.closer = some closer) :
    Enclosed (settledKinds lexemes) block.opener closer block.tags ∧
      closer < (ofLexemes lexemes).size := by
  rcases DocBlock.enclosed_of_mem_collect List.drop_zero (by simp) listed closes with
    ⟨enclosed, ends⟩
  rw [← kind?_ofLexemes] at ends
  exact ⟨enclosed, lt_size_of_kind? ends⟩

end Blocks

theorem mem_blocks_of_docBlock {block : DocBlock}
    (found : (ofLexemes lexemes).get? index = some token) (block_eq : token.docBlock = some block) :
    block ∈ blocks lexemes := by
  rw [docBlock_eq_at? found] at block_eq
  exact List.mem_of_find?_eq_some block_eq

theorem bounds_of_scopeSpan? (found : (ofLexemes lexemes).get? index = some token)
    (span_eq : token.scopeSpan? = some span) :
    span.opener < span.closer ∧ span.closer < (ofLexemes lexemes).size := by
  have points (family : Family) (pair_eq : family.pair? token = some span) :
      (ofLexemes lexemes).bracketsAt? family index = some span := by
    rw [bracketsAt?, found, Option.bind_some, pair_eq]
  rw [Token.scopeSpan?] at span_eq
  split at span_eq
  · exact bounds_of_bracketsAt? (points .parentheses span_eq)
  · exact bounds_of_bracketsAt? (points .squares span_eq)
  · rcases Option.bind_eq_some_iff.mp span_eq with ⟨block, block_eq, bounds⟩
    rcases Option.map_eq_some_iff.mp bounds with ⟨closer, closes, rfl⟩
    rcases enclosed_of_mem_blocks (mem_blocks_of_docBlock found block_eq) closes with
      ⟨enclosed, inside⟩
    exact ⟨enclosed.lt, inside⟩
  · exact bounds_of_bracketsAt? (points .braces span_eq)

theorem bounds_of_scopeOf? {scope : Scope}
    (found : (ofLexemes lexemes).scopeOf? index = some scope) :
    scope.owner < (ofLexemes lexemes).size ∧ scope.opener < scope.closer ∧
      scope.closer < (ofLexemes lexemes).size := by
  simp only [scopeOf?, Option.bind_eq_bind, Option.bind_eq_some_iff, Option.pure_def,
    Option.some.injEq] at found
  rcases found with ⟨token, at_index, kind, -, span, span_eq, rfl⟩
  exact ⟨lt_size_of_get? at_index, bounds_of_scopeSpan? at_index span_eq⟩

end Stream

end PhpStyle
