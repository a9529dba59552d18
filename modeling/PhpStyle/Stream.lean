import PhpStyle.DocBlock
import PhpStyle.Kind.Context
import PhpStyle.Lexeme

/-!
# Token streams

A stream holds the tokens of one file. A token is a lexeme whose kind has been
settled by its neighbours and that knows its place in the structure of the file:
its brackets, the braces and the list that it owns, its doc comment and the
scopes around it. Tokens are addressed by their index, and every query answers
`none` for an index outside the stream.

The searches `findNext` and `findPrevious` look at a closed interval of indices
and take the wanted kinds as a predicate.
-/

namespace PhpStyle

/-- A lexeme with its place in the structure of the file. -/
structure Token extends Lexeme where
  /-- The braces that the token is one of, or that it owns. -/
  braces : Option Span := none
  /-- The parentheses that the token is one of, or that it owns. -/
  parentheses : Option Span := none
  /-- The square brackets that the token is one of. -/
  brackets : Option Span := none
  /-- The doc comment that the token opens or closes. -/
  docBlock : Option DocBlock := none
  /-- The scopes of braces around the token, outermost first. -/
  conditions : List Condition := []
deriving DecidableEq, Repr, Inhabited

namespace Token

/-- The tags of the doc comment that opens at the token. -/
def tags (token : Token) : List Nat :=
  if token.kind = .docOpen then (token.docBlock.map DocBlock.tags).getD [] else []

/-- The innermost scope around the token whose kind is wanted. -/
def innermostCondition (token : Token) (wanted : ScopeKind → Bool) : Option Condition :=
  token.conditions.reverse.find? fun condition => wanted condition.kind

/-- Whether the token ends its line. -/
def hasNewline (token : Token) : Bool :=
  token.text.contains '\n'

end Token

/-- The tokens of one file. -/
structure Stream where
  tokens : Array Token := #[]
deriving DecidableEq, Repr, Inhabited

namespace Stream

/-- The structure of a file, from which each token takes its part. -/
structure Structure where
  kinds : List Kind
  parentheses : List Span
  brackets : List Span
  braces : List Span
  lists : List Ownership
  bodies : List Ownership
  blocks : List DocBlock
  conditions : List (List Condition)

/-- The structure of a sequence of kinds as the lexer gives them. -/
def structureOf (lexed : List Kind) : Structure :=
  let words := Kind.settleWords none lexed
  let kinds := Kind.settleBrackets none [] words
  let places := kinds.zipIdx
  let bodies := Places.reaches places
  { kinds
    parentheses := pairs (kinds.map Kind.parenthesisSide)
    brackets := pairs (words.map Kind.squareSide)
    braces := pairs (kinds.map Kind.curlySide)
    lists := Places.lists places
    bodies
    blocks := DocBlock.collect none places
    conditions := Places.conditions (Places.conditionOf places bodies) [] places }

/-- The token at an index: a bracket points at its pair, an owner at the pair it owns. -/
def Structure.token (struct : Structure) (lexeme : Lexeme) (kind : Kind)
    (conditions : List Condition) (index : Nat) : Token :=
  { lexeme with
    kind
    braces := pairAt struct.braces <| (Ownership.openerOf struct.bodies index).getD index
    parentheses := pairAt struct.parentheses <| (Ownership.openerOf struct.lists index).getD index
    brackets := pairAt struct.brackets index
    docBlock := DocBlock.at? struct.blocks index
    conditions }

/-- The tokens of a sequence of lexemes. -/
def annotate (lexemes : List Lexeme) : List Token :=
  let struct := structureOf (lexemes.map Lexeme.kind)
  (lexemes.zip (struct.kinds.zip struct.conditions)).mapIdx
    fun index (lexeme, kind, conditions) => struct.token lexeme kind conditions index

/-- The stream of a sequence of lexemes. -/
def ofLexemes (lexemes : List Lexeme) : Stream :=
  ⟨(annotate lexemes).toArray⟩

/-- The stream of a source file. -/
def ofSource (source : List Char) : Stream :=
  ofLexemes (lex source)

/-- The number of tokens. -/
def size (stream : Stream) : Nat :=
  stream.tokens.size

/-- The token at an index. -/
def get? (stream : Stream) (index : Nat) : Option Token :=
  stream.tokens[index]?

/-- The kind of the token at an index. -/
def kind? (stream : Stream) (index : Nat) : Option Kind :=
  (stream.get? index).map fun token => token.kind

/-- The line of the token at an index. -/
def line? (stream : Stream) (index : Nat) : Option Nat :=
  (stream.get? index).map fun token => token.line

/-- The text of the file. -/
def source (stream : Stream) : List Char :=
  stream.tokens.toList.flatMap fun token => token.text

/-- The tokens from `first` up to but not including `stop`, unless they leave the stream. -/
def slice? (stream : Stream) (first stop : Nat) : Option (List Token) :=
  if first ≤ stop ∧ stop ≤ stream.size then some (stream.tokens.extract first stop).toList else none

/-- The text from one token to another. Both ends belong to it, and the last token bounds it; there
is no answer if the text would begin after the end of the stream. -/
def content? (stream : Stream) (first last : Nat) : Option (List Char) :=
  if stream.size = 0 ∨ last < first then some []
  else (stream.slice? first ((last + 1).min stream.size)).map fun slice =>
    slice.flatMap fun token => token.text

/-- The first of `count` indices from `start` on that passes a test. -/
def firstIndex (test : Nat → Bool) (start : Nat) : Nat → Option Nat
  | 0 => none
  | count + 1 => if test start then some start else firstIndex test (start + 1) count

/-- The last of `count` indices from `start` on that passes a test. -/
def lastIndex (test : Nat → Bool) (start : Nat) : Nat → Option Nat
  | 0 => none
  | count + 1 => if test (start + count) then some (start + count) else lastIndex test start count

/-- Whether the token at an index has a wanted kind. -/
def hasKind (stream : Stream) (wanted : Kind → Bool) (index : Nat) : Bool :=
  (stream.kind? index).any wanted

/-- The first token of a wanted kind from `start` to `last`, or to the end of the stream. -/
def findNext (stream : Stream) (wanted : Kind → Bool) (start : Nat) (last : Option Nat := none) :
    Option Nat :=
  let stop := ((last.map (· + 1)).getD stream.size).min stream.size
  firstIndex (stream.hasKind wanted) start (stop - start)

/-- The last token of a wanted kind from `first`, or from the beginning, to `start`. -/
def findPrevious (stream : Stream) (wanted : Kind → Bool) (start : Nat) (first : Nat := 0) :
    Option Nat :=
  lastIndex (stream.hasKind wanted) first ((start + 1).min stream.size - first)

/-- The next significant token. -/
def nextSignificant (stream : Stream) (start : Nat) (last : Option Nat := none) : Option Nat :=
  stream.findNext Kind.isSignificant start last

/-- The previous significant token. -/
def previousSignificant (stream : Stream) (start : Nat) (first : Nat := 0) : Option Nat :=
  stream.findPrevious Kind.isSignificant start first

/-- The first and the last token of the run of tokens on the line of a token. -/
def lineSpan? (stream : Stream) (anchor : Nat) : Option (Nat × Nat) := do
  let line ← stream.line? anchor
  let elsewhere := fun index => stream.line? index != some line
  let first := (lastIndex elsewhere 0 anchor).elim 0 (· + 1)
  let stop := (firstIndex elsewhere (anchor + 1) (stream.size - (anchor + 1))).getD stream.size
  return (first, stop - 1)

end Stream

end PhpStyle
