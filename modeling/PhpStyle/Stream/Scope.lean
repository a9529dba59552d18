import PhpStyle.Stream

/-!
# Scope queries

The scope that a token opens, and the scopes around a token. Scopes of braces
are recorded as conditions of the tokens inside; array literals and doc comments
are found through the brackets of the tokens that open them.
-/

namespace PhpStyle

/-- A bounded region of the file and the token that opens it. -/
structure Scope extends Span where
  kind : ScopeKind
  owner : Nat
deriving DecidableEq, Repr, Inhabited

/-- The opener and the closer of a doc comment that has both. -/
def DocBlock.span? (block : DocBlock) : Option Span :=
  block.closer.map fun closer => ⟨block.opener, closer⟩

namespace Token

/-- The brackets that bound the scope a token opens. -/
def scopeSpan? (token : Token) : Option Span :=
  match token.kind with
  | .arrayKw => token.parentheses
  | .openShortArray => token.brackets
  | .docOpen => token.docBlock.bind DocBlock.span?
  | _ => token.braces

end Token

namespace Stream

/-- The scope that the token at an index opens. Declarations without a body and constructs that
are never closed have none. -/
def scopeOf? (stream : Stream) (index : Nat) : Option Scope := do
  let token ← stream.get? index
  let kind ← ScopeKind.ofOwner? token.kind
  let span ← token.scopeSpan?
  return { span with kind, owner := index }

/-- The innermost scope of braces around a token whose kind is wanted. -/
def enclosingScope? (stream : Stream) (index : Nat) (wanted : ScopeKind → Bool) : Option Scope := do
  let token ← stream.get? index
  let condition ← token.innermostCondition wanted
  stream.scopeOf? condition.owner

/-- The function or closure whose body directly contains a token. -/
def owningFunction? (stream : Stream) (index : Nat) : Option Nat := do
  let token ← stream.get? index
  let condition ← token.innermostCondition ScopeKind.isFunctionLike
  return condition.owner

end Stream

end PhpStyle
