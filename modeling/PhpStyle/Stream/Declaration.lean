import PhpStyle.Stream

/-!
# Declarations

What stands around a declaring keyword: the declared name after it, the
modifiers before it, the comment that documents it and the end of its body.
-/

namespace PhpStyle

/-- The visibility of a member. -/
inductive Visibility where
  | publicAccess
  | protectedAccess
  | privateAccess
deriving DecidableEq, Repr, Inhabited

namespace Visibility

/-- Members come in the order of their ranks. -/
def rank : Visibility → Nat
  | publicAccess => 0
  | protectedAccess => 1
  | privateAccess => 2

/-- The keyword that gives the visibility. -/
def toName : Visibility → String
  | publicAccess => "public"
  | protectedAccess => "protected"
  | privateAccess => "private"

/-- The visibility that a keyword gives. -/
def ofKind? : Kind → Option Visibility
  | .publicKw => some publicAccess
  | .protectedKw => some protectedAccess
  | .privateKw => some privateAccess
  | _ => none

end Visibility

/-- The modifiers of a function. -/
structure Modifiers where
  visibility : Visibility := .publicAccess
  /-- Whether the visibility is written. -/
  isExplicit : Bool := false
  isAbstract : Bool := false
  isFinal : Bool := false
  isStatic : Bool := false
  hasBody : Bool := false
deriving DecidableEq, Repr, Inhabited

namespace Modifiers

/-- The modifiers after one more token. The last visibility counts. -/
def add (modifiers : Modifiers) (kind : Kind) : Modifiers :=
  match kind with
  | .staticKw => { modifiers with isStatic := true }
  | .abstractKw => { modifiers with isAbstract := true }
  | .finalKw => { modifiers with isFinal := true }
  | _ =>
    match Visibility.ofKind? kind with
    | some visibility => { modifiers with visibility, isExplicit := true }
    | none => modifiers

end Modifiers

namespace Kind

/-- Kinds that may stand between the first modifier and the keyword of a declaration. -/
def mayPrecedeDeclaration : Kind → Bool
  | publicKw | protectedKw | privateKw | staticKw | abstractKw | finalKw | whitespace
  | comment => true
  | _ => false

end Kind

namespace Stream

/-- The significant token after `index`, or the next one if it is `&`. -/
def declared? (stream : Stream) (index : Nat) : Option Nat := do
  let next ← stream.nextSignificant (index + 1)
  if stream.kind? next = some .ampersand then stream.nextSignificant (next + 1) else some next

/-- The name of the class, interface, trait or function declared at an index. -/
def declarationName? (stream : Stream) (index : Nat) : Option (List Char) := do
  let kind ← stream.kind? index
  if kind = .classKw ∨ kind = .interfaceKw ∨ kind = .traitKw ∨ kind = .functionKw then
    let token ← (← stream.declared? index) |> stream.get?
    if token.kind = .name then some token.text else none
  else none

/-- The modifiers of the function declared at an index, unless the index leaves the stream. -/
def modifiers? (stream : Stream) (index : Nat) : Option Modifiers := do
  let hasBody := (stream.get? index).any fun token => token.braces.isSome
  let first :=
    if index = 0 then 0
    else (stream.findPrevious (!·.mayPrecedeDeclaration) (index - 1)).elim 0 (· + 1)
  let slice ← stream.slice? first index
  return (slice.map fun token => token.kind).foldl Modifiers.add { hasBody }

/-- The last of the first `bound` tokens that is neither skipped nor part of an attribute. -/
def lastUnskipped? (stream : Stream) (skipped : Kind → Bool) (bound : Nat) : Option Nat := do
  let found ← if bound = 0 then none else stream.findPrevious (!skipped ·) (bound - 1)
  let token ← stream.get? found
  if token.kind = .attributeEnd then
    let brackets ← token.brackets
    if brackets.opener < bound then stream.lastUnskipped? skipped brackets.opener else none
  else some found
termination_by bound

/-- The last token before a declaration that is neither skipped nor part of an attribute: the end
of the comment on the declaration, if there is one. -/
def commentEnd? (stream : Stream) (index : Nat) (skipped : Kind → Bool) : Option Nat :=
  stream.lastUnskipped? skipped index

/-- The last token of the declaration at an index: the end of its body, or a semicolon. -/
def declarationEnd? (stream : Stream) (index : Nat) : Option Nat := do
  let token ← stream.get? index
  match token.braces with
  | some braces => some braces.closer
  | none => stream.findNext (· == .semicolon) ((token.parentheses.map Span.closer).getD index)

end Stream

end PhpStyle
