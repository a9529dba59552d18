import PhpStyle.Pairing

/-!
# Scopes

Which keyword owns which pair of braces, which owned braces enclose a token, and
which parentheses belong to `array`, `function` and `fn`. All of this is decided
on the sequence of kinds alone.

A keyword such as `class` or `function` owns the first `{` after it that is
outside parentheses, unless a `;` or a `}` comes first: then the declaration has
no body. If two keywords reach the same brace, the first one owns it.
-/

namespace PhpStyle

/-- An enclosing scope of braces: its keyword and its kind. -/
structure Condition where
  owner : Nat
  kind : ScopeKind
deriving DecidableEq, Repr, Inhabited

/-- The keyword that owns a pair of brackets, and where the brackets open. -/
structure Ownership where
  owner : Nat
  opener : Nat
deriving DecidableEq, Repr, Inhabited

/-- The kinds of a sequence with their places. -/
abbrev Places := List (Kind × Nat)

namespace Places

/-- The brace a keyword reaches over the given tokens, `depth` parentheses being open. -/
def reachedBrace (depth : Nat) : Places → Option Nat
  | [] => none
  | (kind, index) :: rest =>
    match kind, depth with
    | .openParenthesis, depth => reachedBrace (depth + 1) rest
    | .closeParenthesis, depth => reachedBrace (depth - 1) rest
    | .openCurly, 0 => some index
    | .semicolon, 0 => none
    | .closeCurly, 0 => none
    | _, depth => reachedBrace depth rest

/-- Every keyword that reaches a brace, with that brace. -/
def reaches : Places → List Ownership
  | [] => []
  | (kind, owner) :: rest =>
    if kind.ownsBraces then
      match reachedBrace 0 rest with
      | some opener => ⟨owner, opener⟩ :: reaches rest
      | none => reaches rest
    else reaches rest

/-- Drops the first token if it has the given kind. -/
def skip (kind : Kind) : Places → Places
  | [] => []
  | (found, index) :: rest => if found = kind then rest else (found, index) :: rest

/-- The parenthesis that opens the list of a keyword, given the significant tokens after it. A
function may return by reference and has a name; a closure has no name. -/
def listOpener (kind : Kind) (following : Places) : Option Nat :=
  let following := if kind = .arrayKw then following else following.skip .ampersand
  let following := if kind = .functionKw then following.skip .name else following
  match following with
  | (.openParenthesis, index) :: _ => some index
  | _ => none

/-- Every keyword with a parenthesised list: `array` literals and parameters. -/
def lists : Places → List Ownership
  | [] => []
  | (kind, owner) :: rest =>
    if kind = .arrayKw ∨ kind = .functionKw ∨ kind = .closure ∨ kind = .fnKw then
      match listOpener kind (rest.filter fun place => place.1.isSignificant) with
      | some opener => ⟨owner, opener⟩ :: lists rest
      | none => lists rest
    else lists rest

end Places

namespace Ownership

/-- The owner of the brackets that open at a place: the first keyword that reaches them. -/
def ownerOf (owners : List Ownership) (opener : Nat) : Option Nat :=
  (owners.find? fun ownership => ownership.opener == opener).map owner

/-- The place where the brackets owned by a keyword open. -/
def openerOf (owners : List Ownership) (keyword : Nat) : Option Nat :=
  (owners.find? fun ownership =>
    ownership.owner == keyword && ownerOf owners ownership.opener == some keyword).map opener

end Ownership

namespace Places

/-- The condition that each brace opens, if a keyword owns it. -/
def conditionOf (places : Places) (owners : List Ownership) (brace : Nat) : Option Condition := do
  let owner ← Ownership.ownerOf owners brace
  let (kind, _) ← places[owner]?
  let scope ← ScopeKind.ofOwner? kind
  return ⟨owner, scope⟩

/-- The conditions of each token of a sequence, outermost first, given what the braces still open
stand for, outermost first. A brace encloses neither itself nor its partner. -/
def conditions (opened : Nat → Option Condition) (enclosing : List (Option Condition)) :
    Places → List (List Condition)
  | [] => []
  | (.openCurly, index) :: rest =>
    enclosing.filterMap id :: conditions opened (enclosing ++ [opened index]) rest
  | (.closeCurly, _) :: rest =>
    enclosing.dropLast.filterMap id :: conditions opened enclosing.dropLast rest
  | _ :: rest =>
    enclosing.filterMap id :: conditions opened enclosing rest

end Places

end PhpStyle
