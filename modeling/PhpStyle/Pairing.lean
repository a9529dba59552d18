import PhpStyle.Kind

/-!
# Pairs of brackets

Parentheses, square brackets and braces are paired family by family, and all
three families are paired by one scan. The scan sees only the `Side` that each
token takes in the family, so tokens of other families never matter: a closer is
paired with the latest opener that is still open, and brackets without a partner
stay alone.
-/

namespace PhpStyle

/-- The places of an opener and of its closer. -/
structure Span where
  opener : Nat
  closer : Nat
deriving DecidableEq, Repr, Inhabited

namespace Span

/-- Whether a place lies strictly between opener and closer. -/
def contains (span : Span) (index : Nat) : Bool :=
  span.opener < index && index < span.closer

/-- Whether a place is the opener or the closer. -/
def bounds (span : Span) (index : Nat) : Bool :=
  span.opener == index || span.closer == index

end Span

/-- What a token does in a family of brackets. -/
inductive Side where
  | opens
  | closes
  | neither
deriving DecidableEq, Repr, Inhabited

/-- The pairs of a sequence that begins at `index`, given the openers still open, innermost first.
Pairs are listed in the order of their closers. -/
def pairsFrom (index : Nat) (stillOpen : List Nat) : List Side → List Span
  | [] => []
  | .opens :: rest => pairsFrom (index + 1) (index :: stillOpen) rest
  | .neither :: rest => pairsFrom (index + 1) stillOpen rest
  | .closes :: rest =>
    match stillOpen with
    | [] => pairsFrom (index + 1) [] rest
    | opener :: outer => ⟨opener, index⟩ :: pairsFrom (index + 1) outer rest

/-- The pairs of a whole sequence. -/
def pairs (sides : List Side) : List Span :=
  pairsFrom 0 [] sides

/-- The pair that a place belongs to. -/
def pairAt (spans : List Span) (index : Nat) : Option Span :=
  spans.find? fun span => span.bounds index

namespace Kind

/-- The sides in the family of parentheses. -/
def parenthesisSide : Kind → Side
  | openParenthesis => .opens
  | closeParenthesis => .closes
  | _ => .neither

/-- The sides in the family of square brackets, to which the start of an attribute belongs. -/
def squareSide : Kind → Side
  | openSquare | attributeStart => .opens
  | closeSquare => .closes
  | _ => .neither

/-- The sides in the family of braces. -/
def curlySide : Kind → Side
  | openCurly => .opens
  | closeCurly => .closes
  | _ => .neither

end Kind

end PhpStyle
