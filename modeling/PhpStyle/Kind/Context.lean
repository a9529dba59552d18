import PhpStyle.Kind

/-!
# Kinds that depend on their neighbours

Some words and brackets can be read in two ways, and their neighbours decide.
A keyword after `->`, `::`, `function` or `const` is a plain name; `class` after
`new` is an anonymous class; `function` before a parameter list is a closure; and
`[` opens a short array unless it follows something that can be indexed.

Both readings run once from left to right. They carry the kind, already settled,
of the last significant token, so whitespace and comments change nothing.
-/

namespace PhpStyle.Kind

/-- The last significant kind after one more token. -/
def lastSignificant (before : Option Kind) (kind : Kind) : Option Kind :=
  if kind.isTrivia then before else some kind

/-- Kinds after which every keyword but `static` is a plain name. -/
def precedesName : Kind → Bool
  | objectOperator | doubleColon | functionKw | constKw => true
  | _ => false

/-- Whether the tokens after `function` begin a parameter list, so that no name is declared. -/
def beginsParameters (following : List Kind) : Bool :=
  match following.filter isSignificant with
  | openParenthesis :: _ | ampersand :: openParenthesis :: _ => true
  | _ => false

/-- The reading of a word between its neighbours. -/
def settleWord (before : Option Kind) (kind : Kind) (following : List Kind) : Kind :=
  if kind.isKeyword then
    if before.any precedesName && kind != staticKw then name
    else if (kind == functionKw || kind == constKw) && before == some useKw then name
    else if kind == classKw && before == some newKw then anonClass
    else if kind == functionKw && beginsParameters following then closure
    else kind
  else kind

/-- The readings of the words of a sequence after a token of kind `before`. -/
def settleWords (before : Option Kind) : List Kind → List Kind
  | [] => []
  | kind :: following =>
    let settled := settleWord before kind following
    settled :: settleWords (lastSignificant before settled) following

/-- Kinds after which `[` reads an offset. -/
def precedesOffset : Kind → Bool
  | variableName | name | closeSquare | closeShortArray | closeParenthesis | closeCurly
  | singleQuoted | doubleQuoted => true
  | _ => false

/-- The reading of `]`, given the reading of the bracket that it closes. -/
def settleCloser : Kind → Kind
  | openShortArray => closeShortArray
  | attributeStart => attributeEnd
  | _ => closeSquare

/-- The readings of the square brackets of a sequence after a token of kind `before`, given the
readings of the brackets still open, innermost first. -/
def settleBrackets (before : Option Kind) (stillOpen : List Kind) : List Kind → List Kind
  | [] => []
  | openSquare :: following =>
    let settled := if before.any precedesOffset then openSquare else openShortArray
    settled :: settleBrackets (some settled) (settled :: stillOpen) following
  | attributeStart :: following =>
    attributeStart :: settleBrackets (some attributeStart) (attributeStart :: stillOpen) following
  | closeSquare :: following =>
    match stillOpen with
    | [] => closeSquare :: settleBrackets (some closeSquare) [] following
    | opener :: outer =>
      let settled := settleCloser opener
      settled :: settleBrackets (some settled) outer following
  | kind :: following =>
    kind :: settleBrackets (lastSignificant before kind) stillOpen following

end PhpStyle.Kind
