import PhpStyle.Kind
import PhpStyle.Lexeme.Scan

/-!
# Lexemes

The lexer cuts source text into lexemes, one at a time. What the next lexeme is
depends only on the remaining text and on a `Mode`: whether the text is outside
PHP, in PHP code, on a later line of a block comment, or inside a doc comment.
Comments are cut at line ends, which is why they have modes of their own.

A step names the kind of the next lexeme, how many characters it has after the
first one, and the mode that follows. Every lexeme therefore has a character,
the texts of the lexemes join to the source, and the lexer ends on every source.
-/

namespace PhpStyle

/-- A piece of source text with its kind and the place of its first character. -/
structure Lexeme where
  kind : Kind
  text : List Char
  line : Nat
  column : Nat
deriving DecidableEq, Repr, Inhabited

/-- A place in a source: lines and columns count from one, columns in characters. -/
structure Position where
  line : Nat := 1
  column : Nat := 1
deriving DecidableEq, Repr, Inhabited

namespace Position

/-- The place after one more character. -/
def next (position : Position) (c : Char) : Position :=
  if c = '\n' then ⟨position.line + 1, 1⟩ else ⟨position.line, position.column + 1⟩

/-- The place after a text. -/
def after (position : Position) (text : List Char) : Position :=
  text.foldl next position

end Position

namespace Lexeme

open Text

/-- What the lexer has to know besides the remaining text. -/
inductive Mode where
  /-- Outside PHP. -/
  | html
  /-- In PHP code. -/
  | php
  /-- At the start of a later line of a block comment. -/
  | blockComment
  /-- In a doc comment: whether a star may still begin the line, and whether a tag may follow. -/
  | docComment (starAllowed tagAllowed : Bool)
deriving DecidableEq, Repr, Inhabited

/-- The next lexeme: its kind, its length after the first character, and the mode after it. -/
structure Step where
  kind : Kind
  tail : Nat
  mode : Mode
deriving DecidableEq, Repr, Inhabited

/-- Outside PHP the text up to `<?` is one lexeme, and the opening tag is the next. -/
def htmlStep (c : Char) (rest : List Char) : Step :=
  if ['<', '?'] <+: c :: rest then
    if equalsIgnoringCase (rest.take 4) ['?', 'p', 'h', 'p'] then ⟨.openTag, 4, .php⟩
    else if ['?', '='] <+: rest then ⟨.openTagWithEcho, 2, .php⟩
    else ⟨.openTag, 1, .php⟩
  else ⟨.inlineHtml, Scan.before ['<', '?'] rest, .html⟩

/-- A part of a block comment: `seen` characters that open it, and its text on the line. -/
def commentStep (seen : Nat) (text : List Char) : Step :=
  let (length, closed) := Scan.blockComment text
  ⟨.comment, seen + length - 1, if closed then .php else .blockComment⟩

/-- A heredoc, given the text after its `<<<`. Without a label it is an operator. -/
def heredocStep (rest : List Char) : Step :=
  let intro := Scan.heredocIntro rest
  let label := (rest.drop intro).takeWhile isNameChar
  if label.isEmpty then ⟨.operator, 2 + intro, .php⟩
  else
    let opening := intro + label.length
    ⟨.heredoc, 2 + opening + Scan.heredocBody label false (rest.drop opening), .php⟩

/-- The longest operator at the front of the text; any other character is one by itself. -/
def operatorStep (c : Char) (rest : List Char) : Step :=
  match Kind.operators.find? fun entry => entry.1.isPrefixOf (c :: rest) with
  | some (text, kind) => ⟨kind, text.length - 1, .php⟩
  | none => ⟨.operator, 0, .php⟩

/-- The first lexeme of PHP code. -/
def phpStep (c : Char) (rest : List Char) : Step :=
  let next := rest.head?
  if isBlank c || c == '\n' then ⟨.whitespace, if c = '\n' then 0 else Scan.spacing rest, .php⟩
  else if c == '#' && next == some '[' then ⟨.attributeStart, 1, .php⟩
  else if c == '#' || (c == '/' && next == some '/') then ⟨.comment, Scan.lineComment rest, .php⟩
  else if ['/', '*', '*'] <+: c :: rest ∧ (rest.drop 2).head?.any isUnicodeSpace then
    ⟨.docOpen, 2, .docComment false true⟩
  else if c == '/' && next == some '*' then commentStep 2 (rest.drop 1)
  else if c == '$' && next.any isNameStart then ⟨.variableName, Scan.run isNameChar rest, .php⟩
  else if c == '\'' then ⟨.singleQuoted, Scan.quoted c rest, .php⟩
  else if c == '"' || c == '\x60' then ⟨.doubleQuoted, Scan.quoted c rest, .php⟩
  else if ['<', '<', '<'] <+: c :: rest then heredocStep (rest.drop 2)
  else if c == '?' && next == some '>' then
    ⟨.closeTag, if (rest.drop 1).head? = some '\n' then 2 else 1, .html⟩
  else if c.isDigit || (c == '.' && next.any Char.isDigit) then
    let (length, decimal) := Scan.number (c == '.') rest
    ⟨if decimal then .decimal else .integer, length, .php⟩
  else if isNameStart c || (c == '\\' && next.any isNameStart) then
    let length := Scan.name rest
    ⟨Kind.ofWord (c :: rest.take length), length, .php⟩
  else operatorStep c rest

/-- The next lexeme of a doc comment. A star counts only before anything else on its line, and a
tag only before the text of its line. -/
def docStep (starAllowed tagAllowed : Bool) (c : Char) (rest : List Char) : Step :=
  if ['*', '/'] <+: c :: rest then ⟨.docClose, 1, .php⟩
  else if isBlank c || c == '\n' then
    let length := if c = '\n' then 0 else Scan.spacing rest
    let endsLine := (c :: rest.take length).getLast? == some '\n'
    ⟨.docWhitespace, length, .docComment (starAllowed || endsLine) (tagAllowed || endsLine)⟩
  else if c == '*' && starAllowed then ⟨.docStar, 0, .docComment false true⟩
  else if c == '@' && tagAllowed && rest.head?.any isTagChar then
    ⟨.docTag, Scan.run isTagChar rest, .docComment false false⟩
  else ⟨.docString, Scan.docText (c :: rest) - 1, .docComment false false⟩

/-- The next lexeme of the text `c :: rest`. -/
def step : Mode → Char → List Char → Step
  | .html, c, rest => htmlStep c rest
  | .php, c, rest => phpStep c rest
  | .blockComment, c, rest => commentStep 0 (c :: rest)
  | .docComment starAllowed tagAllowed, c, rest => docStep starAllowed tagAllowed c rest

/-- The lexemes of a text that begins at the given place and in the given mode. -/
def scan (mode : Mode) (position : Position) : List Char → List Lexeme
  | [] => []
  | c :: rest =>
    let found := step mode c rest
    let text := c :: rest.take found.tail
    ⟨found.kind, text, position.line, position.column⟩ ::
      scan found.mode (position.after text) (rest.drop found.tail)
termination_by text => text.length
decreasing_by simp only [List.length_drop, List.length_cons]; omega

end Lexeme

/-- The lexemes of a source file. -/
def lex (source : List Char) : List Lexeme :=
  Lexeme.scan .html {} source

end PhpStyle
