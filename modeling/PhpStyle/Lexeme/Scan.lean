import PhpStyle.Text.Class

/-!
# Lengths of lexemes

How far each lexical construct reaches. A scan is given the characters after the
part that identified the construct and returns how many of them belong to it, so
the text of a lexeme is always a prefix of the remaining source and nothing can
be lost or invented. Every scan recurses on the characters it looks at.

A construct that is never terminated reaches to the end of the source.
-/

namespace PhpStyle.Scan

open Text

/-- A run of characters of one class. -/
def run (belongs : Char → Bool) (rest : List Char) : Nat :=
  (rest.takeWhile belongs).length

/-- The characters before the first occurrence of a delimiter. -/
def before (delimiter : List Char) : List Char → Nat
  | [] => 0
  | c :: rest => if delimiter <+: c :: rest then 0 else before delimiter rest + 1

/-- Whitespace: blanks up to and including at most one newline. -/
def spacing : List Char → Nat
  | [] => 0
  | c :: rest => if c = '\n' then 1 else if isBlank c then spacing rest + 1 else 0

/-- A comment that ends with its line, or before a closing tag. -/
def lineComment : List Char → Nat
  | [] => 0
  | c :: rest =>
    if ['?', '>'] <+: c :: rest then 0 else if c = '\n' then 1 else lineComment rest + 1

/-- The part of a block comment on the current line, and whether the comment ends there. -/
def blockComment : List Char → Nat × Bool
  | [] => (0, false)
  | c :: rest =>
    if ['*', '/'] <+: c :: rest then (2, true)
    else if c = '\n' then (1, false)
    else
      let (length, closed) := blockComment rest
      (length + 1, closed)

/-- The text of a doc comment line, which ends before the newline or the end of the comment. -/
def docLine : List Char → Nat
  | [] => 0
  | c :: rest =>
    if c = '\n' then 0 else if ['*', '/'] <+: c :: rest then 0 else docLine rest + 1

/-- The text of a doc comment line without the blanks at its end. -/
def docText (rest : List Char) : Nat :=
  ((rest.take (docLine rest)).reverse.dropWhile isBlank).length

/-- The rest of a quoted string: a backslash hides the character after it. -/
def quoted (quote : Char) : List Char → Nat
  | [] => 0
  | [_] => 1
  | c :: hidden :: rest =>
    if c = '\\' then quoted quote rest + 2
    else if c = quote then 1
    else quoted quote (hidden :: rest) + 1

/-- The blanks, and the quote if there is one, between `<<<` and the label of a heredoc. -/
def heredocIntro (rest : List Char) : Nat :=
  let indent := run isIndent rest
  if (rest.drop indent).head? = some '\'' ∨ (rest.drop indent).head? = some '"' then indent + 1
  else indent

/-- Whether a line is the last one of the heredoc with the given label. -/
def endsHeredoc (label line : List Char) : Bool :=
  let text := line.dropWhile isIndent
  label.isPrefixOf text && !(text.drop label.length).head?.any isNameChar

/-- The lines of a heredoc up to and including its closing label. -/
def heredocBody (label : List Char) (lineStart : Bool) : List Char → Nat
  | [] => 0
  | c :: rest =>
    if lineStart && endsHeredoc label (c :: rest) then
      run isIndent (c :: rest) + label.length
    else heredocBody label (c == '\n') rest + 1

/-- The rest of a number, and whether the number has a decimal point. -/
def number (decimal : Bool) : List Char → Nat × Bool
  | [] => (0, decimal)
  | c :: rest =>
    if c.isAlphanum || c == '_' || (c == '.' && !decimal) then
      let (length, pointed) := number (decimal || c == '.') rest
      (length + 1, pointed)
    else (0, decimal)

/-- The rest of a name, whose parts may be joined by backslashes. -/
def name : List Char → Nat
  | [] => 0
  | c :: rest =>
    if isNameChar c then name rest + 1
    else if c = '\\' ∧ rest.head?.any isNameStart then name rest + 1
    else 0

end PhpStyle.Scan
