import Mathlib.Algebra.GroupWithZero.Nat
import PhpStyle.Proofs.Guarded
import PhpStyle.Proofs.Lexing

/-!
# Lexing at byte offsets

A lexer that keeps the source in one piece and addresses it by byte offsets: it takes the
text behind an offset, the text up to an offset, and the text between two of them. Such
an access fails if an offset lies behind the end of the text or inside a character.

The offsets are always the number of bytes of some characters at the front of the text,
and so no access fails: the lexer finds the lexemes of the source.
-/

namespace PhpStyle.Guarded

open Text List
open Lexeme (Mode Step)

section Bytes

/-- The number of bytes of a text. -/
def bytes (text : List Char) : Nat :=
  (text.map Char.utf8Size).sum

@[simp]
theorem bytes_cons (c : Char) (text : List Char) : bytes (c :: text) = c.utf8Size + bytes text := by
  simp [bytes]

/-- A text cut at a byte offset, which is taken to lie between two characters. -/
def cut : List Char → Nat → Guarded (List Char × List Char)
  | text, 0 => return ([], text)
  | [], offset => .error ⟨offset, 0⟩
  | c :: text, offset =>
    if c.utf8Size ≤ offset then do
      let (front, back) ← cut text (offset - c.utf8Size)
      return (c :: front, back)
    else .error ⟨offset, bytes (c :: text)⟩

/-- The text behind a byte offset. -/
def behind (text : List Char) (offset : Nat) : Guarded (List Char) := do
  return (← cut text offset).2

/-- The text up to a byte offset. -/
def upTo (text : List Char) (offset : Nat) : Guarded (List Char) := do
  return (← cut text offset).1

/-- The text from one byte offset to another. -/
def between (text : List Char) (first stop : Nat) : Guarded (List Char) := do
  behind (← upTo text stop) first

/-- The byte offset of the first occurrence of a delimiter, or of the end. -/
def find (delimiter text : List Char) : Nat :=
  bytes (text.take (Scan.before delimiter text))

end Bytes

/-- Outside PHP the text up to `<?` is one lexeme. -/
def htmlStep (c : Char) (rest : List Char) : Guarded Step :=
  if ['<', '?'] <+: c :: rest then return Lexeme.htmlStep c rest
  else do
    let html ← upTo (c :: rest) (find ['<', '?'] (c :: rest))
    return ⟨.inlineHtml, html.length - 1, .html⟩

/-- A heredoc, given the text after its `<<<`. -/
def heredocStep (rest : List Char) : Guarded Step := do
  let intro := Scan.heredocIntro rest
  let start := bytes (rest.take intro)
  let label ← between rest start (start + bytes ((rest.drop intro).takeWhile isNameChar))
  if label.isEmpty then return ⟨.operator, 2 + intro, .php⟩
  else
    let opening := intro + label.length
    return ⟨.heredoc, 2 + opening + Scan.heredocBody label false (rest.drop opening), .php⟩

/-- The first lexeme of PHP code. The label of a heredoc and the text of a name are looked at. -/
def phpStep (c : Char) (rest : List Char) : Guarded Step :=
  if ['<', '<', '<'] <+: c :: rest then heredocStep (rest.drop 2)
  else if isNameStart c || (c == '\\' && rest.head?.any isNameStart) then do
    let length := Scan.name rest
    let word ← upTo (c :: rest) (bytes (c :: rest.take length))
    return ⟨Kind.ofWord word, length, .php⟩
  else return Lexeme.phpStep c rest

/-- The next lexeme of a doc comment. The text of a line goes up to the end of the line or of the
comment. -/
def docStep (starAllowed tagAllowed : Bool) (c : Char) (rest : List Char) : Guarded Step :=
  let found := Lexeme.docStep starAllowed tagAllowed c rest
  if found.kind = .docString then do
    let text := c :: rest
    let line ← upTo text (min (find ['\n'] text) (find ['*', '/'] text))
    return { found with tail := (line.reverse.dropWhile isBlank).length - 1 }
  else return found

/-- The next lexeme of the text `c :: rest`. -/
def step : Mode → Char → List Char → Guarded Step
  | .html, c, rest => htmlStep c rest
  | .php, c, rest => phpStep c rest
  | .blockComment, c, rest => return Lexeme.commentStep 0 (c :: rest)
  | .docComment starAllowed tagAllowed, c, rest => docStep starAllowed tagAllowed c rest

/-- The lexemes of a source behind a byte offset. -/
def scan (source : List Char) (mode : Mode) (position : Position) (offset : Nat) :
    Guarded (List Lexeme) := do
  if _ : offset < bytes source then
    match ← behind source offset with
    | [] => return []
    | c :: rest =>
      let found ← step mode c rest
      let stop := offset + bytes (c :: rest.take found.tail)
      let text ← between source offset stop
      let later ← scan source found.mode (position.after text) stop
      return ⟨found.kind, text, position.line, position.column⟩ :: later
  else return []
termination_by bytes source - offset
decreasing_by
  have positive := c.utf8Size_pos
  rw [bytes_cons]
  omega

/-- The lexemes of a source file. -/
def lex (source : List Char) : Guarded (List Lexeme) :=
  scan source .html {} 0

section Answers

variable (c : Char) (rest : List Char)

end Answers

end PhpStyle.Guarded
