import PhpStyle.Toml.Scalar

/-!
# TOML strings, keys and blanks

Each reader takes a text and gives what it has read and what follows. Strings are
read after their opening quotes.
-/

namespace PhpStyle.Toml

/-- Whether a character may stand in a comment and in a literal string. -/
def isPlainChar (c : Char) : Bool :=
  c == '\t' || (c ≥ ' ' && c.toNat != 0x7f)

/-- Drops spaces and tabs. -/
def skipBlanks (text : List Char) : List Char :=
  text.dropWhile fun c => c == ' ' || c == '\t'

/-- Drops a comment. -/
def skipComment : List Char → List Char
  | '#' :: rest => rest.dropWhile isPlainChar
  | text => text

/-- Drops what may follow on the line of an entry, and the end of the line. -/
def skipLineEnd? (text : List Char) : Option (List Char) :=
  match skipComment (skipBlanks text) with
  | [] => some []
  | '\n' :: rest => some rest
  | '\r' :: '\n' :: rest => some rest
  | _ => none

/-- Drops blanks, comments and ends of lines between the elements of an array. -/
def skipGap? (inComment : Bool) : List Char → Option (List Char)
  | '\n' :: rest => skipGap? false rest
  | '\r' :: '\n' :: rest => skipGap? false rest
  | [] => if inComment then none else some []
  | c :: rest =>
    if inComment then if isPlainChar c then skipGap? true rest else none
    else if c = '#' then skipGap? true rest
    else if c = ' ' ∨ c = '\t' then skipGap? false rest
    else some (c :: rest)

namespace Text

/-- The character with a number in hexadecimal digits. -/
def scalar? (digits : List Char) : Option Char := do
  let values ← digits.mapM (digitValue? 16)
  let number := values.foldl (fun value digit => value * 16 + digit) 0
  if number.isValidChar then some (Char.ofNat number) else none

/-- What a reader of a string drops after a backslash at the end of a line. -/
inductive Trim where
  /-- Nothing. -/
  | nothing
  /-- Blanks, up to the end of the line. -/
  | line
  /-- Blanks and ends of lines. -/
  | all
deriving DecidableEq

/-- Puts a character in front of what a reader has read. -/
def push (c : Char) (read : Option (List Char × List Char)) : Option (List Char × List Char) :=
  read.map fun (content, rest) => (c :: content, rest)

/-- Reads a string in double quotes, on one line or between triple quotes. The string between
triple quotes may end in one or two quotes of its own. -/
def basic? (isLong : Bool) (trim : Trim) : List Char → Option (List Char × List Char)
  | '\n' :: rest =>
    if !isLong then none
    else if trim = .nothing then push '\n' (basic? isLong .nothing rest)
    else basic? isLong .all rest
  | '\r' :: '\n' :: rest =>
    if !isLong then none
    else if trim = .nothing then push '\n' (basic? isLong .nothing rest)
    else basic? isLong .all rest
  | ' ' :: rest =>
    if trim = .nothing then push ' ' (basic? isLong .nothing rest) else basic? isLong trim rest
  | '\t' :: rest =>
    if trim = .nothing then push '\t' (basic? isLong .nothing rest) else basic? isLong trim rest
  | '"' :: rest =>
    if trim = .line then none
    else if isLong then
      match rest with
      | '"' :: '"' :: '"' :: '"' :: after => some (['"', '"'], after)
      | '"' :: '"' :: '"' :: after => some (['"'], after)
      | '"' :: '"' :: after => some ([], after)
      | _ => push '"' (basic? isLong .nothing rest)
    else some ([], rest)
  | '\\' :: c :: rest =>
    if trim = .line then none
    else match c, rest with
      | 'b', rest => push '\x08' (basic? isLong .nothing rest)
      | 't', rest => push '\t' (basic? isLong .nothing rest)
      | 'n', rest => push '\n' (basic? isLong .nothing rest)
      | 'f', rest => push '\x0c' (basic? isLong .nothing rest)
      | 'r', rest => push '\r' (basic? isLong .nothing rest)
      | '"', rest => push '"' (basic? isLong .nothing rest)
      | '\\', rest => push '\\' (basic? isLong .nothing rest)
      | 'u', d₁ :: d₂ :: d₃ :: d₄ :: rest => do
        let c ← scalar? [d₁, d₂, d₃, d₄]
        push c (basic? isLong .nothing rest)
      | 'U', d₁ :: d₂ :: d₃ :: d₄ :: d₅ :: d₆ :: d₇ :: d₈ :: rest => do
        let c ← scalar? [d₁, d₂, d₃, d₄, d₅, d₆, d₇, d₈]
        push c (basic? isLong .nothing rest)
      | '\r', '\n' :: rest => if isLong then basic? isLong .all rest else none
      | '\n', rest => if isLong then basic? isLong .all rest else none
      | ' ', rest => if isLong then basic? isLong .line rest else none
      | '\t', rest => if isLong then basic? isLong .line rest else none
      | _, _ => none
  | c :: rest =>
    if trim ≠ .line ∧ isPlainChar c = true ∧ c ≠ '\\' then push c (basic? isLong .nothing rest)
    else none
  | [] => none

/-- Reads a string in single quotes, on one line or between triple quotes. -/
def literal? (isLong : Bool) : List Char → Option (List Char × List Char)
  | '\n' :: rest => if isLong then push '\n' (literal? isLong rest) else none
  | '\r' :: '\n' :: rest => if isLong then push '\n' (literal? isLong rest) else none
  | '\'' :: rest =>
    if isLong then
      match rest with
      | '\'' :: '\'' :: '\'' :: '\'' :: after => some (['\'', '\''], after)
      | '\'' :: '\'' :: '\'' :: after => some (['\''], after)
      | '\'' :: '\'' :: after => some ([], after)
      | _ => push '\'' (literal? isLong rest)
    else some ([], rest)
  | c :: rest => if isPlainChar c then push c (literal? isLong rest) else none
  | [] => none

/-- Drops the end of the line after the opening quotes of a long string. -/
def skipFirstNewline : List Char → List Char
  | '\n' :: rest => rest
  | '\r' :: '\n' :: rest => rest
  | text => text

/-- Reads a string with its quotes. -/
def read? : List Char → Option (String × List Char)
  | '"' :: '"' :: '"' :: rest => finish (basic? true .nothing (skipFirstNewline rest))
  | '"' :: rest => finish (basic? false .nothing rest)
  | '\'' :: '\'' :: '\'' :: rest => finish (literal? true (skipFirstNewline rest))
  | '\'' :: rest => finish (literal? false rest)
  | _ => none
where
  /-- The string with the characters that were read. -/
  finish (read : Option (List Char × List Char)) : Option (String × List Char) :=
    read.map fun (content, rest) => (String.ofList content, rest)

end Text

namespace Key

/-- Whether a character may stand in a name without quotes. -/
def isBareChar (c : Char) : Bool :=
  c.isAlphanum || c == '_' || c == '-'

/-- Reads a name. -/
def readName? : List Char → Option (String × List Char)
  | '"' :: rest => Text.read?.finish (Text.basic? false .nothing rest)
  | '\'' :: rest => Text.read?.finish (Text.literal? false rest)
  | text =>
    let name := text.takeWhile isBareChar
    if name = [] then none else some (String.ofList name, text.dropWhile isBareChar)

/-- Reads names with points between them, at most as many as the first argument says. -/
def readNames? : Nat → List Char → Option (List String × List Char)
  | 0, _ => none
  | count + 1, text => do
    let (name, rest) ← readName? (skipBlanks text)
    match skipBlanks rest with
    | '.' :: rest => do
      let (names, rest) ← readNames? count rest
      some (name :: names, rest)
    | rest => some ([name], rest)

/-- The number of names that a key may have. -/
def maxNames : Nat := 79

/-- Reads a key and the blanks around it. -/
def read? (text : List Char) : Option (Key × List Char) := do
  let (names, rest) ← readNames? maxNames text
  let name ← names.getLast?
  some (⟨names.dropLast, name⟩, rest)

end Key

end PhpStyle.Toml
