import PhpStyle.Toml.Text

/-!
# TOML documents

A document is a list of statements: entries and headers. Reading first takes the
text apart into statements and then builds the table that they describe, so that
the rules about repeated names are rules about statements.
-/

namespace PhpStyle.Toml

namespace Value

/-- A reader of values: what was read and what follows. -/
abbrev Reader := List Char → Option (Value × List Char)

/-- Reads the elements of an array up to its closing bracket, at most as many as the first
argument says. A comma may follow the last element. -/
def elements? (element? : Reader) : Nat → List Char → Option (List Value × List Char)
  | 0, _ => none
  | count + 1, text => do
    match ← skipGap? false text with
    | ']' :: rest => some ([], rest)
    | text => do
      let (first, rest) ← element? text
      match ← skipGap? false rest with
      | ']' :: rest => some ([first], rest)
      | ',' :: rest => do
        let (others, rest) ← elements? element? count rest
        some (first :: others, rest)
      | _ => none

/-- Reads an entry: a key, an equals sign and a value. -/
def entry? (value? : Reader) (text : List Char) : Option ((Key × Value) × List Char) := do
  let (key, rest) ← Key.read? text
  match rest with
  | '=' :: rest => do
    let (value, rest) ← value? (skipBlanks rest)
    some ((key, value), rest)
  | _ => none

/-- Reads the entries of an inline table up to its closing brace, at least one and at most as many
as the first argument says. -/
def entries? (value? : Reader) : Nat → List Char → Option (List (Key × Value) × List Char)
  | 0, _ => none
  | count + 1, text => do
    let (first, rest) ← entry? value? text
    match skipBlanks rest with
    | '}' :: rest => some ([first], rest)
    | ',' :: rest => do
      let (others, rest) ← entries? value? count rest
      some (first :: others, rest)
    | _ => none

/-- The inline table with the given entries. -/
def inlineTable? (entries : List (Key × Value)) : Option Value := do
  let entries ← entries.foldlM (fun table (key, value) => Entries.assign? table key value) []
  some (.table .inline entries)

/-- Reads a value. Arrays and inline tables may stand in each other as deep as the first argument
says. -/
def read? : Nat → Reader
  | _, '"' :: rest => (Text.read? ('"' :: rest)).map fun (content, rest) => (.string content, rest)
  | _, '\'' :: rest =>
    (Text.read? ('\'' :: rest)).map fun (content, rest) => (.string content, rest)
  | depth, '[' :: rest =>
    match depth with
    | 0 => none
    | depth + 1 => do
      let (elements, rest) ← elements? (read? depth) (rest.length + 1) rest
      some (.array elements, rest)
  | depth, '\x7b' :: rest =>
    match depth with
    | 0 => none
    | depth + 1 => do
      match skipBlanks rest with
      | '\x7d' :: rest => some (.table .inline [], rest)
      | _ => do
        let (entries, rest) ← entries? (read? depth) (rest.length + 1) rest
        some (← inlineTable? entries, rest)
  | _, text => Scalar.read? text

/-- How deep arrays and inline tables may stand in each other. -/
def maxDepth : Nat := 79

end Value

/-- A statement of a document. -/
inductive Statement where
  | entry (key : Key) (value : Value)
  /-- The header of a table. -/
  | tableHeader (key : Key)
  /-- The header of the next of several tables of one name. -/
  | nextTableHeader (key : Key)
deriving Repr, Inhabited

namespace Statement

/-- Reads a statement that starts with the first character of the text. -/
def read? : List Char → Option (Statement × List Char)
  | '[' :: '[' :: rest => do
    match ← Key.read? rest with
    | (key, ']' :: ']' :: rest) => some (.nextTableHeader key, rest)
    | _ => none
  | '[' :: rest => do
    match ← Key.read? rest with
    | (key, ']' :: rest) => some (.tableHeader key, rest)
    | _ => none
  | text => do
    let ((key, value), rest) ← Value.entry? (Value.read? Value.maxDepth) text
    some (.entry key value, rest)

/-- Whether the line that starts here has no statement. -/
def isBlankLine (text : List Char) : Bool :=
  match skipBlanks text with
  | [] | '#' :: _ | '\n' :: _ | '\r' :: _ => true
  | _ => false

/-- Reads the statements of a text of at most as many lines as the first argument says. -/
def readAll? : Nat → List Char → Option (List Statement)
  | _, [] => some []
  | 0, _ => none
  | count + 1, text => do
    if isBlankLine text then readAll? count (← skipLineEnd? text)
    else
      let (statement, rest) ← read? (skipBlanks text)
      let others ← readAll? count (← skipLineEnd? rest)
      some (statement :: others)

end Statement

/-- A document while it is built: its table and the name of the table that gets the next
entries. -/
structure Builder where
  entries : Entries := []
  current : List String := []

/-- Obeys a statement. -/
def Builder.obey? (builder : Builder) : Statement → Option Builder
  | .entry key value => do
    let entries ← Entries.alterAt? false (fun _ inner => inner.assign? key value)
      builder.current .header builder.entries
    some { builder with entries }
  | .tableHeader key => do
    some { entries := ← builder.entries.openTable? key, current := key.path ++ [key.name] }
  | .nextTableHeader key => do
    some { entries := ← builder.entries.openNextTable? key, current := key.path ++ [key.name] }

/-- Reads a document. A byte order mark at its start does not count. -/
def document? (text : String) : Option Entries := do
  let chars := if text.toList.head? = some '\ufeff' then text.toList.drop 1 else text.toList
  let statements ← Statement.readAll? chars.length chars
  let builder ← statements.foldlM Builder.obey? {}
  some builder.entries

end PhpStyle.Toml
