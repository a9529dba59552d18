/-!
# JSON text

The JSON values that reports need and their layout: every element and every field
on a line of its own, two blanks deeper than what it belongs to.
-/

namespace PhpStyle.Output

/-- A JSON value. -/
inductive Json where
  | number (value : Nat)
  | boolean (value : Bool)
  | string (content : String)
  | array (elements : List Json)
  | object (fields : List (String × Json))
deriving Repr, Inhabited

namespace Json

/-- A digit of a hexadecimal number. -/
def hexDigit (value : Nat) : Char :=
  if value < 10 then Char.ofNat ('0'.toNat + value) else Char.ofNat ('a'.toNat + (value - 10))

/-- How a character is written in a string. -/
def escape (c : Char) : List Char :=
  if c = '"' then ['\\', '"']
  else if c = '\\' then ['\\', '\\']
  else if c = '\x08' then ['\\', 'b']
  else if c = '\x0c' then ['\\', 'f']
  else if c = '\n' then ['\\', 'n']
  else if c = '\r' then ['\\', 'r']
  else if c = '\t' then ['\\', 't']
  else if c < ' ' then ['\\', 'u', '0', '0', hexDigit (c.toNat / 16), hexDigit (c.toNat % 16)]
  else [c]

/-- A string in quotes. -/
def quote (content : String) : String :=
  String.ofList ('"' :: content.toList.flatMap escape ++ ['"'])

/-- Lines between brackets, the brackets at the depth of the value. -/
def bracket (depth : Nat) (opener closer : String) : List String → String
  | [] => opener ++ closer
  | items =>
    let inner := "".pushn ' ' (2 * depth + 2)
    let separator := ",\n" ++ inner
    let body := separator.intercalate items
    let outer := "".pushn ' ' (2 * depth)
    s!"{opener}\n{inner}{body}\n{outer}{closer}"

mutual

/-- The text of a value that stands at a depth. -/
def renderAt (depth : Nat) : Json → String
  | number value => toString value
  | boolean value => if value then "true" else "false"
  | string content => quote content
  | array elements => bracket depth "[" "]" (renderElements (depth + 1) elements)
  | object fields => bracket depth "\x7b" "\x7d" (renderFields (depth + 1) fields)

/-- The texts of the elements of an array. -/
def renderElements (depth : Nat) : List Json → List String
  | [] => []
  | element :: rest => renderAt depth element :: renderElements depth rest

/-- The texts of the fields of an object. -/
def renderFields (depth : Nat) : List (String × Json) → List String
  | [] => []
  | (name, value) :: rest =>
    (quote name ++ ": " ++ renderAt depth value) :: renderFields depth rest

end

/-- The text of a value. -/
def render (value : Json) : String :=
  value.renderAt 0

end Json

end PhpStyle.Output
