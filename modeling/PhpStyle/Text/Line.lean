/-!
# Lines

A text is cut after each line feed, each carriage return and each pair of a
carriage return and a line feed. The lines keep these characters, so that their
concatenation is the text.
-/

namespace PhpStyle

/-- A line with the characters that end it. -/
abbrev Line := List Char

/-- The lines of a text. -/
def splitLines : List Char → List Line
  | [] => []
  | '\r' :: '\n' :: rest => ['\r', '\n'] :: splitLines rest
  | c :: rest =>
    if c = '\n' ∨ c = '\r' then [c] :: splitLines rest
    else
      match splitLines rest with
      | [] => [[c]]
      | first :: others => (c :: first) :: others

/-- Whether the characters that end a line are there. -/
def Line.isEnded (line : Line) : Bool :=
  line.getLast? == some '\n' || line.getLast? == some '\r'

end PhpStyle
