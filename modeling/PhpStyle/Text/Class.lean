/-!
# Character classes

The classes of characters that PHP's lexical rules are stated with. Letters and
digits are those of ASCII; every character outside ASCII may stand in a name.
-/

namespace PhpStyle.Text

/-- Space, tab and carriage return: blanks that do not end a line. -/
def isBlank (c : Char) : Bool :=
  c == ' ' || c == '\t' || c == '\r'

/-- Space and tab, which may indent the end of a heredoc. -/
def isIndent (c : Char) : Bool :=
  c == ' ' || c == '\t'

/-- Characters that may begin a name. -/
def isNameStart (c : Char) : Bool :=
  c.isAlpha || c == '_' || 128 ≤ c.toNat

/-- Characters that may continue a name. -/
def isNameChar (c : Char) : Bool :=
  c.isAlphanum || c == '_' || 128 ≤ c.toNat

/-- Characters of a doc comment tag after its `@`. -/
def isTagChar (c : Char) : Bool :=
  c.isAlphanum || c == '_' || c == '-' || c == '\\' || c == ':'

/-- The characters with the Unicode property `White_Space`. -/
def isUnicodeSpace (c : Char) : Bool :=
  let code := c.toNat
  (9 ≤ code && code ≤ 13) || code == 0x20 || code == 0x85 || code == 0xA0 || code == 0x1680 ||
    (0x2000 ≤ code && code ≤ 0x200A) || code == 0x2028 || code == 0x2029 || code == 0x202F ||
    code == 0x205F || code == 0x3000

/-- Equality that ignores the case of ASCII letters. -/
def equalsIgnoringCase (left right : List Char) : Bool :=
  left.map Char.toLower == right.map Char.toLower

end PhpStyle.Text
