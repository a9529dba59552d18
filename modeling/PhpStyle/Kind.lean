/-!
# Token kinds

The lexical categories of PHP source that the coding standard distinguishes.
The list is flat: a keyword is a kind of its own, and so are the two readings of
`function` (a declaration or a closure), of `class` (a declaration or an
anonymous class) and of the square bracket (an offset or a short array), because
rules ask for exactly one of the readings.

Doc comments are cut into six kinds, so that a rule can address one tag of a
comment as a token.
-/

namespace PhpStyle

/-- The lexical category of a token. -/
inductive Kind where
  | inlineHtml
  | openTag
  | openTagWithEcho
  | closeTag
  | whitespace
  | comment
  | docOpen
  | docClose
  | docStar
  | docWhitespace
  | docTag
  | docString
  | variableName
  | name
  | singleQuoted
  | doubleQuoted
  | heredoc
  | integer
  | decimal
  | classKw
  | interfaceKw
  | traitKw
  | anonClass
  | functionKw
  | closure
  | fnKw
  | abstractKw
  | finalKw
  | staticKw
  | publicKw
  | protectedKw
  | privateKw
  | varKw
  | constKw
  | readonlyKw
  | returnKw
  | arrayKw
  | newKw
  | extendsKw
  | implementsKw
  | namespaceKw
  | useKw
  | openParenthesis
  | closeParenthesis
  | openCurly
  | closeCurly
  | openSquare
  | closeSquare
  | openShortArray
  | closeShortArray
  | attributeStart
  | attributeEnd
  | semicolon
  | comma
  | colon
  | doubleColon
  | objectOperator
  | doubleArrow
  | equal
  | ampersand
  | operator
deriving DecidableEq, Repr, Inhabited

namespace Kind

/-- The name PHP tooling writes for each kind, in the order of the kinds. -/
def names : List (Kind × String) :=
  [(inlineHtml, "T_INLINE_HTML"), (openTag, "T_OPEN_TAG"),
   (openTagWithEcho, "T_OPEN_TAG_WITH_ECHO"), (closeTag, "T_CLOSE_TAG"),
   (whitespace, "T_WHITESPACE"), (comment, "T_COMMENT"),
   (docOpen, "T_DOC_COMMENT_OPEN_TAG"), (docClose, "T_DOC_COMMENT_CLOSE_TAG"),
   (docStar, "T_DOC_COMMENT_STAR"), (docWhitespace, "T_DOC_COMMENT_WHITESPACE"),
   (docTag, "T_DOC_COMMENT_TAG"), (docString, "T_DOC_COMMENT_STRING"),
   (variableName, "T_VARIABLE"), (name, "T_STRING"),
   (singleQuoted, "T_CONSTANT_ENCAPSED_STRING"), (doubleQuoted, "T_DOUBLE_QUOTED_STRING"),
   (heredoc, "T_HEREDOC"), (integer, "T_LNUMBER"), (decimal, "T_DNUMBER"),
   (classKw, "T_CLASS"), (interfaceKw, "T_INTERFACE"), (traitKw, "T_TRAIT"),
   (anonClass, "T_ANON_CLASS"), (functionKw, "T_FUNCTION"), (closure, "T_CLOSURE"),
   (fnKw, "T_FN"), (abstractKw, "T_ABSTRACT"), (finalKw, "T_FINAL"),
   (staticKw, "T_STATIC"), (publicKw, "T_PUBLIC"), (protectedKw, "T_PROTECTED"),
   (privateKw, "T_PRIVATE"), (varKw, "T_VAR"), (constKw, "T_CONST"),
   (readonlyKw, "T_READONLY"), (returnKw, "T_RETURN"), (arrayKw, "T_ARRAY"),
   (newKw, "T_NEW"), (extendsKw, "T_EXTENDS"), (implementsKw, "T_IMPLEMENTS"),
   (namespaceKw, "T_NAMESPACE"), (useKw, "T_USE"),
   (openParenthesis, "T_OPEN_PARENTHESIS"), (closeParenthesis, "T_CLOSE_PARENTHESIS"),
   (openCurly, "T_OPEN_CURLY_BRACKET"), (closeCurly, "T_CLOSE_CURLY_BRACKET"),
   (openSquare, "T_OPEN_SQUARE_BRACKET"), (closeSquare, "T_CLOSE_SQUARE_BRACKET"),
   (openShortArray, "T_OPEN_SHORT_ARRAY"), (closeShortArray, "T_CLOSE_SHORT_ARRAY"),
   (attributeStart, "T_ATTRIBUTE"), (attributeEnd, "T_ATTRIBUTE_END"),
   (semicolon, "T_SEMICOLON"), (comma, "T_COMMA"), (colon, "T_COLON"),
   (doubleColon, "T_DOUBLE_COLON"), (objectOperator, "T_OBJECT_OPERATOR"),
   (doubleArrow, "T_DOUBLE_ARROW"), (equal, "T_EQUAL"),
   (ampersand, "T_BITWISE_AND"), (operator, "T_OPERATOR")]

/-- The written name of a kind. -/
def toName (kind : Kind) : String :=
  (names.lookup kind).getD ""

/-- The kind with the given written name. -/
def ofName? (text : String) : Option Kind :=
  (names.find? fun entry => entry.2 == text).map Prod.fst

/-- Every kind, in order. -/
def all : List Kind :=
  names.map Prod.fst

/-- The kinds of the parts of a doc comment. -/
def isDocComment : Kind → Bool
  | docOpen | docClose | docStar | docWhitespace | docTag | docString => true
  | _ => false

/-- Whitespace and comments, which never change what a program means. -/
def isTrivia : Kind → Bool
  | whitespace | comment => true
  | kind => kind.isDocComment

/-- Kinds that carry meaning. -/
def isSignificant (kind : Kind) : Bool :=
  !kind.isTrivia

/-- The modifiers that may stand before a method. -/
def isModifier : Kind → Bool
  | abstractKw | finalKw | staticKw | publicKw | protectedKw | privateKw | readonlyKw => true
  | _ => false

/-- The keywords that may own the block of braces after them. -/
def ownsBraces : Kind → Bool
  | classKw | interfaceKw | traitKw | anonClass | functionKw | closure => true
  | _ => false

/-- The kinds the lexer gives to reserved words. -/
def isKeyword : Kind → Bool
  | classKw | interfaceKw | traitKw | functionKw | fnKw | abstractKw | finalKw | staticKw
  | publicKw | protectedKw | privateKw | varKw | constKw | readonlyKw | returnKw | arrayKw
  | newKw | extendsKw | implementsKw | namespaceKw | useKw => true
  | _ => false

/-- The reserved words, in lower case. -/
def keywords : List (String × Kind) :=
  [("class", classKw), ("interface", interfaceKw), ("trait", traitKw),
   ("function", functionKw), ("fn", fnKw), ("abstract", abstractKw), ("final", finalKw),
   ("static", staticKw), ("public", publicKw), ("protected", protectedKw),
   ("private", privateKw), ("var", varKw), ("const", constKw), ("readonly", readonlyKw),
   ("return", returnKw), ("array", arrayKw), ("new", newKw), ("extends", extendsKw),
   ("implements", implementsKw), ("namespace", namespaceKw), ("use", useKw)]

/-- The kind of a written name: reserved words are recognised in any ASCII case. -/
def ofWord (text : List Char) : Kind :=
  (keywords.lookup (String.ofList (text.map Char.toLower))).getD name

/-- The operators of more than one character and the single characters with a kind of
their own. An operator comes after every longer one that it begins. -/
def operators : List (List Char × Kind) :=
  [("===", operator), ("!==", operator), ("<=>", operator), ("**=", operator),
   ("...", operator), ("<<=", operator), (">>=", operator), ("??=", operator),
   ("?->", objectOperator),
   ("::", doubleColon), ("->", objectOperator), ("=>", doubleArrow), ("==", operator),
   ("!=", operator), ("<>", operator), ("<=", operator), (">=", operator), ("&&", operator),
   ("||", operator), ("++", operator), ("--", operator), ("+=", operator), ("-=", operator),
   ("*=", operator), ("/=", operator), (".=", operator), ("%=", operator), ("&=", operator),
   ("|=", operator), ("^=", operator), ("<<", operator), (">>", operator), ("??", operator),
   ("**", operator),
   ("(", openParenthesis), (")", closeParenthesis), ("\x7b", openCurly), ("\x7d", closeCurly),
   ("[", openSquare), ("]", closeSquare), (";", semicolon), (",", comma), (":", colon),
   ("=", equal), ("&", ampersand)].map fun entry => (entry.1.toList, entry.2)

end Kind

/-- The kind of a region of the source that is bounded by an opener and a closer. -/
inductive ScopeKind where
  | classBody
  | interfaceBody
  | traitBody
  | anonClassBody
  | functionBody
  | closureBody
  | arrayLiteral
  | docComment
deriving DecidableEq, Repr, Inhabited

namespace ScopeKind

/-- Every scope kind with its written name, in order. -/
def names : List (ScopeKind × String) :=
  [(classBody, "Class"), (interfaceBody, "Interface"), (traitBody, "Trait"),
   (anonClassBody, "AnonClass"), (functionBody, "Function"), (closureBody, "Closure"),
   (arrayLiteral, "Array"), (docComment, "DocComment")]

/-- The written name of a scope kind. -/
def toName (kind : ScopeKind) : String :=
  (names.lookup kind).getD ""

/-- The scope kind with the given written name. -/
def ofName? (text : String) : Option ScopeKind :=
  (names.find? fun entry => entry.2 == text).map Prod.fst

/-- Every scope kind, in order. -/
def all : List ScopeKind :=
  names.map Prod.fst

/-- The kind of scope that a token of the given kind opens. -/
def ofOwner? : Kind → Option ScopeKind
  | .classKw => some classBody
  | .interfaceKw => some interfaceBody
  | .traitKw => some traitBody
  | .anonClass => some anonClassBody
  | .functionKw => some functionBody
  | .closure => some closureBody
  | .arrayKw | .openShortArray => some arrayLiteral
  | .docOpen => some docComment
  | _ => none

/-- Bodies that hold members. -/
def isClassLike : ScopeKind → Bool
  | classBody | interfaceBody | traitBody | anonClassBody => true
  | _ => false

/-- Bodies that hold statements. -/
def isFunctionLike : ScopeKind → Bool
  | functionBody | closureBody => true
  | _ => false

end ScopeKind

end PhpStyle
