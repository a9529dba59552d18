import PhpStyle.Stream.Declaration
import PhpStyle.Stream.Scope
import PhpStyle.TagTable

/-!
# Comments on functions

Public functions need a doc comment directly above them. A comment that inherits
its text is left alone. Otherwise its tags come in the order of a table, and its
`@return` tag has to agree with the body:

* a function that returns a value has one `@return` tag, and the tag has a type;
* a function that returns nothing has no `@return` tag;
* a function without a body may have one.

Constructors and destructors may do as they like with `@return`.
-/

namespace PhpStyle.Standard.FunctionComment

/-- How the rule is presented. -/
def info : RuleInfo where
  name := "function_comment"
  code := "Symfony.Commenting.FunctionComment"
  description := "Public functions need a doc comment whose @return tag matches the body"

/-- The tags of a function comment. -/
def table : TagTable where
  subject := "function"
  specs :=
    [{ name := "@param", allowsMany := true }, { name := "@return" },
     { name := "@throws", allowsMany := true }, { name := "@see", allowsMany := true },
     { name := "@since" }, { name := "@deprecated" }]

/-- Kinds at which the search for a comment stops. -/
def endsSearch : Kind → Bool
  | .comment | .docClose | .classKw | .interfaceKw | .traitKw | .anonClass | .functionKw
  | .closure | .openTag => true
  | _ => false

/-- The comment, declaration or opening tag before a function. -/
def boundary? (stream : Stream) (index : Nat) : Option Nat :=
  if index = 0 then none else stream.findPrevious endsSearch (index - 1)

/-- The marker of a comment that inherits its text. -/
def inheritMarker : List Char :=
  "\x7b@inheritdoc\x7d".toList

/-- Whether a word stands somewhere in a text. -/
def holdsWord (word : List Char) : List Char → Bool
  | [] => word.isEmpty
  | c :: rest => word.isPrefixOf (c :: rest) || holdsWord word rest

/-- Whether a text has the marker, in any ASCII case. -/
def inherits (text : List Char) : Bool :=
  holdsWord inheritMarker (text.map Char.toLower)

/-- Whether the doc comment that closes at an index inherits its text. -/
def inheritsAt (stream : Stream) (closer : Nat) : Bool :=
  ((stream.get? closer).bind fun token => token.docBlock).any fun block =>
    (stream.content? block.opener closer).any inherits

/-- Whether the visibility of a function is public. -/
def isPublic (stream : Stream) (index : Nat) : Bool :=
  (stream.modifiers? index).any fun modifiers => modifiers.visibility == .publicAccess

/-- Kinds that may stand between the comment and the keyword. -/
def maySeparate (kind : Kind) : Bool :=
  kind.isModifier || kind == .whitespace

/-- Whether a function is documented, as a metric. -/
def documented (index : Nat) (value : String) : Finding :=
  .metric ⟨index, "Function has doc comment", value⟩

/-- The comment has to end on the line above the function. -/
def spacing (stream : Stream) (commentEnd declaration : Nat) : List Finding :=
  if (stream.line? commentEnd).map (· + 1) = stream.line? declaration then []
  else
    [.violation
      { message := "There must be no blank lines after the function comment"
        anchor := commentEnd
        code := "SpacingAfter" }]

/-- Whether a function returns a value: a `return` of its own is followed by more than `;`. -/
def returnsValue (stream : Stream) (index : Nat) : Bool :=
  (stream.scopeOf? index).any fun scope =>
    (List.range' (scope.opener + 1) (scope.closer - scope.opener)).any fun found =>
      stream.kind? found == some .returnKw && stream.owningFunction? found == some index &&
        ((stream.nextSignificant (found + 1) (some scope.closer)).bind stream.kind?).any
          (· != .semicolon)

/-- Whether a function is a constructor or a destructor. -/
def isLifecycle (stream : Stream) (index : Nat) : Bool :=
  (stream.declarationName? index).any fun name =>
    name == "__construct".toList || name == "__destruct".toList

/-- A violation whose repair deletes a tag. -/
def superfluous (stream : Stream) (comment : Comment) (tag : Tag) (message code : String) :
    Finding :=
  .violation
    { message, anchor := tag.token, code, repair := some (stream.tagDeletion comment tag) }

/-- The findings on the `@return` tags of a comment. -/
def onReturn (stream : Stream) (index : Nat) (comment : Comment) : List Finding :=
  if isLifecycle stream index then []
  else
    match comment.tagsNamed "@return" with
    | _ :: second :: _ =>
      [superfluous stream comment second "Only 1 @return tag is allowed in a function comment"
        "DuplicateReturn"]
    | tags =>
      if ((stream.get? index).bind fun token => token.braces).isNone then []
      else
        match tags, returnsValue stream index with
        | tag :: _, true =>
          if (tag.content.getD "").isEmpty then
            [.violation
              { message := "Return type missing for @return tag in function comment"
                anchor := tag.token
                code := "MissingReturnType" }]
          else []
        | tag :: _, false =>
          [superfluous stream comment tag "Omit @return tag if the method does not return anything"
            "OmitReturn"]
        | [], true =>
          [.violation
            { message := "Missing @return tag in function comment"
              anchor := comment.closer
              code := "MissingReturn" }]
        | [], false => []

/-- Tags that the rule takes from the table. -/
def isReturn (name : String) : Bool :=
  Text.equalsIgnoringCase name.toList "@return".toList

/-- The findings on the comment of a function, given where it ends. -/
def onComment (stream : Stream) (index commentEnd : Nat) : List Finding :=
  documented index "yes" ::
    match stream.nextSignificant (commentEnd + 1) (some index) with
    | none => []
    | some declaration =>
      spacing stream commentEnd declaration ++
        match stream.commentAt? commentEnd with
        | some comment =>
          table.findings isReturn (fun _ => []) (onReturn stream index comment) comment
        | none => []

/-- The findings on the token above a function. -/
def onPreceding (stream : Stream) (index : Nat) (isRequired : Bool) : List Finding :=
  let commentEnd := stream.commentEnd? index maySeparate
  match commentEnd.bind stream.kind? with
  | some .docClose => (commentEnd.map (onComment stream index)).getD []
  | kind =>
    if !isRequired then []
    else if kind = some .comment then
      [documented index "yes",
       .violation
        { message := "You must use \"/**\" style comments for a function comment"
          anchor := index
          code := "WrongStyle" }]
    else
      [.violation { message := "Missing function doc comment", anchor := index, code := "Missing" },
       documented index "no"]

/-- The findings at the keyword of a function. -/
def find (stream : Stream) (index : Nat) : List Finding :=
  match boundary? stream index with
  | none => []
  | some boundary =>
    let hasDocComment := stream.kind? boundary == some .docClose
    let isRequired := isPublic stream index
    if hasDocComment && inheritsAt stream boundary then []
    else if !isRequired && !hasDocComment then []
    else onPreceding stream index isRequired

/-- The rule. -/
def rule : Rule :=
  .ofFindings info [.functionKw] find

end PhpStyle.Standard.FunctionComment
