import PhpStyle.Proofs.Guarded
import PhpStyle.Standard

/-!
# Guarded rules

What the rules of the standard find at a token, with every token and every entry of a tag
table that a rule takes to be there read by its index. A rule is called at the tokens of a
file only, and everywhere else it goes by the pointers of tokens, by what a search has
found, and by the tags of a comment: no read fails, and the guarded rules find what the
rules find.
-/

namespace PhpStyle

open PhpStyle.Stream List

namespace Guarded

section Tables

variable (table : TagTable) (takes : String → Bool)

/-- The verdicts on tags, where the spec of a known tag is read from the table. -/
def judge (seen : List String) (furthest : Option (Nat × String)) :
    List Tag → Guarded (List Verdict)
  | [] => return []
  | tag :: rest => do
    if takes tag.name then return .taken tag :: (← judge seen furthest rest)
    else
      match table.position? tag.name with
      | none => return table.emptySee tag ++ (← judge seen furthest rest)
      | some position =>
        let spec ← read table.specs position
        let front := table.emptySee tag ++ table.duplicate spec tag seen
        match furthest with
        | some (furthestPosition, furthestName) =>
          if position < furthestPosition then
            let later ← judge (spec.name :: seen) furthest rest
            return front ++ TagTable.misplaced spec.name tag furthestName :: later
          else return front ++ (← judge (spec.name :: seen) (some (position, spec.name)) rest)
        | none => return front ++ (← judge (spec.name :: seen) (some (position, spec.name)) rest)

/-- Validates a comment. -/
def validate (comment : Comment) : Guarded (List Verdict) := do
  return (← judge table takes [] none comment.tags) ++ table.missing comment ++ [.finished]

/-- The answer of a rule to a verdict. -/
def answer (onTaken : Tag → Guarded (List Finding)) (onFinished : Guarded (List Finding)) :
    Verdict → Guarded (List Finding)
  | .taken tag => onTaken tag
  | .violation violation => return [.violation violation]
  | .finished => onFinished

/-- The findings of a rule that handles the tags that it takes, and speaks last. -/
def findings (onTaken : Tag → Guarded (List Finding)) (onFinished : Guarded (List Finding))
    (comment : Comment) : Guarded (List Finding) := do
  return (← (← validate table takes comment).mapM (answer onTaken onFinished)).flatten

variable {table takes}

end Tables

section Comments

variable (stream : Stream)

/-- The kind of the token that a search has found, if it has found one. -/
def kindOf : Option Nat → Guarded (Option Kind)
  | none => return none
  | some place => do return some (← token stream place).kind

/-- Whether a token does not go with a tag on the given line before it. -/
def stays (line index : Nat) : Guarded Bool := do
  let found ← token stream index
  return !(found.line == line && found.kind != .docTag && !found.hasNewline)

/-- The edits that delete a tag with its text, up to the next tag, the closer or the newline. -/
def textDeletion (comment : Comment) (tag : Tag) : Guarded (List Edit) := do
  let line := (← token stream tag.token).line
  let stop ← firstIndex (stays stream line) (tag.token + 1) (comment.closer - (tag.token + 1))
  return Fixer.deletions tag.token (stop.getD comment.closer - 1)

/-- The edits that delete a tag from its comment. -/
def tagDeletion (comment : Comment) (tag : Tag) : Guarded (List Edit) := do
  match ← lineSpan? stream tag.token with
  | some (first, last) =>
    if comment.opener < first ∧ last < comment.closer then return Fixer.deletions first last
    else textDeletion stream comment tag
  | none => textDeletion stream comment tag

variable {stream}

end Comments

namespace ClassComment

open Standard.ClassComment (maySeparate isUnused table documented)

variable (stream : Stream)

/-- The finding on a tag that is not used. -/
def unusedTag (comment : Comment) (tag : Tag) : Guarded (List Finding) := do
  return [.violation
    { message := s!"The {tag.name} annotation is not used"
      anchor := tag.token
      code := if tag.name == "@package" then "InvalidPackage" else "InvalidSubpackage"
      repair := some (← tagDeletion stream comment tag) }]

/-- The findings on the tags of a class comment that ends at an index. -/
def onComment (commentEnd : Nat) : Guarded (List Finding) := do
  match ← commentAt? stream commentEnd with
  | some comment => findings table isUnused (unusedTag stream comment) (return []) comment
  | none => return []

/-- The findings at the keyword of a class. -/
def find (index : Nat) : Guarded (List Finding) := do
  let commentEnd ← commentEnd? stream index maySeparate
  match commentEnd, ← kindOf stream commentEnd with
  | some place, some .docClose => return documented index "yes" :: (← onComment stream place)
  | _, some .comment =>
    return [documented index "yes",
      .violation
        { message := "You must use \"/**\" style comments for a class comment"
          anchor := index
          code := "WrongStyle" }]
  | _, _ =>
    return [.violation
        { message := "Missing class doc comment", anchor := index, code := "Missing" },
      documented index "no"]

end ClassComment

namespace FunctionComment

open Standard.FunctionComment (endsSearch inherits maySeparate documented isReturn table)

section Findings

variable (stream : Stream)

/-- Whether a token closes a doc comment that inherits its text. -/
def inheritsAt (place : Nat) (found : Token) : Guarded Bool := do
  if found.kind = .docClose then
    match found.docBlock with
    | none => return false
    | some block => return inherits (← content stream block.opener place)
  else return false

/-- The comment has to end on the line above the function. -/
def spacing (commentEnd declaration : Nat) : Guarded (List Finding) := do
  if (← token stream commentEnd).line + 1 = (← token stream declaration).line then return []
  else
    return [.violation
      { message := "There must be no blank lines after the function comment"
        anchor := commentEnd
        code := "SpacingAfter" }]

/-- Whether a token is a `return` of the given function, followed by more than `;`. -/
def returnsAt (index closer found : Nat) : Guarded Bool := do
  if (← token stream found).kind = .returnKw ∧ (← owningFunction? stream found) = some index then
    match ← kindOf stream (← findNext stream Kind.isSignificant (found + 1) (some closer)) with
    | none => return false
    | some kind => return kind != .semicolon
  else return false

/-- Whether a function returns a value. -/
def returnsValue (index : Nat) : Guarded Bool := do
  match ← scopeOf? stream index with
  | none => return false
  | some scope =>
    (List.range' (scope.opener + 1) (scope.closer - scope.opener)).anyM
      (returnsAt stream index scope.closer)

/-- Whether a function is a constructor or a destructor. -/
def isLifecycle (index : Nat) : Guarded Bool := do
  return (← declarationName? stream index).any fun name =>
    name == "__construct".toList || name == "__destruct".toList

/-- A violation whose repair deletes a tag. -/
def superfluous (comment : Comment) (tag : Tag) (message code : String) : Guarded Finding := do
  let repair ← tagDeletion stream comment tag
  return .violation { message, anchor := tag.token, code, repair := some repair }

/-- The findings on the `@return` tags of a comment. -/
def onReturn (index : Nat) (comment : Comment) : Guarded (List Finding) := do
  if ← isLifecycle stream index then return []
  else
    match comment.tagsNamed "@return" with
    | _ :: second :: _ =>
      return [← superfluous stream comment second
        "Only 1 @return tag is allowed in a function comment" "DuplicateReturn"]
    | tags =>
      if (← token stream index).braces.isNone then return []
      else
        match tags, ← returnsValue stream index with
        | tag :: _, true =>
          if (tag.content.getD "").isEmpty then
            return [.violation
              { message := "Return type missing for @return tag in function comment"
                anchor := tag.token
                code := "MissingReturnType" }]
          else return []
        | tag :: _, false =>
          return [← superfluous stream comment tag
            "Omit @return tag if the method does not return anything" "OmitReturn"]
        | [], true =>
          return [.violation
            { message := "Missing @return tag in function comment"
              anchor := comment.closer
              code := "MissingReturn" }]
        | [], false => return []

/-- The findings on the tags of the comment of a function that ends at an index. -/
def onTags (index commentEnd : Nat) : Guarded (List Finding) := do
  match ← commentAt? stream commentEnd with
  | some comment =>
    findings table isReturn (fun _ => return []) (onReturn stream index comment) comment
  | none => return []

/-- The findings on the comment of a function, given where it ends. -/
def onComment (index commentEnd : Nat) : Guarded (List Finding) := do
  match ← findNext stream Kind.isSignificant (commentEnd + 1) (some index) with
  | none => return [documented index "yes"]
  | some declaration =>
    let spaced ← spacing stream commentEnd declaration
    return documented index "yes" :: (spaced ++ (← onTags stream index commentEnd))

/-- The findings on the token above a function. -/
def onPreceding (index : Nat) (isRequired : Bool) : Guarded (List Finding) := do
  let commentEnd ← commentEnd? stream index maySeparate
  match commentEnd, ← kindOf stream commentEnd with
  | some place, some .docClose => onComment stream index place
  | _, kind =>
    if !isRequired then return []
    else if kind = some .comment then
      return [documented index "yes",
        .violation
          { message := "You must use \"/**\" style comments for a function comment"
            anchor := index
            code := "WrongStyle" }]
    else
      return [.violation
          { message := "Missing function doc comment", anchor := index, code := "Missing" },
        documented index "no"]

/-- The findings at the keyword of a function. -/
def find (index : Nat) : Guarded (List Finding) := do
  match ← lastBefore stream endsSearch index with
  | none => return []
  | some boundary =>
    let found ← token stream boundary
    if ← inheritsAt stream boundary found then return []
    else
      let isRequired := (← modifiers stream index).visibility == .publicAccess
      if !isRequired && found.kind != .docClose then return []
      else onPreceding stream index isRequired

end Findings

variable {lexemes : List Lexeme} {index place : Nat}

section Comments

variable {commentEnd : Nat} {comment : Comment}

end Comments

end FunctionComment

namespace MethodOrder

/-- The findings at a method, given the lowest visibility so far. -/
def find (stream : Stream) (index : Nat) (lowest : Option Visibility) :
    Guarded (List Finding × Option Visibility × Option Nat) := do
  let visibility := (← modifiers stream index).visibility
  let methodEnd ← declarationEnd? stream index
  if lowest.any fun current => visibility.rank < current.rank then
    return ([.violation
      { message := "Methods must be ordered public, protected, private"
        anchor := index
        code := "OrderMethodsByVisibility" }], lowest, methodEnd)
  else return ([], some visibility, methodEnd)

end MethodOrder

namespace PropertyOrder

/-- The findings at a member, given whether a method has been seen. -/
def find (stream : Stream) (index : Nat) (methodSeen : Bool) :
    Guarded (List Finding × Bool × Option Nat) := do
  if (← token stream index).kind = .functionKw then
    return ([], true, ← declarationEnd? stream index)
  else if methodSeen then
    return ([.violation
      { message := "Class properties must be declared before methods"
        anchor := index
        code := "DeclarePropertiesBeforeMethods" }], true, none)
  else return ([], false, none)

end PropertyOrder

namespace ArrayComma

/-- The last significant token of an array literal that spans lines. -/
def lastToken? (stream : Stream) (index : Nat) : Guarded (Option Nat) := do
  match ← scopeOf? stream index with
  | none => return none
  | some scope =>
    if (← token stream scope.opener).line = (← token stream scope.closer).line ∨
        scope.closer = 0 then return none
    else findPrevious stream Kind.isSignificant (scope.closer - 1) (scope.opener + 1)

/-- The findings at the start of an array literal. -/
def find (stream : Stream) (index : Nat) : Guarded (List Finding) := do
  match ← lastToken? stream index with
  | none => return []
  | some last =>
    if (← token stream last).kind = .comma then return []
    else
      return [.violation
        { message := "Comma missing after last array item"
          anchor := last
          code := "CommaMissing"
          repair := some [.append last [',']] }]

end ArrayComma

end Guarded

end PhpStyle
