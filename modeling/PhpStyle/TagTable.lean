import PhpStyle.Rule
import PhpStyle.Stream.Comment

/-!
# Tables of doc comment tags

A table lists the tags that a doc comment may have, in the order in which they
should stand, and says which are required and which may be repeated. Validation
goes through the tags of a comment in source order. A rule may take tags for
itself: they are handed to it and not held against the table.

Names in a table are compared exactly, also in their case.
-/

namespace PhpStyle

/-- A known tag. -/
structure TagSpec where
  name : String
  isRequired : Bool := false
  allowsMany : Bool := false
deriving DecidableEq, Repr, Inhabited

/-- The known tags of the comments on a subject, in order. -/
structure TagTable where
  /-- What the comments document. -/
  subject : String
  specs : List TagSpec
deriving DecidableEq, Repr, Inhabited

/-- A step of the validation of a comment. -/
inductive Verdict where
  /-- A tag is handed to the rule that takes it. -/
  | taken (tag : Tag)
  /-- Something is wrong. -/
  | violation (violation : Violation)
  /-- The comment has been gone through. -/
  | finished
deriving DecidableEq, Repr, Inhabited

/-- The name of a tag as a part of codes: without `@`, and capitalised. -/
def tagCode (name : String) : String :=
  match name.toList.dropWhile (· == '@') with
  | [] => ""
  | first :: rest => String.ofList (first.toUpper :: rest)

namespace TagTable

/-- The place of a name in the table. -/
def position? (table : TagTable) (name : String) : Option Nat :=
  table.specs.findIdx? fun spec => spec.name == name

/-- A `@see` tag has to refer to something. -/
def emptySee (table : TagTable) (tag : Tag) : List Verdict :=
  if tag.name = "@see" ∧ tag.content = none then
    [.violation ⟨s!"Content missing for @see tag in {table.subject} comment", tag.token,
      "EmptySees", none⟩]
  else []

/-- A tag that may not be repeated is repeated. -/
def duplicate (table : TagTable) (spec : TagSpec) (tag : Tag) (seen : List String) :
    List Verdict :=
  if seen.contains spec.name && !spec.allowsMany then
    [.violation ⟨s!"Only one {spec.name} tag is allowed in a {table.subject} comment", tag.token,
      s!"Duplicate{tagCode spec.name}Tag", none⟩]
  else []

/-- A tag that should stand before the furthest tag so far. -/
def misplaced (name : String) (tag : Tag) (furthest : String) : Verdict :=
  .violation ⟨s!"The {name} tag is in the wrong order; the tag precedes {furthest}", tag.token,
    s!"{tagCode name}TagOrder", none⟩

/-- The verdicts on tags, given the known names so far and the furthest of them in the table. -/
def judge (table : TagTable) (takes : String → Bool) (seen : List String)
    (furthest : Option (Nat × String)) : List Tag → List Verdict
  | [] => []
  | tag :: rest =>
    if takes tag.name then .taken tag :: judge table takes seen furthest rest
    else
      table.emptySee tag ++
      match table.position? tag.name with
      | none => judge table takes seen furthest rest
      | some position =>
        let spec := table.specs.getD position ⟨tag.name, false, true⟩
        table.duplicate spec tag seen ++
        match furthest with
        | some (furthestPosition, furthestName) =>
          if position < furthestPosition then
            misplaced spec.name tag furthestName ::
              judge table takes (spec.name :: seen) furthest rest
          else judge table takes (spec.name :: seen) (some (position, spec.name)) rest
        | none => judge table takes (spec.name :: seen) (some (position, spec.name)) rest

/-- The required tags that a comment does not have. -/
def missing (table : TagTable) (comment : Comment) : List Verdict :=
  (table.specs.filter fun spec =>
    spec.isRequired && !comment.tags.any fun tag => tag.name == spec.name).map fun spec =>
    .violation ⟨s!"Missing {spec.name} tag in {table.subject} comment", comment.closer,
      s!"Missing{tagCode spec.name}Tag", none⟩

/-- Validates a comment. -/
def validate (table : TagTable) (takes : String → Bool) (comment : Comment) : List Verdict :=
  table.judge takes [] none comment.tags ++ table.missing comment ++ [.finished]

/-- The findings of a rule that handles the tags that it takes, and speaks last. -/
def findings (table : TagTable) (takes : String → Bool) (onTaken : Tag → List Finding)
    (onFinished : List Finding) (comment : Comment) : List Finding :=
  (table.validate takes comment).flatMap fun verdict =>
    match verdict with
    | .taken tag => onTaken tag
    | .violation violation => [.violation violation]
    | .finished => onFinished

end TagTable

namespace Stream

/-- The edits that delete a tag from its comment. A line inside the comment goes as a whole. On the
lines of the delimiters the tag goes with its text up to the next tag, the closer or the newline. -/
def tagDeletion (stream : Stream) (comment : Comment) (tag : Tag) : List Edit :=
  let staying := fun index =>
    !((stream.get? index).any fun token =>
      some token.line == stream.line? tag.token && token.kind != .docTag && !token.hasNewline)
  let textEnd :=
    (firstIndex staying (tag.token + 1) (comment.closer - (tag.token + 1))).getD comment.closer - 1
  match stream.lineSpan? tag.token with
  | some (first, last) =>
    if comment.opener < first ∧ last < comment.closer then Fixer.deletions first last
    else Fixer.deletions tag.token textEnd
  | none => Fixer.deletions tag.token textEnd

end Stream

end PhpStyle
