import PhpStyle.Stream.Declaration
import PhpStyle.TagTable

/-!
# Comments on classes

Classes, interfaces and traits need a doc comment. Its tags come in the order of
a table, and `@package` and `@subpackage` are not used: a fix deletes them.
-/

namespace PhpStyle.Standard.ClassComment

/-- How the rule is presented. -/
def info : RuleInfo where
  name := "class_comment"
  code := "Symfony.Commenting.ClassComment"
  description := "Classes need a doc comment without @package or @subpackage tags"

/-- The tags of a class comment. -/
def table : TagTable where
  subject := "class"
  specs :=
    [{ name := "@category" }, { name := "@package" }, { name := "@subpackage" },
     { name := "@author", allowsMany := true }, { name := "@copyright", allowsMany := true },
     { name := "@license" }, { name := "@version" }, { name := "@link", allowsMany := true },
     { name := "@see", allowsMany := true }, { name := "@since" }, { name := "@deprecated" }]

/-- Kinds that may stand between the comment and the keyword. -/
def maySeparate : Kind → Bool
  | .abstractKw | .finalKw | .readonlyKw | .whitespace => true
  | _ => false

/-- Tags that are not used. -/
def isUnused (name : String) : Bool :=
  name == "@package" || name == "@subpackage"

/-- The finding on a tag that is not used. -/
def unusedTag (stream : Stream) (comment : Comment) (tag : Tag) : List Finding :=
  [.violation
    { message := s!"The {tag.name} annotation is not used"
      anchor := tag.token
      code := if tag.name == "@package" then "InvalidPackage" else "InvalidSubpackage"
      repair := some (stream.tagDeletion comment tag) }]

/-- Whether a class is documented, as a metric. -/
def documented (index : Nat) (value : String) : Finding :=
  .metric ⟨index, "Class has doc comment", value⟩

/-- The findings at the keyword of a class. -/
def find (stream : Stream) (index : Nat) : List Finding :=
  let commentEnd := stream.commentEnd? index maySeparate
  match commentEnd.bind stream.kind? with
  | some .docClose =>
    documented index "yes" ::
      match commentEnd.bind stream.commentAt? with
      | some comment => table.findings isUnused (unusedTag stream comment) [] comment
      | none => []
  | some .comment =>
    [documented index "yes",
     .violation
      { message := "You must use \"/**\" style comments for a class comment"
        anchor := index
        code := "WrongStyle" }]
  | _ =>
    [.violation { message := "Missing class doc comment", anchor := index, code := "Missing" },
     documented index "no"]

/-- The rule. -/
def rule : Rule :=
  .ofFindings info [.classKw, .interfaceKw, .traitKw] find

end PhpStyle.Standard.ClassComment
