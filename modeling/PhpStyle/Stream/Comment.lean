import PhpStyle.Stream

/-!
# Doc comments and their tags

A closed doc comment as rules see it: where it begins and ends, and its tags with
their names and with the text that follows them on the same line.
-/

namespace PhpStyle

/-- A tag of a doc comment. -/
structure Tag where
  /-- The index of the tag token. -/
  token : Nat
  /-- The name, with its `@`. -/
  name : String
  /-- The text after the name on the same line. -/
  content : Option String
  /-- The number of tags before it in the comment. -/
  position : Nat
deriving DecidableEq, Repr, Inhabited

namespace Tag

/-- Whether the tag has the given name in any ASCII case. -/
def isNamed (tag : Tag) (name : String) : Bool :=
  Text.equalsIgnoringCase tag.name.toList name.toList

end Tag

/-- A closed doc comment with its tags in source order. -/
structure Comment where
  opener : Nat
  closer : Nat
  tags : List Tag
deriving DecidableEq, Repr, Inhabited

namespace Comment

/-- The tags of the given name, in source order. -/
def tagsNamed (comment : Comment) (name : String) : List Tag :=
  comment.tags.filter fun tag => tag.isNamed name

end Comment

namespace Stream

/-- The text that follows a tag on its line: a string after whitespace. -/
def tagContent? (stream : Stream) (tag : Nat) : Option String := do
  let line ← stream.line? tag
  let space ← stream.get? (tag + 1)
  let string ← stream.get? (tag + 2)
  if space.kind = .docWhitespace ∧ string.kind = .docString ∧ string.line = line then
    some (String.ofList string.text)
  else none

/-- The tag at an index. -/
def tagAt (stream : Stream) (index position : Nat) : Tag where
  token := index
  name := String.ofList (((stream.get? index).map fun token => token.text).getD [])
  content := stream.tagContent? index
  position

/-- The doc comment that opens or closes at an index. -/
def commentAt? (stream : Stream) (index : Nat) : Option Comment := do
  let token ← stream.get? index
  let block ← token.docBlock
  let closer ← block.closer
  return { opener := block.opener, closer, tags := block.tags.mapIdx fun position tag =>
    stream.tagAt tag position }

end Stream

end PhpStyle
