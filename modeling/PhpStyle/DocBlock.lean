import PhpStyle.Scope

/-!
# Doc comment blocks

A doc comment is a block of consecutive trivia tokens, from its opener to the
first closer after it. A block that meets a significant token or the end of the
file first has no closer. The tags of a block are the tag tokens inside it.
-/

namespace PhpStyle

/-- The tokens of a doc comment: opener, closer if there is one, and tags in order. -/
structure DocBlock where
  opener : Nat
  closer : Option Nat
  tags : List Nat
deriving DecidableEq, Repr, Inhabited

namespace DocBlock

/-- The blocks of a sequence, given the opener and the tags of a block that is still open. -/
def collect (stillOpen : Option (Nat × List Nat)) : Places → List DocBlock
  | [] =>
    match stillOpen with
    | none => []
    | some (opener, tags) => [⟨opener, none, tags⟩]
  | (kind, index) :: rest =>
    match stillOpen with
    | none => collect (if kind = .docOpen then some (index, []) else none) rest
    | some (opener, tags) =>
      if kind = .docTag then collect (some (opener, tags ++ [index])) rest
      else if kind = .docClose then ⟨opener, some index, tags⟩ :: collect none rest
      else if kind.isTrivia then collect (some (opener, tags)) rest
      else ⟨opener, none, tags⟩ :: collect none rest

/-- The block that opens or closes at a place. -/
def at? (blocks : List DocBlock) (index : Nat) : Option DocBlock :=
  blocks.find? fun block => block.opener == index || block.closer == some index

end DocBlock

end PhpStyle
