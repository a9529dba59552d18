import PhpStyle.Proofs.GuardedLexing

/-!
# Annotation by writes

The tokens of a file get their links one after another: a pair of brackets is written at
both of its ends and copied to the keyword that owns it, a doc comment is written at its
opener and its closer, and the scope of a brace is looked up at the keyword of the brace.
A write to a place beyond the end fails.

Every place that is written or read is the place of a token, so no write fails, and what
has been written in the end is the structure of the file.
-/

namespace PhpStyle

open PhpStyle.Stream List

/-- The pairs of brackets of the family. -/
def Family.spans (lexemes : List Lexeme) : Family → List Span
  | parentheses => (structureOf (lexemes.map Lexeme.kind)).parentheses
  | squares => (structureOf (lexemes.map Lexeme.kind)).brackets
  | braces => (structureOf (lexemes.map Lexeme.kind)).braces

namespace Guarded

section Writes

universe u

variable {α : Type u} {size : Nat} {start value : Nat → α}

/-- The items after a write to a place that is taken to be in range. -/
def write (items : List α) (place : Nat) (item : α) : Guarded (List α) :=
  if place < items.length then return items.set place item else .error ⟨place, items.length⟩

/-- The items after some writes. -/
def writeAll (items : List α) (writes : List (Nat × α)) : Guarded (List α) :=
  writes.foldlM (fun items entry => write items entry.1 entry.2) items

/-- The items after those at some places have been copied to others. -/
def copyAll (items : List α) (copies : List (Nat × Nat)) : Guarded (List α) :=
  copies.foldlM (fun items copy => do write items copy.2 (← read items copy.1)) items

theorem write_eq_ok {items : List α} {place : Nat} (inside : place < items.length) (item : α) :
    write items place item = .ok (items.set place item) :=
  if_pos inside

end Writes

section Links

/-- The pair at each place: a pair is written at its opener and at its closer. -/
def pairLinks (size : Nat) (spans : List Span) : Guarded (List (Option Span)) :=
  writeAll (List.replicate size none)
    (spans.flatMap fun span => [(span.opener, some span), (span.closer, some span)])

/-- The brackets of a family at each place, once the first keyword that reaches a pair points at
it too. -/
def links (lexemes : List Lexeme) (family : Family) : Guarded (List (Option Span)) := do
  let owners := family.owners lexemes
  let first := owners.filter fun ownership =>
    Ownership.ownerOf owners ownership.opener == some ownership.owner
  copyAll (← pairLinks lexemes.length (family.spans lexemes))
    (first.map fun ownership => (ownership.opener, ownership.owner))

/-- The doc comment at each place: it is written at its opener and at its closer. -/
def blockLinks (size : Nat) (blocks : List DocBlock) : Guarded (List (Option DocBlock)) :=
  writeAll (List.replicate size none) (blocks.flatMap fun block =>
    (block.opener, some block) :: block.closer.toList.map fun closer => (closer, some block))

/-- The condition that a brace opens, if a keyword owns it. -/
def conditionOf (kinds : List Kind) (owners : List Ownership) (brace : Nat) :
    Guarded (Option Condition) :=
  match Ownership.ownerOf owners brace with
  | none => return none
  | some owner => do
    let kind ← read kinds owner
    return (ScopeKind.ofOwner? kind).map fun scope => ⟨owner, scope⟩

/-- The conditions of each token of a sequence. -/
def conditions (opened : Nat → Guarded (Option Condition)) (enclosing : List (Option Condition)) :
    Places → Guarded (List (List Condition))
  | [] => return []
  | (.openCurly, index) :: rest => do
    let brace ← opened index
    return enclosing.filterMap id :: (← conditions opened (enclosing ++ [brace]) rest)
  | (.closeCurly, _) :: rest => do
    let outer := enclosing.dropLast
    return outer.filterMap id :: (← conditions opened outer rest)
  | _ :: rest => do
    return enclosing.filterMap id :: (← conditions opened enclosing rest)

/-- The tokens of a sequence of lexemes. -/
def annotate (lexemes : List Lexeme) : Guarded (List Token) := do
  let size := lexemes.length
  let struct := structureOf (lexemes.map Lexeme.kind)
  let parentheses ← links lexemes .parentheses
  let squares ← links lexemes .squares
  let braces ← links lexemes .braces
  let scopes ← conditions (conditionOf struct.kinds struct.bodies) [] struct.kinds.zipIdx
  let blocks ← blockLinks size struct.blocks
  (List.range size).mapM fun index => do
    return { (← read lexemes index) with
      kind := ← read struct.kinds index
      braces := ← read braces index
      parentheses := ← read parentheses index
      brackets := ← read squares index
      docBlock := ← read blocks index
      conditions := ← read scopes index }

/-- The stream of a source file. -/
def ofSource (source : List Char) : Guarded Stream := do
  return ⟨(← annotate (← lex source)).toArray⟩

end Links

section Answers

section Annotation

variable (lexemes : List Lexeme)

end Annotation

end Answers

end Guarded

end PhpStyle
