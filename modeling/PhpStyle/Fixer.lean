import PhpStyle.Stream

/-!
# Changesets

A fixer holds the text of every token of a file and edits it in changesets. The
edits of a changeset are collected while it is open and take effect together when
it ends, or not at all: a changeset is refused if it leaves the file, or if it
touches a token that an earlier changeset has already changed. So the changesets
that take effect touch disjoint sets of tokens, and their order does not matter.

An edit outside a changeset is a changeset by itself.
-/

namespace PhpStyle

/-- Why a changeset does not take effect. -/
inductive FixError where
  | noOpenChangeset
  | outOfBounds (index size : Nat)
  | conflict (index : Nat)
  | disabled
deriving DecidableEq, Repr, Inhabited

/-- The wording of an error. -/
def FixError.message : FixError → String
  | noOpenChangeset => "No changeset is open"
  | outOfBounds index size => s!"Token {index} out of bounds for stream length {size}"
  | conflict index => s!"Token {index} was already changed by another fix in this pass"
  | disabled => "Fixing is disabled"

/-- A change of the text of one token. -/
inductive Edit where
  /-- A new text; the empty text deletes the token. -/
  | replace (index : Nat) (text : List Char)
  /-- More text after the token. -/
  | append (index : Nat) (text : List Char)
deriving DecidableEq, Repr, Inhabited

namespace Edit

/-- The token that an edit changes. -/
def index : Edit → Nat
  | replace index _ | append index _ => index

/-- The text of the token after the edit. -/
def revise : Edit → List Char → List Char
  | replace _ text, _ => text
  | append _ text, current => current ++ text

end Edit

/-- The text of a token, and whether a changeset has changed it. -/
structure Slot where
  text : List Char
  isChanged : Bool := false
deriving DecidableEq, Repr, Inhabited

/-- The texts of the tokens of a file while it is fixed. -/
structure Fixer where
  isEnabled : Bool
  slots : Array Slot
  /-- The edits of the changeset that is open. -/
  staged : Option (List Edit) := none
  /-- The number of changesets that took effect. -/
  fixCount : Nat := 0
  /-- The number of changesets that were dropped or refused. -/
  rejectedCount : Nat := 0
deriving DecidableEq, Repr, Inhabited

namespace Fixer

/-- A fixer for the tokens of a stream. A fixer that is not enabled refuses every changeset. -/
def ofStream (stream : Stream) (isEnabled : Bool) : Fixer where
  isEnabled
  slots := stream.tokens.map fun token => ⟨token.text, false⟩

/-- Whether a changeset is open. -/
def isOpen (fixer : Fixer) : Bool :=
  fixer.staged.isSome

/-- The text of a token. -/
def textAt? (fixer : Fixer) (index : Nat) : Option (List Char) :=
  fixer.slots[index]?.map Slot.text

/-- The text of the file. -/
def contents (fixer : Fixer) : List Char :=
  fixer.slots.toList.flatMap Slot.text

/-- What is wrong with an edit. -/
def problem? (fixer : Fixer) (edit : Edit) : Option FixError :=
  match fixer.slots[edit.index]? with
  | none => some (.outOfBounds edit.index fixer.slots.size)
  | some slot => if slot.isChanged then some (.conflict edit.index) else none

/-- Why a changeset is refused: the first problem of its edits, in order. -/
def refusal? (fixer : Fixer) (edits : List Edit) : Option FixError :=
  if fixer.isEnabled then edits.findSome? fixer.problem? else some .disabled

/-- The slots after an edit. -/
def applyEdit (slots : Array Slot) (edit : Edit) : Array Slot :=
  slots.modify edit.index fun slot => ⟨edit.revise slot.text, true⟩

/-- Makes the edits of a changeset take effect together, and counts them. -/
def commit (fixer : Fixer) (edits : List Edit) : Except FixError Nat × Fixer :=
  match fixer.refusal? edits with
  | some error => (.error error, { fixer with rejectedCount := fixer.rejectedCount + 1 })
  | none =>
    if edits.isEmpty then (.ok 0, fixer)
    else
      (.ok edits.length,
        { fixer with slots := edits.foldl applyEdit fixer.slots, fixCount := fixer.fixCount + 1 })

/-- Drops the changeset that is open, if there is one. -/
def rollback (fixer : Fixer) : Fixer :=
  if fixer.isOpen then { fixer with staged := none, rejectedCount := fixer.rejectedCount + 1 }
  else fixer

/-- Opens a changeset. One that was left open is dropped. -/
def start (fixer : Fixer) : Fixer :=
  { fixer.rollback with staged := some [] }

/-- Adds an edit to the open changeset, or commits it by itself. -/
def stage (fixer : Fixer) (edit : Edit) : Except FixError Unit × Fixer :=
  match fixer.staged with
  | some edits => (.ok (), { fixer with staged := some (edits ++ [edit]) })
  | none =>
    let (result, fixer) := fixer.commit [edit]
    (result.map fun _ => (), fixer)

/-- Ends the open changeset. -/
def finish (fixer : Fixer) : Except FixError Nat × Fixer :=
  match fixer.staged with
  | none => (.error .noOpenChangeset, fixer)
  | some edits => { fixer with staged := none }.commit edits

/-- Makes the given edits in a changeset of their own. -/
def apply (fixer : Fixer) (edits : List Edit) : Except FixError Nat × Fixer :=
  fixer.rollback.commit edits

/-- The edits that delete the tokens from `first` to `last`. -/
def deletions (first last : Nat) : List Edit :=
  (List.range' first (last + 1 - first)).map fun index => .replace index []

/-- Deletes the tokens from `first` to `last`. -/
def deleteRange (fixer : Fixer) (first last : Nat) : Except FixError Nat × Fixer :=
  fixer.apply (deletions first last)

/-- Deletes the tokens on the line of a token. -/
def deleteLine (fixer : Fixer) (stream : Stream) (anchor : Nat) : Except FixError Nat × Fixer :=
  match stream.lineSpan? anchor with
  | some (first, last) => fixer.deleteRange first last
  | none => (.error (.outOfBounds anchor stream.size), fixer)

end Fixer

end PhpStyle
