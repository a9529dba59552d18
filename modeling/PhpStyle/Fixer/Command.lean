import PhpStyle.Fixer

/-!
# Commands to a fixer

The operations of a fixer as data, so that whole histories of edits can be stated,
replayed and compared. Every command gets a reply.
-/

namespace PhpStyle.Fixer

/-- An operation of a fixer. -/
inductive Command where
  | start
  | finish
  | rollback
  | stage (edit : Edit)
  | deleteLine (anchor : Nat)
  | deleteRange (first last : Nat)
  | read (index : Nat)
deriving DecidableEq, Repr, Inhabited

/-- The answer to a command. -/
inductive Reply where
  | done
  | count (edits : Nat)
  | refused (error : FixError)
  | text (text : Option (List Char))
deriving DecidableEq, Repr, Inhabited

/-- The reply to an operation that counts its edits. -/
def Reply.ofCount : Except FixError Nat → Reply
  | .ok edits => .count edits
  | .error error => .refused error

/-- Carries out a command on the fixer of a stream. -/
def perform (stream : Stream) (fixer : Fixer) : Command → Reply × Fixer
  | .start => (.done, fixer.start)
  | .rollback => (.done, fixer.rollback)
  | .finish => fixer.finish.map Reply.ofCount id
  | .stage edit =>
    fixer.stage edit |>.map (fun result => match result with
      | .ok _ => .done
      | .error error => .refused error) id
  | .deleteLine anchor => (fixer.deleteLine stream anchor).map Reply.ofCount id
  | .deleteRange first last => (fixer.deleteRange first last).map Reply.ofCount id
  | .read index => (.text (fixer.textAt? index), fixer)

/-- Carries out a history of commands. -/
def performAll (stream : Stream) (fixer : Fixer) (commands : List Command) : Fixer :=
  commands.foldl (fun fixer command => (perform stream fixer command).2) fixer

end PhpStyle.Fixer
