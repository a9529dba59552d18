import PhpStyle.Fixer.Command

/-!
# Journals

A journal is the list of events of a run, in order. Events are data; `Event.lines`
gives the wording of the log file, which also separates the sections of a run.
The visits of scripted rules are part of the journal but not of the log file.
-/

namespace PhpStyle

/-- Something that happened in a run. -/
inductive Event where
  /-- Free text. -/
  | note (message : String)
  /-- The heading of a section. -/
  | heading (title : String)
  | passStarted (path : String) (pass : Nat) (fixing : Bool)
  | changesetRefused (path rule : String) (error : FixError)
  | changesetLeftOpen (path rule : String) (token : Nat)
  | changesetsRejected (path : String) (count pass : Nat)
  | fixEnded (path : String) (passes fixes : Nat) (converged : Bool)
  | fileSummarized (path : String) (errors warnings fixable : Nat)
  | runStarted (files : Nat) (rules : List String)
  | runEnded (errors warnings filesFixed : Nat)
  /-- A scripted rule was called at a token for the given time in its scope. -/
  | scriptVisited (rule : String) (token visit : Nat) (replies : List Fixer.Reply)
deriving Repr, Inhabited

/-- The events of a run, in order. -/
abbrev Journal := List Event

namespace Event

/-- The heading of a section in the log file. -/
def headingMessages (title : String) : List String :=
  let rule := "".pushn '=' 60
  [rule, title, rule]

/-- The messages that an event leaves in the log file. -/
def messages : Event → List String
  | note message => [message]
  | heading title => headingMessages title
  | passStarted path pass fixing =>
    let mode := if fixing then "fix" else "check"
    [s!"{path}: pass {pass} ({mode})"]
  | changesetRefused path rule error => [s!"REJECTED: {path} [{rule}] {error.message}"]
  | changesetLeftOpen path rule token =>
    [s!"{path}: [{rule}] left a changeset open at token {token}, discarded"]
  | changesetsRejected path count pass =>
    [s!"{path}: {count} changeset(s) rejected in pass {pass}"]
  | fixEnded path passes fixes converged =>
    let outcome := if converged then "converged" else "NOT converged"
    [s!"{path}: {outcome} after {passes} pass(es), {fixes} fix(es) applied"]
  | fileSummarized path errors warnings fixable =>
    [s!"{path}: {errors} error(s), {warnings} warning(s), {fixable} fixable"]
  | runStarted files rules =>
    let names := ", ".intercalate rules
    headingMessages "RUN START" ++ [s!"Processing {files} files", s!"Enabled rules: {names}"]
  | runEnded errors warnings filesFixed =>
    headingMessages "RUN COMPLETE"
      ++ [s!"Errors: {errors}", s!"Warnings: {warnings}", s!"Files fixed: {filesFixed}"]
  | scriptVisited .. => []

end Event

namespace Journal

/-- The messages of a journal. -/
def messages (journal : Journal) : List String :=
  journal.flatMap Event.messages

/-- The lines of a journal. A message may have several, and a carriage return before the end of a
line does not belong to it. -/
def lines (journal : Journal) : List String :=
  (journal.messages.flatMap fun message => message.splitOn "\n").map fun line =>
    String.ofList <|
      if line.toList.getLast? = some '\r' then line.toList.dropLast else line.toList

end Journal

end PhpStyle
