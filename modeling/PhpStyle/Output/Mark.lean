import PhpStyle.Report

/-!
# Marks in workflow logs

The commands by which a workflow log marks a place in a file. In the message of a
command a percent sign and the ends of lines are written as codes.
-/

namespace PhpStyle

/-- A mark at a place in a file. -/
structure Mark where
  severity : Severity
  path : String
  line : Nat
  column : Nat
  title : String
  message : String
deriving DecidableEq, Repr, Inhabited

namespace Mark

/-- How a character is written in a message. -/
def escape (c : Char) : List Char :=
  if c = '%' then ['%', '2', '5']
  else if c = '\r' then ['%', '0', 'D']
  else if c = '\n' then ['%', '0', 'A']
  else [c]

/-- How a message is written. -/
def escapeText (message : String) : String :=
  String.ofList (message.toList.flatMap escape)

/-- The mark for a diagnostic in a file. -/
def ofDiagnostic (path : String) (diagnostic : Diagnostic) : Mark where
  severity := diagnostic.severity
  path := path
  line := diagnostic.line
  column := diagnostic.column
  title := diagnostic.code
  message := diagnostic.message

/-- The command for a mark. -/
def render (mark : Mark) : String :=
  let level := mark.severity.toName
  let file := mark.path
  let line := mark.line
  let column := mark.column
  let title := mark.title
  let message := escapeText mark.message
  s!"::{level} file={file},line={line},col={column},title={title}::{message}"

/-- The command for a file that could not be processed. -/
def renderFailure (path reason : String) : String :=
  let message := escapeText reason
  s!"::error file={path}::{message}"

end Mark

end PhpStyle
