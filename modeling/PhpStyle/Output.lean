import PhpStyle.Output.Mark
import PhpStyle.Output.Json
import PhpStyle.Output.Summary

/-!
# Output

The three formats of the output: text for people, a JSON document and marks for
workflow logs. Text and marks are printed file by file, the document is printed at
the end.
-/

namespace PhpStyle

/-- What is printed, on the two channels. -/
structure Printed where
  output : String := ""
  errors : String := ""
deriving DecidableEq, Repr, Inhabited

namespace Printed

/-- One text after the other, on each channel. -/
def append (first second : Printed) : Printed :=
  ⟨first.output ++ second.output, first.errors ++ second.errors⟩

instance : Append Printed := ⟨append⟩

/-- Each text on a line of its own. -/
def unlines (texts : List String) : String :=
  String.join (texts.map (· ++ "\n"))

/-- Lines of output. -/
def outputLines (texts : List String) : Printed :=
  { output := unlines texts }

/-- Lines of errors. -/
def errorLines (texts : List String) : Printed :=
  { errors := unlines texts }

end Printed

/-- The format of the output. -/
inductive OutputFormat where
  | text
  | json
  | github
deriving DecidableEq, Repr, Inhabited

namespace OutputFormat

/-- The name of a format. -/
def toName : OutputFormat → String
  | text => "text"
  | json => "json"
  | github => "github"

/-- The format with a name, in small or capital letters. -/
def ofName? (name : String) : Option OutputFormat :=
  [text, json, github].find? fun format => format.toName == name.toLower

end OutputFormat

/-! ## Text -/

namespace TextOutput

/-- Blanks in front of a text up to a width. -/
def padLeft (width : Nat) (text : String) : String :=
  "".pushn ' ' (width - text.length) ++ text

/-- Blanks after a text up to a width. -/
def padRight (width : Nat) (text : String) : String :=
  text.pushn ' ' (width - text.length)

/-- The line of a diagnostic. -/
def diagnosticLine (diagnostic : Diagnostic) : String :=
  let line := padLeft 4 (toString diagnostic.line)
  let column := padRight 3 (toString diagnostic.column)
  let severity := match diagnostic.severity with
    | .error => "ERROR"
    | .warning => "WARNING"
  let marker := if diagnostic.isFixable then "[x]" else "[ ]"
  let message := diagnostic.message
  let code := diagnostic.code
  s!"  {line}:{column} | {severity} | {marker} {message} ({code})"

/-- What is printed for a file. -/
def fileResult (isVerbose : Bool) : FileResult → Printed
  | .processed path diagnostics fixesApplied =>
    if diagnostics.isEmpty ∧ fixesApplied = 0 then
      if isVerbose then .outputLines [s!"{path}: No violations"] else {}
    else
      .outputLines <|
        path :: (if fixesApplied = 0 then [] else [s!"  OK Applied {fixesApplied} fix(es)"])
          ++ diagnostics.map diagnosticLine ++ [""]
  | .failed path reason => .errorLines [s!"Warning: {path} - {reason}"]

/-- What is printed at the end of a run. -/
def summary (isFixing : Bool) (summary : Summary) : Printed :=
  let files := summary.filesProcessed
  let errors := summary.errors
  let warnings := summary.warnings
  let withMessages := summary.filesWithMessages
  let fixes := summary.fixesApplied
  let fixed := summary.filesFixed
  let failures := summary.failures
  let fixable := summary.fixable
  .outputLines <|
    ["Summary",
      s!"  Files processed: {files}",
      s!"  Found {errors} error(s) and {warnings} warning(s) in {withMessages} file(s)"]
      ++ (if isFixing then [s!"  Applied {fixes} fix(es) to {fixed} file(s)"] else [])
      ++ (if failures > 0 then [s!"  Files with errors: {failures}"] else [])
      ++ (if !isFixing && fixable > 0 then
          ["", s!"{fixable} violation(s) marked [x] can be fixed with --fix"]
        else [])

end TextOutput

/-! ## JSON -/

namespace JsonOutput

/-- The version of the program. -/
def version : String := "0.1.0"

/-- A diagnostic in the document. -/
def diagnostic (diagnostic : Diagnostic) : Output.Json :=
  .object [("line", .number diagnostic.line), ("column", .number diagnostic.column),
    ("severity", .string diagnostic.severity.toName), ("code", .string diagnostic.code),
    ("message", .string diagnostic.message), ("fixable", .boolean diagnostic.isFixable)]

/-- A file in the document. Fields that would say nothing are left out. -/
def fileResult : FileResult → Output.Json
  | .processed path diagnostics fixesApplied =>
    .object <| ("path", .string path)
      :: (if diagnostics.isEmpty then []
        else [("messages", .array (diagnostics.map diagnostic))])
      ++ (if fixesApplied = 0 then [] else [("fixes_applied", .number fixesApplied)])
  | .failed path reason => .object [("path", .string path), ("error", .string reason)]

/-- The numbers of the run. -/
def summary (summary : Summary) : Output.Json :=
  .object [("files_processed", .number summary.filesProcessed),
    ("files_with_messages", .number summary.filesWithMessages),
    ("files_fixed", .number summary.filesFixed), ("errors", .number summary.errors),
    ("warnings", .number summary.warnings), ("fixable", .number summary.fixable),
    ("fixes_applied", .number summary.fixesApplied), ("failures", .number summary.failures)]

/-- The document of a run. -/
def document (timestamp : String) (results : List FileResult) : Output.Json :=
  .object [("version", .string version), ("generated_at", .string timestamp),
    ("summary", summary (.ofResults results)), ("files", .array (results.map fileResult))]

end JsonOutput

/-! ## All formats -/

namespace OutputFormat

/-- What is printed as soon as a file is done. -/
def printFile (format : OutputFormat) (isVerbose : Bool) (result : FileResult) : Printed :=
  match format, result with
  | text, result => TextOutput.fileResult isVerbose result
  | json, _ => {}
  | github, .processed path diagnostics _ =>
    .outputLines (diagnostics.map fun diagnostic => (Mark.ofDiagnostic path diagnostic).render)
  | github, .failed path reason => .outputLines [Mark.renderFailure path reason]

/-- What is printed at the end of a run. -/
def printEnd (format : OutputFormat) (isFixing : Bool) (timestamp : String)
    (results : List FileResult) : Printed :=
  match format with
  | text => TextOutput.summary isFixing (.ofResults results)
  | json => .outputLines [(JsonOutput.document timestamp results).render]
  | github => {}

end OutputFormat

end PhpStyle
