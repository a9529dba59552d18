import PhpStyle.Stream

/-!
# Reports

What the rules say about a file: diagnostics, each at a token of the file, and
metrics. A report lists both in the order in which they were recorded. Sorting
orders the diagnostics by line and column and keeps the recorded order at equal
places.
-/

namespace PhpStyle

/-- How serious a diagnostic is. -/
inductive Severity where
  | error
  | warning
deriving DecidableEq, Repr, Inhabited

/-- The written name of a severity. -/
def Severity.toName : Severity → String
  | error => "error"
  | warning => "warning"

/-- The severity with the given written name. -/
def Severity.ofName? (text : String) : Option Severity :=
  [error, warning].find? fun severity => severity.toName == text

/-- A violation found in a file. -/
structure Diagnostic where
  /-- The code of the rule and of the violation, joined by a point. -/
  code : String
  message : String
  severity : Severity
  /-- The token at fault. -/
  anchor : Nat
  line : Nat
  column : Nat
  isFixable : Bool
deriving DecidableEq, Repr, Inhabited

/-- Whether a diagnostic may stand before another one in a sorted report. -/
def Diagnostic.precedes (left right : Diagnostic) : Bool :=
  left.line < right.line || (left.line == right.line && left.column ≤ right.column)

/-- A named observation about a token. -/
structure Metric where
  anchor : Nat
  name : String
  value : String
deriving DecidableEq, Repr, Inhabited

/-- What has been recorded about a file. -/
structure Report where
  diagnostics : List Diagnostic := []
  metrics : List Metric := []
deriving DecidableEq, Repr, Inhabited

namespace Report

/-- Records a diagnostic. -/
def add (report : Report) (diagnostic : Diagnostic) : Report :=
  { report with diagnostics := report.diagnostics ++ [diagnostic] }

/-- Records a metric. -/
def addMetric (report : Report) (metric : Metric) : Report :=
  { report with metrics := report.metrics ++ [metric] }

/-- The number of errors. -/
def errorCount (report : Report) : Nat :=
  report.diagnostics.countP fun diagnostic => diagnostic.severity == .error

/-- The number of warnings. -/
def warningCount (report : Report) : Nat :=
  report.diagnostics.countP fun diagnostic => diagnostic.severity == .warning

/-- The number of diagnostics that can be fixed. -/
def fixableCount (report : Report) : Nat :=
  report.diagnostics.countP Diagnostic.isFixable

/-- Whether nothing was found. -/
def isClean (report : Report) : Bool :=
  report.diagnostics.isEmpty

/-- The report with its diagnostics in the order of their places. -/
def sorted (report : Report) : Report :=
  { report with diagnostics := report.diagnostics.mergeSort Diagnostic.precedes }

end Report

end PhpStyle
