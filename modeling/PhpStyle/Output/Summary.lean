import PhpStyle.Report

/-!
# Summaries

What came of the files of a run, and the numbers in which a run is summed up.
-/

namespace PhpStyle

/-- What came of a file. -/
inductive FileResult where
  /-- The diagnostics that are left in a file and the number of fixes made in it. -/
  | processed (path : String) (diagnostics : List Diagnostic) (fixesApplied : Nat)
  /-- Why a file could not be processed. -/
  | failed (path reason : String)
deriving DecidableEq, Repr, Inhabited

/-- The numbers of a run. -/
structure Summary where
  filesProcessed : Nat := 0
  /-- Files with diagnostics. -/
  filesWithMessages : Nat := 0
  filesFixed : Nat := 0
  errors : Nat := 0
  warnings : Nat := 0
  fixable : Nat := 0
  fixesApplied : Nat := 0
  /-- Files that could not be processed. -/
  failures : Nat := 0
deriving DecidableEq, Repr, Inhabited

namespace Summary

/-- Counts one more file. -/
def add (summary : Summary) : FileResult → Summary
  | .processed _ diagnostics fixesApplied =>
    let report : Report := { diagnostics }
    { summary with
      filesProcessed := summary.filesProcessed + 1
      filesWithMessages := summary.filesWithMessages + if diagnostics.isEmpty then 0 else 1
      filesFixed := summary.filesFixed + if fixesApplied = 0 then 0 else 1
      errors := summary.errors + report.errorCount
      warnings := summary.warnings + report.warningCount
      fixable := summary.fixable + report.fixableCount
      fixesApplied := summary.fixesApplied + fixesApplied }
  | .failed .. =>
    { summary with
      filesProcessed := summary.filesProcessed + 1
      failures := summary.failures + 1 }

/-- The numbers of a run with the given results. -/
def ofResults (results : List FileResult) : Summary :=
  results.foldl add {}

/-- Whether nothing is left to complain about. -/
def isClean (summary : Summary) : Bool :=
  summary.errors + summary.warnings + summary.failures == 0

end Summary

end PhpStyle
