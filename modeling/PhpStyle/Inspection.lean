import PhpStyle.FileTree
import PhpStyle.Runner

/-!
# Inspecting files

A file is read, checked or fixed, and written back if that is wanted and its text
has changed.
-/

namespace PhpStyle

/-- What came of checking or fixing a file. -/
structure Inspection where
  /-- What is left to complain about. -/
  report : Report
  oldSource : List Char
  /-- The fixed text, if anything was fixed. -/
  newSource : Option (List Char) := none
  fixesApplied : Nat := 0
  /-- Whether the last pass had nothing to fix. -/
  isConverged : Bool := true
  journal : Journal
deriving Repr, Inhabited

/-- Checks or fixes a source. -/
def Runner.inspect (runner : Runner) (isFixing : Bool) (path : String) (source : List Char) :
    Inspection × Runner :=
  let summarize (report : Report) : Event :=
    .fileSummarized path report.errorCount report.warningCount report.fixableCount
  if isFixing then
    let (fixed, runner) := runner.fix path source
    ({ report := fixed.remaining
       oldSource := source
       newSource := if fixed.isChanged then some fixed.source else none
       fixesApplied := fixed.fixesApplied
       isConverged := fixed.isConverged
       journal := fixed.journal ++ [summarize fixed.remaining] }, runner)
  else
    let (checked, runner) := runner.check path source
    ({ report := checked.report
       oldSource := source
       journal := checked.journal ++ [summarize checked.report] }, runner)

/-- The files of a run and the runner that works on them. -/
structure Bench where
  tree : FileTree
  runner : Runner

namespace Bench

/-- Checks or fixes the text of the file to which a path leads. -/
def inspect (bench : Bench) (isFixing : Bool) (path : Path) :
    Except FileError (Place × Inspection) × Bench :=
  match bench.tree.resolve path with
  | .error error => (.error error, bench)
  | .ok place =>
    match bench.tree.readAt place with
    | .error error => (.error error, bench)
    | .ok source =>
      let (inspection, runner) := bench.runner.inspect isFixing path.text source.toList
      (.ok (place, inspection), { bench with runner })

/-- Writes back what was fixed. -/
def write (bench : Bench) (place : Place) (inspection : Inspection) : Bench :=
  match inspection.newSource with
  | some text => { bench with tree := bench.tree.put place (String.ofList text).toUTF8 }
  | none => bench

/-- Checks or fixes the file to which a path leads. -/
def process (bench : Bench) (isFixing : Bool) (path : Path) :
    Except FileError Inspection × Bench :=
  match bench.inspect isFixing path with
  | (.error error, bench) => (.error error, bench)
  | (.ok (place, inspection), bench) => (.ok inspection, bench.write place inspection)

end Bench

/-- The wording of the error about a file that cannot be read. -/
def unreadableFile (path : Path) (error : FileError) : String :=
  "Failed to read file: " ++ path.text ++ ": " ++ error.message

end PhpStyle
