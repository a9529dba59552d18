import PhpStyle.Ruleset

/-!
# Checking and fixing a source

A check is one pass that changes nothing. A fix run repeats passes over the text
that the last pass left, until a pass has nothing to fix or the allowed number of
passes is used up, and ends with a check of the final text.
-/

namespace PhpStyle

/-- The outcome of a check. -/
structure Checked where
  report : Report
  journal : Journal
deriving Repr, Inhabited

/-- The outcome of a fix run. -/
structure Fixed where
  /-- The final text. -/
  source : List Char
  passes : Nat
  fixesApplied : Nat
  /-- Whether the last pass had nothing to fix. -/
  isConverged : Bool
  /-- What a check finds in the final text. -/
  remaining : Report
  journal : Journal
deriving Repr, Inhabited

/-- Whether anything was fixed. -/
def Fixed.isChanged (outcome : Fixed) : Bool :=
  outcome.fixesApplied > 0

/-- A ruleset and the number of passes that a fix run may take. -/
structure Runner where
  ruleset : Ruleset
  maxPasses : Nat

namespace Runner

/-- The number of passes of a fix run if nothing else is said. -/
def defaultMaxPasses : Nat := 50

/-- A runner for a ruleset. At least one pass is always allowed. -/
def ofRuleset (ruleset : Ruleset) (maxPasses : Nat := defaultMaxPasses) : Runner :=
  ⟨ruleset, maxPasses.max 1⟩

/-- Checks a source. -/
def check (runner : Runner) (path : String) (source : List Char) : Checked × Runner :=
  let stream := Stream.ofSource source
  let (ruleset, pass) := runner.ruleset.process path stream { fixer := .ofStream stream false }
  (⟨pass.report.sorted, .passStarted path 1 false :: pass.journal⟩, { runner with ruleset })

/-- Where a fix run stands. -/
structure Progress where
  source : List Char
  passes : Nat := 0
  fixesApplied : Nat := 0
  isConverged : Bool := false
  journal : Journal := []

/-- Where a fix run stands after one more pass, given what the pass brought forth. -/
def Progress.afterPass (progress : Progress) (path : String) (pass : Pass) : Progress :=
  let number := progress.passes + 1
  let rejected := pass.fixer.rejectedCount
  let journal := progress.journal ++ .passStarted path number true :: pass.journal
    ++ if rejected > 0 then [.changesetsRejected path rejected number] else []
  if pass.fixer.fixCount = 0 then { progress with passes := number, isConverged := true, journal }
  else
    { progress with
      source := pass.fixer.contents
      passes := number
      fixesApplied := progress.fixesApplied + pass.fixer.fixCount
      journal }

/-- At most `passes` more passes of a fix run. -/
def fixPasses (path : String) : Nat → Ruleset → Progress → Ruleset × Progress
  | 0, ruleset, progress => (ruleset, progress)
  | passes + 1, ruleset, progress =>
    let stream := Stream.ofSource progress.source
    let (ruleset, pass) := ruleset.process path stream { fixer := .ofStream stream true }
    let progress := progress.afterPass path pass
    if progress.isConverged then (ruleset, progress) else fixPasses path passes ruleset progress

/-- Fixes a source. -/
def fix (runner : Runner) (path : String) (source : List Char) : Fixed × Runner :=
  let (ruleset, progress) := fixPasses path runner.maxPasses runner.ruleset { source }
  let (final, runner) := { runner with ruleset }.check path progress.source
  let ended := .fixEnded path progress.passes progress.fixesApplied progress.isConverged
  ({ source := progress.source
     passes := progress.passes
     fixesApplied := progress.fixesApplied
     isConverged := progress.isConverged
     remaining := final.report
     journal := progress.journal ++ ended :: final.journal }, runner)

end Runner

end PhpStyle
