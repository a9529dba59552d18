import PhpStyle.Journal
import PhpStyle.Report

/-!
# Rules

A rule listens to some kinds of tokens and is called once for each such token of
a file. A call reads the file and adds to the `Pass`: diagnostics and metrics go
to its report, edits to its fixer and events to its journal. A rule may keep a
state from call to call.

Most rules need no more than to say what they find at a token. They are written
as functions from a token to its `Finding`s, each of which carries the edits that
repair it, and `Rule.ofFindings` does the rest: what such a rule reports cannot
depend on whether fixing is enabled, nor on the edits of other rules.
-/

namespace PhpStyle

/-- The file of a pass. The generation tells passes apart, also over the same path. -/
structure File where
  path : String
  generation : Nat
  stream : Stream
deriving Repr, Inhabited

/-- What a pass over a file brings forth. -/
structure Pass where
  report : Report := {}
  fixer : Fixer
  journal : Journal := []
deriving Repr, Inhabited

/-- The diagnostic of a rule at a token. A token outside the file has no place. -/
def Stream.diagnosticAt (stream : Stream) (severity : Severity) (ruleCode code message : String)
    (anchor : Nat) (isFixable : Bool) : Diagnostic where
  code := s!"{ruleCode}.{code}"
  message
  severity
  anchor
  line := (stream.line? anchor).getD 0
  column := ((stream.get? anchor).map fun token => token.column).getD 0
  isFixable

/-- A violation found at a token, and the edits that repair it if there are any. -/
structure Violation where
  message : String
  anchor : Nat
  code : String
  repair : Option (List Edit) := none
deriving DecidableEq, Repr, Inhabited

/-- What a rule finds at a token. -/
inductive Finding where
  | metric (metric : Metric)
  | violation (violation : Violation)
deriving DecidableEq, Repr, Inhabited

namespace Pass

/-- Adds a diagnostic to the report. -/
def add (pass : Pass) (diagnostic : Diagnostic) : Pass :=
  { pass with report := pass.report.add diagnostic }

/-- Adds a metric to the report. -/
def addMetric (pass : Pass) (metric : Metric) : Pass :=
  { pass with report := pass.report.addMetric metric }

/-- Adds an event to the journal. -/
def note (pass : Pass) (event : Event) : Pass :=
  { pass with journal := pass.journal ++ [event] }

/-- Makes the edits of a repair. A refusal is noted. -/
def repair (pass : Pass) (path rule : String) (edits : List Edit) : Pass :=
  match pass.fixer.apply edits with
  | (.ok _, fixer) => { pass with fixer }
  | (.error error, fixer) => { pass with fixer }.note (.changesetRefused path rule error)

end Pass

/-- How a rule is presented. -/
structure RuleInfo where
  name : String
  /-- The first part of the codes of its diagnostics. -/
  code : String
  description : String
deriving DecidableEq, Repr, Inhabited

namespace RuleInfo

/-- Records a finding. A violation is repaired if it can be and if fixing is enabled. -/
def record (rule : RuleInfo) (file : File) (pass : Pass) : Finding → Pass
  | .metric metric => pass.addMetric metric
  | .violation violation =>
    let pass := pass.add <| file.stream.diagnosticAt .error rule.code violation.code
      violation.message violation.anchor violation.repair.isSome
    match violation.repair with
    | some edits => if pass.fixer.isEnabled then pass.repair file.path rule.name edits else pass
    | none => pass

/-- Records findings in order. -/
def recordAll (rule : RuleInfo) (file : File) (pass : Pass) (findings : List Finding) : Pass :=
  findings.foldl (rule.record file) pass

end RuleInfo

/-- A rule of the coding standard. -/
structure Rule extends RuleInfo where
  /-- The kinds of the tokens that the rule is called for. -/
  listens : List Kind
  /-- What the rule keeps from call to call. -/
  State : Type
  initial : State
  /-- A call at a token. -/
  visit : File → Nat → State → Pass → State × Pass

/-- A rule that keeps nothing and only says what it finds at a token. -/
def Rule.ofFindings (info : RuleInfo) (listens : List Kind) (find : Stream → Nat → List Finding) :
    Rule where
  toRuleInfo := info
  listens
  State := Unit
  initial := ()
  visit := fun file index state pass => (state, info.recordAll file pass (find file.stream index))

end PhpStyle
