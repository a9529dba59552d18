import PhpStyle.Rule
import PhpStyle.Stream.Scope

/-!
# The comma after the last item of an array

In an array literal that spans several lines the last item is followed by a
comma. A fix adds it.
-/

namespace PhpStyle.Standard.ArrayComma

/-- How the rule is presented. -/
def info : RuleInfo where
  name := "multi_line_array_comma"
  code := "Symfony.Formatting.MultiLineArrayCommaAfterLastElement"
  description := "Add a comma after each item in a multi-line array"

/-- The last significant token of an array literal that spans lines. -/
def lastToken? (stream : Stream) (index : Nat) : Option Nat := do
  let scope ← stream.scopeOf? index
  if stream.line? scope.opener = stream.line? scope.closer ∨ scope.closer = 0 then none
  else stream.previousSignificant (scope.closer - 1) (scope.opener + 1)

/-- The findings at the start of an array literal. -/
def find (stream : Stream) (index : Nat) : List Finding :=
  match lastToken? stream index with
  | none => []
  | some last =>
    if stream.kind? last = some .comma then []
    else
      [.violation
        { message := "Comma missing after last array item"
          anchor := last
          code := "CommaMissing"
          repair := some [.append last [',']] }]

/-- The rule. -/
def rule : Rule :=
  .ofFindings info [.arrayKw, .openShortArray] find

end PhpStyle.Standard.ArrayComma
