import PhpStyle.Rule.Scoped
import PhpStyle.Stream.Declaration

/-!
# Properties before methods

The properties of a class are declared before its methods.
-/

namespace PhpStyle.Standard.PropertyOrder

/-- How the rule is presented. -/
def info : RuleInfo where
  name := "property_and_method_order"
  code := "Symfony.Formatting.PropertyAndMethodOrder"
  description := "Declare class properties before methods"

/-- The findings at a member, given whether a method has been seen. -/
def find (stream : Stream) (index : Nat) (methodSeen : Bool) :
    List Finding × Bool × Option Nat :=
  if stream.kind? index = some .functionKw then ([], true, stream.declarationEnd? index)
  else if methodSeen then
    ([.violation
      { message := "Class properties must be declared before methods"
        anchor := index
        code := "DeclarePropertiesBeforeMethods" }], true, none)
  else ([], false, none)

/-- The rule. -/
def rule : Rule :=
  (ScopedRule.ofFindings info [.classBody] [.functionKw, .variableName] false find).toRule

end PhpStyle.Standard.PropertyOrder
