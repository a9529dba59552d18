import PhpStyle.Rule.Scoped
import PhpStyle.Stream.Declaration

/-!
# The order of methods

The methods of a class come in the order of their visibility: public methods
first, then protected ones, then private ones.
-/

namespace PhpStyle.Standard.MethodOrder

/-- How the rule is presented. -/
def info : RuleInfo where
  name := "method_visibility_order"
  code := "Symfony.Formatting.MethodVisibilityOrder"
  description := "Declare public methods first, then protected ones and finally private ones"

/-- The findings at a method, given the lowest visibility so far. -/
def find (stream : Stream) (index : Nat) (lowest : Option Visibility) :
    List Finding × Option Visibility × Option Nat :=
  let visibility := ((stream.modifiers? index).map Modifiers.visibility).getD .publicAccess
  let methodEnd := stream.declarationEnd? index
  if lowest.any fun current => visibility.rank < current.rank then
    ([.violation
      { message := "Methods must be ordered public, protected, private"
        anchor := index
        code := "OrderMethodsByVisibility" }], lowest, methodEnd)
  else ([], some visibility, methodEnd)

/-- The rule. -/
def rule : Rule :=
  (ScopedRule.ofFindings info [.classBody] [.functionKw] none find).toRule

end PhpStyle.Standard.MethodOrder
